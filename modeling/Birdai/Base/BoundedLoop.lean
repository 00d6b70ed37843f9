import Mathlib.Data.Nat.Notation
import Mathlib.Logic.Basic
import Birdai.Base.Outcomes

/-!
# Loops with a measure

A loop is a body together with the measure its repeated passes decrease, so
running it is a total function. The rules below are the only way the rest of
the development looks inside a run: an invariant rule, a rule that relates the
runs of two loops, and a log that watches a run without changing it.
-/

namespace BoundedLoop

open Outcomes

universe u v w

/-- What one pass through the body decides: leave the loop, or go round again. -/
inductive Pass (σ : Type u) where
  | leave (s : σ)
  | again (s : σ)
  deriving DecidableEq

def Pass.state {σ : Type u} : Pass σ → σ
  | .leave s => s
  | .again s => s

def Pass.map {σ : Type u} {τ : Type v} (f : σ → τ) : Pass σ → Pass τ
  | .leave s => .leave (f s)
  | .again s => .again (f s)

structure Loop (ε : Type v) (σ : Type u) where
  body : σ → Except ε (Pass σ)
  measure : σ → ℕ
  decreases : ∀ s t, body s = .ok (.again t) → measure t < measure s

namespace Loop
variable {ε : Type v} {σ : Type u} (L : Loop ε σ)

def run (s : σ) : Except ε σ :=
  match _round : L.body s with
  | .error e => .error e
  | .ok (.leave t) => .ok t
  | .ok (.again t) => run t
termination_by L.measure s
decreasing_by exact L.decreases s t _round

theorem run_of_error {s : σ} {e : ε} (h : L.body s = .error e) : L.run s = .error e := by
  rw [run]
  split <;> simp_all

theorem run_of_leave {s t : σ} (h : L.body s = .ok (.leave t)) : L.run s = .ok t := by
  rw [run]
  split <;> simp_all

theorem run_of_again {s t : σ} (h : L.body s = .ok (.again t)) : L.run s = L.run t := by
  rw [run]
  split <;> simp_all

/-- Rule induction over a run: one case for each way a pass can end. -/
theorem run_induct {P : σ → Except ε σ → Prop}
    (fails : ∀ s e, L.body s = .error e → P s (.error e))
    (leaves : ∀ s t, L.body s = .ok (.leave t) → P s (.ok t))
    (repeats : ∀ s t, L.body s = .ok (.again t) → P t (L.run t) → P s (L.run t))
    (s : σ) : P s (L.run s) := by
  induction hm : L.measure s using Nat.strongRecOn generalizing s with
  | ind m ih =>
    subst hm
    match h : L.body s with
    | .error e => exact L.run_of_error h ▸ fails s e h
    | .ok (.leave t) => exact L.run_of_leave h ▸ leaves s t h
    | .ok (.again t) =>
      exact L.run_of_again h ▸ repeats s t h (ih _ (L.decreases s t h) t rfl)

/-- A run that succeeds is a successful pass and what follows it. -/
theorem run_ok_cases {s t : σ} (h : L.run s = .ok t) :
    ∃ p, L.body s = .ok p ∧ (p = .leave t ∨ ∃ u, p = .again u ∧ L.run u = .ok t) := by
  match hb : L.body s with
  | .error e =>
    rw [L.run_of_error hb] at h
    cases h
  | .ok (.leave u) =>
    rw [L.run_of_leave hb] at h
    cases h
    exact ⟨_, rfl, .inl rfl⟩
  | .ok (.again u) =>
    rw [L.run_of_again hb] at h
    exact ⟨_, rfl, .inr ⟨u, rfl, h⟩⟩

/-- The loop settles on an outcome after the given number of passes. The relation
knows the body only, so settling is a property of the loop, not of its measure. -/
inductive Settles (body : σ → Except ε (Pass σ)) : ℕ → σ → Except ε σ → Prop where
  | fails {s : σ} {e : ε} : body s = .error e → Settles body 1 s (.error e)
  | leaves {s t : σ} : body s = .ok (.leave t) → Settles body 1 s (.ok t)
  | repeats {s t : σ} {n : ℕ} {r : Except ε σ} :
      body s = .ok (.again t) → Settles body n t r → Settles body (n + 1) s r

theorem run_settles (s : σ) : ∃ n, n ≤ L.measure s + 1 ∧ Settles L.body n s (L.run s) := by
  refine L.run_induct (P := fun s r => ∃ n, n ≤ L.measure s + 1 ∧ Settles L.body n s r)
    ?_ ?_ ?_ s
  · intro s e hb
    exact ⟨1, by omega, .fails hb⟩
  · intro s t hb
    exact ⟨1, by omega, .leaves hb⟩
  · intro s t hb ih
    obtain ⟨n, hn, hsettles⟩ := ih
    have hdec := L.decreases s t hb
    exact ⟨n + 1, by omega, .repeats hb hsettles⟩

/-- What every repeated pass preserves still holds before the pass that ends the run. -/
theorem run_last_pass {I : σ → Prop}
    (again : ∀ s t, I s → L.body s = .ok (.again t) → I t)
    {s t : σ} (hrun : L.run s = .ok t) (hs : I s) :
    ∃ u, I u ∧ L.body u = .ok (.leave t) := by
  have key : ∀ s, I s → ∀ t, L.run s = .ok t → ∃ u, I u ∧ L.body u = .ok (.leave t) := by
    intro s
    refine L.run_induct
      (P := fun s r => I s → ∀ t, r = .ok t → ∃ u, I u ∧ L.body u = .ok (.leave t)) ?_ ?_ ?_ s
    · intro s e _ _ t h
      cases h
    · intro s u hb hi t h
      cases h
      exact ⟨s, hi, hb⟩
    · intro s u hb ih hi
      exact ih (again s u hi hb)
  exact key s hs t hrun

/-- What one pass preserves, a whole run preserves. -/
theorem run_invariant {I : σ → Prop}
    (pass : ∀ s p, I s → L.body s = .ok p → I p.state)
    {s t : σ} (hrun : L.run s = .ok t) (hs : I s) : I t := by
  obtain ⟨u, hu, hlast⟩ := L.run_last_pass (fun s t => pass s (.again t)) hrun hs
  exact pass u _ hu hlast

/-- What the first pass establishes and every pass preserves holds after the run. -/
theorem run_invariant_of_first {I : σ → Prop} {s t : σ}
    (first : ∀ p, L.body s = .ok p → I p.state)
    (pass : ∀ s p, I s → L.body s = .ok p → I p.state)
    (hrun : L.run s = .ok t) : I t := by
  obtain ⟨p, hb, rfl | ⟨u, rfl, hrun⟩⟩ := L.run_ok_cases hrun
  · exact first _ hb
  · exact L.run_invariant pass hrun (first _ hb)

/-- A failed run ends with a failing pass. -/
theorem run_failing_pass {I : σ → Prop}
    (again : ∀ s t, I s → L.body s = .ok (.again t) → I t)
    {s : σ} {e : ε} (hrun : L.run s = .error e) (hs : I s) :
    ∃ u, I u ∧ L.body u = .error e := by
  have key : ∀ s, I s → ∀ e, L.run s = .error e → ∃ u, I u ∧ L.body u = .error e := by
    intro s
    refine L.run_induct
      (P := fun s r => I s → ∀ e, r = .error e → ∃ u, I u ∧ L.body u = .error e) ?_ ?_ ?_ s
    · intro s e hb hi e' h
      cases h
      exact ⟨s, hi, hb⟩
    · intro s u _ _ e h
      cases h
    · intro s u hb ih hi
      exact ih (again s u hi hb)
  exact key s hs e hrun

/-- The states a run comes to between its passes. -/
inductive Comes (s : σ) : σ → Prop where
  | start : Comes s s
  | again {t u : σ} : Comes s t → L.body t = .ok (.again u) → Comes s u

theorem run_of_comes {s t : σ} (h : L.Comes s t) : L.run s = L.run t := by
  induction h with
  | start => rfl
  | again _ hb ih => exact ih.trans (L.run_of_again hb)

/-- A run ends exactly where a pass it comes to leaves the loop. -/
theorem run_eq_ok_iff {s f : σ} :
    L.run s = .ok f ↔ ∃ t, L.Comes s t ∧ L.body t = .ok (.leave f) := by
  constructor
  · intro hrun
    exact L.run_last_pass (fun t u ht hb => .again ht hb) hrun .start
  · rintro ⟨t, ht, hb⟩
    exact (L.run_of_comes ht).trans (L.run_of_leave hb)

/-- A run fails exactly where a pass it comes to fails. -/
theorem run_eq_error_iff {s : σ} {e : ε} :
    L.run s = .error e ↔ ∃ t, L.Comes s t ∧ L.body t = .error e := by
  constructor
  · intro hrun
    exact L.run_failing_pass (fun t u ht hb => .again ht hb) hrun .start
  · rintro ⟨t, ht, hb⟩
    exact (L.run_of_comes ht).trans (L.run_of_error hb)

end Loop

/-- How the outcomes of two passes correspond under a relation of the states. -/
inductive PassRel {σ : Type u} {τ : Type w} (R : σ → τ → Prop) : Pass σ → Pass τ → Prop where
  | leave {s : σ} {t : τ} : R s t → PassRel R (.leave s) (.leave t)
  | again {s : σ} {t : τ} : R s t → PassRel R (.again s) (.again t)

/-- Simulation: bodies that agree on related states run to agreeing outcomes. -/
theorem run_simulates {ε : Type v} {σ : Type u} {τ : Type w} (L : Loop ε σ) (M : Loop ε τ)
    {R : σ → τ → Prop}
    (pass : ∀ s t, R s t → OutcomeRel (PassRel R) (L.body s) (M.body t))
    {s : σ} {t : τ} (hst : R s t) : OutcomeRel R (L.run s) (M.run t) := by
  have key : ∀ t, R s t → OutcomeRel R (L.run s) (M.run t) := by
    refine L.run_induct (P := fun s r => ∀ t, R s t → OutcomeRel R r (M.run t)) ?_ ?_ ?_ s
    · intro s e hb t hst
      have hp := pass s t hst
      rw [hb] at hp
      generalize hm : M.body t = o at hp
      cases hp with
      | error => exact M.run_of_error hm ▸ .error e
    · intro s u hb t hst
      have hp := pass s t hst
      rw [hb] at hp
      generalize hm : M.body t = o at hp
      cases hp with
      | ok hr => cases hr with
        | leave hr => exact M.run_of_leave hm ▸ .ok hr
    · intro s u hb ih t hst
      have hp := pass s t hst
      rw [hb] at hp
      generalize hm : M.body t = o at hp
      cases hp with
      | ok hr => cases hr with
        | again hr => exact M.run_of_again hm ▸ ih _ hr
  exact key t hst

/-- The same loop with a log beside its state: each pass appends what it shows. -/
def Loop.logged {ε : Type v} {σ : Type u} (L : Loop ε σ) {α : Type w}
    (shows : σ → Pass σ → List α) : Loop ε (σ × List α) where
  body s := match L.body s.1 with
    | .error e => .error e
    | .ok p => .ok (p.map fun t => (t, s.2 ++ shows s.1 p))
  measure s := L.measure s.1
  decreases := by
    rintro ⟨s, l⟩ ⟨t, l'⟩ h
    dsimp only at h ⊢
    split at h
    · cases h
    · rename_i p hp
      cases p with
      | leave u => cases h
      | again u =>
        simp only [Pass.map, Except.ok.injEq, Pass.again.injEq, Prod.mk.injEq] at h
        exact h.1 ▸ L.decreases s u hp

/-- The log does not disturb the run it watches. -/
theorem Loop.logged_run {ε : Type v} {σ : Type u} (L : Loop ε σ) {α : Type w}
    (shows : σ → Pass σ → List α) (s : σ) (l : List α) :
    ((L.logged shows).run (s, l)).map Prod.fst = L.run s := by
  have h : OutcomeRel (fun (a : σ × List α) b => a.1 = b)
      ((L.logged shows).run (s, l)) (L.run s) := by
    refine run_simulates (L.logged shows) L ?_ rfl
    rintro ⟨s, l⟩ t rfl
    simp only [Loop.logged]
    cases L.body s with
    | error e => exact .error e
    | ok p => cases p with
      | leave u => exact .ok (.leave rfl)
      | again u => exact .ok (.again rfl)
  generalize (L.logged shows).run (s, l) = x at h
  generalize L.run s = y at h
  cases h with
  | error => rfl
  | ok h => exact congrArg Except.ok h

/-- An invariant may speak of the log too. -/
theorem Loop.logged_invariant {ε : Type v} {σ : Type u} (L : Loop ε σ) {α : Type w}
    {shows : σ → Pass σ → List α} {I : σ → List α → Prop}
    (pass : ∀ s l p, I s l → L.body s = .ok p → I p.state (l ++ shows s p))
    {s t : σ} {l m : List α} (hrun : (L.logged shows).run (s, l) = .ok (t, m)) (hs : I s l) :
    I t m := by
  refine (L.logged shows).run_invariant (I := fun a => I a.1 a.2) ?_ hrun hs
  rintro ⟨u, k⟩ q hu hq
  simp only [Loop.logged] at hq
  split at hq
  · cases hq
  · rename_i p hp
    cases hq
    have hnext := pass u k p hu hp
    cases p with
    | leave => exact hnext
    | again => exact hnext

end BoundedLoop
