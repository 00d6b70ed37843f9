import Mathlib.Algebra.Order.BigOperators.Group.List
import Mathlib.Tactic.Abel

/-!
# Runs of a labelled step relation

A run is a list of labels with the steps they name. What every step preserves, a run
preserves, also where it depends on what is still to come, and what every step is worth
adds up over the run.
-/

namespace LabelledRuns

universe u v w

variable {σ : Type u} {ε : Type v}

/-- From one state to another by the steps of these labels. -/
inductive Run (step : σ → ε → σ → Prop) : σ → List ε → σ → Prop where
  | nil (s : σ) : Run step s [] s
  | cons {s t u : σ} {e : ε} {es : List ε} : step s e t → Run step t es u → Run step s (e :: es) u

namespace Run
variable {step : σ → ε → σ → Prop} {s t u : σ} {e : ε} {es : List ε}

theorem nil_eq (h : Run step s [] t) : t = s := by
  cases h
  rfl

theorem cons_iff : Run step s (e :: es) u ↔ ∃ t, step s e t ∧ Run step t es u := by
  constructor
  · intro h
    cases h with
    | cons hstep hrest => exact ⟨_, hstep, hrest⟩
  · rintro ⟨t, hstep, hrest⟩
    exact .cons hstep hrest

/-- The rule of invariants, with the labels still to come. -/
theorem invariant {I : σ → List ε → Prop} (h : Run step s es t)
    (keep : ∀ {s e es t}, I s (e :: es) → step s e t → I t es) (hs : I s es) : I t [] := by
  induction h with
  | nil _ => exact hs
  | cons hstep _ ih => exact ih (keep hs hstep)

theorem preserves {I : σ → Prop} (h : Run step s es t)
    (keep : ∀ {s e t}, I s → step s e t → I t) (hs : I s) : I t :=
  h.invariant (I := fun s _ => I s) (fun hs hstep => keep hs hstep) hs

/-! ### What steps write -/

/-- The last thing written by the labels that write at all. -/
def lastOf {β : Type w} (found : ε → Option β) (es : List ε) : Option β :=
  (es.filterMap found).getLast?

/-- Where a step shows what it writes and leaves the rest, a run shows what was last written. -/
theorem look_eq_lastOf {β : Type w} (look : σ → Option β) (found : ε → Option β)
    (h : Run step s es t)
    (shows : ∀ {s e t}, step s e t → look t = (found e).or (look s)) :
    look t = (lastOf found es).or (look s) := by
  induction h with
  | nil s => rfl
  | @cons s t u e es hstep _ ih =>
    rw [ih, shows hstep, lastOf, lastOf, List.filterMap_cons]
    cases found e with
    | none => rfl
    | some b =>
      dsimp only
      rw [List.getLast?_cons, Option.some_or]
      cases (es.filterMap found).getLast? <;> rfl

/-! ### What steps are worth -/

/-- A value that no step raises by more than its gain. -/
theorem value_le {M : Type w} [AddCommGroup M] [PartialOrder M] [IsOrderedAddMonoid M]
    {I : σ → List ε → Prop} (value : σ → M) (gain : ε → M) (h : Run step s es t)
    (keep : ∀ {s e es t}, I s (e :: es) → step s e t → I t es)
    (bound : ∀ {s e es t}, I s (e :: es) → step s e t → value t ≤ value s + gain e)
    (hs : I s es) : value t ≤ value s + (es.map gain).sum := by
  induction h with
  | nil s => rw [List.map_nil, List.sum_nil, add_zero]
  | @cons s t u e es hstep _ ih =>
    have hrest := ih (keep hs hstep)
    have hfirst := bound hs hstep
    calc
      value u ≤ value t + (es.map gain).sum := hrest
      _ ≤ value s + gain e + (es.map gain).sum := add_le_add_left hfirst _
      _ = value s + ((e :: es).map gain).sum := by rw [List.map_cons, List.sum_cons, add_assoc]

end Run

/-- The sum over every label and the one after it. -/
def turns {M : Type w} [AddCommGroup M] (turn : ε → ε → M) : List ε → M
  | e :: f :: rest => turn e f + turns turn (f :: rest)
  | _ => 0

namespace Run
variable {step : σ → ε → σ → Prop} {s t : σ} {e : ε} {es : List ε}

/-- Steps of several kinds, each of which moves a value by the change of its kind's level:
over a run the value follows the levels, up to what is lost where one kind gives way to
the next. -/
theorem value_eq {M : Type w} {κ : Type*} [AddCommGroup M] (value : σ → M) (kind : ε → κ)
    (level : κ → σ → M) (turn : ε → ε → M) (h : Run step s (e :: es) t)
    (moves : ∀ {s e t}, step s e t → value t = value s + (level (kind e) t - level (kind e) s))
    (turned : ∀ {s e t} f, step s e t → level (kind e) t = level (kind f) t + turn e f) :
    value t = value s + (level (kind ((e :: es).getLast (List.cons_ne_nil e es))) t -
      level (kind e) s) + turns turn (e :: es) := by
  induction es generalizing s e with
  | nil =>
    obtain ⟨t', hstep, hrest⟩ := cons_iff.mp h
    have hlast : turns turn [e] = 0 := rfl
    rw [nil_eq hrest, List.getLast_singleton, hlast, add_zero, moves hstep]
  | cons f rest ih =>
    obtain ⟨t', hstep, hrest⟩ := cons_iff.mp h
    rw [ih hrest, List.getLast_cons (List.cons_ne_nil f rest), turns, moves hstep,
      turned f hstep]
    abel

end Run

/-! ### Steps that may be refused -/

/-- The state that these labels lead to, if none of their steps is refused. -/
def runAll (step : σ → ε → Option σ) (s : σ) (es : List ε) : Option σ := es.foldlM step s

section runAll
variable {step : σ → ε → Option σ} {s t u : σ} {e : ε} {es fs : List ε}

theorem runAll_append : runAll step s (es ++ fs) =
    (runAll step s es).bind fun t => runAll step t fs :=
  List.foldlM_append

theorem runAll_of_step (h : step s e = some t) : runAll step s (e :: es) = runAll step t es := by
  rw [runAll, List.foldlM_cons, h, Option.bind_eq_bind, Option.bind_some, runAll]

theorem runAll_cons_iff :
    runAll step s (e :: es) = some u ↔ ∃ t, step s e = some t ∧ runAll step t es = some u :=
  Option.bind_eq_some_iff

theorem runAll_concat_iff : runAll step s (es ++ [e]) = some u ↔
    ∃ t, runAll step s es = some t ∧ step t e = some u := by
  rw [runAll_append, Option.bind_eq_some_iff]
  refine exists_congr fun t => and_congr_right fun _ => ?_
  rw [runAll_cons_iff]
  constructor
  · rintro ⟨_, hstep, hrest⟩
    cases hrest
    exact hstep
  · exact fun hstep => ⟨u, hstep, rfl⟩

/-- It is a run of any relation that its own steps satisfy. -/
theorem run_of_runAll {R : σ → ε → σ → Prop} (h : runAll step s es = some t)
    (holds : ∀ e ∈ es, ∀ s t, step s e = some t → R s e t) : Run R s es t := by
  induction es generalizing s with
  | nil =>
    cases h
    exact .nil _
  | cons e rest ih =>
    obtain ⟨s₁, hstep, hrest⟩ := runAll_cons_iff.mp h
    refine .cons (holds e List.mem_cons_self s s₁ hstep) (ih hrest fun e he => ?_)
    exact holds e (List.mem_cons_of_mem _ he)

theorem runAll_preserves {I : σ → Prop} (h : runAll step s es = some t)
    (keep : ∀ e ∈ es, ∀ s t, I s → step s e = some t → I t) (hs : I s) : I t :=
  (run_of_runAll (R := fun s _ t => I s → I t) h
    fun e he s t hstep hs => keep e he s t hs hstep).preserves (fun hs hstep => hstep hs) hs

end runAll

end LabelledRuns
