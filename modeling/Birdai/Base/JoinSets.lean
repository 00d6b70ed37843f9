import Birdai.Base.Outcomes
import Birdai.Base.OrderedKeys
import Mathlib.Data.List.Flatten
import Mathlib.Data.List.Sort

/-!
# Sets of running tasks

Tasks started together come back in any order. What is gathered as they come back,
sorted by where each task stood, is what the tasks give one after the other.
-/

namespace JoinSets

open Outcomes OrderedKeys

universe u v

variable {ε : Type v} {α β : Type u}

/-- The order a join set hands its tasks back in: each time any of those still running. -/
inductive Joins : List α → List α → Prop where
  | done : Joins [] []
  | next {before after order : List α} {a : α} :
      Joins (before ++ after) order → Joins (before ++ a :: after) (a :: order)

theorem joins_iff_perm {running order : List α} : Joins running order ↔ order.Perm running := by
  constructor
  · intro h
    induction h with
    | done => exact .nil
    | next _ ih => exact (ih.cons _).trans List.perm_middle.symm
  · intro h
    induction order generalizing running with
    | nil =>
      rw [List.nil_perm.mp h]
      exact .done
    | cons a order ih =>
      obtain ⟨before, after, rfl⟩ := List.append_of_mem (h.subset List.mem_cons_self)
      exact .next (ih (h.trans List.perm_middle).cons_inv)

/-! ### Gathering -/

/-- What a task gave is kept, if it gave anything; a failure stops the gathering. -/
def gather (task : α → Except ε (Option β)) (gathered : List β) (a : α) : Except ε (List β) := do
  let given ← task a
  .ok (gathered ++ given.toList)

theorem gather_all {task : α → Except ε (Option β)} {given : α → Option β} {order : List α}
    (h : ∀ a ∈ order, task a = .ok (given a)) (gathered : List β) :
    order.foldlM (gather task) gathered = .ok (gathered ++ order.filterMap given) := by
  induction order generalizing gathered with
  | nil =>
    rw [List.filterMap_nil, List.append_nil]
    rfl
  | cons a order ih =>
    have hstep : gather task gathered a = .ok (gathered ++ (given a).toList) := by
      rw [gather, h a List.mem_cons_self, ok_bind]
    rw [List.foldlM_cons, hstep, ok_bind, ih fun b hb => h b (List.mem_cons_of_mem _ hb),
      List.append_assoc]
    cases hgiven : given a with
    | none => rw [List.filterMap_cons_none hgiven, Option.toList_none, List.nil_append]
    | some b => rw [List.filterMap_cons_some hgiven, Option.toList_some, List.singleton_append]

/-- A task that fails fails the gathering, with its own error or that of one before it. -/
theorem gather_fails {task : α → Except ε (Option β)} {order : List α}
    (h : ∃ a ∈ order, ∃ e, task a = .error e) (gathered : List β) :
    ∃ a ∈ order, ∃ e, task a = .error e ∧ order.foldlM (gather task) gathered = .error e := by
  induction order generalizing gathered with
  | nil =>
    obtain ⟨a, ha, _⟩ := h
    cases ha
  | cons a order ih =>
    rw [List.foldlM_cons, gather]
    cases htask : task a with
    | error e => exact ⟨a, List.mem_cons_self, e, htask, rfl⟩
    | ok given =>
      have hlater : ∃ b ∈ order, ∃ e, task b = .error e := by
        obtain ⟨b, hb, e, he⟩ := h
        rcases List.mem_cons.mp hb with rfl | hb
        · rw [htask] at he
          cases he
        · exact ⟨b, hb, e, he⟩
      obtain ⟨b, hb, e, he, hfold⟩ := ih hlater (gathered ++ given.toList)
      exact ⟨b, List.mem_cons_of_mem _ hb, e, he, hfold⟩

/-! ### Restoring the order -/

/-- A list in strictly rising order of its keys is what sorting any arrangement of it gives. -/
theorem insertionSort_eq {key : β → ℕ} {arranged l : List β} (hperm : arranged.Perm l)
    (hrising : l.Pairwise fun a b => key a < key b) :
    arranged.insertionSort (fun a b => key a ≤ key b) = l := by
  have : Std.Total fun a b : β => key a ≤ key b := ⟨fun a b => Nat.le_total (key a) (key b)⟩
  have : IsTrans β fun a b : β => key a ≤ key b := ⟨fun a b c => Nat.le_trans⟩
  have hsorted := List.pairwise_insertionSort (fun a b : β => key a ≤ key b) arranged
  have hsame := (List.perm_insertionSort (fun a b : β => key a ≤ key b) arranged).trans hperm
  have hkeys : (l.map key).Nodup := by
    rw [List.Nodup, List.pairwise_map]
    exact hrising.imp Nat.ne_of_lt
  have hdistinct := (hsame.map key).nodup_iff.mpr hkeys
  rw [List.Nodup, List.pairwise_map] at hdistinct
  have hstrict := (hsorted.and hdistinct).imp fun h => Nat.lt_of_le_of_ne h.1 h.2
  exact hsame.eq_of_pairwise (fun a b _ _ hab hba => absurd hab (Nat.lt_asymm hba)) hstrict hrising

/-- Where each element stands in the list. -/
def positions [DecidableEq α] (l : List α) : Finmap fun _ : α => ℕ := ofEntries l.zipIdx

theorem lookup_positions [DecidableEq α] {l : List α} (hnodup : l.Nodup) {a : α} {n : ℕ} :
    (positions l).lookup a = some n ↔ (a, n) ∈ l.zipIdx := by
  apply lookup_ofEntries
  rwa [List.zipIdx_map_fst]

/-- Along the list the positions rise. -/
theorem positions_rising [DecidableEq α] {l : List α} (hnodup : l.Nodup) {key : α → ℕ}
    (hkey : ∀ a n, (positions l).lookup a = some n → key a = n) :
    l.Pairwise fun a b => key a < key b := by
  have hzip : l.zipIdx.Pairwise fun a b => a.2 < b.2 := by
    rw [← List.pairwise_map (f := Prod.snd) (R := (· < ·)), List.zipIdx_map_snd]
    exact List.pairwise_lt_range'
  rw [← List.zipIdx_map_fst 0 l, List.pairwise_map]
  refine hzip.imp_of_mem fun {a b} ha hb hlt => ?_
  rw [hkey a.1 a.2 ((lookup_positions hnodup).mpr ha),
    hkey b.1 b.2 ((lookup_positions hnodup).mpr hb)]
  exact hlt

end JoinSets
