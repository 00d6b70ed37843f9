import Mathlib.Algebra.BigOperators.Group.Finset.Basic
import Mathlib.Data.Finmap

/-!
# Tallies

Counting keys as they are met: what a map of counts says about the keys it counted.
-/

namespace Tallies

universe u

variable {κ : Type u} [DecidableEq κ]

abbrev Tally (κ : Type u) := Finmap fun _ : κ => ℕ

/-- One more of a key, the first one included. -/
def Tally.add (tally : Tally κ) (k : κ) : Tally κ :=
  tally.insert k ((tally.lookup k).elim 1 (· + 1))

/-- Each key that was met, with how often it was. -/
def Tally.Counts (tally : Tally κ) (met : List κ) : Prop :=
  ∀ k n, tally.lookup k = some n ↔ 0 < n ∧ met.count k = n

def Tally.total (tally : Tally κ) : ℕ := ∑ k ∈ tally.keys, (tally.lookup k).getD 0

namespace Tally
variable {tally : Tally κ} {met : List κ}

theorem counts_empty : Counts (∅ : Tally κ) [] := by
  intro k n
  rw [Finmap.lookup_empty, List.count_nil]
  constructor
  · intro h
    cases h
  · rintro ⟨hpos, rfl⟩
    exact absurd hpos (Nat.lt_irrefl 0)

theorem Counts.mem_iff (h : tally.Counts met) {k : κ} : k ∈ tally ↔ k ∈ met := by
  rw [Finmap.mem_iff, ← List.count_pos_iff]
  constructor
  · rintro ⟨n, hn⟩
    obtain ⟨hpos, heq⟩ := (h k n).mp hn
    omega
  · intro hpos
    exact ⟨_, (h k _).mpr ⟨hpos, rfl⟩⟩

theorem Counts.getD (h : tally.Counts met) (k : κ) : (tally.lookup k).getD 0 = met.count k := by
  cases hk : tally.lookup k with
  | none =>
    have hnot : k ∉ met := fun hmem =>
      absurd (h.mem_iff.mpr hmem) (Finmap.lookup_eq_none.mp hk)
    rw [List.count_eq_zero.mpr hnot]
    rfl
  | some n => exact ((h k n).mp hk).2.symm

theorem Counts.add (h : tally.Counts met) (k : κ) : (tally.add k).Counts (met ++ [k]) := by
  intro j n
  rw [Tally.add, List.count_append]
  by_cases hj : j = k
  · subst hj
    have hcount : (tally.lookup j).elim 1 (· + 1) = met.count j + 1 := by
      rw [← h.getD]
      cases tally.lookup j <;> rfl
    rw [Finmap.lookup_insert, hcount, List.count_singleton_self, Option.some.injEq]
    omega
  · have hother : [k].count j = 0 :=
      List.count_eq_zero.mpr fun hmem => hj (List.mem_singleton.mp hmem)
    rw [Finmap.lookup_insert_of_ne _ hj, hother, Nat.add_zero]
    exact h j n

/-- Counting the keys of a list one after the other counts the list. -/
theorem Counts.foldl (h : tally.Counts met) (more : List κ) :
    (more.foldl Tally.add tally).Counts (met ++ more) := by
  induction more generalizing tally met with
  | nil => rwa [List.append_nil]
  | cons k more ih =>
    rw [← List.singleton_append, ← List.append_assoc]
    exact ih (h.add k)

theorem Counts.total_eq (h : tally.Counts met) : tally.total = met.length := by
  have hkeys : tally.keys = met.toFinset := by
    ext k
    rw [Finmap.mem_keys, h.mem_iff, List.mem_toFinset]
  rw [total, hkeys, ← List.sum_toFinset_count_eq_length]
  exact Finset.sum_congr rfl fun k _ => h.getD k

end Tally

end Tallies
