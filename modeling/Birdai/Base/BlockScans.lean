import Birdai.Base.Outcomes
import Mathlib.Data.List.Infix

/-!
# Scans block by block

A search through blocks that stops at the first decision, against the search of one
long list, and a collection that takes blocks whole until it holds enough.
-/

namespace BlockScans

universe u v

variable {α β : Type u} {δ : Type v}

/-- What the first decision comes to: a failure, a find, or nothing. -/
def settled : Option (Except δ β) → Except δ (Option β)
  | none => .ok none
  | some (.ok b) => .ok (some b)
  | some (.error e) => .error e

theorem settled_eq_some_iff {d : Option (Except δ β)} {b : β} :
    settled d = .ok (some b) ↔ d = some (.ok b) := by
  rcases d with _ | (e | b') <;> simp [settled]

theorem settled_eq_none_iff {d : Option (Except δ β)} : settled d = .ok none ↔ d = none := by
  rcases d with _ | (e | b) <;> simp [settled]

theorem settled_eq_error_iff {d : Option (Except δ β)} {e : δ} :
    settled d = .error e ↔ d = some (.error e) := by
  rcases d with _ | (e' | b) <;> simp [settled]

/-- Renaming the failures commutes with settling. -/
theorem settled_mapError {δ' : Type v} (f : δ → δ') (d : Option (Except δ β)) :
    settled (d.map (Except.mapError f)) = (settled d).mapError f := by
  rcases d with _ | (e | b) <;> rfl

/-- Work behind a settled search that cannot fail leaves its failures as they are. -/
theorem bind_ok_eq_error_iff {γ : Type u} {x : Except δ β} {f : β → γ} {e : δ} :
    (x >>= fun b => .ok (f b)) = .error e ↔ x = .error e := by
  cases x <;> simp

/-- Blocks taken whole until this many are held. -/
def gather (n : ℕ) (held : List α) (blocks : List (List α)) : List α :=
  blocks.foldl (fun held block => if held.length < n then held ++ block else held) held

theorem gather_cons (n : ℕ) (held block : List α) (blocks : List (List α)) :
    gather n held (block :: blocks) =
      gather n (if held.length < n then held ++ block else held) blocks := rfl

theorem gather_of_le {n : ℕ} {held : List α} (h : n ≤ held.length) (blocks : List (List α)) :
    gather n held blocks = held := by
  induction blocks with
  | nil => rfl
  | cons block blocks ih =>
    rw [gather_cons, if_neg (not_lt.mpr h)]
    exact ih

/-- What is gathered starts the joined blocks, and it is all of them or long enough. -/
theorem gather_spec (n : ℕ) (held : List α) (blocks : List (List α)) :
    gather n held blocks <+: held ++ blocks.flatten ∧
      (gather n held blocks = held ++ blocks.flatten ∨ n ≤ (gather n held blocks).length) := by
  induction blocks generalizing held with
  | nil => exact ⟨by simp [gather], .inl (by simp [gather])⟩
  | cons block blocks ih =>
    by_cases hlength : held.length < n
    · rw [gather_cons, if_pos hlength, List.flatten_cons, ← List.append_assoc]
      exact ih (held ++ block)
    · rw [gather_of_le (not_lt.mp hlength)]
      exact ⟨List.prefix_append _ _, .inr (not_lt.mp hlength)⟩

theorem gather_starts (n : ℕ) (blocks : List (List α)) : gather n [] blocks <+: blocks.flatten :=
  (gather_spec n [] blocks).1

theorem gather_enough (n : ℕ) (blocks : List (List α)) :
    min n blocks.flatten.length ≤ (gather n [] blocks).length := by
  rcases (gather_spec n [] blocks).2 with hall | henough
  · rw [hall, List.nil_append]
    exact min_le_right _ _
  · exact (min_le_left _ _).trans henough

/-- Nothing gathered means nothing was there. -/
theorem gather_eq_nil_iff {n : ℕ} (hn : 0 < n) (blocks : List (List α)) :
    gather n [] blocks = [] ↔ blocks.flatten = [] := by
  constructor
  · intro hnil
    have henough := gather_enough n blocks
    rw [hnil, List.length_nil, Nat.le_zero, Nat.min_eq_zero_iff] at henough
    exact List.length_eq_zero_iff.mp (henough.resolve_left hn.ne')
  · intro hnil
    have hprefix := gather_starts n blocks
    rw [hnil] at hprefix
    exact List.prefix_nil.mp hprefix

end BlockScans
