import Mathlib.Data.List.Infix
import Mathlib.Data.Nat.Notation

/-!
# Codes that tell where they end

Codes of values written one after the other can be told apart when each code is
recognised whatever follows it: codes no one of which starts another, codes of one
length, and words up to the first symbol that is not of the word.
-/

namespace PrefixCodes

universe u v

variable {α : Type u} {β : Type v}

/-- No code of the list starts another. -/
def PrefixFree (codes : List (List β)) : Prop :=
  ∀ k ∈ codes, ∀ k' ∈ codes, k <+: k' → k = k'

instance decidablePrefixFree [DecidableEq β] (codes : List (List β)) :
    Decidable (PrefixFree codes) :=
  inferInstanceAs (Decidable (∀ k ∈ codes, ∀ k' ∈ codes, k <+: k' → k = k'))

/-- One of the two starts the other, so that both can stand at the start of one text. -/
def Comparable (k k' : List β) : Prop := k <+: k' ∨ k' <+: k

theorem comparable_of_starts {k k' text : List β} (h : k <+: text) (h' : k' <+: text) :
    Comparable k k' := List.prefix_or_prefix_of_prefix h h'

theorem Comparable.symm {k k' : List β} (h : Comparable k k') : Comparable k' k := Or.symm h

theorem Comparable.exists_append {k k' : List β} (h : Comparable k k') :
    ∃ r s, k ++ r = k' ++ s := by
  rcases h with ⟨r, hr⟩ | ⟨s, hs⟩
  · exact ⟨r, [], by rw [hr, List.append_nil]⟩
  · exact ⟨[], s, by rw [hs, List.append_nil]⟩

theorem PrefixFree.eq_of_comparable {codes : List (List β)} (h : PrefixFree codes)
    {k k' : List β} (hk : k ∈ codes) (hk' : k' ∈ codes) (hboth : Comparable k k') : k = k' := by
  rcases hboth with hle | hle
  · exact h k hk k' hk' hle
  · exact (h k' hk' k hk hle).symm

theorem PrefixFree.append {codes : List (List β)} (h : PrefixFree codes) {k k' r s : List β}
    (hk : k ∈ codes) (hk' : k' ∈ codes) (heq : k ++ r = k' ++ s) : k = k' ∧ r = s := by
  have hboth : Comparable k k' :=
    comparable_of_starts (List.prefix_append k r) (heq ▸ List.prefix_append k' s)
  obtain rfl := h.eq_of_comparable hk hk' hboth
  exact ⟨rfl, List.append_cancel_left heq⟩

section word
variable {P : β → Prop}

/-- A word ends at the first symbol that is not of the word. -/
theorem word_append {w w' r r' : List β} {c c' : β} (hw : ∀ x ∈ w, P x) (hw' : ∀ x ∈ w', P x)
    (hc : ¬ P c) (hc' : ¬ P c') (h : w ++ c :: r = w' ++ c' :: r') :
    w = w' ∧ c = c' ∧ r = r' := by
  induction w generalizing w' with
  | nil =>
    cases w' with
    | nil =>
      obtain ⟨hhead, htail⟩ := List.cons.inj h
      exact ⟨rfl, hhead, htail⟩
    | cons x w' => exact absurd ((List.cons.inj h).1 ▸ hw' x List.mem_cons_self) hc
  | cons x w ih =>
    cases w' with
    | nil => exact absurd ((List.cons.inj h).1 ▸ hw x List.mem_cons_self) hc'
    | cons y w' =>
      obtain ⟨hhead, htail⟩ := List.cons.inj h
      obtain ⟨rfl, hrest⟩ := ih (fun z hz => hw z (List.mem_cons_of_mem _ hz))
        (fun z hz => hw' z (List.mem_cons_of_mem _ hz)) htail
      exact ⟨by rw [hhead], hrest⟩

theorem forall_mem_concat {w : List β} {x : β} (hw : ∀ y ∈ w, P y) (hx : P x) :
    ∀ y ∈ w ++ [x], P y := by
  intro y hy
  rcases List.mem_append.mp hy with hy | hy
  · exact hw y hy
  · exact List.mem_singleton.mp hy ▸ hx

theorem append_cons_cons (w : List β) (x y : β) (s : List β) :
    w ++ x :: y :: s = (w ++ [x]) ++ y :: s := by
  rw [List.append_assoc]
  rfl

/-- A word and a two-symbol mark after it, when the second symbol is not of a word and
what follows does not start with such a symbol. -/
theorem marked_append {w w' t t' : List β} {lo lo' hi hi' : β} (hw : ∀ x ∈ w, P x)
    (hw' : ∀ x ∈ w', P x) (hhi : ¬ P hi) (hhi' : ¬ P hi')
    (ht : ∀ s, t ≠ hi' :: s) (ht' : ∀ s, t' ≠ hi :: s)
    (h : w ++ lo :: hi :: t = w' ++ lo' :: hi' :: t') :
    w = w' ∧ lo = lo' ∧ hi = hi' ∧ t = t' := by
  by_cases hlo : P lo
  · by_cases hlo' : P lo'
    · rw [append_cons_cons w, append_cons_cons w'] at h
      obtain ⟨hwords, rfl, rfl⟩ :=
        word_append (forall_mem_concat hw hlo) (forall_mem_concat hw' hlo') hhi hhi' h
      obtain ⟨rfl, hlast⟩ := List.append_inj' hwords rfl
      exact ⟨rfl, (List.cons.inj hlast).1, rfl, rfl⟩
    · rw [append_cons_cons w] at h
      obtain ⟨_, _, htail⟩ := word_append (forall_mem_concat hw hlo) hw' hhi hlo' h
      exact absurd htail (ht t')
  · by_cases hlo' : P lo'
    · rw [append_cons_cons w'] at h
      obtain ⟨_, _, htail⟩ := word_append hw (forall_mem_concat hw' hlo') hlo hhi' h
      exact absurd htail.symm (ht' t)
    · obtain ⟨rfl, rfl, htail⟩ := word_append hw hw' hlo hlo' h
      obtain ⟨rfl, rfl⟩ := List.cons.inj htail
      exact ⟨rfl, rfl, rfl, rfl⟩

/-- A marked word is no word that a separator and a word symbol follow. -/
theorem marked_ne {w w' t t' : List β} {lo hi c b : β} (hw : ∀ x ∈ w, P x)
    (hw' : ∀ x ∈ w', P x) (hhi : ¬ P hi) (hc : ¬ P c) (hne : hi ≠ c) (hb : P b) :
    w ++ lo :: hi :: t ≠ w' ++ c :: b :: t' := by
  intro h
  by_cases hlo : P lo
  · rw [append_cons_cons w] at h
    exact hne (word_append (forall_mem_concat hw hlo) hw' hhi hc h).2.1
  · exact hhi ((List.cons.inj (word_append hw hw' hlo hc h).2.2).1 ▸ hb)

end word

end PrefixCodes
