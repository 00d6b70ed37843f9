import Mathlib.Data.Finmap
import Mathlib.Data.Finset.Max
import Mathlib.Data.Finset.Sort

/-!
# Finite maps with ordered keys

A finite map built entry by entry, and the range queries of an ordered map: the
least and the greatest key that satisfy a condition.
-/

namespace OrderedKeys

universe u v

variable {κ : Type u} {β : Type v}

/-- The map that inserting the entries in order builds. -/
def ofEntries [DecidableEq κ] (entries : List (κ × β)) : Finmap fun _ : κ => β :=
  entries.foldl (fun m e => m.insert e.1 e.2) ∅

theorem ofEntries_concat [DecidableEq κ] (entries : List (κ × β)) (e : κ × β) :
    ofEntries (entries ++ [e]) = (ofEntries entries).insert e.1 e.2 := by
  simp [ofEntries]

theorem mem_ofEntries [DecidableEq κ] {entries : List (κ × β)} {k : κ} :
    k ∈ ofEntries entries ↔ ∃ e ∈ entries, e.1 = k := by
  induction entries using List.reverseRecOn with
  | nil => simp [ofEntries, Finmap.notMem_empty]
  | append_singleton entries e ih =>
    rw [ofEntries_concat, Finmap.mem_insert, ih]
    simp only [List.mem_append, List.mem_singleton]
    grind

/-- With distinct keys the map holds exactly the entries. -/
theorem lookup_ofEntries [DecidableEq κ] {entries : List (κ × β)}
    (hnodup : (entries.map Prod.fst).Nodup) {k : κ} {v : β} :
    (ofEntries entries).lookup k = some v ↔ (k, v) ∈ entries := by
  induction entries using List.reverseRecOn with
  | nil => simp [ofEntries]
  | append_singleton entries e ih =>
    obtain ⟨k', v'⟩ := e
    rw [List.map_append, List.nodup_append] at hnodup
    obtain ⟨hnodup, _, hfresh⟩ := hnodup
    rw [ofEntries_concat, List.mem_append, List.mem_singleton, Prod.mk.injEq]
    by_cases hk : k = k'
    · subst hk
      rw [Finmap.lookup_insert]
      constructor
      · intro h
        exact .inr ⟨rfl, (Option.some.inj h).symm⟩
      · rintro (h | ⟨_, rfl⟩)
        · exact absurd rfl
            (hfresh k (List.mem_map.mpr ⟨_, h, rfl⟩) k (by simp))
        · rfl
    · rw [Finmap.lookup_insert_of_ne _ hk, ih hnodup]
      simp [hk]

variable [LinearOrder κ]

/-- The first key of the range the condition describes. -/
def leastKey (m : Finmap fun _ : κ => β) (p : κ → Prop) [DecidablePred p] : Option κ :=
  (m.keys.filter p).min

/-- The last key of the range the condition describes. -/
def greatestKey (m : Finmap fun _ : κ => β) (p : κ → Prop) [DecidablePred p] : Option κ :=
  (m.keys.filter p).max

variable {m : Finmap fun _ : κ => β} {p : κ → Prop} [DecidablePred p]

theorem leastKey_eq_some_iff {k : κ} :
    leastKey m p = some k ↔ k ∈ m ∧ p k ∧ ∀ j ∈ m, p j → k ≤ j := by
  constructor
  · intro h
    have hmem := Finset.mem_of_min h
    rw [Finset.mem_filter, Finmap.mem_keys] at hmem
    refine ⟨hmem.1, hmem.2, fun j hj hp => Finset.min_le_of_eq ?_ h⟩
    rw [Finset.mem_filter, Finmap.mem_keys]
    exact ⟨hj, hp⟩
  · rintro ⟨hk, hp, hleast⟩
    have hmem : k ∈ m.keys.filter p := by
      rw [Finset.mem_filter, Finmap.mem_keys]
      exact ⟨hk, hp⟩
    obtain ⟨j, hj⟩ := Finset.min_of_mem hmem
    have hjmem := Finset.mem_of_min hj
    rw [Finset.mem_filter, Finmap.mem_keys] at hjmem
    have heq : j = k := le_antisymm (Finset.min_le_of_eq hmem hj) (hleast j hjmem.1 hjmem.2)
    exact heq ▸ hj

theorem greatestKey_eq_some_iff {k : κ} :
    greatestKey m p = some k ↔ k ∈ m ∧ p k ∧ ∀ j ∈ m, p j → j ≤ k := by
  constructor
  · intro h
    have hmem := Finset.mem_of_max h
    rw [Finset.mem_filter, Finmap.mem_keys] at hmem
    refine ⟨hmem.1, hmem.2, fun j hj hp => Finset.le_max_of_eq ?_ h⟩
    rw [Finset.mem_filter, Finmap.mem_keys]
    exact ⟨hj, hp⟩
  · rintro ⟨hk, hp, hgreatest⟩
    have hmem : k ∈ m.keys.filter p := by
      rw [Finset.mem_filter, Finmap.mem_keys]
      exact ⟨hk, hp⟩
    obtain ⟨j, hj⟩ := Finset.max_of_mem hmem
    have hjmem := Finset.mem_of_max hj
    rw [Finset.mem_filter, Finmap.mem_keys] at hjmem
    have heq : j = k := le_antisymm (hgreatest j hjmem.1 hjmem.2) (Finset.le_max_of_eq hmem hj)
    exact heq ▸ hj

theorem leastKey_eq_none_iff : leastKey m p = none ↔ ∀ k ∈ m, ¬ p k := by
  have hempty : leastKey m p = none ↔ m.keys.filter p = ∅ := Finset.min_eq_top
  rw [hempty, Finset.filter_eq_empty_iff]
  simp only [Finmap.mem_keys]

theorem greatestKey_eq_none_iff : greatestKey m p = none ↔ ∀ k ∈ m, ¬ p k := by
  have hempty : greatestKey m p = none ↔ m.keys.filter p = ∅ := Finset.max_eq_bot
  rw [hempty, Finset.filter_eq_empty_iff]
  simp only [Finmap.mem_keys]

/-- The values in key order. -/
def values (m : Finmap fun _ : κ => β) : List β := (m.keys.sort (· ≤ ·)).filterMap m.lookup

theorem mem_values {v : β} : v ∈ values m ↔ ∃ k, m.lookup k = some v := by
  rw [values, List.mem_filterMap]
  constructor
  · rintro ⟨k, _, hlookup⟩
    exact ⟨k, hlookup⟩
  · rintro ⟨k, hlookup⟩
    refine ⟨k, ?_, hlookup⟩
    rw [Finset.mem_sort, Finmap.mem_keys]
    exact Finmap.mem_iff.mpr ⟨v, hlookup⟩

/-- The members of a finite set, in order. -/
def ordered (s : Finset κ) : List κ := s.sort (· ≤ ·)

theorem mem_ordered {s : Finset κ} {k : κ} : k ∈ ordered s ↔ k ∈ s := Finset.mem_sort _

/-- A list sorted, then without repetitions. -/
def sortDedup {α : Type v} (r : α → α → Prop) [DecidableRel r] [DecidableEq α] (l : List α) :
    List α :=
  (l.insertionSort r).dedup

theorem mem_sortDedup {α : Type v} {r : α → α → Prop} [DecidableRel r] [DecidableEq α]
    {l : List α} {a : α} : a ∈ sortDedup r l ↔ a ∈ l := by
  rw [sortDedup, List.mem_dedup]
  exact (List.perm_insertionSort r l).mem_iff

theorem sortDedup_eq_nil_iff {α : Type v} {r : α → α → Prop} [DecidableRel r] [DecidableEq α]
    {l : List α} : sortDedup r l = [] ↔ l = [] := by
  simp only [List.eq_nil_iff_forall_not_mem, mem_sortDedup]

theorem two_le_length_iff {α : Type v} {l : List α} (hnodup : l.Nodup) :
    2 ≤ l.length ↔ ∃ a ∈ l, ∃ b ∈ l, a ≠ b := by
  rcases l with _ | ⟨a, _ | ⟨b, rest⟩⟩
  · simp
  · simp
  · have hne : a ≠ b := by
      rintro rfl
      exact (List.nodup_cons.mp hnodup).1 List.mem_cons_self
    constructor
    · intro _
      exact ⟨a, List.mem_cons_self, b, List.mem_cons_of_mem _ List.mem_cons_self, hne⟩
    · intro _
      simp only [List.length_cons]
      omega

theorem two_le_length_sortDedup {α : Type v} {r : α → α → Prop} [DecidableRel r] [DecidableEq α]
    {l : List α} : 2 ≤ (sortDedup r l).length ↔ ∃ a ∈ l, ∃ b ∈ l, a ≠ b := by
  have hnodup : (sortDedup r l).Nodup := List.nodup_dedup _
  simp only [two_le_length_iff hnodup, mem_sortDedup]

/-- In an ordered list, the first element past a bound is the least past it. -/
theorem find?_eq_some_iff_least {α : Type v} {f : α → κ} {l : List α}
    (hordered : l.Pairwise fun a b => f a < f b) {x : κ} {b : α} :
    l.find? (fun a => x < f a) = some b ↔
      b ∈ l ∧ x < f b ∧ ∀ a ∈ l, x < f a → f b ≤ f a := by
  induction l with
  | nil => simp
  | cons a rest ih =>
    rw [List.pairwise_cons] at hordered
    by_cases ha : x < f a
    · rw [List.find?_cons_of_pos (by simpa using ha)]
      constructor
      · intro h
        obtain rfl := Option.some.inj h
        refine ⟨List.mem_cons_self, ha, ?_⟩
        rintro c (_ | ⟨_, hc⟩) _
        · exact le_rfl
        · exact (hordered.1 c hc).le
      · rintro ⟨hb, _, hleast⟩
        rcases List.mem_cons.mp hb with rfl | hb
        · rfl
        · exact absurd (hordered.1 b hb) (not_lt.mpr (hleast a List.mem_cons_self ha))
    · rw [List.find?_cons_of_neg (by simpa using ha), ih hordered.2]
      constructor
      · rintro ⟨hb, hlt, hleast⟩
        refine ⟨List.mem_cons_of_mem _ hb, hlt, ?_⟩
        rintro c (_ | ⟨_, hc⟩) hc'
        · exact absurd hc' ha
        · exact hleast c hc hc'
      · rintro ⟨hb, hlt, hleast⟩
        rcases List.mem_cons.mp hb with rfl | hb
        · exact absurd hlt ha
        · exact ⟨hb, hlt, fun c hc => hleast c (List.mem_cons_of_mem _ hc)⟩

end OrderedKeys
