import Mathlib.Data.List.ReduceOption
import Mathlib.Data.List.Count
import Mathlib.Data.Finmap

/-!
# Folds that touch one key at a time

A fold whose every event changes one key is, at each key, the fold of that key's
own events. A key that is put and removed by events has two readings: the events
in their order, or all puts first and then the removals. They agree exactly when
what was removed is removed last.
-/

namespace KeyedFolds

universe u v w x y

section keyed
variable {S : Type u} {ε : Type v} {κ : Type w} {β : Type x} [DecidableEq κ]

/-- At each key, only that key's events count. -/
theorem foldl_at (I : S → Prop) (step : S → ε → S) (look : S → κ → β) (key : ε → κ)
    (put : β → ε → β) (hI : ∀ s e, I s → I (step s e))
    (hstep : ∀ s e k, I s →
      look (step s e) k = if key e = k then put (look s k) e else look s k)
    (events : List ε) {s : S} (hs : I s) (k : κ) :
    look (events.foldl step s) k = (events.filter fun e => key e = k).foldl put (look s k) := by
  induction events generalizing s with
  | nil => rfl
  | cons e rest ih =>
    rw [List.foldl_cons, ih (hI s e hs), hstep s e k hs]
    by_cases hk : key e = k
    · rw [if_pos hk, List.filter_cons_of_pos (by simpa using hk), List.foldl_cons]
    · rw [if_neg hk, List.filter_cons_of_neg (by simpa using hk)]

theorem foldl_preserves {I : S → Prop} {step : S → ε → S} (hI : ∀ s e, I s → I (step s e))
    (events : List ε) {s : S} (hs : I s) : I (events.foldl step s) := by
  induction events generalizing s with
  | nil => exact hs
  | cons e rest ih => exact ih (hI s e hs)

/-- What every event appends, the fold collects. -/
theorem foldl_collects {step : S → ε → S} {look : S → List β} {found : ε → Option β}
    (hstep : ∀ s e, look (step s e) = look s ++ (found e).toList) (events : List ε) (s : S) :
    look (events.foldl step s) = look s ++ events.filterMap found := by
  induction events generalizing s with
  | nil => simp
  | cons e rest ih =>
    rw [List.foldl_cons, ih, hstep, List.append_assoc]
    cases hfound : found e with
    | none => rw [List.filterMap_cons_none hfound, Option.toList_none, List.nil_append]
    | some b => rw [List.filterMap_cons_some hfound, Option.toList_some, List.singleton_append]

theorem filter_key_of_nodup {keys : List κ} (h : keys.Nodup) (f : κ → κ × β)
    (hf : ∀ k, (f k).1 = k) (k : κ) :
    ((keys.map f).filter fun e => e.1 = k) = if k ∈ keys then [f k] else [] := by
  induction keys with
  | nil => rfl
  | cons a rest ih =>
    obtain ⟨hnot, hrest⟩ := List.nodup_cons.mp h
    rw [List.map_cons]
    by_cases ha : a = k
    · subst ha
      rw [List.filter_cons_of_pos (by simp [hf]), ih hrest, if_neg hnot,
        if_pos List.mem_cons_self]
    · rw [List.filter_cons_of_neg (by simpa [hf] using ha), ih hrest]
      have hmem : k ∈ a :: rest ↔ k ∈ rest := by simp [Ne.symm ha]
      simp only [hmem]

end keyed

/-! ### Keeping some of a finite map -/

section retain
variable {κ : Type w} {β : Type x} [DecidableEq κ]

/-- The cells of a finite map that pass a test. -/
def retain (cells : Finmap fun _ : κ => β) (keep : β → Bool) : Finmap fun _ : κ => β :=
  ⟨cells.entries.filter fun cell => keep cell.2,
    Multiset.nodup_keys.mp (Multiset.nodup_of_le
      (Multiset.map_le_map (Multiset.filter_le _ _)) cells.nodupKeys.nodup_keys)⟩

theorem lookup_retain (cells : Finmap fun _ : κ => β) (keep : β → Bool) (k : κ) :
    (retain cells keep).lookup k = (cells.lookup k).filter keep := by
  refine Option.ext fun b => ?_
  rw [← Option.mem_def, Finmap.mem_lookup_iff, Option.filter_eq_some_iff, ← Option.mem_def,
    Finmap.mem_lookup_iff]
  exact Multiset.mem_filter

end retain

/-! ### Changing every cell of a finite map -/

section map
variable {κ : Type w} {β : Type x} {γ : Type y}

/-- The cells of a finite map, each changed on its own. -/
def mapCells (f : β → γ) (cells : Finmap fun _ : κ => β) : Finmap fun _ : κ => γ :=
  ⟨cells.entries.map fun cell => ⟨cell.1, f cell.2⟩, Multiset.nodup_keys.mp (by
    rw [Multiset.keys, Multiset.map_map]
    exact cells.nodupKeys.nodup_keys)⟩

variable [DecidableEq κ] (f : β → γ) (cells : Finmap fun _ : κ => β) (k : κ)

theorem lookup_mapCells : (mapCells f cells).lookup k = (cells.lookup k).map f := by
  refine Option.ext fun c => ?_
  rw [← Option.mem_def, Finmap.mem_lookup_iff, Option.map_eq_some_iff]
  simp only [mapCells, Multiset.mem_map, ← Option.mem_def, Finmap.mem_lookup_iff]
  constructor
  · rintro ⟨⟨k', b⟩, hmem, heq⟩
    cases heq
    exact ⟨b, hmem, rfl⟩
  · rintro ⟨b, hmem, rfl⟩
    exact ⟨⟨k, b⟩, hmem, rfl⟩

theorem keys_mapCells : (mapCells f cells).keys = cells.keys := by
  ext k
  rw [Finmap.mem_keys, Finmap.mem_keys, ← Finmap.lookup_isSome, ← Finmap.lookup_isSome,
    lookup_mapCells, Option.isSome_map]

theorem mapCells_insert (b : β) :
    mapCells f (cells.insert k b) = (mapCells f cells).insert k (f b) := by
  refine Finmap.ext_lookup fun k' => ?_
  rw [lookup_mapCells]
  by_cases hk : k' = k
  · subst hk
    rw [Finmap.lookup_insert, Finmap.lookup_insert, Option.map_some]
  · rw [Finmap.lookup_insert_of_ne _ hk, Finmap.lookup_insert_of_ne _ hk, lookup_mapCells]

theorem mapCells_erase : mapCells f (cells.erase k) = (mapCells f cells).erase k := by
  refine Finmap.ext_lookup fun k' => ?_
  rw [lookup_mapCells]
  by_cases hk : k' = k
  · subst hk
    rw [Finmap.lookup_erase, Finmap.lookup_erase, Option.map_none]
  · rw [Finmap.lookup_erase_ne hk, Finmap.lookup_erase_ne hk, lookup_mapCells]

end map
/-! ### One cell, put and removed -/

section cell
variable {ε : Type v} {β : Type x} {put : Option β → ε → Option β}

/-- An event either puts something or removes what is there. -/
def touch (put : Option β → ε → Option β) (cell : Option β) (event : Option ε) : Option β :=
  event.elim none (put cell)

def inOrder (put : Option β → ε → Option β) (cell : Option β) (events : List (Option ε)) :
    Option β :=
  events.foldl (touch put) cell

/-- All puts first, then the removals. -/
def inBatches (put : Option β → ε → Option β) (cell : Option β) (events : List (Option ε)) :
    Option β :=
  if events.any Option.isNone then none else events.reduceOption.foldl put cell

theorem any_isNone_iff {events : List (Option ε)} :
    events.any Option.isNone = true ↔ none ∈ events := by
  simp [List.any_eq_true]

theorem inOrder_concat (cell : Option β) (events : List (Option ε)) (event : Option ε) :
    inOrder put cell (events ++ [event]) = touch put (inOrder put cell events) event := by
  rw [inOrder, List.foldl_append]
  rfl

/-- In order, the last event decides whether anything is there. -/
theorem isSome_inOrder (put : Option β → ε → Option β)
    (hput : ∀ cell e, (put cell e).isSome = true) (cell : Option β)
    (events : List (Option ε)) :
    (inOrder put cell events).isSome =
      match events.getLast? with
      | none => cell.isSome
      | some event => event.isSome := by
  induction events using List.reverseRecOn with
  | nil => rfl
  | append_singleton events event _ =>
    rw [inOrder_concat, List.getLast?_concat]
    cases event with
    | none => rfl
    | some e => exact hput _ e

theorem inOrder_of_no_removal {events : List (Option ε)} (h : none ∉ events)
    (cell : Option β) : inOrder put cell events = events.reduceOption.foldl put cell := by
  induction events generalizing cell with
  | nil => rfl
  | cons event rest ih =>
    cases event with
    | none => exact absurd List.mem_cons_self h
    | some e =>
      rw [List.reduceOption_cons_of_some]
      exact ih (fun hmem => h (List.mem_cons_of_mem _ hmem)) _

/-- The two readings agree, and agree in what one sees of the cell, exactly when a
removed cell is removed last. -/
theorem inBatches_eq_inOrder_iff {γ : Type w} (view : β → γ)
    (hput : ∀ cell e, (put cell e).isSome = true) (cell : Option β) (events : List (Option ε)) :
    ((inBatches put cell events).map view = (inOrder put cell events).map view ↔
      (none ∈ events → events.getLast? = some none)) ∧
    ((none ∈ events → events.getLast? = some none) →
      inBatches put cell events = inOrder put cell events) := by
  by_cases hmem : none ∈ events
  · have hbatches : inBatches put cell events = none := if_pos (any_isNone_iff.mpr hmem)
    have hlast := isSome_inOrder put hput cell events
    have hsome : events.getLast? ≠ none := by
      rw [ne_eq, List.getLast?_eq_none_iff]
      exact List.ne_nil_of_mem hmem
    obtain ⟨event, hevent⟩ := Option.ne_none_iff_exists'.mp hsome
    rw [hevent] at hlast
    simp only [hbatches, hmem, forall_const, hevent, Option.some.injEq]
    constructor
    · constructor
      · intro heq
        have hnone : inOrder put cell events = none := Option.map_eq_none_iff.mp heq.symm
        rw [hnone] at hlast
        exact Option.isNone_iff_eq_none.mp (by simpa using hlast.symm)
      · rintro rfl
        have hnone : inOrder put cell events = none := by simpa using hlast
        rw [hnone]
    · rintro rfl
      exact (by simpa using hlast : inOrder put cell events = none).symm
  · have heq : inBatches put cell events = inOrder put cell events := by
      rw [inBatches, if_neg (any_isNone_iff.not.mpr hmem), inOrder_of_no_removal hmem]
    exact ⟨iff_of_true (by rw [heq]) (fun h => absurd h hmem), fun _ => heq⟩

end cell

end KeyedFolds
