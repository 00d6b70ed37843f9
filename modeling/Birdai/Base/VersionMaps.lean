import Birdai.Base.OrderedKeys
import Mathlib.Data.List.Pairwise

/-!
# Maps of versions

Ordered maps as lists of entries, the latest value of a map, and when a listing over
all versions of all keys is one over the latest versions only.
-/

namespace VersionMaps

open OrderedKeys

universe u v w

variable {κ : Type u} {β : Type v} [LinearOrder κ]

/-- An ordered map is a list of entries with rising keys. -/
theorem exists_entries (m : Finmap fun _ : κ => β) : ∃ entries : List (κ × β),
    values m = entries.map Prod.snd ∧ entries.Pairwise (fun a b => a.1 < b.1) ∧
      ∀ k b, (k, b) ∈ entries ↔ m.lookup k = some b := by
  refine ⟨(m.keys.sort (· ≤ ·)).filterMap fun k => (m.lookup k).map (k, ·), ?_, ?_, ?_⟩
  · rw [values, List.map_filterMap]
    congr 1
    funext k
    cases m.lookup k <;> rfl
  · rw [List.pairwise_filterMap]
    refine (Finset.sortedLT_sort m.keys).pairwise.imp ?_
    intro k j hlt a ha b hb
    obtain ⟨_, _, rfl⟩ := Option.map_eq_some_iff.mp ha
    obtain ⟨_, _, rfl⟩ := Option.map_eq_some_iff.mp hb
    exact hlt
  · intro k b
    rw [List.mem_filterMap]
    constructor
    · rintro ⟨j, _, hj⟩
      obtain ⟨c, hc, heq⟩ := Option.map_eq_some_iff.mp hj
      cases heq
      exact hc
    · intro h
      refine ⟨k, ?_, by rw [h]; rfl⟩
      rw [Finset.mem_sort, Finmap.mem_keys]
      exact Finmap.mem_iff.mpr ⟨b, h⟩

/-- Entries with rising keys are the entries of the map they build. -/
theorem values_ofEntries {entries : List (κ × β)} (h : entries.Pairwise fun a b => a.1 < b.1) :
    values (ofEntries entries) = entries.map Prod.snd := by
  obtain ⟨entries', hvalues, hsorted, hmem⟩ := exists_entries (ofEntries entries)
  have hkeys : (entries.map Prod.fst).Nodup :=
    List.pairwise_map.mpr (h.imp fun hlt => hlt.ne)
  have hsame : ∀ e, e ∈ entries' ↔ e ∈ entries := fun e =>
    (hmem e.1 e.2).trans (lookup_ofEntries hkeys)
  have hnodup : ∀ {l : List (κ × β)}, l.Pairwise (fun a b => a.1 < b.1) → l.Nodup :=
    fun hl => hl.imp fun hlt heq => hlt.ne (congrArg Prod.fst heq)
  have hperm : entries'.Perm entries :=
    (List.perm_ext_iff_of_nodup (hnodup hsorted) (hnodup h)).mpr hsame
  rw [hvalues, hperm.eq_of_pairwise (fun _ _ _ _ hab hba => absurd hab hba.not_gt) hsorted h]

theorem lookup_single {k j : κ} {b c : β} :
    (ofEntries [(k, b)]).lookup j = some c ↔ j = k ∧ c = b := by
  have hkeys : ([(k, b)].map Prod.fst).Nodup := List.nodup_singleton k
  rw [lookup_ofEntries hkeys, List.mem_singleton, Prod.mk.injEq]

/-- The value under the last key. -/
def latest (m : Finmap fun _ : κ => β) : Option β := (values m).getLast?

/-- The latest value stands under a key that no other key exceeds. -/
theorem latest_eq_some_iff {m : Finmap fun _ : κ => β} {b : β} :
    latest m = some b ↔ ∃ k, m.lookup k = some b ∧ ∀ j ∈ m, j ≤ k := by
  obtain ⟨entries, hvalues, hsorted, hmem⟩ := exists_entries m
  rw [latest, hvalues, List.getLast?_map, Option.map_eq_some_iff]
  constructor
  · rintro ⟨e, hlast, rfl⟩
    obtain ⟨init, rfl⟩ := List.getLast?_eq_some_iff.mp hlast
    refine ⟨e.1, (hmem _ _).mp (List.mem_append_right _ (.head _)), fun j hj => ?_⟩
    obtain ⟨c, hc⟩ := Finmap.mem_iff.mp hj
    rcases List.mem_append.mp ((hmem j c).mpr hc) with hinit | hend
    · exact ((List.pairwise_append.mp hsorted).2.2 _ hinit e (.head _)).le
    · rw [← List.mem_singleton.mp hend]
  · rintro ⟨k, hlookup, hgreatest⟩
    have hentry := (hmem k b).mpr hlookup
    obtain ⟨init, e, rfl⟩ :=
      (List.eq_nil_or_concat entries).resolve_left (List.ne_nil_of_mem hentry)
    rw [List.concat_eq_append] at hsorted hmem hentry ⊢
    refine ⟨e, List.getLast?_concat, ?_⟩
    have hle : e.1 ≤ k := hgreatest _
      (Finmap.mem_of_lookup_eq_some ((hmem _ _).mp (List.mem_append_right _ (.head _))))
    rcases List.mem_append.mp hentry with hinit | hend
    · exact absurd ((List.pairwise_append.mp hsorted).2.2 _ hinit e (.head _)) (not_lt.mpr hle)
    · rw [← List.mem_singleton.mp hend]

theorem values_concat (m : Finmap fun _ : κ => β) {b : β} (h : latest m = some b) :
    values m = (values m).dropLast ++ [b] := by
  obtain ⟨init, hinit⟩ := List.getLast?_eq_some_iff.mp h
  rw [hinit, List.dropLast_concat]

/-- The values before the last one are those with a later key above them. -/
theorem mem_dropLast_values {m : Finmap fun _ : κ => β} {b : β} :
    b ∈ (values m).dropLast ↔ ∃ k j, m.lookup k = some b ∧ k < j ∧ j ∈ m := by
  obtain ⟨entries, hvalues, hsorted, hmem⟩ := exists_entries m
  rw [hvalues]
  rcases List.eq_nil_or_concat entries with rfl | ⟨init, last, rfl⟩
  · simp only [List.map_nil, List.dropLast_nil, List.not_mem_nil, false_iff]
    rintro ⟨k, j, hk, _, _⟩
    cases (hmem k b).mpr hk
  · rw [List.concat_eq_append] at hsorted hmem ⊢
    rw [List.map_append, List.map_singleton, List.dropLast_concat, List.mem_map]
    rw [List.pairwise_append] at hsorted
    constructor
    · rintro ⟨e, he, rfl⟩
      refine ⟨e.1, last.1, (hmem _ _).mp (List.mem_append_left _ he), ?_, ?_⟩
      · exact hsorted.2.2 e he last List.mem_cons_self
      · exact Finmap.mem_iff.mpr ⟨last.2, (hmem _ _).mp (by simp)⟩
    · rintro ⟨k, j, hk, hlt, hj⟩
      obtain ⟨c, hc⟩ := Finmap.mem_iff.mp hj
      have hke := List.mem_append.mp ((hmem k b).mpr hk)
      have hje := List.mem_append.mp ((hmem j c).mpr hc)
      rcases hke with hke | hke
      · exact ⟨_, hke, rfl⟩
      · -- The last key has no later one.
        cases List.mem_singleton.mp hke
        rcases hje with hje | hje
        · exact absurd (hsorted.2.2 _ hje (k, b) List.mem_cons_self) (not_lt.mpr hlt.le)
        · cases List.mem_singleton.mp hje
          exact absurd hlt (lt_irrefl k)

/-! ### Listings -/

section listings
variable {ν : Type w} {ρ : Type} [LinearOrder ν]

/-- Everything picked from any version of any key. -/
def listing (pick : β → Option ρ) (m : Finmap fun _ : κ => Finmap fun _ : ν => β) : List ρ :=
  ((values m).flatMap values).filterMap pick

/-- What is picked under a key is one thing, told by the key. -/
def PicksByKey (key : ρ → κ) (pick : β → Option ρ)
    (m : Finmap fun _ : κ => Finmap fun _ : ν => β) : Prop :=
  ∀ k versions b r, m.lookup k = some versions → b ∈ values versions → pick b = some r → key r = k

/-- Each thing is listed once, and those listed are those the latest versions have. -/
structure ListsLatest (key : ρ → κ) (pick : β → Option ρ)
    (m : Finmap fun _ : κ => Finmap fun _ : ν => β) : Prop where
  once : (listing pick m).Nodup
  exactly : ∀ r, r ∈ listing pick m ↔
    ∃ versions b, m.lookup (key r) = some versions ∧ latest versions = some b ∧ pick b = some r

variable {key : ρ → κ} {pick : β → Option ρ} {m : Finmap fun _ : κ => Finmap fun _ : ν => β}

theorem picked_latest {versions : Finmap fun _ : ν => β}
    (h : ∀ b ∈ (values versions).dropLast, pick b = none) :
    (values versions).filterMap pick = ((latest versions).bind pick).toList := by
  cases hlatest : latest versions with
  | none =>
    rw [latest, List.getLast?_eq_none_iff] at hlatest
    rw [hlatest]
    rfl
  | some b =>
    rw [values_concat versions hlatest, List.filterMap_append,
      List.filterMap_eq_nil_iff.mpr h, List.nil_append]
    cases hpick : pick b <;> simp [hpick]

theorem mem_listing {r : ρ} : r ∈ listing pick m ↔
    ∃ k versions, m.lookup k = some versions ∧ r ∈ (values versions).filterMap pick := by
  rw [listing, List.filterMap_flatMap, List.mem_flatMap]
  constructor
  · rintro ⟨versions, hversions, hr⟩
    obtain ⟨k, hk⟩ := mem_values.mp hversions
    exact ⟨k, versions, hk, hr⟩
  · rintro ⟨k, versions, hk, hr⟩
    exact ⟨versions, mem_values.mpr ⟨k, hk⟩, hr⟩

/-- A key whose older version is listed has no latest version to list once more. -/
theorem older_not_listed (hpick : PicksByKey key pick m) (h : ListsLatest key pick m) {k : κ}
    {versions : Finmap fun _ : ν => β} (hversions : m.lookup k = some versions) {b : β}
    (hb : b ∈ (values versions).dropLast) : pick b = none := by
  cases hpicked : pick b with
  | none => rfl
  | some r =>
    have hmemb : b ∈ values versions := List.mem_of_mem_dropLast hb
    have hlisted : r ∈ listing pick m :=
      mem_listing.mpr ⟨k, versions, hversions, List.mem_filterMap.mpr ⟨b, hmemb, hpicked⟩⟩
    obtain ⟨versions', c, hlookup, hlatest, hc⟩ := (h.exactly r).mp hlisted
    rw [hpick k versions b r hversions hmemb hpicked, hversions] at hlookup
    cases hlookup
    have hnodup := h.once
    rw [listing, List.filterMap_flatMap, List.nodup_flatMap] at hnodup
    have hown := hnodup.1 versions (mem_values.mpr ⟨k, hversions⟩)
    rw [values_concat versions hlatest, List.filterMap_append, List.nodup_append] at hown
    refine absurd rfl (hown.2.2 r ?_ r ?_)
    · exact List.mem_filterMap.mpr ⟨b, hb, hpicked⟩
    · exact List.mem_filterMap.mpr ⟨c, List.mem_singleton_self c, hc⟩

theorem listing_nodup (hpick : PicksByKey key pick m)
    (h : ∀ k versions, m.lookup k = some versions →
      ∀ b ∈ (values versions).dropLast, pick b = none) : (listing pick m).Nodup := by
  obtain ⟨entries, hvalues, hsorted, hmem⟩ := exists_entries m
  have hkeyed : ∀ e ∈ entries, ∀ r ∈ (values e.2).filterMap pick, key r = e.1 := by
    intro e he r hr
    obtain ⟨b, hb, hpicked⟩ := List.mem_filterMap.mp hr
    exact hpick e.1 e.2 b r ((hmem _ _).mp he) hb hpicked
  rw [listing, hvalues, List.flatMap_map, List.filterMap_flatMap, List.nodup_flatMap]
  constructor
  · intro e he
    rw [picked_latest (h e.1 e.2 ((hmem _ _).mp he))]
    cases (latest e.2).bind pick <;> simp
  · refine hsorted.imp_of_mem ?_
    intro e e' he he' hlt r hr hr'
    exact absurd ((hkeyed e he r hr).symm.trans (hkeyed e' he' r hr')) hlt.ne

/-- A listing over all versions is one of the latest versions exactly when it picks
nothing from any other. -/
theorem listsLatest_iff (hpick : PicksByKey key pick m) :
    ListsLatest key pick m ↔
      ∀ k versions, m.lookup k = some versions →
        ∀ b ∈ (values versions).dropLast, pick b = none := by
  constructor
  · intro h k versions hversions b hb
    exact older_not_listed hpick h hversions hb
  · intro h
    refine ⟨listing_nodup hpick h, fun r => mem_listing.trans ?_⟩
    constructor
    · rintro ⟨k, versions, hversions, hr⟩
      obtain ⟨c, hc, hpicked⟩ := List.mem_filterMap.mp hr
      rw [picked_latest (h k versions hversions), Option.mem_toList] at hr
      obtain ⟨b, hlatest, hb⟩ := Option.bind_eq_some_iff.mp hr
      refine ⟨versions, b, ?_, hlatest, hb⟩
      rw [hpick k versions c r hversions hc hpicked, hversions]
    · rintro ⟨versions, b, hlookup, hlatest, hb⟩
      refine ⟨_, versions, hlookup, ?_⟩
      rw [picked_latest (h _ versions hlookup), Option.mem_toList]
      exact Option.bind_eq_some_iff.mpr ⟨b, hlatest, hb⟩

end listings

end VersionMaps
