import Birdai.Resolve.PackageLineage

/-!
# Exact eviction

A cached layout outlives any run of operations that leave its own entry alone
exactly when none of the packages in its tree was observed past the version that
was live when it was cached.
-/

namespace Eviction

open WideArith MoveTypes AnyVenues PackageVersion LayoutRegistry PackageLineage KeyedFolds

/-- What callers do to a registry, one whole call after the other. -/
inductive Operation where
  | notePackages (versions : List (Address × U64))
  | lookup (tag : StructTag)
  | cache (tag : StructTag) (layout : Shared) (hash : Fingerprint)
  | invalidate (tag : StructTag)

def perform (r : Registry) : Operation → Registry
  | .notePackages versions => r.notePackages versions
  | .lookup tag => (r.lookup tag).2
  | .cache tag layout hash =>
    r.insert tag ⟨layout, collectDependencies layout.layout r.packages, hash⟩
  | .invalidate tag => r.invalidate tag

def performAll (r : Registry) (operations : List Operation) : Registry :=
  operations.foldl perform r

/-- The operation replaces or removes the entry of this tag. -/
def Touches (tag : StructTag) : Operation → Prop
  | .cache other _ _ => other = tag
  | .invalidate other => other = tag
  | _ => False

/-- The version was observed for the package somewhere in the run. -/
def Observed (operations : List Operation) (a : Address) (version : U64) : Prop :=
  ∃ versions, .notePackages versions ∈ operations ∧ (a, version) ∈ versions

/-! ### One operation -/

/-- An operation observes what the call of `note_packages` it is, if it is one, names. -/
def namedBy : Operation → List (Address × U64)
  | .notePackages versions => versions
  | _ => []

theorem observed_iff {operations : List Operation} {a : Address} {version : U64} :
    Observed operations a version ↔ ∃ op ∈ operations, (a, version) ∈ namedBy op := by
  constructor
  · rintro ⟨versions, hmem, hversion⟩
    exact ⟨_, hmem, hversion⟩
  · rintro ⟨op, hmem, hversion⟩
    cases op with
    | notePackages versions => exact ⟨versions, hmem, hversion⟩
    | _ => cases hversion

theorem perform_packages (r : Registry) (op : Operation) :
    (perform r op).packages = r.packages.observe (namedBy op) := by
  cases op with
  | notePackages versions =>
    simp only [perform, Registry.notePackages]
    split
    · rename_i hnone
      rw [namedBy, hnone]
      rfl
    · rfl
  | lookup tag => exact (lookup_registry r tag).2
  | _ => rfl

theorem stale_eq_of_packages {r r' : Registry} (h : r'.packages = r.packages)
    (entry : CachedLayout) : r'.stale entry = r.stale entry := by
  rw [Registry.stale, Registry.stale, h]

/-- After an operation that leaves its tag alone, an entry that was current before is
cached exactly when it is current still. -/
theorem perform_keeps {r : Registry} {op : Operation} {tag : StructTag} {entry : CachedLayout}
    (huntouched : ¬ Touches tag op) (hcached : r.cache.lookup tag = some entry)
    (hcurrent : r.stale entry = false) :
    (perform r op).cache.lookup tag =
      if (perform r op).stale entry then none else some entry := by
  cases op with
  | notePackages versions =>
    simp only [perform, Registry.notePackages]
    split
    · rw [hcurrent]
      exact hcached
    · have hcache : (r.observe versions).cache = r.cache := rfl
      have hstale : (r.observe versions).evict.stale entry = (r.observe versions).stale entry :=
        rfl
      rw [hstale, Registry.evict, lookup_retain, hcache, hcached, Option.filter_some]
      cases (r.observe versions).stale entry <;> rfl
  | lookup other =>
    have hstale := stale_eq_of_packages (lookup_registry r other).2 entry
    rw [perform, hstale, hcurrent, (lookup_registry r other).1]
    exact hcached
  | cache other layout hash =>
    have hne : tag ≠ other := fun he => huntouched he.symm
    have hstale : (perform r (.cache other layout hash)).stale entry = r.stale entry := rfl
    rw [hstale, hcurrent, perform, Registry.insert, Finmap.lookup_insert_of_ne _ hne]
    exact hcached
  | invalidate other =>
    have hne : tag ≠ other := fun he => huntouched he.symm
    have hstale : (perform r (.invalidate other)).stale entry = r.stale entry := rfl
    rw [hstale, hcurrent, perform, Registry.invalidate, Finmap.lookup_erase_ne hne]
    exact hcached

/-- An entry that is gone stays gone. -/
theorem perform_absent {r : Registry} {op : Operation} {tag : StructTag}
    (huntouched : ¬ Touches tag op) (habsent : r.cache.lookup tag = none) :
    (perform r op).cache.lookup tag = none := by
  cases op with
  | notePackages versions =>
    simp only [perform, Registry.notePackages]
    split
    · exact habsent
    · have hcache : (r.observe versions).cache = r.cache := rfl
      rw [Registry.evict, lookup_retain, hcache, habsent]
      rfl
  | lookup other => exact (lookup_registry r other).1 ▸ habsent
  | cache other layout hash =>
    have hne : tag ≠ other := fun he => huntouched he.symm
    exact (Finmap.lookup_insert_of_ne _ hne).trans habsent
  | invalidate other =>
    have hne : tag ≠ other := fun he => huntouched he.symm
    exact (Finmap.lookup_erase_ne hne).trans habsent

theorem stale_perform {r : Registry} {entry : CachedLayout} (op : Operation)
    (h : r.stale entry = true) : (perform r op).stale entry = true := by
  obtain ⟨a, version, hdependency, hlt⟩ := stale_iff.mp h
  refine stale_iff.mpr ⟨a, version, hdependency, hlt.trans_le ?_⟩
  rw [perform_packages]
  exact live_le_observe _ _ a

/-! ### Whole runs -/

theorem performAll_stale {r : Registry} {entry : CachedLayout} (operations : List Operation)
    (h : r.stale entry = true) : (performAll r operations).stale entry = true :=
  foldl_preserves (I := fun r : Registry => r.stale entry = true)
    (fun _ op => stale_perform op) operations h

theorem performAll_absent {r : Registry} {operations : List Operation} {tag : StructTag}
    (huntouched : ∀ op ∈ operations, ¬ Touches tag op) (h : r.cache.lookup tag = none) :
    (performAll r operations).cache.lookup tag = none := by
  induction operations generalizing r with
  | nil => exact h
  | cons op rest ih =>
    exact ih (fun o ho => huntouched o (List.mem_cons_of_mem _ ho))
      (perform_absent (huntouched op List.mem_cons_self) h)

theorem performAll_keeps {r : Registry} {operations : List Operation} {tag : StructTag}
    {entry : CachedLayout} (huntouched : ∀ op ∈ operations, ¬ Touches tag op)
    (hcached : r.cache.lookup tag = some entry) (hcurrent : r.stale entry = false) :
    (performAll r operations).cache.lookup tag =
      if (performAll r operations).stale entry then none else some entry := by
  induction operations generalizing r with
  | nil =>
    rw [performAll, List.foldl_nil, hcurrent]
    exact hcached
  | cons op rest ih =>
    have hrest : ∀ o ∈ rest, ¬ Touches tag o := fun o ho =>
      huntouched o (List.mem_cons_of_mem _ ho)
    have hstep := perform_keeps (huntouched op List.mem_cons_self) hcached hcurrent
    have hfold : performAll r (op :: rest) = performAll (perform r op) rest := rfl
    rw [hfold]
    cases hs : (perform r op).stale entry with
    | true =>
      rw [hs, if_pos rfl] at hstep
      rw [performAll_stale rest hs, if_pos rfl]
      exact performAll_absent hrest hstep
    | false =>
      rw [hs] at hstep
      exact ih hrest hstep hs

theorem lt_live_performAll_iff (r : Registry) (operations : List Operation) (a : Address)
    (version : U64) : version < (performAll r operations).packages.live a ↔
      version < r.packages.live a ∨ ∃ seen, Observed operations a seen ∧ version < seen := by
  simp only [observed_iff]
  induction operations generalizing r with
  | nil => simp [performAll]
  | cons op rest ih =>
    have hfold : performAll r (op :: rest) = performAll (perform r op) rest := rfl
    rw [hfold, ih, perform_packages, lt_live_observe_iff]
    simp only [List.mem_cons, or_and_right, exists_or, or_assoc, exists_eq_left]

/-- The version believed live is the greatest seen, whatever the order of the calls. -/
theorem live_performAll_greatest (r : Registry) (operations : List Operation) (a : Address) :
    IsGreatest ({r.packages.live a} ∪ {version | Observed operations a version})
      ((performAll r operations).packages.live a) := by
  have hbound : ∀ version, r.packages.live a = version ∨ Observed operations a version →
      version ≤ (performAll r operations).packages.live a := by
    intro version hseen
    by_contra hlt
    have hnone := lt_live_performAll_iff r operations a ((performAll r operations).packages.live a)
    rcases hseen with rfl | hseen
    · exact lt_irrefl _ (hnone.mpr (.inl (not_le.mp hlt)))
    · exact lt_irrefl _ (hnone.mpr (.inr ⟨version, hseen, not_le.mp hlt⟩))
  constructor
  · generalize hlive : (performAll r operations).packages.live a = live at hbound
    by_cases hzero : live.val = 0
    · have hle := hbound _ (.inl rfl)
      exact .inl (Fin.ext (show live.val = (r.packages.live a).val by
        rw [Fin.le_def] at hle
        omega))
    · -- The next lower version is below the live one, so something above it was seen.
      have hlt : (⟨live.val - 1, by omega⟩ : U64) < live :=
        Fin.lt_def.mpr (show live.val - 1 < live.val by omega)
      have hreached : ∀ version, live.val - 1 < version.val → version ≤ live → version = live := by
        intro version habove hle
        rw [Fin.le_def] at hle
        exact Fin.ext (by omega)
      rw [← hlive, lt_live_performAll_iff, hlive] at hlt
      rcases hlt with hlt | ⟨seen, hseen, hlt⟩
      · exact .inl (hreached _ hlt (hbound _ (.inl rfl))).symm
      · exact .inr (hreached _ hlt (hbound _ (.inr hseen)) ▸ hseen)
  · rintro version (rfl | hseen)
    · exact hbound _ (.inl rfl)
    · exact hbound _ (.inr hseen)

theorem stale_recorded_iff {r : Registry} {live : PackageVersions} {layout : Shared}
    {hash : Fingerprint} : r.stale ⟨layout, collectDependencies layout.layout live, hash⟩ = true ↔
      ∃ a, Mentions a layout.layout ∧ live.live a < r.packages.live a := by
  rw [stale_iff]
  simp only [mem_collectDependencies]
  constructor
  · rintro ⟨a, _, ⟨hmentions, rfl⟩, hlt⟩
    exact ⟨a, hmentions, hlt⟩
  · rintro ⟨a, hmentions, hlt⟩
    exact ⟨a, _, ⟨hmentions, rfl⟩, hlt⟩

/-- After any run that leaves its entry alone, a layout is still cached exactly when no
package in its tree was observed past the version live when it was cached. -/
theorem eviction_exact (r : Registry) (tag : StructTag) (layout : Shared) (hash : Fingerprint)
    (operations : List Operation) (huntouched : ∀ op ∈ operations, ¬ Touches tag op) :
    ((performAll (perform r (.cache tag layout hash)) operations).cache.lookup tag =
        some ⟨layout, collectDependencies layout.layout r.packages, hash⟩ ↔
      ∀ a, Mentions a layout.layout → ∀ version, Observed operations a version →
        version ≤ r.packages.live a) ∧
    ∀ a, IsGreatest ({r.packages.live a} ∪ {version | Observed operations a version})
      ((performAll (perform r (.cache tag layout hash)) operations).packages.live a) := by
  refine ⟨?_, fun a => live_performAll_greatest (perform r (.cache tag layout hash)) operations a⟩
  have hcached : (perform r (.cache tag layout hash)).cache.lookup tag =
      some ⟨layout, collectDependencies layout.layout r.packages, hash⟩ :=
    Finmap.lookup_insert _
  have hcurrent := recorded_current (r.insert tag
    ⟨layout, collectDependencies layout.layout r.packages, hash⟩) layout hash
  rw [performAll_keeps huntouched hcached hcurrent]
  have hstale : (performAll (perform r (.cache tag layout hash)) operations).stale
      ⟨layout, collectDependencies layout.layout r.packages, hash⟩ = true ↔
      ∃ a, Mentions a layout.layout ∧ ∃ seen, Observed operations a seen ∧
        r.packages.live a < seen := by
    rw [stale_recorded_iff]
    refine exists_congr fun a => and_congr_right fun _ => ?_
    rw [lt_live_performAll_iff]
    exact or_iff_right (lt_irrefl _)
  constructor
  · intro hkept a hmentions version hseen
    by_contra hlt
    rw [if_pos (hstale.mpr ⟨a, hmentions, version, hseen, not_le.mp hlt⟩)] at hkept
    cases hkept
  · intro hbound
    rw [if_neg]
    intro hs
    obtain ⟨a, hmentions, seen, hseen, hlt⟩ := hstale.mp hs
    exact absurd (hbound a hmentions seen hseen) (not_le.mpr hlt)

/-- A package nested in a type argument inside a vector is enough. -/
theorem eviction_exact_nested :
    let nested : StructTag := ⟨7, "skip_list", "Node", []⟩
    let pool : StructTag := ⟨1, "pool", "Pool", [.vector (.struct nested)]⟩
    let layout : Shared := ⟨.vector (.enum pool []), 0⟩
    (performAll (perform .new (.cache pool layout 0))
      [.notePackages [(9, 4)], .lookup pool, .notePackages [(7, 1)]]).cache.lookup pool ≠
        some ⟨layout, collectDependencies layout.layout PackageVersions.new, 0⟩ := by
  intro nested pool layout hkept
  have hbound := (eviction_exact .new pool layout 0
    [.notePackages [(9, 4)], .lookup pool, .notePackages [(7, 1)]]
    (by simp [Touches])).1.mp hkept 7
    (.vector (.enumTag (.param List.mem_cons_self (.vector (.struct .address))))) 1
    ⟨[(7, 1)], by simp, List.mem_cons_self⟩
  exact absurd hbound (by decide)

end Eviction
