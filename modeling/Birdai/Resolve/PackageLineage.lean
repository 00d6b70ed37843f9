import Birdai.Resolve.LayoutRegistry
import Birdai.State.Manager

/-!
# Upgrades along a package lineage

An upgrade is a new package object under a new id, observed under the original
id and under its own. Layouts mention the packages that defined their datatypes,
and these may have been added by any package in between.
-/

namespace PackageLineage

open WideArith LabelledRuns TickIndex MoveTypes AnyVenues PackageVersion LayoutRegistry Manager
open KeyedFolds

/-! ### Lineages -/

/-- A published package, with the package that first defined each of its datatypes. -/
structure Published where
  id : ObjectId
  version : U64
  typeOrigin : Finmap fun _ : String × String => ObjectId

/-- An upgrade keeps the origins of what it inherits and is the origin of what it adds. -/
structure Upgrades (p q : Published) : Prop where
  newer : p.version < q.version
  inherits : ∀ datatype origin, p.typeOrigin.lookup datatype = some origin →
    q.typeOrigin.lookup datatype = some origin
  adds : ∀ datatype origin, q.typeOrigin.lookup datatype = some origin →
    p.typeOrigin.lookup datatype = some origin ∨
      p.typeOrigin.lookup datatype = none ∧ origin = q.id

/-- A package and its upgrades, each under an id of its own. -/
structure Lineage where
  first : Published
  upgrades : List Published
  defines : ∀ datatype origin, first.typeOrigin.lookup datatype = some origin → origin = first.id
  chained : (first :: upgrades).IsChain Upgrades
  distinct : ((first :: upgrades).map Published.id).Nodup

namespace Lineage

def packages (l : Lineage) : List Published := l.first :: l.upgrades

def newest (l : Lineage) : Published := l.packages.getLast (List.cons_ne_nil _ _)

/-- The object that publishes the newest package. -/
def Publishes (l : Lineage) (object : Object) : Prop :=
  object.id = l.newest.id ∧ object.version = l.newest.version ∧
    object.data = .package l.first.id

theorem newest_mem (l : Lineage) : l.newest ∈ l.packages := List.getLast_mem _

theorem first_mem (l : Lineage) : l.first ∈ l.packages := List.mem_cons_self

end Lineage

/-! ### What an observation drops -/

theorem lt_live_observe_iff {versions : PackageVersions} {observations : List (Address × U64)}
    {a : Address} {version : U64} : version < (versions.observe observations).live a ↔
      version < versions.live a ∨ ∃ seen, (a, seen) ∈ observations ∧ version < seen := by
  have hfold : ∀ versions : PackageVersions,
      version < (observations.foldl PackageVersions.observeOne versions).live a ↔
        version < versions.live a ∨ ∃ seen, (a, seen) ∈ observations ∧ version < seen := by
    induction observations with
    | nil => simp
    | cons observation rest ih =>
      intro versions
      obtain ⟨address, seen⟩ := observation
      rw [List.foldl_cons, ih, live_observeOne]
      by_cases ha : address = a
      · subst ha
        simp [or_assoc, or_and_right, exists_or]
      · simp [ha, Ne.symm ha]
  simp only [PackageVersions.observe]
  split
  · rename_i hnone
    simp [hnone]
  · exact hfold versions

theorem stale_iff {r : Registry} {entry : CachedLayout} : r.stale entry = true ↔
    ∃ a version, (a, version) ∈ entry.dependencies ∧ version < r.packages.live a := by
  simp [Registry.stale, PackageVersions.isCurrent]

/-- What is observed makes an entry stale by itself, or it was stale before. -/
theorem stale_observe_iff {r : Registry} {observations : List (Address × U64)}
    {entry : CachedLayout} : (r.observe observations).stale entry = true ↔
      r.stale entry = true ∨ ∃ a version seen, (a, version) ∈ entry.dependencies ∧
        (a, seen) ∈ observations ∧ version < seen := by
  simp only [stale_iff, Registry.observe, lt_live_observe_iff]
  constructor
  · rintro ⟨a, version, hdependency, hbefore | ⟨seen, hseen, hlt⟩⟩
    · exact .inl ⟨a, version, hdependency, hbefore⟩
    · exact .inr ⟨a, version, seen, hdependency, hseen, hlt⟩
  · rintro (⟨a, version, hdependency, hbefore⟩ | ⟨a, version, seen, hdependency, hseen, hlt⟩)
    · exact ⟨a, version, hdependency, .inl hbefore⟩
    · exact ⟨a, version, hdependency, .inr ⟨seen, hseen, hlt⟩⟩

/-- Neither lookup answers for the tag. -/
def Dropped (r : Registry) (tag : StructTag) : Prop :=
  (r.lookup tag).1 = none ∧ r.fingerprint tag = none

/-- What is served afterwards is what the observations leave current. -/
theorem served_notePackages {r : Registry} (observations : List (Address × U64))
    {tag : StructTag} {entry : CachedLayout} (hcached : r.cache.lookup tag = some entry) :
    ((r.notePackages observations).lookup tag).1 =
        (if (r.observe observations).stale entry then none else some entry.layout) ∧
      (r.notePackages observations).fingerprint tag =
        if (r.observe observations).stale entry then none else some entry.fingerprint := by
  simp only [Registry.notePackages]
  split
  · rename_i hnone
    have hsame : (r.observe []).stale entry = r.stale entry := rfl
    rw [hnone, hsame]
    cases hs : r.stale entry with
    | true => simp [Registry.lookup, Registry.fingerprint, hcached, Option.filter, hs]
    | false => simp [Registry.lookup, Registry.fingerprint, hcached, Option.filter, hs]
  · have hkept : (r.observe observations).evict.cache.lookup tag =
        if (r.observe observations).stale entry then none else some entry := by
      have hcache : (r.observe observations).cache = r.cache := rfl
      rw [Registry.evict, lookup_retain, hcache, hcached, Option.filter_some]
      cases (r.observe observations).stale entry <;> rfl
    have hstale : (r.observe observations).evict.stale entry =
        (r.observe observations).stale entry := rfl
    cases hs : (r.observe observations).stale entry with
    | true => simp [Registry.lookup, Registry.fingerprint, hkept, hs]
    | false => simp [Registry.lookup, Registry.fingerprint, hkept, hstale, Option.filter, hs]

/-- A cached layout is dropped exactly when what was observed makes it stale. -/
theorem dropped_iff {r : Registry} {observations : List (Address × U64)} {tag : StructTag}
    {entry : CachedLayout} (hcached : r.cache.lookup tag = some entry) :
    Dropped (r.notePackages observations) tag ↔
      (r.observe observations).stale entry = true := by
  obtain ⟨hlayout, hfingerprint⟩ := served_notePackages observations hcached
  rw [Dropped, hlayout, hfingerprint]
  cases (r.observe observations).stale entry <;> simp

/-- A checkpoint observes its packages under their original ids and under their own. -/
theorem mem_packageObservations {checkpoint : Checkpoint} {a : Address} {seen : U64} :
    (a, seen) ∈ packageObservations checkpoint ↔
      ∃ object ∈ checkpoint.objectSet.objects, ∃ original, object.data = .package original ∧
        (a = original ∨ a = object.id) ∧ seen = object.version := by
  simp only [packageObservations, List.mem_flatMap]
  refine exists_congr fun object => and_congr_right fun _ => ?_
  cases object.data with
  | move type contents => simp
  | package original =>
    simp only [List.mem_cons, Prod.mk.injEq, List.not_mem_nil, or_false, Data.package.injEq,
      exists_eq_left']
    rw [or_and_right]

/-! ### What an entry records -/

/-- The dependencies are the layout's packages, as they were live at some time before. -/
def Recorded (live : Address → U64) (entry : CachedLayout) : Prop :=
  ∃ versions : PackageVersions,
    entry.dependencies = collectDependencies entry.layout.layout versions ∧
      ∀ a, versions.live a ≤ live a

theorem Recorded.later {live live' : Address → U64} {entry : CachedLayout}
    (h : Recorded live entry) (hle : ∀ a, live a ≤ live' a) : Recorded live' entry := by
  obtain ⟨versions, hdependencies, hbefore⟩ := h
  exact ⟨versions, hdependencies, fun a => (hbefore a).trans (hle a)⟩

section run
variable {ε σ : Type} {resolver : Resolver ε σ} {hash : MoveTypeLayout → Fingerprint}

/-- Every entry, cached or about to be, records its packages. -/
structure Recording (w : World ε σ) : Prop where
  entries : ∀ tag entry, w.registry.cache.lookup tag = some entry →
    Recorded w.registry.packages.live entry
  calls : ∀ call, CallKeeps (fun _ => True) (Recorded w.registry.packages.live) (w.calls call)

theorem step_recording {w w' : World ε σ} {action : Action σ} (h : Recording w)
    (hstep : step resolver hash w action = some w') : Recording w' := by
  obtain ⟨hentries, hcalls⟩ := h
  by_cases hobserves : ∃ versions, action = .observe versions
  · obtain ⟨versions, rfl⟩ := hobserves
    cases hstep
    have hle := live_le_observe w.registry.packages versions
    refine ⟨fun tag entry hcached => (hentries tag entry hcached).later hle, fun call => ?_⟩
    have hcall := hcalls call
    dsimp only
    cases hc : w.calls call with
    | inserting canonical entry =>
      rw [hc] at hcall
      exact Recorded.later hcall hle
    | _ => trivial
  · obtain ⟨⟨hpackages, _⟩, hentries', hcalls'⟩ := step_keeps
      (fun versions he => hobserves ⟨versions, he⟩) (fun _ => trivial)
      (fun _ _ => ⟨w.registry.packages, rfl, fun _ => le_rfl⟩) hentries hcalls hstep
    constructor
    · rw [hpackages]
      exact hentries'
    · rw [hpackages]
      exact hcalls'

theorem run_recording {w w' : World ε σ} {actions : List (Action σ)} (h : Recording w)
    (hrun : runAll (step resolver hash) w actions = some w') : Recording w' :=
  runAll_preserves hrun (fun _ _ _ _ h hstep => step_recording h hstep) h

theorem recording_start (store : σ) : Recording (World.start ε store) :=
  ⟨fun tag _ h => by simp [World.start, Registry.new] at h, fun _ => trivial⟩

/-- Another package of the checkpoint is past the version that the entry records for it. -/
def MovesOther (l : Lineage) (checkpoint : Checkpoint) (entry : CachedLayout) : Prop :=
  ∃ object ∈ checkpoint.objectSet.objects, ¬ l.Publishes object ∧
    ∃ original, object.data = .package original ∧
      ∃ a version, (a, version) ∈ entry.dependencies ∧ (a = original ∨ a = object.id) ∧
        version < object.version

/-- An upgrade drops a cached layout exactly when the layout mentions the first or the
newest package of the lineage, or is outdated for another reason. -/
theorem upgrade_drops_iff (store : σ) (actions : List (Action σ)) {w : World ε σ}
    (hrun : runAll (step resolver hash) (World.start ε store) actions = some w)
    (l : Lineage) (hnewer : ∀ p ∈ l.packages, w.registry.packages.live p.id < l.newest.version)
    {checkpoint : Checkpoint} {object : Object} (hcarried : object ∈ checkpoint.objectSet.objects)
    (hpublishes : l.Publishes object) {tag : StructTag} {entry : CachedLayout}
    (hcached : w.registry.cache.lookup tag = some entry) :
    Dropped (w.registry.notePackages (packageObservations checkpoint)) tag ↔
      Mentions l.first.id entry.layout.layout ∨ Mentions l.newest.id entry.layout.layout ∨
        w.registry.stale entry = true ∨ MovesOther l checkpoint entry := by
  obtain ⟨versions, hdependencies, hbefore⟩ :=
    (run_recording (recording_start store) hrun).entries tag entry hcached
  rw [dropped_iff hcached, stale_observe_iff]
  constructor
  · rintro (hstale | ⟨a, version, seen, hdependency, hseen, hlt⟩)
    · exact .inr (.inr (.inl hstale))
    · obtain ⟨other, hother, original, hdata, ha, rfl⟩ := mem_packageObservations.mp hseen
      by_cases hsame : l.Publishes other
      · obtain ⟨hid, _, hdata'⟩ := hsame
        obtain rfl := Data.package.inj (hdata.symm.trans hdata')
        rw [hid] at ha
        rw [hdependencies] at hdependency
        have hmentions := (mem_collectDependencies.mp hdependency).1
        rcases ha with rfl | rfl
        · exact .inl hmentions
        · exact .inr (.inl hmentions)
      · exact .inr (.inr (.inr ⟨other, hother, hsame, original, hdata, a, version, hdependency,
          ha, hlt⟩))
  · obtain ⟨hid, hversion, hdata⟩ := hpublishes
    have hdrops : ∀ p ∈ l.packages, (p.id = l.first.id ∨ p.id = object.id) →
        Mentions p.id entry.layout.layout → ∃ a version seen, (a, version) ∈ entry.dependencies ∧
          (a, seen) ∈ packageObservations checkpoint ∧ version < seen := by
      intro p hp hobserved hmentions
      refine ⟨p.id, versions.live p.id, object.version, ?_, ?_, ?_⟩
      · rw [hdependencies]
        exact mem_collectDependencies.mpr ⟨hmentions, rfl⟩
      · exact mem_packageObservations.mpr ⟨object, hcarried, _, hdata, hobserved, rfl⟩
      · rw [hversion]
        exact (hbefore p.id).trans_lt (hnewer p hp)
    rintro (hfirst | hnewest | hstale |
      ⟨other, hother, _, original, hdata', a, version, hdependency, ha, hlt⟩)
    · exact .inr (hdrops l.first l.first_mem (.inl rfl) hfirst)
    · exact .inr (hdrops l.newest l.newest_mem (.inr hid.symm) hnewest)
    · exact .inl hstale
    · exact .inr ⟨a, version, other.version, hdependency,
        mem_packageObservations.mpr ⟨other, hother, original, hdata', ha, rfl⟩, hlt⟩

end run

/-! ### A datatype added on the way -/

def packageObject (id : ObjectId) (version : U64) (original : ObjectId) : Object :=
  { id, version, owner := .immutable, data := .package original }

theorem upgrades_adding {p : Published} {datatype : String × String} (id : ObjectId)
    {version : U64} (hnewer : p.version < version)
    (hnew : p.typeOrigin.lookup datatype = none) :
    Upgrades p ⟨id, version, p.typeOrigin.insert datatype id⟩ := by
  refine ⟨hnewer, fun other origin h => ?_, fun other origin h => ?_⟩
  · by_cases hother : other = datatype
    · rw [hother, hnew] at h
      cases h
    · exact (Finmap.lookup_insert_of_ne _ hother).trans h
  · by_cases hother : other = datatype
    · subst hother
      rw [Finmap.lookup_insert] at h
      exact .inr ⟨hnew, (Option.some.inj h).symm⟩
    · exact .inl ((Finmap.lookup_insert_of_ne _ hother).symm.trans h)

theorem upgrades_alone {p : Published} (id : ObjectId) {version : U64}
    (hnewer : p.version < version) : Upgrades p ⟨id, version, p.typeOrigin⟩ :=
  ⟨hnewer, fun _ _ h => h, fun _ _ h => .inl h⟩

def poolPackage : Published := ⟨1, 1, Finmap.insert ("pool", "Pool") 1 ∅⟩

/-- The first upgrade adds positions. -/
def positionPackage : Published :=
  ⟨2, 2, poolPackage.typeOrigin.insert ("pool", "Position") 2⟩

/-- The second one adds nothing. -/
def latestPackage : Published := ⟨3, 3, positionPackage.typeOrigin⟩

def poolLineage : Lineage where
  first := poolPackage
  upgrades := [positionPackage, latestPackage]
  defines := by
    intro datatype origin h
    by_cases hpool : datatype = ("pool", "Pool")
    · rw [hpool, poolPackage, Finmap.lookup_insert] at h
      exact (Option.some.inj h).symm
    · rw [poolPackage, Finmap.lookup_insert_of_ne _ hpool] at h
      cases h
  chained := by
    refine .cons_cons ?_ (.cons_cons ?_ (.singleton _))
    · exact upgrades_adding 2 (by decide) (by decide)
    · exact upgrades_alone 3 (by decide)
  distinct := by decide

/-- The checkpoint of the second upgrade. -/
def latestCheckpoint : Checkpoint :=
  { sequenceNumber := 3
    transactions := [⟨[⟨3, some 3⟩]⟩]
    objectSet := ⟨[packageObject 3 3 1], by simp⟩ }

def positionTag : StructTag := ⟨2, "pool", "Position", []⟩

def plainLayout (tag : StructTag) : MoveTypeLayout :=
  .struct tag [⟨"liquidity", .primitive .u128⟩]

/-- Every tag is canonical, and a struct has one field. -/
def plainResolver : Resolver Unit Unit :=
  { canonicalType := fun _ type => .ok type
    typeLayout := fun _ type => match type with
      | .struct tag => .ok (plainLayout tag)
      | _ => .error () }

/-- The first two packages are observed and a layout is cached. -/
def cacheLayout (tag : StructTag) : List (Action Unit) :=
  [.observe [(1, 1)], .observe [(1, 2), (2, 2)], .call 0 tag, .resume 0, .resume 0, .resume 0,
   .resume 0, .resume 0]

def observedVersions : PackageVersions :=
  (PackageVersions.new.observe [(1, 1)]).observe [(1, 2), (2, 2)]

theorem cached_plain (tag : StructTag) : ∃ w,
    runAll (step plainResolver fun _ => 0) (World.start Unit ()) (cacheLayout tag) =
      some w ∧ w.registry.packages = observedVersions ∧
    w.registry.cache.lookup tag =
      some ⟨⟨plainLayout tag, 6⟩, collectDependencies (plainLayout tag) observedVersions, 0⟩ :=
  ⟨_, rfl, rfl, Finmap.lookup_insert _⟩

theorem latest_newer (p : Published) (hp : p ∈ poolLineage.packages) :
    observedVersions.live p.id < poolLineage.newest.version := by
  rcases List.mem_cons.mp hp with rfl | hp
  · exact (by decide : observedVersions.live 1 < 3)
  · rcases List.mem_cons.mp hp with rfl | hp
    · exact (by decide : observedVersions.live 2 < 3)
    · obtain rfl := List.mem_singleton.mp hp
      exact (by decide : observedVersions.live 3 < 3)

/-- A layout of the first package is dropped by the second upgrade. -/
theorem upgrade_drops_pool : ∃ w,
    runAll (step plainResolver fun _ => 0) (World.start Unit ())
      (cacheLayout ⟨1, "pool", "Pool", []⟩) = some w ∧
    Dropped (w.registry.notePackages (packageObservations latestCheckpoint))
      ⟨1, "pool", "Pool", []⟩ := by
  obtain ⟨w, hrun, hpackages, hcached⟩ := cached_plain ⟨1, "pool", "Pool", []⟩
  refine ⟨w, hrun, (upgrade_drops_iff () _ hrun poolLineage ?_ List.mem_cons_self ⟨rfl, rfl, rfl⟩
    hcached).mpr (.inl (.structTag .address))⟩
  rw [hpackages]
  exact latest_newer

/-- A layout of the datatype that the first upgrade added is served after the second. -/
theorem upgrade_keeps_position : ∃ w object layout,
    runAll (step plainResolver fun _ => 0) (World.start Unit ())
      (cacheLayout positionTag) = some w ∧
    (∀ p ∈ poolLineage.packages, w.registry.packages.live p.id < poolLineage.newest.version) ∧
    object ∈ latestCheckpoint.objectSet.objects ∧ poolLineage.Publishes object ∧
    positionPackage ∈ poolLineage.packages.dropLast ∧
    positionPackage.typeOrigin.lookup (positionTag.module, positionTag.name) =
      some positionTag.address ∧
    layout.layout = plainLayout positionTag ∧
    ((w.registry.notePackages (packageObservations latestCheckpoint)).lookup positionTag).1 =
      some layout ∧
    (w.registry.notePackages (packageObservations latestCheckpoint)).fingerprint positionTag =
      some 0 := by
  obtain ⟨w, hrun, hpackages, hcached⟩ := cached_plain positionTag
  have hcurrent : (w.registry.observe (packageObservations latestCheckpoint)).stale
      ⟨⟨plainLayout positionTag, 6⟩,
        collectDependencies (plainLayout positionTag) observedVersions, 0⟩ = false := by
    rw [Bool.eq_false_iff, ne_eq, stale_iff]
    rintro ⟨a, version, hdependency, hlt⟩
    obtain ⟨hmentions, rfl⟩ := mem_collectDependencies.mp hdependency
    obtain rfl : a = 2 := by
      cases hmentions with
      | structTag htag =>
        cases htag with
        | address => rfl
        | param hparam _ => cases hparam
      | structField hfield hinner =>
        rw [List.mem_singleton] at hfield
        subst hfield
        cases hinner
    rw [Registry.observe, hpackages] at hlt
    exact absurd hlt (by decide : ¬ observedVersions.live 2 <
      (observedVersions.observe (packageObservations latestCheckpoint)).live 2)
  obtain ⟨hlayout, hfingerprint⟩ := served_notePackages _ hcached
  rw [hcurrent] at hlayout hfingerprint
  refine ⟨w, _, _, hrun, ?_, List.mem_cons_self, ⟨rfl, rfl, rfl⟩, ?_, ?_, rfl, hlayout,
    hfingerprint⟩
  · rw [hpackages]
    exact latest_newer
  · exact List.mem_cons_of_mem _ List.mem_cons_self
  · exact Finmap.lookup_insert _

end PackageLineage
