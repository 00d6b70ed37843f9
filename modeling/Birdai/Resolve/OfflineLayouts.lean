import Birdai.Base.Asking
import Birdai.Resolve.FixtureSet

/-!
# Layouts, offline

A layout that was not recorded is resolved from bytecode. The resolver asks a package
store over the fixture set's objects, while captured bytecode stands among its packages.
-/

namespace OfflineLayouts

open WideArith Outcomes ByteCodecs TickIndex MoveTypes PackageVersion Asking FixtureSet
open Capture (Chain Formats)
open PackageStore (SourcePackageStore StoreError World Action Fetch fetchFromSource)

/-- The package resolver, as the programs it runs over its store. -/
structure Resolver (π : Type) where
  canonicalType : TypeTag → Program Address π StoreError TypeTag
  typeLayout : TypeTag → Program Address π StoreError MoveTypeLayout

/-! ### A store over a source that does not change -/

section store
variable {ω π : Type} (readFromObject : ω → Except StoreError π)
  (object : Address → Except PackageStore.ResolveError ω)

/-- What the source has under an id, read as a package. -/
def reading (id : Address) : Except StoreError π := fetchFromSource readFromObject id (object id)

/-- A fetch from start to end. -/
def fetch (store : SourcePackageStore π) (id : Address) :
    Except StoreError π × SourcePackageStore π :=
  let live := store.versions.live id
  match store.lookup id live with
  | some package => (.ok package, store)
  | none =>
    match fetchFromSource readFromObject id (object id) with
    | .error e => (.error e, store)
    | .ok package => (.ok package, { store with cache := store.cache.insert id (live, package) })

/-- An answer is what the source has under the id that is being fetched. -/
def Answers (w : World π) : Action ω → Prop
  | .answer fetch answered => ∀ id live, w.fetches fetch = .fetching id live → answered = object id
  | _ => True

/-- The stores that fetches, in any interleaving, make of a new one over the source. -/
inductive Reached : World π → Prop
  | start : Reached (World.start π)
  | step {w w' : World π} {action : Action ω} : Reached w → Answers object w action →
      PackageStore.step readFromObject w action = some w' → Reached w'

/-- Everything cached is what the source has. -/
def Cached (store : SourcePackageStore π) : Prop :=
  ∀ id live package, store.cache.lookup id = some (live, package) →
    reading readFromObject object id = .ok package

/-- What a fetch is about to cache is what the source has. -/
def FetchFaithful : Fetch π → Prop
  | .inserting id _ package => reading readFromObject object id = .ok package
  | _ => True

structure Faithful (w : World π) : Prop where
  cached : Cached readFromObject object w.store
  fetches : ∀ fetch, FetchFaithful readFromObject object (w.fetches fetch)

variable {readFromObject object}

theorem Cached.insert {store : SourcePackageStore π} (h : Cached readFromObject object store)
    {id : Address} {live : U64} {package : π}
    (hread : reading readFromObject object id = .ok package) :
    Cached readFromObject object { store with cache := store.cache.insert id (live, package) } := by
  intro other live' package' hlookup
  by_cases hother : other = id
  · subst hother
    rw [Finmap.lookup_insert] at hlookup
    cases hlookup
    exact hread
  · rw [Finmap.lookup_insert_of_ne _ hother] at hlookup
    exact h other live' package' hlookup

/-- Turning one fetch keeps the rest. -/
theorem Faithful.turn {w : World π} (h : Faithful readFromObject object w) {fetch : ℕ}
    {next : Fetch π} (hnext : FetchFaithful readFromObject object next) :
    Faithful readFromObject object (w.turn fetch next) := by
  refine ⟨h.cached, ?_⟩
  apply (Function.forall_update_iff w.fetches
    (p := fun _ f => FetchFaithful readFromObject object f)).mpr
  exact ⟨hnext, fun other _ => h.fetches other⟩

theorem step_faithful {w w' : World π} {action : Action ω}
    (h : Faithful readFromObject object w) (hanswers : Answers object w action)
    (hstep : PackageStore.step readFromObject w action = some w') :
    Faithful readFromObject object w' := by
  cases action with
  | start fetch id =>
    rw [PackageStore.step] at hstep
    split at hstep
    · cases hstep
      exact h.turn trivial
    · cases hstep
  | lookup fetch =>
    rw [PackageStore.step] at hstep
    split at hstep
    · split at hstep
      · cases hstep
        exact h.turn trivial
      · cases hstep
        exact h.turn trivial
    · cases hstep
  | answer fetch answered =>
    rw [PackageStore.step] at hstep
    split at hstep
    · rename_i id live hfetch
      obtain rfl := hanswers id live hfetch
      split at hstep
      · rename_i package hread
        cases hstep
        exact h.turn hread
      · cases hstep
        exact h.turn trivial
    · cases hstep
  | upsert fetch =>
    rw [PackageStore.step] at hstep
    split at hstep
    · rename_i id live package hfetch
      cases hstep
      have hread := h.fetches fetch
      rw [hfetch] at hread
      have hturned : Faithful readFromObject object (w.turn fetch (.returned package)) :=
        h.turn trivial
      exact ⟨h.cached.insert hread, hturned.fetches⟩
    · cases hstep
  | observe versions =>
    cases hstep
    exact ⟨h.cached, h.fetches⟩

/-- Whatever the fetches and their order, a store caches only what its source has. -/
theorem reached_faithful {w : World π} (h : Reached readFromObject object w) :
    Faithful readFromObject object w := by
  induction h with
  | start => exact ⟨fun _ _ _ hlookup => by simp [World.start] at hlookup, fun _ => trivial⟩
  | step _ hanswers hstep ih => exact step_faithful ih hanswers hstep

/-- Over such a store a fetch comes to what the source has, and keeps it such. -/
theorem fetch_reading {store : SourcePackageStore π} (h : Cached readFromObject object store)
    (id : Address) : (fetch readFromObject object store id).1 = reading readFromObject object id ∧
      Cached readFromObject object (fetch readFromObject object store id).2 := by
  rw [fetch]
  split
  · rename_i package hlookup
    obtain ⟨entry, hentry, rfl⟩ := Option.map_eq_some_iff.mp hlookup
    obtain ⟨hcached, _⟩ := Option.filter_eq_some_iff.mp hentry
    exact ⟨(h id entry.1 entry.2 hcached).symm, h⟩
  · split
    · rename_i e hfails
      exact ⟨hfails.symm, h⟩
    · rename_i package hread
      exact ⟨hread.symm, h.insert hread⟩

/-- Where a fetch ends with its outcome. -/
def Ended : Fetch π → Except StoreError π → Prop
  | .served package, outcome => outcome = .ok package
  | .returned package, outcome => outcome = .ok package
  | .failed e, outcome => outcome = .error e
  | _, _ => False

namespace Reached

variable {w : World π} {number : ℕ} {id : Address} {live : U64} {package : π}

theorem start_fetch (h : Reached readFromObject object w) (hidle : w.fetches number = .idle) :
    Reached readFromObject object
      (w.turn number (.lookingUp id (w.store.versions.live id))) := by
  refine h.step (show Answers object w (.start number id) from trivial) ?_
  rw [PackageStore.step, hidle]

theorem serve_cached (h : Reached readFromObject object w)
    (hcall : w.fetches number = .lookingUp id live)
    (hcached : w.store.lookup id live = some package) :
    Reached readFromObject object (w.turn number (.served package)) := by
  refine h.step (show Answers object w (.lookup number) from trivial) ?_
  simp only [PackageStore.step, hcall, hcached]

theorem miss (h : Reached readFromObject object w)
    (hcall : w.fetches number = .lookingUp id live) (hcached : w.store.lookup id live = none) :
    Reached readFromObject object (w.turn number (.fetching id live)) := by
  refine h.step (show Answers object w (.lookup number) from trivial) ?_
  simp only [PackageStore.step, hcall, hcached]

theorem answers_own (hcall : w.fetches number = .fetching id live) :
    Answers object w (.answer number (object id)) := by
  intro id' live' hcall'
  rw [hcall] at hcall'
  cases hcall'
  rfl

theorem read (h : Reached readFromObject object w)
    (hcall : w.fetches number = .fetching id live)
    (hread : fetchFromSource readFromObject id (object id) = .ok package) :
    Reached readFromObject object (w.turn number (.inserting id live package)) := by
  refine h.step (answers_own hcall) ?_
  simp only [PackageStore.step, hcall, hread]

theorem fail (h : Reached readFromObject object w)
    (hcall : w.fetches number = .fetching id live) {e : StoreError}
    (hread : fetchFromSource readFromObject id (object id) = .error e) :
    Reached readFromObject object (w.turn number (.failed e)) := by
  refine h.step (answers_own hcall) ?_
  simp only [PackageStore.step, hcall, hread]

theorem upsert (h : Reached readFromObject object w)
    (hcall : w.fetches number = .inserting id live package) :
    Reached readFromObject object { w.turn number (.returned package) with
      store := { w.store with cache := w.store.cache.insert id (live, package) } } := by
  refine h.step (show Answers object w (.upsert number) from trivial) ?_
  rw [PackageStore.step, hcall]

end Reached

theorem turn_other (w : World π) {number other : ℕ} (next : Fetch π) (h : other ≠ number) :
    (w.turn number next).fetches other = w.fetches other := Function.update_of_ne h ..

/-- A fetch from start to end is its steps in a row, and no other fetch takes part. -/
theorem fetch_reached {w : World π} (h : Reached readFromObject object w) {number : ℕ}
    (hidle : w.fetches number = .idle) (id : Address) :
    ∃ w', Reached readFromObject object w' ∧
      w'.store = (fetch readFromObject object w.store id).2 ∧
      Ended (w'.fetches number) (fetch readFromObject object w.store id).1 ∧
      ∀ other, other ≠ number → w'.fetches other = w.fetches other := by
  have hlooked : Reached readFromObject object
      (w.turn number (.lookingUp id (w.store.versions.live id))) := h.start_fetch hidle
  have hlooking := World.turn_self w number (.lookingUp id (w.store.versions.live id))
  rw [fetch]
  cases hcached : w.store.lookup id (w.store.versions.live id) with
  | some package =>
    refine ⟨_, hlooked.serve_cached hlooking hcached, rfl, ?_, fun other hother => ?_⟩
    · rw [World.turn_self]
      rfl
    · simp only [turn_other _ _ hother]
  | none =>
    have hmissed := hlooked.miss hlooking hcached
    have hfetching := World.turn_self (w.turn number (.lookingUp id (w.store.versions.live id)))
      number (.fetching id (w.store.versions.live id))
    cases hread : fetchFromSource readFromObject id (object id) with
    | error e =>
      refine ⟨_, hmissed.fail hfetching hread, rfl, ?_, fun other hother => ?_⟩
      · rw [World.turn_self]
        rfl
      · simp only [turn_other _ _ hother]
    | ok package =>
      refine ⟨_, (hmissed.read hfetching hread).upsert (World.turn_self _ _ _), rfl, ?_,
        fun other hother => ?_⟩
      · simp only [World.turn_self]
        rfl
      · simp only [turn_other _ _ hother]

/-- From some number on, no fetch has started. -/
def SpareFetches (w : World π) : Prop :=
  ∃ bound, ∀ number, bound ≤ number → w.fetches number = .idle

/-- What a program asks of the store is fetched there, so it leaves a store that fetches
make. -/
theorem run_reached {α : Type} (program : Program Address π StoreError α) {w : World π}
    (h : Reached readFromObject object w) (hspare : SpareFetches w) :
    ∃ w', Reached readFromObject object w' ∧ SpareFetches w' ∧
      w'.store = (run (fetch readFromObject object) program w.store).2 := by
  induction program generalizing w with
  | done result => exact ⟨w, h, hspare, rfl⟩
  | ask id next ih =>
    obtain ⟨bound, hidle⟩ := hspare
    obtain ⟨w', hreached, hstore, _, hothers⟩ := fetch_reached h (hidle bound le_rfl) id
    have hspare' : SpareFetches w' := by
      refine ⟨bound + 1, fun number hnumber => ?_⟩
      rw [hothers number (by omega)]
      exact hidle number (by omega)
    rw [run]
    cases hfetch : fetch readFromObject object w.store id with
    | mk outcome after =>
      rw [hfetch] at hstore
      cases outcome with
      | error e => exact ⟨w', hreached, hspare', hstore⟩
      | ok package =>
        obtain ⟨w'', hreached', hspare'', hstore'⟩ := ih package hreached hspare'
        rw [hstore] at hstore'
        exact ⟨w'', hreached', hspare'', hstore'⟩

end store

/-! ### The layout source -/

section source
variable {Json π : Type} {chain : Chain} (formats : Formats chain)
  (layoutFormats : LayoutFormats Json) (readFromObject : chain.Object → Except StoreError π)
  (resolver : Resolver π)

/-- `FixtureObjectSource::object` at the latest version. The store asks no more of a
failure than that nothing was found. -/
def latestObject (fixtures : Fixtures Json) (id : Address) :
    Except PackageStore.ResolveError chain.Object :=
  okOr (object formats fixtures id none) .objectNotFound

/-- `FixturePackageStore::fetch`: the bytecode recorded under an address. -/
def recordedPackage (fixtures : Fixtures Json) (id : Address) : Except StoreError π := do
  let object ← okOr (FixtureSet.package formats fixtures id) (.packageNotFound id)
  readFromObject object

/-- The store behind the resolver, over the objects of the set. -/
def storeFetch (fixtures : Fixtures Json) :
    SourcePackageStore π → Address → Except StoreError π × SourcePackageStore π :=
  fetch readFromObject (latestObject formats fixtures)

def parsedCanonical (fixtures : Fixtures Json) (tag : StructTag) : Option StructTag :=
  (canonicalOf layoutFormats fixtures tag).bind layoutFormats.parseTag

/-- `FixtureLayoutSource::layout`. -/
def layout (fixtures : Fixtures Json) (store : SourcePackageStore π) (tag : StructTag) :
    Except ResolveError MoveTypeLayout × SourcePackageStore π :=
  match (parsedCanonical layoutFormats fixtures tag).bind
    (FixtureSet.layout layoutFormats fixtures) with
  | some layout => (.ok layout, store)
  | none =>
    -- Not captured: fall back to resolving from the captured packages.
    let resolved :=
      run (storeFetch formats readFromObject fixtures) (resolver.typeLayout (.struct tag)) store
    (resolved.1.mapError (.layout (layoutFormats.tag tag)), resolved.2)

/-- `FixtureLayoutSource::canonical`. -/
def canonical (fixtures : Fixtures Json) (store : SourcePackageStore π) (tag : StructTag) :
    Except ResolveError StructTag × SourcePackageStore π :=
  match parsedCanonical layoutFormats fixtures tag with
  | some parsed => (.ok parsed, store)
  | none =>
    match run (storeFetch formats readFromObject fixtures) (resolver.canonicalType (.struct tag))
      store with
    | (.error source, store) => (.error (.layout (layoutFormats.tag tag) source), store)
    | (.ok (.struct inner), store) => (.ok inner, store)
    | (.ok other, store) => (.error (.notAStruct other), store)

/-- `FixtureLayoutSource::package`. -/
def package (fixtures : Fixtures Json) (address : Address) : Except ResolveError π := do
  let object ← okOr (FixtureSet.package formats fixtures address)
    (.objectNotFound (formats.id.encode address) none)
  (readFromObject object).mapError (.layout (formats.id.encode address))

/-! ### Falling back -/

/-- The store serves what was recorded as bytecode, and a tag whose resolution needs no
other bytecode has a layout and a canonical form. -/
structure FallsBack (fixtures : Fixtures Json) (store : SourcePackageStore π) : Prop where
  serves : ∀ address package, recordedPackage formats readFromObject fixtures address =
    .ok package → (storeFetch formats readFromObject fixtures store address).1 = .ok package
  layouts : ∀ tag resolved, answer (recordedPackage formats readFromObject fixtures)
    (resolver.typeLayout (.struct tag)) = .ok resolved →
      (layout formats layoutFormats readFromObject resolver fixtures store tag).1.isOk = true
  canonicals : ∀ tag inner, answer (recordedPackage formats readFromObject fixtures)
    (resolver.canonicalType (.struct tag)) = .ok (.struct inner) →
      (canonical formats layoutFormats readFromObject resolver fixtures store tag).1.isOk = true

/-- Every package recorded is also held as an object, under the same address, and its
latest version there reads as the same package. -/
def PackagesAmongObjects (fixtures : Fixtures Json) : Prop :=
  ∀ address recorded bytecode, FixtureSet.package formats fixtures address = some recorded →
    readFromObject recorded = .ok bytecode →
      ∃ held, object formats fixtures address none = some held ∧
        readFromObject held = .ok bytecode

variable {formats layoutFormats readFromObject resolver} {fixtures : Fixtures Json}

theorem recordedPackage_ok_iff {address : Address} {bytecode : π} :
    recordedPackage formats readFromObject fixtures address = .ok bytecode ↔
      ∃ recorded, FixtureSet.package formats fixtures address = some recorded ∧
        readFromObject recorded = .ok bytecode := by
  rw [recordedPackage, bind_eq_ok_iff]
  simp only [okOr_eq_ok_iff]

theorem reading_ok_iff {address : Address} {bytecode : π} :
    reading readFromObject (latestObject formats fixtures) address = .ok bytecode ↔
      ∃ held, object formats fixtures address none = some held ∧
        readFromObject held = .ok bytecode := by
  rw [reading, latestObject]
  cases object formats fixtures address none with
  | none => simp [okOr, fetchFromSource]
  | some held => simp [okOr, fetchFromSource]

theorem packagesAmongObjects_iff :
    PackagesAmongObjects formats readFromObject fixtures ↔
      ∀ address bytecode, recordedPackage formats readFromObject fixtures address = .ok bytecode →
        reading readFromObject (latestObject formats fixtures) address = .ok bytecode := by
  simp only [recordedPackage_ok_iff, reading_ok_iff]
  constructor
  · rintro h address bytecode ⟨recorded, hrecorded, hread⟩
    exact h address recorded bytecode hrecorded hread
  · intro h address recorded bytecode hrecorded hread
    exact h address bytecode ⟨recorded, hrecorded, hread⟩

/-- Over a store of the set's own objects, what resolves from the recorded bytecode
resolves. -/
theorem run_resolves {α : Type} (h : PackagesAmongObjects formats readFromObject fixtures)
    {store : SourcePackageStore π}
    (hstore : Cached readFromObject (latestObject formats fixtures) store)
    {program : Program Address π StoreError α} {a : α}
    (hanswer : answer (recordedPackage formats readFromObject fixtures) program = .ok a) :
    (run (storeFetch formats readFromObject fixtures) program store).1 = .ok a := by
  have hfetch : ∀ s id, Cached readFromObject (latestObject formats fixtures) s →
      (storeFetch formats readFromObject fixtures s id).1 =
        reading readFromObject (latestObject formats fixtures) id ∧
      Cached readFromObject (latestObject formats fixtures)
        (storeFetch formats readFromObject fixtures s id).2 :=
    fun _ id hcached => fetch_reading hcached id
  rw [(run_answers hfetch program hstore).1]
  exact answer_mono (packagesAmongObjects_iff.mp h) hanswer

theorem layout_resolves {store : SourcePackageStore π} {tag : StructTag} {resolved : MoveTypeLayout}
    (h : (run (storeFetch formats readFromObject fixtures) (resolver.typeLayout (.struct tag))
      store).1 = .ok resolved) :
    (layout formats layoutFormats readFromObject resolver fixtures store tag).1.isOk = true := by
  rw [layout]
  split
  · rfl
  · dsimp only
    rw [h]
    rfl

/-- A layout asked for leaves a store that fetches make. -/
theorem layout_reached {w : World π}
    (h : Reached readFromObject (latestObject formats fixtures) w) (hspare : SpareFetches w)
    (tag : StructTag) :
    ∃ w', Reached readFromObject (latestObject formats fixtures) w' ∧ SpareFetches w' ∧
      w'.store = (layout formats layoutFormats readFromObject resolver fixtures w.store tag).2 := by
  rw [layout]
  split
  · exact ⟨w, h, hspare, rfl⟩
  · exact run_reached _ h hspare

theorem canonical_reached {w : World π}
    (h : Reached readFromObject (latestObject formats fixtures) w) (hspare : SpareFetches w)
    (tag : StructTag) :
    ∃ w', Reached readFromObject (latestObject formats fixtures) w' ∧ SpareFetches w' ∧
      w'.store =
        (canonical formats layoutFormats readFromObject resolver fixtures w.store tag).2 := by
  rw [canonical]
  split
  · exact ⟨w, h, hspare, rfl⟩
  · obtain ⟨w', hreached, hspare', hstore⟩ :=
      run_reached (resolver.canonicalType (.struct tag)) h hspare
    refine ⟨w', hreached, hspare', ?_⟩
    rw [hstore, storeFetch]
    generalize run (fetch readFromObject (latestObject formats fixtures))
      (resolver.canonicalType (.struct tag)) w.store = resolved
    obtain ⟨outcome, after⟩ := resolved
    cases outcome with
    | error e => rfl
    | ok type => cases type <;> rfl

theorem canonical_resolves {store : SourcePackageStore π} {tag inner : StructTag}
    (h : (run (storeFetch formats readFromObject fixtures) (resolver.canonicalType (.struct tag))
      store).1 = .ok (.struct inner)) :
    (canonical formats layoutFormats readFromObject resolver fixtures store tag).1.isOk = true := by
  rw [canonical]
  split
  · rfl
  · generalize run (storeFetch formats readFromObject fixtures)
      (resolver.canonicalType (.struct tag)) store = resolved at h
    obtain ⟨outcome, after⟩ := resolved
    cases h
    rfl

/-- The layout source falls back on the recorded bytecode, over every store it can come
to have, exactly when all that bytecode is among the objects too. -/
theorem falls_back_iff (formats : Formats chain) (layoutFormats : LayoutFormats Json)
    (readFromObject : chain.Object → Except StoreError π) (resolver : Resolver π)
    (fixtures : Fixtures Json) :
    (∀ w, Reached readFromObject (latestObject formats fixtures) w →
      FallsBack formats layoutFormats readFromObject resolver fixtures w.store) ↔
    PackagesAmongObjects formats readFromObject fixtures := by
  constructor
  · intro h
    rw [packagesAmongObjects_iff]
    intro address bytecode hrecorded
    have hserved := (h _ .start).serves address bytecode hrecorded
    have hreading := (fetch_reading (reached_faithful
      (.start : Reached readFromObject (latestObject formats fixtures) _)).cached address).1
    exact hreading.symm.trans hserved
  · intro h w hw
    have hcached := (reached_faithful hw).cached
    constructor
    · intro address bytecode hrecorded
      exact (fetch_reading hcached address).1.trans
        (packagesAmongObjects_iff.mp h address bytecode hrecorded)
    · intro tag resolved hanswer
      exact layout_resolves (run_resolves h hcached hanswer)
    · intro tag inner hanswer
      exact canonical_resolves (run_resolves h hcached hanswer)

end source

/-! ### Bytecode without its object -/

section sample
open Capture

def ledgerTag (address : Address) : StructTag := ⟨address, "tick", "Node", []⟩

/-- Resolves a struct from the package that its tag names. -/
def plainResolver : Resolver ledger.Object where
  canonicalType
    | .struct tag => .ask tag.address fun _ => .done (.ok (.struct tag))
    | other => .done (.ok other)
  typeLayout
    | .struct tag => .ask tag.address fun _ => .done (.ok (.struct tag []))
    | other => .done (.error (.malformed (shortType other)))

def bytecode : ledger.Object := ((1, 1) : ObjectKey)

def bytecodeOnly : Fixtures Unit :=
  (recordPackage ledgerFormats (.empty Unit) 1 bytecode).toOption.getD (.empty Unit)

def noLayouts : LayoutFormats Unit := ⟨shortTag, fun _ => none, fun _ => none⟩

theorem bytecodeOnly_package : FixtureSet.package ledgerFormats bytecodeOnly 1 = some bytecode := by
  obtain ⟨recorded, hrecord⟩ := exists_ok (show
    (recordPackage ledgerFormats (.empty Unit) 1 bytecode).isOk = true by decide +kernel)
  have honly : bytecodeOnly = recorded := by
    rw [bytecodeOnly, hrecord]
    rfl
  rw [honly]
  exact package_recordPackage hrecord

theorem bytecodeOnly_recorded :
    recordedPackage ledgerFormats .ok bytecodeOnly 1 = .ok bytecode :=
  recordedPackage_ok_iff.mpr ⟨bytecode, bytecodeOnly_package, rfl⟩

/-- Recording a package records no object. -/
theorem bytecodeOnly_object (id : ObjectId) : object ledgerFormats bytecodeOnly id none = none := by
  have hobjects : bytecodeOnly.objects = ∅ := by decide +kernel
  simp only [object, hobjects, Finmap.lookup_empty, Option.bind_eq_bind, Option.bind_none]

theorem bytecodeOnly_fetch : storeFetch ledgerFormats .ok bytecodeOnly
    (World.start ledger.Object).store 1 =
      (.error (.packageNotFound 1), (World.start ledger.Object).store) := by
  have hlatest : latestObject ledgerFormats bytecodeOnly 1 = .error .objectNotFound := by
    rw [latestObject, bytecodeOnly_object]
    rfl
  rw [storeFetch, fetch, hlatest]
  rfl

theorem noLayouts_canonical (fixtures : Fixtures Unit) (tag : StructTag) :
    parsedCanonical noLayouts fixtures tag = none := by
  rw [parsedCanonical]
  cases canonicalOf noLayouts fixtures tag <;> rfl

/-- Bytecode recorded without its object resolves a tag, and the layout source finds
neither its layout nor its canonical form. -/
theorem recorded_bytecode_not_found :
    answer (recordedPackage ledgerFormats .ok bytecodeOnly)
        (plainResolver.typeLayout (.struct (ledgerTag 1))) = .ok (.struct (ledgerTag 1) []) ∧
      (layout ledgerFormats noLayouts .ok plainResolver bytecodeOnly
        (World.start ledger.Object).store (ledgerTag 1)).1 =
          .error (.layout (shortTag (ledgerTag 1)) (.packageNotFound 1)) ∧
      answer (recordedPackage ledgerFormats .ok bytecodeOnly)
        (plainResolver.canonicalType (.struct (ledgerTag 1))) = .ok (.struct (ledgerTag 1)) ∧
      (canonical ledgerFormats noLayouts .ok plainResolver bytecodeOnly
        (World.start ledger.Object).store (ledgerTag 1)).1 =
          .error (.layout (shortTag (ledgerTag 1)) (.packageNotFound 1)) ∧
      ¬ ∀ w, Reached .ok (latestObject ledgerFormats bytecodeOnly) w →
        FallsBack ledgerFormats noLayouts .ok plainResolver bytecodeOnly w.store := by
  have hasks : (plainResolver.typeLayout (.struct (ledgerTag 1))) =
      .ask 1 fun _ => .done (.ok (.struct (ledgerTag 1) [])) := rfl
  have hasksCanonical : (plainResolver.canonicalType (.struct (ledgerTag 1))) =
      .ask 1 fun _ => .done (.ok (.struct (ledgerTag 1))) := rfl
  refine ⟨?_, ?_, ?_, ?_, ?_⟩
  · rw [hasks, answer, bytecodeOnly_recorded]
    rfl
  · rw [layout, noLayouts_canonical, hasks, run, bytecodeOnly_fetch]
    rfl
  · rw [hasksCanonical, answer, bytecodeOnly_recorded]
    rfl
  · rw [canonical, noLayouts_canonical, hasksCanonical, run, bytecodeOnly_fetch]
    rfl
  · intro h
    have hserved := (h _ .start).serves 1 bytecode bytecodeOnly_recorded
    rw [bytecodeOnly_fetch] at hserved
    cases hserved

end sample

end OfflineLayouts
