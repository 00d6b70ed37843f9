import Birdai.Resolve.OfflineLayouts
import Birdai.Tick.PagedNodes
import Birdai.Venue.Classification
import Birdai.Venue.Priceable

/-!
# Classifying from a capture

Every layout the registry handed out is recorded under its canonical form, with the bytecode
of every package it mentions. What is classified from those is classified as it was live.
-/

namespace CapturedLayouts

open WideArith Outcomes ByteCodecs TickIndex MoveTypes PackageVersion SwapShape OracleNames
  CetusPool Capture FixtureSet OfflineLayouts Classification
open Manager (Object)
open PackageStore (SourcePackageStore StoreError)
open PagedNodes (mapError_eq_ok_iff)
open Verdicts (Package PriceState PriceStateChange Verdict VenueError entryAt)

/-! ### Recording -/

variable {Json ε : Type} {chain : Chain}

def layoutsFile : String := "layouts.json"

/-- What is written of a layout is read back. -/
structure LayoutCodec (layoutFormats : LayoutFormats Json) where
  write : MoveTypeLayout → Except String Json
  layout_write : ∀ layout json, write layout = .ok json → layoutFormats.layout json = some layout

inductive CaptureError (ε : Type) where
  | resolve (error : ε)
  | malformed (path message : String)
  | fixture (error : FixtureError)

section record
variable (formats : Formats chain) {layoutFormats : LayoutFormats Json}
  (codec : LayoutCodec layoutFormats)

/-- Record a resolved layout and the canonical form of the tag it was resolved for. -/
def recordLayout (fixtures : Fixtures Json) (requested canonical : StructTag)
    (layout : MoveTypeLayout) : Except (CaptureError ε) (Fixtures Json) := do
  let json ← (codec.write layout).mapError (.malformed layoutsFile)
  .ok
    { fixtures with
      layouts := fixtures.layouts.insert (layoutFormats.tag canonical) json
      canonical := fixtures.canonical.insert (layoutFormats.tag requested)
        (layoutFormats.tag canonical) }

/-- One cached layout, and the packages it names. -/
def captureLayout (canonical : StructTag → Except ε StructTag)
    (held : Fixtures Json × Finset Address) (entry : StructTag × MoveTypeLayout) :
    Except (CaptureError ε) (Fixtures Json × Finset Address) := do
  let tag ← (canonical entry.1).mapError .resolve
  let addresses := insert tag.address held.2 ∪
    ((collectDependencies entry.2 .new).map Prod.fst).toFinset
  let fixtures ← recordLayout codec held.1 entry.1 tag entry.2
  .ok (fixtures, addresses)

/-- A package that cannot be read any more is only told of. -/
def capturePackage (object : Address → Except ε chain.Object) (fixtures : Fixtures Json)
    (address : Address) : Except (CaptureError ε) (Fixtures Json) :=
  match object address with
  | .ok found => (recordPackage formats fixtures address found).mapError .fixture
  | .error _ => .ok fixtures

/-- The layouts the registry handed out, in whatever order it lists them, and the bytecode of
their packages and of the one whose entry the chain executed. -/
def captureTypes (canonical : StructTag → Except ε StructTag)
    (object : Address → Except ε chain.Object) (scriptPackage : Address)
    (fixtures : Fixtures Json) (cached : List (StructTag × MoveTypeLayout)) :
    Except (CaptureError ε) (Fixtures Json) := do
  let held ← cached.foldlM (captureLayout codec canonical) (fixtures, ∅)
  (OrderedKeys.ordered (insert scriptPackage held.2)).foldlM (capturePackage formats object) held.1

/-- The packages a capture asks the node for. -/
def Named (scriptPackage : Address) (cached : List (StructTag × MoveTypeLayout))
    (address : Address) : Prop :=
  address = scriptPackage ∨ ∃ entry ∈ cached, address = entry.1.address ∨
    Mentions address entry.2

/-! ### What a capture holds -/

/-- A tag is its own canonical form, and this is its layout. -/
structure Served (layoutFormats : LayoutFormats Json) (fixtures : Fixtures Json) (tag : StructTag)
    (layout : MoveTypeLayout) : Prop where
  canonical : canonicalOf layoutFormats fixtures tag = some (layoutFormats.tag tag)
  layout : FixtureSet.layout layoutFormats fixtures tag = some layout

end record

section held
variable {formats : Formats chain} {layoutFormats : LayoutFormats Json}
  {codec : LayoutCodec layoutFormats} {canonical : StructTag → Except ε StructTag}
  {object : Address → Except ε chain.Object} {fixtures fixtures' : Fixtures Json}
  {held held' : Fixtures Json × Finset Address} {tag : StructTag} {layout : MoveTypeLayout}
  {cached : List (StructTag × MoveTypeLayout)}

/-- The canonical text of a tag parses back. -/
def Parses (layoutFormats : LayoutFormats Json) (tag : StructTag) : Prop :=
  layoutFormats.parseTag (layoutFormats.tag tag) = some tag

theorem Parses.unique (h : Parses layoutFormats tag) {other : StructTag}
    (hother : Parses layoutFormats other)
    (htext : layoutFormats.tag tag = layoutFormats.tag other) : tag = other := by
  rw [Parses, htext, hother] at h
  exact (Option.some.inj h).symm

/-- A tag that is its own canonical form, and whose text parses back. -/
structure Settled (layoutFormats : LayoutFormats Json)
    (canonical : StructTag → Except ε StructTag) (tag : StructTag) : Prop where
  canonical : canonical tag = .ok tag
  parses : Parses layoutFormats tag

theorem recordLayout_served
    (h : recordLayout (ε := ε) codec fixtures tag tag layout = .ok fixtures') :
    Served layoutFormats fixtures' tag layout := by
  obtain ⟨json, hjson, h⟩ := bind_eq_ok_iff.mp h
  cases h
  have hread := codec.layout_write layout json (mapError_eq_ok_iff.mp hjson)
  constructor
  · exact Finmap.lookup_insert _
  · simp only [FixtureSet.layout, Finmap.lookup_insert, Option.bind_eq_bind, Option.bind_some,
      hread]

/-- Recording one type leaves what is served of another. -/
theorem Served.recordLayout (h : Served layoutFormats fixtures tag layout)
    (hparses : Parses layoutFormats tag) {other : StructTag} {found : MoveTypeLayout}
    (hother : Parses layoutFormats other) (hne : other ≠ tag)
    (hrecord : recordLayout (ε := ε) codec fixtures other other found = .ok fixtures') :
    Served layoutFormats fixtures' tag layout := by
  obtain ⟨json, hjson, hrecord⟩ := bind_eq_ok_iff.mp hrecord
  cases hrecord
  have htext : layoutFormats.tag tag ≠ layoutFormats.tag other :=
    fun heq => hne (hparses.unique hother heq).symm
  constructor
  · exact (Finmap.lookup_insert_of_ne _ htext).trans h.canonical
  · have hlayout := h.layout
    simp only [FixtureSet.layout] at hlayout ⊢
    rw [Finmap.lookup_insert_of_ne _ htext]
    exact hlayout

theorem captureLayout_ok {entry : StructTag × MoveTypeLayout}
    (hcanonical : canonical entry.1 = .ok entry.1)
    (h : captureLayout codec canonical held entry = .ok held') :
    recordLayout (ε := ε) codec held.1 entry.1 entry.1 entry.2 = .ok held'.1 ∧
      ∀ address, address ∈ held'.2 ↔ address ∈ held.2 ∨ address = entry.1.address ∨
        Mentions address entry.2 := by
  rw [captureLayout, hcanonical] at h
  obtain ⟨_, hsame, h⟩ := bind_eq_ok_iff.mp h
  cases hsame
  obtain ⟨recorded, hrecorded, h⟩ := bind_eq_ok_iff.mp h
  cases h
  refine ⟨hrecorded, fun address => ?_⟩
  have hdependency : (∃ version, (address, version) ∈ collectDependencies entry.2 .new) ↔
      Mentions address entry.2 := by
    simp [mem_collectDependencies]
  rw [← hdependency]
  simp only [Finset.mem_union, Finset.mem_insert, List.mem_toFinset, List.mem_map, Prod.exists,
    exists_and_right, exists_eq_right]
  tauto

theorem captureLayouts_keeps (hsettled : ∀ entry ∈ cached, Settled layoutFormats canonical entry.1)
    (hserved : Served layoutFormats held.1 tag layout) (hparses : Parses layoutFormats tag)
    (hother : tag ∉ cached.map Prod.fst)
    (h : cached.foldlM (captureLayout codec canonical) held = .ok held') :
    Served layoutFormats held'.1 tag layout := by
  induction cached generalizing held with
  | nil =>
    cases h
    exact hserved
  | cons entry rest ih =>
    obtain ⟨next, hnext, h⟩ := bind_eq_ok_iff.mp h
    rw [List.map_cons, List.mem_cons, not_or] at hother
    have hentry := hsettled entry List.mem_cons_self
    have hrecord := (captureLayout_ok hentry.canonical hnext).1
    exact ih (fun other hmem => hsettled other (List.mem_cons_of_mem _ hmem))
      (hserved.recordLayout hparses hentry.parses (Ne.symm hother.1) hrecord) hother.2 h

/-- Every layout of the cache is served, under its own tag. -/
theorem captureLayouts_served
    (hsettled : ∀ entry ∈ cached, Settled layoutFormats canonical entry.1)
    (hnodup : (cached.map Prod.fst).Nodup)
    (h : cached.foldlM (captureLayout codec canonical) held = .ok held') :
    ∀ entry ∈ cached, Served layoutFormats held'.1 entry.1 entry.2 := by
  induction cached generalizing held with
  | nil => nofun
  | cons entry rest ih =>
    obtain ⟨next, hnext, hrun⟩ := bind_eq_ok_iff.mp h
    rw [List.map_cons, List.nodup_cons] at hnodup
    have hrest : ∀ other ∈ rest, Settled layoutFormats canonical other.1 :=
      fun other hmem => hsettled other (List.mem_cons_of_mem _ hmem)
    intro other hmem
    rcases List.mem_cons.mp hmem with rfl | hmem
    · have hother := hsettled other List.mem_cons_self
      have hrecord := (captureLayout_ok hother.canonical hnext).1
      exact captureLayouts_keeps hrest (recordLayout_served hrecord) hother.parses hnodup.1 hrun
    · exact ih hrest hnodup.2 hrun other hmem

theorem captureLayouts_named
    (hsettled : ∀ entry ∈ cached, Settled layoutFormats canonical entry.1)
    (h : cached.foldlM (captureLayout codec canonical) held = .ok held') (address : Address) :
    address ∈ held'.2 ↔ address ∈ held.2 ∨ ∃ entry ∈ cached, address = entry.1.address ∨
      Mentions address entry.2 := by
  induction cached generalizing held with
  | nil =>
    cases h
    simp
  | cons entry rest ih =>
    obtain ⟨next, hnext, h⟩ := bind_eq_ok_iff.mp h
    rw [ih (fun other hmem => hsettled other (List.mem_cons_of_mem _ hmem)) h,
      (captureLayout_ok (hsettled entry List.mem_cons_self).canonical hnext).2 address,
      List.exists_mem_cons_iff, or_assoc]

theorem captureLayouts_packages
    (h : cached.foldlM (captureLayout codec canonical) held = .ok held') :
    held'.1.packages = held.1.packages := by
  refine foldlM_invariant (I := fun now => now.1.packages = held.1.packages) ?_ h rfl
  intro now entry next hsame hnext
  obtain ⟨_, _, hnext⟩ := bind_eq_ok_iff.mp hnext
  obtain ⟨recorded, hrecorded, hnext⟩ := bind_eq_ok_iff.mp hnext
  cases hnext
  obtain ⟨_, _, hrecorded⟩ := bind_eq_ok_iff.mp hrecorded
  cases hrecorded
  exact hsame

/-! ### The bytecode a capture holds -/

theorem recordPackage_ok {address : Address} {found : chain.Object}
    (h : recordPackage formats fixtures address found = .ok fixtures') :
    fixtures'.layouts = fixtures.layouts ∧ fixtures'.canonical = fixtures.canonical ∧
      ∀ other, FixtureSet.package formats fixtures' other =
        if other = address then some found else FixtureSet.package formats fixtures other := by
  have hsame := package_recordPackage h
  obtain ⟨encoded, _, h⟩ := bind_eq_ok_iff.mp h
  cases h
  refine ⟨rfl, rfl, fun other => ?_⟩
  split
  · rename_i heq
    rw [heq]
    exact hsame
  · rename_i hne
    have htext : formats.id.encode other ≠ formats.id.encode address :=
      fun heq => hne (formats.id.encode_injective heq)
    simp only [FixtureSet.package]
    rw [Finmap.lookup_insert_of_ne _ htext]

theorem capturePackage_ok {address : Address}
    (h : capturePackage formats object fixtures address = .ok fixtures') :
    fixtures'.layouts = fixtures.layouts ∧ fixtures'.canonical = fixtures.canonical ∧
      ∀ other, FixtureSet.package formats fixtures' other =
        ((if other = address then (object address).toOption else none).or
          (FixtureSet.package formats fixtures other)) := by
  rw [capturePackage] at h
  cases hobject : object address with
  | ok found =>
    rw [hobject] at h
    obtain ⟨hlayouts, hcanonical, hpackage⟩ := recordPackage_ok (mapError_eq_ok_iff.mp h)
    refine ⟨hlayouts, hcanonical, fun other => ?_⟩
    rw [hpackage other]
    split <;> rfl
  | error error =>
    rw [hobject] at h
    cases h
    refine ⟨rfl, rfl, fun other => ?_⟩
    split <;> rfl

/-- The bytecode of every address asked for is what the node had under it. -/
theorem capturePackages_ok {addresses : List Address}
    (h : addresses.foldlM (capturePackage formats object) fixtures = .ok fixtures') :
    fixtures'.layouts = fixtures.layouts ∧ fixtures'.canonical = fixtures.canonical ∧
      ∀ other, FixtureSet.package formats fixtures' other =
        ((if other ∈ addresses then (object other).toOption else none).or
          (FixtureSet.package formats fixtures other)) := by
  induction addresses generalizing fixtures with
  | nil =>
    cases h
    exact ⟨rfl, rfl, fun other => rfl⟩
  | cons address rest ih =>
    obtain ⟨next, hnext, h⟩ := bind_eq_ok_iff.mp h
    obtain ⟨hlayouts, hcanonical, hpackage⟩ := capturePackage_ok hnext
    obtain ⟨hlayouts', hcanonical', hpackage'⟩ := ih h
    refine ⟨hlayouts'.trans hlayouts, hcanonical'.trans hcanonical, fun other => ?_⟩
    rw [hpackage' other, hpackage other, ← Option.or_assoc]
    congr 1
    by_cases heq : other = address
    · subst heq
      by_cases hmem : other ∈ rest
      · simp [hmem]
      · simp [hmem]
    · simp [heq]

end held

/-! ### Classifying alike -/

section alike
variable {ε' : Type} {layouts : Verdicts.LayoutSource ε} {layouts' : Verdicts.LayoutSource ε'}

/-- The scan fails or not whatever its errors are made of. -/
theorem scanPackage_toOption (ε ε' : Type) (package : Package) (tag : StructTag) :
    (Verdicts.scanPackage package tag : Except (VenueError ε) Verdicts.Scan).toOption =
      (Verdicts.scanPackage package tag : Except (VenueError ε') Verdicts.Scan).toOption := by
  simp only [Verdicts.scanPackage, toOption_foldlM]
  congr 1
  funext scan named
  simp only [Verdicts.scanModule]
  split
  · simp only [toOption_bind, toOption_mapError]
    rfl
  · rfl

theorem entryAt_alike {venue : StructTag} {package : Address} {module function : String}
    (hpackage : (layouts.package package).toOption = (layouts'.package package).toOption) :
    (entryAt layouts venue package module function).toOption =
      (entryAt layouts' venue package module function).toOption := by
  simp only [entryAt, toOption_bind, toOption_mapError, hpackage]
  refine Option.bind_congr fun found _ => ?_
  refine Option.bind_congr fun resolved _ => ?_
  refine Option.bind_congr fun definition _ => ?_
  cases definition with
  | none => rfl
  | some definition =>
    dsimp only
    split <;> rfl

theorem observedEntry_cons {venue : StructTag} (call : MoveCall) (rest : List MoveCall) :
    observedEntry layouts venue (call :: rest) =
      (entryAt layouts venue call.package call.module call.function).toOption.join.or
        (observedEntry layouts venue rest) := by
  rw [observedEntry]
  cases entryAt layouts venue call.package call.module call.function with
  | error error => rfl
  | ok found => cases found <;> rfl

theorem observedEntry_alike {venue : StructTag} {calls : List MoveCall}
    (hpackages : ∀ call ∈ calls,
      (layouts.package call.package).toOption = (layouts'.package call.package).toOption) :
    observedEntry layouts venue calls = observedEntry layouts' venue calls := by
  induction calls with
  | nil => rfl
  | cons call rest ih =>
    rw [observedEntry_cons, observedEntry_cons,
      entryAt_alike (hpackages call List.mem_cons_self),
      ih fun other hmem => hpackages other (List.mem_cons_of_mem _ hmem)]

theorem classifyObject_alike {deny : OracleDenySet} {object : Object} {tag : StructTag}
    {priceState : Option PriceState} {change : Option PriceStateChange}
    {observed : Option SwapEntry} (htag : object.structTag = some tag)
    (hlayout : (layouts.layout tag).toOption = (layouts'.layout tag).toOption)
    (hpackage : (layouts.package tag.address).toOption =
      (layouts'.package tag.address).toOption) :
    (classifyObject deny layouts object priceState change observed).toOption =
      (classifyObject deny layouts' object priceState change observed).toOption := by
  simp only [classifyObject, Verdicts.staticEvidence, htag, toOption_bind, toOption_mapError,
    toOption_okOr, Option.bind_some, hlayout, hpackage, scanPackage_toOption ε ε']
  rfl

end alike

/-! ### A capture against the node -/

section captured
variable (formats : Formats chain) {layoutFormats : LayoutFormats Json}
  (readFromObject : chain.Object → Except StoreError Package) (resolver : Resolver Package)

/-- The fixture set as a source of layouts, whatever its resolver has cached. -/
def offlineSource (layoutFormats : LayoutFormats Json) (fixtures : Fixtures Json)
    (store : SourcePackageStore Package) : Verdicts.LayoutSource ResolveError where
  layout tag :=
    (OfflineLayouts.layout formats layoutFormats readFromObject resolver fixtures store tag).1
  package := OfflineLayouts.package formats readFromObject fixtures

/-- What the node answers while a capture is made: the registry hands out the layouts it has
cached, each under its canonical tag, and a package is the bytecode of its object. -/
structure Online (layoutFormats : LayoutFormats Json) (live : Verdicts.LayoutSource ε)
    (canonical : StructTag → Except ε StructTag) (object : Address → Except ε chain.Object)
    (cached : List (StructTag × MoveTypeLayout)) : Prop where
  distinct : (cached.map Prod.fst).Nodup
  settled : ∀ entry ∈ cached, Settled layoutFormats canonical entry.1
  layout : ∀ entry ∈ cached, live.layout entry.1 = .ok entry.2
  package : ∀ address, (live.package address).toOption =
    (object address).toOption.bind fun found => (readFromObject found).toOption

variable {formats readFromObject resolver} {codec : LayoutCodec layoutFormats}
  {live : Verdicts.LayoutSource ε} {canonical : StructTag → Except ε StructTag}
  {object : Address → Except ε chain.Object} {scriptPackage : Address}
  {fixtures captured : Fixtures Json} {cached : List (StructTag × MoveTypeLayout)}
  (honline : Online readFromObject layoutFormats live canonical object cached)
  (hcaptured : captureTypes formats codec canonical object scriptPackage fixtures cached =
    .ok captured)
include honline hcaptured

theorem captured_layout (store : SourcePackageStore Package) {entry : StructTag × MoveTypeLayout}
    (hentry : entry ∈ cached) :
    (offlineSource formats readFromObject resolver layoutFormats captured store).layout entry.1 =
      .ok entry.2 := by
  obtain ⟨held, hheld, hpackages⟩ := bind_eq_ok_iff.mp hcaptured
  have hserved := captureLayouts_served honline.settled honline.distinct hheld entry hentry
  obtain ⟨hlayouts, hcanonicals, _⟩ := capturePackages_ok hpackages
  have hparsed : parsedCanonical layoutFormats captured entry.1 = some entry.1 := by
    have htext := hserved.canonical
    rw [canonicalOf, ← hcanonicals] at htext
    rw [parsedCanonical, canonicalOf, htext, Option.bind_some]
    exact (honline.settled entry hentry).parses
  have hfound : FixtureSet.layout layoutFormats captured entry.1 = some entry.2 := by
    have hlayout := hserved.layout
    rw [FixtureSet.layout, ← hlayouts] at hlayout
    exact hlayout
  simp only [offlineSource, OfflineLayouts.layout, hparsed, Option.bind_some, hfound]

theorem captured_package (hempty : fixtures.packages = ∅) (store : SourcePackageStore Package)
    {address : Address} (hnamed : Named scriptPackage cached address) :
    ((offlineSource formats readFromObject resolver layoutFormats captured store).package
      address).toOption = (live.package address).toOption := by
  obtain ⟨held, hheld, hpackages⟩ := bind_eq_ok_iff.mp hcaptured
  obtain ⟨_, _, hpackage⟩ := capturePackages_ok hpackages
  have hasked : address ∈ OrderedKeys.ordered (insert scriptPackage held.2) := by
    rw [OrderedKeys.mem_ordered, Finset.mem_insert, captureLayouts_named honline.settled hheld]
    exact hnamed.imp_right .inr
  have hnone : FixtureSet.package formats held.1 address = none := by
    rw [FixtureSet.package, captureLayouts_packages hheld, hempty, Finmap.lookup_empty]
    rfl
  have hfound := hpackage address
  rw [if_pos hasked, hnone, Option.or_none] at hfound
  simp only [offlineSource, OfflineLayouts.package, toOption_bind, toOption_mapError,
    toOption_okOr, hfound, honline.package]

end captured

/-- What is classified of an object from a capture, with the calls of its transaction, is what was
classified of it online, whenever its type was among those the registry handed out. -/
theorem captured_classification (formats : Formats chain) {layoutFormats : LayoutFormats Json}
    (codec : LayoutCodec layoutFormats) (readFromObject : chain.Object → Except StoreError Package)
    (resolver : Resolver Package) (live : Verdicts.LayoutSource ε)
    (canonical : StructTag → Except ε StructTag) (object : Address → Except ε chain.Object)
    (scriptPackage : Address) (fixtures captured : Fixtures Json)
    (cached : List (StructTag × MoveTypeLayout))
    (honline : Online readFromObject layoutFormats live canonical object cached)
    (hempty : fixtures.packages = ∅)
    (hcaptured : captureTypes formats codec canonical object scriptPackage fixtures cached =
      .ok captured)
    (deny : OracleDenySet) (store : SourcePackageStore Package) (venue : Object)
    (tag : StructTag) (trade : Trade) (htag : venue.structTag = some tag)
    (hcached : tag ∈ cached.map Prod.fst)
    (hcalls : ∀ call ∈ trade.calls, Named scriptPackage cached call.package) :
    (classifyTraded deny (offlineSource formats readFromObject resolver layoutFormats captured
        store) venue tag trade).toOption =
      (classifyTraded deny live venue tag trade).toOption := by
  obtain ⟨entry, hentry, rfl⟩ := List.mem_map.mp hcached
  have hpackages : ∀ call ∈ trade.calls, ((offlineSource formats readFromObject resolver
      layoutFormats captured store).package call.package).toOption =
        (live.package call.package).toOption := fun call hmem =>
    captured_package honline hcaptured hempty store (hcalls call hmem)
  rw [classifyTraded, observedEntry_alike hpackages]
  refine classifyObject_alike htag ?_ ?_
  · rw [captured_layout honline hcaptured store hentry, honline.layout entry hentry]
    rfl
  · exact captured_package honline hcaptured hempty store (.inr ⟨entry, hentry, .inl rfl⟩)

/-! ### A pool and its router -/

section sample
open Verdicts (chainLayouts poolPackage routerPackage)

/-- Layouts kept as they are, and one tag that parses. -/
def poolFormats : LayoutFormats MoveTypeLayout :=
  ⟨shortTag, fun text => if text = shortTag pool then some pool else none, some⟩

def poolCodec : LayoutCodec poolFormats where
  write := .ok
  layout_write layout json h := by
    cases h
    rfl

/-- The node's object of a package, and the bytecode in it. -/
def packageObject (address : Address) : Except String ledger.Object :=
  .ok ((address, 1) : ObjectKey)

def packageOf (found : ledger.Object) : Except StoreError Package :=
  .ok (if (found : ObjectKey).1 = 40 then routerPackage else poolPackage)

def noTypes : Resolver Package where
  canonicalType _ := .done (.error (.malformed "not asked"))
  typeLayout _ := .done (.error (.malformed "not asked"))

def poolTypes : List (StructTag × MoveTypeLayout) := [(pool, .struct pool [])]

theorem poolTypes_online : Online packageOf poolFormats chainLayouts (.ok : StructTag → _)
    packageObject poolTypes where
  distinct := List.nodup_singleton _
  settled entry hentry := by
    obtain rfl := List.mem_singleton.mp hentry
    have hparses : (if shortTag pool = shortTag pool then some pool else none) = some pool :=
      if_pos rfl
    exact ⟨rfl, hparses⟩
  layout entry hentry := by
    obtain rfl := List.mem_singleton.mp hentry
    rfl
  package _ := rfl

theorem poolTypes_captured : ∃ captured, captureTypes ledgerFormats poolCodec
    (.ok : StructTag → Except String StructTag) packageObject 40 (.empty MoveTypeLayout) poolTypes =
      .ok captured := by
  have htotal : ∀ (fixtures : Fixtures MoveTypeLayout) (address : Address), ∃ fixtures',
      capturePackage ledgerFormats packageObject fixtures address = .ok fixtures' :=
    fun fixtures address => ⟨_, rfl⟩
  exact exists_foldlM htotal _ _

def poolObject : Object := ⟨7, 1, .immutable, .move pool []⟩

/-- One call of the router, on a pool that no one may trade with. -/
def routed : Trade := ⟨Priceable.pausedPool, Priceable.pausedPool, [], [⟨40, "router", "swap"⟩]⟩

theorem captured_classification_routed : ∃ captured,
    captureTypes ledgerFormats poolCodec (.ok : StructTag → Except String StructTag) packageObject
      40 (.empty MoveTypeLayout) poolTypes = .ok captured ∧
    (classifyTraded .defaultMainnet (offlineSource ledgerFormats packageOf noTypes poolFormats
        captured (PackageStore.World.start Package).store) poolObject pool routed).toOption =
      (classifyTraded .defaultMainnet chainLayouts poolObject pool routed).toOption := by
  obtain ⟨captured, hcaptured⟩ := poolTypes_captured
  refine ⟨captured, hcaptured, ?_⟩
  refine captured_classification ledgerFormats poolCodec packageOf noTypes chainLayouts .ok
    packageObject 40 (.empty MoveTypeLayout) captured poolTypes poolTypes_online rfl hcaptured
    .defaultMainnet _ poolObject pool routed rfl (List.mem_singleton_self _) ?_
  intro call hcall
  obtain rfl := List.mem_singleton.mp hcall
  exact .inl rfl

end sample
end CapturedLayouts
