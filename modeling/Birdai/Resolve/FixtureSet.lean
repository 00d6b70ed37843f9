import Birdai.Base.VersionMaps
import Birdai.Move.MoveTypes
import Birdai.Resolve.Capture
import Birdai.Resolve.PackageStore

/-!
# Fixture sets

What a capture holds beside its checkpoints: versions of objects, packages by address,
layouts, and canonical tags. Recording writes one of these maps, and each read looks
at one of them.
-/

namespace FixtureSet

open WideArith Outcomes OrderedKeys VersionMaps ByteCodecs TickIndex MoveTypes Capture
open PackageStore (StoreError)

/-- A fixture set, with layouts in a text format of their own. -/
structure Fixtures (Json : Type) extends Capture.Fixtures where
  objects : CapturedObjects
  packages : Finmap fun _ : String => String
  layouts : Finmap fun _ : String => Json
  canonical : Finmap fun _ : String => String

def Fixtures.empty (Json : Type) : Fixtures Json := ⟨⟨∅⟩, ∅, ∅, ∅, ∅⟩

/-- The canonical text of a tag and how it is parsed, and how a layout is read. -/
structure LayoutFormats (Json : Type) where
  tag : StructTag → String
  parseTag : String → Option StructTag
  layout : Json → Option MoveTypeLayout

def packagesFile : String := "packages.json"

variable {Json : Type} {chain : Chain} (formats : Formats chain)

/-! ### Recording -/

/-- Record one object at the version it was read at. -/
def recordObject (fixtures : Fixtures Json) (object : chain.Object) :
    Except FixtureError (Fixtures Json) := do
  let objects ← recordInto formats fixtures.objects object "object"
  .ok { fixtures with objects }

/-- Record a package under the address layouts will reference it by. -/
def recordPackage (fixtures : Fixtures Json) (address : Address) (object : chain.Object) :
    Except FixtureError (Fixtures Json) := do
  let encoded ← encodeAs formats formats.object packagesFile "Object" object
  .ok { fixtures with packages := fixtures.packages.insert (formats.id.encode address) encoded }

/-! ### Reading -/

/-- The object at `version`, or at the latest one held. A corrupt entry is only warned
about. -/
def object (fixtures : Fixtures Json) (id : ObjectId) (version : Option U64) :
    Option chain.Object := do
  let versions ← fixtures.objects.lookup (formats.id.encode id)
  let encoded ←
    match version with
    | some version => versions.lookup version
    | none => latest versions
  (decode formats encoded).toOption

def package (fixtures : Fixtures Json) (address : Address) : Option chain.Object := do
  let encoded ← fixtures.packages.lookup (formats.id.encode address)
  (decode formats encoded).toOption

variable (layoutFormats : LayoutFormats Json)

def layout (fixtures : Fixtures Json) (canonical : StructTag) : Option MoveTypeLayout := do
  let json ← fixtures.layouts.lookup (layoutFormats.tag canonical)
  layoutFormats.layout json

def canonicalOf (fixtures : Fixtures Json) (tag : StructTag) : Option String :=
  fixtures.canonical.lookup (layoutFormats.tag tag)

/-- `notAStruct` is a layout error as well: its tag is the type found instead, and its
source says that the zero address is no package. -/
inductive ResolveError where
  | objectNotFound (id : String) (version : Option U64)
  | layout (tag : String) (source : StoreError)
  | notAStruct (type : TypeTag)

/-- `FixtureObjectSource::object`. -/
def sourceObject (fixtures : Fixtures Json) (id : ObjectId) (version : Option U64) :
    Except ResolveError chain.Object :=
  okOr (object formats fixtures id version) (.objectNotFound (formats.id.encode id) version)

variable {formats}

theorem toOption_eq_some_iff {ε α : Type} {x : Except ε α} {a : α} :
    x.toOption = some a ↔ x = .ok a := by
  cases x <;> simp [Except.toOption]

theorem object_eq_some_iff {fixtures : Fixtures Json} {id : ObjectId} {version : U64}
    {o : chain.Object} : object formats fixtures id (some version) = some o ↔
      ∃ encoded, objectAt fixtures.objects (formats.id.encode id) version = some encoded ∧
        decode formats encoded = .ok o := by
  simp only [object, objectAt, Option.bind_eq_bind, Option.bind_eq_some_iff, toOption_eq_some_iff]
  constructor
  · rintro ⟨versions, hversions, encoded, hencoded, hdecode⟩
    exact ⟨encoded, ⟨versions, hversions, hencoded⟩, hdecode⟩
  · rintro ⟨encoded, ⟨versions, hversions, hencoded⟩, hdecode⟩
    exact ⟨versions, hversions, encoded, hencoded, hdecode⟩

theorem latestObject_eq_some_iff {fixtures : Fixtures Json} {id : ObjectId} {o : chain.Object} :
    object formats fixtures id none = some o ↔
      ∃ versions encoded, fixtures.objects.lookup (formats.id.encode id) = some versions ∧
        latest versions = some encoded ∧ decode formats encoded = .ok o := by
  simp only [object, Option.bind_eq_bind, Option.bind_eq_some_iff, toOption_eq_some_iff]
  constructor
  · rintro ⟨versions, hversions, encoded, hencoded, hdecode⟩
    exact ⟨versions, encoded, hversions, hencoded, hdecode⟩
  · rintro ⟨versions, encoded, hversions, hencoded, hdecode⟩
    exact ⟨versions, hversions, encoded, hencoded, hdecode⟩

/-! ### What was recorded stands under its own key -/

/-- The objects a sequence of recordings leaves behind. -/
inductive Recorded (formats : Formats chain) : CapturedObjects → Prop where
  | empty : Recorded formats ∅
  | object {into into' : CapturedObjects} {object : chain.Object} {what : String} :
      Recorded formats into → recordInto formats into object what = .ok into' →
        Recorded formats into'

/-- Every entry decodes to an object of its own id and version. -/
def Keyed (formats : Formats chain) (into : CapturedObjects) : Prop :=
  ∀ id version encoded, objectAt into id version = some encoded →
    ∃ object, decode formats encoded = .ok object ∧
      formats.id.encode (chain.key object).1 = id ∧ (chain.key object).2 = version

theorem recordInto_keyed {into into' : CapturedObjects} {object : chain.Object} {what : String}
    (h : Keyed formats into) (hrecord : recordInto formats into object what = .ok into') :
    Keyed formats into' := by
  obtain ⟨encoded, hencoded, hrecord⟩ := bind_eq_ok_iff.mp hrecord
  cases hrecord
  intro id version found hat
  rw [objectAt_insert] at hat
  split at hat
  · rename_i hkey
    cases hat
    exact ⟨object, decodeRequired_encodeAs _ _ hencoded, hkey.1.symm, hkey.2.symm⟩
  · exact h id version found hat

theorem recorded_keyed {into : CapturedObjects} (h : Recorded formats into) :
    Keyed formats into := by
  induction h with
  | empty =>
    intro id version encoded hat
    simp [objectAt] at hat
  | object _ hrecord ih => exact recordInto_keyed ih hrecord

/-- Among the versions under a key, every one decodes to an object of that key. -/
theorem Keyed.of_values {into : CapturedObjects} (h : Keyed formats into) {text encoded : String}
    {versions : Finmap fun _ : U64 => String} (hversions : into.lookup text = some versions)
    (hencoded : encoded ∈ values versions) :
    ∃ object, decode formats encoded = .ok object ∧
      formats.id.encode (chain.key object).1 = text := by
  obtain ⟨version, hversion⟩ := mem_values.mp hencoded
  have hat : objectAt into text version = some encoded :=
    Option.bind_eq_some_iff.mpr ⟨versions, hversions, hversion⟩
  obtain ⟨object, hdecode, htext, _⟩ := h text version encoded hat
  exact ⟨object, hdecode, htext⟩

/-- A package is read back from under the address it was recorded at. -/
theorem package_recordPackage {fixtures fixtures' : Fixtures Json} {address : Address}
    {object : chain.Object} (h : recordPackage formats fixtures address object = .ok fixtures') :
    package formats fixtures' address = some object := by
  obtain ⟨encoded, hencoded, h⟩ := bind_eq_ok_iff.mp h
  cases h
  have hdecode : decode formats encoded = .ok object := decodeRequired_encodeAs _ _ hencoded
  simp only [package, Finmap.lookup_insert, hdecode, Except.toOption, bind, Option.bind]

end FixtureSet
