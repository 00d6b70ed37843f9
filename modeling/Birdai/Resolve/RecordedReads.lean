import Birdai.Base.LabelledRuns
import Birdai.Resolve.CapturedLayouts

/-!
# What a set of fixtures reads

A set of fixtures is written one recording at a time, each under the text of its key. Read
back, it is the log of its recordings: the last one under a key, and the last one of the
greatest version where no version is asked for.
-/

namespace RecordedReads

open WideArith Outcomes OrderedKeys VersionMaps ByteCodecs LabelledRuns TickIndex MoveTypes Capture
open FixtureSet CapturedLayouts

variable {Json σ : Type} {chain : Chain}

inductive Recording (chain : Chain) (σ : Type) where
  | object (object : chain.Object)
  | package (address : Address) (object : chain.Object)
  | layout (requested canonical : StructTag) (layout : MoveTypeLayout)
  | checkpoint (checkpoint : Checkpoint chain) (start : σ)

section store
variable (formats : Formats chain) {layoutFormats : LayoutFormats Json}
  (codec : LayoutCodec layoutFormats) (keep : σ → ExecutedTransaction chain → Bool × σ)

/-- A recording that succeeds. -/
def Records (fixtures : Fixtures Json) (recording : Recording chain σ) (next : Fixtures Json) :
    Prop :=
  match recording with
  | .object object => recordObject formats fixtures object = .ok next
  | .package address object => recordPackage formats fixtures address object = .ok next
  | .layout requested canonical layout =>
    (recordLayout codec fixtures requested canonical layout : Except (CaptureError Unit) _) =
      .ok next
  | .checkpoint checkpoint start => ∃ held,
      recordCheckpoint formats keep fixtures.toFixtures checkpoint start = .ok held ∧
        next = { fixtures with toFixtures := held }

/-! ### The log -/

def objectUnder (id : ObjectId) (version : U64) : Recording chain σ → Option chain.Object
  | .object object => if chain.key object = (id, version) then some object else none
  | _ => none

def packageUnder (address : Address) : Recording chain σ → Option chain.Object
  | .package other object => if other = address then some object else none
  | _ => none

variable (layoutFormats) in
/-- Layouts stand under the text of their tags. -/
def layoutUnder (tag : StructTag) : Recording chain σ → Option MoveTypeLayout
  | .layout _ canonical layout =>
    if layoutFormats.tag canonical = layoutFormats.tag tag then some layout else none
  | _ => none

variable (layoutFormats) in
def canonicalUnder (tag : StructTag) : Recording chain σ → Option String
  | .layout requested canonical _ =>
    if layoutFormats.tag requested = layoutFormats.tag tag then some (layoutFormats.tag canonical)
    else none
  | _ => none

/-! ### One recording -/

variable {formats codec keep} {fixtures next : Fixtures Json} {recording : Recording chain σ}

/-- What a recording writes, and that it writes nothing else. -/
theorem records_cases (h : Records formats codec keep fixtures recording next) :
    (∃ recorded objects, recording = .object recorded ∧
      recordInto formats fixtures.objects recorded "object" = .ok objects ∧
        next = { fixtures with objects }) ∨
    (∃ address recorded encoded, recording = .package address recorded ∧
      decode formats encoded = .ok recorded ∧
        next = { fixtures with
          packages := fixtures.packages.insert (formats.id.encode address) encoded }) ∨
    (∃ requested canonical recorded json, recording = .layout requested canonical recorded ∧
      layoutFormats.layout json = some recorded ∧
        next = { fixtures with
          layouts := fixtures.layouts.insert (layoutFormats.tag canonical) json
          canonical := fixtures.canonical.insert (layoutFormats.tag requested)
            (layoutFormats.tag canonical) }) ∨
    ∃ checkpoint start held, recording = .checkpoint checkpoint start ∧
      next = { fixtures with toFixtures := held } := by
  cases recording with
  | object recorded =>
    obtain ⟨objects, hrecord, h⟩ := bind_eq_ok_iff.mp h
    cases h
    exact .inl ⟨recorded, objects, rfl, hrecord, rfl⟩
  | package address recorded =>
    obtain ⟨encoded, hencoded, h⟩ := bind_eq_ok_iff.mp h
    cases h
    exact .inr (.inl ⟨address, recorded, encoded, rfl, decodeRequired_encodeAs _ _ hencoded, rfl⟩)
  | layout requested canonical recorded =>
    obtain ⟨json, hjson, h⟩ := bind_eq_ok_iff.mp h
    cases h
    have hread := codec.layout_write recorded json (PagedNodes.mapError_eq_ok_iff.mp hjson)
    exact .inr (.inr (.inl ⟨requested, canonical, recorded, json, rfl, hread, rfl⟩))
  | checkpoint checkpoint start =>
    obtain ⟨held, _, rfl⟩ := h
    exact .inr (.inr (.inr ⟨checkpoint, start, held, rfl, rfl⟩))

theorem object_eq_objectAt (fixtures : Fixtures Json) (id : ObjectId) (version : U64) :
    object formats fixtures id (some version) =
      (objectAt fixtures.objects (formats.id.encode id) version).bind fun encoded =>
        (decode formats encoded).toOption := by
  rw [objectAt, Option.bind_assoc]
  rfl

theorem records_object (h : Records formats codec keep fixtures recording next) (id : ObjectId)
    (version : U64) : object formats next id (some version) =
      (objectUnder id version recording).or (object formats fixtures id (some version)) := by
  obtain ⟨recorded, objects, rfl, hrecord, rfl⟩ | ⟨_, _, _, rfl, _, rfl⟩ |
    ⟨_, _, _, _, rfl, _, rfl⟩ | ⟨_, _, _, rfl, rfl⟩ := records_cases h
  · obtain ⟨encoded, hencoded, hrecord⟩ := bind_eq_ok_iff.mp hrecord
    cases hrecord
    have hdecode : decode formats encoded = .ok recorded := decodeRequired_encodeAs _ _ hencoded
    rw [object_eq_objectAt, object_eq_objectAt, objectAt_insert, objectUnder]
    by_cases hkey : chain.key recorded = (id, version)
    · rw [if_pos hkey, if_pos (by rw [hkey]; exact ⟨rfl, rfl⟩), Option.bind_some, hdecode]
      rfl
    · rw [if_neg hkey, if_neg, Option.none_or]
      rintro ⟨hid, rfl⟩
      exact hkey (Prod.ext (formats.id.encode_injective hid).symm rfl)
  all_goals rfl

theorem records_package (h : Records formats codec keep fixtures recording next)
    (address : Address) : package formats next address =
      (packageUnder address recording).or (package formats fixtures address) := by
  obtain ⟨_, _, rfl, _, rfl⟩ | ⟨other, recorded, encoded, rfl, hdecode, rfl⟩ |
    ⟨_, _, _, _, rfl, _, rfl⟩ | ⟨_, _, _, rfl, rfl⟩ := records_cases h
  case inr.inl =>
    rw [packageUnder, package, package]
    by_cases hother : other = address
    · subst hother
      rw [if_pos rfl, Finmap.lookup_insert]
      exact congrArg Except.toOption hdecode
    · have hapart : formats.id.encode address ≠ formats.id.encode other :=
        fun heq => hother (formats.id.encode_injective heq).symm
      rw [if_neg hother, Finmap.lookup_insert_of_ne _ hapart, Option.none_or]
  all_goals rfl

theorem records_layout (h : Records formats codec keep fixtures recording next)
    (tag : StructTag) : layout layoutFormats next tag =
      (layoutUnder layoutFormats tag recording).or (layout layoutFormats fixtures tag) := by
  obtain ⟨_, _, rfl, _, rfl⟩ | ⟨_, _, _, rfl, _, rfl⟩ |
    ⟨_, canonical, recorded, json, rfl, hread, rfl⟩ | ⟨_, _, _, rfl, rfl⟩ := records_cases h
  case inr.inr.inl =>
    rw [layoutUnder, layout, layout]
    by_cases hsame : layoutFormats.tag canonical = layoutFormats.tag tag
    · rw [if_pos hsame, ← hsame, Finmap.lookup_insert]
      exact hread
    · rw [if_neg hsame, Finmap.lookup_insert_of_ne _ (Ne.symm hsame), Option.none_or]
  all_goals rfl

theorem records_canonical (h : Records formats codec keep fixtures recording next)
    (tag : StructTag) : canonicalOf layoutFormats next tag =
      (canonicalUnder layoutFormats tag recording).or (canonicalOf layoutFormats fixtures tag) := by
  obtain ⟨_, _, rfl, _, rfl⟩ | ⟨_, _, _, rfl, _, rfl⟩ |
    ⟨requested, canonical, _, _, rfl, _, rfl⟩ | ⟨_, _, _, rfl, rfl⟩ := records_cases h
  case inr.inr.inl =>
    rw [canonicalUnder, canonicalOf, canonicalOf]
    by_cases hsame : layoutFormats.tag requested = layoutFormats.tag tag
    · rw [if_pos hsame, ← hsame, Finmap.lookup_insert, Option.some_or]
    · rw [if_neg hsame, Finmap.lookup_insert_of_ne _ (Ne.symm hsame), Option.none_or]
  all_goals rfl

theorem records_recorded (hheld : Recorded formats fixtures.objects)
    (h : Records formats codec keep fixtures recording next) : Recorded formats next.objects := by
  obtain ⟨_, _, rfl, hrecord, rfl⟩ | ⟨_, _, _, rfl, _, rfl⟩ |
    ⟨_, _, _, _, rfl, _, rfl⟩ | ⟨_, _, _, rfl, rfl⟩ := records_cases h
  · exact .object hheld hrecord
  all_goals exact hheld

/-! ### The latest version -/

/-- Where every entry decodes, the latest object is the one of the greatest version read. -/
theorem latest_iff (hkeyed : Keyed formats fixtures.objects) {id : ObjectId}
    {found : chain.Object} : object formats fixtures id none = some found ↔
      ∃ version, object formats fixtures id (some version) = some found ∧
        ∀ later, version < later → object formats fixtures id (some later) = none := by
  rw [latestObject_eq_some_iff]
  constructor
  · rintro ⟨versions, encoded, hversions, hlatest, hdecode⟩
    obtain ⟨version, hversion, hgreatest⟩ := latest_eq_some_iff.mp hlatest
    refine ⟨version, object_eq_some_iff.mpr ⟨encoded, ?_, hdecode⟩, fun later hlater => ?_⟩
    · exact Option.bind_eq_some_iff.mpr ⟨versions, hversions, hversion⟩
    · by_contra hread
      obtain ⟨other, hother⟩ := Option.ne_none_iff_exists'.mp hread
      obtain ⟨_, hat, _⟩ := object_eq_some_iff.mp hother
      obtain ⟨versions', hversions', hlookup⟩ := Option.bind_eq_some_iff.mp hat
      cases hversions.symm.trans hversions'
      exact absurd (hgreatest later (Finmap.mem_of_lookup_eq_some hlookup)) (not_le.mpr hlater)
  · rintro ⟨version, hread, hnone⟩
    obtain ⟨encoded, hat, hdecode⟩ := object_eq_some_iff.mp hread
    obtain ⟨versions, hversions, hversion⟩ := Option.bind_eq_some_iff.mp hat
    refine ⟨versions, encoded, hversions, latest_eq_some_iff.mpr ⟨version, hversion, ?_⟩, hdecode⟩
    intro later hlater
    by_contra hgreater
    obtain ⟨text, htext⟩ := Finmap.mem_iff.mp hlater
    have hheld : objectAt fixtures.objects (formats.id.encode id) later = some text :=
      Option.bind_eq_some_iff.mpr ⟨versions, hversions, htext⟩
    obtain ⟨other, hother, _⟩ := hkeyed _ _ _ hheld
    have hsome := object_eq_some_iff.mpr ⟨text, hheld, hother⟩
    rw [hnone later (not_le.mp hgreater)] at hsome
    cases hsome

/-! ### A whole log -/

/-- Whatever was recorded, in whatever order: every read is a read of the log. -/
theorem run_reads {log : List (Recording chain σ)}
    (h : Run (Records formats codec keep) (.empty Json) log fixtures) :
    (∀ id version, object formats fixtures id (some version) =
      Run.lastOf (objectUnder id version) log) ∧
    (∀ id found, object formats fixtures id none = some found ↔
      ∃ version, Run.lastOf (objectUnder id version) log = some found ∧
        ∀ later, version < later → Run.lastOf (objectUnder id later) log = none) ∧
    (∀ address, package formats fixtures address = Run.lastOf (packageUnder address) log) ∧
    (∀ tag, layout layoutFormats fixtures tag = Run.lastOf (layoutUnder layoutFormats tag) log) ∧
    ∀ tag, canonicalOf layoutFormats fixtures tag =
      Run.lastOf (canonicalUnder layoutFormats tag) log := by
  have hobject : ∀ id version, object formats fixtures id (some version) =
      Run.lastOf (objectUnder id version) log := by
    intro id version
    have hlook := h.look_eq_lastOf (fun held => object formats held id (some version))
      (objectUnder id version) fun hstep => records_object hstep id version
    exact hlook.trans Option.or_none
  have hrecorded : Recorded formats fixtures.objects :=
    h.preserves (I := fun held => Recorded formats held.objects)
      (fun hheld hstep => records_recorded hheld hstep) .empty
  refine ⟨hobject, fun id found => ?_, fun address => ?_, fun tag => ?_, fun tag => ?_⟩
  · rw [latest_iff (recorded_keyed hrecorded)]
    simp only [hobject]
  · have hlook := h.look_eq_lastOf (fun held => package formats held address)
      (packageUnder address) fun hstep => records_package hstep address
    exact hlook.trans Option.or_none
  · have hlook := h.look_eq_lastOf (fun held => layout layoutFormats held tag)
      (layoutUnder layoutFormats tag) fun hstep => records_layout hstep tag
    exact hlook.trans Option.or_none
  · have hlook := h.look_eq_lastOf (fun held => canonicalOf layoutFormats held tag)
      (canonicalUnder layoutFormats tag) fun hstep => records_canonical hstep tag
    exact hlook.trans Option.or_none

end store

/-- Object 7 at version 3, then once more at version 1. -/
def twoVersions : List (Recording ledger Unit) := [.object (7, 3), .object (7, 1)]

theorem run_reads_two_versions : ∃ fixtures : Fixtures MoveTypeLayout,
    object ledgerFormats fixtures 7 none = some (7, 3) := by
  obtain ⟨fixtures, hrun⟩ : ∃ fixtures : Fixtures MoveTypeLayout,
      Run (Records ledgerFormats poolCodec fun (asked : Unit) _ => (true, asked))
        (.empty MoveTypeLayout) twoVersions fixtures :=
    ⟨_, .cons rfl (.cons rfl (.nil _))⟩
  refine ⟨fixtures, ((run_reads hrun).2.1 7 (7, 3)).mpr ⟨3, rfl, fun later hlater => ?_⟩⟩
  have hfirst : ((7, 3) : ObjectKey) ≠ (7, later) :=
    fun heq => hlater.ne (congrArg Prod.snd heq)
  have hsecond : ((7, 1) : ObjectKey) ≠ (7, later) := by
    intro heq
    have hsame : (1 : U64) = later := congrArg Prod.snd heq
    subst hsame
    exact absurd hlater (by decide)
  have hnothing : twoVersions.filterMap (objectUnder 7 later) = [] := by
    simp [twoVersions, objectUnder, ledger, hfirst, hsecond]
  rw [Run.lastOf, hnothing]
  rfl

end RecordedReads
