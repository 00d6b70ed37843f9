import Birdai.Venue.AnyVenue
import Mathlib.Data.Finset.Sort

/-!
# The state manager

Checkpoints in, typed venue slots and child sets out, in the order of
`apply_checkpoint`. The concurrent maps are finite maps here: one caller applies
checkpoints serially. Error payloads keep ids and tags instead of their text.
-/

namespace Manager

open WideArith Outcomes TickIndex MoveTypes CetusPool AnyVenues

/-! ### Checkpoints -/

inductive Owner where
  | addressOwner (address : Address)
  | objectOwner (parent : ObjectId)
  | shared (initialSharedVersion : U64)
  | immutable
  | consensusAddressOwner (startVersion : U64) (owner : Address)
  deriving DecidableEq

inductive Data where
  | move (type : StructTag) (contents : List (Fin 256))
  | package (originalPackageId : ObjectId)
  deriving DecidableEq

structure Object where
  id : ObjectId
  version : U64
  owner : Owner
  data : Data
  deriving DecidableEq

def Object.structTag (object : Object) : Option StructTag :=
  match object.data with
  | .move type _ => some type
  | .package _ => none

/-- The UID a dynamic field is attached to. -/
def dynamicFieldParent (object : Object) : Option ObjectId :=
  match object.owner with
  | .objectOwner parent => some parent
  | _ => none

/-- Objects in key order, one for each id and version. -/
structure ObjectSet where
  objects : List Object
  ordered : objects.Pairwise fun a b => a.id < b.id ∨ a.id = b.id ∧ a.version < b.version

def ObjectSet.get (set : ObjectSet) (id : ObjectId) (version : U64) : Option Object :=
  set.objects.find? fun object => object.id = id ∧ object.version = version

structure ObjectChange where
  id : ObjectId
  outputVersion : Option U64
  deriving DecidableEq

structure ExecutedTransaction where
  objectChanges : List ObjectChange

structure Checkpoint where
  sequenceNumber : U64
  transactions : List ExecutedTransaction
  objectSet : ObjectSet

/-- The object changes of a checkpoint, transaction by transaction. -/
def Checkpoint.changes (checkpoint : Checkpoint) : List ObjectChange :=
  checkpoint.transactions.flatMap ExecutedTransaction.objectChanges

/-- Where layouts come from. Resolving and observing may both move its state. -/
structure LayoutSource (ε σ : Type) where
  layout : σ → StructTag → Except ε MoveTypeLayout × σ
  notePackages : σ → List (Address × U64) → σ

/-! ### What the manager holds -/

structure VenueSlot where
  id : ObjectId
  version : U64
  tag : StructTag
  kind : VenueKind
  venue : AnyVenue
  layout : Fingerprint
  ticks : Option Ticks
  deriving DecidableEq

structure UpdateReport where
  checkpoint : U64
  objectsExamined : ℕ := 0
  venuesUpdated : ℕ := 0
  venuesCreated : ℕ := 0
  venuesRemoved : ℕ := 0
  childrenIndexed : ℕ := 0
  childrenDropped : ℕ := 0
  packagesObserved : ℕ := 0
  layoutsInvalidated : ℕ := 0
  failures : ℕ := 0
  unrecognised : ℕ := 0
  deriving DecidableEq

/-- The children kept for one parent, up to a capacity. -/
structure ChildSet where
  fieldIds : Finset ObjectId
  capacity : ℕ
  deriving DecidableEq

/-- The set after an insertion, and whether the id is new in it. -/
def ChildSet.insert (set : ChildSet) (fieldId : ObjectId) : ChildSet × Bool :=
  if set.capacity ≤ set.fieldIds.card ∧ fieldId ∉ set.fieldIds then (set, false)
  else ({ set with fieldIds := Insert.insert fieldId set.fieldIds }, fieldId ∉ set.fieldIds)

structure StateManager where
  slots : Finmap fun _ : ObjectId => VenueSlot
  children : Finmap fun _ : ObjectId => ChildSet
  childOwners : Finmap fun _ : ObjectId => ObjectId
  venuesCreated : ℕ
  venuesUpdated : ℕ
  venuesRemoved : ℕ
  childrenIndexed : ℕ
  childrenDropped : ℕ
  packageObservations : ℕ
  failures : ℕ
  unrecognised : ℕ
  checkpoints : ℕ
  lastApplied : U64
  childCapacity : ℕ
  deriving DecidableEq

inductive StateError where
  | missingLayout (tag : StructTag)
  | outOfOrder (id : ObjectId) (current incoming : U64)
  | unknownVenue (id : ObjectId)
  | venue (error : VenueError)
  | tick (error : TickError)
  deriving DecidableEq

namespace StateManager

def defaultChildCapacity : ℕ := 4096

def withChildCapacity (childCapacity : ℕ) : StateManager :=
  { slots := ∅
    children := ∅
    childOwners := ∅
    venuesCreated := 0
    venuesUpdated := 0
    venuesRemoved := 0
    childrenIndexed := 0
    childrenDropped := 0
    packageObservations := 0
    failures := 0
    unrecognised := 0
    checkpoints := 0
    lastApplied := 0
    childCapacity }

def new : StateManager := withChildCapacity defaultChildCapacity

/-- The children recorded for a parent UID. -/
def childFields (m : StateManager) (parent : ObjectId) : Finset ObjectId :=
  (m.children.lookup parent).elim ∅ ChildSet.fieldIds

/-- The inner UID of the tracked Cetus pool under an id. -/
def nodeUidOf (m : StateManager) (id : ObjectId) : Option ObjectId :=
  (m.slots.lookup id).bind fun slot => slot.venue.nodeUid?

/-- Attach a tick index to a tracked pool, and whether there was one to attach it to. -/
def setTicks (m : StateManager) (id : ObjectId) (ticks : Ticks) : StateManager × Bool :=
  match m.slots.lookup id with
  | none => (m, false)
  | some slot => ({ m with slots := m.slots.insert id { slot with ticks := some ticks } }, true)

/-- Replace a pool's tick index from freshly decoded nodes. -/
def installTicks (m : StateManager) (id : ObjectId) (head : SkipListHead)
    (nodes : List TickNode) : Except StateError (Ticks × Option SizeSkew) × StateManager :=
  match Ticks.fromChildren (some head.nodeUid) head.size nodes with
  | .error e => (.error (.tick e), m)
  | .ok (ticks, skew) =>
    let spaced := match (m.slots.lookup id).map VenueSlot.venue with
      | some (.cetus pool) => ticks.validateSpacing pool.tickSpacing
      | _ => .ok ()
    match spaced with
    | .error e => (.error (.tick e), m)
    | .ok () =>
      let (attached, found) := m.setTicks id ticks
      if found then (.ok (ticks, skew), attached) else (.error (.unknownVenue id), attached)

/-- A checkpoint at or below the last applied sequence is a duplicate delivery. -/
def skips (m : StateManager) (checkpoint : Checkpoint) : Bool :=
  m.checkpoints ≠ 0 ∧ checkpoint.sequenceNumber ≤ m.lastApplied

end StateManager

/-! ### Reading a checkpoint -/

/-- Package versions under the package a layout would reference, and under their own id. -/
def packageObservations (checkpoint : Checkpoint) : List (Address × U64) :=
  checkpoint.objectSet.objects.flatMap fun object =>
    match object.data with
    | .move _ _ => []
    | .package originalPackageId =>
      [(originalPackageId, object.version), (object.id, object.version)]

def isDynamicField (tag : StructTag) : Bool :=
  isTag tag suiFramework "dynamic_field" "Field" ||
    isTag tag suiFramework "dynamic_object_field" "Wrapper"

/-- What one walk over the change set finds. -/
structure Collected where
  examined : ℕ := 0
  missing : ℕ := 0
  candidates : List (Object × StructTag) := []
  removed : List ObjectId := []
  childParents : List (ObjectId × ObjectId) := []

def collectChange (objects : ObjectSet) (found : Collected) (change : ObjectChange) :
    Collected :=
  let found := { found with examined := found.examined + 1 }
  match change.outputVersion with
  | none => { found with removed := found.removed ++ [change.id] }
  | some version =>
    match objects.get change.id version with
    | none => { found with missing := found.missing + 1 }
    | some object =>
      match object.structTag with
      | none => found
      | some tag =>
        if (venueKindOf tag).isSome then
          { found with candidates := found.candidates ++ [(object, tag)] }
        else if isDynamicField tag then
          match dynamicFieldParent object with
          | none => found
          | some parent =>
            { found with childParents := found.childParents ++ [(parent, change.id)] }
        else found

def collect (checkpoint : Checkpoint) : Collected :=
  checkpoint.transactions.foldl
    (fun found transaction =>
      transaction.objectChanges.foldl (collectChange checkpoint.objectSet) found) {}

def addChild (out : Finmap fun _ : ObjectId => List ObjectId) (child : ObjectId × ObjectId) :
    Finmap fun _ : ObjectId => List ObjectId :=
  out.insert child.1 ((out.lookup child.1).getD [] ++ [child.2])

/-- Child field ids under the parent UID they belong to. -/
def groupChildren (children : List (ObjectId × ObjectId)) :
    Finmap fun _ : ObjectId => List ObjectId :=
  children.foldl addChild ∅

/-! ### Typing objects -/

def distinctTags (candidates : List (Object × StructTag)) : List StructTag :=
  candidates.foldl
    (fun seen candidate => if candidate.2 ∈ seen then seen else seen ++ [candidate.2]) []

abbrev Resolved := Finmap fun _ : StructTag => MoveTypeLayout × Fingerprint

section resolve
variable {ε σ : Type} (layouts : LayoutSource ε σ) (decoders : Decoders)

def resolveTag (resolving : Resolved × σ) (tag : StructTag) : Resolved × σ :=
  match layouts.layout resolving.2 tag with
  | (.ok layout, source) =>
    (resolving.1.insert tag (layout, decoders.fingerprint layout), source)
  | (.error _, source) => (resolving.1, source)

/-- Each distinct tag is resolved once. -/
def resolveAll (source : σ) (tags : List StructTag) : Resolved × σ :=
  tags.foldl (resolveTag layouts decoders) (∅, source)

end resolve

structure Untyped where
  id : ObjectId
  version : U64
  tag : StructTag
  fingerprint : Fingerprint
  contents : List (Fin 256)

structure Decoded where
  id : ObjectId
  version : U64
  tag : StructTag
  layout : Fingerprint
  venue : AnyVenue
  deriving DecidableEq

def decode (decoders : Decoders) (resolved : Resolved) (object : Untyped) :
    Except StateError Decoded := do
  let (layout, _) ← okOr (resolved.lookup object.tag) (.missingLayout object.tag)
  let venue ← (decodeVenue decoders object.contents object.tag layout).mapError .venue
  .ok
    { id := object.id
      version := object.version
      tag := object.tag
      layout := object.fingerprint
      venue }

/-! ### Applying a checkpoint -/

/-- The manager and the report, both on their way. -/
structure Progress where
  manager : StateManager
  report : UpdateReport

namespace Progress

def fail (p : Progress) (count : ℕ) : Progress :=
  { manager := { p.manager with failures := p.manager.failures + count }
    report := { p.report with failures := p.report.failures + count } }

/-- Copy an object's bytes out, next to the fingerprint of its layout. -/
def copyOut (resolved : Resolved) (copying : Progress × List Untyped)
    (candidate : Object × StructTag) : Except StateError (Progress × List Untyped) := do
  let (object, tag) := candidate
  let (_, fingerprint) ← okOr (resolved.lookup tag) (.missingLayout tag)
  match object.data with
  | .package _ => .ok (copying.1.fail 1, copying.2)
  | .move _ contents =>
    .ok (copying.1, copying.2 ++ [⟨object.id, object.version, tag, fingerprint, contents⟩])

end Progress

/-- No slot yet or a newer version publishes, the same version is a no-op, an older
one is out of order. -/
def shouldPublish (id : ObjectId) (current : Option U64) (incoming : U64) :
    Except StateError Bool :=
  match current with
  | none => .ok true
  | some current =>
    if current < incoming then .ok true
    else if incoming = current then .ok false
    else .error (.outOfOrder id current incoming)

namespace Progress

def publish (p : Progress) (outcome : Except StateError Decoded) : Progress :=
  match outcome with
  | .ok object =>
    let existing := p.manager.slots.lookup object.id
    match shouldPublish object.id (existing.map VenueSlot.version) object.version with
    | .error _ => p.fail 1
    | .ok false => p
    | .ok true =>
      let slot : VenueSlot :=
        { id := object.id
          version := object.version
          tag := object.tag
          kind := object.venue.kind
          venue := object.venue
          layout := object.layout
          ticks := existing.bind VenueSlot.ticks }
      let slots := p.manager.slots.insert object.id slot
      let report := { p.report with venuesUpdated := p.report.venuesUpdated + 1 }
      if existing.isNone then
        { manager := { p.manager with slots, venuesCreated := p.manager.venuesCreated + 1 }
          report := { report with venuesCreated := report.venuesCreated + 1 } }
      else
        { manager := { p.manager with slots, venuesUpdated := p.manager.venuesUpdated + 1 }
          report }
  | .error (.venue (.unknownVenue _)) =>
    { manager := { p.manager with unrecognised := p.manager.unrecognised + 1 }
      report := { p.report with unrecognised := p.report.unrecognised + 1 } }
  | .error _ => p.fail 1

/-- A removed slot, counted. -/
def removeSlot (p : Progress) (id : ObjectId) : Progress :=
  match p.manager.slots.lookup id with
  | none => p
  | some slot =>
    -- The set is keyed by the skip list's inner UID, not by the pool's id.
    let children := match slot.venue.nodeUid? with
      | none => p.manager.children
      | some nodeUid => p.manager.children.erase nodeUid
    { manager :=
        { p.manager with
          slots := p.manager.slots.erase id
          children
          venuesRemoved := p.manager.venuesRemoved + 1 }
      report := { p.report with venuesRemoved := p.report.venuesRemoved + 1 } }

/-- A removed child, taken from the set of the parent that holds it. -/
def removeChild (p : Progress) (id : ObjectId) : Progress :=
  match p.manager.childOwners.lookup id with
  | none => p
  | some parent =>
    let children := match p.manager.children.lookup parent with
      | none => p.manager.children
      | some set => p.manager.children.insert parent { set with fieldIds := set.fieldIds.erase id }
    { p with
      manager := { p.manager with children, childOwners := p.manager.childOwners.erase id } }

def remove (p : Progress) (id : ObjectId) : Progress := (p.removeSlot id).removeChild id

end Progress

/-- The inner UIDs of the tracked Cetus pools. -/
def pricedParents (m : StateManager) : Finset ObjectId :=
  m.slots.keys.biUnion fun id => (m.nodeUidOf id).toFinset

/-- One parent's set while a group of fields enters it. -/
structure Grouping where
  set : ChildSet
  owners : Finmap fun _ : ObjectId => ObjectId
  inserted : ℕ
  dropped : ℕ

def Grouping.index (parent : ObjectId) (g : Grouping) (fieldId : ObjectId) : Grouping :=
  let (set, isNew) := g.set.insert fieldId
  if isNew then
    { g with set, owners := g.owners.insert fieldId parent, inserted := g.inserted + 1 }
  else if fieldId ∉ set.fieldIds then { g with set, dropped := g.dropped + 1 }
  else { g with set }

namespace Progress

def indexGroup (priced : Finset ObjectId) (p : Progress) (group : ObjectId × List ObjectId) :
    Progress :=
  let (parent, fieldIds) := group
  if parent ∉ priced then p
  else
    let set := (p.manager.children.lookup parent).getD ⟨∅, p.manager.childCapacity⟩
    let g := fieldIds.foldl (Grouping.index parent) ⟨set, p.manager.childOwners, 0, 0⟩
    { manager :=
        { p.manager with
          children := p.manager.children.insert parent g.set
          childOwners := g.owners
          childrenIndexed := p.manager.childrenIndexed + g.inserted
          childrenDropped := p.manager.childrenDropped + g.dropped }
      report :=
        { p.report with
          childrenIndexed := p.report.childrenIndexed + g.inserted
          childrenDropped := p.report.childrenDropped + g.dropped } }

/-- Children are indexed only for the inner UIDs of tracked Cetus pools. -/
def indexChildren (p : Progress) (childParents : List (ObjectId × ObjectId)) : Progress :=
  if childParents = [] then p
  else
    let grouped := groupChildren childParents
    let groups := (grouped.keys.sort (· ≤ ·)).map fun parent =>
      (parent, (grouped.lookup parent).getD [])
    groups.foldl (indexGroup (pricedParents p.manager)) p

/-- The commit counter moves last. -/
def commit (p : Progress) (sequence : U64) : Progress :=
  { p with
    manager :=
      { p.manager with
        checkpoints := p.manager.checkpoints + 1
        lastApplied := sequence } }

end Progress

section apply
variable {ε σ : Type} (layouts : LayoutSource ε σ) (decoders : Decoders)

/-- Package observations first, so that the checkpoint's own upgrades are seen. -/
def observePackages (m : StateManager) (source : σ) (checkpoint : Checkpoint) : Progress × σ :=
  let observations := packageObservations checkpoint
  let report : UpdateReport :=
    { checkpoint := checkpoint.sequenceNumber, packagesObserved := observations.length }
  if observations = [] then ({ manager := m, report }, source)
  else
    ({ manager := { m with packageObservations := m.packageObservations + observations.length }
       report },
      layouts.notePackages source observations)

/-- Resolve, copy out and decode what could be a venue. -/
def typeObjects (p : Progress) (source : σ) (candidates : List (Object × StructTag)) :
    Except StateError (List (Except StateError Decoded)) × Progress × σ :=
  let (resolved, source) := resolveAll layouts decoders source (distinctTags candidates)
  let kept := candidates.filter fun candidate => candidate.2 ∈ resolved
  let p := p.fail (candidates.length - kept.length)
  match kept.foldlM (Progress.copyOut resolved) (p, []) with
  | .error e => (.error e, p, source)
  | .ok (p, untyped) => (.ok (untyped.map (decode decoders resolved)), p, source)

/-- Publish, remove, index, commit. -/
def finish (p : Progress) (sequence : U64) (found : Collected)
    (decoded : List (Except StateError Decoded)) : Progress :=
  let published := decoded.foldl Progress.publish p
  let removed := found.removed.foldl Progress.remove published
  (removed.indexChildren found.childParents).commit sequence

/-- Apply one checkpoint to the manager and to the source of its layouts. -/
def applyCheckpoint (m : StateManager) (source : σ) (checkpoint : Checkpoint) :
    Except StateError UpdateReport × StateManager × σ :=
  if m.skips checkpoint then
    (.ok { checkpoint := checkpoint.sequenceNumber }, m, source)
  else
    let (p, source) := observePackages layouts m source checkpoint
    let found := collect checkpoint
    let p : Progress :=
      { p with report := { p.report with objectsExamined := found.examined } }
    let p := p.fail found.missing
    match typeObjects layouts decoders p source found.candidates with
    | (.error e, p, source) => (.error e, p.manager, source)
    | (.ok decoded, p, source) =>
      let p := finish p checkpoint.sequenceNumber found decoded
      (.ok p.report, p.manager, source)

end apply

end Manager
