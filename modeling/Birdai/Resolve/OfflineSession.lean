import Birdai.Move.Dump
import Birdai.Resolve.OfflineTicks
import Birdai.Venue.Priceable

/-!
# A pool quoted from a capture

What a session reads to quote a pool: the pool object at a version, its layout, and the
nodes of its skip list. A capture of these is quoted as the full node was.
-/

namespace OfflineSession

open WideArith Outcomes SwapExactIn PagedReads TickIndex MoveTypes AnyVenues CetusPool Manager
  FieldVisitor ValueBytes PagedNodes FixtureSet OfflineChildren OfflineTicks
open Capture (Chain Formats)
open Drivers (Wire)
open Dumps (DumpValue)

/-! ### A session -/

/-- The reads a session makes of its backend. -/
structure Session (ε τ : Type) where
  object : ObjectId → Option U64 → Except ε Object
  source : ObjectSource ε τ
  layouts : StructTag → Except ε MoveTypeLayout

inductive CommandError (ε : Type) where
  | resolve (error : ε)
  | decode (error : DecodeError)
  | venue (error : VenueError)
  | ticks (error : SnapshotError ε)
  | amm (error : AmmError)
  | message (text : String)
  deriving DecidableEq

structure Decoded where
  object : Object
  tag : StructTag
  layout : MoveTypeLayout
  dump : DumpValue

section session
variable {ε τ : Type} (wire : Wire) (framework : Framework) (decoders : Decoders)

/-- Fetch an object, resolve its layout and dump it field by field. -/
def Session.decode (session : Session ε τ) (id : ObjectId) (version : Option U64) :
    Except (CommandError ε) Decoded := do
  let object ← (session.object id version).mapError .resolve
  let tag ← okOr object.structTag (.message (canonicalText.encode id ++ " is not a Move object"))
  let layout ← (session.layouts tag).mapError .resolve
  let bytes ← okOr (contents object)
    (.message (canonicalText.encode id ++ " has no Move contents"))
  let dump ← (Dumps.dump wire {} layout bytes).mapError .decode
  .ok ⟨object, tag, layout, dump⟩

/-- Load a pool and type it, behind the same gate as any other object. -/
def Session.loadPool (session : Session ε τ) (poolA : ObjectId) (version : Option U64) :
    Except (CommandError ε) CetusClmm := do
  let decoded ← session.decode wire poolA version
  let bytes ← okOr (contents decoded.object) (.message "pool A is not a Move object")
  let tag ← okOr decoded.object.structTag (.message "pool A has no type tag")
  let venue ← (decodeVenue decoders bytes tag decoded.layout).mapError .venue
  match venue with
  | .cetus pool => .ok pool
  | other => .error (.message ("pool A decoded as " ++ other.kind.label))

/-- `Ticks::default`: no boundary at all. -/
def noBoundaries : Ticks := .empty none none false

/-- Of `reproduce`, the two quotes it makes of a pool, which have to agree: one without any
boundary, and one over the loaded index. Its checks against constants and against the
checkpoint are left out. -/
def Session.reproduce (session : Session ε τ) (poolA : ObjectId) (version : U64)
    (direction : Direction) (amountIn : U128) : Except (CommandError ε) SwapResult := do
  let pool ← session.loadPool wire decoders poolA (some version)
  let (index, _) ←
    (loadTickIndex framework session.source session.source session.layouts pool).mapError .ticks
  let result ← (pool.quoteExactIn noBoundaries direction amountIn).mapError .amm
  let withChildren ← (pool.quoteExactIn index direction amountIn).mapError .amm
  if result.amountOut = withChildren.amountOut then .ok result
  else
    .error (.message ("the two quotes disagree: " ++ toString result.amountOut.val ++ " vs " ++
      toString withChildren.amountOut.val))

end session

/-! ### Two backends -/

section backends
variable {Json ε τ : Type} {chain : Chain} (formats : Formats chain) (view : ObjectView chain)

def online (object : ObjectId → Option U64 → Except ε chain.Object) (live : LiveSource chain ε τ)
    (layouts : StructTag → Except ε MoveTypeLayout) : Session ε τ where
  object id version := (object id version).map view.object
  source := live.seen view
  layouts

def offline (fixtures : Fixtures Json) (layouts : StructTag → Except ResolveError MoveTypeLayout) :
    Session ResolveError τ where
  object := fixtureObject formats view fixtures
  source := fixtureSource formats view fixtures
  layouts

end backends

section agree
variable {ε ε' τ : Type} {wire : Wire} {framework : Framework} {decoders : Decoders}
  {session : Session ε τ} {session' : Session ε' τ} {id : ObjectId} {version : Option U64}

/-- A decoded object is what its read, its type and its layout make of it. -/
theorem decode_ok_iff {decoded : Decoded} : session.decode wire id version = .ok decoded ↔
    ∃ bytes, session.object id version = .ok decoded.object ∧
      decoded.object.structTag = some decoded.tag ∧
      session.layouts decoded.tag = .ok decoded.layout ∧ contents decoded.object = some bytes ∧
      Dumps.dump wire {} decoded.layout bytes = .ok decoded.dump := by
  simp only [Session.decode, bind_eq_ok_iff, mapError_eq_ok_iff, okOr_eq_ok_iff]
  constructor
  · rintro ⟨object, hobject, tag, htag, layout, hlayout, bytes, hbytes, dump, hdump, h⟩
    cases h
    exact ⟨bytes, hobject, htag, hlayout, hbytes, hdump⟩
  · rintro ⟨bytes, hobject, htag, hlayout, hbytes, hdump⟩
    exact ⟨_, hobject, _, htag, _, hlayout, _, hbytes, _, hdump, rfl⟩

/-- Sessions that read one object, and one layout of its type, load one pool. -/
theorem loadPool_agree {object : Object} (hobject : session.object id version = .ok object)
    (hobject' : session'.object id version = .ok object)
    (hlayouts : ∀ tag, object.structTag = some tag → ∀ layout,
      session.layouts tag = .ok layout ↔ session'.layouts tag = .ok layout) {pool : CetusClmm} :
    session.loadPool wire decoders id version = .ok pool ↔
      session'.loadPool wire decoders id version = .ok pool := by
  have hdecode : ∀ decoded, session.decode wire id version = .ok decoded ↔
      session'.decode wire id version = .ok decoded := by
    intro decoded
    simp only [decode_ok_iff, hobject, hobject', Except.ok.injEq]
    refine exists_congr fun bytes => and_congr_right fun hsame => ?_
    subst hsame
    refine and_congr_right fun htag => ?_
    rw [hlayouts _ htag]
  simp only [Session.loadPool, bind_eq_ok_iff, hdecode, mapError_eq_ok_iff, okOr_eq_ok_iff]
  refine exists_congr fun decoded => and_congr_right fun _ => exists_congr fun bytes =>
    and_congr_right fun _ => exists_congr fun tag => and_congr_right fun _ =>
      exists_congr fun venue => and_congr_right fun _ => ?_
  cases venue with
  | cetus found => simp
  | volo found => exact iff_of_false nofun nofun
  | navi found => exact iff_of_false nofun nofun

/-- Sessions that load one pool and one index quote alike. -/
theorem reproduce_agree {poolA : ObjectId} {version : U64} {direction : Direction}
    {amountIn : U128} {result : SwapResult}
    (hpool : ∀ pool, session.loadPool wire decoders poolA (some version) = .ok pool ↔
      session'.loadPool wire decoders poolA (some version) = .ok pool)
    (hindex : ∀ pool, session.loadPool wire decoders poolA (some version) = .ok pool →
      ∀ loaded, loadTickIndex framework session.source session.source session.layouts pool =
          .ok loaded ↔
        loadTickIndex framework session'.source session'.source session'.layouts pool =
          .ok loaded) :
    session.reproduce wire framework decoders poolA version direction amountIn = .ok result ↔
      session'.reproduce wire framework decoders poolA version direction amountIn =
        .ok result := by
  simp only [Session.reproduce, bind_eq_ok_iff, mapError_eq_ok_iff]
  refine exists_congr fun pool => ?_
  rw [← hpool]
  refine and_congr_right fun hloaded => exists_congr fun loaded => ?_
  rw [hindex pool hloaded]
  refine and_congr_right fun _ => exists_congr fun bare => and_congr_right fun _ =>
    exists_congr fun full => and_congr_right fun _ => ?_
  split
  · simp
  · exact iff_of_false nofun nofun

end agree

/-- A pool captured at a version, with the nodes under its container as they were then, is
quoted offline with the result of the full node, or with none where there was none. -/
theorem captured_quote_same {Json ε τ : Type} {chain : Chain} (formats : Formats chain)
    (view : ObjectView chain) (wire : Wire) (framework : Framework) (decoders : Decoders)
    (object : ObjectId → Option U64 → Except ε chain.Object) (live : LiveSource chain ε τ)
    (layouts : StructTag → Except ε MoveTypeLayout)
    (recordedLayouts : StructTag → Except ResolveError MoveTypeLayout) (head : SkipListHead)
    (fixtures captured : Fixtures Json) (nodes : List TickNode) (stored : ℕ) (tag : StructTag)
    (pages : List (DynamicFieldPage τ)) (poolA : ObjectId) (version : U64)
    (original : chain.Object) (serves : Serves view live head.nodeUid pages)
    (oneType : OneType view live tag layouts recordedLayouts)
    (hun : Unrecorded formats view fixtures head.nodeUid (entryIds (shown pages)))
    (hlive : object poolA (some version) = .ok original)
    (hrecorded : FixtureSet.object formats fixtures poolA (some version) = some original)
    (hlayouts : ∀ poolTag, (view.object original).structTag = some poolTag → ∀ layout,
      layouts poolTag = .ok layout ↔ recordedLayouts poolTag = .ok layout)
    (hhead : ∀ pool, (online view object live layouts).loadPool wire decoders poolA
      (some version) = .ok pool → pool.ticks.nodeUid = head.nodeUid)
    (hcapture : captureTickNodes formats view framework live layouts head fixtures =
      .ok (nodes, captured, stored))
    (hstored : stored = nodes.length) (direction : Direction) (amountIn : U128)
    (result : SwapResult) :
    (online view object live layouts).reproduce wire framework decoders poolA version direction
      amountIn = .ok result ↔
    (offline (τ := τ) formats view captured recordedLayouts).reproduce wire framework decoders
      poolA version direction amountIn = .ok result := by
  have hobject : (online view object live layouts).object poolA (some version) =
      .ok (view.object original) := by
    simp only [online, hlive, Except.map]
  have hobject' : (offline (τ := τ) formats view captured recordedLayouts).object poolA
      (some version) = .ok (view.object original) := by
    have hkept := captured_object serves hun hcapture hstored hrecorded
    simp only [offline, fixtureObject, sourceObject, hkept, okOr, Except.map]
  refine reproduce_agree (fun pool => loadPool_agree hobject hobject' hlayouts) ?_
  intro pool hpool loaded
  exact (captured_index_iff (hhead pool hpool) serves oneType hun hcapture hstored).symm

/-! ### A pool with one node -/

section sample
open Capture (ledger ledgerFormats ObjectKey)

def poolTag : StructTag := ⟨1, "pool", "Pool", []⟩

/-- The fields a pool is known by, one byte each. -/
def poolLayout : MoveTypeLayout :=
  .struct poolTag ((requiredFields .cetusClmm).map fun name => ⟨name, .primitive .bool⟩)

def poolObject (version : U64) : Object :=
  ⟨3, version, .shared 1, .move poolTag (List.replicate 11 0)⟩

def ledgerObject (key : ObjectKey) : Object :=
  if key.1 = 3 then poolObject key.2 else nodeObject key.1 key.2

/-- A ledger's number 3 seen as a pool, and the others as nodes of its skip list. -/
def poolView : ObjectView ledger where
  object := ledgerObject
  key := by
    intro key
    change key = ((ledgerObject key).id, (ledgerObject key).version)
    unfold ledgerObject
    split
    · rename_i h
      exact Prod.ext h rfl
    · rfl

def versionOf (id : ObjectId) (version : U64) : ledger.Object := ((id, version) : ObjectKey)

/-- A full node with one child of the container. -/
def ledgerNode : LiveSource ledger GrpcError Unit where
  dynamicFields := (fullNode onlyPage).dynamicFields
  objects ids :=
    if ids = [7] then .ok [versionOf 7 1] else .error (.rpc "batch_get_objects" "not found")

def ledgerRead (id : ObjectId) (version : Option U64) : Except GrpcError ledger.Object :=
  .ok (versionOf id (version.getD 1))

def sampleLayouts {ε : Type} (tag : StructTag) : Except ε MoveTypeLayout :=
  .ok (if tag = poolTag then poolLayout else fieldLayout)

def onePool : CetusClmm := { Priceable.pausedPool with ticks := skipList }

def oneDecoder : Decoders :=
  { fingerprint := fun _ => 0
    cetus := fun _ _ => .ok onePool
    volo := fun _ _ => .error (.decode .unexpectedEnd)
    navi := fun _ _ => .error (.decode .unexpectedEnd) }

def withPool : Fixtures Unit :=
  (recordObject ledgerFormats (.empty Unit) (versionOf 3 5)).toOption.getD (.empty Unit)

theorem ledgerNode_serves : Serves poolView ledgerNode nodeUid [nodePage] where
  linked := .last onlyPage_listed rfl
  short := by decide
  once := by decide
  answered ids objects h := by
    simp only [ledgerNode] at h
    split at h
    · rename_i hids
      cases h
      exact hids.symm
    · cases h
  owned ids objects h o ho := by
    simp only [ledgerNode] at h
    split at h
    · cases h
      cases List.mem_singleton.mp ho
      rfl
    · cases h

theorem ledgerNode_oneType : OneType poolView ledgerNode fieldTag sampleLayouts sampleLayouts where
  typed ids objects h o ho := by
    simp only [ledgerNode] at h
    split at h
    · cases h
      cases List.mem_singleton.mp ho
      rfl
    · cases h
  resolved layout h := by
    cases h
    rfl

theorem withPool_unrecorded :
    Unrecorded ledgerFormats poolView withPool nodeUid (entryIds (shown [nodePage])) where
  recorded := by
    rw [withPool]
    cases hrecord : recordObject ledgerFormats (.empty Unit) (versionOf 3 5) with
    | error e => exact .empty
    | ok after =>
      obtain ⟨objects, hobjects, hafter⟩ := bind_eq_ok_iff.mp hrecord
      cases hafter
      exact .object .empty hobjects
  childless := by decide +kernel
  fresh := by
    intro id hid
    have hids : entryIds (shown [nodePage]) = [7] := by decide
    rw [hids, List.mem_singleton] at hid
    subst hid
    decide +kernel

theorem captured_quote_same_one : ∃ nodes captured,
    captureTickNodes ledgerFormats poolView plainBytes ledgerNode sampleLayouts skipList withPool =
        .ok (nodes, captured, 1) ∧
      ((offline (τ := Unit) ledgerFormats poolView captured sampleLayouts).reproduce
        Drivers.plainWire plainBytes oneDecoder 3 5 .bToA 1000).isOk = true := by
  have hcounts : (captureTickNodes ledgerFormats poolView plainBytes ledgerNode sampleLayouts
      skipList withPool).map (fun r => (r.1.length, r.2.2)) = .ok (1, 1) := by
    decide +kernel
  obtain ⟨result, hlive⟩ := exists_ok (show ((online poolView ledgerRead ledgerNode
    sampleLayouts).reproduce Drivers.plainWire plainBytes oneDecoder 3 5 .bToA 1000).isOk = true by
      decide +kernel)
  have hrecorded : FixtureSet.object ledgerFormats withPool 3 (some 5) = some (versionOf 3 5) := by
    decide +kernel
  cases hcapture : captureTickNodes ledgerFormats poolView plainBytes ledgerNode sampleLayouts
      skipList withPool with
  | error e =>
    rw [hcapture] at hcounts
    cases hcounts
  | ok r =>
    obtain ⟨nodes, captured, stored⟩ := r
    rw [hcapture] at hcounts
    obtain ⟨hnodes, rfl⟩ := Prod.mk.inj (Except.ok.inj hcounts)
    have hhead : ∀ pool, (online poolView ledgerRead ledgerNode sampleLayouts).loadPool
        Drivers.plainWire oneDecoder 3 (some 5) = .ok pool → pool.ticks.nodeUid = nodeUid := by
      have hloaded : (online poolView ledgerRead ledgerNode sampleLayouts).loadPool
          Drivers.plainWire oneDecoder 3 (some 5) = .ok onePool := by
        decide +kernel
      intro pool hpool
      cases hloaded.symm.trans hpool
      rfl
    refine ⟨nodes, captured, rfl, ?_⟩
    rw [(captured_quote_same ledgerFormats poolView Drivers.plainWire plainBytes oneDecoder
      ledgerRead ledgerNode sampleLayouts sampleLayouts skipList withPool captured nodes 1 fieldTag
      [nodePage] 3 5 (versionOf 3 5) ledgerNode_serves ledgerNode_oneType withPool_unrecorded rfl
      hrecorded (fun _ _ _ => by simp [sampleLayouts]) hhead hcapture hnodes.symm .bToA 1000
      result).mp hlive]
    rfl

end sample

end OfflineSession
