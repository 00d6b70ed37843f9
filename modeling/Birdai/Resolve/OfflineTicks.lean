import Birdai.Resolve.OfflineChildren
import Birdai.Tick.Snapshots
import Birdai.Venue.CetusPool

/-!
# A pool's ticks, captured and read back

A capture stores the nodes as the walk over them meets them, in no particular order and
under no index. What an offline walk builds from the stored nodes is the live index.
-/

namespace OfflineTicks

open WideArith Outcomes OrderedKeys VersionMaps PagedReads ByteCodecs TickIndex MoveTypes Manager
  FieldVisitor ValueBytes PagedNodes FixtureSet OfflineChildren CetusPool
open Capture (Chain Formats decode decodeRequired_encodeAs)

/-! ### Loading an index -/

inductive SnapshotError (ε : Type) where
  | load (error : LoadError ε)
  | tick (error : TickError)
  deriving DecidableEq

section loading
variable {ε τ : Type} (framework : Framework)

/-- `load_tick_snapshot`. -/
def loadTickSnapshot (source : ObjectSource ε τ) (layouts : StructTag → Except ε MoveTypeLayout)
    (pool : CetusClmm) : Except (SnapshotError ε) (Ticks × Option SizeSkew) := do
  let nodes ← (loadTickNodes framework source layouts pool.ticks).mapError .load
  let (index, skew) ←
    (Ticks.fromChildren (some pool.ticks.nodeUid) pool.ticks.size nodes).mapError .tick
  (index.validateSpacing pool.tickSpacing).mapError .tick
  .ok (index, skew)

/-- `load_tick_index`: a snapshot that fails is taken once more, of what is there then. -/
def loadTickIndex (first second : ObjectSource ε τ)
    (layouts : StructTag → Except ε MoveTypeLayout) (pool : CetusClmm) :
    Except (SnapshotError ε) (Ticks × Option SizeSkew) :=
  match loadTickSnapshot framework first layouts pool with
  | .ok loaded => .ok loaded
  | .error _ => loadTickSnapshot framework second layouts pool

end loading

/-! ### Capturing the nodes -/

section capturing
variable {Json ε τ : Type} {chain : Chain} (formats : Formats chain) (view : ObjectView chain)
  (framework : Framework)

/-- The reads of a full node, in the chain's own objects. -/
structure LiveSource (chain : Chain) (ε τ : Type) where
  dynamicFields : ObjectId → Option τ → Except ε (DynamicFieldPage τ)
  objects : List ObjectId → Except ε (List chain.Object)

def LiveSource.seen (live : LiveSource chain ε τ) : ObjectSource ε τ where
  dynamicFields := live.dynamicFields
  objects ids := (live.objects ids).map (List.map view.object)

/-- `on_object` of a capture: what cannot be stored is not counted. -/
def recordNode (recording : Fixtures Json × ℕ) (object : chain.Object) : Fixtures Json × ℕ :=
  match recordObject formats recording.1 object with
  | .ok fixtures => (fixtures, recording.2 + 1)
  | .error _ => recording

/-- Recorded first, then decoded. -/
def captureObject (layouts : StructTag → Except ε MoveTypeLayout)
    (state : (Fixtures Json × ℕ) × Loading) (object : chain.Object) :
    Except (LoadError ε) ((Fixtures Json × ℕ) × Loading) := do
  let recording := recordNode formats state.1 object
  let loading ← loadObject framework layouts state.2 (view.object object)
  .ok (recording, loading)

/-- `load_tick_nodes` with the callback of `fetch`: the nodes, the fixtures with every node
that could be stored, and how many those are. -/
def captureTickNodes (live : LiveSource chain ε τ) (layouts : StructTag → Except ε MoveTypeLayout)
    (head : SkipListHead) (fixtures : Fixtures Json) :
    Except (LoadError ε) (List TickNode × Fixtures Json × ℕ) := do
  let fieldIds ← (walkPages (live.dynamicFields head.nodeUid) maxPages none []).mapError .resolve
  let (recording, loading) ← (chunks fetchBatch fieldIds).foldlM
    (fun state chunk => (live.objects chunk).mapError .resolve >>= fun objects =>
      objects.foldlM (captureObject formats view framework layouts) state)
    ((fixtures, 0), [], none)
  .ok (loading.1, recording)

/-- A full node that lists the children of a container once each, and answers the ids it is
asked for with children of that container. -/
structure Serves (live : LiveSource chain ε τ) (parent : ObjectId)
    (pages : List (DynamicFieldPage τ)) : Prop where
  linked : Linked (live.dynamicFields parent) none pages
  short : pages.length ≤ maxPages
  once : (entryIds (shown pages)).Nodup
  answered : ∀ ids objects, live.objects ids = .ok objects →
    objects.map (fun o => (chain.key o).1) = ids
  owned : ∀ ids objects, live.objects ids = .ok objects →
    ∀ o ∈ objects, dynamicFieldParent (view.object o) = some parent

/-- Every node has one type, and the offline layouts have the layout live ones gave it. -/
structure OneType (live : LiveSource chain ε τ) (tag : StructTag)
    (layouts : StructTag → Except ε MoveTypeLayout)
    (offline : StructTag → Except ResolveError MoveTypeLayout) : Prop where
  typed : ∀ ids objects, live.objects ids = .ok objects →
    ∀ o ∈ objects, (view.object o).structTag = some tag
  resolved : ∀ layout, layouts tag = .ok layout → offline tag = .ok layout

/-- Nothing of a container has been recorded yet. -/
structure Unrecorded (fixtures : Fixtures Json) (parent : ObjectId)
    (ids : List ObjectId) : Prop where
  recorded : Recorded formats fixtures.objects
  childless : listedIds formats view fixtures parent = []
  fresh : ∀ id ∈ ids, fixtures.objects.lookup (formats.id.encode id) = none

end capturing

/-! ### What was recorded -/

section recording
variable {Json : Type} {chain : Chain} {formats : Formats chain}

theorem recordNode_count_le (objects : List chain.Object) (recording : Fixtures Json × ℕ) :
    (objects.foldl (recordNode formats) recording).2 ≤ recording.2 + objects.length := by
  induction objects generalizing recording with
  | nil => exact Nat.le_refl _
  | cons object objects ih =>
    have hstep : (recordNode formats recording object).2 ≤ recording.2 + 1 := by
      rw [recordNode]
      split
      · exact Nat.le_refl _
      · exact Nat.le_succ _
    have hrest := ih (recordNode formats recording object)
    rw [List.foldl_cons, List.length_cons]
    omega

/-- Where as many were stored as there were, each of them was. -/
theorem recordNode_all {objects : List chain.Object} {recording : Fixtures Json × ℕ}
    (h : (objects.foldl (recordNode formats) recording).2 = recording.2 + objects.length) :
    objects.foldlM (recordObject formats) recording.1 =
      .ok (objects.foldl (recordNode formats) recording).1 := by
  induction objects generalizing recording with
  | nil => rfl
  | cons object objects ih =>
    rw [List.foldl_cons, List.length_cons] at h
    rw [List.foldlM_cons, List.foldl_cons]
    have hrest := @recordNode_count_le _ _ formats objects (recordNode formats recording object)
    cases hrecord : recordObject formats recording.1 object with
    | error e =>
      have hstep : recordNode formats recording object = recording := by
        simp only [recordNode, hrecord]
      rw [hstep] at h hrest
      omega
    | ok fixtures =>
      have hstep : recordNode formats recording object = (fixtures, recording.2 + 1) := by
        simp only [recordNode, hrecord]
      rw [hstep] at h ⊢
      rw [ok_bind]
      refine @ih (fixtures, recording.2 + 1) ?_
      rw [h]
      omega

/-- Recording an object puts it beside the versions held of it. -/
theorem recordObject_objects {fixtures fixtures' : Fixtures Json} {object : chain.Object}
    (h : recordObject formats fixtures object = .ok fixtures') :
    ∃ encoded, decode formats encoded = .ok object ∧
      fixtures'.objects = fixtures.objects.insert (formats.id.encode (chain.key object).1)
        (((fixtures.objects.lookup (formats.id.encode (chain.key object).1)).getD ∅).insert
          (chain.key object).2 encoded) := by
  obtain ⟨objects, hobjects, h⟩ := bind_eq_ok_iff.mp h
  cases h
  obtain ⟨encoded, hencoded, hobjects⟩ := bind_eq_ok_iff.mp hobjects
  cases hobjects
  exact ⟨encoded, decodeRequired_encodeAs _ _ hencoded, rfl⟩

variable {objects : List chain.Object} {fixtures fixtures' : Fixtures Json}

theorem recordAll_recorded (h : objects.foldlM (recordObject formats) fixtures = .ok fixtures')
    (hrecorded : Recorded formats fixtures.objects) : Recorded formats fixtures'.objects := by
  refine foldlM_invariant (I := fun fixtures : Fixtures Json => Recorded formats fixtures.objects)
    ?_ h hrecorded
  intro before object after hbefore hrecord
  obtain ⟨objects, hobjects, hrecord⟩ := bind_eq_ok_iff.mp hrecord
  cases hrecord
  exact .object hbefore hobjects

theorem recordAll_other (h : objects.foldlM (recordObject formats) fixtures = .ok fixtures')
    {text : String} (hother : ∀ o ∈ objects, formats.id.encode (chain.key o).1 ≠ text) :
    fixtures'.objects.lookup text = fixtures.objects.lookup text := by
  induction objects generalizing fixtures with
  | nil =>
    cases h
    rfl
  | cons object objects ih =>
    rw [List.foldlM_cons] at h
    obtain ⟨between, hrecord, hrest⟩ := bind_eq_ok_iff.mp h
    obtain ⟨encoded, _, hobjects⟩ := recordObject_objects hrecord
    rw [ih hrest fun o ho => hother o (List.mem_cons_of_mem _ ho), hobjects]
    exact Finmap.lookup_insert_of_ne _ (hother object List.mem_cons_self).symm

/-- Of an object never seen before, the version recorded is the only one held. -/
theorem recordAll_held (h : objects.foldlM (recordObject formats) fixtures = .ok fixtures')
    (honce : (objects.map fun o => (chain.key o).1).Nodup)
    (hfresh : ∀ o ∈ objects, fixtures.objects.lookup (formats.id.encode (chain.key o).1) = none)
    {o : chain.Object} (ho : o ∈ objects) :
    ∃ encoded, decode formats encoded = .ok o ∧
      fixtures'.objects.lookup (formats.id.encode (chain.key o).1) =
        some (ofEntries [((chain.key o).2, encoded)]) := by
  induction objects generalizing fixtures with
  | nil => cases ho
  | cons object objects ih =>
    rw [List.foldlM_cons] at h
    obtain ⟨between, hrecord, hrest⟩ := bind_eq_ok_iff.mp h
    obtain ⟨encoded, hdecode, hobjects⟩ := recordObject_objects hrecord
    rw [List.map_cons, List.nodup_cons] at honce
    have hdistinct : ∀ o ∈ objects,
        formats.id.encode (chain.key o).1 ≠ formats.id.encode (chain.key object).1 := by
      intro o ho heq
      exact honce.1 (List.mem_map.mpr ⟨o, ho, formats.id.encode_injective heq⟩)
    rcases List.mem_cons.mp ho with rfl | ho
    · refine ⟨encoded, hdecode, ?_⟩
      rw [recordAll_other hrest hdistinct, hobjects, Finmap.lookup_insert,
        hfresh _ List.mem_cons_self]
      rfl
    · apply ih hrest honce.2 _ ho
      intro o ho
      rw [hobjects, Finmap.lookup_insert_of_ne _ (hdistinct o ho)]
      exact hfresh o (List.mem_cons_of_mem _ ho)

end recording

/-! ### What the walk met -/

section walk
variable {Json ε τ : Type} {chain : Chain} {formats : Formats chain} {view : ObjectView chain}
  {framework : Framework} {live : LiveSource chain ε τ}
  {layouts : StructTag → Except ε MoveTypeLayout}

/-- Recording goes on beside the decoding, and neither changes the other. -/
theorem captureObjects_ok_iff {objects : List chain.Object}
    {state after : (Fixtures Json × ℕ) × Loading} :
    objects.foldlM (captureObject formats view framework layouts) state = .ok after ↔
      after.1 = objects.foldl (recordNode formats) state.1 ∧
        (objects.map view.object).foldlM (loadObject framework layouts) state.2 =
          .ok after.2 := by
  induction objects generalizing state with
  | nil =>
    constructor
    · intro h
      cases h
      exact ⟨rfl, rfl⟩
    · rintro ⟨hrecording, hloading⟩
      exact congrArg Except.ok (Prod.ext hrecording.symm (Except.ok.inj hloading))
  | cons object objects ih =>
    rw [List.foldlM_cons, List.foldl_cons, List.map_cons, List.foldlM_cons, bind_eq_ok_iff,
      bind_eq_ok_iff]
    constructor
    · rintro ⟨between, hfirst, hrest⟩
      obtain ⟨loading, hloading, hfirst⟩ := bind_eq_ok_iff.mp hfirst
      cases hfirst
      obtain ⟨hrecording, hmore⟩ := ih.mp hrest
      exact ⟨hrecording, loading, hloading, hmore⟩
    · rintro ⟨hrecording, loading, hloading, hmore⟩
      exact ⟨_, bind_eq_ok_iff.mpr ⟨loading, hloading, rfl⟩, ih.mpr ⟨hrecording, hmore⟩⟩

/-- The objects a full node handed out for the ids, batch by batch. -/
def HandedOut (live : LiveSource chain ε τ) (ids : List ObjectId)
    (objects : List chain.Object) : Prop :=
  ∃ batches, List.Forall₂ (fun chunk batch => live.objects chunk = .ok batch)
    (chunks fetchBatch ids) batches ∧ batches.flatten = objects

theorem HandedOut.seen {ids : List ObjectId} {objects : List chain.Object}
    (h : HandedOut live ids objects) :
    Fetched (live.seen view) ids (objects.map view.object) := by
  obtain ⟨batches, hread, rfl⟩ := h
  refine ⟨batches.map (List.map view.object), ?_, List.map_flatten.symm⟩
  rw [List.forall₂_map_right_iff]
  refine hread.imp ?_
  intro chunk batch hbatch
  simp only [LiveSource.seen, hbatch, Except.map]

variable {head : SkipListHead} {pages : List (DynamicFieldPage τ)} {fixtures : Fixtures Json}
  {recording : Fixtures Json × ℕ} {nodes : List TickNode}

theorem captureTickNodes_ok (serves : Serves view live head.nodeUid pages)
    (h : captureTickNodes formats view framework live layouts head fixtures =
      .ok (nodes, recording)) :
    ∃ objects, HandedOut live (entryIds (shown pages)) objects ∧
      DecodeTo framework layouts (objects.map view.object) nodes ∧
      recording = objects.foldl (recordNode formats) (fixtures, 0) := by
  have hwalk : walkPages (live.dynamicFields head.nodeUid) maxPages none [] =
      .ok (entryIds (shown pages)) := walkPages_linked serves.linked serves.short []
  rw [captureTickNodes, hwalk] at h
  simp only [Except.mapError, ok_bind, bind_eq_ok_iff] at h
  obtain ⟨state, hfold, h⟩ := h
  cases h
  obtain ⟨batches, hread, hcaptured⟩ := foldlM_batches.mp hfold
  obtain ⟨hrecording, hloading⟩ := captureObjects_ok_iff.mp hcaptured
  refine ⟨batches.flatten, ⟨batches, ?_, rfl⟩, loadAll_ok_iff.mp ⟨_, hloading⟩, hrecording⟩
  exact hread.imp fun _ _ hbatch => mapError_eq_ok_iff.mp hbatch

/-- Where as many nodes were stored as there are, every object met was. -/
theorem captureTickNodes_all (serves : Serves view live head.nodeUid pages)
    {captured : Fixtures Json} {stored : ℕ}
    (h : captureTickNodes formats view framework live layouts head fixtures =
      .ok (nodes, captured, stored)) (hstored : stored = nodes.length) :
    ∃ objects, HandedOut live (entryIds (shown pages)) objects ∧
      DecodeTo framework layouts (objects.map view.object) nodes ∧
      objects.foldlM (recordObject formats) fixtures = .ok captured := by
  obtain ⟨objects, hhanded, hdecode, hrecording⟩ := captureTickNodes_ok serves h
  refine ⟨objects, hhanded, hdecode, ?_⟩
  have hcount : (objects.foldl (recordNode formats) (fixtures, 0)).2 =
      (fixtures, 0).2 + objects.length := by
    obtain ⟨_, _, hpaired⟩ := hdecode
    rw [← hrecording, Nat.zero_add, hstored, ← hpaired.length_eq, List.length_map]
  rw [recordNode_all hcount, ← hrecording]

/-- The walk that captures loads what the plain one loads. -/
theorem captureTickNodes_loads (serves : Serves view live head.nodeUid pages)
    (h : captureTickNodes formats view framework live layouts head fixtures =
      .ok (nodes, recording)) :
    loadTickNodes framework (live.seen view) layouts head = .ok nodes := by
  obtain ⟨objects, hhanded, hdecode, _⟩ := captureTickNodes_ok serves h
  exact (loadTickNodes_ok_iff serves.linked serves.short).mpr ⟨_, hhanded.seen, hdecode⟩

theorem HandedOut.ids (serves : Serves view live head.nodeUid pages)
    {objects : List chain.Object} (h : HandedOut live (entryIds (shown pages)) objects) :
    objects.map (fun o => (chain.key o).1) = entryIds (shown pages) := by
  obtain ⟨batches, hread, rfl⟩ := h
  rw [map_flatten_batches serves.answered hread, chunks_flatten fetchBatch_pos]

theorem HandedOut.read {ids : List ObjectId} {objects : List chain.Object}
    (h : HandedOut live ids objects) {o : chain.Object} (ho : o ∈ objects) :
    ∃ chunk batch, live.objects chunk = .ok batch ∧ o ∈ batch := by
  obtain ⟨batches, hread, rfl⟩ := h
  exact read_of_mem_batches hread ho

end walk

/-! ### Read back -/

section offline
variable {Json : Type} {chain : Chain} {formats : Formats chain} {view : ObjectView chain}
  {fixtures captured : Fixtures Json} {parent : ObjectId} {objects : List chain.Object}

/-- Nothing held before is a child of the container. -/
theorem Unrecorded.childId {ids : List ObjectId}
    (h : Unrecorded formats view fixtures parent ids) {text encoded : String}
    {versions : Finmap fun _ : U64 => String}
    (hversions : fixtures.objects.lookup text = some versions)
    (hencoded : encoded ∈ values versions) : childId formats view parent encoded = none := by
  cases hpicked : OfflineChildren.childId formats view parent encoded with
  | none => rfl
  | some id =>
    have hlisted : id ∈ listedIds formats view fixtures parent := mem_listing.mpr
      ⟨text, versions, hversions, List.mem_filterMap.mpr ⟨encoded, hencoded, hpicked⟩⟩
    rw [h.childless] at hlisted
    cases hlisted

variable (hall : objects.foldlM (recordObject formats) fixtures = .ok captured)
  (honce : (objects.map fun o => (chain.key o).1).Nodup)
  (hun : Unrecorded formats view fixtures parent (objects.map fun o => (chain.key o).1))
  (howned : ∀ o ∈ objects, dynamicFieldParent (view.object o) = some parent)
include hall honce hun

/-- An entry is the only one of a captured object, or was there before. -/
theorem captured_entry {text : String} {versions : Finmap fun _ : U64 => String}
    (hversions : captured.objects.lookup text = some versions) :
    (∃ o ∈ objects, ∃ encoded, formats.id.encode (chain.key o).1 = text ∧
      values versions = [encoded] ∧ decode formats encoded = .ok o) ∨
    fixtures.objects.lookup text = some versions := by
  by_cases hmet : ∃ o ∈ objects, formats.id.encode (chain.key o).1 = text
  · obtain ⟨o, ho, rfl⟩ := hmet
    have hfresh : ∀ o ∈ objects,
        fixtures.objects.lookup (formats.id.encode (chain.key o).1) = none :=
      fun o ho => hun.fresh _ (List.mem_map_of_mem ho)
    obtain ⟨encoded, hdecode, hheld⟩ := recordAll_held hall honce hfresh ho
    obtain rfl := Option.some.inj (hversions.symm.trans hheld)
    exact .inl ⟨o, ho, encoded, rfl, values_ofEntries (List.pairwise_singleton _ _), hdecode⟩
  · refine .inr ?_
    rw [← recordAll_other hall fun o ho htext => hmet ⟨o, ho, htext⟩]
    exact hversions

theorem captured_latest {o : chain.Object} (ho : o ∈ objects) :
    object formats captured (chain.key o).1 none = some o := by
  have hfresh : ∀ o ∈ objects,
      fixtures.objects.lookup (formats.id.encode (chain.key o).1) = none :=
    fun o ho => hun.fresh _ (List.mem_map_of_mem ho)
  obtain ⟨encoded, hdecode, hheld⟩ := recordAll_held hall honce hfresh ho
  refine latestObject_eq_some_iff.mpr ⟨_, encoded, hheld, ?_, hdecode⟩
  rw [latest, values_ofEntries (List.pairwise_singleton _ _)]
  rfl

include howned

/-- The children an offline walk lists are the captured ones, once each. -/
theorem captured_listed :
    (listedIds formats view captured parent).Perm (objects.map fun o => (chain.key o).1) := by
  have keyed := recorded_keyed (recordAll_recorded hall hun.recorded)
  have hlists : ListsChildren formats view captured parent := by
    rw [listsChildren_iff_olderElsewhere keyed, olderElsewhere_iff keyed]
    intro text versions hversions encoded hencoded
    rcases captured_entry hall honce hun hversions with ⟨_, _, only, _, hvalues, _⟩ | hbefore
    · rw [hvalues, List.dropLast_singleton] at hencoded
      cases hencoded
    · exact hun.childId hbefore (List.mem_of_mem_dropLast hencoded)
  refine (List.perm_ext_iff_of_nodup hlists.once honce).mpr fun id => ?_
  rw [hlists.exactly, List.mem_map]
  constructor
  · rintro ⟨_, o, hobject, rfl, hchild⟩
    obtain ⟨versions, encoded, hversions, hlatest, hdecode⟩ := latestObject_eq_some_iff.mp hobject
    have hencoded := List.mem_of_getLast? hlatest
    rcases captured_entry hall honce hun hversions with ⟨o', ho', _, htext, _⟩ | hbefore
    · exact ⟨o', ho', formats.id.encode_injective htext⟩
    · have hpicked := childId_eq_some_iff.mpr ⟨o, hdecode, hchild, rfl⟩
      rw [hun.childId hbefore hencoded] at hpicked
      cases hpicked
  · rintro ⟨o, ho, rfl⟩
    exact ⟨_, o, captured_latest hall honce hun ho, rfl, howned o ho⟩

/-- The nodes come back in another order. -/
theorem captured_loads {ε τ : Type} {framework : Framework}
    {layouts : StructTag → Except ε MoveTypeLayout}
    {offline : StructTag → Except ResolveError MoveTypeLayout} {head : SkipListHead}
    {nodes : List TickNode} {tag : StructTag} (hparent : head.nodeUid = parent)
    (htyped : ∀ o ∈ objects, (view.object o).structTag = some tag)
    (hresolved : ∀ layout, layouts tag = .ok layout → offline tag = .ok layout)
    (hdecode : DecodeTo framework layouts (objects.map view.object) nodes) :
    ∃ nodes', nodes'.Perm nodes ∧
      loadTickNodes framework (fixtureSource (τ := τ) formats view captured) offline head =
        .ok nodes' := by
  subst hparent
  have hread : List.Forall₂
      (fun id found => fixtureObject formats view captured id none = .ok found)
      (objects.map fun o => (chain.key o).1) (objects.map view.object) := by
    rw [List.forall₂_map_left_iff, List.forall₂_map_right_iff, List.forall₂_same]
    intro o ho
    simp only [fixtureObject, sourceObject, captured_latest hall honce hun ho, okOr, Except.map]
  obtain ⟨found, hfound, hperm⟩ :=
    List.perm_comp_forall₂ (captured_listed hall honce hun howned) hread
  obtain ⟨layout, hlayout, hpaired⟩ := hdecode
  obtain ⟨nodes', hpaired', hnodes⟩ := List.perm_comp_forall₂ hperm hpaired
  refine ⟨nodes', hnodes, ?_⟩
  obtain ⟨page, hpage, hnext, hlisted⟩ :=
    entryIds_page (τ := τ) formats view captured head.nodeUid none
  refine (loadTickNodes_ok_iff (.last hpage hnext) (Nat.succ_le_succ (Nat.zero_le 4095))).mpr
    ⟨found, ?_, layout, ?_, hpaired'⟩
  · rw [entryIds_shown (hidesNothing_single page), hlisted]
    rw [← chunks_flatten fetchBatch_pos (listedIds formats view captured head.nodeUid)] at hfound
    obtain ⟨batches, hbatches, hflatten⟩ := flatten_paired hfound
    exact ⟨batches, hbatches.imp fun _ _ => mapM_paired, hflatten⟩
  · intro first hfirst
    obtain ⟨o, ho, rfl⟩ :=
      List.mem_map.mp (hperm.mem_iff.mp (List.mem_of_mem_head? hfirst))
    have hnonempty : objects.map view.object ≠ [] :=
      List.ne_nil_of_mem (List.mem_map_of_mem ho)
    obtain ⟨first', rest, hcons⟩ := List.exists_cons_of_ne_nil hnonempty
    have hmem : first' ∈ objects.map view.object := hcons ▸ List.mem_cons_self
    obtain ⟨o', ho', rfl⟩ := List.mem_map.mp hmem
    obtain ⟨tag', htag', hlive⟩ := hlayout (view.object o') (by rw [hcons]; rfl)
    obtain rfl := Option.some.inj ((htyped o' ho').symm.trans htag')
    exact ⟨tag, htyped o ho, hresolved layout hlive⟩

end offline

/-! ### The index again -/

section snapshot
variable {ε τ : Type} {framework : Framework} {source : ObjectSource ε τ}
  {layouts : StructTag → Except ε MoveTypeLayout} {pool : CetusClmm}
  {loaded : Ticks × Option SizeSkew}

theorem loadTickSnapshot_ok_iff {nodes : List TickNode}
    (h : loadTickNodes framework source layouts pool.ticks = .ok nodes) :
    loadTickSnapshot framework source layouts pool = .ok loaded ↔
      Ticks.fromChildren (some pool.ticks.nodeUid) pool.ticks.size nodes = .ok loaded ∧
        loaded.1.validateSpacing pool.tickSpacing = .ok () := by
  rw [loadTickSnapshot, h]
  simp only [Except.mapError, ok_bind]
  cases Ticks.fromChildren (some pool.ticks.nodeUid) pool.ticks.size nodes with
  | error e => exact iff_of_false nofun fun h => nomatch h.1
  | ok built =>
    obtain ⟨index, skew⟩ := built
    rw [ok_bind, bind_eq_ok_iff]
    constructor
    · rintro ⟨_, hspacing, hloaded⟩
      cases hloaded
      exact ⟨rfl, mapError_eq_ok_iff.mp hspacing⟩
    · rintro ⟨hloaded, hspacing⟩
      cases hloaded
      exact ⟨(), mapError_eq_ok_iff.mpr hspacing, rfl⟩

/-- Only the inner UID says which nodes are walked. -/
theorem loadTickNodes_head {head head' : SkipListHead} (h : head.nodeUid = head'.nodeUid) :
    loadTickNodes framework source layouts head = loadTickNodes framework source layouts head' := by
  rw [loadTickNodes, loadTickNodes, h]

/-- Taking the same snapshot twice answers no more than taking it once. -/
theorem loadTickIndex_same :
    loadTickIndex framework source source layouts pool = .ok loaded ↔
      loadTickSnapshot framework source layouts pool = .ok loaded := by
  rw [loadTickIndex]
  cases hsnapshot : loadTickSnapshot framework source layouts pool with
  | ok found => exact Iff.rfl
  | error e => exact Iff.rfl

end snapshot

/-- Where every node that a capture met was stored, an offline load answers the index that
the live one did, with the same difference in size, and no other. The pool may be in
another version than the one whose nodes were walked. -/
theorem captured_index_iff {Json ε τ : Type} {chain : Chain} {formats : Formats chain}
    {view : ObjectView chain} {framework : Framework} {live : LiveSource chain ε τ}
    {layouts : StructTag → Except ε MoveTypeLayout}
    {offline : StructTag → Except ResolveError MoveTypeLayout} {head : SkipListHead}
    {pool : CetusClmm} (huid : pool.ticks.nodeUid = head.nodeUid)
    {fixtures captured : Fixtures Json} {nodes : List TickNode} {stored : ℕ} {tag : StructTag}
    {pages : List (DynamicFieldPage τ)} (serves : Serves view live head.nodeUid pages)
    (oneType : OneType view live tag layouts offline)
    (hun : Unrecorded formats view fixtures head.nodeUid (entryIds (shown pages)))
    (hcapture : captureTickNodes formats view framework live layouts head fixtures =
      .ok (nodes, captured, stored))
    (hstored : stored = nodes.length) {loaded : Ticks × Option SizeSkew} :
    loadTickIndex framework (fixtureSource (τ := τ) formats view captured)
      (fixtureSource (τ := τ) formats view captured) offline pool = .ok loaded ↔
    loadTickIndex framework (live.seen view) (live.seen view) layouts pool = .ok loaded := by
  obtain ⟨objects, hhanded, hdecode, hall⟩ := captureTickNodes_all serves hcapture hstored
  have hids := hhanded.ids serves
  have howned : ∀ o ∈ objects, dynamicFieldParent (view.object o) = some head.nodeUid := by
    intro o ho
    obtain ⟨ids, batch, hbatch, hmem⟩ := hhanded.read ho
    exact serves.owned ids batch hbatch o hmem
  have htyped : ∀ o ∈ objects, (view.object o).structTag = some tag := by
    intro o ho
    obtain ⟨ids, batch, hbatch, hmem⟩ := hhanded.read ho
    exact oneType.typed ids batch hbatch o hmem
  obtain ⟨nodes', hperm, hoffline⟩ := captured_loads (τ := τ) hall (hids ▸ serves.once)
    (hids ▸ hun) howned huid htyped oneType.resolved hdecode
  have hlive : loadTickNodes framework (live.seen view) layouts pool.ticks = .ok nodes := by
    rw [loadTickNodes_head huid]
    exact captureTickNodes_loads serves hcapture
  rw [loadTickIndex_same, loadTickIndex_same, loadTickSnapshot_ok_iff hoffline,
    loadTickSnapshot_ok_iff hlive]
  refine and_congr_left fun _ => ?_
  obtain ⟨index, skew⟩ := loaded
  exact ⟨Snapshots.fromChildren_perm_ok hperm, Snapshots.fromChildren_perm_ok hperm.symm⟩

/-- What was recorded before the nodes is read as it was. -/
theorem captured_object {Json ε τ : Type} {chain : Chain} {formats : Formats chain}
    {view : ObjectView chain} {framework : Framework} {live : LiveSource chain ε τ}
    {layouts : StructTag → Except ε MoveTypeLayout} {head : SkipListHead}
    {fixtures captured : Fixtures Json} {nodes : List TickNode} {stored : ℕ}
    {pages : List (DynamicFieldPage τ)} (serves : Serves view live head.nodeUid pages)
    (hun : Unrecorded formats view fixtures head.nodeUid (entryIds (shown pages)))
    (hcapture : captureTickNodes formats view framework live layouts head fixtures =
      .ok (nodes, captured, stored))
    (hstored : stored = nodes.length) {id : ObjectId} {version : U64} {o : chain.Object}
    (h : object formats fixtures id (some version) = some o) :
    object formats captured id (some version) = some o := by
  obtain ⟨objects, hhanded, _, hall⟩ := captureTickNodes_all serves hcapture hstored
  have hids := hhanded.ids serves
  obtain ⟨encoded, hat, hdecode⟩ := object_eq_some_iff.mp h
  refine object_eq_some_iff.mpr ⟨encoded, ?_, hdecode⟩
  have hother : ∀ o ∈ objects, formats.id.encode (chain.key o).1 ≠ formats.id.encode id := by
    intro o ho htext
    have hmem : (chain.key o).1 ∈ entryIds (shown pages) := hids ▸ List.mem_map_of_mem ho
    rw [Capture.objectAt, ← htext, hun.fresh _ hmem] at hat
    cases hat
  rw [Capture.objectAt, recordAll_other hall hother]
  exact hat

end OfflineTicks
