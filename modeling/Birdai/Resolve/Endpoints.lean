import Birdai.Resolve.ObjectFetch

/-!
# One endpoint or two

A full node, with an archive beside it when one is configured. History is read from the
archive first and the present from the full node first; the batched reads have no second
endpoint. Where those agree with reading one object after the other.
-/

namespace Endpoints

open WideArith Outcomes PagedReads TickIndex MoveTypes Manager FieldVisitor ValueBytes
  PagedNodes ObjectFetch

/-! ### Reads -/

inductive ReadError where
  | objectNotFound (id : String) (version : Option U64)
  | rpc (call message : String)
  | unparsable (what value : String)
  deriving DecidableEq

def GrpcError.toReadError : GrpcError → ReadError
  | .rpc call message => .rpc call message
  | .unparsable what value => .unparsable what value

/-- What a node answers, for checkpoints of type `κ` and tokens of type `τ`. -/
structure Client (κ τ : Type) where
  getObject : ObjectId → Except Status Object
  getObjectWithVersion : ObjectId → U64 → Except Status Object
  getFullCheckpoint : U64 → Except Status κ
  batchGetObjects : List ObjectId → Except Status (List Object)
  getDynamicFields : ObjectId → ℕ → Option τ → Except String (DynamicFieldsResponse τ)

structure GrpcObjectSource (κ τ : Type) where
  client : Client κ τ
  checkpointClient : Option (Client κ τ)

variable {κ τ : Type}

/-- An empty archive address, or the full node's own, stands for no archive. -/
def withEndpoints (connect : String → Except ReadError (Client κ τ)) (url : String)
    (checkpointUrl : Option String) : Except ReadError (GrpcObjectSource κ τ) := do
  let client ← connect url
  match checkpointUrl with
  | some checkpointUrl =>
    if checkpointUrl ≠ "" ∧ checkpointUrl ≠ url then do
      let archival ← connect checkpointUrl
      .ok ⟨client, some archival⟩
    else .ok ⟨client, none⟩
  | none => .ok ⟨client, none⟩

def Client.fetch (client : Client κ τ) (id : ObjectId) (version : Option U64) :
    Except ReadError Object :=
  let result :=
    match version with
    | some version => client.getObjectWithVersion id version
    | none => client.getObject id
  match result with
  | .ok object => .ok object
  | .error status =>
    if status.code = .notFound then .error (.objectNotFound (canonicalText.encode id) version)
    else .error (.rpc "get_object" status.text)

def Client.fetchCheckpoint (client : Client κ τ) (sequenceNumber : U64) : Except ReadError κ :=
  (client.getFullCheckpoint sequenceNumber).mapError fun status =>
    if status.code = .notFound then
      .objectNotFound ("checkpoint " ++ toString sequenceNumber.val) none
    else .rpc "get_full_checkpoint" status.text

namespace GrpcObjectSource

def object (source : GrpcObjectSource κ τ) (id : ObjectId) (version : Option U64) :
    Except ReadError Object :=
  match source.checkpointClient with
  | none => source.client.fetch id version
  | some archival =>
    let (first, second) :=
      match version with
      | some _ => (archival, source.client)
      | none => (source.client, archival)
    match first.fetch id version with
    | .ok object => .ok object
    | .error _ => second.fetch id version

def checkpoint (source : GrpcObjectSource κ τ) (sequenceNumber : U64) : Except ReadError κ :=
  match source.checkpointClient with
  | none => source.client.fetchCheckpoint sequenceNumber
  | some archival =>
    match archival.fetchCheckpoint sequenceNumber with
    | .ok checkpoint => .ok checkpoint
    | .error _ => source.client.fetchCheckpoint sequenceNumber

/-- Dynamic fields are the full node's. -/
def dynamicFields (source : GrpcObjectSource κ τ) (parse : String → Option ObjectId)
    (parent : ObjectId) (cursor : Option τ) : Except ReadError (DynamicFieldPage τ) :=
  (grpcDynamicFields parse source.client.getDynamicFields parent cursor).mapError
    GrpcError.toReadError

/-- Several objects from the full node alone, the fetches of each chunk joined in the order
`completed` says. -/
def objects (source : GrpcObjectSource κ τ) (ids : List ObjectId)
    (completed : List (List ObjectId)) : Except ReadError (List Object) :=
  (ObjectFetch.objects source.client.batchGetObjects (fun id => .ok (source.client.getObject id))
    ids completed).mapError GrpcError.toReadError

/-- The reads the enumeration makes, with the batched override. -/
def batched (source : GrpcObjectSource κ τ) (parse : String → Option ObjectId)
    (completed : List ObjectId → List (List ObjectId)) : ObjectSource ReadError τ where
  dynamicFields := source.dynamicFields parse
  objects ids := source.objects ids (completed ids)

/-- The same reads without the override. -/
def sequential (source : GrpcObjectSource κ τ) (parse : String → Option ObjectId) :
    ObjectSource ReadError τ where
  dynamicFields := source.dynamicFields parse
  objects := sequentialObjects source.object

end GrpcObjectSource

/-! ### Either endpoint -/

variable {source : GrpcObjectSource κ τ} {client : Client κ τ} {ids : List ObjectId}

theorem fetch_latest_ok_iff {id : ObjectId} {object : Object} :
    client.fetch id none = .ok object ↔ client.getObject id = .ok object := by
  rw [Client.fetch]
  cases client.getObject id with
  | ok found => simp
  | error status =>
    dsimp only
    split <;> simp

/-- Who a source reads from. -/
def GrpcObjectSource.endpoints (source : GrpcObjectSource κ τ) : List (Client κ τ) :=
  source.client :: source.checkpointClient.toList

/-- An object is read while one of the endpoints still has it, at whatever version. -/
theorem object_read_iff (source : GrpcObjectSource κ τ) (id : ObjectId) (version : Option U64) :
    (∃ object, source.object id version = .ok object) ↔
      ∃ client ∈ source.endpoints, ∃ object, client.fetch id version = .ok object := by
  rw [GrpcObjectSource.object, GrpcObjectSource.endpoints]
  cases source.checkpointClient with
  | none => simp
  | some archival =>
    cases hfull : source.client.fetch id version <;> cases harchived : archival.fetch id version <;>
      cases version <;> simp [hfull, harchived]

/-- So is a checkpoint. -/
theorem checkpoint_read_iff (source : GrpcObjectSource κ τ) (sequenceNumber : U64) :
    (∃ checkpoint, source.checkpoint sequenceNumber = .ok checkpoint) ↔
      ∃ client ∈ source.endpoints, ∃ checkpoint,
        client.fetchCheckpoint sequenceNumber = .ok checkpoint := by
  rw [GrpcObjectSource.checkpoint, GrpcObjectSource.endpoints]
  cases source.checkpointClient with
  | none => simp
  | some archival => cases harchived : archival.fetchCheckpoint sequenceNumber <;> simp [harchived]

/-- The archive's address, where one is named apart from the full node's. -/
def archiveUrl (url : String) (checkpointUrl : Option String) : Option String :=
  checkpointUrl.filter fun named => named ≠ "" ∧ named ≠ url

/-- A source reads from the full node and the archive it was given addresses of, and is not built
while either cannot be reached. -/
theorem withEndpoints_ok_iff {connect : String → Except ReadError (Client κ τ)} {url : String}
    {checkpointUrl : Option String} :
    withEndpoints connect url checkpointUrl = .ok source ↔
      List.Forall₂ (fun address client => connect address = .ok client)
        (url :: (archiveUrl url checkpointUrl).toList) source.endpoints := by
  obtain ⟨full, archive⟩ := source
  rw [withEndpoints, GrpcObjectSource.endpoints, List.forall₂_cons]
  cases hurl : connect url with
  | error e => simp
  | ok client =>
    cases checkpointUrl with
    | none => cases archive <;> simp [archiveUrl]
    | some named =>
      by_cases hnamed : named ≠ "" ∧ named ≠ url
      · have harchive : archiveUrl url (some named) = some named :=
          Option.filter_some_pos (decide_eq_true hnamed)
        cases hconnect : connect named <;> cases archive <;>
          simp [harchive, hnamed, hconnect]
      · have harchive : archiveUrl url (some named) = none :=
          Option.filter_some_neg (decide_eq_false hnamed)
        cases archive <;> simp [harchive, hnamed]

/-- One of the endpoints does what a node at one of the addresses does. -/
theorem exists_endpoint_iff {connect : String → Except ReadError (Client κ τ)}
    {addresses : List String} {clients : List (Client κ τ)}
    (h : List.Forall₂ (fun address client => connect address = .ok client) addresses clients)
    {P : Client κ τ → Prop} : (∃ client ∈ clients, P client) ↔
      ∃ address ∈ addresses, ∃ client, connect address = .ok client ∧ P client := by
  induction h with
  | nil => simp
  | cons hconnect _ ih => simp [hconnect, ih]

/-- Objects and checkpoints are read while a node at one of the addresses still has them. -/
theorem withEndpoints_reads {connect : String → Except ReadError (Client κ τ)} {url : String}
    {checkpointUrl : Option String} (h : withEndpoints connect url checkpointUrl = .ok source) :
    (∀ id version, (∃ object, source.object id version = .ok object) ↔
      ∃ address ∈ url :: (archiveUrl url checkpointUrl).toList, ∃ client,
        connect address = .ok client ∧ ∃ object, client.fetch id version = .ok object) ∧
    (∀ sequenceNumber, (∃ checkpoint, source.checkpoint sequenceNumber = .ok checkpoint) ↔
      ∃ address ∈ url :: (archiveUrl url checkpointUrl).toList, ∃ client,
        connect address = .ok client ∧
          ∃ checkpoint, client.fetchCheckpoint sequenceNumber = .ok checkpoint) := by
  have hconnected := withEndpoints_ok_iff.mp h
  constructor
  · intro id version
    rw [object_read_iff, exists_endpoint_iff hconnected]
  · intro sequenceNumber
    rw [checkpoint_read_iff, exists_endpoint_iff hconnected]

/-- A latest read is the full node's whenever the full node answers it. -/
theorem object_latest {id : ObjectId} {object : Object}
    (h : source.client.getObject id = .ok object) : source.object id none = .ok object := by
  have hfetch := fetch_latest_ok_iff.mpr h
  rw [GrpcObjectSource.object]
  cases source.checkpointClient with
  | none => exact hfetch
  | some archival =>
    dsimp only
    rw [hfetch]

/-! ### Batched and plain reads -/

/-- A full node that does not move between reads: a batch holds what single reads return, and a
read is refused only for an object that is gone. -/
structure Client.Steady (client : Client κ τ) (ids : List ObjectId) : Prop where
  batch : ∀ objects, client.batchGetObjects ids = .ok objects →
    ∀ object ∈ objects, client.getObject object.id = .ok object
  refused : ∀ id ∈ ids, ∀ status, client.getObject id = .error status → status.code = .notFound

/-- What the full node has of the objects asked for. -/
def Client.held (client : Client κ τ) (ids : List ObjectId) : List Object :=
  ids.filterMap fun id => (client.getObject id).toOption

theorem held_eq_found : client.held ids = ids.filterMap (found fun id => .ok (client.getObject id))
    := by
  rw [Client.held]
  congr 1
  funext id
  rw [found]
  cases client.getObject id <;> rfl

/-- Batched or not, and in whatever order fetches complete, the full node gives what it has. -/
theorem objects_held (hsteady : source.client.Steady ids) (hnodup : ids.Nodup)
    {completed : List (List ObjectId)} (hcompletes : Completes ids completed) :
    source.objects ids completed = .ok (source.client.held ids) := by
  have hanswers : ∀ id ∈ ids, ¬Fails (fun id => .ok (source.client.getObject id)) id := by
    rintro id hid (⟨text, h⟩ | ⟨status, h, hcode⟩)
    · cases h
    · exact hcode (hsteady.refused id hid status (Except.ok.inj h))
  have hindividually : objectsIndividually (fun id => .ok (source.client.getObject id)) ids
      completed = .ok (source.client.held ids) := by
    rw [held_eq_found]
    exact objectsIndividually_found hnodup hcompletes hanswers
  have hfetched : ObjectFetch.objects source.client.batchGetObjects
      (fun id => .ok (source.client.getObject id)) ids completed =
        .ok (source.client.held ids) := by
    rw [ObjectFetch.objects]
    split
    · rename_i hempty
      rw [List.isEmpty_iff.mp hempty]
      rfl
    · split
      · rename_i objects hbatch
        split
        · rename_i hsame
          -- a batch that lines up with the ids carries what single reads return
          have hpaired : List.Forall₂
              (fun id object => (source.client.getObject id).toOption = some object)
              ids objects := by
            refine (List.forall₂_iff_zip.mpr ⟨hsame.1, fun {object id} hmem => ?_⟩).flip
            have hid : object.id = id := of_decide_eq_true (List.all_eq_true.mp hsame.2 _ hmem)
            have hobject := hsteady.batch objects hbatch object (List.of_mem_zip hmem).1
            exact congrArg Except.toOption (hid ▸ hobject)
          rw [Client.held, filterMap_paired hpaired]
        · exact hindividually
      · exact hindividually
  rw [GrpcObjectSource.objects, hfetched]
  rfl

/-- While nothing is missing, one after the other gives the same. -/
theorem sequential_held (hpresent : ∀ id ∈ ids, ∃ object, source.client.getObject id = .ok object) :
    sequentialObjects source.object ids = .ok (source.client.held ids) := by
  have hpaired : List.Forall₂
      (fun id object => (source.client.getObject id).toOption = some object) ids
      (source.client.held ids) := by
    refine paired_filterMap fun id hid => ?_
    obtain ⟨object, hobject⟩ := hpresent id hid
    rw [hobject]
    rfl
  refine mapM_paired (hpaired.imp fun id object h => ?_)
  apply object_latest
  cases hobject : source.client.getObject id with
  | ok found =>
    rw [hobject] at h
    exact congrArg Except.ok (Option.some.inj h)
  | error status =>
    rw [hobject] at h
    cases h

/-- The override agrees with reading one after the other exactly when nothing is missing from the
full node, whatever the archive has. -/
theorem objects_agree_iff (source : GrpcObjectSource κ τ) (ids : List ObjectId)
    (completed : List (List ObjectId)) (hsteady : source.client.Steady ids) (hnodup : ids.Nodup)
    (hcompletes : Completes ids completed) :
    source.objects ids completed = sequentialObjects source.object ids ↔
      ∀ id ∈ ids, ∃ object, source.client.getObject id = .ok object := by
  rw [objects_held hsteady hnodup hcompletes]
  constructor
  · intro hagree id hid
    have hpaired := paired_of_mapM hagree.symm
    have hlength : (source.client.held ids).length = ids.length := hpaired.length_eq.symm
    have hsome := List.filterMap_length_eq_length.mp hlength id hid
    cases hobject : source.client.getObject id with
    | ok object => exact ⟨object, rfl⟩
    | error status =>
      rw [hobject] at hsome
      cases hsome
  · intro hpresent
    exact (sequential_held hpresent).symm

/-- A full node without object 3, and an archive that still has it. -/
def prunedNode : Client Unit Unit where
  getObject id := if id = 3 then .error ⟨.notFound, "gone"⟩ else .ok (nodeObject id 1)
  getObjectWithVersion _ _ := .error ⟨.notFound, "pruned"⟩
  getFullCheckpoint _ := .error ⟨.notFound, "pruned"⟩
  batchGetObjects _ := .error ⟨.notFound, "an object is gone"⟩
  getDynamicFields _ _ _ := .ok ⟨[], none⟩

def archiveNode : Client Unit Unit :=
  { prunedNode with getObject := fun id => .ok (nodeObject id 1) }

theorem prunedNode_steady (ids : List ObjectId) : prunedNode.Steady ids where
  batch objects h := by cases h
  refused id _ status h := by
    simp only [prunedNode] at h
    split at h
    · cases h
      rfl
    · cases h

/-- One after the other, object 3 comes from the archive; batched, it is passed over. -/
theorem objects_disagree_gone :
    (⟨prunedNode, some archiveNode⟩ : GrpcObjectSource Unit Unit).objects [7, 3] [[3, 7]] ≠
      sequentialObjects (⟨prunedNode, some archiveNode⟩ : GrpcObjectSource Unit Unit).object
        [7, 3] := by
  have hcompletes : Completes [7, 3] [[3, 7]] :=
    .cons (JoinSets.joins_iff_perm.mpr (by decide)) .nil
  intro hagree
  have hpresent := (objects_agree_iff ⟨prunedNode, some archiveNode⟩ [7, 3] [[3, 7]]
    (prunedNode_steady _) (by decide) hcompletes).mp hagree
  obtain ⟨object, hobject⟩ := hpresent 3 (by decide)
  cases hobject

/-! ### Loading a pool's nodes -/

/-- A full node that answers for every child it lists, each listed once, while the children
are fetched batch by batch and each batch's fetches complete in some order. -/
structure Client.Answers (client : Client κ τ) (fieldIds : List ObjectId)
    (completed : List ObjectId → List (List ObjectId)) : Prop where
  nodup : fieldIds.Nodup
  completes : ∀ chunk ∈ chunks fetchBatch fieldIds, Completes chunk (completed chunk)
  steady : ∀ chunk ∈ chunks fetchBatch fieldIds, client.Steady chunk
  present : ∀ id ∈ fieldIds, ∃ object, client.getObject id = .ok object

/-- The nodes of a listing are loaded from its batches alone. -/
theorem loadTickNodes_listed {ε : Type} {framework : Framework}
    {layouts : StructTag → Except ε MoveTypeLayout} {head : SkipListHead}
    {other : ObjectSource ε τ} {fieldIds : List ObjectId} (reads : ObjectSource ε τ)
    (hlisted : walkPages (reads.dynamicFields head.nodeUid) maxPages none [] = .ok fieldIds)
    (hfields : other.dynamicFields = reads.dynamicFields)
    (hobjects : ∀ chunk ∈ chunks fetchBatch fieldIds, other.objects chunk = reads.objects chunk) :
    loadTickNodes framework other layouts head = loadTickNodes framework reads layouts head := by
  have hloads : ∀ each : ObjectSource ε τ, each.dynamicFields = reads.dynamicFields →
      loadTickNodes framework each layouts head =
        ((chunks fetchBatch fieldIds).foldlM (fun loading chunk =>
          (each.objects chunk).mapError .resolve >>= fun objects =>
            objects.foldlM (loadObject framework layouts) loading) ([], none) >>= fun loading =>
              .ok loading.1) := by
    intro each heach
    rw [loadTickNodes, heach, hlisted]
    rfl
  rw [hloads other hfields, hloads reads rfl]
  congr 1
  refine foldlM_congr_mem (fun chunk hchunk loading => ?_) _
  rw [hobjects chunk hchunk]

/-- Loading a pool's nodes through the batched reads comes to the same as reading child after
child, error for error, while the full node answers for every child it lists. -/
theorem loadTickNodes_agree (source : GrpcObjectSource κ τ) (framework : Framework)
    (layouts : StructTag → Except ReadError MoveTypeLayout) (head : SkipListHead)
    (parse : String → Option ObjectId) (completed : List ObjectId → List (List ObjectId))
    (hanswers : ∀ fieldIds,
      walkPages (source.dynamicFields parse head.nodeUid) maxPages none [] = .ok fieldIds →
        source.client.Answers fieldIds completed) :
    loadTickNodes framework (source.batched parse completed) layouts head =
      loadTickNodes framework (source.sequential parse) layouts head := by
  cases hlisted : walkPages (source.dynamicFields parse head.nodeUid) maxPages none [] with
  | error e =>
    -- both list alike, so both fail alike
    have hfails : ∀ reads : ObjectSource ReadError τ,
        reads.dynamicFields = source.dynamicFields parse →
          loadTickNodes framework reads layouts head = .error (.resolve e) := by
      intro reads hreads
      rw [loadTickNodes, hreads, hlisted]
      rfl
    rw [hfails _ rfl, hfails _ rfl]
  | ok fieldIds =>
    have hanswer := hanswers fieldIds hlisted
    refine loadTickNodes_listed (source.sequential parse) hlisted rfl fun chunk hchunk => ?_
    have hpart := List.sublist_flatten_of_mem hchunk
    rw [chunks_flatten (by decide)] at hpart
    have hall := sequential_held fun id hid => hanswer.present id (hpart.subset hid)
    exact (objects_held (hanswer.steady chunk hchunk) (hanswer.nodup.sublist hpart)
      (hanswer.completes chunk hchunk)).trans hall.symm

/-- The pruned node lists object 7, which it still has. -/
def listingNode : Client Unit Unit :=
  { prunedNode with getDynamicFields := fun _ _ cursor => .ok (onlyPage cursor) }

def parseId (text : String) : Option ObjectId := (canonicalText.decode text).toOption

theorem loadTickNodes_agree_listed :
    loadTickNodes plainBytes ((⟨listingNode, some archiveNode⟩ : GrpcObjectSource Unit Unit).batched
        parseId fun ids => [ids]) (fun _ => .ok fieldLayout) skipList =
      loadTickNodes plainBytes ((⟨listingNode, some archiveNode⟩ :
        GrpcObjectSource Unit Unit).sequential parseId) (fun _ => .ok fieldLayout) skipList := by
  refine loadTickNodes_agree ⟨listingNode, some archiveNode⟩ plainBytes _ skipList parseId _ ?_
  intro fieldIds hlisted
  have honly : walkPages ((⟨listingNode, some archiveNode⟩ :
      GrpcObjectSource Unit Unit).dynamicFields parseId skipList.nodeUid) maxPages none [] =
        .ok [7] := by
    decide +kernel
  obtain rfl := Except.ok.inj (honly.symm.trans hlisted)
  refine ⟨by decide, fun chunk hchunk => ?_, fun chunk _ => ?_, fun id hid => ?_⟩
  · obtain rfl := List.mem_singleton.mp hchunk
    exact .cons (JoinSets.joins_iff_perm.mpr (by decide)) .nil
  · exact ⟨(prunedNode_steady chunk).batch, (prunedNode_steady chunk).refused⟩
  · obtain rfl := List.mem_singleton.mp hid
    exact ⟨_, rfl⟩

end Endpoints
