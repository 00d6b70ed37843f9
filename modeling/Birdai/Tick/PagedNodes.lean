import Birdai.Base.PagedReads
import Birdai.State.Manager
import Birdai.Venue.PoolDecoder

/-!
# Loading the nodes of a skip list

The dynamic fields of the inner UID are listed page by page, fetched in batches and
decoded one by one. A page without entries ends the listing, whatever its token says.
-/

namespace PagedNodes

open WideArith Outcomes PagedReads TickIndex MoveTypes AnyVenues Manager FieldVisitor NodeDecoders
  ValueBytes

/-! ### Object sources -/

/-- A child of a dynamic-field container, under the UID it is attached to. -/
structure DynamicFieldRef where
  parent : ObjectId
  fieldId : ObjectId
  deriving DecidableEq

abbrev DynamicFieldPage (τ : Type) := Page DynamicFieldRef τ

/-- The reads the enumeration makes: a page from a cursor on, and the latest versions of
several objects. -/
structure ObjectSource (ε τ : Type) where
  dynamicFields : ObjectId → Option τ → Except ε (DynamicFieldPage τ)
  objects : List ObjectId → Except ε (List Object)

/-- One read after the other, as sources without anything better do. -/
def sequentialObjects {ε : Type} (object : ObjectId → Option U64 → Except ε Object)
    (ids : List ObjectId) : Except ε (List Object) :=
  ids.mapM fun id => object id none

def dynamicFieldPageSize : ℕ := 50

/-- What the full node answers: each entry with the text of its id, if it sent one. -/
structure DynamicFieldsResponse (τ : Type) where
  dynamicFields : List (Option String)
  nextPageToken : Option τ

inductive GrpcError where
  | rpc (call message : String)
  | unparsable (what value : String)
  deriving DecidableEq

/-- Entries without an id are passed over, the others have to parse. -/
def grpcEntry (parse : String → Option ObjectId) (parent : ObjectId)
    (entries : List DynamicFieldRef) (field : Option String) :
    Except GrpcError (List DynamicFieldRef) :=
  match field with
  | none => .ok entries
  | some text => do
    let fieldId ← okOr (parse text) (.unparsable "dynamic field id" text)
    .ok (entries ++ [⟨parent, fieldId⟩])

/-- A page as the full node sends it. -/
def grpcDynamicFields {τ : Type} (parse : String → Option ObjectId)
    (getDynamicFields : ObjectId → ℕ → Option τ → Except String (DynamicFieldsResponse τ))
    (parent : ObjectId) (cursor : Option τ) : Except GrpcError (DynamicFieldPage τ) :=
  match getDynamicFields parent dynamicFieldPageSize cursor with
  | .error status => .error (.rpc "get_dynamic_fields" status)
  | .ok response => do
    let entries ← response.dynamicFields.foldlM (grpcEntry parse parent) []
    .ok ⟨entries, response.nextPageToken⟩

/-! ### The walk and the decoding -/

def fetchBatch : ℕ := 200

def maxPages : ℕ := 4096

inductive LoadError (ε : Type) where
  | resolve (error : ε)
  | decode (error : DecodeError)
  | message (text : String)
  deriving DecidableEq

variable {ε τ : Type}

/-- Follow the tokens for a bounded number of pages. -/
def walkPages (dynamicFields : Option τ → Except ε (DynamicFieldPage τ)) :
    ℕ → Option τ → List ObjectId → Except ε (List ObjectId)
  | 0, _, fieldIds => .ok fieldIds
  | pages + 1, cursor, fieldIds => do
    let page ← dynamicFields cursor
    if page.entries.isEmpty then .ok fieldIds
    else
      let fieldIds := fieldIds ++ page.entries.map DynamicFieldRef.fieldId
      match page.next with
      | some next => walkPages dynamicFields pages (some next) fieldIds
      | none => .ok fieldIds

/-- The nodes decoded so far, and the layout once one was resolved. -/
abbrev Loading := List TickNode × Option MoveTypeLayout

def fieldMessage (object : Object) (what : String) : LoadError ε :=
  .message ("dynamic field " ++ canonicalText.encode object.id ++ what)

def contents (object : Object) : Option (List (Fin 256)) :=
  match object.data with
  | .move _ contents => some contents
  | .package _ => none

/-- Every node shares one type, so the layout of the first serves them all. -/
def nodeLayout (layouts : StructTag → Except ε MoveTypeLayout) (held : Option MoveTypeLayout)
    (tag : StructTag) : Except (LoadError ε) MoveTypeLayout :=
  match held with
  | some cached => .ok cached
  | none => (layouts tag).mapError .resolve

def loadObject (framework : Framework) (layouts : StructTag → Except ε MoveTypeLayout)
    (loading : Loading) (object : Object) : Except (LoadError ε) Loading := do
  let tag ← okOr object.structTag (fieldMessage object " has no type")
  let layout ← nodeLayout layouts loading.2 tag
  match layout with
  | .struct type fields => do
    let bytes ← okOr (contents object) (fieldMessage object " has no contents")
    let node ← (decodeStruct framework bytes type fields fieldNodeDecoder).mapError .decode
    .ok (loading.1 ++ [node], some layout)
  | _ => .error (fieldMessage object " has a non-struct layout")

/-- Every node of a pool's tick skip list. -/
def loadTickNodes (framework : Framework) (source : ObjectSource ε τ)
    (layouts : StructTag → Except ε MoveTypeLayout) (head : SkipListHead) :
    Except (LoadError ε) (List TickNode) := do
  let fieldIds ← (walkPages (source.dynamicFields head.nodeUid) maxPages none []).mapError .resolve
  let loading ← (chunks fetchBatch fieldIds).foldlM
    (fun loading chunk => (source.objects chunk).mapError .resolve >>= fun objects =>
      objects.foldlM (loadObject framework layouts) loading) ([], none)
  .ok loading.1

/-! ### What was listed -/

def entryIds (pages : List (DynamicFieldPage τ)) : List ObjectId :=
  pages.flatMap fun page => page.entries.map DynamicFieldRef.fieldId

/-- The pages before the first one without entries. -/
def shown (pages : List (DynamicFieldPage τ)) : List (DynamicFieldPage τ) :=
  pages.takeWhile fun page => !page.entries.isEmpty

def hidden (pages : List (DynamicFieldPage τ)) : List (DynamicFieldPage τ) :=
  pages.dropWhile fun page => !page.entries.isEmpty

/-- No page with entries comes after one without. -/
def HidesNothing (pages : List (DynamicFieldPage τ)) : Prop :=
  ∀ page ∈ hidden pages, page.entries = []

theorem entryIds_cons (page : DynamicFieldPage τ) (pages : List (DynamicFieldPage τ)) :
    entryIds (page :: pages) = page.entries.map DynamicFieldRef.fieldId ++ entryIds pages := rfl

theorem entryIds_split (pages : List (DynamicFieldPage τ)) :
    entryIds (shown pages) ++ entryIds (hidden pages) = entryIds pages := by
  have happend : entryIds (shown pages ++ hidden pages) = entryIds (shown pages) ++
      entryIds (hidden pages) := List.flatMap_append
  rw [← happend, shown, hidden, List.takeWhile_append_dropWhile]

theorem hidesNothing_iff {pages : List (DynamicFieldPage τ)} :
    HidesNothing pages ↔ entryIds (hidden pages) = [] := by
  simp [HidesNothing, entryIds, List.flatMap_eq_nil_iff]

theorem entryIds_shown {pages : List (DynamicFieldPage τ)} (h : HidesNothing pages) :
    entryIds (shown pages) = entryIds pages := by
  rw [← entryIds_split pages, hidesNothing_iff.mp h, List.append_nil]

theorem hidesNothing_single (page : DynamicFieldPage τ) : HidesNothing [page] := by
  cases hempty : page.entries.isEmpty with
  | true => simp [HidesNothing, hidden, List.isEmpty_iff.mp hempty]
  | false => simp [HidesNothing, hidden, hempty]

/-- The walk over a chain short enough lists the pages before the first empty one. -/
theorem walkPages_linked {dynamicFields : Option τ → Except ε (DynamicFieldPage τ)}
    {cursor : Option τ} {pages : List (DynamicFieldPage τ)}
    (linked : Linked dynamicFields cursor pages) {limit : ℕ} (hlimit : pages.length ≤ limit)
    (fieldIds : List ObjectId) :
    walkPages dynamicFields limit cursor fieldIds =
      .ok (fieldIds ++ entryIds (shown pages)) := by
  induction linked generalizing limit fieldIds with
  | @last cursor page hread hnext =>
    obtain ⟨limit, rfl⟩ : ∃ n, limit = n + 1 := ⟨limit - 1, by simp at hlimit; omega⟩
    rw [walkPages, hread, ok_bind]
    cases hempty : page.entries.isEmpty with
    | true => simp [shown, entryIds, hempty]
    | false => simp [shown, entryIds, hempty, hnext]
  | @more cursor page next pages hread hnext _ ih =>
    rw [List.length_cons] at hlimit
    obtain ⟨limit, rfl⟩ : ∃ n, limit = n + 1 := ⟨limit - 1, by omega⟩
    rw [walkPages, hread, ok_bind]
    cases hempty : page.entries.isEmpty with
    | true => simp [shown, entryIds, hempty]
    | false =>
      have hshown : shown (page :: pages) = page :: shown pages := by simp [shown, hempty]
      simp only [Bool.false_eq_true, if_false, hnext]
      rw [ih (by omega), hshown, entryIds_cons, List.append_assoc]

/-! ### What was decoded -/

/-- Under this layout the object is this node. -/
def DecodesTo (framework : Framework) (layout : MoveTypeLayout) (object : Object)
    (node : TickNode) : Prop :=
  ∃ type fields bytes, layout = .struct type fields ∧ object.structTag.isSome = true ∧
    contents object = some bytes ∧
    decodeStruct framework bytes type fields fieldNodeDecoder = .ok node

/-- The layout held, or that of the object's own type. -/
def Resolves (layouts : StructTag → Except ε MoveTypeLayout) (held : Option MoveTypeLayout)
    (object : Object) (layout : MoveTypeLayout) : Prop :=
  match held with
  | some cached => layout = cached
  | none => ∃ tag, object.structTag = some tag ∧ layouts tag = .ok layout

theorem mapError_eq_ok_iff {ε' α : Type} {f : ε → ε'} {x : Except ε α} {a : α} :
    x.mapError f = .ok a ↔ x = .ok a := by
  cases x <;> simp [Except.mapError]

theorem nodeLayout_ok_iff {layouts : StructTag → Except ε MoveTypeLayout}
    {held : Option MoveTypeLayout} {object : Object} {tag : StructTag} {layout : MoveTypeLayout}
    (htag : object.structTag = some tag) :
    nodeLayout layouts held tag = .ok layout ↔ Resolves layouts held object layout := by
  cases held with
  | some cached =>
    constructor
    · intro h
      exact (Except.ok.inj h).symm
    · rintro rfl
      rfl
  | none =>
    constructor
    · intro h
      exact ⟨tag, htag, mapError_eq_ok_iff.mp h⟩
    · rintro ⟨tag', htag', hlayout⟩
      rw [htag] at htag'
      cases htag'
      exact mapError_eq_ok_iff.mpr hlayout

theorem loadObject_ok_iff {framework : Framework} {layouts : StructTag → Except ε MoveTypeLayout}
    {loading after : Loading} {object : Object} :
    loadObject framework layouts loading object = .ok after ↔
      ∃ layout node, Resolves layouts loading.2 object layout ∧
        DecodesTo framework layout object node ∧ after = (loading.1 ++ [node], some layout) := by
  constructor
  · intro h
    obtain ⟨tag, htag, h⟩ := bind_eq_ok_iff.mp h
    obtain ⟨layout, hlayout, h⟩ := bind_eq_ok_iff.mp h
    have htag := okOr_eq_ok_iff.mp htag
    refine ⟨layout, ?_⟩
    cases layout with
    | struct type fields =>
      obtain ⟨bytes, hbytes, h⟩ := bind_eq_ok_iff.mp h
      obtain ⟨node, hnode, h⟩ := bind_eq_ok_iff.mp h
      refine ⟨node, (nodeLayout_ok_iff htag).mp hlayout, ?_, (Except.ok.inj h).symm⟩
      exact ⟨type, fields, bytes, rfl, by rw [htag]; rfl, okOr_eq_ok_iff.mp hbytes,
        mapError_eq_ok_iff.mp hnode⟩
    | primitive p => cases h
    | vector inner => cases h
    | enum type variants => cases h
  · rintro ⟨layout, node, hlayout, ⟨type, fields, bytes, rfl, hsome, hbytes, hnode⟩, rfl⟩
    obtain ⟨tag, htag⟩ := Option.isSome_iff_exists.mp hsome
    have hheld := (nodeLayout_ok_iff htag).mpr hlayout
    simp only [loadObject, htag, hheld, hbytes, hnode, okOr, ok_bind, Except.mapError]

/-- Under a layout already held, every object adds its node. -/
theorem loadObjects_ok_iff {framework : Framework} {layouts : StructTag → Except ε MoveTypeLayout}
    {layout : MoveTypeLayout} {objects : List Object} {nodes : List TickNode} {after : Loading} :
    objects.foldlM (loadObject framework layouts) (nodes, some layout) = .ok after ↔
      ∃ more, List.Forall₂ (DecodesTo framework layout) objects more ∧
        after = (nodes ++ more, some layout) := by
  induction objects generalizing nodes with
  | nil =>
    constructor
    · intro h
      cases h
      exact ⟨[], .nil, by rw [List.append_nil]⟩
    · rintro ⟨more, hmore, rfl⟩
      cases hmore
      rw [List.append_nil]
      rfl
  | cons object rest ih =>
    rw [List.foldlM_cons, bind_eq_ok_iff]
    constructor
    · rintro ⟨between, hfirst, hrest⟩
      obtain ⟨_, node, rfl, hnode, rfl⟩ := loadObject_ok_iff.mp hfirst
      obtain ⟨more, hmore, rfl⟩ := ih.mp hrest
      exact ⟨node :: more, .cons hnode hmore, by simp⟩
    · rintro ⟨more, hmore, rfl⟩
      cases hmore with
      | @cons _ node _ more hnode hmore =>
        refine ⟨(nodes ++ [node], some layout), ?_, ih.mpr ⟨more, hmore, by simp⟩⟩
        exact loadObject_ok_iff.mpr ⟨layout, node, rfl, hnode, rfl⟩

/-- One node for each object, all under the layout of the first one's type. -/
def DecodeTo (framework : Framework) (layouts : StructTag → Except ε MoveTypeLayout)
    (objects : List Object) (nodes : List TickNode) : Prop :=
  ∃ layout, (∀ object ∈ objects.head?, Resolves layouts none object layout) ∧
    List.Forall₂ (DecodesTo framework layout) objects nodes

theorem loadAll_ok_iff {framework : Framework} {layouts : StructTag → Except ε MoveTypeLayout}
    {objects : List Object} {nodes : List TickNode} :
    (∃ held, objects.foldlM (loadObject framework layouts) ([], none) = .ok (nodes, held)) ↔
      DecodeTo framework layouts objects nodes := by
  cases objects with
  | nil =>
    constructor
    · rintro ⟨held, h⟩
      cases h
      exact ⟨.primitive .bool, by simp, .nil⟩
    · rintro ⟨layout, _, hnodes⟩
      cases hnodes
      exact ⟨none, rfl⟩
  | cons object rest =>
    simp only [List.foldlM_cons, bind_eq_ok_iff]
    constructor
    · rintro ⟨held, between, hfirst, hrest⟩
      obtain ⟨layout, node, hlayout, hnode, rfl⟩ := loadObject_ok_iff.mp hfirst
      obtain ⟨more, hmore, hafter⟩ := loadObjects_ok_iff.mp hrest
      cases hafter
      refine ⟨layout, ?_, .cons hnode hmore⟩
      intro first hfirst
      cases hfirst
      exact hlayout
    · rintro ⟨layout, hlayout, hnodes⟩
      cases hnodes with
      | @cons _ node _ more hnode hmore =>
        refine ⟨some layout, ([node], some layout), ?_, ?_⟩
        · exact loadObject_ok_iff.mpr ⟨layout, node, hlayout object rfl, hnode, rfl⟩
        · exact loadObjects_ok_iff.mpr ⟨more, hmore, rfl⟩

/-! ### The whole enumeration -/

/-- The objects the source returns for the ids, batch by batch. -/
def Fetched (source : ObjectSource ε τ) (ids : List ObjectId) (objects : List Object) : Prop :=
  ∃ batches, List.Forall₂ (fun chunk batch => source.objects chunk = .ok batch)
    (chunks fetchBatch ids) batches ∧ batches.flatten = objects

/-- What is read for these ids can be fetched, typed and decoded, down to the last one. -/
def Loadable (framework : Framework) (source : ObjectSource ε τ)
    (layouts : StructTag → Except ε MoveTypeLayout) (ids : List ObjectId) : Prop :=
  ∃ objects nodes, Fetched source ids objects ∧ DecodeTo framework layouts objects nodes

/-- One node for each id, in order, decoded from an object the source returned. -/
def OneNodeEach (framework : Framework) (source : ObjectSource ε τ)
    (layouts : StructTag → Except ε MoveTypeLayout) (ids : List ObjectId)
    (nodes : List TickNode) : Prop :=
  ∃ objects, objects.map Object.id = ids ∧
    (∀ object ∈ objects, ∃ chunk batch, source.objects chunk = .ok batch ∧ object ∈ batch) ∧
    DecodeTo framework layouts objects nodes

theorem fetchBatch_pos : 0 < fetchBatch := by decide

/-- Over a chain of pages short enough, the load is that of the ids listed before the
first empty page. -/
theorem loadTickNodes_ok_iff {framework : Framework} {source : ObjectSource ε τ}
    {layouts : StructTag → Except ε MoveTypeLayout} {head : SkipListHead}
    {pages : List (DynamicFieldPage τ)}
    (linked : Linked (source.dynamicFields head.nodeUid) none pages)
    (hpages : pages.length ≤ maxPages) {nodes : List TickNode} :
    loadTickNodes framework source layouts head = .ok nodes ↔
      ∃ objects, Fetched source (entryIds (shown pages)) objects ∧
        DecodeTo framework layouts objects nodes := by
  have hwalk : walkPages (source.dynamicFields head.nodeUid) maxPages none [] =
      .ok (entryIds (shown pages)) := walkPages_linked linked hpages []
  rw [loadTickNodes, hwalk]
  simp only [Except.mapError, ok_bind, bind_eq_ok_iff]
  constructor
  · rintro ⟨loading, hfold, hnodes⟩
    cases hnodes
    obtain ⟨batches, hread, hloaded⟩ := foldlM_batches.mp hfold
    refine ⟨batches.flatten, ⟨batches, ?_, rfl⟩, loadAll_ok_iff.mp ⟨loading.2, hloaded⟩⟩
    exact hread.imp fun _ _ hbatch => mapError_eq_ok_iff.mp hbatch
  · rintro ⟨objects, ⟨batches, hread, rfl⟩, hdecode⟩
    obtain ⟨held, hloaded⟩ := loadAll_ok_iff.mpr hdecode
    refine ⟨(nodes, held), foldlM_batches.mpr ⟨batches, ?_, hloaded⟩, rfl⟩
    exact hread.imp fun _ _ hbatch => mapError_eq_ok_iff.mpr hbatch

/-- Objects that answer the ids asked for, over a whole listing. -/
theorem Fetched.ids {source : ObjectSource ε τ} {ids : List ObjectId} {objects : List Object}
    (hids : ∀ chunk batch, source.objects chunk = .ok batch → batch.map Object.id = chunk)
    (h : Fetched source ids objects) : objects.map Object.id = ids := by
  obtain ⟨batches, hread, rfl⟩ := h
  rw [map_flatten_batches hids hread, chunks_flatten fetchBatch_pos]

theorem Fetched.read {source : ObjectSource ε τ} {ids : List ObjectId} {objects : List Object}
    (h : Fetched source ids objects) {object : Object} (hobject : object ∈ objects) :
    ∃ chunk batch, source.objects chunk = .ok batch ∧ object ∈ batch := by
  obtain ⟨batches, hread, rfl⟩ := h
  exact read_of_mem_batches hread hobject

/-- An enumeration that succeeds has a node for every entry of every page exactly when no
entry comes after an empty page, or what comes before it cannot be loaded at all. -/
theorem enumeration_complete_iff (framework : Framework) (source : ObjectSource ε τ)
    (layouts : StructTag → Except ε MoveTypeLayout) (head : SkipListHead)
    (pages : List (DynamicFieldPage τ))
    (linked : Linked (source.dynamicFields head.nodeUid) none pages)
    (hpages : pages.length ≤ maxPages)
    (hids : ∀ chunk batch, source.objects chunk = .ok batch → batch.map Object.id = chunk) :
    (∀ nodes, loadTickNodes framework source layouts head = .ok nodes →
      OneNodeEach framework source layouts (entryIds pages) nodes) ↔
    HidesNothing pages ∨ ¬ Loadable framework source layouts (entryIds (shown pages)) := by
  constructor
  · intro hcomplete
    by_cases hload : Loadable framework source layouts (entryIds (shown pages))
    · obtain ⟨objects, nodes, hfetched, hdecode⟩ := hload
      obtain ⟨all, hall, _, hnodes⟩ :=
        hcomplete nodes ((loadTickNodes_ok_iff linked hpages).mpr ⟨objects, hfetched, hdecode⟩)
      obtain ⟨_, _, hpaired⟩ := hdecode
      obtain ⟨_, _, hpairedAll⟩ := hnodes
      have hshown := congrArg List.length (hfetched.ids hids)
      have hlisted := congrArg List.length hall
      have hsplit := congrArg List.length (entryIds_split pages)
      rw [List.length_map] at hshown hlisted
      rw [List.length_append] at hsplit
      have hsame := hpaired.length_eq
      have hsameAll := hpairedAll.length_eq
      left
      rw [hidesNothing_iff, ← List.length_eq_zero_iff]
      omega
    · exact .inr hload
  · intro h nodes hnodes
    obtain ⟨objects, hfetched, hdecode⟩ := (loadTickNodes_ok_iff linked hpages).mp hnodes
    rcases h with hnothing | hfails
    · refine ⟨objects, ?_, fun _ => hfetched.read, hdecode⟩
      rw [hfetched.ids hids, entryIds_shown hnothing]
    · exact absurd ⟨objects, nodes, hfetched, hdecode⟩ hfails

/-! ### One read after the other -/

theorem sequentialObjects_ids {object : ObjectId → Option U64 → Except ε Object}
    (hid : ∀ id found, object id none = .ok found → found.id = id) {ids : List ObjectId}
    {batch : List Object} (h : sequentialObjects object ids = .ok batch) :
    batch.map Object.id = ids := by
  induction ids generalizing batch with
  | nil =>
    cases h
    rfl
  | cons id ids ih =>
    rw [sequentialObjects, List.mapM_cons] at h
    obtain ⟨found, hfound, h⟩ := bind_eq_ok_iff.mp h
    obtain ⟨rest, hrest, h⟩ := bind_eq_ok_iff.mp h
    cases h
    rw [List.map_cons, hid id found hfound, ih hrest]

theorem mem_sequentialObjects {object : ObjectId → Option U64 → Except ε Object}
    {ids : List ObjectId} {batch : List Object} (h : sequentialObjects object ids = .ok batch)
    {found : Object} (hfound : found ∈ batch) : ∃ id ∈ ids, object id none = .ok found := by
  induction ids generalizing batch with
  | nil =>
    cases h
    cases hfound
  | cons id ids ih =>
    rw [sequentialObjects, List.mapM_cons] at h
    obtain ⟨first, hfirst, h⟩ := bind_eq_ok_iff.mp h
    obtain ⟨rest, hrest, h⟩ := bind_eq_ok_iff.mp h
    cases h
    rcases List.mem_cons.mp hfound with rfl | hfound
    · exact ⟨id, List.mem_cons_self, hfirst⟩
    · obtain ⟨id', hid', hobject⟩ := ih hrest hfound
      exact ⟨id', List.mem_cons_of_mem _ hid', hobject⟩

/-! ### One node behind an empty page -/

def nodeTag : StructTag := ⟨1, "skip_list", "Node", [.struct PoolDecoder.tickTag]⟩

def fieldTag : StructTag := ⟨2, "dynamic_field", "Field", [.primitive .u64, .struct nodeTag]⟩

def fieldFields : List MoveFieldLayout :=
  [⟨"value", .struct nodeTag [⟨"score", .primitive .u64⟩,
    ⟨"value", .struct PoolDecoder.tickTag PoolDecoder.tickLayout⟩]⟩]

def fieldLayout : MoveTypeLayout := .struct fieldTag fieldFields

/-- The node of tick 0 under its key, at price 1. -/
def nodeBytes : List (Fin 256) :=
  [244, 196, 6, 0, 0, 0, 0, 0] ++ [0, 0, 0, 0] ++ (List.replicate 8 0 ++ 1 :: List.replicate 7 0) ++
    List.replicate 64 0

def nodeUid : ObjectId := 9

def nodeObject (id : ObjectId) (version : U64) : Object :=
  ⟨id, version, .objectOwner nodeUid, .move fieldTag nodeBytes⟩

def skipList : SkipListHead := ⟨nodeUid, none, none, 1, 1, 1, 0⟩

def storedNode (id : ObjectId) (_ : Option U64) : Except GrpcError Object := .ok (nodeObject id 1)

/-- A full node with one child, on these pages. -/
def fullNode (pages : Option Unit → DynamicFieldsResponse Unit) : ObjectSource GrpcError Unit where
  dynamicFields := grpcDynamicFields (fun text => (canonicalText.decode text).toOption)
    fun _ _ cursor => .ok (pages cursor)
  objects := sequentialObjects storedNode

def onlyPage : Option Unit → DynamicFieldsResponse Unit := fun _ =>
  ⟨[some (canonicalText.encode 7)], none⟩

/-- The first page's only entry came without an id. -/
def blankPage : Option Unit → DynamicFieldsResponse Unit
  | none => ⟨[none], some ()⟩
  | some () => onlyPage none

theorem fullNode_ids (pages : Option Unit → DynamicFieldsResponse Unit) (chunk : List ObjectId)
    (batch : List Object) (h : (fullNode pages).objects chunk = .ok batch) :
    batch.map Object.id = chunk := by
  have hbatch : sequentialObjects storedNode chunk = .ok batch := h
  refine sequentialObjects_ids ?_ hbatch
  intro id found hfound
  cases hfound
  rfl

def nodePage : DynamicFieldPage Unit := ⟨[⟨nodeUid, 7⟩], none⟩

def blankPages : List (DynamicFieldPage Unit) := [⟨[], some ()⟩, nodePage]

theorem onlyPage_listed : (fullNode onlyPage).dynamicFields nodeUid none = .ok nodePage := by
  decide +kernel

theorem enumeration_complete_one_page :
    (∀ nodes, loadTickNodes plainBytes (fullNode onlyPage) (fun _ => .ok fieldLayout) skipList =
        .ok nodes →
      OneNodeEach plainBytes (fullNode onlyPage) (fun _ => .ok fieldLayout) [7] nodes) ∧
    (loadTickNodes plainBytes (fullNode onlyPage) (fun _ => .ok fieldLayout) skipList).isOk =
      true := by
  refine ⟨?_, by decide +kernel⟩
  exact (enumeration_complete_iff plainBytes (fullNode onlyPage) (fun _ => .ok fieldLayout)
    skipList [nodePage] (.last onlyPage_listed rfl) (by decide) (fullNode_ids onlyPage)).mpr
    (.inl (hidesNothing_single nodePage))

/-- An entry dropped for want of an id can leave a page empty; the node listed after it is
lost, although the page carries the token that leads there. -/
theorem blank_page_ends_enumeration :
    Linked ((fullNode blankPage).dynamicFields nodeUid) none blankPages ∧
      loadTickNodes plainBytes (fullNode blankPage) (fun _ => .ok fieldLayout) skipList = .ok [] ∧
      ¬ OneNodeEach plainBytes (fullNode blankPage) (fun _ => .ok fieldLayout)
        (entryIds blankPages) [] := by
  have hblank : (fullNode blankPage).dynamicFields nodeUid none = .ok ⟨[], some ()⟩ := by
    decide +kernel
  have hnode : (fullNode blankPage).dynamicFields nodeUid (some ()) = .ok nodePage := by
    decide +kernel
  refine ⟨.more hblank rfl (.last hnode rfl), by decide +kernel, ?_⟩
  rintro ⟨objects, hids, _, _, _, hnodes⟩
  cases hnodes
  cases hids

end PagedNodes
