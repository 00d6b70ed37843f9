import Birdai.Resolve.FixtureSet
import Birdai.Tick.PagedNodes
import Birdai.Tick.TickBook

/-!
# Children of a container, offline

A fixture set holds no index of dynamic fields, so the children of a parent are found
by the owner of every object held, in every version that is held.
-/

namespace OfflineChildren

open WideArith Outcomes OrderedKeys VersionMaps PagedReads ByteCodecs TickIndex MoveTypes Manager
  FieldVisitor ValueBytes PagedNodes FixtureSet
open Capture (Chain Formats decode objectAt recordInto)

/-- How the readers of a set see the chain's objects. -/
structure ObjectView (chain : Chain) where
  object : chain.Object → Object
  key : ∀ o, chain.key o = ((object o).id, (object o).version)

section source
variable {Json τ : Type} {chain : Chain} (formats : Formats chain) (view : ObjectView chain)

/-- A corrupt entry is skipped, and so is one with another owner. -/
def childEntry (parent : ObjectId) (encoded : String) : Option DynamicFieldRef :=
  match decode formats encoded with
  | .error _ => none
  | .ok object =>
    if dynamicFieldParent (view.object object) = some parent then
      some ⟨parent, (view.object object).id⟩
    else none

/-- `FixtureObjectSource::dynamic_fields`: a single page. -/
def dynamicFields (fixtures : Fixtures Json) (parent : ObjectId) (_cursor : Option τ) :
    Except ResolveError (DynamicFieldPage τ) :=
  .ok ⟨((values fixtures.objects).flatMap values).filterMap (childEntry formats view parent), none⟩

def fixtureObject (fixtures : Fixtures Json) (id : ObjectId) (version : Option U64) :
    Except ResolveError Object :=
  (sourceObject formats fixtures id version).map view.object

/-- `FixtureObjectSource`, as far as the enumeration reads it. -/
def fixtureSource (fixtures : Fixtures Json) : ObjectSource ResolveError τ where
  dynamicFields := dynamicFields formats view fixtures
  objects := sequentialObjects (fixtureObject formats view fixtures)

/-- The child an entry is of. -/
def childId (parent : ObjectId) (encoded : String) : Option ObjectId :=
  (childEntry formats view parent encoded).map DynamicFieldRef.fieldId

def listedIds (fixtures : Fixtures Json) (parent : ObjectId) : List ObjectId :=
  listing (childId formats view parent) fixtures.objects

/-- The latest version held of an object, when the parent owns it. -/
def LatestChild (fixtures : Fixtures Json) (parent id : ObjectId) (child : Object) : Prop :=
  ∃ o, object formats fixtures id none = some o ∧ view.object o = child ∧
    dynamicFieldParent child = some parent

/-- What the chain's index would have returned. -/
structure ListsChildren (fixtures : Fixtures Json) (parent : ObjectId) : Prop where
  once : (listedIds formats view fixtures parent).Nodup
  exactly : ∀ id, id ∈ listedIds formats view fixtures parent ↔
    ∃ child, LatestChild formats view fixtures parent id child

/-- No version held of any object but its latest is owned by the parent. -/
def OlderElsewhere (fixtures : Fixtures Json) (parent : ObjectId) : Prop :=
  ∀ id version later o, object formats fixtures id (some version) = some o →
    version < later → (object formats fixtures id (some later)).isSome = true →
      dynamicFieldParent (view.object o) ≠ some parent

/-- Different children are nodes of different keys, under any layout one of them has. -/
def WellFormed (framework : Framework) (layouts : StructTag → Except ResolveError MoveTypeLayout)
    (fixtures : Fixtures Json) (parent : ObjectId) : Prop :=
  ∀ first firstId layout, LatestChild formats view fixtures parent firstId first →
    Resolves layouts none first layout →
    ∀ child child' id id' node node', LatestChild formats view fixtures parent id child →
      LatestChild formats view fixtures parent id' child' →
      DecodesTo framework layout child node → DecodesTo framework layout child' node' →
      node.score = node'.score → id = id'

/-- No well-formed set of nodes is refused for a repeated one. -/
def NeverDuplicates (τ : Type) (fixtures : Fixtures Json) (parent : ObjectId) : Prop :=
  ∀ framework layouts (head : SkipListHead) nodes score, head.nodeUid = parent →
    WellFormed formats view framework layouts fixtures parent →
    loadTickNodes framework (fixtureSource (τ := τ) formats view fixtures) layouts head =
      .ok nodes →
    Ticks.fromChildren (some parent) head.size nodes ≠ .error (.duplicateNode score)

end source

section listings
variable {Json : Type} {chain : Chain} {formats : Formats chain} {view : ObjectView chain}
  {fixtures : Fixtures Json} {parent : ObjectId}

/-! ### The listing -/

theorem childId_eq_some_iff {encoded : String} {id : ObjectId} :
    childId formats view parent encoded = some id ↔
      ∃ o, decode formats encoded = .ok o ∧
        dynamicFieldParent (view.object o) = some parent ∧ (view.object o).id = id := by
  rw [childId, childEntry]
  cases decode formats encoded with
  | error e => simp
  | ok o =>
    by_cases howned : dynamicFieldParent (view.object o) = some parent
    · simp [howned]
    · simp [howned]

/-- The entries of the only page carry the listed ids. -/
theorem entryIds_page {τ : Type} (formats : Formats chain) (view : ObjectView chain)
    (fixtures : Fixtures Json) (parent : ObjectId) (cursor : Option τ) :
    ∃ page : DynamicFieldPage τ,
      (fixtureSource formats view fixtures).dynamicFields parent cursor = .ok page ∧
        page.next = none ∧ entryIds [page] = listedIds formats view fixtures parent := by
  refine ⟨_, rfl, rfl, ?_⟩
  rw [entryIds, List.flatMap_singleton, List.map_filterMap]
  rfl

theorem view_id (view : ObjectView chain) (o : chain.Object) :
    (view.object o).id = (chain.key o).1 := by
  rw [view.key]

theorem picksByKey (keyed : Keyed formats fixtures.objects) :
    PicksByKey formats.id.encode (childId formats view parent) fixtures.objects := by
  intro text versions encoded id hversions hencoded hpicked
  obtain ⟨o, hdecode, htext⟩ := keyed.of_values hversions hencoded
  obtain ⟨o', hdecode', _, rfl⟩ := childId_eq_some_iff.mp hpicked
  obtain rfl := Except.ok.inj (hdecode.symm.trans hdecode')
  rw [view_id, htext]

/-- A latest version is filed under its own id. -/
theorem latestObject_id (view : ObjectView chain) (keyed : Keyed formats fixtures.objects)
    {id : ObjectId} {o : chain.Object} (h : object formats fixtures id none = some o) :
    (view.object o).id = id := by
  obtain ⟨versions, encoded, hversions, hlatest, hdecode⟩ := latestObject_eq_some_iff.mp h
  obtain ⟨o', hdecode', htext⟩ := keyed.of_values hversions (List.mem_of_getLast? hlatest)
  obtain rfl := Except.ok.inj (hdecode.symm.trans hdecode')
  rw [view_id]
  exact formats.id.encode_injective htext

theorem listsChildren_iff (keyed : Keyed formats fixtures.objects) :
    ListsChildren formats view fixtures parent ↔
      ListsLatest formats.id.encode (childId formats view parent) fixtures.objects := by
  have hlatest : ∀ id, (∃ child, LatestChild formats view fixtures parent id child) ↔
      ∃ versions encoded, fixtures.objects.lookup (formats.id.encode id) = some versions ∧
        latest versions = some encoded ∧ childId formats view parent encoded = some id := by
    intro id
    constructor
    · rintro ⟨_, o, ho, rfl, howned⟩
      have hid := latestObject_id view keyed ho
      obtain ⟨versions, encoded, hversions, hlast, hdecode⟩ := latestObject_eq_some_iff.mp ho
      exact ⟨versions, encoded, hversions, hlast, childId_eq_some_iff.mpr ⟨o, hdecode, howned, hid⟩⟩
    · rintro ⟨versions, encoded, hversions, hlast, hpicked⟩
      obtain ⟨o, hdecode, howned, _⟩ := childId_eq_some_iff.mp hpicked
      exact ⟨view.object o, o,
        latestObject_eq_some_iff.mpr ⟨versions, encoded, hversions, hlast, hdecode⟩, rfl, howned⟩
  constructor
  · intro h
    exact ⟨h.once, fun id => (h.exactly id).trans (hlatest id)⟩
  · intro h
    exact ⟨h.once, fun id => (h.exactly id).trans (hlatest id).symm⟩

theorem olderElsewhere_iff (keyed : Keyed formats fixtures.objects) :
    OlderElsewhere formats view fixtures parent ↔
      ∀ text versions, fixtures.objects.lookup text = some versions →
        ∀ encoded ∈ (values versions).dropLast, childId formats view parent encoded = none := by
  constructor
  · intro h text versions hversions encoded hencoded
    obtain ⟨version, later, hversion, hlt, hlater⟩ := mem_dropLast_values.mp hencoded
    obtain ⟨encoded', hencoded'⟩ := Finmap.mem_iff.mp hlater
    have hat : ∀ v e, versions.lookup v = some e → objectAt fixtures.objects text v = some e :=
      fun _ _ he => Option.bind_eq_some_iff.mpr ⟨versions, hversions, he⟩
    obtain ⟨o, hdecode, rfl, _⟩ := keyed text version encoded (hat _ _ hversion)
    obtain ⟨o', hdecode', _, _⟩ := keyed _ later encoded' (hat _ _ hencoded')
    cases hpicked : childId formats view parent encoded with
    | none => rfl
    | some id =>
      obtain ⟨o'', hdecode'', howned, _⟩ := childId_eq_some_iff.mp hpicked
      obtain rfl := Except.ok.inj (hdecode.symm.trans hdecode'')
      have hlast : object formats fixtures (chain.key o).1 (some later) = some o' :=
        object_eq_some_iff.mpr ⟨encoded', hat _ _ hencoded', hdecode'⟩
      exact absurd howned (h (chain.key o).1 version later o
        (object_eq_some_iff.mpr ⟨encoded, hat _ _ hversion, hdecode⟩) hlt (by rw [hlast]; rfl))
  · intro h id version later o ho hlt hlater howned
    obtain ⟨encoded, hat, hdecode⟩ := object_eq_some_iff.mp ho
    obtain ⟨versions, hversions, hversion⟩ := Option.bind_eq_some_iff.mp hat
    obtain ⟨o', ho'⟩ := Option.isSome_iff_exists.mp hlater
    obtain ⟨encoded', hat', _⟩ := object_eq_some_iff.mp ho'
    obtain ⟨versions', hversions', hlast⟩ := Option.bind_eq_some_iff.mp hat'
    rw [hversions] at hversions'
    cases hversions'
    have hnone := h _ versions hversions encoded
      (mem_dropLast_values.mpr ⟨version, later, hversion, hlt, Finmap.mem_iff.mpr ⟨_, hlast⟩⟩)
    rw [childId_eq_some_iff.mpr ⟨o, hdecode, howned, rfl⟩] at hnone
    cases hnone

theorem listsChildren_iff_olderElsewhere (keyed : Keyed formats fixtures.objects) :
    ListsChildren formats view fixtures parent ↔
      OlderElsewhere formats view fixtures parent := by
  rw [listsChildren_iff keyed, listsLatest_iff (picksByKey keyed), olderElsewhere_iff keyed]

end listings

/-! ### No repeated node -/

/-- The error is not about a repeated node. -/
def NotDuplicate (e : TickError) : Prop := ∀ score, e ≠ .duplicateNode score

theorem foldlM_insert_notDuplicate {nodes : List TickNode} {t : Ticks}
    (hnodup : (nodes.map TickNode.score).Nodup) (hfresh : ∀ n ∈ nodes, n.score ∉ t.byScore) :
    FailsOnly NotDuplicate (nodes.foldlM Ticks.insert t) := by
  induction nodes generalizing t with
  | nil => exact .ok t
  | cons node nodes ih =>
    rw [List.map_cons, List.nodup_cons] at hnodup
    rw [List.foldlM_cons]
    apply FailsOnly.bind
    · rw [Ticks.insert]
      apply FailsOnly.bind
      · exact .okOr (by simp [NotDuplicate])
      · intro expected _
        rw [if_neg (hfresh node List.mem_cons_self)]
        split
        · exact .error (by simp [NotDuplicate])
        · exact .ok _
    · intro filed hfiled
      apply ih hnodup.2
      intro n hn
      rw [TickBook.insert_eq hfiled, Finmap.mem_insert]
      rintro (hscore | hknown)
      · exact hnodup.1 (hscore ▸ List.mem_map_of_mem hn)
      · exact hfresh n (List.mem_cons_of_mem _ hn) hknown

theorem checkPrice_notDuplicate (node : TickNode) :
    FailsOnly NotDuplicate (Ticks.checkPrice node) := by
  intro e h
  unfold Ticks.checkPrice at h
  split at h
  · cases h
    simp [NotDuplicate]
  · dsimp only at h
    split at h
    · cases h
      simp [NotDuplicate]
    · cases h

/-- Nodes of different keys are never refused as repeated. -/
theorem fromChildren_notDuplicate {nodes : List TickNode} (uid : Option ObjectId) (size : U64)
    (hnodup : (nodes.map TickNode.score).Nodup) :
    FailsOnly NotDuplicate (Ticks.fromChildren uid size nodes) := by
  have hvalidate : ∀ t : Ticks, FailsOnly NotDuplicate t.validate.1 :=
    TickBook.validate_failsOnly (by simp [NotDuplicate]) (by simp [NotDuplicate])
      (by simp [NotDuplicate]) checkPrice_notDuplicate
  refine .bind (.bind (foldlM_insert_notDuplicate hnodup ?_) ?_) fun _ _ => .ok _
  · intro n _
    exact Finmap.notMem_empty
  · intro filled _ e he
    cases houtcome : filled.validate.1 with
    | error e' =>
      simp only [houtcome, Except.map] at he
      cases he
      exact hvalidate filled e houtcome
    | ok done =>
      simp only [houtcome, Except.map] at he
      cases he

section children
variable {Json τ : Type} {chain : Chain} {formats : Formats chain} {view : ObjectView chain}
  {fixtures : Fixtures Json} {parent : ObjectId}

theorem fixtureObject_ok {id : ObjectId} {found : Object}
    (h : fixtureObject formats view fixtures id none = .ok found) :
    ∃ o, object formats fixtures id none = some o ∧ view.object o = found := by
  cases hobject : object formats fixtures id none with
  | none =>
    simp only [fixtureObject, sourceObject, hobject, okOr, Except.map] at h
    cases h
  | some o =>
    simp only [fixtureObject, sourceObject, hobject, okOr, Except.map] at h
    cases h
    exact ⟨o, rfl, rfl⟩

/-- Where the children are listed as the chain would, the nodes loaded are one of each. -/
theorem neverDuplicates_of_lists (keyed : Keyed formats fixtures.objects)
    (h : ListsChildren formats view fixtures parent) :
    NeverDuplicates formats view τ fixtures parent := by
  rintro framework layouts head nodes score rfl hformed hload hduplicate
  obtain ⟨page, hpage, hnext, hlisted⟩ :=
    entryIds_page (τ := τ) formats view fixtures head.nodeUid none
  have hlimit : [page].length ≤ maxPages := Nat.succ_le_succ (Nat.zero_le 4095)
  obtain ⟨objects, hfetched, layout, hfirst, hpaired⟩ :=
    (loadTickNodes_ok_iff (.last hpage hnext) hlimit).mp hload
  rw [entryIds_shown (hidesNothing_single page), hlisted] at hfetched
  have hids : objects.map Object.id = listedIds formats view fixtures head.nodeUid := by
    apply hfetched.ids
    intro chunk batch hbatch
    have hread : sequentialObjects (fixtureObject formats view fixtures) chunk = .ok batch :=
      hbatch
    refine sequentialObjects_ids ?_ hread
    intro id found hfound
    obtain ⟨o, ho, rfl⟩ := fixtureObject_ok hfound
    exact latestObject_id view keyed ho
  have hlatest : ∀ child ∈ objects,
      LatestChild formats view fixtures head.nodeUid child.id child := by
    intro child hchild
    obtain ⟨chunk, batch, hbatch, hmem⟩ := hfetched.read hchild
    have hread : sequentialObjects (fixtureObject formats view fixtures) chunk = .ok batch :=
      hbatch
    obtain ⟨id, _, hfound⟩ := mem_sequentialObjects hread hmem
    obtain ⟨o, ho, rfl⟩ := fixtureObject_ok hfound
    obtain rfl := latestObject_id view keyed ho
    have hmem : (view.object o).id ∈ listedIds formats view fixtures head.nodeUid :=
      hids ▸ List.mem_map_of_mem hchild
    obtain ⟨_, o', ho', rfl, howned⟩ := (h.exactly _).mp hmem
    obtain rfl := Option.some.inj (ho.symm.trans ho')
    exact ⟨o, ho, rfl, howned⟩
  refine fromChildren_notDuplicate _ _ ?_ _ hduplicate score rfl
  refine nodup_of_paired hpaired (hids ▸ h.once) ?_
  intro child hchild child' hchild' node node' hnode hnode' hscore
  obtain ⟨first, rest, rfl⟩ := List.exists_cons_of_ne_nil (List.ne_nil_of_mem hchild)
  exact hformed first first.id layout (hlatest first List.mem_cons_self) (hfirst first rfl)
    child child' child.id child'.id node node' (hlatest child hchild) (hlatest child' hchild')
    hnode hnode' hscore

/-- The children of a container are listed once each, and no other, and no well-formed
set of nodes is refused for a repeated one, exactly when the parent owns no version held
of any object but its latest. -/
theorem children_listed_iff (formats : Formats chain) (view : ObjectView chain)
    (fixtures : Fixtures Json) (parent : ObjectId) (recorded : Recorded formats fixtures.objects) :
    ListsChildren formats view fixtures parent ∧ NeverDuplicates formats view τ fixtures parent ↔
      OlderElsewhere formats view fixtures parent := by
  have keyed := recorded_keyed recorded
  rw [← listsChildren_iff_olderElsewhere keyed]
  constructor
  · exact And.left
  · intro h
    exact ⟨h, neverDuplicates_of_lists keyed h⟩

end children

/-! ### One node in two versions -/

section sample
open Capture

instance ledger_decidableEq : DecidableEq ledger.Object := inferInstanceAs (DecidableEq ObjectKey)

/-- A ledger's numbers seen as nodes of one skip list. -/
def nodeView : ObjectView ledger :=
  ⟨fun key : ObjectKey => nodeObject key.1 key.2, fun _ => rfl⟩

def nodeVersion (version : U64) : ledger.Object := ((7, version) : ObjectKey)

def recordNode (fixtures : Fixtures Unit) (version : U64) : Fixtures Unit :=
  (recordObject ledgerFormats fixtures (nodeVersion version)).toOption.getD fixtures

def recordedOnce : Fixtures Unit := recordNode (.empty Unit) 1

def recordedTwice : Fixtures Unit := recordNode recordedOnce 2

theorem recordNode_recorded {fixtures : Fixtures Unit} {version : U64}
    (h : Recorded ledgerFormats fixtures.objects) :
    Recorded ledgerFormats (recordNode fixtures version).objects := by
  rw [recordNode]
  cases hrecord : recordObject ledgerFormats fixtures (nodeVersion version) with
  | error e => exact h
  | ok after =>
    obtain ⟨objects, hobjects, hafter⟩ := bind_eq_ok_iff.mp hrecord
    cases hafter
    exact .object h hobjects

theorem recordedOnce_recorded : Recorded ledgerFormats recordedOnce.objects :=
  recordNode_recorded .empty

/-- What a version of the node is stored as. -/
def nodeEntry (version : U64) : String :=
  base64.encode ((objectKeyCodec.encode (7, version)).toOption.getD [])

theorem nodeEntry_encoded (version : U64) : encodeAs ledgerFormats ledgerFormats.object objectsFile
    "object" (nodeVersion version) = .ok (nodeEntry version) := rfl

theorem nodeEntry_decodes (version : U64) :
    decode ledgerFormats (nodeEntry version) = .ok (nodeVersion version) :=
  decodeRequired_encodeAs _ _ (nodeEntry_encoded version)

theorem recordedOnce_objects : recordedOnce.objects =
    ofEntries [(canonicalText.encode 7, ofEntries [(1, nodeEntry 1)])] := by
  decide +kernel

theorem recordedTwice_objects : recordedTwice.objects =
    ofEntries [(canonicalText.encode 7, ofEntries [(1, nodeEntry 1), (2, nodeEntry 2)])] := by
  decide +kernel

theorem recordedOnce_version {id : ObjectId} {version : U64} {o : ledger.Object}
    (h : object ledgerFormats recordedOnce id (some version) = some o) : version = 1 := by
  obtain ⟨encoded, hat, _⟩ := object_eq_some_iff.mp h
  obtain ⟨versions, hversions, hversion⟩ := Option.bind_eq_some_iff.mp hat
  rw [recordedOnce_objects, lookup_single] at hversions
  rw [hversions.2, lookup_single] at hversion
  exact hversion.1

theorem children_listed_recorded_once :
    ListsChildren ledgerFormats nodeView recordedOnce nodeUid ∧
      NeverDuplicates ledgerFormats nodeView Unit recordedOnce nodeUid := by
  refine (children_listed_iff ledgerFormats nodeView recordedOnce nodeUid
    recordedOnce_recorded).mpr ?_
  intro id version later o ho hlt hlater
  obtain ⟨o', ho'⟩ := Option.isSome_iff_exists.mp hlater
  obtain rfl := recordedOnce_version ho
  obtain rfl := recordedOnce_version ho'
  exact absurd hlt (lt_irrefl _)

theorem recordedTwice_lookup {text : String} {versions : Finmap fun _ : U64 => String} :
    recordedTwice.objects.lookup text = some versions ↔
      text = canonicalText.encode 7 ∧
        versions = ofEntries [(1, nodeEntry 1), (2, nodeEntry 2)] := by
  rw [recordedTwice_objects, lookup_single]

theorem recordedTwice_id {id : ObjectId} {o : ledger.Object}
    (h : object ledgerFormats recordedTwice id none = some o) : id = 7 := by
  obtain ⟨versions, _, hversions, _, _⟩ := latestObject_eq_some_iff.mp h
  exact canonicalText.encode_injective (recordedTwice_lookup.mp hversions).1

theorem twoVersions_values :
    values (ofEntries [((1 : U64), nodeEntry 1), (2, nodeEntry 2)]) =
      [nodeEntry 1, nodeEntry 2] :=
  values_ofEntries (by simp)

def nodeRef : DynamicFieldRef := ⟨nodeUid, 7⟩

theorem recordedTwice_page :
    (fixtureSource (τ := Unit) ledgerFormats nodeView recordedTwice).dynamicFields nodeUid none =
      .ok ⟨[nodeRef, nodeRef], none⟩ := by
  have hentries : [nodeEntry 1, nodeEntry 2].filterMap
      (childEntry ledgerFormats nodeView nodeUid) = [nodeRef, nodeRef] := by
    simp only [List.filterMap_cons, List.filterMap_nil, childEntry, nodeEntry_decodes]
    rfl
  have hvalues : (values recordedTwice.objects).flatMap values = [nodeEntry 1, nodeEntry 2] := by
    rw [recordedTwice_objects, values_ofEntries (List.pairwise_singleton _ _), List.map_singleton,
      List.flatMap_singleton, twoVersions_values]
  rw [← hentries, ← hvalues]
  rfl

theorem recordedTwice_latest :
    object ledgerFormats recordedTwice 7 none = some (nodeVersion 2) := by
  refine latestObject_eq_some_iff.mpr ⟨_, nodeEntry 2, recordedTwice_lookup.mpr ⟨rfl, rfl⟩, ?_,
    nodeEntry_decodes 2⟩
  rw [latest, twoVersions_values]
  rfl

theorem recordedTwice_version {version : U64} (h : version = 1 ∨ version = 2) :
    object ledgerFormats recordedTwice 7 (some version) = some (nodeVersion version) := by
  have hkeys : ([((1 : U64), nodeEntry 1), (2, nodeEntry 2)].map Prod.fst).Nodup := by simp
  have hat : (ofEntries [((1 : U64), nodeEntry 1), (2, nodeEntry 2)]).lookup version =
      some (nodeEntry version) := by
    rw [lookup_ofEntries hkeys]
    rcases h with rfl | rfl <;> simp
  exact object_eq_some_iff.mpr ⟨nodeEntry version,
    Option.bind_eq_some_iff.mpr ⟨_, recordedTwice_lookup.mpr ⟨rfl, rfl⟩, hat⟩,
    nodeEntry_decodes version⟩

/-- Each of the two entries loads the latest version. -/
theorem loaded_twice {node : TickNode}
    (hnode : decodeStruct plainBytes nodeBytes fieldTag fieldFields NodeDecoders.fieldNodeDecoder =
      .ok node) :
    loadTickNodes plainBytes (fixtureSource (τ := Unit) ledgerFormats nodeView recordedTwice)
      (fun _ => .ok fieldLayout) skipList = .ok [node, node] := by
  have hobject : fixtureObject ledgerFormats nodeView recordedTwice 7 none =
      .ok (nodeObject 7 2) := by
    simp only [fixtureObject, sourceObject, recordedTwice_latest]
    rfl
  have hobjects : sequentialObjects (fixtureObject ledgerFormats nodeView recordedTwice) [7, 7] =
      .ok [nodeObject 7 2, nodeObject 7 2] := by
    simp only [sequentialObjects, List.mapM_cons, List.mapM_nil, hobject]
    rfl
  have hchunks : chunks fetchBatch
      (entryIds (shown [(⟨[nodeRef, nodeRef], none⟩ : DynamicFieldPage Unit)])) = [[7, 7]] := by
    decide +kernel
  have hdecodes : DecodesTo plainBytes fieldLayout (nodeObject 7 2) node :=
    ⟨_, _, _, rfl, rfl, rfl, hnode⟩
  refine (loadTickNodes_ok_iff (.last recordedTwice_page rfl) (by decide)).mpr
    ⟨_, ⟨[[nodeObject 7 2, nodeObject 7 2]], ?_, rfl⟩, fieldLayout, ?_,
      .cons hdecodes (.cons hdecodes .nil)⟩
  · rw [hchunks]
    exact .cons hobjects .nil
  · intro first hfirst
    cases hfirst
    exact ⟨fieldTag, rfl, rfl⟩

/-- Two versions held of one node list it twice, and loading it twice is refused. -/
theorem versions_listed_twice :
    Recorded ledgerFormats recordedTwice.objects ∧
      ¬ ListsChildren ledgerFormats nodeView recordedTwice nodeUid ∧
      ¬ NeverDuplicates ledgerFormats nodeView Unit recordedTwice nodeUid := by
  have recorded : Recorded ledgerFormats recordedTwice.objects :=
    recordNode_recorded recordedOnce_recorded
  refine ⟨recorded, ?_, ?_⟩
  · rw [listsChildren_iff_olderElsewhere (recorded_keyed recorded)]
    intro h
    have hsecond : (object ledgerFormats recordedTwice 7 (some 2)).isSome = true := by
      rw [recordedTwice_version (.inr rfl)]
      rfl
    exact h 7 1 2 _ (recordedTwice_version (.inl rfl)) (by decide) hsecond rfl
  · intro h
    obtain ⟨node, hnode⟩ := exists_ok (show (decodeStruct plainBytes nodeBytes fieldTag fieldFields
      NodeDecoders.fieldNodeDecoder).isOk = true by decide +kernel)
    have hrefused : (decodeStruct plainBytes nodeBytes fieldTag fieldFields
        NodeDecoders.fieldNodeDecoder).map (fun node =>
          Ticks.fromChildren (some nodeUid) skipList.size [node, node]) =
        .ok (.error (.duplicateNode 443636)) := by
      decide +kernel
    rw [hnode] at hrefused
    refine h plainBytes (fun _ => .ok fieldLayout) skipList [node, node] 443636 rfl ?_
      (loaded_twice hnode) (Except.ok.inj hrefused)
    rintro _ _ _ _ _ child child' id id' _ _ ⟨o, ho, _⟩ ⟨o', ho', _⟩ _ _ _
    rw [recordedTwice_id ho, recordedTwice_id ho']

end sample

end OfflineChildren
