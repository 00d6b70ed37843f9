import Birdai.Base.KeyedFolds
import Birdai.State.Manager

/-!
# What each phase of a checkpoint does

One statement for each phase: the change set read change by change, the outcomes
of typing, and what publishing, removing and indexing do at one key.
-/

namespace PhaseSpecs

open WideArith Outcomes TickIndex MoveTypes AnyVenues Manager KeyedFolds

/-! ### Reading a change -/

/-- The venue object a change wrote, if it wrote one. -/
def candidateOf (objects : ObjectSet) (change : ObjectChange) : Option (Object × StructTag) := do
  let version ← change.outputVersion
  let object ← objects.get change.id version
  let tag ← object.structTag
  if (venueKindOf tag).isSome then some (object, tag) else none

/-- The child a change wrote, under its parent. -/
def childOf (objects : ObjectSet) (change : ObjectChange) : Option (ObjectId × ObjectId) := do
  let version ← change.outputVersion
  let object ← objects.get change.id version
  let tag ← object.structTag
  let parent ← if isDynamicField tag then dynamicFieldParent object else none
  some (parent, change.id)

/-- The id a change deleted or wrapped. -/
def removedBy (change : ObjectChange) : Option ObjectId :=
  match change.outputVersion with
  | none => some change.id
  | some _ => none

/-- No dynamic field is named like a venue. -/
theorem venueKindOf_dynamicField {tag : StructTag} (h : isDynamicField tag = true) :
    venueKindOf tag = none := by
  simp only [isDynamicField, isTag, Bool.or_eq_true, decide_eq_true_eq] at h
  rcases h with ⟨_, hmodule, _⟩ | ⟨_, hmodule, _⟩
  · simp [venueKindOf, hmodule]
  · simp [venueKindOf, hmodule]

/-- One step of the walk over the changes, whole. -/
theorem collectChange_finds (objects : ObjectSet) (found : Collected) (change : ObjectChange) :
    (collectChange objects found change).candidates =
        found.candidates ++ (candidateOf objects change).toList ∧
      (collectChange objects found change).removed =
        found.removed ++ (removedBy change).toList ∧
      (collectChange objects found change).childParents =
        found.childParents ++ (childOf objects change).toList ∧
      (collectChange objects found change).missing = found.missing +
        if change.outputVersion.any fun version => (objects.get change.id version).isNone
        then 1 else 0 := by
  unfold collectChange candidateOf removedBy childOf
  cases hversion : change.outputVersion with
  | none => simp
  | some version =>
    cases hobject : objects.get change.id version with
    | none => simp [hobject]
    | some object =>
      cases htag : object.structTag with
      | none => simp [hobject, htag]
      | some tag =>
        by_cases hvenue : (venueKindOf tag).isSome = true
        · have hfield : isDynamicField tag = false := by
            apply Bool.eq_false_iff.mpr
            intro hfield
            rw [venueKindOf_dynamicField hfield] at hvenue
            cases hvenue
          simp [hobject, htag, hvenue, hfield]
        · by_cases hfield : isDynamicField tag = true
          · cases hparent : dynamicFieldParent object with
            | none => simp [hobject, htag, hvenue, hfield, hparent]
            | some parent => simp [hobject, htag, hvenue, hfield, hparent]
          · simp [hobject, htag, hvenue, hfield]

theorem collect_eq_foldl (checkpoint : Checkpoint) : collect checkpoint =
    checkpoint.changes.foldl (collectChange checkpoint.objectSet) {} :=
  (List.foldl_flatMap ..).symm

/-- One walk over the changes finds what each change stands for, in order. -/
theorem collect_finds (checkpoint : Checkpoint) :
    (collect checkpoint).candidates =
        checkpoint.changes.filterMap (candidateOf checkpoint.objectSet) ∧
      (collect checkpoint).removed = checkpoint.changes.filterMap removedBy ∧
      (collect checkpoint).childParents =
        checkpoint.changes.filterMap (childOf checkpoint.objectSet) := by
  rw [collect_eq_foldl]
  refine ⟨?_, ?_, ?_⟩
  · exact foldl_collects (fun s e => (collectChange_finds _ s e).1) _ _
  · exact foldl_collects (fun s e => (collectChange_finds _ s e).2.1) _ _
  · exact foldl_collects (fun s e => (collectChange_finds _ s e).2.2.1) _ _

/-! ### Typing -/

/-- Two managers that differ in their counters only. -/
structure SameStore (m m' : StateManager) : Prop where
  slots : m'.slots = m.slots
  children : m'.children = m.children
  childOwners : m'.childOwners = m.childOwners
  checkpoints : m'.checkpoints = m.checkpoints
  lastApplied : m'.lastApplied = m.lastApplied
  childCapacity : m'.childCapacity = m.childCapacity

namespace SameStore

theorem refl (m : StateManager) : SameStore m m := ⟨rfl, rfl, rfl, rfl, rfl, rfl⟩

theorem trans {m₁ m₂ m₃ : StateManager} (h : SameStore m₁ m₂) (h' : SameStore m₂ m₃) :
    SameStore m₁ m₃ :=
  ⟨h'.slots.trans h.slots, h'.children.trans h.children, h'.childOwners.trans h.childOwners,
    h'.checkpoints.trans h.checkpoints, h'.lastApplied.trans h.lastApplied,
    h'.childCapacity.trans h.childCapacity⟩

theorem fail (p : Progress) (count : ℕ) : SameStore p.manager (p.fail count).manager :=
  ⟨rfl, rfl, rfl, rfl, rfl, rfl⟩

end SameStore

/-- What typing one candidate comes to, once its tag is resolved. -/
def outcomeOf (decoders : Decoders) (resolved : Resolved) (candidate : Object × StructTag) :
    Option (Except StateError Decoded) :=
  match resolved.lookup candidate.2, candidate.1.data with
  | some (layout, fingerprint), .move _ contents =>
    some (((decodeVenue decoders contents candidate.2 layout).mapError .venue).map fun venue =>
      { id := candidate.1.id
        version := candidate.1.version
        tag := candidate.2
        layout := fingerprint
        venue })
  | _, _ => none

theorem copyOut_ok (decoders : Decoders) {resolved : Resolved} {candidate : Object × StructTag}
    (h : candidate.2 ∈ resolved) (p : Progress) (untyped : List Untyped) :
    ∃ p' copied, Progress.copyOut resolved (p, untyped) candidate = .ok (p', untyped ++ copied) ∧
      SameStore p.manager p'.manager ∧
      copied.map (decode decoders resolved) = (outcomeOf decoders resolved candidate).toList := by
  obtain ⟨⟨layout, fingerprint⟩, hlookup⟩ := Finmap.mem_iff.mp h
  obtain ⟨object, tag⟩ := candidate
  cases hdata : object.data with
  | package originalPackageId =>
    refine ⟨p.fail 1, [], ?_, SameStore.fail p 1, ?_⟩
    · simp [Progress.copyOut, hlookup, okOr, hdata]
    · simp [outcomeOf, hlookup, hdata]
  | move type contents =>
    refine ⟨p, [⟨object.id, object.version, tag, fingerprint, contents⟩], ?_, SameStore.refl _, ?_⟩
    · simp [Progress.copyOut, hlookup, okOr, hdata]
    · simp only [List.map_cons, List.map_nil, decode, hlookup, okOr, ok_bind, outcomeOf, hdata,
        Option.toList_some, List.cons.injEq, and_true]
      cases decodeVenue decoders contents tag layout with
      | error e => rfl
      | ok venue => rfl

theorem copyOut_all (decoders : Decoders) {resolved : Resolved}
    (candidates : List (Object × StructTag)) (h : ∀ c ∈ candidates, c.2 ∈ resolved) (p : Progress)
    (untyped : List Untyped) :
    ∃ p' copied, candidates.foldlM (Progress.copyOut resolved) (p, untyped) =
        .ok (p', untyped ++ copied) ∧
      SameStore p.manager p'.manager ∧
      copied.map (decode decoders resolved) =
        candidates.filterMap (outcomeOf decoders resolved) := by
  induction candidates generalizing p untyped with
  | nil => exact ⟨p, [], by simp [pure, Except.pure], SameStore.refl _, rfl⟩
  | cons candidate rest ih =>
    obtain ⟨p₁, first, hfirst, hsame₁, htyped₁⟩ :=
      copyOut_ok decoders (h candidate List.mem_cons_self) p untyped
    obtain ⟨p₂, more, hrest, hsame₂, htyped₂⟩ :=
      ih (fun c hc => h c (List.mem_cons_of_mem _ hc)) p₁ (untyped ++ first)
    refine ⟨p₂, first ++ more, ?_, hsame₁.trans hsame₂, ?_⟩
    · rw [List.foldlM_cons, hfirst, ok_bind, hrest, List.append_assoc]
    · rw [List.map_append, htyped₁, htyped₂]
      cases houtcome : outcomeOf decoders resolved candidate with
      | none => rw [List.filterMap_cons_none houtcome, Option.toList_none, List.nil_append]
      | some outcome =>
        rw [List.filterMap_cons_some houtcome, Option.toList_some, List.singleton_append]

/-- Candidates of an unresolved type have no outcome. -/
theorem outcomes_of_resolved (decoders : Decoders) (resolved : Resolved)
    (candidates : List (Object × StructTag)) :
    (candidates.filter fun candidate => candidate.2 ∈ resolved).filterMap
      (outcomeOf decoders resolved) = candidates.filterMap (outcomeOf decoders resolved) := by
  rw [List.filterMap_filter]
  refine List.filterMap_congr fun candidate _ => ?_
  by_cases hmem : candidate.2 ∈ resolved
  · rw [if_pos (by simpa using hmem)]
  · rw [if_neg (by simpa using hmem), outcomeOf, Finmap.lookup_eq_none.mpr hmem]

section apply
variable {ε σ : Type} (layouts : LayoutSource ε σ) (decoders : Decoders)

/-- Typing never loses a layout it has resolved. -/
theorem typeObjects_ok (p : Progress) (source : σ) (candidates : List (Object × StructTag)) :
    ∃ p', SameStore p.manager p'.manager ∧
      typeObjects layouts decoders p source candidates =
        (.ok (candidates.filterMap
            (outcomeOf decoders (resolveAll layouts decoders source (distinctTags candidates)).1)),
          p', (resolveAll layouts decoders source (distinctTags candidates)).2) := by
  simp only [typeObjects]
  generalize resolveAll layouts decoders source (distinctTags candidates) = resolving
  obtain ⟨resolved, source'⟩ := resolving
  dsimp only
  generalize hq : p.fail (candidates.length -
    (candidates.filter fun candidate => candidate.2 ∈ resolved).length) = q
  obtain ⟨p', copied, hcopied, hsame, htyped⟩ := copyOut_all decoders
    (candidates.filter fun candidate => candidate.2 ∈ resolved)
    (fun c hc => by simpa using (List.mem_filter.mp hc).2) q []
  refine ⟨p', SameStore.trans (hq ▸ SameStore.fail p _) hsame, ?_⟩
  rw [hcopied]
  dsimp only
  rw [List.nil_append, htyped, outcomes_of_resolved]

/-- The source once the checkpoint's own packages are noted. -/
def observed (source : σ) (checkpoint : Checkpoint) : σ :=
  if packageObservations checkpoint = [] then source
  else layouts.notePackages source (packageObservations checkpoint)

/-- The layouts a checkpoint's venue objects are typed with. -/
def resolvedFor (source : σ) (checkpoint : Checkpoint) : Resolved :=
  (resolveAll layouts decoders (observed layouts source checkpoint)
    (distinctTags (collect checkpoint).candidates)).1

/-- The venue a change published, if it wrote a venue object that decodes. -/
def decodingOf (source : σ) (checkpoint : Checkpoint) (change : ObjectChange) : Option Decoded :=
  (candidateOf checkpoint.objectSet change).bind fun candidate =>
    (outcomeOf decoders (resolvedFor layouts decoders source checkpoint) candidate).bind
      Except.toOption

theorem observePackages_same (m : StateManager) (source : σ) (checkpoint : Checkpoint) :
    SameStore m (observePackages layouts m source checkpoint).1.manager ∧
      (observePackages layouts m source checkpoint).2 = observed layouts source checkpoint := by
  unfold observePackages observed
  dsimp only
  split
  · exact ⟨SameStore.refl m, rfl⟩
  · exact ⟨⟨rfl, rfl, rfl, rfl, rfl, rfl⟩, rfl⟩

/-- An applied checkpoint never fails: it publishes what decoded, removes what was
removed, indexes the children and commits. -/
theorem applyCheckpoint_fresh {m : StateManager} {checkpoint : Checkpoint} (source : σ)
    (hfresh : m.skips checkpoint = false) :
    ∃ p outcomes source', SameStore m p.manager ∧
      outcomes.filterMap Except.toOption =
        checkpoint.changes.filterMap (decodingOf layouts decoders source checkpoint) ∧
      applyCheckpoint layouts decoders m source checkpoint =
        (.ok (finish p checkpoint.sequenceNumber (collect checkpoint) outcomes).report,
          (finish p checkpoint.sequenceNumber (collect checkpoint) outcomes).manager, source') := by
  obtain ⟨hsame, hsource⟩ := observePackages_same layouts m source checkpoint
  simp only [applyCheckpoint]
  rw [if_neg (by rw [hfresh]; exact Bool.false_ne_true)]
  generalize observePackages layouts m source checkpoint = observing at hsame hsource ⊢
  obtain ⟨p, source₁⟩ := observing
  dsimp only at hsame hsource ⊢
  subst hsource
  generalize hq : Progress.fail { p with
    report := { p.report with objectsExamined := (collect checkpoint).examined } }
      (collect checkpoint).missing = q
  have hq' : SameStore m q.manager := hq ▸ hsame.trans (SameStore.fail _ _)
  obtain ⟨p', hsame', htyped⟩ := typeObjects_ok layouts decoders q
    (observed layouts source checkpoint) (collect checkpoint).candidates
  rw [htyped]
  refine ⟨p', _, _, hq'.trans hsame', ?_, rfl⟩
  have hfound := (collect_finds checkpoint).1
  change List.filterMap Except.toOption (List.filterMap (outcomeOf decoders
    (resolvedFor layouts decoders source checkpoint)) (collect checkpoint).candidates) = _
  unfold decodingOf
  generalize resolvedFor layouts decoders source checkpoint = resolved
  rw [hfound, List.filterMap_filterMap, List.filterMap_filterMap]

end apply

/-! ### Publishing -/

/-- What publishing leaves in the slot of the published id. -/
def publishCell (cell : Option VenueSlot) (object : Decoded) : Option VenueSlot :=
  if ∀ slot ∈ cell, slot.version < object.version then
    some
      { id := object.id
        version := object.version
        tag := object.tag
        kind := object.venue.kind
        venue := object.venue
        layout := object.layout
        ticks := cell.bind VenueSlot.ticks }
  else cell

theorem isSome_publishCell (cell : Option VenueSlot) (object : Decoded) :
    (publishCell cell object).isSome = true := by
  simp only [publishCell]
  split
  · rfl
  · rename_i hheld
    cases cell with
    | none => exact absurd (fun _ h => by cases h) hheld
    | some slot => rfl

/-- What publishing decoded objects does to the slots. -/
def publishInto (slots : Finmap fun _ : ObjectId => VenueSlot) (object : Decoded) :
    Finmap fun _ : ObjectId => VenueSlot :=
  match publishCell (slots.lookup object.id) object with
  | none => slots
  | some slot => slots.insert object.id slot

theorem lookup_publishInto (slots : Finmap fun _ : ObjectId => VenueSlot) (object : Decoded)
    (id : ObjectId) : (publishInto slots object).lookup id =
      if object.id = id then publishCell (slots.lookup id) object else slots.lookup id := by
  have hsome := isSome_publishCell (slots.lookup object.id) object
  simp only [publishInto]
  cases hcell : publishCell (slots.lookup object.id) object with
  | none =>
    rw [hcell] at hsome
    cases hsome
  | some slot =>
    by_cases hid : object.id = id
    · subst hid
      simp [hcell]
    · simp [hid, Finmap.lookup_insert_of_ne _ (Ne.symm hid)]

theorem insert_held {β : Type} {cells : Finmap fun _ : ObjectId => β} {id : ObjectId} {cell : β}
    (h : cells.lookup id = some cell) : cells.insert id cell = cells := by
  refine Finmap.ext_lookup fun key => ?_
  by_cases hkey : key = id
  · rw [hkey, Finmap.lookup_insert, h]
  · rw [Finmap.lookup_insert_of_ne _ hkey]

/-- A slot is published over nothing or over an older version. -/
theorem shouldPublish_iff (id : ObjectId) (cell : Option VenueSlot) (incoming : U64) :
    shouldPublish id (cell.map VenueSlot.version) incoming = .ok true ↔
      ∀ slot ∈ cell, slot.version < incoming := by
  cases cell with
  | none => simp [shouldPublish]
  | some slot =>
    by_cases hnewer : slot.version < incoming
    · simp [shouldPublish, hnewer]
    · by_cases hheld : incoming = slot.version
      · simp [shouldPublish, hheld]
      · simp [shouldPublish, hnewer, hheld]

/-- What is not published leaves the slots as they are. -/
theorem publishInto_held {slots : Finmap fun _ : ObjectId => VenueSlot} {object : Decoded}
    (h : shouldPublish object.id ((slots.lookup object.id).map VenueSlot.version) object.version ≠
      .ok true) : publishInto slots object = slots := by
  rw [Ne, shouldPublish_iff] at h
  simp only [publishInto, publishCell, if_neg h]
  split
  · rfl
  · rename_i slot hslot
    exact insert_held hslot

/-- What publishing, removing and indexing leave alone. -/
@[mk_iff]
structure SameRest (m m' : StateManager) : Prop where
  checkpoints : m'.checkpoints = m.checkpoints
  lastApplied : m'.lastApplied = m.lastApplied
  childCapacity : m'.childCapacity = m.childCapacity

theorem SameRest.trans {m m' m'' : StateManager} (h : SameRest m m') (h' : SameRest m' m'') :
    SameRest m m'' :=
  ⟨h'.checkpoints.trans h.checkpoints, h'.lastApplied.trans h.lastApplied,
    h'.childCapacity.trans h.childCapacity⟩

theorem publish_spec (p : Progress) (outcome : Except StateError Decoded) :
    (p.publish outcome).manager.slots =
        outcome.toOption.elim p.manager.slots (publishInto p.manager.slots) ∧
      (p.publish outcome).manager.children = p.manager.children ∧
      (p.publish outcome).manager.childOwners = p.manager.childOwners ∧
      SameRest p.manager (p.publish outcome).manager := by
  simp only [Progress.publish]
  cases outcome with
  | error e =>
    cases e with
    | venue e => cases e <;> exact ⟨rfl, rfl, rfl, rfl, rfl, rfl⟩
    | _ => exact ⟨rfl, rfl, rfl, rfl, rfl, rfl⟩
  | ok object =>
    simp only [Except.toOption, Option.elim_some, publishInto, publishCell]
    cases hcell : p.manager.slots.lookup object.id with
    | none => simp [shouldPublish, sameRest_iff]
    | some slot =>
      by_cases hnewer : slot.version < object.version
      · simp [shouldPublish, hnewer, sameRest_iff]
      · have hinsert := insert_held hcell
        by_cases hheld : object.version = slot.version
        · simp [shouldPublish, hheld, hinsert, sameRest_iff]
        · simp [shouldPublish, hnewer, hheld, hinsert, Progress.fail, sameRest_iff]

theorem publishAll_spec (outcomes : List (Except StateError Decoded)) (p : Progress) :
    (outcomes.foldl Progress.publish p).manager.slots =
        (outcomes.filterMap Except.toOption).foldl publishInto p.manager.slots ∧
      (outcomes.foldl Progress.publish p).manager.children = p.manager.children ∧
      (outcomes.foldl Progress.publish p).manager.childOwners = p.manager.childOwners ∧
      SameRest p.manager (outcomes.foldl Progress.publish p).manager := by
  induction outcomes generalizing p with
  | nil => exact ⟨rfl, rfl, rfl, rfl, rfl, rfl⟩
  | cons outcome rest ih =>
    obtain ⟨hslots, hchildren, howners, hrest⟩ := publish_spec p outcome
    obtain ⟨hslots', hchildren', howners', hrest'⟩ := ih (p.publish outcome)
    refine ⟨?_, hchildren'.trans hchildren, howners'.trans howners, hrest.trans hrest'⟩
    rw [List.foldl_cons, hslots', hslots]
    cases outcome with
    | error e => rfl
    | ok object => rfl

/-- At one id, publishing weighs the versions of that id only. -/
theorem lookup_publishAll (objects : List Decoded)
    (slots : Finmap fun _ : ObjectId => VenueSlot) (id : ObjectId) :
    (objects.foldl publishInto slots).lookup id =
      (objects.filter fun object => object.id = id).foldl publishCell (slots.lookup id) :=
  foldl_at (fun _ => True) publishInto (fun slots id => slots.lookup id) Decoded.id publishCell
    (fun _ _ _ => trivial) (fun slots object id _ => lookup_publishInto slots object id)
    objects trivial id

/-! ### Removing -/

theorem erase_lookup {β : Type} (cells : Finmap fun _ : ObjectId => β) (id key : ObjectId) :
    (cells.erase id).lookup key = if id = key then none else cells.lookup key := by
  by_cases hkey : id = key
  · rw [if_pos hkey, hkey, Finmap.lookup_erase]
  · rw [if_neg hkey, Finmap.lookup_erase_ne (Ne.symm hkey)]

theorem removeSlot_spec (p : Progress) (id : ObjectId) :
    (∀ key, (p.removeSlot id).manager.slots.lookup key =
        if id = key then none else p.manager.slots.lookup key) ∧
      (∀ u, (p.removeSlot id).manager.children.lookup u =
        if p.manager.nodeUidOf id = some u then none else p.manager.children.lookup u) ∧
      (p.removeSlot id).manager.childOwners = p.manager.childOwners ∧
      SameRest p.manager (p.removeSlot id).manager := by
  unfold Progress.removeSlot StateManager.nodeUidOf
  cases hslot : p.manager.slots.lookup id with
  | none =>
    refine ⟨fun key => ?_, fun u => by simp, rfl, rfl, rfl, rfl⟩
    by_cases hkey : id = key
    · rw [if_pos hkey, ← hkey, hslot]
    · rw [if_neg hkey]
  | some slot =>
    refine ⟨fun key => erase_lookup _ _ _, fun u => ?_, rfl, rfl, rfl, rfl⟩
    cases huid : slot.venue.nodeUid? with
    | none => simp [huid]
    | some nodeUid => simp [huid, erase_lookup]

theorem removeChild_spec (p : Progress) (id : ObjectId) :
    (p.removeChild id).manager.slots = p.manager.slots ∧
      (∀ u, (p.removeChild id).manager.children.lookup u =
        if p.manager.childOwners.lookup id = some u then
          (p.manager.children.lookup u).map fun set =>
            { set with fieldIds := set.fieldIds.erase id }
        else p.manager.children.lookup u) ∧
      (∀ x, (p.removeChild id).manager.childOwners.lookup x =
        if id = x then none else p.manager.childOwners.lookup x) ∧
      SameRest p.manager (p.removeChild id).manager := by
  simp only [Progress.removeChild]
  cases howner : p.manager.childOwners.lookup id with
  | none =>
    refine ⟨rfl, fun u => by simp, fun x => ?_, rfl, rfl, rfl⟩
    by_cases hx : id = x
    · rw [if_pos hx, ← hx, howner]
    · rw [if_neg hx]
  | some parent =>
    refine ⟨rfl, fun u => ?_, fun x => erase_lookup _ _ _, rfl, rfl, rfl⟩
    by_cases hu : parent = u
    · subst hu
      cases hset : p.manager.children.lookup parent with
      | none => simp [hset]
      | some set => simp [hset]
    · have hu' : u ≠ parent := Ne.symm hu
      cases hset : p.manager.children.lookup parent with
      | none => simp [hset, hu]
      | some set => simp [hset, hu, Finmap.lookup_insert_of_ne _ hu']

/-- Every child set carries the manager's own capacity. -/
def Capped (m : StateManager) : Prop :=
  ∀ u set, m.children.lookup u = some set → set.capacity = m.childCapacity

theorem mem_childFields {m : StateManager} {u x : ObjectId} :
    x ∈ m.childFields u ↔ ∃ set, m.children.lookup u = some set ∧ x ∈ set.fieldIds := by
  simp only [StateManager.childFields]
  cases m.children.lookup u with
  | none => simp
  | some set => simp

theorem remove_spec (p : Progress) (id : ObjectId) :
    (∀ key, (p.remove id).manager.slots.lookup key =
        if id = key then none else p.manager.slots.lookup key) ∧
      (∀ x, (p.remove id).manager.childOwners.lookup x =
        if id = x then none else p.manager.childOwners.lookup x) ∧
      (∀ u x, x ∈ (p.remove id).manager.childFields u ↔ x ∈ p.manager.childFields u ∧
        p.manager.nodeUidOf id ≠ some u ∧
        ¬ (id = x ∧ p.manager.childOwners.lookup x = some u)) ∧
      (Capped p.manager → Capped (p.remove id).manager) ∧
      SameRest p.manager (p.remove id).manager := by
  obtain ⟨hslots, hchildren, howners, hrest⟩ := removeSlot_spec p id
  obtain ⟨hslots', hchildren', howners', hrest'⟩ := removeChild_spec (p.removeSlot id) id
  rw [howners] at hchildren' howners'
  have hsame : SameRest p.manager (p.remove id).manager := hrest.trans hrest'
  refine ⟨fun key => ?_, howners', fun u x => ?_, fun hcapped u set hset => ?_, hsame⟩
  · exact (congrArg (Finmap.lookup key) hslots').trans (hslots key)
  · have hlookup : (p.remove id).manager.children.lookup u = _ := hchildren' u
    rw [mem_childFields, mem_childFields, hlookup, hchildren u]
    by_cases hpool : p.manager.nodeUidOf id = some u
    · simp [hpool]
    · by_cases howner : p.manager.childOwners.lookup id = some u
      · cases p.manager.children.lookup u with
        | none => simp
        | some set =>
          simp only [hpool, howner, ↓reduceIte, Option.map_some, Option.some.injEq,
            exists_eq_left', Finset.mem_erase, ne_eq, not_false_eq_true, true_and]
          constructor
          · rintro ⟨hne, hmem⟩
            exact ⟨hmem, fun hid => hne hid.1.symm⟩
          · rintro ⟨hmem, hne⟩
            exact ⟨fun hid => hne ⟨hid.symm, hid ▸ howner⟩, hmem⟩
      · have hother : ¬ (id = x ∧ p.manager.childOwners.lookup x = some u) := by
          rintro ⟨rfl, hx⟩
          exact howner hx
        simp [hpool, howner, hother]
  · have hlookup : (p.remove id).manager.children.lookup u = _ := hchildren' u
    rw [hlookup, hchildren u] at hset
    rw [hsame.childCapacity]
    have hheld : ∀ s, (if p.manager.nodeUidOf id = some u then none
        else p.manager.children.lookup u) = some s → s.capacity = p.manager.childCapacity := by
      intro s hs
      split at hs
      · cases hs
      · exact hcapped u s hs
    split at hset
    · obtain ⟨s, hs, rfl⟩ := Option.map_eq_some_iff.mp hset
      exact hheld s hs
    · exact hheld set hset

/-- A whole list of removals. A slot gone takes its pool's child set along; a child
gone leaves the set of the parent recorded for it. -/
theorem removeAll_spec (removed : List ObjectId) (p : Progress) :
    (∀ key, (removed.foldl Progress.remove p).manager.slots.lookup key =
        if key ∈ removed then none else p.manager.slots.lookup key) ∧
      (∀ u x, x ∈ (removed.foldl Progress.remove p).manager.childFields u ↔
        x ∈ p.manager.childFields u ∧ (∀ id ∈ removed, p.manager.nodeUidOf id ≠ some u) ∧
        ¬ (x ∈ removed ∧ p.manager.childOwners.lookup x = some u)) ∧
      (Capped p.manager → Capped (removed.foldl Progress.remove p).manager) ∧
      SameRest p.manager (removed.foldl Progress.remove p).manager := by
  induction removed generalizing p with
  | nil => exact ⟨by simp, by simp, id, rfl, rfl, rfl⟩
  | cons id rest ih =>
    obtain ⟨hslots, howners, hfields, hcapped, hrest⟩ := remove_spec p id
    obtain ⟨hslots', hfields', hcapped', hrest'⟩ := ih (p.remove id)
    refine ⟨fun key => ?_, fun u x => ?_, fun h => hcapped' (hcapped h), ?_⟩
    · rw [List.foldl_cons, hslots', hslots]
      by_cases hid : id = key
      · simp [hid]
      · simp [hid, Ne.symm hid]
    · have huid : ∀ key, (p.remove id).manager.nodeUidOf key =
          if id = key then none else p.manager.nodeUidOf key := by
        intro key
        simp only [StateManager.nodeUidOf]
        rw [hslots]
        split
        · rfl
        · rfl
      rw [List.foldl_cons, hfields', hfields, howners]
      simp only [huid, List.mem_cons, forall_eq_or_imp]
      constructor
      · rintro ⟨⟨hmem, hpool, hchild⟩, hpools, hchildren⟩
        refine ⟨hmem, ⟨hpool, fun key hkey hu => ?_⟩, ?_⟩
        · by_cases hid : id = key
          · exact hpool (hid ▸ hu)
          · exact hpools key hkey (by rw [if_neg hid, hu])
        · rintro ⟨rfl | hx, howner⟩
          · exact hchild ⟨rfl, howner⟩
          · by_cases hid : id = x
            · exact hchild ⟨hid, howner⟩
            · exact hchildren ⟨hx, by rw [if_neg hid, howner]⟩
      · rintro ⟨hmem, ⟨hpool, hpools⟩, hchildren⟩
        refine ⟨⟨hmem, hpool, fun h => hchildren ⟨.inl h.1.symm, h.2⟩⟩, fun key hkey hu => ?_, ?_⟩
        · split at hu
          · cases hu
          · exact hpools key hkey hu
        · rintro ⟨hx, howner⟩
          split at howner
          · cases howner
          · exact hchildren ⟨.inr hx, howner⟩
    · exact hrest.trans hrest'

/-! ### Indexing -/

/-- Entering a list of fields, without the bookkeeping. -/
def insertAll (set : ChildSet) (fieldIds : List ObjectId) : ChildSet :=
  fieldIds.foldl (fun set fieldId => (set.insert fieldId).1) set

theorem insertAll_spec (fieldIds : List ObjectId) (set : ChildSet) :
    (insertAll set fieldIds).capacity = set.capacity ∧
      set.fieldIds ⊆ (insertAll set fieldIds).fieldIds ∧
      ((insertAll set fieldIds).fieldIds.card < set.capacity →
        (insertAll set fieldIds).fieldIds = set.fieldIds ∪ fieldIds.toFinset) := by
  induction fieldIds generalizing set with
  | nil => exact ⟨rfl, subset_rfl, fun _ => by simp [insertAll]⟩
  | cons fieldId rest ih =>
    obtain ⟨hcapacity, hsubset, hall⟩ := ih (set.insert fieldId).1
    have hfirst : insertAll set (fieldId :: rest) = insertAll (set.insert fieldId).1 rest := rfl
    rw [hfirst]
    by_cases hfull : set.capacity ≤ set.fieldIds.card ∧ fieldId ∉ set.fieldIds
    · have hsame : (set.insert fieldId).1 = set := by rw [ChildSet.insert, if_pos hfull]
      rw [hsame] at hcapacity hsubset ⊢
      refine ⟨hcapacity, hsubset, fun hroom => ?_⟩
      have hcard := Finset.card_le_card hsubset
      omega
    · have hnew : (set.insert fieldId).1 =
          { set with fieldIds := Insert.insert fieldId set.fieldIds } := by
        rw [ChildSet.insert, if_neg hfull]
      rw [hnew] at hcapacity hsubset hall ⊢
      refine ⟨hcapacity, (Finset.subset_insert _ _).trans hsubset, fun hroom => ?_⟩
      rw [hall hroom, List.toFinset_cons, Finset.insert_union, Finset.union_insert]

theorem grouping_set (parent : ObjectId) (fieldIds : List ObjectId) (g : Grouping) :
    (fieldIds.foldl (Grouping.index parent) g).set = insertAll g.set fieldIds := by
  induction fieldIds generalizing g with
  | nil => rfl
  | cons fieldId rest ih =>
    have hfirst : (g.index parent fieldId).set = (g.set.insert fieldId).1 := by
      unfold Grouping.index
      dsimp only
      split
      · rfl
      · split
        · rfl
        · rfl
    rw [List.foldl_cons, ih, hfirst]
    rfl

/-- What indexing a group leaves in the set of its parent. -/
def indexCell (priced : Finset ObjectId) (capacity : ℕ) (cell : Option ChildSet)
    (group : ObjectId × List ObjectId) : Option ChildSet :=
  if group.1 ∈ priced then some (insertAll (cell.getD ⟨∅, capacity⟩) group.2) else cell

theorem indexGroup_spec (priced : Finset ObjectId) (p : Progress)
    (group : ObjectId × List ObjectId) :
    (p.indexGroup priced group).manager.slots = p.manager.slots ∧
      (∀ u, (p.indexGroup priced group).manager.children.lookup u =
        if group.1 = u then
          indexCell priced p.manager.childCapacity (p.manager.children.lookup u) group
        else p.manager.children.lookup u) ∧
      SameRest p.manager (p.indexGroup priced group).manager := by
  obtain ⟨parent, fieldIds⟩ := group
  unfold Progress.indexGroup indexCell
  dsimp only
  by_cases hpriced : parent ∈ priced
  · simp only [hpriced, not_true_eq_false, ↓reduceIte, grouping_set, sameRest_iff, and_self,
      and_true, true_and]
    intro u
    by_cases hu : parent = u
    · rw [hu, Finmap.lookup_insert, if_pos rfl]
    · rw [Finmap.lookup_insert_of_ne _ (Ne.symm hu), if_neg hu]
  · simp [hpriced, sameRest_iff]

/-- The fields listed for one parent, if any are. -/
def gather (cell : Option (List ObjectId)) (child : ObjectId × ObjectId) :
    Option (List ObjectId) :=
  some (cell.getD [] ++ [child.2])

theorem foldl_gather (children : List (ObjectId × ObjectId)) (cell : Option (List ObjectId)) :
    children.foldl gather cell =
      if children = [] then cell else some (cell.getD [] ++ children.map Prod.snd) := by
  induction children generalizing cell with
  | nil => rfl
  | cons child rest ih =>
    rw [List.foldl_cons, ih]
    by_cases hrest : rest = []
    · simp [hrest, gather]
    · simp [hrest, gather]

/-- The fields a checkpoint's children list for one parent. -/
def fieldsUnder (childParents : List (ObjectId × ObjectId)) (u : ObjectId) : List ObjectId :=
  (childParents.filter fun child => child.1 = u).map Prod.snd

theorem groupChildren_lookup (children : List (ObjectId × ObjectId)) (u : ObjectId) :
    (groupChildren children).lookup u =
      if fieldsUnder children u = [] then none else some (fieldsUnder children u) := by
  have hstep : ∀ (out : Finmap fun _ : ObjectId => List ObjectId) (child : ObjectId × ObjectId)
      (key : ObjectId), True → (addChild out child).lookup key =
        if child.1 = key then gather (out.lookup key) child else out.lookup key := by
    intro out child key _
    by_cases hkey : child.1 = key
    · rw [if_pos hkey, addChild, hkey, Finmap.lookup_insert]
      rfl
    · rw [if_neg hkey, addChild, Finmap.lookup_insert_of_ne _ (Ne.symm hkey)]
  rw [groupChildren, foldl_at (fun _ => True) addChild (fun out key => out.lookup key) Prod.fst
    gather (fun _ _ _ => trivial) hstep children trivial u, Finmap.lookup_empty, foldl_gather,
    fieldsUnder]
  simp only [Option.getD_none, List.nil_append, List.map_eq_nil_iff]

theorem indexChildren_spec (p : Progress) (childParents : List (ObjectId × ObjectId)) :
    (p.indexChildren childParents).manager.slots = p.manager.slots ∧
      (∀ u, (p.indexChildren childParents).manager.children.lookup u =
        if u ∈ pricedParents p.manager ∧ fieldsUnder childParents u ≠ [] then
          some (insertAll ((p.manager.children.lookup u).getD ⟨∅, p.manager.childCapacity⟩)
            (fieldsUnder childParents u))
        else p.manager.children.lookup u) ∧
      SameRest p.manager (p.indexChildren childParents).manager := by
  unfold Progress.indexChildren
  by_cases hempty : childParents = []
  · subst hempty
    simp [fieldsUnder, sameRest_iff]
  · rw [if_neg hempty]
    dsimp only
    generalize hpriced : pricedParents p.manager = priced
    have hrest : ∀ (groups : List (ObjectId × List ObjectId)) (q : Progress),
        SameRest q.manager (groups.foldl (Progress.indexGroup priced) q).manager ∧
          (groups.foldl (Progress.indexGroup priced) q).manager.slots = q.manager.slots := by
      intro groups
      induction groups with
      | nil => exact fun q => ⟨⟨rfl, rfl, rfl⟩, rfl⟩
      | cons group rest ih =>
        intro q
        obtain ⟨hslots, _, hsame⟩ := indexGroup_spec priced q group
        obtain ⟨hsame', hslots'⟩ := ih (q.indexGroup priced group)
        exact ⟨hsame.trans hsame', hslots'.trans hslots⟩
    refine ⟨(hrest _ p).2, fun u => ?_, (hrest _ p).1⟩
    rw [foldl_at (fun q : Progress => q.manager.childCapacity = p.manager.childCapacity)
      (Progress.indexGroup priced) (fun q u => q.manager.children.lookup u) Prod.fst
      (indexCell priced p.manager.childCapacity)
      (fun q group hq => (indexGroup_spec priced q group).2.2.childCapacity.trans hq)
      (fun q group u hq => hq ▸ (indexGroup_spec priced q group).2.1 u) _ rfl u,
      filter_key_of_nodup (Finset.sort_nodup _ _) _ (fun _ => rfl)]
    have hkeys : u ∈ (groupChildren childParents).keys ↔ fieldsUnder childParents u ≠ [] := by
      rw [Finmap.mem_keys, Finmap.mem_iff, groupChildren_lookup]
      split
      · simp [*]
      · simp [*]
    simp only [Finset.mem_sort, hkeys, groupChildren_lookup]
    by_cases hfields : fieldsUnder childParents u = []
    · simp [hfields]
    · by_cases hu : u ∈ priced
      · simp [hfields, hu, indexCell]
      · simp [hfields, hu, indexCell]

theorem mem_pricedParents {m : StateManager} {u : ObjectId} :
    u ∈ pricedParents m ↔ ∃ id, m.nodeUidOf id = some u := by
  simp only [pricedParents, Finset.mem_biUnion, Option.mem_toFinset, Option.mem_def]
  constructor
  · rintro ⟨id, _, hid⟩
    exact ⟨id, hid⟩
  · rintro ⟨id, hid⟩
    refine ⟨id, ?_, hid⟩
    obtain ⟨slot, hslot, _⟩ := Option.bind_eq_some_iff.mp hid
    exact Finmap.mem_keys.mpr (Finmap.mem_iff.mpr ⟨slot, hslot⟩)

/-- With room to spare, indexing adds the fields listed for a priced parent. -/
theorem mem_childFields_index {p : Progress} {childParents : List (ObjectId × ObjectId)}
    {u x : ObjectId} (hcapped : Capped p.manager)
    (hroom : ((p.indexChildren childParents).manager.childFields u).card <
      p.manager.childCapacity) :
    x ∈ (p.indexChildren childParents).manager.childFields u ↔ x ∈ p.manager.childFields u ∨
      u ∈ pricedParents p.manager ∧ x ∈ fieldsUnder childParents u := by
  have hlookup := (indexChildren_spec p childParents).2.1 u
  simp only [StateManager.childFields] at hroom ⊢
  rw [hlookup] at hroom ⊢
  by_cases hindexed : u ∈ pricedParents p.manager ∧ fieldsUnder childParents u ≠ []
  · rw [if_pos hindexed] at hroom ⊢
    simp only [Option.elim_some] at hroom ⊢
    have hcapacity : ((p.manager.children.lookup u).getD
        ⟨∅, p.manager.childCapacity⟩).capacity = p.manager.childCapacity := by
      cases hset : p.manager.children.lookup u with
      | none => rfl
      | some set => exact hcapped u set hset
    have hroomed := hroom.trans_eq hcapacity.symm
    rw [(insertAll_spec _ _).2.2 hroomed, Finset.mem_union, List.mem_toFinset]
    refine or_congr ?_ (iff_and_self.mpr fun _ => hindexed.1)
    cases p.manager.children.lookup u with
    | none => simp
    | some set => simp
  · rw [if_neg hindexed]
    refine (or_iff_left fun h => hindexed ⟨h.1, ?_⟩).symm
    exact List.ne_nil_of_mem h.2

theorem indexChildren_capped {p : Progress} (childParents : List (ObjectId × ObjectId))
    (hcapped : Capped p.manager) : Capped (p.indexChildren childParents).manager := by
  obtain ⟨_, hlookup, hrest⟩ := indexChildren_spec p childParents
  intro u set hset
  rw [hlookup] at hset
  rw [hrest.childCapacity]
  by_cases hindexed : u ∈ pricedParents p.manager ∧ fieldsUnder childParents u ≠ []
  · rw [if_pos hindexed] at hset
    cases hset
    rw [(insertAll_spec _ _).1]
    cases hheld : p.manager.children.lookup u with
    | none => rfl
    | some set => exact hcapped u set hheld
  · rw [if_neg hindexed] at hset
    exact hcapped u set hset

/-! ### The whole checkpoint -/

theorem publishAll_capped {p : Progress} (outcomes : List (Except StateError Decoded))
    (hcapped : Capped p.manager) : Capped (outcomes.foldl Progress.publish p).manager := by
  obtain ⟨_, hchildren, _, hrest⟩ := publishAll_spec outcomes p
  intro u set hset
  rw [hrest.childCapacity]
  exact hcapped u set (hchildren ▸ hset)

theorem finish_capped {p : Progress} (sequence : U64) (found : Collected)
    (outcomes : List (Except StateError Decoded)) (hcapped : Capped p.manager) :
    Capped (finish p sequence found outcomes).manager := by
  have hremoved := (removeAll_spec found.removed _).2.2.1 (publishAll_capped outcomes hcapped)
  exact indexChildren_capped found.childParents hremoved

/-- The children of a finished checkpoint with room to spare: what was held, unless it
was removed or its pool was, and what was written under a pool still tracked. -/
theorem mem_childFields_finish {p : Progress} {sequence : U64} {found : Collected}
    {outcomes : List (Except StateError Decoded)} {u x : ObjectId} (hcapped : Capped p.manager)
    (hroom : ((finish p sequence found outcomes).manager.childFields u).card <
      p.manager.childCapacity) :
    x ∈ (finish p sequence found outcomes).manager.childFields u ↔
      (x ∈ p.manager.childFields u ∧
        (∀ id ∈ found.removed,
          (outcomes.foldl Progress.publish p).manager.nodeUidOf id ≠ some u) ∧
        ¬ (x ∈ found.removed ∧ p.manager.childOwners.lookup x = some u)) ∨
      (∃ id, id ∉ found.removed ∧
        (outcomes.foldl Progress.publish p).manager.nodeUidOf id = some u) ∧
      x ∈ fieldsUnder found.childParents u := by
  obtain ⟨_, hchildren, howners, hrest⟩ := publishAll_spec outcomes p
  obtain ⟨hslots, hfields, hkeeps, hrest'⟩ :=
    removeAll_spec found.removed (outcomes.foldl Progress.publish p)
  have hheld : (outcomes.foldl Progress.publish p).manager.childFields u =
      p.manager.childFields u := by
    rw [StateManager.childFields, hchildren, StateManager.childFields]
  have hcapacity := hrest'.childCapacity.trans hrest.childCapacity
  refine (mem_childFields_index (hkeeps (publishAll_capped outcomes hcapped))
    (hroom.trans_eq hcapacity.symm)).trans (or_congr ?_ (and_congr_left' ?_))
  · rw [hfields, hheld, howners]
  · rw [mem_pricedParents]
    refine exists_congr fun id => ?_
    rw [StateManager.nodeUidOf, hslots, StateManager.nodeUidOf]
    by_cases hid : id ∈ found.removed
    · simp [hid]
    · simp [hid]

/-- The slots of a finished checkpoint, and its counters' own fields. -/
theorem finish_spec (p : Progress) (sequence : U64) (found : Collected)
    (outcomes : List (Except StateError Decoded)) :
    (∀ id, (finish p sequence found outcomes).manager.slots.lookup id =
        if id ∈ found.removed then none
        else ((outcomes.filterMap Except.toOption).foldl publishInto p.manager.slots).lookup id) ∧
      (finish p sequence found outcomes).manager.checkpoints = p.manager.checkpoints + 1 ∧
      (finish p sequence found outcomes).manager.lastApplied = sequence ∧
      (finish p sequence found outcomes).manager.childCapacity = p.manager.childCapacity := by
  obtain ⟨hslots, _, _, hrest⟩ := publishAll_spec outcomes p
  obtain ⟨hslots', _, _, hrest'⟩ :=
    removeAll_spec found.removed (outcomes.foldl Progress.publish p)
  obtain ⟨hslots'', _, hrest''⟩ := indexChildren_spec
    (found.removed.foldl Progress.remove (outcomes.foldl Progress.publish p)) found.childParents
  have hsame := (hrest.trans hrest').trans hrest''
  refine ⟨fun id => ?_, ?_, rfl, hsame.childCapacity⟩
  · have hfinish : (finish p sequence found outcomes).manager.slots = _ := hslots''
    rw [hfinish, hslots', hslots]
  · exact congrArg (· + 1) hsame.checkpoints

end PhaseSpecs
