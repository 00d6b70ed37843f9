import Birdai.State.PhaseSpecs

/-!
# A checkpoint as the fold of its changes

What the slots and the child sets would be if the object changes were applied one
at a time, against what the checkpoint's phases leave. The phases replay all
publications before all removals, and all removals before all children.
-/

namespace OrderedFold

open WideArith Outcomes TickIndex MoveTypes AnyVenues Manager KeyedFolds PhaseSpecs

theorem get_key {objects : ObjectSet} {id : ObjectId} {version : U64} {object : Object}
    (h : objects.get id version = some object) : object.id = id ∧ object.version = version := by
  have hfound := List.find?_some h
  simpa using hfound

/-- A typed candidate is the object its change wrote. -/
theorem decodingOf_key {ε σ : Type} {layouts : LayoutSource ε σ} {decoders : Decoders}
    {source : σ} {checkpoint : Checkpoint} {change : ObjectChange} {object : Decoded}
    (h : decodingOf layouts decoders source checkpoint change = some object) :
    object.id = change.id ∧ change.outputVersion = some object.version := by
  obtain ⟨candidate, hcandidate, houtcome⟩ := Option.bind_eq_some_iff.mp h
  obtain ⟨outcome, houtcome, hok⟩ := Option.bind_eq_some_iff.mp houtcome
  obtain ⟨version, hversion, hcandidate⟩ := Option.bind_eq_some_iff.mp hcandidate
  obtain ⟨written, hwritten, hcandidate⟩ := Option.bind_eq_some_iff.mp hcandidate
  obtain ⟨tag, _, hcandidate⟩ := Option.bind_eq_some_iff.mp hcandidate
  split at hcandidate
  · cases hcandidate
    obtain ⟨hid, hwrote⟩ := get_key hwritten
    unfold outcomeOf at houtcome
    split at houtcome
    · obtain rfl := Option.some.inj houtcome
      dsimp only at hok
      generalize decodeVenue .. = venue at hok
      cases venue with
      | error e => cases hok
      | ok venue =>
        cases hok
        exact ⟨hid, hwrote ▸ hversion⟩
    · cases houtcome
  · cases hcandidate

/-! ### Reachable managers -/

section reachable
variable {ε σ : Type} (layouts : LayoutSource ε σ) (decoders : Decoders)

/-- Managers an indexer can hold, whatever state their layouts were read in. -/
inductive Reachable : StateManager → Prop
  | start (childCapacity : ℕ) : Reachable (StateManager.withChildCapacity childCapacity)
  | apply {m : StateManager} (source : σ) (checkpoint : Checkpoint) (h : Reachable m) :
      Reachable (applyCheckpoint layouts decoders m source checkpoint).2.1
  | setTicks {m : StateManager} (id : ObjectId) (ticks : Ticks) (h : Reachable m) :
      Reachable (m.setTicks id ticks).1
  | installTicks {m : StateManager} (id : ObjectId) (head : SkipListHead)
      (nodes : List TickNode) (h : Reachable m) : Reachable (m.installTicks id head nodes).2

theorem setTicks_children (m : StateManager) (id : ObjectId) (ticks : Ticks) :
    (m.setTicks id ticks).1.children = m.children ∧
      (m.setTicks id ticks).1.childCapacity = m.childCapacity := by
  simp only [StateManager.setTicks]
  split
  · exact ⟨rfl, rfl⟩
  · exact ⟨rfl, rfl⟩

theorem installTicks_children (m : StateManager) (id : ObjectId) (head : SkipListHead)
    (nodes : List TickNode) : (m.installTicks id head nodes).2.children = m.children ∧
      (m.installTicks id head nodes).2.childCapacity = m.childCapacity := by
  unfold StateManager.installTicks
  split
  · exact ⟨rfl, rfl⟩
  · dsimp only
    split
    · exact ⟨rfl, rfl⟩
    · split
      · exact setTicks_children m id _
      · exact setTicks_children m id _

theorem capped_of_children {m m' : StateManager} (hcapped : Capped m)
    (h : m'.children = m.children ∧ m'.childCapacity = m.childCapacity) : Capped m' := by
  intro u set hset
  rw [h.2]
  exact hcapped u set (h.1 ▸ hset)

/-- Every child set of a reachable manager carries the manager's capacity. -/
theorem capped_of_reachable {m : StateManager} (h : Reachable layouts decoders m) :
    Capped m := by
  induction h with
  | start childCapacity =>
    intro u set hset
    simp [StateManager.withChildCapacity] at hset
  | @apply m source checkpoint _ ih =>
    cases hskips : m.skips checkpoint with
    | true => simpa [applyCheckpoint, hskips] using ih
    | false =>
      obtain ⟨p, outcomes, source', hsame, _, happly⟩ :=
        applyCheckpoint_fresh layouts decoders source hskips
      rw [happly]
      exact finish_capped _ _ _ (capped_of_children ih ⟨hsame.children, hsame.childCapacity⟩)
  | setTicks id ticks _ ih => exact capped_of_children ih (setTicks_children _ id ticks)
  | installTicks id head nodes _ ih =>
    exact capped_of_children ih (installTicks_children _ id head nodes)

end reachable

/-! ### A pool on a sample chain -/

section sample

def record (type : StructTag) (fields : List (String × MoveTypeLayout)) : MoveTypeLayout :=
  .struct type (fields.map fun field => ⟨field.1, field.2⟩)

def poolTag : StructTag := ⟨1, "pool", "Pool", []⟩

def fieldTag : StructTag :=
  ⟨suiFramework, "dynamic_field", "Field", [.primitive .u64, .struct ⟨1, "tick", "Tick", []⟩]⟩

def uidLayout : MoveTypeLayout :=
  record ⟨suiFramework, "object", "UID", []⟩
    [("id", record ⟨suiFramework, "object", "ID", []⟩ [("bytes", .primitive .address)])]

def balanceLayout : MoveTypeLayout :=
  record ⟨suiFramework, "balance", "Balance", []⟩ [("value", .primitive .u64)]

/-- The fields a pool cannot do without, in the order of the bytes. -/
def poolLayout : MoveTypeLayout :=
  record poolTag
    [("coin_a", balanceLayout), ("coin_b", balanceLayout),
      ("tick_spacing", .primitive .u32), ("fee_rate", .primitive .u64),
      ("liquidity", .primitive .u128), ("current_sqrt_price", .primitive .u128),
      ("current_tick_index", record ⟨1, "i32", "I32", []⟩ [("bits", .primitive .u32)]),
      ("fee_growth_global_a", .primitive .u128), ("fee_growth_global_b", .primitive .u128),
      ("tick_manager", record ⟨1, "tick", "TickManager", []⟩
        [("ticks", record ⟨1, "skip_list", "SkipList", []⟩ [("id", uidLayout)])]),
      ("is_pause", .primitive .bool)]

/-- An empty pool whose tick nodes would hang off UID 9. -/
def poolBytes : List (Fin 256) :=
  List.replicate 96 0 ++ List.replicate 31 0 ++ [9, 0]

def emptyPool : CetusPool.CetusClmm :=
  { coinA := 0
    coinB := 0
    tickSpacing := 0
    feeRate := 0
    liquidity := 0
    sqrtPrice := 0
    tick := 0
    feeGrowthGlobalA := 0
    feeGrowthGlobalB := 0
    feeProtocolCoinA := 0
    feeProtocolCoinB := 0
    ticks := ⟨9, none, none, 0, 0, 0, 0⟩
    isPaused := false
    index := 0
    url := [] }

def poolDecoders : Decoders :=
  { fingerprint := fun _ => 0
    cetus := fun bytes _ =>
      if bytes = poolBytes then .ok emptyPool else .error (.decode .unexpectedEnd)
    volo := fun _ _ => .error (.decode .unexpectedEnd)
    navi := fun _ _ => .error (.decode .unexpectedEnd) }

def poolLayouts : LayoutSource Unit Unit :=
  { layout := fun source tag => (if tag = poolTag then .ok poolLayout else .error (), source)
    notePackages := fun source _ => source }

def poolAt (version : U64) : Object := ⟨7, version, .shared 1, .move poolTag poolBytes⟩

def nodeAt (version : U64) : Object := ⟨8, version, .objectOwner 9, .move fieldTag []⟩

/-- Pool 7 appears. -/
def opening : Checkpoint := ⟨1, [⟨[⟨7, some 3⟩]⟩], ⟨[poolAt 3], by decide⟩⟩

/-- Node 8 is written and stays. -/
def minted : Checkpoint := ⟨2, [⟨[⟨8, some 5⟩]⟩], ⟨[nodeAt 5], by decide⟩⟩

/-- Node 8 is written, then burned by the next transaction. -/
def burned : Checkpoint := ⟨2, [⟨[⟨8, some 5⟩]⟩, ⟨[⟨8, none⟩]⟩], ⟨[nodeAt 5], by decide⟩⟩

/-- Pool 7 is wrapped, then written again by the next transaction. -/
def unwrapped : Checkpoint := ⟨2, [⟨[⟨7, none⟩]⟩, ⟨[⟨7, some 6⟩]⟩], ⟨[poolAt 6], by decide⟩⟩

def applied (m : StateManager) (checkpoint : Checkpoint) : StateManager :=
  (applyCheckpoint poolLayouts poolDecoders m () checkpoint).2.1

def opened : StateManager := applied StateManager.new opening

theorem opened_reachable : Reachable poolLayouts poolDecoders opened :=
  .apply () opening (.start _)

end sample

/-! ### Slots -/

section slots
variable {ε σ : Type} (layouts : LayoutSource ε σ) (decoders : Decoders)

/-- One change: a removed id is untracked, a written venue is published. -/
def applyChange (source : σ) (checkpoint : Checkpoint)
    (slots : Finmap fun _ : ObjectId => VenueSlot) (change : ObjectChange) :
    Finmap fun _ : ObjectId => VenueSlot :=
  match change.outputVersion with
  | none => slots.erase change.id
  | some _ =>
    (decodingOf layouts decoders source checkpoint change).elim slots (publishInto slots)

/-- The slots after the changes of a checkpoint, one at a time. A duplicate delivery
is skipped whole. -/
def slotsInOrder (m : StateManager) (source : σ) (checkpoint : Checkpoint) :
    Finmap fun _ : ObjectId => VenueSlot :=
  if m.skips checkpoint then m.slots
  else checkpoint.changes.foldl (applyChange layouts decoders source checkpoint) m.slots

/-- What a change does to one id: nothing, a removal, or a publication. -/
def eventOf (source : σ) (checkpoint : Checkpoint) (id : ObjectId) (change : ObjectChange) :
    Option (Option Decoded) :=
  if change.id = id then
    match change.outputVersion with
    | none => some none
    | some _ => (decodingOf layouts decoders source checkpoint change).map some
  else none

/-- The removals and publications of one id, in order. -/
def eventsOf (source : σ) (checkpoint : Checkpoint) (id : ObjectId) : List (Option Decoded) :=
  checkpoint.changes.filterMap (eventOf layouts decoders source checkpoint id)

/-- Every id the checkpoint removes is removed again after its last publication. -/
def RemovedLast (source : σ) (checkpoint : Checkpoint) : Prop :=
  ∀ id, none ∈ eventsOf layouts decoders source checkpoint id →
    (eventsOf layouts decoders source checkpoint id).getLast? = some none

theorem lookup_applyChange (source : σ) (checkpoint : Checkpoint)
    (slots : Finmap fun _ : ObjectId => VenueSlot) (change : ObjectChange) (id : ObjectId) :
    (applyChange layouts decoders source checkpoint slots change).lookup id =
      (eventOf layouts decoders source checkpoint id change).elim (slots.lookup id)
        (touch publishCell (slots.lookup id)) := by
  unfold applyChange eventOf
  cases hversion : change.outputVersion with
  | none =>
    simp only [erase_lookup]
    by_cases hid : change.id = id
    · rw [if_pos hid, if_pos hid]
      rfl
    · rw [if_neg hid, if_neg hid]
      rfl
  | some version =>
    cases hdecoded : decodingOf layouts decoders source checkpoint change with
    | none => by_cases hid : change.id = id <;> simp [hid]
    | some object =>
      have hkey := (decodingOf_key hdecoded).1
      simp only [Option.elim_some, Option.map_some, lookup_publishInto, hkey]
      by_cases hid : change.id = id
      · rw [if_pos hid, if_pos hid]
        rfl
      · rw [if_neg hid, if_neg hid]
        rfl

/-- In order, each id sees its own events. -/
theorem lookup_inOrder (source : σ) (checkpoint : Checkpoint) (changes : List ObjectChange)
    (slots : Finmap fun _ : ObjectId => VenueSlot) (id : ObjectId) :
    (changes.foldl (applyChange layouts decoders source checkpoint) slots).lookup id =
      inOrder publishCell (slots.lookup id)
        (changes.filterMap (eventOf layouts decoders source checkpoint id)) := by
  induction changes generalizing slots with
  | nil => rfl
  | cons change rest ih =>
    rw [List.foldl_cons, ih, lookup_applyChange]
    cases hevent : eventOf layouts decoders source checkpoint id change with
    | none => rw [List.filterMap_cons_none hevent, Option.elim_none]
    | some event =>
      rw [List.filterMap_cons_some hevent, Option.elim_some]
      rfl

theorem none_mem_events {source : σ} {checkpoint : Checkpoint} {id : ObjectId} :
    none ∈ eventsOf layouts decoders source checkpoint id ↔
      id ∈ checkpoint.changes.filterMap removedBy := by
  simp only [eventsOf, List.mem_filterMap]
  refine exists_congr fun change => and_congr_right fun _ => ?_
  unfold eventOf removedBy
  cases change.outputVersion with
  | none => by_cases hid : change.id = id <;> simp [hid]
  | some version =>
    by_cases hid : change.id = id
    · cases decodingOf layouts decoders source checkpoint change <;> simp [hid]
    · simp [hid]

theorem published_events (source : σ) (checkpoint : Checkpoint) (changes : List ObjectChange)
    (id : ObjectId) :
    (changes.filterMap (eventOf layouts decoders source checkpoint id)).reduceOption =
      (changes.filterMap (decodingOf layouts decoders source checkpoint)).filter
        fun object => object.id = id := by
  induction changes with
  | nil => rfl
  | cons change rest ih =>
    have hdecoding : change.outputVersion = none →
        decodingOf layouts decoders source checkpoint change = none := by
      intro hversion
      simp [decodingOf, candidateOf, hversion]
    unfold eventOf at ih ⊢
    cases hversion : change.outputVersion with
    | none =>
      rw [List.filterMap_cons_none (hdecoding hversion), ← ih]
      by_cases hid : change.id = id
      · rw [List.filterMap_cons_some (b := none) (by simp [hid, hversion])]
        rfl
      · rw [List.filterMap_cons_none (by simp [hid])]
    | some version =>
      cases hdecoded : decodingOf layouts decoders source checkpoint change with
      | none =>
        rw [List.filterMap_cons_none hdecoded, ← ih,
          List.filterMap_cons_none (by simp [hversion, hdecoded])]
      | some object =>
        have hkey := (decodingOf_key hdecoded).1
        rw [List.filterMap_cons_some hdecoded]
        by_cases hid : change.id = id
        · rw [List.filterMap_cons_some (b := some object) (by simp [hid, hversion, hdecoded]),
            List.reduceOption_cons_of_some, ih, List.filter_cons_of_pos (by simp [hkey, hid])]
        · rw [List.filterMap_cons_none (by simp [hid]), ih,
            List.filter_cons_of_neg (by simp [hkey, hid])]

/-- The slots of an applied checkpoint: all publications, then all removals. -/
theorem lookup_applied {m : StateManager} {checkpoint : Checkpoint} (source : σ)
    (hfresh : m.skips checkpoint = false) (id : ObjectId) :
    (applyCheckpoint layouts decoders m source checkpoint).2.1.slots.lookup id =
      inBatches publishCell (m.slots.lookup id)
        (eventsOf layouts decoders source checkpoint id) := by
  obtain ⟨p, outcomes, source', hsame, houtcomes, happly⟩ :=
    applyCheckpoint_fresh layouts decoders source hfresh
  rw [happly]
  dsimp only
  rw [(finish_spec p _ _ _).1, (collect_finds checkpoint).2.1, houtcomes, hsame.slots,
    lookup_publishAll, inBatches, eventsOf, published_events]
  simp only [any_isNone_iff]
  rw [← eventsOf]
  simp only [none_mem_events]

/-- What is compared of a tracked slot. -/
def VenueSlot.view (slot : VenueSlot) : ObjectId × U64 × AnyVenue :=
  (slot.id, slot.version, slot.venue)

/-- Applying a checkpoint is applying its changes in order exactly when nothing it
removes is published again afterwards, and then the slots agree altogether. -/
theorem slots_in_order_iff (m : StateManager) (source : σ) (checkpoint : Checkpoint) :
    ((∀ id, ((applyCheckpoint layouts decoders m source checkpoint).2.1.slots.lookup id).map
          VenueSlot.view =
        ((slotsInOrder layouts decoders m source checkpoint).lookup id).map VenueSlot.view) ↔
      m.skips checkpoint = true ∨ RemovedLast layouts decoders source checkpoint) ∧
    (m.skips checkpoint = true ∨ RemovedLast layouts decoders source checkpoint →
      (applyCheckpoint layouts decoders m source checkpoint).2.1.slots =
        slotsInOrder layouts decoders m source checkpoint) := by
  cases hskips : m.skips checkpoint with
  | true => simp [applyCheckpoint, slotsInOrder, hskips]
  | false =>
    have hcell := fun id => inBatches_eq_inOrder_iff VenueSlot.view isSome_publishCell
      (m.slots.lookup id) (eventsOf layouts decoders source checkpoint id)
    have hsequential : ∀ id, (slotsInOrder layouts decoders m source checkpoint).lookup id =
        inOrder publishCell (m.slots.lookup id)
          (eventsOf layouts decoders source checkpoint id) := by
      intro id
      rw [slotsInOrder, hskips]
      exact lookup_inOrder layouts decoders source checkpoint _ _ id
    simp only [Bool.false_eq_true, false_or, lookup_applied layouts decoders source hskips,
      hsequential]
    refine ⟨forall_congr' fun id => (hcell id).1, fun hlast => Finmap.ext_lookup fun id => ?_⟩
    rw [lookup_applied layouts decoders source hskips, hsequential]
    exact (hcell id).2 (hlast id)

end slots

/-- A pool written again after it was wrapped is left untracked. -/
theorem slots_lose_unwrapped :
    Reachable poolLayouts poolDecoders opened ∧
      (applied opened unwrapped).slots.lookup 7 = none ∧
      ((slotsInOrder poolLayouts poolDecoders opened () unwrapped).lookup 7).map
        VenueSlot.view = some (7, 6, .cetus emptyPool) :=
  ⟨opened_reachable, by decide +kernel, by decide +kernel⟩

/-! ### Children -/

/-- One change: a removed id leaves the set, a field written under `u` enters it. -/
def applyChild (objects : ObjectSet) (u : ObjectId) (set : Finset ObjectId)
    (change : ObjectChange) : Finset ObjectId :=
  match change.outputVersion with
  | none => set.erase change.id
  | some _ => if childOf objects change = some (u, change.id) then insert change.id set else set

/-- The child set of `u` after the changes of a checkpoint, one at a time. -/
def childrenInOrder (m : StateManager) (checkpoint : Checkpoint) (u : ObjectId) :
    Finset ObjectId :=
  if m.skips checkpoint then m.childFields u
  else checkpoint.changes.foldl (applyChild checkpoint.objectSet u) (m.childFields u)

/-- What a change does to the membership of `x` in the set of `u`. -/
def childEvent (objects : ObjectSet) (u x : ObjectId) (change : ObjectChange) :
    Option (Option Unit) :=
  if change.id = x then
    match change.outputVersion with
    | none => some none
    | some _ => if childOf objects change = some (u, x) then some (some ()) else none
  else none

/-- The additions and removals of `x`, in order. -/
def childEvents (checkpoint : Checkpoint) (u x : ObjectId) : List (Option Unit) :=
  checkpoint.changes.filterMap (childEvent checkpoint.objectSet u x)

/-- Adding an id to a set that may hold it. -/
def enter (_ : Option Unit) (_ : Unit) : Option Unit := some ()

theorem mem_applyChild (objects : ObjectSet) (u x : ObjectId) (set : Finset ObjectId)
    (change : ObjectChange) : x ∈ applyChild objects u set change ↔
      ((childEvent objects u x change).elim (if x ∈ set then some () else none)
        (touch enter (if x ∈ set then some () else none))).isSome = true := by
  unfold applyChild childEvent
  by_cases hid : change.id = x
  · subst hid
    cases change.outputVersion with
    | none => simp [touch]
    | some version =>
      by_cases hchild : childOf objects change = some (u, change.id)
      · simp [hchild, touch, enter]
      · simp [hchild]
  · have hid' : x ≠ change.id := Ne.symm hid
    cases change.outputVersion with
    | none => simp [hid, hid']
    | some version =>
      by_cases hchild : childOf objects change = some (u, change.id)
      · simp [hchild, hid, hid']
      · simp [hchild, hid]

theorem mem_inOrder (objects : ObjectSet) (u x : ObjectId) (changes : List ObjectChange)
    (set : Finset ObjectId) : x ∈ changes.foldl (applyChild objects u) set ↔
      (inOrder enter (if x ∈ set then some () else none)
        (changes.filterMap (childEvent objects u x))).isSome = true := by
  induction changes generalizing set with
  | nil => simp [inOrder]
  | cons change rest ih =>
    have hfirst := mem_applyChild objects u x set change
    rw [List.foldl_cons, ih]
    have hcell : (if x ∈ applyChild objects u set change then some () else none) =
        (childEvent objects u x change).elim (if x ∈ set then some () else none)
          (touch enter (if x ∈ set then some () else none)) := by
      generalize Option.elim _ _ _ = cell at hfirst
      cases cell with
      | none => simp [hfirst]
      | some _ => simp [hfirst]
    rw [hcell]
    cases hevent : childEvent objects u x change with
    | none => rw [List.filterMap_cons_none hevent, Option.elim_none]
    | some event =>
      rw [List.filterMap_cons_some hevent, Option.elim_some]
      rfl

theorem childOf_key {objects : ObjectSet} {change : ObjectChange} {u x : ObjectId}
    (h : childOf objects change = some (u, x)) :
    change.id = x ∧ change.outputVersion.isSome = true := by
  obtain ⟨version, hversion, h⟩ := Option.bind_eq_some_iff.mp h
  obtain ⟨object, _, h⟩ := Option.bind_eq_some_iff.mp h
  obtain ⟨tag, _, h⟩ := Option.bind_eq_some_iff.mp h
  split at h
  · obtain ⟨parent, _, h⟩ := Option.bind_eq_some_iff.mp h
    cases h
    exact ⟨rfl, by rw [hversion]; rfl⟩
  · cases h

theorem added_iff {checkpoint : Checkpoint} {u x : ObjectId} :
    some () ∈ childEvents checkpoint u x ↔
      x ∈ fieldsUnder (checkpoint.changes.filterMap (childOf checkpoint.objectSet)) u := by
  simp only [childEvents, fieldsUnder, List.mem_filterMap, List.mem_map, List.mem_filter,
    decide_eq_true_eq]
  constructor
  · rintro ⟨change, hchange, hevent⟩
    refine ⟨(u, x), ⟨⟨change, hchange, ?_⟩, rfl⟩, rfl⟩
    simp only [childEvent] at hevent
    split at hevent
    · split at hevent
      · cases hevent
      · split at hevent
        · assumption
        · cases hevent
    · cases hevent
  · rintro ⟨⟨_, _⟩, ⟨⟨change, hchange, hchild⟩, rfl⟩, rfl⟩
    obtain ⟨hid, hversion⟩ := childOf_key hchild
    obtain ⟨version, hversion⟩ := Option.isSome_iff_exists.mp hversion
    refine ⟨change, hchange, ?_⟩
    simp [childEvent, hid, hversion, hchild]

theorem removed_iff {checkpoint : Checkpoint} {u x : ObjectId} :
    none ∈ childEvents checkpoint u x ↔ x ∈ checkpoint.changes.filterMap removedBy := by
  simp only [childEvents, List.mem_filterMap]
  refine exists_congr fun change => and_congr_right fun _ => ?_
  unfold childEvent removedBy
  cases change.outputVersion with
  | none => by_cases hid : change.id = x <;> simp [hid]
  | some version =>
    by_cases hid : change.id = x
    · by_cases hchild : childOf checkpoint.objectSet change = some (u, x) <;> simp [hid, hchild]
    · simp [hid]

section children
variable {ε σ : Type} (layouts : LayoutSource ε σ) (decoders : Decoders)

/-- What a checkpoint's venues leave under an id before anything is removed. -/
def newestSlot (m : StateManager) (source : σ) (checkpoint : Checkpoint) (id : ObjectId) :
    Option VenueSlot :=
  ((checkpoint.changes.filterMap (decodingOf layouts decoders source checkpoint)).filter
    fun object => object.id = id).foldl publishCell (m.slots.lookup id)

/-- The inner UID of what is published last under an id. -/
def newestUid (m : StateManager) (source : σ) (checkpoint : Checkpoint) (id : ObjectId) :
    Option ObjectId :=
  (newestSlot layouts decoders m source checkpoint id).bind fun slot => slot.venue.nodeUid?

def removedIds (checkpoint : Checkpoint) : List ObjectId := checkpoint.changes.filterMap removedBy

/-- Some pool with inner UID `u` outlives the checkpoint. -/
def Tracked (m : StateManager) (source : σ) (checkpoint : Checkpoint) (u : ObjectId) : Prop :=
  ∃ id, id ∉ removedIds checkpoint ∧ newestUid layouts decoders m source checkpoint id = some u

/-- Some pool with inner UID `u` is removed by the checkpoint. -/
def Untracked (m : StateManager) (source : σ) (checkpoint : Checkpoint) (u : ObjectId) : Prop :=
  ∃ id ∈ removedIds checkpoint, newestUid layouts decoders m source checkpoint id = some u

/-- A child held before the checkpoint, and not taken out by a removal. -/
def Kept (m : StateManager) (source : σ) (checkpoint : Checkpoint) (u x : ObjectId) : Prop :=
  x ∈ m.childFields u ∧ ¬ Untracked layouts decoders m source checkpoint u ∧
    ¬ (x ∈ removedIds checkpoint ∧ m.childOwners.lookup x = some u)

/-- When the phases agree with the order of the changes, for the children of `u`. -/
structure ChildrenLast (m : StateManager) (source : σ) (checkpoint : Checkpoint)
    (u : ObjectId) : Prop where
  written : ∀ x, some () ∈ childEvents checkpoint u x →
    ((childEvents checkpoint u x).getLast? = some (some ()) ↔
      Tracked layouts decoders m source checkpoint u ∨
        Kept layouts decoders m source checkpoint u x)
  removed : ∀ x, some () ∉ childEvents checkpoint u x → x ∈ removedIds checkpoint →
    ¬ Kept layouts decoders m source checkpoint u x
  held : Untracked layouts decoders m source checkpoint u →
    ∀ x ∈ m.childFields u, some () ∈ childEvents checkpoint u x ∨ x ∈ removedIds checkpoint

variable {layouts decoders}

/-- Before anything is removed, the tracked UIDs are the newest ones. -/
theorem nodeUidOf_published {m : StateManager} {source : σ} {checkpoint : Checkpoint}
    {p : Progress} {outcomes : List (Except StateError Decoded)} (hsame : SameStore m p.manager)
    (houtcomes : outcomes.filterMap Except.toOption =
      checkpoint.changes.filterMap (decodingOf layouts decoders source checkpoint))
    (id : ObjectId) : (outcomes.foldl Progress.publish p).manager.nodeUidOf id =
      newestUid layouts decoders m source checkpoint id := by
  rw [StateManager.nodeUidOf, (publishAll_spec outcomes p).1, lookup_publishAll, houtcomes,
    hsame.slots]
  rfl

theorem mem_childFields_applied {m : StateManager} {source : σ} {checkpoint : Checkpoint}
    {u x : ObjectId} (hcapped : Capped m) (hfresh : m.skips checkpoint = false)
    (hroom : ((applyCheckpoint layouts decoders m source checkpoint).2.1.childFields u).card <
      m.childCapacity) :
    x ∈ (applyCheckpoint layouts decoders m source checkpoint).2.1.childFields u ↔
      Kept layouts decoders m source checkpoint u x ∨
        Tracked layouts decoders m source checkpoint u ∧ some () ∈ childEvents checkpoint u x := by
  obtain ⟨p, outcomes, source', hsame, houtcomes, happly⟩ :=
    applyCheckpoint_fresh layouts decoders source hfresh
  obtain ⟨_, hremoved, hchildren⟩ := collect_finds checkpoint
  have huid := nodeUidOf_published hsame houtcomes
  rw [happly] at hroom ⊢
  dsimp only at hroom ⊢
  refine (mem_childFields_finish (capped_of_children hcapped
    ⟨hsame.children, hsame.childCapacity⟩) (hsame.childCapacity ▸ hroom)).trans ?_
  have hheld : p.manager.childFields u = m.childFields u := by
    rw [StateManager.childFields, hsame.children, StateManager.childFields]
  simp only [huid, hremoved, hchildren, hheld, hsame.childOwners, added_iff]
  refine or_congr (and_congr_right fun _ => and_congr_left fun _ => ?_) Iff.rfl
  simp only [Untracked, removedIds, not_exists, not_and, ne_eq]

/-- The child after the changes in order: the last event decides, or what was held. -/
theorem mem_childrenInOrder {m : StateManager} {checkpoint : Checkpoint} {u x : ObjectId}
    (hfresh : m.skips checkpoint = false) :
    x ∈ childrenInOrder m checkpoint u ↔
      (childEvents checkpoint u x).getLast? = some (some ()) ∨
        childEvents checkpoint u x = [] ∧ x ∈ m.childFields u := by
  have hlast := isSome_inOrder enter (fun _ _ => rfl)
    (if x ∈ m.childFields u then some () else none) (childEvents checkpoint u x)
  rw [childrenInOrder, hfresh]
  apply (mem_inOrder _ _ _ _ _).trans
  change (inOrder enter _ (childEvents checkpoint u x)).isSome = true ↔ _
  rw [hlast, ← List.getLast?_eq_none_iff]
  cases (childEvents checkpoint u x).getLast? with
  | none => by_cases hx : x ∈ m.childFields u <;> simp [hx]
  | some event => cases event <;> simp

/-- For one child, phases and order agree in three cases: it was written, it was only
removed, it was not touched. -/
theorem agrees_iff (m : StateManager) (source : σ) (checkpoint : Checkpoint)
    (u x : ObjectId) :
    ((Kept layouts decoders m source checkpoint u x ∨
          Tracked layouts decoders m source checkpoint u ∧
            some () ∈ childEvents checkpoint u x ↔
        (childEvents checkpoint u x).getLast? = some (some ()) ∨
          childEvents checkpoint u x = [] ∧ x ∈ m.childFields u) ↔
      (some () ∈ childEvents checkpoint u x →
        ((childEvents checkpoint u x).getLast? = some (some ()) ↔
          Tracked layouts decoders m source checkpoint u ∨
            Kept layouts decoders m source checkpoint u x)) ∧
      (some () ∉ childEvents checkpoint u x → x ∈ removedIds checkpoint →
        ¬ Kept layouts decoders m source checkpoint u x) ∧
      (Untracked layouts decoders m source checkpoint u → x ∈ m.childFields u →
        some () ∈ childEvents checkpoint u x ∨ x ∈ removedIds checkpoint)) := by
  have hremoved : none ∈ childEvents checkpoint u x ↔ x ∈ removedIds checkpoint := removed_iff
  by_cases hwritten : some () ∈ childEvents checkpoint u x
  · have hne : childEvents checkpoint u x ≠ [] := List.ne_nil_of_mem hwritten
    simp only [hwritten, hne, and_true, false_and, or_false, forall_const, not_true_eq_false,
      false_implies, true_or, implies_true]
    exact ⟨fun h => h.symm.trans or_comm, fun h => or_comm.trans h.symm⟩
  · have hlast : (childEvents checkpoint u x).getLast? ≠ some (some ()) :=
      fun h => hwritten (List.mem_of_getLast? h)
    by_cases hgone : x ∈ removedIds checkpoint
    · have hne : childEvents checkpoint u x ≠ [] := List.ne_nil_of_mem (hremoved.mpr hgone)
      simp [hwritten, hlast, hgone, hne]
    · have hnil : childEvents checkpoint u x = [] := by
        refine List.eq_nil_iff_forall_not_mem.mpr fun event hevent => ?_
        cases event with
        | none => exact hgone (hremoved.mp hevent)
        | some _ => exact hwritten hevent
      simp only [hgone, hnil, Kept, false_and, or_false, not_false_eq_true, and_true,
        false_implies, implies_true]
      tauto

/-- For a pool that stays tracked and routes its own children, only one thing can go
wrong: a field is removed after its last write. -/
theorem childrenLast_of_tracked {m : StateManager} {source : σ} {checkpoint : Checkpoint}
    {u : ObjectId} (htracked : Tracked layouts decoders m source checkpoint u)
    (hstays : ¬ Untracked layouts decoders m source checkpoint u)
    (howned : ∀ x ∈ m.childFields u, m.childOwners.lookup x = some u) :
    ChildrenLast layouts decoders m source checkpoint u ↔
      ∀ x, some () ∈ childEvents checkpoint u x →
        (childEvents checkpoint u x).getLast? = some (some ()) := by
  constructor
  · intro h x hwritten
    exact (h.written x hwritten).mpr (.inl htracked)
  · intro h
    refine ⟨fun x hwritten => iff_of_true (h x hwritten) (.inl htracked), ?_, ?_⟩
    · rintro x _ hgone ⟨hheld, _, hkept⟩
      exact hkept ⟨hgone, howned x hheld⟩
    · intro huntracked
      exact absurd huntracked hstays

/-- Applying a checkpoint is applying its changes in order to the children of `u`
exactly when the phases agree with that order. -/
theorem children_in_order_iff {m : StateManager} (hm : Reachable layouts decoders m)
    (source : σ) (checkpoint : Checkpoint) (u : ObjectId)
    (hroom : ((applyCheckpoint layouts decoders m source checkpoint).2.1.childFields u).card <
      m.childCapacity) :
    (applyCheckpoint layouts decoders m source checkpoint).2.1.childFields u =
        childrenInOrder m checkpoint u ↔
      m.skips checkpoint = true ∨ ChildrenLast layouts decoders m source checkpoint u := by
  cases hskips : m.skips checkpoint with
  | true => simp [applyCheckpoint, childrenInOrder, hskips]
  | false =>
    have happlied := fun x => mem_childFields_applied (x := x)
      (capped_of_reachable layouts decoders hm) hskips hroom
    simp only [Bool.false_eq_true, false_or, Finset.ext_iff, happlied,
      mem_childrenInOrder hskips, agrees_iff]
    constructor
    · intro h
      exact ⟨fun x => (h x).1, fun x => (h x).2.1, fun hu x => (h x).2.2 hu⟩
    · rintro ⟨hwritten, hremoved, hheld⟩ x
      exact ⟨hwritten x, hremoved x, fun hu => hheld hu x⟩

end children

theorem children_in_order_minted :
    (applied opened minted).childFields 9 = childrenInOrder opened minted 9 ∧
      (opened.skips minted = true ∨ ChildrenLast poolLayouts poolDecoders opened () minted 9) :=
  have hagrees : (applied opened minted).childFields 9 = childrenInOrder opened minted 9 := by
    decide +kernel
  ⟨hagrees, (children_in_order_iff opened_reachable () minted 9 (by decide +kernel)).mp hagrees⟩

/-- A node burned in the checkpoint that wrote it stays in the child set. -/
theorem children_keep_burned :
    Reachable poolLayouts poolDecoders opened ∧ opened.nodeUidOf 7 = some 9 ∧
      ((applied opened burned).childFields 9).card < opened.childCapacity ∧
      (applied opened burned).childFields 9 = {8} ∧ childrenInOrder opened burned 9 = ∅ :=
  ⟨opened_reachable, by decide +kernel, by decide +kernel, by decide +kernel, by decide +kernel⟩

end OrderedFold
