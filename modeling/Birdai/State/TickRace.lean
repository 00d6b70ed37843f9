import Birdai.Base.LabelledRuns
import Birdai.State.OrderedFold
import Birdai.Tick.TickBook

/-!
# Ticks installed while checkpoints are applied

Publication reads a slot and writes it back in two operations of the concurrent
map, and carries the ticks across. Callers that install ticks may come in between
any two operations. Checkpoints are applied one after another.
-/

namespace TickRace

open WideArith Outcomes LabelledRuns TickIndex MoveTypes AnyVenues Manager KeyedFolds PhaseSpecs
open OrderedFold

/-! ### The parties -/

/-- What a checkpoint does to the slots, one after another. -/
inductive Task where
  | publish (object : Decoded)
  | remove (id : ObjectId)

/-- Publications first, then removals; what did not decode touches no slot. -/
def tasks (outcomes : List (Except StateError Decoded)) (removed : List ObjectId) : List Task :=
  (outcomes.filterMap Except.toOption).map .publish ++ removed.map .remove

/-- Where a call of `install_ticks` or `set_ticks` stands. -/
inductive Caller where
  | idle
  | checking (id : ObjectId) (ticks : Ticks) (skew : Option SizeSkew)
  | installing (id : ObjectId) (ticks : Ticks) (skew : Option SizeSkew)
  | setting (id : ObjectId) (ticks : Ticks)
  | installed (id : ObjectId) (ticks : Ticks) (skew : Option SizeSkew)
  | failed (error : StateError)
  | set (id : ObjectId) (ticks : Ticks) (found : Bool)
  deriving DecidableEq

/-- What a call is about to attach, and to which id. -/
def Caller.attaching : Caller → Option (ObjectId × Ticks)
  | .installing id ticks _ => some (id, ticks)
  | .setting id ticks => some (id, ticks)
  | _ => none

/-- The slots, the checkpoint being applied and the calls on their way. `read` is what the
writer has read and not yet written. `installed` keeps the ticks of the last completed
install since the id was removed: no step reads it. -/
structure World where
  slots : Finmap fun _ : ObjectId => VenueSlot
  todo : List Task
  read : Option (Decoded × Option Ticks)
  callers : ℕ → Caller
  installed : ObjectId → Option Ticks

def World.start : World :=
  { slots := ∅
    todo := []
    read := none
    callers := fun _ => .idle
    installed := fun _ => none }

inductive Action where
  | apply (outcomes : List (Except StateError Decoded)) (removed : List ObjectId)
  | write
  | install (call : ℕ) (id : ObjectId) (head : SkipListHead) (nodes : List TickNode)
  | set (call : ℕ) (id : ObjectId) (ticks : Ticks)
  | resume (call : ℕ)

/-- The slot a publication writes. -/
def slotOf (object : Decoded) (ticks : Option Ticks) : VenueSlot :=
  { id := object.id
    version := object.version
    tag := object.tag
    kind := object.venue.kind
    venue := object.venue
    layout := object.layout
    ticks }

/-! ### One operation at a time -/

/-- The writer's next operation: an upsert after its read, a read, or a removal. -/
def write (w : World) : Option World :=
  match w.read, w.todo with
  | some (object, ticks), _ =>
    some { w with slots := w.slots.insert object.id (slotOf object ticks), read := none }
  | none, .publish object :: rest =>
    let existing := w.slots.lookup object.id
    match shouldPublish object.id (existing.map VenueSlot.version) object.version with
    | .ok true => some { w with todo := rest, read := some (object, existing.bind VenueSlot.ticks) }
    | _ => some { w with todo := rest }
  | none, .remove id :: rest =>
    some { w with
      slots := w.slots.erase id
      todo := rest
      installed := Function.update w.installed id none }
  | none, [] => none

/-- The update of `set_ticks`, if there is a slot to update. -/
def attach (w : World) (id : ObjectId) (ticks : Ticks) : Option World :=
  (w.slots.lookup id).map fun slot =>
    { w with
      slots := w.slots.insert id { slot with ticks := some ticks }
      installed := Function.update w.installed id (some ticks) }

def World.goto (w : World) (call : ℕ) (next : Caller) : World :=
  { w with callers := Function.update w.callers call next }

theorem goto_self (w : World) (call : ℕ) (next : Caller) :
    (w.goto call next).callers call = next :=
  Function.update_self ..

/-- Ticks are checked against the spacing of the pool they are for, if it is tracked. -/
def checkSpacing (slots : Finmap fun _ : ObjectId => VenueSlot) (id : ObjectId) (ticks : Ticks) :
    Except TickError Unit :=
  match (slots.lookup id).map VenueSlot.venue with
  | some (.cetus pool) => ticks.validateSpacing pool.tickSpacing
  | _ => .ok ()

/-- The next operation of a call: the read that checks the spacing, or the update. -/
def resume (w : World) (call : ℕ) : Option World :=
  match w.callers call with
  | .checking id ticks skew =>
    match checkSpacing w.slots id ticks with
    | .error e => some (w.goto call (.failed (.tick e)))
    | .ok () => some (w.goto call (.installing id ticks skew))
  | .installing id ticks skew =>
    match attach w id ticks with
    | none => some (w.goto call (.failed (.unknownVenue id)))
    | some attached => some (attached.goto call (.installed id ticks skew))
  | .setting id ticks =>
    match attach w id ticks with
    | none => some (w.goto call (.set id ticks false))
    | some attached => some (attached.goto call (.set id ticks true))
  | _ => none

def step (w : World) : Action → Option World
  | .apply outcomes removed =>
    match w.read, w.todo with
    | none, [] => some { w with todo := tasks outcomes removed }
    | _, _ => none
  | .write => write w
  | .install call id head nodes =>
    match w.callers call with
    | .idle =>
      match Ticks.fromChildren (some head.nodeUid) head.size nodes with
      | .error e => some (w.goto call (.failed (.tick e)))
      | .ok (ticks, skew) => some (w.goto call (.checking id ticks skew))
    | _ => none
  | .set call id ticks =>
    match w.callers call with
    | .idle => some (w.goto call (.setting id ticks))
    | _ => none
  | .resume call => resume w call

/-- No call attaches, to an id that the writer has read and not yet written, other ticks
than those it read. -/
def Quiet (w : World) : Action → Prop
  | .resume call => ∀ object carried ticks, w.read = some (object, carried) →
      (w.callers call).attaching = some (object.id, ticks) →
      object.id ∉ w.slots ∨ carried = some ticks
  | _ => True

/-- The worlds of the runs whose every step is quiet. -/
inductive QuietRun : World → Prop
  | start : QuietRun World.start
  | step {w w' : World} (action : Action) (h : QuietRun w) (hquiet : Quiet w action)
      (hstep : step w action = some w') : QuietRun w'

/-! ### What a step can do -/

/-- One operation of the writer, one attached index, or none of both. -/
inductive Effect (w : World) : Action → World → Prop
  | frame {action : Action} {w' : World} (hslots : w'.slots = w.slots) (hread : w'.read = w.read)
      (hinstalled : w'.installed = w.installed) : Effect w action w'
  | reads {object : Decoded} {w' : World} (hidle : w.read = none) (hslots : w'.slots = w.slots)
      (hread : w'.read = some (object, (w.slots.lookup object.id).bind VenueSlot.ticks))
      (hinstalled : w'.installed = w.installed) : Effect w .write w'
  | writes {object : Decoded} {carried : Option Ticks} {w' : World}
      (hheld : w.read = some (object, carried))
      (hslots : w'.slots = w.slots.insert object.id (slotOf object carried))
      (hread : w'.read = none) (hinstalled : w'.installed = w.installed) : Effect w .write w'
  | removes {id : ObjectId} {w' : World} (hidle : w.read = none)
      (hslots : w'.slots = w.slots.erase id) (hread : w'.read = none)
      (hinstalled : w'.installed = Function.update w.installed id none) : Effect w .write w'
  | attaches {call : ℕ} {id : ObjectId} {ticks : Ticks} {slot : VenueSlot} {w' : World}
      (hattaching : (w.callers call).attaching = some (id, ticks))
      (hslot : w.slots.lookup id = some slot)
      (hslots : w'.slots = w.slots.insert id { slot with ticks := some ticks })
      (hread : w'.read = w.read)
      (hinstalled : w'.installed = Function.update w.installed id (some ticks)) :
      Effect w (.resume call) w'

theorem write_effect {w w' : World} (h : write w = some w') : Effect w .write w' := by
  simp only [write] at h
  cases hread : w.read with
  | some held =>
    obtain ⟨object, carried⟩ := held
    rw [hread] at h
    cases h
    exact .writes hread rfl rfl rfl
  | none =>
    rw [hread] at h
    cases htodo : w.todo with
    | nil =>
      rw [htodo] at h
      cases h
    | cons task rest =>
      rw [htodo] at h
      cases task with
      | remove id =>
        cases h
        exact .removes hread rfl rfl rfl
      | publish object =>
        dsimp only at h
        split at h
        · cases h
          exact .reads hread rfl rfl rfl
        · cases h
          exact .frame rfl hread.symm rfl

/-- What a call that has attached its ticks returns. -/
def Attached (id : ObjectId) (ticks : Ticks) (next : Caller) : Prop :=
  next = .set id ticks true ∨ ∃ skew, next = .installed id ticks skew

/-- An operation of a call attaches what the call was about to attach, or only moves on. -/
theorem resume_cases {w w' : World} {call : ℕ} (h : resume w call = some w') :
    ∃ next, (w' = w.goto call next ∧ ∀ id ticks, ¬ Attached id ticks next) ∨
      ∃ id ticks attached, (w.callers call).attaching = some (id, ticks) ∧
        attach w id ticks = some attached ∧ w' = attached.goto call next ∧
        Attached id ticks next := by
  simp only [resume] at h
  cases hcaller : w.callers call with
  | checking id ticks skew =>
    rw [hcaller] at h
    dsimp only at h
    split at h
    · cases h
      exact ⟨_, .inl ⟨rfl, by simp [Attached]⟩⟩
    · cases h
      exact ⟨_, .inl ⟨rfl, by simp [Attached]⟩⟩
  | installing id ticks skew =>
    rw [hcaller] at h
    dsimp only at h
    split at h
    · cases h
      exact ⟨_, .inl ⟨rfl, by simp [Attached]⟩⟩
    · rename_i attached hattached
      cases h
      exact ⟨_, .inr ⟨id, ticks, attached, rfl, hattached, rfl, .inr ⟨skew, rfl⟩⟩⟩
  | setting id ticks =>
    rw [hcaller] at h
    dsimp only at h
    split at h
    · cases h
      exact ⟨_, .inl ⟨rfl, by simp [Attached]⟩⟩
    · rename_i attached hattached
      cases h
      exact ⟨_, .inr ⟨id, ticks, attached, rfl, hattached, rfl, .inl rfl⟩⟩
  | _ =>
    rw [hcaller] at h
    cases h

theorem resume_effect {w w' : World} {call : ℕ} (h : resume w call = some w') :
    Effect w (.resume call) w' := by
  obtain ⟨next, ⟨rfl, _⟩ | ⟨id, ticks, attached, hattaching, hattached, rfl, _⟩⟩ := resume_cases h
  · exact .frame rfl rfl rfl
  · obtain ⟨slot, hslot, rfl⟩ := Option.map_eq_some_iff.mp hattached
    exact .attaches hattaching hslot rfl rfl rfl

theorem step_effect {w w' : World} {action : Action} (h : step w action = some w') :
    Effect w action w' := by
  cases action with
  | apply outcomes removed =>
    simp only [step] at h
    split at h
    · cases h
      exact .frame rfl rfl rfl
    · cases h
  | write => exact write_effect h
  | install call id head nodes =>
    simp only [step] at h
    split at h
    · split at h
      · cases h
        exact .frame rfl rfl rfl
      · cases h
        exact .frame rfl rfl rfl
    · cases h
  | set call id ticks =>
    simp only [step] at h
    split at h
    · cases h
      exact .frame rfl rfl rfl
    · cases h
  | resume call => exact resume_effect h

/-! ### The invariant -/

/-- An installed index is in its slot, and in the writer's hands where the id is read. -/
structure Kept (w : World) : Prop where
  slot : ∀ id ticks, w.installed id = some ticks →
    (w.slots.lookup id).bind VenueSlot.ticks = some ticks
  carried : ∀ object carried, w.read = some (object, carried) →
    ∀ ticks, w.installed object.id = some ticks → carried = some ticks

theorem kept_start : Kept World.start :=
  { slot := fun _ _ h => by cases h
    carried := fun _ _ h => by cases h }

theorem step_kept {w w' : World} {action : Action} (hkept : Kept w) (hquiet : Quiet w action)
    (hstep : step w action = some w') : Kept w' := by
  obtain ⟨hslot, hcarried⟩ := hkept
  cases step_effect hstep with
  | frame hslots hread hinstalled =>
    constructor
    · rw [hslots, hinstalled]
      exact hslot
    · rw [hread, hinstalled]
      exact hcarried
  | reads hidle hslots hread hinstalled =>
    constructor
    · rw [hslots, hinstalled]
      exact hslot
    · intro object carried hheld ticks hticks
      rw [hread] at hheld
      rw [hinstalled] at hticks
      cases hheld
      exact hslot _ ticks hticks
  | @writes object carried w' hheld hslots hread hinstalled =>
    constructor
    · intro id ticks hticks
      rw [hinstalled] at hticks
      rw [hslots]
      by_cases hid : id = object.id
      · -- The upsert writes what was read, and quiet steps left nothing else installed.
        subst hid
        rw [Finmap.lookup_insert]
        exact hcarried object carried hheld ticks hticks
      · rw [Finmap.lookup_insert_of_ne _ hid]
        exact hslot id ticks hticks
    · intro _ _ hheld'
      rw [hread] at hheld'
      cases hheld'
  | @removes removed w' hidle hslots hread hinstalled =>
    constructor
    · intro id ticks hticks
      rw [hinstalled] at hticks
      rw [hslots]
      by_cases hid : id = removed
      · rw [hid, Function.update_self] at hticks
        cases hticks
      · rw [Function.update_of_ne hid] at hticks
        rw [Finmap.lookup_erase_ne hid]
        exact hslot id ticks hticks
    · intro _ _ hheld'
      rw [hread] at hheld'
      cases hheld'
  | @attaches call other attached slot w' hattaching hfound hslots hread hinstalled =>
    constructor
    · intro id ticks hticks
      rw [hinstalled] at hticks
      rw [hslots]
      by_cases hid : id = other
      · rw [hid, Function.update_self] at hticks
        rw [hid, Finmap.lookup_insert]
        exact hticks
      · rw [Function.update_of_ne hid] at hticks
        rw [Finmap.lookup_insert_of_ne _ hid]
        exact hslot id ticks hticks
    · intro object carried hheld ticks hticks
      rw [hread] at hheld
      rw [hinstalled] at hticks
      by_cases hid : object.id = other
      · subst hid
        rw [Function.update_self] at hticks
        rcases hquiet object carried attached hheld hattaching with hgone | hsame
        · exact absurd (Finmap.mem_of_lookup_eq_some hfound) hgone
        · rw [hsame, hticks]
      · rw [Function.update_of_ne hid] at hticks
        exact hcarried object carried hheld ticks hticks

theorem run_kept {w : World} (h : QuietRun w) : Kept w := by
  induction h with
  | start => exact kept_start
  | step action _ hquiet hstep ih => exact step_kept ih hquiet hstep

/-- In a quiet run the slot of an id has the index of the last completed install since the
id was removed. -/
theorem installed_kept {w : World} (hrun : QuietRun w) {id : ObjectId} {ticks : Ticks}
    (hinstalled : w.installed id = some ticks) :
    ∃ slot, w.slots.lookup id = some slot ∧ slot.ticks = some ticks :=
  Option.bind_eq_some_iff.mp ((run_kept hrun).slot id ticks hinstalled)

/-! ### What an install in between does -/

/-- A call that is about to attach to a tracked id does so. -/
theorem resume_attaches {w : World} {call : ℕ} {id : ObjectId} {ticks : Ticks} {slot : VenueSlot}
    (hattaching : (w.callers call).attaching = some (id, ticks))
    (hslot : w.slots.lookup id = some slot) :
    ∃ w', step w (.resume call) = some w' ∧
      w'.slots = w.slots.insert id { slot with ticks := some ticks } ∧
      w'.installed = Function.update w.installed id (some ticks) ∧ w'.read = w.read ∧
      Attached id ticks (w'.callers call) := by
  simp only [step, resume]
  cases hcaller : w.callers call with
  | installing other index skew =>
    rw [hcaller] at hattaching
    cases hattaching
    dsimp only
    rw [attach, hslot]
    exact ⟨_, rfl, rfl, rfl, rfl, .inr ⟨skew, goto_self ..⟩⟩
  | setting other index =>
    rw [hcaller] at hattaching
    cases hattaching
    dsimp only
    rw [attach, hslot]
    exact ⟨_, rfl, rfl, rfl, rfl, .inl (goto_self ..)⟩
  | _ =>
    rw [hcaller] at hattaching
    cases hattaching

/-- A call that returns the ticks it attached has just installed them. -/
theorem resume_returns {w w' : World} {call : ℕ} {id : ObjectId} {ticks : Ticks}
    (h : step w (.resume call) = some w') (hreturned : Attached id ticks (w'.callers call)) :
    w'.installed id = some ticks := by
  obtain ⟨next, ⟨rfl, hnot⟩ | ⟨other, index, attached, _, hattached, rfl, hnext⟩⟩ :=
    resume_cases h
  · rw [goto_self] at hreturned
    exact absurd hreturned (hnot id ticks)
  · rw [goto_self] at hreturned
    obtain ⟨slot, _, rfl⟩ := Option.map_eq_some_iff.mp hattached
    have hsame : other = id ∧ index = ticks := by
      rcases hnext with rfl | ⟨skew, rfl⟩
      · simpa [Attached] using hreturned
      · simpa [Attached] using hreturned
    obtain ⟨rfl, rfl⟩ := hsame
    exact Function.update_self ..

/-- An install between the read and the upsert of its id is lost with the upsert. -/
theorem noise_loses {w : World} {call : ℕ} {object : Decoded} {carried : Option Ticks}
    {ticks : Ticks} (hread : w.read = some (object, carried))
    (hattaching : (w.callers call).attaching = some (object.id, ticks))
    (htracked : object.id ∈ w.slots) (hother : carried ≠ some ticks) :
    ∃ w' slot, runAll step w [.resume call, .write] = some w' ∧
      w'.installed object.id = some ticks ∧ w'.slots.lookup object.id = some slot ∧
      slot.ticks ≠ some ticks := by
  obtain ⟨slot, hslot⟩ := Finmap.mem_iff.mp htracked
  obtain ⟨w₁, hresume, hslots, hinstalled, hread', _⟩ := resume_attaches hattaching hslot
  have hwrite : step w₁ .write = some { w₁ with
      slots := w₁.slots.insert object.id (slotOf object carried), read := none } := by
    rw [step, write, hread', hread]
  refine ⟨_, slotOf object carried, (runAll_of_step hresume).trans (runAll_of_step hwrite), ?_,
    Finmap.lookup_insert _, hother⟩
  dsimp only
  rw [hinstalled, Function.update_self]

/-! ### Without interleaving -/

/-- The operations of the writer alone. -/
abbrev Writes : World → World → Prop := Relation.ReflTransGen fun w w' => write w = some w'

/-- A publication is a read and an upsert, and publishes as the manager does. -/
theorem writes_publish {w : World} {object : Decoded} {rest : List Task} (hidle : w.read = none)
    (htodo : w.todo = .publish object :: rest) :
    Writes w { w with slots := publishInto w.slots object, todo := rest } := by
  by_cases hpublish : shouldPublish object.id
      ((w.slots.lookup object.id).map VenueSlot.version) object.version = .ok true
  · have hread : write w = some { w with
        todo := rest
        read := some (object, (w.slots.lookup object.id).bind VenueSlot.ticks) } := by
      simp only [write, hidle, htodo, hpublish]
    have hnewer := (shouldPublish_iff _ _ _).mp hpublish
    refine .head hread (.single ?_)
    simp only [write, publishInto, publishCell, if_pos hnewer, slotOf, hidle]
  · have hskip : write w = some { w with todo := rest } := by
      simp only [write, hidle, htodo]
    rw [publishInto_held hpublish]
    exact .single hskip

theorem writes_publishAll {w : World} {objects : List Decoded} {rest : List Task}
    (hidle : w.read = none) (htodo : w.todo = objects.map .publish ++ rest) :
    Writes w { w with slots := objects.foldl publishInto w.slots, todo := rest } := by
  induction objects generalizing w with
  | nil =>
    obtain rfl : w.todo = rest := htodo
    exact .refl
  | cons object objects ih => exact (writes_publish hidle htodo).trans (ih hidle rfl)

theorem writes_removeAll {w : World} {removed : List ObjectId} (hidle : w.read = none)
    (htodo : w.todo = removed.map .remove) :
    ∃ w', Writes w w' ∧ w'.read = none ∧ w'.todo = [] ∧ w'.callers = w.callers ∧
      ∀ id, w'.slots.lookup id = if id ∈ removed then none else w.slots.lookup id := by
  induction removed generalizing w with
  | nil => exact ⟨w, .refl, hidle, htodo, rfl, fun id => by simp⟩
  | cons removed rest ih =>
    have hremove : write w = some { w with
        slots := w.slots.erase removed
        todo := rest.map .remove
        installed := Function.update w.installed removed none } := by
      simp only [write, hidle, htodo, List.map_cons]
    obtain ⟨w', hwrites, hread, htodo', hcallers, hslots⟩ :=
      ih (w := { w with
        slots := w.slots.erase removed
        todo := rest.map .remove
        installed := Function.update w.installed removed none }) hidle rfl
    refine ⟨w', .head hremove hwrites, hread, htodo', hcallers, fun id => ?_⟩
    rw [hslots]
    dsimp only
    rw [erase_lookup]
    by_cases hid : removed = id
    · simp [hid]
    · simp [hid, Ne.symm hid]

/-- A checkpoint applied without interruption leaves the slots the manager leaves. -/
theorem apply_alone {ε σ : Type} (layouts : LayoutSource ε σ) (decoders : Decoders)
    {m : StateManager} {checkpoint : Checkpoint} (source : σ)
    (hfresh : m.skips checkpoint = false) {w : World} (hidle : w.read = none)
    (htodo : w.todo = []) (hslots : w.slots = m.slots) :
    ∃ outcomes w₁ w₂,
      outcomes.filterMap Except.toOption =
        checkpoint.changes.filterMap (decodingOf layouts decoders source checkpoint) ∧
      step w (.apply outcomes (collect checkpoint).removed) = some w₁ ∧ Writes w₁ w₂ ∧
      w₂.read = none ∧ w₂.todo = [] ∧ w₂.callers = w.callers ∧
      w₂.slots = (applyCheckpoint layouts decoders m source checkpoint).2.1.slots := by
  obtain ⟨p, outcomes, source', hsame, houtcomes, happly⟩ :=
    applyCheckpoint_fresh layouts decoders source hfresh
  have hstart : step w (.apply outcomes (collect checkpoint).removed) =
      some { w with todo := tasks outcomes (collect checkpoint).removed } := by
    simp only [step, hidle, htodo]
  have hpublished := writes_publishAll
    (w := { w with todo := tasks outcomes (collect checkpoint).removed }) hidle rfl
  obtain ⟨w₂, hremoved, hread, htodo', hcallers, hslots'⟩ := writes_removeAll
    (w := { w with
      slots := (outcomes.filterMap Except.toOption).foldl publishInto w.slots
      todo := (collect checkpoint).removed.map .remove }) hidle rfl
  refine ⟨outcomes, _, w₂, houtcomes, hstart, hpublished.trans hremoved, hread, htodo', hcallers,
    Finmap.ext_lookup fun id => ?_⟩
  rw [happly, (finish_spec p _ _ _).1, hsame.slots, ← hslots]
  exact hslots' id

/-- What a call of `install_ticks` comes to. -/
def returned (id : ObjectId) : Except StateError (Ticks × Option SizeSkew) → Caller
  | .ok (ticks, skew) => .installed id ticks skew
  | .error e => .failed e

/-- The update finds a slot when `set_ticks` does, and leaves the same slots. -/
theorem attach_setTicks {m : StateManager} {w : World} (id : ObjectId) (ticks : Ticks)
    (hslots : w.slots = m.slots) :
    (attach w id ticks).isSome = (m.setTicks id ticks).2 ∧
      ((attach w id ticks).getD w).slots = (m.setTicks id ticks).1.slots := by
  simp only [attach, StateManager.setTicks, hslots]
  cases m.slots.lookup id with
  | none => exact ⟨rfl, hslots⟩
  | some slot => exact ⟨rfl, rfl⟩

/-- A call of `set_ticks` on its own. -/
theorem set_alone {m : StateManager} {w : World} {call : ℕ} (id : ObjectId) (ticks : Ticks)
    (hidle : w.callers call = .idle) (hslots : w.slots = m.slots) :
    ∃ w', runAll step w [.set call id ticks, .resume call] = some w' ∧
      w'.slots = (m.setTicks id ticks).1.slots ∧
      w'.callers call = .set id ticks (m.setTicks id ticks).2 := by
  have hset : step w (.set call id ticks) = some (w.goto call (.setting id ticks)) := by
    simp only [step, hidle]
  obtain ⟨hfound, hattached⟩ := attach_setTicks
    (w := w.goto call (.setting id ticks)) id ticks hslots
  have hcaller : (w.goto call (.setting id ticks)).callers call = .setting id ticks :=
    goto_self ..
  generalize w.goto call (.setting id ticks) = w₁ at hset hfound hattached hcaller
  have hresume : step w₁ (.resume call) = some (((attach w₁ id ticks).getD w₁).goto call
      (.set id ticks (attach w₁ id ticks).isSome)) := by
    simp only [step, resume, hcaller]
    cases attach w₁ id ticks with
    | none => rfl
    | some attached => rfl
  refine ⟨_, (runAll_of_step hset).trans (runAll_of_step hresume), hattached, ?_⟩
  rw [← hfound]
  exact Function.update_self ..

theorem installTicks_built {m : StateManager} {id : ObjectId} {head : SkipListHead}
    {nodes : List TickNode} {ticks : Ticks} {skew : Option SizeSkew}
    (hbuilt : Ticks.fromChildren (some head.nodeUid) head.size nodes = .ok (ticks, skew)) :
    m.installTicks id head nodes =
      match checkSpacing m.slots id ticks with
      | .error e => (.error (.tick e), m)
      | .ok () =>
        if (m.setTicks id ticks).2 then (.ok (ticks, skew), (m.setTicks id ticks).1)
        else (.error (.unknownVenue id), (m.setTicks id ticks).1) := by
  simp only [StateManager.installTicks, hbuilt]
  rfl

/-- A call of `install_ticks` on its own. -/
theorem install_alone {m : StateManager} {w : World} {call : ℕ} (id : ObjectId)
    (head : SkipListHead) (nodes : List TickNode) (hidle : w.callers call = .idle)
    (hslots : w.slots = m.slots) :
    ∃ n w', runAll step w (.install call id head nodes :: List.replicate n (.resume call)) =
        some w' ∧
      w'.slots = (m.installTicks id head nodes).2.slots ∧
      w'.callers call = returned id (m.installTicks id head nodes).1 := by
  cases hbuilt : Ticks.fromChildren (some head.nodeUid) head.size nodes with
  | error e =>
    have hinstall : step w (.install call id head nodes) =
        some (w.goto call (.failed (.tick e))) := by
      simp only [step, hidle, hbuilt]
    refine ⟨0, _, runAll_of_step hinstall, ?_, ?_⟩
    · simp only [StateManager.installTicks, hbuilt]
      exact hslots
    · simp only [StateManager.installTicks, hbuilt]
      exact Function.update_self ..
  | ok built =>
    obtain ⟨ticks, skew⟩ := built
    have hinstall : step w (.install call id head nodes) =
        some (w.goto call (.checking id ticks skew)) := by
      simp only [step, hidle, hbuilt]
    rw [installTicks_built hbuilt]
    have hcaller : (w.goto call (.checking id ticks skew)).callers call =
        .checking id ticks skew := goto_self ..
    have hslots₁ : (w.goto call (.checking id ticks skew)).slots = m.slots := hslots
    generalize w.goto call (.checking id ticks skew) = w₁ at hinstall hcaller hslots₁
    cases hspaced : checkSpacing m.slots id ticks with
    | error e =>
      have hcheck : step w₁ (.resume call) = some (w₁.goto call (.failed (.tick e))) := by
        simp only [step, resume, hcaller, hslots₁, hspaced]
      exact ⟨1, _, (runAll_of_step hinstall).trans (runAll_of_step hcheck), hslots₁,
        Function.update_self ..⟩
    | ok _ =>
      have hcheck : step w₁ (.resume call) = some (w₁.goto call (.installing id ticks skew)) := by
        simp only [step, resume, hcaller, hslots₁, hspaced]
      have hcaller₂ : (w₁.goto call (.installing id ticks skew)).callers call =
          .installing id ticks skew := goto_self ..
      obtain ⟨hfound, hattached⟩ := attach_setTicks
        (w := w₁.goto call (.installing id ticks skew)) id ticks hslots₁
      generalize w₁.goto call (.installing id ticks skew) = w₂ at hcheck hcaller₂ hfound hattached
      have hresume : step w₂ (.resume call) = some (((attach w₂ id ticks).getD w₂).goto call
          (if (attach w₂ id ticks).isSome then .installed id ticks skew
            else .failed (.unknownVenue id))) := by
        simp only [step, resume, hcaller₂]
        cases attach w₂ id ticks with
        | none => rfl
        | some attached => rfl
      refine ⟨2, _, ((runAll_of_step hinstall).trans (runAll_of_step hcheck)).trans
        (runAll_of_step hresume), ?_, ?_⟩
      · refine hattached.trans ?_
        dsimp only
        split
        · rfl
        · rfl
      · refine (Function.update_self ..).trans ?_
        rw [hfound]
        dsimp only
        split
        · rfl
        · rfl

/-! ### Samples -/

section sample

/-- Pool 7 trades. -/
def traded : Checkpoint := ⟨2, [⟨[⟨7, some 5⟩]⟩], ⟨[poolAt 5], List.pairwise_singleton ..⟩⟩

def applying (checkpoint : Checkpoint) : Action :=
  .apply ((checkpoint.changes.filterMap
    (decodingOf poolLayouts poolDecoders () checkpoint)).map .ok) (collect checkpoint).removed

/-- Pool 7 is published, and a call has built an index for it. -/
def prepared : List Action :=
  [applying opening, .write, .write, .install 0 7 emptyPool.ticks TickBook.twoPositions]

/-- Without a call's operation every run is quiet. -/
theorem run_quiet {w w' : World} {actions : List Action} (h : QuietRun w)
    (hunresumed : ∀ call, .resume call ∉ actions) (hrun : runAll step w actions = some w') :
    QuietRun w' := by
  refine runAll_preserves hrun (fun action hmem w₁ w₂ hquiet hstep => ?_) h
  refine .step action hquiet ?_ hstep
  cases action with
  | resume call => exact absurd hmem (hunresumed call)
  | _ => trivial

/-- So is a run that goes on with a call's operation while the writer holds nothing. -/
theorem run_quiet_idle {w : World} {call : ℕ} {before after : List Action}
    (hbefore : ∀ w₁, runAll step World.start before = some w₁ → QuietRun w₁ ∧ w₁.read = none)
    (hunresumed : ∀ call, .resume call ∉ after)
    (hrun : runAll step World.start (before ++ .resume call :: after) = some w) : QuietRun w := by
  rw [runAll_append] at hrun
  obtain ⟨w₁, hrun₁, hrun⟩ := Option.bind_eq_some_iff.mp hrun
  obtain ⟨w₂, hstep, hrest⟩ := runAll_cons_iff.mp hrun
  obtain ⟨hquiet, hidle⟩ := hbefore w₁ hrun₁
  refine run_quiet (.step (.resume call) hquiet ?_ hstep) hunresumed hrest
  intro object carried ticks hread
  rw [hidle] at hread
  cases hread

def idles (actions : List Action) : Bool :=
  (runAll step World.start actions).all fun w => w.read.isNone

theorem read_of_idles {actions : List Action} (h : idles actions = true) {w : World}
    (hrun : runAll step World.start actions = some w) : w.read = none := by
  rw [idles, hrun] at h
  exact Option.isNone_iff_eq_none.mp h

/-- An index installed between two checkpoints is carried by the second. -/
theorem installed_kept_traded :
    ∃ w ticks slot, runAll step World.start
        (prepared ++ [.resume 0] ++ [.resume 0, applying traded, .write, .write]) = some w ∧
      w.installed 7 = some ticks ∧ w.slots.lookup 7 = some slot ∧ slot.ticks = some ticks := by
  have hinstalls : (runAll step World.start
      (prepared ++ [.resume 0] ++ [.resume 0, applying traded, .write, .write])).any (fun w =>
        (w.installed 7).isSome) = true := by
    decide +kernel
  obtain ⟨w, hrun, hinstalls⟩ := (Option.any_eq_true _ _).mp hinstalls
  obtain ⟨ticks, hticks⟩ := Option.isSome_iff_exists.mp hinstalls
  have hprepared : ∀ w₁, runAll step World.start prepared = some w₁ →
      QuietRun w₁ ∧ w₁.read = none :=
    fun w₁ hrun₁ => ⟨run_quiet .start (by simp [prepared, applying]) hrun₁,
      read_of_idles (by decide +kernel) hrun₁⟩
  have hchecked : ∀ w₁, runAll step World.start (prepared ++ [.resume 0]) = some w₁ →
      QuietRun w₁ ∧ w₁.read = none :=
    fun w₁ hrun₁ => ⟨run_quiet_idle hprepared (by simp) hrun₁,
      read_of_idles (by decide +kernel) hrun₁⟩
  have hquiet := run_quiet_idle hchecked (by simp [applying]) hrun
  obtain ⟨slot, hslot, hkept⟩ := installed_kept hquiet hticks
  exact ⟨w, ticks, slot, hrun, hticks, hslot, hkept⟩

/-- An index installed between the read and the upsert of a publication is lost. -/
theorem install_lost :
    ∃ w ticks skew slot, runAll step World.start
        (prepared ++ [.resume 0, applying traded, .write, .resume 0, .write]) = some w ∧
      w.callers 0 = .installed 7 ticks skew ∧ w.installed 7 = some ticks ∧
      w.slots.lookup 7 = some slot ∧ slot.ticks = none := by
  have hlost : (Ticks.fromChildren (some 9) 0 TickBook.twoPositions).toOption.any (fun built =>
      (runAll step World.start
        (prepared ++ [.resume 0, applying traded, .write, .resume 0, .write])).any fun w =>
          w.callers 0 = .installed 7 built.1 built.2 ∧ w.installed 7 = some built.1 ∧
          (w.slots.lookup 7).map VenueSlot.ticks = some none) = true := by
    decide +kernel
  obtain ⟨built, _, hlost⟩ := (Option.any_eq_true _ _).mp hlost
  obtain ⟨w, hrun, hlost⟩ := (Option.any_eq_true _ _).mp hlost
  obtain ⟨hcaller, hinstalled, hlookup⟩ := of_decide_eq_true hlost
  obtain ⟨slot, hslot, hticks⟩ := Option.map_eq_some_iff.mp hlookup
  exact ⟨w, built.1, built.2, slot, hrun, hcaller, hinstalled, hslot, hticks⟩

end sample

end TickRace
