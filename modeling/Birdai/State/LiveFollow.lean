import Birdai.State.Accounting
import Birdai.State.CapturedRuns
import Birdai.Tick.PagedNodes

/-!
# Following the chain

The loop that applies a stream of checkpoints and loads the ticks of the pools it has
none for. The ticks are beside the state layer: leave them out and what remains is the
stream applied on its own.
-/

namespace LiveFollow

open WideArith Outcomes KeyedFolds TickIndex MoveTypes CetusPool AnyVenues Manager PhaseSpecs
open Accounting FieldVisitor PagedNodes CapturedRuns

/-! ### Leaving the ticks out -/

def bare (slot : VenueSlot) : VenueSlot := { slot with ticks := none }

/-- The manager as if no ticks were ever installed. -/
def withoutTicks (m : StateManager) : StateManager := { m with slots := mapCells bare m.slots }

def bareProgress (p : Progress) : Progress := { p with manager := withoutTicks p.manager }

theorem lookup_withoutTicks (m : StateManager) (id : ObjectId) :
    (withoutTicks m).slots.lookup id = (m.slots.lookup id).map bare :=
  lookup_mapCells bare m.slots id

theorem nodeUidOf_withoutTicks (m : StateManager) (id : ObjectId) :
    (withoutTicks m).nodeUidOf id = m.nodeUidOf id := by
  rw [StateManager.nodeUidOf, StateManager.nodeUidOf, lookup_withoutTicks]
  cases m.slots.lookup id with
  | none => rfl
  | some slot => rfl

theorem pricedParents_withoutTicks (m : StateManager) :
    pricedParents (withoutTicks m) = pricedParents m := by
  simp only [pricedParents, nodeUidOf_withoutTicks]
  rw [withoutTicks, keys_mapCells]

theorem publish_bare (p : Progress) (outcome : Except StateError Decoded) :
    (bareProgress p).publish outcome = bareProgress (p.publish outcome) := by
  cases outcome with
  | error e =>
    cases e with
    | venue error => cases error <;> rfl
    | _ => rfl
  | ok object =>
    have hlookup := lookup_withoutTicks p.manager object.id
    have hversion : ((bareProgress p).manager.slots.lookup object.id).map VenueSlot.version =
        (p.manager.slots.lookup object.id).map VenueSlot.version := by
      rw [bareProgress, hlookup, Option.map_map]
      rfl
    simp only [Progress.publish, hversion]
    cases shouldPublish object.id ((p.manager.slots.lookup object.id).map VenueSlot.version)
        object.version with
    | error e => rfl
    | ok publish =>
      cases publish with
      | false => rfl
      | true =>
        simp only [bareProgress, hlookup, Option.isNone_map]
        cases p.manager.slots.lookup object.id with
        | none => simp [withoutTicks, mapCells_insert, bare]
        | some slot => simp [withoutTicks, mapCells_insert, bare]

theorem remove_bare (p : Progress) (id : ObjectId) :
    (bareProgress p).remove id = bareProgress (p.remove id) := by
  have hslot : (bareProgress p).removeSlot id = bareProgress (p.removeSlot id) := by
    have hlookup := lookup_withoutTicks p.manager id
    simp only [Progress.removeSlot, bareProgress, hlookup]
    cases p.manager.slots.lookup id with
    | none => rfl
    | some slot => simp [withoutTicks, mapCells_erase, bare]
  rw [Progress.remove, hslot, Progress.remove]
  generalize p.removeSlot id = removed
  simp only [Progress.removeChild, bareProgress, withoutTicks]
  cases removed.manager.childOwners.lookup id with
  | none => rfl
  | some parent => rfl

theorem foldl_bare {α : Type} {step : Progress → α → Progress}
    (hstep : ∀ p a, step (bareProgress p) a = bareProgress (step p a)) (steps : List α)
    (p : Progress) : steps.foldl step (bareProgress p) = bareProgress (steps.foldl step p) := by
  induction steps generalizing p with
  | nil => rfl
  | cons a rest ih => rw [List.foldl_cons, List.foldl_cons, hstep, ih]

theorem indexChildren_bare (p : Progress) (childParents : List (ObjectId × ObjectId)) :
    (bareProgress p).indexChildren childParents = bareProgress (p.indexChildren childParents) := by
  unfold Progress.indexChildren
  split
  · rfl
  · have hpriced := pricedParents_withoutTicks p.manager
    simp only [bareProgress, hpriced]
    refine foldl_bare (fun q group => ?_) _ p
    simp only [Progress.indexGroup]
    split
    · rfl
    · rfl

theorem finish_bare (p : Progress) (sequence : U64) (found : Collected)
    (decoded : List (Except StateError Decoded)) :
    finish (bareProgress p) sequence found decoded =
      bareProgress (finish p sequence found decoded) := by
  simp only [finish]
  rw [foldl_bare publish_bare, foldl_bare remove_bare, indexChildren_bare]
  rfl

section apply
variable {ε σ : Type} (layouts : LayoutSource ε σ) (decoders : Decoders)

/-- The ticks change nothing that a checkpoint does, and it reports nothing about them. -/
theorem applyCheckpoint_withoutTicks (m : StateManager) (source : σ) (checkpoint : Checkpoint) :
    applyCheckpoint layouts decoders (withoutTicks m) source checkpoint =
      ((applyCheckpoint layouts decoders m source checkpoint).1,
        withoutTicks (applyCheckpoint layouts decoders m source checkpoint).2.1,
        (applyCheckpoint layouts decoders m source checkpoint).2.2) := by
  have hskips : (withoutTicks m).skips checkpoint = m.skips checkpoint := rfl
  simp only [applyCheckpoint, hskips]
  split
  · rfl
  · have hobserved : observePackages layouts (withoutTicks m) source checkpoint =
        (bareProgress (observePackages layouts m source checkpoint).1,
          (observePackages layouts m source checkpoint).2) := by
      simp only [observePackages]
      split
      · rfl
      · rfl
    rw [hobserved]
    generalize observePackages layouts m source checkpoint = observing
    obtain ⟨p, source⟩ := observing
    dsimp only
    rw [typeObjects_counts, typeObjects_counts]
    dsimp only
    have hfail : ∀ (q : Progress) (count : ℕ),
        (bareProgress q).fail count = bareProgress (q.fail count) := fun _ _ => rfl
    have hexamined : ∀ (q : Progress) (report : UpdateReport),
        ({ bareProgress q with report } : Progress) = bareProgress { q with report } :=
      fun _ _ => rfl
    have hreport : ∀ q : Progress, (bareProgress q).report = q.report := fun _ => rfl
    simp only [hreport, hexamined, hfail, finish_bare]
    rfl

end apply

/-! ### The stream -/

/-- A checkpoint off the stream, with what the full node answers while the ticks of a venue
are loaded after it, and what these loads leave of the source of the layouts. -/
structure Envelope (ε σ τ : Type) where
  checkpoint : Checkpoint
  node : ObjectId → ObjectSource ε τ
  layout : ObjectId → StructTag → Except ε MoveTypeLayout
  warmed : σ → σ

/-- Every tracked venue, by id. -/
def venues (m : StateManager) : List VenueSlot := OrderedKeys.values m.slots

section stream
variable {ε σ τ : Type} (framework : Framework) (layouts : LayoutSource ε σ) (decoders : Decoders)

/-- Load the ticks of a pool that has none. A failure is reported and left at that. -/
def loadTicks (e : Envelope ε σ τ) (m : StateManager) (slot : VenueSlot) : StateManager :=
  if slot.ticks.isSome then m
  else
    match slot.venue with
    | .cetus pool =>
      match loadTickNodes framework (e.node slot.id) (e.layout slot.id) pool.ticks with
      | .ok nodes => (m.installTicks slot.id pool.ticks nodes).2
      | .error _ => m
    | _ => m

def loadMissing (e : Envelope ε σ τ) (m : StateManager) : StateManager :=
  (venues m).foldl (loadTicks framework e) m

/-- One turn of the loop, with what follows a checkpoint that updated a venue. -/
def turn (load : Envelope ε σ τ → StateManager → StateManager) (f : Following σ)
    (e : Envelope ε σ τ) : Except StateError (Following σ) := do
  let (report, manager, source) :=
    applyCheckpoint layouts decoders f.manager f.source e.checkpoint
  let report ← report
  if 0 < report.venuesUpdated then
    .ok ⟨load e manager, e.warmed source, f.applied + 1, f.seen + 1⟩
  else .ok ⟨manager, source, f.applied, f.seen + 1⟩

/-- The loop ends with the stream, or with the checkpoint that makes `count` of them with
venues. -/
def followWith (load : Envelope ε σ τ → StateManager → StateManager) (count : ℕ)
    (f : Following σ) : List (Envelope ε σ τ) → Except StateError (Following σ)
  | [] => .ok f
  | e :: rest => do
    let f ← turn layouts decoders load f e
    if count ≤ f.applied then .ok f else followWith load count f rest

/-- `follow`, up to what it prints. -/
def follow (source : σ) (count : ℕ) (envelopes : List (Envelope ε σ τ)) :
    Except StateError (Following σ) :=
  followWith layouts decoders (loadMissing framework) count ⟨.new, source, 0, 0⟩ envelopes

/-! ### Ticks aside -/

def bareFollowing (f : Following σ) : Following σ := { f with manager := withoutTicks f.manager }

theorem bare_install (m : StateManager) (id : ObjectId) (head : SkipListHead)
    (nodes : List TickNode) :
    withoutTicks (m.installTicks id head nodes).2 = withoutTicks m := by
  have hset : ∀ ticks, withoutTicks (m.setTicks id ticks).1 = withoutTicks m := by
    intro ticks
    simp only [StateManager.setTicks]
    cases hslot : m.slots.lookup id with
    | none => rfl
    | some slot =>
      have hcell : (mapCells bare m.slots).lookup id =
          some (bare { slot with ticks := some ticks }) := by
        rw [lookup_mapCells, hslot, Option.map_some]
        rfl
      simp only [withoutTicks, mapCells_insert, insert_held hcell]
  unfold StateManager.installTicks
  split
  · rfl
  · dsimp only
    split
    · rfl
    · split
      · exact hset _
      · exact hset _

theorem bare_loadMissing (e : Envelope ε σ τ) (m : StateManager) :
    withoutTicks (loadMissing framework e m) = withoutTicks m := by
  have hload : ∀ (m : StateManager) (slot : VenueSlot),
      withoutTicks (loadTicks framework e m slot) = withoutTicks m := by
    intro m slot
    unfold loadTicks
    split
    · rfl
    · split
      · split
        · exact bare_install m _ _ _
        · rfl
      · rfl
  have key : ∀ (slots : List VenueSlot) (m : StateManager),
      withoutTicks (slots.foldl (loadTicks framework e) m) = withoutTicks m := by
    intro slots
    induction slots with
    | nil => exact fun _ => rfl
    | cons slot rest ih => exact fun m => (ih _).trans (hload m slot)
  exact key (venues m) m

/-- The turns of the live loop and of a loop that installs no ticks do the same, the layout
source coming out of both as the loads leave it. -/
theorem turn_bare (f : Following σ) (e : Envelope ε σ τ) :
    (turn layouts decoders (loadMissing framework) f e).map bareFollowing =
      turn layouts decoders (fun _ m => m) (bareFollowing f) e := by
  obtain ⟨report, hreport⟩ := applyCheckpoint_ok layouts decoders f.manager f.source e.checkpoint
  have hbare : applyCheckpoint layouts decoders (bareFollowing f).manager
      (bareFollowing f).source e.checkpoint = _ :=
    applyCheckpoint_withoutTicks layouts decoders f.manager f.source e.checkpoint
  simp only [turn, hbare]
  generalize applyCheckpoint layouts decoders f.manager f.source e.checkpoint = applied at *
  obtain ⟨outcome, manager, source⟩ := applied
  obtain rfl : outcome = .ok report := hreport
  simp only [ok_bind]
  by_cases hvenues : 0 < report.venuesUpdated
  · simp only [if_pos hvenues, Except.map, bareFollowing, bare_loadMissing]
  · simp only [if_neg hvenues, Except.map, bareFollowing]

theorem turn_ok (load : Envelope ε σ τ → StateManager → StateManager) (f : Following σ)
    (e : Envelope ε σ τ) : ∃ g, turn layouts decoders load f e = .ok g := by
  obtain ⟨report, hreport⟩ := applyCheckpoint_ok layouts decoders f.manager f.source e.checkpoint
  simp only [turn]
  generalize applyCheckpoint layouts decoders f.manager f.source e.checkpoint = applied at *
  obtain ⟨outcome, manager, source⟩ := applied
  obtain rfl : outcome = .ok report := hreport
  simp only [ok_bind]
  split
  · exact ⟨_, rfl⟩
  · exact ⟨_, rfl⟩

theorem followWith_bare (count : ℕ) (f : Following σ) (envelopes : List (Envelope ε σ τ)) :
    (followWith layouts decoders (loadMissing framework) count f envelopes).map bareFollowing =
      followWith layouts decoders (fun _ m => m) count (bareFollowing f) envelopes := by
  induction envelopes generalizing f with
  | nil => rfl
  | cons e rest ih =>
    obtain ⟨g, hg⟩ := turn_ok layouts decoders (loadMissing framework) f e
    have hbare := turn_bare framework layouts decoders f e
    rw [hg] at hbare
    have happlied : (bareFollowing g).applied = g.applied := rfl
    rw [followWith, followWith, hg, ← hbare, ok_bind]
    change _ = if count ≤ (bareFollowing g).applied then _ else _
    rw [happlied]
    split
    · rfl
    · exact ih g

/-- The live loop never fails. -/
theorem follow_ok (source : σ) (count : ℕ) (envelopes : List (Envelope ε σ τ)) :
    ∃ f, follow framework layouts decoders source count envelopes = .ok f := by
  rw [follow]
  generalize (⟨.new, source, 0, 0⟩ : Following σ) = f
  induction envelopes generalizing f with
  | nil => exact ⟨f, rfl⟩
  | cons e rest ih =>
    obtain ⟨g, hg⟩ := turn_ok layouts decoders (loadMissing framework) f e
    rw [followWith, hg, ok_bind]
    split
    · exact ⟨g, rfl⟩
    · exact ih g

/-- A slot was there before or was published just now, with the ticks held before. -/
def Carried (m : StateManager) (p : Progress) : Prop :=
  ∀ id slot, p.manager.slots.lookup id = some slot → m.slots.lookup id = some slot ∨
    0 < p.report.venuesUpdated ∧ slot.id = id ∧
      (slot.ticks = none ∨ ∃ held, m.slots.lookup id = some held ∧ slot.ticks = held.ticks)

theorem carried_publish {m : StateManager} {p : Progress} (h : Carried m p)
    (outcome : Except StateError Decoded) : Carried m (p.publish outcome) := by
  cases outcome with
  | error e =>
    cases e with
    | venue error => cases error <;> exact h
    | _ => exact h
  | ok object =>
    simp only [Progress.publish]
    cases shouldPublish object.id ((p.manager.slots.lookup object.id).map VenueSlot.version)
        object.version with
    | error e => exact h
    | ok publish =>
      cases publish with
      | false => exact h
      | true =>
        have hheld := h object.id
        have hslots : ∀ (slot : VenueSlot) (updated : ℕ), slot.id = object.id →
            slot.ticks = (p.manager.slots.lookup object.id).bind VenueSlot.ticks →
            updated = p.report.venuesUpdated + 1 → ∀ id found,
              (p.manager.slots.insert object.id slot).lookup id = some found →
              m.slots.lookup id = some found ∨ 0 < updated ∧ found.id = id ∧
                (found.ticks = none ∨
                  ∃ held, m.slots.lookup id = some held ∧ found.ticks = held.ticks) := by
          intro slot updated hid hticks hupdated id found hfound
          by_cases hsame : id = object.id
          · subst hsame
            rw [Finmap.lookup_insert, Option.some.injEq] at hfound
            subst hfound
            refine .inr ⟨by omega, hid, ?_⟩
            cases hbefore : p.manager.slots.lookup object.id with
            | none => exact .inl (by rw [hticks, hbefore]; rfl)
            | some before =>
              have hcarried : slot.ticks = before.ticks := by rw [hticks, hbefore]; rfl
              rcases hheld before hbefore with hold | ⟨_, _, hnone | ⟨held, hlookup, hsame⟩⟩
              · exact .inr ⟨before, hold, hcarried⟩
              · exact .inl (hcarried.trans hnone)
              · exact .inr ⟨held, hlookup, hcarried.trans hsame⟩
          · rw [Finmap.lookup_insert_of_ne _ hsame] at hfound
            rcases h id found hfound with hkept | ⟨_, hrest⟩
            · exact .inl hkept
            · exact .inr ⟨by omega, hrest⟩
        dsimp only
        split
        · exact hslots _ _ rfl rfl rfl
        · exact hslots _ _ rfl rfl rfl

theorem carried_of_slots {m : StateManager} {p q : Progress} (h : Carried m p)
    (hslots : ∀ id slot, q.manager.slots.lookup id = some slot →
      p.manager.slots.lookup id = some slot)
    (hreport : q.report.venuesUpdated = p.report.venuesUpdated) : Carried m q := by
  intro id slot hslot
  rw [hreport]
  exact h id slot (hslots id slot hslot)

theorem carried_remove {m : StateManager} {p : Progress} (h : Carried m p) (id : ObjectId) :
    Carried m (p.remove id) := by
  refine carried_of_slots h (fun key slot hslot => ?_) ?_
  · rw [(remove_spec p id).1 key] at hslot
    split at hslot
    · cases hslot
    · exact hslot
  · have hslot : (p.removeSlot id).report.venuesUpdated = p.report.venuesUpdated := by
      unfold Progress.removeSlot
      split
      · rfl
      · rfl
    rw [← hslot, Progress.remove]
    unfold Progress.removeChild
    split
    · rfl
    · rfl

theorem carried_indexChildren {m : StateManager} {p : Progress} (h : Carried m p)
    (childParents : List (ObjectId × ObjectId)) : Carried m (p.indexChildren childParents) := by
  refine carried_of_slots h (fun key slot hslot => ?_) ?_
  · rwa [(indexChildren_spec p childParents).1] at hslot
  · unfold Progress.indexChildren
    split
    · rfl
    · refine foldl_preserves (I := fun q : Progress =>
        q.report.venuesUpdated = p.report.venuesUpdated) (fun q group hq => ?_) _ rfl
      rw [← hq]
      simp only [Progress.indexGroup]
      split
      · rfl
      · rfl

/-- What a checkpoint leaves of the slots, by its report. -/
theorem applyCheckpoint_carried (m : StateManager) (source : σ) (checkpoint : Checkpoint)
    {report : UpdateReport}
    (hreport : (applyCheckpoint layouts decoders m source checkpoint).1 = .ok report) :
    Carried m ⟨(applyCheckpoint layouts decoders m source checkpoint).2.1, report⟩ := by
  cases hskips : m.skips checkpoint with
  | true =>
    rw [Replay.applyCheckpoint_skipped layouts decoders source hskips]
    exact fun _ _ hslot => .inl hslot
  | false =>
    obtain ⟨p, outcomes, source', hsame, -, happly⟩ :=
      applyCheckpoint_fresh layouts decoders source hskips
    rw [happly] at hreport ⊢
    obtain rfl := Except.ok.inj hreport
    have hstart : Carried m p := fun id slot hslot => .inl (hsame.slots ▸ hslot)
    have hpublished := foldl_preserves (I := Carried m)
      (fun q outcome hq => carried_publish hq outcome) outcomes hstart
    have hremoved := foldl_preserves (I := Carried m)
      (fun q id hq => carried_remove hq id) (collect checkpoint).removed hpublished
    exact carried_indexChildren hremoved (collect checkpoint).childParents

/-! ### What loading leaves of the slots -/

inductive TicksError (ε : Type) where
  | load (error : LoadError ε)
  | tick (error : TickError)

/-- The ticks of a pool as one load gives them, checked and on its grid. -/
def loaded (e : Envelope ε σ τ) (id : ObjectId) (pool : CetusClmm) :
    Except (TicksError ε) Ticks := do
  let nodes ← (loadTickNodes framework (e.node id) (e.layout id) pool.ticks).mapError .load
  let (ticks, _) ← (Ticks.fromChildren (some pool.ticks.nodeUid) pool.ticks.size nodes).mapError
    .tick
  (ticks.validateSpacing pool.tickSpacing).mapError .tick
  .ok ticks

/-- A slot after the loads: ticks it had stay, ticks it lacked are loaded if that succeeds. -/
def stocked (e : Envelope ε σ τ) (slot : VenueSlot) : VenueSlot :=
  match slot.ticks, slot.venue with
  | none, .cetus pool => { slot with ticks := (loaded framework e slot.id pool).toOption }
  | _, _ => slot

theorem stocked_keeps (e : Envelope ε σ τ) (slot : VenueSlot) :
    (stocked framework e slot).id = slot.id ∧ (stocked framework e slot).venue = slot.venue := by
  unfold stocked
  split
  · exact ⟨rfl, rfl⟩
  · exact ⟨rfl, rfl⟩

theorem stocked_bare (e : Envelope ε σ τ) {slot : VenueSlot} {pool : CetusClmm}
    (hbare : slot.ticks = none) (hvenue : slot.venue = .cetus pool) :
    (stocked framework e slot).ticks = (loaded framework e slot.id pool).toOption := by
  simp only [stocked, hbare, hvenue]

/-- Ticks after the loads were there before or have just been loaded. -/
theorem stocked_ticks (e : Envelope ε σ τ) {slot : VenueSlot} {ticks : Ticks}
    (h : (stocked framework e slot).ticks = some ticks) : slot.ticks = some ticks ∨
      ∃ pool, loaded framework e slot.id pool = .ok ticks := by
  unfold stocked at h
  split at h
  · rename_i pool _ _
    dsimp only at h
    cases hloaded : loaded framework e slot.id pool with
    | error error =>
      rw [hloaded] at h
      cases h
    | ok built =>
      rw [hloaded] at h
      cases h
      exact .inr ⟨pool, hloaded⟩
  · exact .inl h

/-- Every slot is kept under its own id. -/
def Keyed (m : StateManager) : Prop := ∀ id slot, m.slots.lookup id = some slot → slot.id = id

/-- A load changes the slot it is for, whether or not it succeeds. -/
theorem loadTicks_lookup (e : Envelope ε σ τ) {m : StateManager} {slot : VenueSlot}
    (hslot : m.slots.lookup slot.id = some slot) (k : ObjectId) :
    (loadTicks framework e m slot).slots.lookup k =
      if slot.id = k then some (stocked framework e slot) else m.slots.lookup k := by
  have hkept : m.slots.lookup k = if slot.id = k then some slot else m.slots.lookup k := by
    split
    · rename_i hk
      rw [← hk, hslot]
    · rfl
  obtain ⟨id, version, tag, kind, venue, layout, ticks⟩ := slot
  dsimp only at hslot hkept ⊢
  cases ticks with
  | some ticks => exact hkept
  | none =>
    cases venue with
    | volo _ => exact hkept
    | navi _ => exact hkept
    | cetus pool =>
      simp only [loadTicks, stocked, loaded, Option.isSome_none, Bool.false_eq_true, ↓reduceIte]
      cases loadTickNodes framework (e.node id) (e.layout id) pool.ticks with
      | error error => exact hkept
      | ok nodes =>
        simp only [StateManager.installTicks, Except.mapError, ok_bind, hslot, Option.map_some]
        cases Ticks.fromChildren (some pool.ticks.nodeUid) pool.ticks.size nodes with
        | error error => exact hkept
        | ok built =>
          obtain ⟨ticks, skew⟩ := built
          simp only [ok_bind]
          cases ticks.validateSpacing pool.tickSpacing with
          | error error => exact hkept
          | ok _ =>
            simp only [StateManager.setTicks, hslot, ↓reduceIte]
            by_cases hk : id = k
            · subst hk
              rw [Finmap.lookup_insert, if_pos rfl]
              rfl
            · rw [Finmap.lookup_insert_of_ne _ (Ne.symm hk), if_neg hk]

theorem loadAll_lookup (e : Envelope ε σ τ) {slots : List VenueSlot}
    (hnodup : (slots.map VenueSlot.id).Nodup) {m : StateManager}
    (hheld : ∀ slot ∈ slots, m.slots.lookup slot.id = some slot) (k : ObjectId) :
    (slots.foldl (loadTicks framework e) m).slots.lookup k =
      if k ∈ slots.map VenueSlot.id then (m.slots.lookup k).map (stocked framework e)
      else m.slots.lookup k := by
  induction slots generalizing m with
  | nil => rfl
  | cons slot rest ih =>
    rw [List.map_cons, List.nodup_cons] at hnodup
    have hfirst := loadTicks_lookup framework e (hheld slot List.mem_cons_self)
    have hrest : ∀ other ∈ rest,
        (loadTicks framework e m slot).slots.lookup other.id = some other := by
      intro other hother
      have hne : slot.id ≠ other.id := fun hsame =>
        hnodup.1 (hsame ▸ List.mem_map_of_mem hother)
      rw [hfirst, if_neg hne]
      exact hheld other (List.mem_cons_of_mem _ hother)
    rw [List.foldl_cons, ih hnodup.2 hrest, hfirst, List.map_cons]
    by_cases hk : slot.id = k
    · subst hk
      rw [if_neg hnodup.1, if_pos rfl, if_pos List.mem_cons_self, hheld slot List.mem_cons_self]
      rfl
    · have hmem : k ∈ slot.id :: rest.map VenueSlot.id ↔ k ∈ rest.map VenueSlot.id := by
        simp [Ne.symm hk]
      simp only [if_neg hk, hmem]

/-- After the loads every slot is stocked. -/
theorem loadMissing_lookup (e : Envelope ε σ τ) {m : StateManager} (hkeyed : Keyed m)
    (k : ObjectId) : (loadMissing framework e m).slots.lookup k =
      (m.slots.lookup k).map (stocked framework e) := by
  have hids : (venues m).map VenueSlot.id = m.slots.keys.sort (· ≤ ·) := by
    rw [venues, OrderedKeys.values, List.map_filterMap]
    refine Eq.trans (List.filterMap_congr fun id hid => ?_) List.filterMap_some
    obtain ⟨slot, hslot⟩ := Finmap.mem_iff.mp
      (Finmap.mem_keys.mp ((Finset.mem_sort _).mp hid))
    rw [hslot, Option.map_some, hkeyed id slot hslot]
  have hheld : ∀ slot ∈ venues m, m.slots.lookup slot.id = some slot := by
    intro slot hslot
    obtain ⟨id, hlookup⟩ := OrderedKeys.mem_values.mp hslot
    rw [hkeyed id slot hlookup, hlookup]
  rw [loadMissing, loadAll_lookup framework e (hids ▸ Finset.sort_nodup _ _) hheld, hids]
  split
  · rfl
  · rename_i hnot
    rw [Finset.mem_sort, Finmap.mem_keys, ← Finmap.lookup_eq_none] at hnot
    rw [hnot]
    rfl

/-! ### Which pools have ticks -/

/-- The turns of the live loop that updated a venue. -/
def venueTurns (count : ℕ) (f : Following σ) :
    List (Envelope ε σ τ) → List (Envelope ε σ τ)
  | [] => []
  | e :: rest =>
    match turn layouts decoders (loadMissing framework) f e with
    | .error _ => []
    | .ok g =>
      let here := if f.applied < g.applied then [e] else []
      if count ≤ g.applied then here else here ++ venueTurns count g rest

/-- What the slots hold after these turns: ticks were loaded whole in one of them, and a
pool without ticks has been refused in the last. -/
structure Stocked (turns : List (Envelope ε σ τ)) (m : StateManager) : Prop where
  keyed : Keyed m
  sourced : ∀ id slot ticks, m.slots.lookup id = some slot → slot.ticks = some ticks →
    ∃ e ∈ turns, ∃ pool, loaded framework e id pool = .ok ticks
  missing : ∀ id slot pool, m.slots.lookup id = some slot → slot.venue = .cetus pool →
    slot.ticks = none →
      ∃ e error, turns.getLast? = some e ∧ loaded framework e id pool = .error error

variable {framework layouts decoders}

theorem stocked_turn {turns : List (Envelope ε σ τ)} {f g : Following σ} {e : Envelope ε σ τ}
    (h : Stocked framework turns f.manager)
    (hturn : turn layouts decoders (loadMissing framework) f e = .ok g) :
    Stocked framework (turns ++ if f.applied < g.applied then [e] else []) g.manager := by
  obtain ⟨report, hreport⟩ := applyCheckpoint_ok layouts decoders f.manager f.source e.checkpoint
  have hcarried := applyCheckpoint_carried layouts decoders f.manager f.source e.checkpoint hreport
  simp only [turn] at hturn
  generalize applyCheckpoint layouts decoders f.manager f.source e.checkpoint = applied at *
  obtain ⟨outcome, manager, source⟩ := applied
  obtain rfl : outcome = .ok report := hreport
  simp only [ok_bind] at hturn
  split at hturn
  · rename_i hvenues
    cases hturn
    have hkeyed : Keyed manager := by
      intro id slot hslot
      rcases hcarried id slot hslot with hold | ⟨_, hid, _⟩
      · exact h.keyed id slot hold
      · exact hid
    have hlookup := loadMissing_lookup framework e hkeyed
    have hlt : f.applied < f.applied + 1 := Nat.lt_succ_self _
    simp only [hlt, if_true]
    have hfrom : ∀ id slot, (loadMissing framework e manager).slots.lookup id = some slot →
        ∃ before, manager.slots.lookup id = some before ∧ slot = stocked framework e before := by
      intro id slot hslot
      rw [hlookup, Option.map_eq_some_iff] at hslot
      obtain ⟨before, hbefore, hsame⟩ := hslot
      exact ⟨before, hbefore, hsame.symm⟩
    refine ⟨fun id slot hslot => ?_, fun id slot ticks hslot hticks => ?_,
      fun id slot pool hslot hpool hnone => ?_⟩
    · obtain ⟨before, hbefore, rfl⟩ := hfrom id slot hslot
      exact (stocked_keeps framework e before).1.trans (hkeyed id before hbefore)
    · obtain ⟨before, hbefore, rfl⟩ := hfrom id slot hslot
      rcases stocked_ticks framework e hticks with hheld | ⟨pool, hloaded⟩
      · have hearlier : ∃ e' ∈ turns, ∃ pool, loaded framework e' id pool = .ok ticks := by
          rcases hcarried id before hbefore with hold | ⟨_, _, hnone | ⟨held, hlook, hsame⟩⟩
          · exact h.sourced id before ticks hold hheld
          · rw [hnone] at hheld
            cases hheld
          · exact h.sourced id held ticks hlook (hsame.symm.trans hheld)
        obtain ⟨e', he', hloaded⟩ := hearlier
        exact ⟨e', List.mem_append_left _ he', hloaded⟩
      · rw [hkeyed id before hbefore] at hloaded
        exact ⟨e, List.mem_append_right _ List.mem_cons_self, pool, hloaded⟩
    · obtain ⟨before, hbefore, rfl⟩ := hfrom id slot hslot
      rw [(stocked_keeps framework e before).2] at hpool
      have hbare : before.ticks = none := by
        cases hticks : before.ticks with
        | none => rfl
        | some ticks => simp [stocked, hticks] at hnone
      rw [stocked_bare framework e hbare hpool, hkeyed id before hbefore] at hnone
      cases hloaded : loaded framework e id pool with
      | error error => exact ⟨e, error, List.getLast?_concat, hloaded⟩
      | ok ticks =>
        rw [hloaded] at hnone
        cases hnone
  · rename_i hquiet
    cases hturn
    have hsame : ∀ id slot, manager.slots.lookup id = some slot →
        f.manager.slots.lookup id = some slot := by
      intro id slot hslot
      exact (hcarried id slot hslot).resolve_right fun hnew => hquiet hnew.1
    rw [if_neg (lt_irrefl _), List.append_nil]
    exact ⟨fun id slot hslot => h.keyed id slot (hsame id slot hslot),
      fun id slot ticks hslot => h.sourced id slot ticks (hsame id slot hslot),
      fun id slot pool hslot => h.missing id slot pool (hsame id slot hslot)⟩

theorem stocked_run {count : ℕ} {turns envelopes : List (Envelope ε σ τ)} {f g : Following σ}
    (h : Stocked framework turns f.manager)
    (hrun : followWith layouts decoders (loadMissing framework) count f envelopes = .ok g) :
    Stocked framework (turns ++ venueTurns framework layouts decoders count f envelopes)
      g.manager := by
  induction envelopes generalizing turns f with
  | nil =>
    cases hrun
    rw [venueTurns, List.append_nil]
    exact h
  | cons e rest ih =>
    rw [followWith] at hrun
    obtain ⟨next, hturn, hrun⟩ := bind_eq_ok_iff.mp hrun
    have hnext := stocked_turn h hturn
    simp only [venueTurns, hturn]
    split at hrun
    · rename_i hdone
      cases hrun
      rw [if_pos hdone]
      exact hnext
    · rename_i hmore
      rw [if_neg hmore, ← List.append_assoc]
      exact ih hnext hrun

theorem loaded_accepted {e : Envelope ε σ τ} {id : ObjectId} {pool : CetusClmm} {ticks : Ticks}
    (h : loaded framework e id pool = .ok ticks) : ticks.Accepted := by
  obtain ⟨nodes, _, h⟩ := bind_eq_ok_iff.mp h
  obtain ⟨⟨built, skew⟩, hbuilt, h⟩ := bind_eq_ok_iff.mp h
  obtain ⟨_, _, h⟩ := bind_eq_ok_iff.mp h
  cases h
  cases hfrom : Ticks.fromChildren (some pool.ticks.nodeUid) pool.ticks.size nodes with
  | error error =>
    rw [hfrom] at hbuilt
    cases hbuilt
  | ok built' =>
    rw [hfrom] at hbuilt
    cases hbuilt
    exact .inr ⟨_, _, _, _, hfrom⟩

variable (framework layouts decoders)

end stream

end LiveFollow
