import Birdai.State.OrderedFold
import Mathlib.Data.List.MinMax

/-!
# Runs over a list of checkpoints

Deliveries one after the other, some of them again. A checkpoint delivered before
is skipped whole, and between two removals of an id its slot only ever holds the
newest version decoded so far.
-/

namespace Replay

open WideArith TickIndex MoveTypes AnyVenues Manager KeyedFolds PhaseSpecs OrderedFold

section run
variable {ε σ : Type} (layouts : LayoutSource ε σ) (decoders : Decoders)

/-- The reports of a run, and what it leaves. -/
def run (m : StateManager) (source : σ) :
    List Checkpoint → List (Except StateError UpdateReport) × StateManager × σ
  | [] => ([], m, source)
  | checkpoint :: rest =>
    let (report, m, source) := applyCheckpoint layouts decoders m source checkpoint
    let (reports, last) := run m source rest
    (report :: reports, last)

/-- The checkpoints of a run that were not skipped, each with the layouts it saw. -/
def appliedIn (m : StateManager) (source : σ) : List Checkpoint → List (σ × Checkpoint)
  | [] => []
  | checkpoint :: rest =>
    let (_, next, later) := applyCheckpoint layouts decoders m source checkpoint
    if m.skips checkpoint then appliedIn next later rest
    else (source, checkpoint) :: appliedIn next later rest

theorem run_append (m : StateManager) (source : σ) (first second : List Checkpoint) :
    (run layouts decoders m source (first ++ second)).2 =
      (run layouts decoders (run layouts decoders m source first).2.1
        (run layouts decoders m source first).2.2 second).2 := by
  induction first generalizing m source with
  | nil => rfl
  | cons checkpoint rest ih => exact ih _ _

/-! ### Duplicate deliveries -/

theorem applyCheckpoint_skipped {m : StateManager} {checkpoint : Checkpoint} (source : σ)
    (h : m.skips checkpoint = true) : applyCheckpoint layouts decoders m source checkpoint =
      (.ok { checkpoint := checkpoint.sequenceNumber }, m, source) := by
  rw [applyCheckpoint, if_pos h]

theorem skips_iff {m : StateManager} {checkpoint : Checkpoint} :
    m.skips checkpoint = true ↔
      m.checkpoints ≠ 0 ∧ checkpoint.sequenceNumber ≤ m.lastApplied := by
  simp [StateManager.skips]

theorem applied_counts {m : StateManager} {checkpoint : Checkpoint} (source : σ)
    (hfresh : m.skips checkpoint = false) :
    (applyCheckpoint layouts decoders m source checkpoint).2.1.checkpoints = m.checkpoints + 1 ∧
      (applyCheckpoint layouts decoders m source checkpoint).2.1.lastApplied =
        checkpoint.sequenceNumber := by
  obtain ⟨p, outcomes, source', hsame, _, happly⟩ :=
    applyCheckpoint_fresh layouts decoders source hfresh
  obtain ⟨_, hcount, hlast, _⟩ := finish_spec p checkpoint.sequenceNumber (collect checkpoint)
    outcomes
  rw [happly]
  exact ⟨hcount.trans (congrArg (· + 1) hsame.checkpoints), hlast⟩

/-- A delivered checkpoint is a duplicate from then on. -/
theorem skips_delivered (m : StateManager) (source : σ) (checkpoint : Checkpoint) :
    (applyCheckpoint layouts decoders m source checkpoint).2.1.skips checkpoint = true := by
  cases hskips : m.skips checkpoint with
  | true => rwa [applyCheckpoint_skipped layouts decoders source hskips]
  | false =>
    obtain ⟨hcount, hlast⟩ := applied_counts layouts decoders source hskips
    refine skips_iff.mpr ⟨?_, hlast.ge⟩
    omega

theorem skips_kept {m : StateManager} {old : Checkpoint} (source : σ) (checkpoint : Checkpoint)
    (hold : m.skips old = true) :
    (applyCheckpoint layouts decoders m source checkpoint).2.1.skips old = true := by
  cases hskips : m.skips checkpoint with
  | true => rwa [applyCheckpoint_skipped layouts decoders source hskips]
  | false =>
    obtain ⟨hcount, hlast⟩ := applied_counts layouts decoders source hskips
    obtain ⟨hsome, hle⟩ := skips_iff.mp hold
    have hnewer : m.lastApplied < checkpoint.sequenceNumber := by
      by_contra hnot
      have hagain := skips_iff.mpr ⟨hsome, le_of_not_gt hnot⟩
      rw [hskips] at hagain
      cases hagain
    refine skips_iff.mpr ⟨?_, hlast ▸ hle.trans hnewer.le⟩
    omega

/-- A checkpoint on the stream, for the first time or again. -/
structure Delivery where
  checkpoint : Checkpoint
  again : Bool

/-- What is delivered again was delivered before. -/
def Redelivers : List Checkpoint → List Delivery → Prop
  | _, [] => True
  | seen, ⟨checkpoint, true⟩ :: rest => checkpoint ∈ seen ∧ Redelivers seen rest
  | seen, ⟨checkpoint, false⟩ :: rest => Redelivers (checkpoint :: seen) rest

/-- The stream without its repetitions. -/
def once : List Delivery → List Checkpoint
  | [] => []
  | ⟨_, true⟩ :: rest => once rest
  | ⟨checkpoint, false⟩ :: rest => checkpoint :: once rest

/-- The reports of the first deliveries. -/
def onceReports {ρ : Type} : List Delivery → List ρ → List ρ
  | ⟨_, true⟩ :: rest, _ :: reports => onceReports rest reports
  | ⟨_, false⟩ :: rest, report :: reports => report :: onceReports rest reports
  | _, _ => []

/-- Repetitions change neither what a run leaves nor the other reports. -/
theorem redelivery_invisible {seen : List Checkpoint} {deliveries : List Delivery}
    (h : Redelivers seen deliveries) {m : StateManager} (source : σ)
    (hseen : ∀ checkpoint ∈ seen, m.skips checkpoint = true) :
    (run layouts decoders m source (deliveries.map Delivery.checkpoint)).2 =
        (run layouts decoders m source (once deliveries)).2 ∧
      onceReports deliveries
          (run layouts decoders m source (deliveries.map Delivery.checkpoint)).1 =
        (run layouts decoders m source (once deliveries)).1 := by
  induction deliveries generalizing seen m source with
  | nil => exact ⟨rfl, rfl⟩
  | cons delivery rest ih =>
    obtain ⟨checkpoint, again⟩ := delivery
    cases again with
    | true =>
      obtain ⟨hmem, hrest⟩ := h
      have hskip := applyCheckpoint_skipped layouts decoders source (hseen checkpoint hmem)
      obtain ⟨hlast, hreports⟩ := ih hrest source hseen
      simp only [List.map_cons, run, hskip, onceReports, once]
      exact ⟨hlast, hreports⟩
    | false =>
      have hseen' : ∀ old ∈ checkpoint :: seen,
          (applyCheckpoint layouts decoders m source checkpoint).2.1.skips old = true := by
        intro old hold
        rcases List.mem_cons.mp hold with rfl | hold
        · exact skips_delivered layouts decoders m source old
        · exact skips_kept layouts decoders source checkpoint (hseen old hold)
      obtain ⟨hlast, hreports⟩ := ih h _ hseen'
      simp only [List.map_cons, run, onceReports, once]
      exact ⟨hlast, congrArg (_ :: ·) hreports⟩

/-! ### Versions -/

def versionIn (cell : Option VenueSlot) : WithBot U64 :=
  cell.elim ⊥ fun slot => slot.version

/-- The version tracked under an id, if one is. -/
def versionOf (m : StateManager) (id : ObjectId) : WithBot U64 := versionIn (m.slots.lookup id)

/-- The versions of an id that decode in a checkpoint. -/
def decodedVersions (id : ObjectId) (source : σ) (checkpoint : Checkpoint) : List U64 :=
  ((checkpoint.changes.filterMap (decodingOf layouts decoders source checkpoint)).filter
    fun object => object.id = id).map Decoded.version

/-- The versions of an id that decoded, in the order they were applied. -/
def versionsOf (id : ObjectId) (applied : List (σ × Checkpoint)) : List U64 :=
  applied.flatMap fun a => decodedVersions layouts decoders id a.1 a.2

theorem versionIn_publishCell (cell : Option VenueSlot) (object : Decoded) :
    versionIn (publishCell cell object) = max (versionIn cell) object.version := by
  simp only [publishCell]
  cases cell with
  | none => simp [versionIn]
  | some slot =>
    by_cases hnewer : slot.version < object.version
    · simp [versionIn, hnewer, hnewer.le]
    · simp [versionIn, hnewer, le_of_not_gt hnewer]

/-- Publishing keeps the greatest version. -/
theorem versionIn_publishAll (objects : List Decoded) (cell : Option VenueSlot) :
    versionIn (objects.foldl publishCell cell) =
      max (versionIn cell) (objects.map Decoded.version).maximum := by
  induction objects generalizing cell with
  | nil => simp
  | cons object rest ih =>
    rw [List.foldl_cons, ih, versionIn_publishCell, List.map_cons, List.maximum_cons, max_assoc]

theorem versionOf_applied {m : StateManager} {checkpoint : Checkpoint} (source : σ)
    (hfresh : m.skips checkpoint = false) (id : ObjectId) :
    versionOf (applyCheckpoint layouts decoders m source checkpoint).2.1 id =
      if id ∈ removedIds checkpoint then ⊥
      else max (versionOf m id)
        (decodedVersions layouts decoders id source checkpoint).maximum := by
  rw [versionOf, lookup_applied layouts decoders source hfresh, inBatches]
  simp only [any_isNone_iff, none_mem_events]
  change versionIn (if id ∈ removedIds checkpoint then _ else _) = _
  by_cases hremoved : id ∈ removedIds checkpoint
  · rw [if_pos hremoved, if_pos hremoved]
    rfl
  · rw [if_neg hremoved, if_neg hremoved, eventsOf, published_events, versionIn_publishAll]
    rfl

theorem appliedIn_skipped {m : StateManager} {checkpoint : Checkpoint} (source : σ)
    (h : m.skips checkpoint = true) (rest : List Checkpoint) :
    appliedIn layouts decoders m source (checkpoint :: rest) =
      appliedIn layouts decoders m source rest := by
  rw [appliedIn, applyCheckpoint_skipped layouts decoders source h]
  exact if_pos h

theorem appliedIn_fresh {m : StateManager} {checkpoint : Checkpoint} (source : σ)
    (h : m.skips checkpoint = false) (rest : List Checkpoint) :
    appliedIn layouts decoders m source (checkpoint :: rest) = (source, checkpoint) ::
      appliedIn layouts decoders (applyCheckpoint layouts decoders m source checkpoint).2.1
        (applyCheckpoint layouts decoders m source checkpoint).2.2 rest := by
  rw [appliedIn, h]
  rfl

/-- Over a stretch without removals the version is the newest decoded. -/
theorem versionOf_run {id : ObjectId} (stretch : List Checkpoint) (m : StateManager)
    (source : σ) (hkept : ∀ a ∈ appliedIn layouts decoders m source stretch,
      id ∉ removedIds a.2) :
    versionOf (run layouts decoders m source stretch).2.1 id =
      max (versionOf m id)
        (versionsOf layouts decoders id (appliedIn layouts decoders m source stretch)).maximum := by
  induction stretch generalizing m source with
  | nil => simp [run, appliedIn, versionsOf]
  | cons checkpoint rest ih =>
    change versionOf (run layouts decoders
      (applyCheckpoint layouts decoders m source checkpoint).2.1
      (applyCheckpoint layouts decoders m source checkpoint).2.2 rest).2.1 id = _
    cases hskips : m.skips checkpoint with
    | true =>
      rw [appliedIn_skipped layouts decoders source hskips] at hkept ⊢
      rw [applyCheckpoint_skipped layouts decoders source hskips]
      exact ih m source hkept
    | false =>
      rw [appliedIn_fresh layouts decoders source hskips] at hkept ⊢
      have hfirst := hkept _ List.mem_cons_self
      rw [ih _ _ fun a ha => hkept a (List.mem_cons_of_mem _ ha),
        versionOf_applied layouts decoders source hskips, if_neg hfirst, max_assoc,
        ← List.maximum_append]
      rfl

theorem appliedIn_append (first second : List Checkpoint) (m : StateManager) (source : σ) :
    appliedIn layouts decoders m source (first ++ second) =
      appliedIn layouts decoders m source first ++
        appliedIn layouts decoders (run layouts decoders m source first).2.1
          (run layouts decoders m source first).2.2 second := by
  induction first generalizing m source with
  | nil => rfl
  | cons checkpoint rest ih =>
    cases hskips : m.skips checkpoint with
    | true =>
      rw [List.cons_append, appliedIn_skipped layouts decoders source hskips,
        appliedIn_skipped layouts decoders source hskips, ih]
      simp only [run, applyCheckpoint_skipped layouts decoders source hskips]
    | false =>
      rw [List.cons_append, appliedIn_fresh layouts decoders source hskips,
        appliedIn_fresh layouts decoders source hskips, ih, List.cons_append]
      rfl

/-- A stretch for `id` starts with the run, or after an applied removal of `id`. -/
def Begins (m : StateManager) (source : σ) (id : ObjectId) (before : List Checkpoint) : Prop :=
  before = [] ∨ ∃ earlier checkpoint, before = earlier ++ [checkpoint] ∧
    (run layouts decoders m source earlier).2.1.skips checkpoint = false ∧
    id ∈ removedIds checkpoint

theorem versionOf_begins {m : StateManager} {source : σ} {id : ObjectId}
    {before : List Checkpoint} (hempty : m.slots.lookup id = none)
    (h : Begins layouts decoders m source id before) :
    versionOf (run layouts decoders m source before).2.1 id = ⊥ := by
  rcases h with rfl | ⟨earlier, checkpoint, rfl, hfresh, hremoved⟩
  · rw [versionOf, run, hempty]
    rfl
  · rw [run_append]
    exact (versionOf_applied layouts decoders _ hfresh id).trans (if_pos hremoved)

/-- Repetitions of delivered checkpoints change nothing, and over a stretch in which an
id is not removed its slot holds the newest version decoded so far. -/
theorem replay_monotone (childCapacity : ℕ) (source : σ) :
    (∀ deliveries, Redelivers [] deliveries →
      (run layouts decoders (StateManager.withChildCapacity childCapacity) source
          (deliveries.map Delivery.checkpoint)).2 =
        (run layouts decoders (StateManager.withChildCapacity childCapacity) source
          (once deliveries)).2 ∧
      onceReports deliveries (run layouts decoders
          (StateManager.withChildCapacity childCapacity) source
          (deliveries.map Delivery.checkpoint)).1 =
        (run layouts decoders (StateManager.withChildCapacity childCapacity) source
          (once deliveries)).1) ∧
    ∀ id before stretch,
      Begins layouts decoders (StateManager.withChildCapacity childCapacity) source id before →
      ∀ m now, (run layouts decoders (StateManager.withChildCapacity childCapacity) source
          before).2 = (m, now) →
      (∀ a ∈ appliedIn layouts decoders m now stretch, id ∉ removedIds a.2) →
      versionOf (run layouts decoders m now stretch).2.1 id =
          (versionsOf layouts decoders id (appliedIn layouts decoders m now stretch)).maximum ∧
        ∀ earlier later, stretch = earlier ++ later →
          versionOf (run layouts decoders m now earlier).2.1 id ≤
            versionOf (run layouts decoders m now stretch).2.1 id := by
  refine ⟨fun deliveries h => redelivery_invisible layouts decoders h source nofun, ?_⟩
  intro id before stretch hbegins m now hbefore hkept
  have hbottom : versionOf m id = ⊥ := by
    have h := versionOf_begins layouts decoders (Finmap.lookup_empty id) hbegins
    rwa [hbefore] at h
  constructor
  · rw [versionOf_run layouts decoders stretch m now hkept, hbottom, bot_sup_eq]
  · rintro earlier later rfl
    rw [appliedIn_append] at hkept
    rw [run_append, versionOf_run layouts decoders later _ _ fun a ha =>
      hkept a (List.mem_append_right _ ha)]
    exact le_max_left _ _

end run

/-- Pool 7 is written twice, the later version first. -/
def rewritten : Checkpoint :=
  ⟨2, [⟨[⟨7, some 6⟩]⟩, ⟨[⟨7, some 5⟩]⟩], ⟨[poolAt 5, poolAt 6], by decide⟩⟩

theorem replay_monotone_rewritten :
    (run poolLayouts poolDecoders StateManager.new () [opening, rewritten, opening]).2 =
        (run poolLayouts poolDecoders StateManager.new () [opening, rewritten]).2 ∧
      versionOf (run poolLayouts poolDecoders StateManager.new () [opening, rewritten]).2.1 7 =
        (versionsOf poolLayouts poolDecoders 7
          (appliedIn poolLayouts poolDecoders StateManager.new () [opening, rewritten])).maximum ∧
      versionOf (run poolLayouts poolDecoders StateManager.new () [opening, rewritten]).2.1 7 =
        (6 : U64) := by
  have hreplay := replay_monotone poolLayouts poolDecoders StateManager.defaultChildCapacity ()
  refine ⟨?_, ?_, by decide +kernel⟩
  · exact (hreplay.1 [⟨opening, false⟩, ⟨rewritten, false⟩, ⟨opening, true⟩]
      (by simp [Redelivers])).1
  · exact (hreplay.2 7 [] [opening, rewritten] (.inl rfl) _ _ rfl (by decide +kernel)).1

end Replay
