import Birdai.State.Replay

/-!
# What the reports account for

Every change of a checkpoint that names a venue leaves the pipeline once: missing
from the object set, not typed, not published, or published. The counters of the
manager's lifetime are the sums of its reports, and the tracked slots are what was
created and not removed.
-/

namespace Accounting

open WideArith TickIndex MoveTypes AnyVenues Manager KeyedFolds PhaseSpecs OrderedFold Replay

/-! ### Where an object leaves -/

/-- A written object the object set does not carry. -/
def isMissing (objects : ObjectSet) (change : ObjectChange) : Bool :=
  change.outputVersion.any fun version => (objects.get change.id version).isNone

def missingObjects (checkpoint : Checkpoint) : ℕ :=
  checkpoint.changes.countP (isMissing checkpoint.objectSet)

/-- The changed objects whose type is named like a venue. -/
def namedVenues (checkpoint : Checkpoint) : ℕ :=
  (checkpoint.changes.filterMap (candidateOf checkpoint.objectSet)).length

/-- How many typed venues find their own version held when their turn comes. -/
def alreadyHeld (held : ObjectId → WithBot U64) : List Decoded → ℕ
  | [] => 0
  | object :: rest =>
    (if held object.id = object.version then 1 else 0) +
      alreadyHeld (Function.update held object.id (max (held object.id) object.version)) rest

/-- What a report counts of the objects that were missing or named like a venue. -/
def accounted (report : UpdateReport) : ℕ :=
  report.venuesUpdated + report.unrecognised + report.failures

theorem accounted_fail (p : Progress) (count : ℕ) :
    accounted (p.fail count).report = accounted p.report + count := by
  simp only [accounted, Progress.fail]
  omega

theorem collectChange_missing (objects : ObjectSet) (found : Collected) (change : ObjectChange) :
    (collectChange objects found change).missing =
      found.missing + if isMissing objects change then 1 else 0 :=
  (collectChange_finds objects found change).2.2.2

theorem collect_missing (checkpoint : Checkpoint) :
    (collect checkpoint).missing = missingObjects checkpoint := by
  have hcount : ∀ (changes : List ObjectChange) (found : Collected),
      (changes.foldl (collectChange checkpoint.objectSet) found).missing =
        found.missing + changes.countP (isMissing checkpoint.objectSet) := by
    intro changes
    induction changes with
    | nil => exact fun found => rfl
    | cons change rest ih =>
      intro found
      rw [List.foldl_cons, ih, collectChange_missing, List.countP_cons]
      omega
  rw [collect_eq_foldl, hcount]
  exact Nat.zero_add _

/-! ### Typing, counted -/

theorem fail_fail (p : Progress) (first second : ℕ) :
    (p.fail first).fail second = p.fail (first + second) := by
  simp only [Progress.fail, Nat.add_assoc]

/-- Copying out fails an object exactly when it has no Move data to type. -/
theorem copyOut_counts (decoders : Decoders) {resolved : Resolved}
    (candidates : List (Object × StructTag)) (h : ∀ c ∈ candidates, c.2 ∈ resolved) (p : Progress)
    (untyped : List Untyped) :
    ∃ copied, candidates.foldlM (Progress.copyOut resolved) (p, untyped) =
      .ok (p.fail (candidates.length -
        (candidates.filterMap (outcomeOf decoders resolved)).length), copied) := by
  induction candidates generalizing p untyped with
  | nil => exact ⟨untyped, rfl⟩
  | cons candidate rest ih =>
    obtain ⟨⟨layout, fingerprint⟩, hlookup⟩ :=
      Finmap.mem_iff.mp (h candidate List.mem_cons_self)
    have hrest : ∀ c ∈ rest, c.2 ∈ resolved := fun c hc => h c (List.mem_cons_of_mem _ hc)
    have hshort := List.length_filterMap_le (outcomeOf decoders resolved) rest
    obtain ⟨object, tag⟩ := candidate
    cases hdata : object.data with
    | package originalPackageId =>
      obtain ⟨copied, hcopied⟩ := ih hrest (p.fail 1) untyped
      have hfirst : Progress.copyOut resolved (p, untyped) (object, tag) =
          .ok (p.fail 1, untyped) := by
        simp [Progress.copyOut, hlookup, Outcomes.okOr, hdata]
      have hnone : outcomeOf decoders resolved (object, tag) = none := by
        simp [outcomeOf, hlookup, hdata]
      refine ⟨copied, ?_⟩
      rw [List.foldlM_cons, hfirst, Outcomes.ok_bind, hcopied, List.filterMap_cons_none hnone,
        fail_fail, List.length_cons]
      congr 3
      omega
    | move type contents =>
      obtain ⟨copied, hcopied⟩ := ih hrest p
        (untyped ++ [⟨object.id, object.version, tag, fingerprint, contents⟩])
      have hfirst : Progress.copyOut resolved (p, untyped) (object, tag) =
          .ok (p, untyped ++ [⟨object.id, object.version, tag, fingerprint, contents⟩]) := by
        simp [Progress.copyOut, hlookup, Outcomes.okOr, hdata]
      refine ⟨copied, ?_⟩
      cases hsome : outcomeOf decoders resolved (object, tag) with
      | none => simp [outcomeOf, hlookup, hdata] at hsome
      | some outcome =>
        rw [List.foldlM_cons, hfirst, Outcomes.ok_bind, hcopied, List.filterMap_cons_some hsome,
          List.length_cons, List.length_cons]
        congr 3
        omega

section apply
variable {ε σ : Type} (layouts : LayoutSource ε σ) (decoders : Decoders)

/-- The outcomes of typing, in order: one for each candidate that was not failed before. -/
def outcomesFor (source : σ) (checkpoint : Checkpoint) : List (Except StateError Decoded) :=
  (checkpoint.changes.filterMap (candidateOf checkpoint.objectSet)).filterMap
    (outcomeOf decoders (resolvedFor layouts decoders source checkpoint))

/-- Every candidate ends as an outcome or as a failure. -/
theorem typeObjects_counts (p : Progress) (source : σ) (candidates : List (Object × StructTag)) :
    typeObjects layouts decoders p source candidates =
      (.ok (candidates.filterMap
          (outcomeOf decoders (resolveAll layouts decoders source (distinctTags candidates)).1)),
        p.fail (candidates.length - (candidates.filterMap (outcomeOf decoders
          (resolveAll layouts decoders source (distinctTags candidates)).1)).length),
        (resolveAll layouts decoders source (distinctTags candidates)).2) := by
  obtain ⟨p', _, hok⟩ := typeObjects_ok layouts decoders p source candidates
  rw [hok]
  refine Prod.ext rfl (Prod.ext ?_ rfl)
  have hprogress : p' = (typeObjects layouts decoders p source candidates).2.1 := by rw [hok]
  rw [hprogress]
  simp only [typeObjects]
  generalize resolveAll layouts decoders source (distinctTags candidates) = resolving
  obtain ⟨resolved, source'⟩ := resolving
  dsimp only
  have hle := List.length_filter_le (fun candidate => decide (candidate.2 ∈ resolved)) candidates
  have hle' := List.length_filterMap_le (outcomeOf decoders resolved)
    (candidates.filter fun candidate => candidate.2 ∈ resolved)
  obtain ⟨copied, hcopied⟩ := copyOut_counts decoders
    (candidates.filter fun candidate => candidate.2 ∈ resolved)
    (fun c hc => by simpa using (List.mem_filter.mp hc).2)
    (p.fail (candidates.length -
      (candidates.filter fun candidate => candidate.2 ∈ resolved).length)) []
  rw [hcopied]
  dsimp only
  rw [fail_fail]
  rw [outcomes_of_resolved] at hle' ⊢
  congr 1
  omega

/-- What is known of a checkpoint once its objects are typed. -/
def typed (m : StateManager) (source : σ) (checkpoint : Checkpoint) : Progress :=
  let observing := (observePackages layouts m source checkpoint).1
  let examined : Progress :=
    { observing with
      report := { observing.report with objectsExamined := (collect checkpoint).examined } }
  examined.fail (missingObjects checkpoint + (namedVenues checkpoint -
    (outcomesFor layouts decoders source checkpoint).length))

/-- An applied checkpoint types its objects, then publishes, removes, indexes and commits. -/
theorem applyCheckpoint_typed {m : StateManager} {checkpoint : Checkpoint} (source : σ)
    (hfresh : m.skips checkpoint = false) :
    ∃ source', applyCheckpoint layouts decoders m source checkpoint =
      (.ok (finish (typed layouts decoders m source checkpoint) checkpoint.sequenceNumber
          (collect checkpoint) (outcomesFor layouts decoders source checkpoint)).report,
        (finish (typed layouts decoders m source checkpoint) checkpoint.sequenceNumber
          (collect checkpoint) (outcomesFor layouts decoders source checkpoint)).manager,
        source') := by
  obtain ⟨_, hsource⟩ := observePackages_same layouts m source checkpoint
  have hfound := (collect_finds checkpoint).1
  have houtcomes : (collect checkpoint).candidates.filterMap (outcomeOf decoders
      (resolvedFor layouts decoders source checkpoint)) =
        outcomesFor layouts decoders source checkpoint := by
    rw [hfound]
    rfl
  have hlength : (collect checkpoint).candidates.length = namedVenues checkpoint := by
    rw [hfound]
    rfl
  simp only [applyCheckpoint, typed]
  rw [if_neg (by rw [hfresh]; exact Bool.false_ne_true)]
  generalize observePackages layouts m source checkpoint = observing at hsource ⊢
  obtain ⟨p, source₁⟩ := observing
  dsimp only at hsource ⊢
  subst hsource
  rw [typeObjects_counts, fail_fail, collect_missing, hlength]
  change ∃ source', _ = _
  rw [← resolvedFor, houtcomes]
  exact ⟨_, rfl⟩

end apply

/-! ### Publishing, counted -/

/-- An outcome is published, refused for its name, failed, or already held. -/
theorem publish_counts (p : Progress) (outcome : Except StateError Decoded) :
    accounted (p.publish outcome).report + (outcome.toOption.elim 0 fun object =>
        if versionOf p.manager object.id = object.version then 1 else 0) =
      accounted p.report + 1 := by
  cases outcome with
  | error e =>
    cases e with
    | venue e =>
      cases e with
      | unknownVenue label =>
        simp only [accounted, Progress.publish, Except.toOption, Option.elim_none]
        omega
      | _ => exact accounted_fail p 1
    | _ => exact accounted_fail p 1
  | ok object =>
    simp only [Except.toOption, Option.elim_some]
    cases hcell : p.manager.slots.lookup object.id with
    | none =>
      simp only [accounted, Progress.publish, versionOf, hcell, shouldPublish, versionIn,
        Option.map_none, Option.isNone_none, ↓reduceIte, Option.elim_none, WithBot.bot_ne_coe]
      omega
    | some slot =>
      by_cases hnewer : slot.version < object.version
      · have hne : slot.version ≠ object.version := hnewer.ne
        simp only [accounted, Progress.publish, versionOf, hcell, shouldPublish, versionIn,
          Option.map_some, hnewer, ↓reduceIte, Option.isNone_some, Bool.false_eq_true,
          Option.elim_some, WithBot.coe_inj, hne]
        omega
      · by_cases hheld : object.version = slot.version
        · simp [Progress.publish, versionOf, hcell, shouldPublish, versionIn, hheld]
        · have hne : slot.version ≠ object.version := Ne.symm hheld
          simp only [accounted, Progress.publish, versionOf, hcell, shouldPublish, versionIn,
            Option.map_some, hnewer, hheld, ↓reduceIte, Option.elim_some, WithBot.coe_inj, hne,
            Progress.fail]
          omega

theorem versionOf_publish (p : Progress) (outcome : Except StateError Decoded) (id : ObjectId) :
    versionOf (p.publish outcome).manager id = outcome.toOption.elim (versionOf p.manager)
      (fun object => Function.update (versionOf p.manager) object.id
        (max (versionOf p.manager object.id) object.version)) id := by
  rw [versionOf, (publish_spec p outcome).1]
  cases outcome with
  | error e => rfl
  | ok object =>
    simp only [Except.toOption, Option.elim_some, lookup_publishInto]
    by_cases hid : object.id = id
    · subst hid
      rw [if_pos rfl, versionIn_publishCell, Function.update_self]
      rfl
    · rw [if_neg hid, Function.update_of_ne (Ne.symm hid)]
      rfl

theorem publishAll_counts (outcomes : List (Except StateError Decoded)) (p : Progress) :
    accounted (outcomes.foldl Progress.publish p).report +
        alreadyHeld (versionOf p.manager) (outcomes.filterMap Except.toOption) =
      accounted p.report + outcomes.length := by
  induction outcomes generalizing p with
  | nil => rfl
  | cons outcome rest ih =>
    have hfirst := publish_counts p outcome
    have hrest := ih (p.publish outcome)
    rw [funext (versionOf_publish p outcome)] at hrest
    rw [List.foldl_cons, List.length_cons]
    cases outcome with
    | error e =>
      rw [List.filterMap_cons_none rfl]
      simp only [Except.toOption, Option.elim_none] at hfirst hrest
      omega
    | ok object =>
      rw [List.filterMap_cons_some (f := Except.toOption) (b := object) rfl, alreadyHeld]
      simp only [Except.toOption, Option.elim_some] at hfirst hrest
      omega

/-! ### Lifetime counters -/

/-- The slots tracked are the venues created and not removed. -/
def Tallied (m : StateManager) : Prop :=
  m.venuesCreated = m.venuesRemoved + m.slots.keys.card

/-- A progress whose manager counted on from `m` what the report counts. -/
@[mk_iff]
structure Books (m : StateManager) (p : Progress) : Prop where
  venuesCreated : p.manager.venuesCreated = m.venuesCreated + p.report.venuesCreated
  venuesUpdated : p.manager.venuesUpdated + p.report.venuesCreated =
    m.venuesUpdated + p.report.venuesUpdated
  venuesRemoved : p.manager.venuesRemoved = m.venuesRemoved + p.report.venuesRemoved
  childrenIndexed : p.manager.childrenIndexed = m.childrenIndexed + p.report.childrenIndexed
  childrenDropped : p.manager.childrenDropped = m.childrenDropped + p.report.childrenDropped
  packageObservations :
    p.manager.packageObservations = m.packageObservations + p.report.packagesObserved
  failures : p.manager.failures = m.failures + p.report.failures
  unrecognised : p.manager.unrecognised = m.unrecognised + p.report.unrecognised
  tallied : Tallied m → Tallied p.manager

theorem Books.fail {m : StateManager} {p : Progress} (h : Books m p) (count : ℕ) :
    Books m (p.fail count) := by
  have hfailures := h.failures
  refine { h with failures := ?_ }
  simp only [Progress.fail]
  omega

theorem card_insert_slot {slots : Finmap fun _ : ObjectId => VenueSlot} (id : ObjectId)
    (slot : VenueSlot) : (slots.insert id slot).keys.card =
      slots.keys.card + if (slots.lookup id).isNone then 1 else 0 := by
  have hkeys : (slots.insert id slot).keys = insert id slots.keys := by
    ext key
    simp only [Finmap.mem_keys, Finmap.mem_insert, Finset.mem_insert]
  rw [hkeys]
  cases hcell : slots.lookup id with
  | none =>
    rw [Finset.card_insert_of_notMem
      (fun hmem => Finmap.lookup_eq_none.mp hcell (Finmap.mem_keys.mp hmem))]
    rfl
  | some held =>
    rw [Finset.insert_eq_of_mem (Finmap.mem_keys.mpr (Finmap.mem_of_lookup_eq_some hcell))]
    rfl

theorem Books.publish {m : StateManager} {p : Progress} (h : Books m p)
    (outcome : Except StateError Decoded) : Books m (p.publish outcome) := by
  unfold Progress.publish
  cases outcome with
  | error e =>
    cases e with
    | venue e =>
      cases e with
      | unknownVenue label =>
        have hunrecognised := h.unrecognised
        refine { h with unrecognised := ?_ }
        dsimp only
        omega
      | _ => exact h.fail 1
    | _ => exact h.fail 1
  | ok object =>
    dsimp only
    split
    · exact h.fail 1
    · exact h
    · have hcreated := h.venuesCreated
      have hupdated := h.venuesUpdated
      split
      · rename_i hnew
        refine { h with venuesCreated := ?_, venuesUpdated := ?_, tallied := ?_ }
        · dsimp only
          omega
        · dsimp only
          omega
        · intro hm
          have htallied := h.tallied hm
          simp only [Tallied, card_insert_slot, hnew, ↓reduceIte] at htallied ⊢
          omega
      · rename_i hheld
        refine { h with venuesUpdated := ?_, tallied := ?_ }
        · dsimp only
          omega
        · intro hm
          have htallied := h.tallied hm
          simp only [Tallied, card_insert_slot, hheld, Bool.false_eq_true, ↓reduceIte] at htallied ⊢
          omega

theorem Books.remove {m : StateManager} {p : Progress} (h : Books m p) (id : ObjectId) :
    Books m (p.remove id) := by
  have hchild : ∀ q : Progress, Books m q → Books m (q.removeChild id) := by
    intro q hq
    unfold Progress.removeChild
    split
    · exact hq
    · exact { hq with }
  apply hchild
  unfold Progress.removeSlot
  cases hslot : p.manager.slots.lookup id with
  | none => exact h
  | some slot =>
    refine { h with venuesRemoved := ?_, tallied := ?_ }
    · have hremoved := h.venuesRemoved
      dsimp only
      omega
    · intro hm
      have htallied := h.tallied hm
      have hmem := Finmap.mem_keys.mpr (Finmap.mem_of_lookup_eq_some hslot)
      have hpos : 0 < p.manager.slots.keys.card := Finset.card_pos.mpr ⟨id, hmem⟩
      simp only [Tallied, Finmap.keys_erase, Finset.card_erase_of_mem hmem] at htallied ⊢
      omega

theorem Books.indexGroup {m : StateManager} {p : Progress} (h : Books m p)
    (priced : Finset ObjectId) (group : ObjectId × List ObjectId) :
    Books m (p.indexGroup priced group) := by
  have hindexed := h.childrenIndexed
  have hdropped := h.childrenDropped
  unfold Progress.indexGroup
  dsimp only
  split
  · exact h
  · refine { h with childrenIndexed := ?_, childrenDropped := ?_ }
    · dsimp only
      omega
    · dsimp only
      omega

/-- A finished checkpoint counts on what its report counts. -/
theorem Books.finish {m : StateManager} {p : Progress} (h : Books m p) (sequence : U64)
    (found : Collected) (outcomes : List (Except StateError Decoded)) :
    Books m (Manager.finish p sequence found outcomes) := by
  have hpublished : Books m (outcomes.foldl Progress.publish p) :=
    foldl_preserves (fun q outcome hq => hq.publish outcome) outcomes h
  have hremoved : Books m
      (found.removed.foldl Progress.remove (outcomes.foldl Progress.publish p)) :=
    foldl_preserves (fun q id hq => hq.remove id) found.removed hpublished
  have hindexed : Books m
      ((found.removed.foldl Progress.remove (outcomes.foldl Progress.publish p)).indexChildren
        found.childParents) := by
    unfold Progress.indexChildren
    split
    · exact hremoved
    · exact foldl_preserves (fun q group hq => hq.indexGroup _ group) _ hremoved
  exact { hindexed with }

/-! ### Reports -/

/-- Removing and indexing report nothing of the objects that were typed. -/
theorem finish_accounted (p : Progress) (sequence : U64) (found : Collected)
    (outcomes : List (Except StateError Decoded)) :
    accounted (finish p sequence found outcomes).report =
      accounted (outcomes.foldl Progress.publish p).report := by
  have hremove : ∀ (q : Progress) (id : ObjectId),
      accounted (q.remove id).report = accounted q.report := by
    intro q id
    unfold Progress.remove Progress.removeChild Progress.removeSlot accounted
    cases q.manager.slots.lookup id with
    | none => split <;> rfl
    | some slot => split <;> rfl
  have hindex : ∀ (priced : Finset ObjectId) (q : Progress) (group : ObjectId × List ObjectId),
      accounted (q.indexGroup priced group).report = accounted q.report := by
    intro priced q group
    unfold Progress.indexGroup accounted
    dsimp only
    split <;> rfl
  have hremoved : accounted
      (found.removed.foldl Progress.remove (outcomes.foldl Progress.publish p)).report =
        accounted (outcomes.foldl Progress.publish p).report :=
    foldl_preserves (I := fun q : Progress => accounted q.report = _)
      (fun q id hq => (hremove q id).trans hq) _ rfl
  rw [← hremoved]
  unfold finish Progress.indexChildren
  dsimp only
  split
  · rfl
  · exact foldl_preserves (I := fun q : Progress => accounted q.report = _)
      (fun q group hq => (hindex _ q group).trans hq) _ rfl

section apply
variable {ε σ : Type} (layouts : LayoutSource ε σ) (decoders : Decoders)

theorem typed_books (m : StateManager) (source : σ) (checkpoint : Checkpoint) :
    Books m (typed layouts decoders m source checkpoint) := by
  have hobserved : Books m (observePackages layouts m source checkpoint).1 := by
    unfold observePackages
    dsimp only
    split
    · rename_i hempty
      simp [books_iff, hempty]
    · simp [books_iff, Tallied]
  have hexamined : Books m
      { (observePackages layouts m source checkpoint).1 with
        report := { (observePackages layouts m source checkpoint).1.report with
          objectsExamined := (collect checkpoint).examined } } := { hobserved with }
  exact hexamined.fail _

theorem typed_accounted (m : StateManager) (source : σ) (checkpoint : Checkpoint) :
    accounted (typed layouts decoders m source checkpoint).report +
        (outcomesFor layouts decoders source checkpoint).length =
      missingObjects checkpoint + namedVenues checkpoint := by
  have hle := List.length_filterMap_le
    (outcomeOf decoders (resolvedFor layouts decoders source checkpoint))
    (checkpoint.changes.filterMap (candidateOf checkpoint.objectSet))
  have hobserved : accounted (observePackages layouts m source checkpoint).1.report = 0 := by
    unfold observePackages
    dsimp only
    split <;> rfl
  rw [typed, accounted_fail]
  change accounted (observePackages layouts m source checkpoint).1.report + _ + _ = _
  rw [hobserved]
  change (outcomesFor layouts decoders source checkpoint).length ≤ namedVenues checkpoint at hle
  omega

/-- The venue objects of a checkpoint that decode, in order. -/
def typedVenues (source : σ) (checkpoint : Checkpoint) : List Decoded :=
  checkpoint.changes.filterMap (decodingOf layouts decoders source checkpoint)

/-- An applied checkpoint reports every missing object and every object named like a
venue, once, but for the venues already held. -/
theorem applyCheckpoint_accounts {m : StateManager} {checkpoint : Checkpoint} (source : σ)
    (hfresh : m.skips checkpoint = false) :
    ∃ report m' source',
      applyCheckpoint layouts decoders m source checkpoint = (.ok report, m', source') ∧
        missingObjects checkpoint + namedVenues checkpoint =
          report.venuesUpdated + report.unrecognised + report.failures +
            alreadyHeld (versionOf m) (typedVenues layouts decoders source checkpoint) ∧
        Books m ⟨m', report⟩ := by
  obtain ⟨source', happly⟩ := applyCheckpoint_typed layouts decoders source hfresh
  refine ⟨_, _, source', happly, ?_,
    (typed_books layouts decoders m source checkpoint).finish _ _ _⟩
  have hpublished := publishAll_counts (outcomesFor layouts decoders source checkpoint)
    (typed layouts decoders m source checkpoint)
  have hfinished := finish_accounted (typed layouts decoders m source checkpoint)
    checkpoint.sequenceNumber (collect checkpoint)
    (outcomesFor layouts decoders source checkpoint)
  have htyped := typed_accounted layouts decoders m source checkpoint
  have hheld : versionOf (typed layouts decoders m source checkpoint).manager = versionOf m := by
    funext id
    have hslots := (observePackages_same layouts m source checkpoint).1.slots
    exact congrArg (fun slots => versionIn (Finmap.lookup id slots)) hslots
  have hvenues : (outcomesFor layouts decoders source checkpoint).filterMap Except.toOption =
      typedVenues layouts decoders source checkpoint := by
    unfold outcomesFor typedVenues decodingOf
    generalize resolvedFor layouts decoders source checkpoint = resolved
    rw [List.filterMap_filterMap, List.filterMap_filterMap]
  rw [hheld, hvenues] at hpublished
  rw [accounted] at hfinished
  omega

/-! ### Runs -/

/-- What a manager can go through, with the reports of the checkpoints applied on the way. -/
inductive Recorded : List UpdateReport → StateManager → Prop
  | start (childCapacity : ℕ) : Recorded [] (StateManager.withChildCapacity childCapacity)
  | apply {reports : List UpdateReport} {m m' : StateManager} {source source' : σ}
      {checkpoint : Checkpoint} {report : UpdateReport} (h : Recorded reports m)
      (happly : applyCheckpoint layouts decoders m source checkpoint = (.ok report, m', source')) :
      Recorded (reports ++ [report]) m'
  | setTicks {reports : List UpdateReport} {m : StateManager} (id : ObjectId) (ticks : Ticks)
      (h : Recorded reports m) : Recorded reports (m.setTicks id ticks).1
  | installTicks {reports : List UpdateReport} {m : StateManager} (id : ObjectId)
      (head : SkipListHead) (nodes : List TickNode) (h : Recorded reports m) :
      Recorded reports (m.installTicks id head nodes).2

/-- Every reachable manager was reached with the reports of its checkpoints at hand. -/
theorem reachable_iff_recorded {m : StateManager} :
    Reachable layouts decoders m ↔ ∃ reports, Recorded layouts decoders reports m := by
  constructor
  · intro h
    induction h with
    | start childCapacity => exact ⟨[], .start childCapacity⟩
    | @apply m source checkpoint _ ih =>
      obtain ⟨reports, hreports⟩ := ih
      cases hskips : m.skips checkpoint with
      | true =>
        have hskipped := applyCheckpoint_skipped layouts decoders source hskips
        have happly := Recorded.apply hreports hskipped
        rw [hskipped]
        exact ⟨_, happly⟩
      | false =>
        obtain ⟨report, m', source', happly, _⟩ :=
          applyCheckpoint_accounts layouts decoders source hskips
        rw [happly]
        exact ⟨_, .apply hreports happly⟩
    | setTicks id ticks _ ih =>
      obtain ⟨reports, hreports⟩ := ih
      exact ⟨reports, .setTicks id ticks hreports⟩
    | installTicks id head nodes _ ih =>
      obtain ⟨reports, hreports⟩ := ih
      exact ⟨reports, .installTicks id head nodes hreports⟩
  · rintro ⟨reports, h⟩
    induction h with
    | start childCapacity => exact .start childCapacity
    | @apply _ m m' source source' checkpoint report _ happly ih =>
      have hreached := Reachable.apply source checkpoint ih
      rw [happly] at hreached
      exact hreached
    | setTicks id ticks _ ih => exact .setTicks id ticks ih
    | installTicks id head nodes _ ih => exact .installTicks id head nodes ih

/-- The sum of one counter over the reports of a run. -/
def total (counter : UpdateReport → ℕ) (reports : List UpdateReport) : ℕ :=
  (reports.map counter).sum

/-- The counters of the manager's lifetime, against the reports. A report's updates
include the venues it created, the lifetime counter's do not. -/
structure Totalled (reports : List UpdateReport) (m : StateManager) : Prop where
  venuesCreated : m.venuesCreated = total UpdateReport.venuesCreated reports
  venuesUpdated : m.venuesUpdated + m.venuesCreated = total UpdateReport.venuesUpdated reports
  venuesRemoved : m.venuesRemoved = total UpdateReport.venuesRemoved reports
  childrenIndexed : m.childrenIndexed = total UpdateReport.childrenIndexed reports
  childrenDropped : m.childrenDropped = total UpdateReport.childrenDropped reports
  packageObservations :
    m.packageObservations = total UpdateReport.packagesObserved reports
  failures : m.failures = total UpdateReport.failures reports
  unrecognised : m.unrecognised = total UpdateReport.unrecognised reports

theorem total_append (counter : UpdateReport → ℕ) (reports : List UpdateReport)
    (report : UpdateReport) : total counter (reports ++ [report]) =
      total counter reports + counter report := by
  simp [total]

theorem Totalled.append {reports : List UpdateReport} {m : StateManager} {p : Progress}
    (h : Totalled reports m) (hbooks : Books m p) :
    Totalled (reports ++ [p.report]) p.manager := by
  obtain ⟨hcreated, hupdated, hremoved, hindexed, hdropped, hobserved, hfailures,
    hunrecognised⟩ := h
  obtain ⟨hcreated', hupdated', hremoved', hindexed', hdropped', hobserved', hfailures',
    hunrecognised', _⟩ := hbooks
  constructor
  all_goals
    rw [total_append]
    omega

/-- Attaching ticks counts nothing and tracks nothing new. -/
theorem setTicks_counts {reports : List UpdateReport} {m : StateManager} (id : ObjectId)
    (ticks : Ticks) (h : Totalled reports m ∧ Tallied m) :
    Totalled reports (m.setTicks id ticks).1 ∧ Tallied (m.setTicks id ticks).1 := by
  obtain ⟨htotalled, htallied⟩ := h
  simp only [StateManager.setTicks]
  cases hslot : m.slots.lookup id with
  | none => exact ⟨htotalled, htallied⟩
  | some slot =>
    refine ⟨{ htotalled with }, ?_⟩
    simp only [Tallied, card_insert_slot, hslot, Option.isNone_some, Bool.false_eq_true,
      ↓reduceIte] at htallied ⊢
    exact htallied

theorem installTicks_counts {reports : List UpdateReport} {m : StateManager} (id : ObjectId)
    (head : SkipListHead) (nodes : List TickNode) (h : Totalled reports m ∧ Tallied m) :
    Totalled reports (m.installTicks id head nodes).2 ∧
      Tallied (m.installTicks id head nodes).2 := by
  unfold StateManager.installTicks
  split
  · exact h
  · dsimp only
    split
    · exact h
    · split
      · exact setTicks_counts id _ h
      · exact setTicks_counts id _ h

theorem books_skipped (m : StateManager) (sequence : U64) :
    Books m ⟨m, { checkpoint := sequence }⟩ := by
  simp [books_iff]

theorem totalled_of_recorded {reports : List UpdateReport} {m : StateManager}
    (h : Recorded layouts decoders reports m) : Totalled reports m ∧ Tallied m := by
  induction h with
  | start childCapacity => exact ⟨⟨rfl, rfl, rfl, rfl, rfl, rfl, rfl, rfl⟩, rfl⟩
  | @apply reports m m' source source' checkpoint report _ happly ih =>
    have hbooks : Books m ⟨m', report⟩ := by
      cases hskips : m.skips checkpoint with
      | true =>
        rw [applyCheckpoint_skipped layouts decoders source hskips] at happly
        cases happly
        exact books_skipped m _
      | false =>
        obtain ⟨report₁, m₁, source₁, happly₁, _, hbooks⟩ :=
          applyCheckpoint_accounts layouts decoders source hskips
        rw [happly₁] at happly
        cases happly
        exact hbooks
    exact ⟨ih.1.append hbooks, hbooks.tallied ih.2⟩
  | setTicks id ticks _ ih => exact setTicks_counts id ticks ih
  | installTicks id head nodes _ ih => exact installTicks_counts id head nodes ih

/-- Every changed venue object is accounted for in the report of its checkpoint, the
tracked slots are what was created and not removed, and the reports of a run add up to
the lifetime counters. -/
theorem venues_accounted {reports : List UpdateReport} {m : StateManager}
    (h : Recorded layouts decoders reports m) :
    (∀ (source : σ) (checkpoint : Checkpoint), m.skips checkpoint = false →
      ∃ report m' source',
        applyCheckpoint layouts decoders m source checkpoint = (.ok report, m', source') ∧
          missingObjects checkpoint + namedVenues checkpoint =
            report.venuesUpdated + report.unrecognised + report.failures +
              alreadyHeld (versionOf m) (typedVenues layouts decoders source checkpoint)) ∧
      m.venuesCreated = m.venuesRemoved + m.slots.keys.card ∧ Totalled reports m := by
  obtain ⟨htotalled, htallied⟩ := totalled_of_recorded layouts decoders h
  refine ⟨fun source checkpoint hfresh => ?_, htallied, htotalled⟩
  obtain ⟨report, m', source', happly, hbalance, _⟩ :=
    applyCheckpoint_accounts layouts decoders source hfresh
  exact ⟨report, m', source', happly, hbalance⟩

end apply

/-! ### The pool of the sample chain -/

def openingReport : UpdateReport :=
  { checkpoint := 1
    objectsExamined := 1
    venuesUpdated := 1
    venuesCreated := 1 }

theorem opening_recorded : Recorded poolLayouts poolDecoders [openingReport] opened :=
  have hreport : (applyCheckpoint poolLayouts poolDecoders StateManager.new () opening).1 =
      .ok openingReport := by decide +kernel
  .apply (.start StateManager.defaultChildCapacity) (Prod.ext hreport rfl)

theorem venues_accounted_opened :
    Recorded poolLayouts poolDecoders [openingReport] opened ∧
      opened.venuesCreated = opened.venuesRemoved + opened.slots.keys.card ∧
      Totalled [openingReport] opened :=
  ⟨opening_recorded, (venues_accounted poolLayouts poolDecoders opening_recorded).2⟩

/-- A venue seen for the first time is an update in the report, not in the lifetime counter. -/
theorem created_venue_not_updated :
    Recorded poolLayouts poolDecoders [openingReport] opened ∧ opened.venuesUpdated = 0 ∧
      total UpdateReport.venuesUpdated [openingReport] = 1 :=
  ⟨opening_recorded, by decide +kernel, rfl⟩

end Accounting
