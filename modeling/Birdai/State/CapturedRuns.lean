import Birdai.Resolve.Capture
import Birdai.State.Replay
import Mathlib.Data.Prod.Lex

/-!
# Captured runs

Checkpoints recorded with only the transactions that touch one venue, reassembled and
applied again. Whatever else the capture leaves out, the venue's own slot comes out of
the replay as it came out of the chain's checkpoints.
-/

namespace CapturedRuns

open WideArith Outcomes OrderedKeys TickIndex MoveTypes AnyVenues KeyedFolds PhaseSpecs OrderedFold
open Capture (Chain Formats ObjectKey)
open Manager (StateManager VenueSlot LayoutSource Resolved Decoded)

variable {chain : Chain}

/-! ### What the state layer reads of a checkpoint -/

/-- The state layer's reading of the chain's objects. -/
structure View (chain : Chain) where
  object : chain.Object → Manager.Object
  keyed : ∀ o, ((object o).id, (object o).version) = chain.key o

namespace View

variable (view : View chain)

/-- The keys of an object set by id, then by version. -/
def keys (set : Capture.ObjectSet chain) : List (ObjectId ×ₗ U64) :=
  (set.objects.keys.map toLex.toEmbedding).sort (· ≤ ·)

def listed (set : Capture.ObjectSet chain) : List Manager.Object :=
  (keys set).filterMap fun k => (set.get (ofLex k)).map view.object

theorem mem_listed {set : Capture.ObjectSet chain} {object : Manager.Object} :
    object ∈ view.listed set ↔ ∃ k o, set.get k = some o ∧ view.object o = object := by
  simp only [listed, keys, List.mem_filterMap, Finset.mem_sort, Finset.mem_map,
    Option.map_eq_some_iff, Finmap.mem_keys]
  constructor
  · rintro ⟨k, -, o, hget, rfl⟩
    exact ⟨ofLex k, o, hget, rfl⟩
  · rintro ⟨k, o, hget, rfl⟩
    exact ⟨toLex k, ⟨k, Finmap.mem_of_lookup_eq_some hget, rfl⟩, o, hget, rfl⟩

theorem listed_ordered (set : Capture.ObjectSet chain) :
    (view.listed set).Pairwise fun a b => a.id < b.id ∨ a.id = b.id ∧ a.version < b.version := by
  have hkey : ∀ k o, set.get (ofLex k) = some o →
      (view.object o).id = (ofLex k).1 ∧ (view.object o).version = (ofLex k).2 := by
    intro k o hget
    have h := (view.keyed o).trans (set.keyed (ofLex k) o hget)
    exact ⟨congrArg Prod.fst h, congrArg Prod.snd h⟩
  have hsorted : (keys set).Pairwise (· < ·) := Finset.sortedLT_sort _ |>.pairwise
  refine List.Pairwise.filterMap _ ?_ hsorted
  intro k k' hlt object hobject object' hobject'
  obtain ⟨o, hget, rfl⟩ := Option.map_eq_some_iff.mp hobject
  obtain ⟨o', hget', rfl⟩ := Option.map_eq_some_iff.mp hobject'
  rw [(hkey k o hget).1, (hkey k o hget).2, (hkey k' o' hget').1, (hkey k' o' hget').2]
  exact Prod.Lex.lt_iff.mp hlt

def objectSet (set : Capture.ObjectSet chain) : Manager.ObjectSet :=
  ⟨view.listed set, view.listed_ordered set⟩

/-- An object is looked up under its own id and version. -/
theorem objectSet_get (set : Capture.ObjectSet chain) (id : ObjectId) (version : U64) :
    (view.objectSet set).get id version = (set.get (id, version)).map view.object := by
  refine Option.ext fun object => ?_
  have hkey : ∀ k o, set.get k = some o →
      ((view.object o).id, (view.object o).version) = k := by
    intro k o hget
    exact (view.keyed o).trans (set.keyed k o hget)
  constructor
  · intro hfound
    obtain ⟨hid, hversion⟩ := get_key hfound
    obtain ⟨k, o, hget, rfl⟩ := view.mem_listed.mp (List.mem_of_find?_eq_some hfound)
    have hk : k = (id, version) := by rw [← hkey k o hget, hid, hversion]
    rw [← hk, hget]
    rfl
  · intro hfound
    obtain ⟨o, hget, rfl⟩ := Option.map_eq_some_iff.mp hfound
    have hk := hkey _ o hget
    have hmem : view.object o ∈ view.listed set := view.mem_listed.mpr ⟨_, o, hget, rfl⟩
    cases hsearch : (view.objectSet set).get id version with
    | none =>
      have hnone := List.find?_eq_none.mp hsearch _ hmem
      simp only [Prod.mk.injEq] at hk
      simp [hk] at hnone
    | some other =>
      obtain ⟨hid, hversion⟩ := get_key hsearch
      obtain ⟨k, o', hget', rfl⟩ := view.mem_listed.mp (List.mem_of_find?_eq_some hsearch)
      have hk' : k = (id, version) := by rw [← hkey k o' hget', hid, hversion]
      rw [hk', hget] at hget'
      rw [Option.some.inj hget']

def changes (executed : Capture.ExecutedTransaction chain) : List Manager.ObjectChange :=
  (chain.objectChanges executed.effects).map fun change => ⟨change.id, change.outputVersion⟩

def checkpoint (original : Capture.Checkpoint chain) : Manager.Checkpoint where
  sequenceNumber := chain.sequenceNumber original.summary
  transactions := original.transactions.map fun executed => ⟨changes executed⟩
  objectSet := view.objectSet original.objectSet

theorem checkpoint_changes (original : Capture.Checkpoint chain) :
    (view.checkpoint original).changes = original.transactions.flatMap changes := by
  simp only [Manager.Checkpoint.changes, checkpoint, List.flatMap_map]

end View

/-! ### Layouts -/

section resolve
variable {ε σ : Type} {layouts : LayoutSource ε σ} (decoders : Decoders)

/-- The source answers alike for a tag in every state. -/
def Answers (layouts : LayoutSource ε σ) (tag : StructTag) (answer : Option MoveTypeLayout) :
    Prop :=
  ∀ source, (layouts.layout source tag).1.toOption = answer

theorem resolveTag_lookup {tag : StructTag} {answer : Option MoveTypeLayout}
    (h : Answers layouts tag answer) (resolving : Resolved × σ) (other : StructTag) :
    (Manager.resolveTag layouts decoders resolving other).1.lookup tag =
      if other = tag then
        (answer.map fun layout => (layout, decoders.fingerprint layout)).or
          (resolving.1.lookup tag)
      else resolving.1.lookup tag := by
  have hanswer := h resolving.2
  unfold Manager.resolveTag
  split
  · rename_i layout source hlayout
    by_cases hother : other = tag
    · subst hother
      rw [hlayout] at hanswer
      rw [if_pos rfl, ← hanswer, Finmap.lookup_insert]
      rfl
    · rw [if_neg hother, Finmap.lookup_insert_of_ne _ (Ne.symm hother)]
  · rename_i error source hlayout
    by_cases hother : other = tag
    · subst hother
      rw [hlayout] at hanswer
      rw [if_pos rfl, ← hanswer]
      rfl
    · rw [if_neg hother]

/-- What a tag resolves to when its source answers alike in every state. -/
theorem resolveAll_lookup {tag : StructTag} {answer : Option MoveTypeLayout}
    (h : Answers layouts tag answer) {tags : List StructTag} (hmem : tag ∈ tags) (source : σ) :
    (Manager.resolveAll layouts decoders source tags).1.lookup tag =
      answer.map fun layout => (layout, decoders.fingerprint layout) := by
  have hfold : ∀ (tags : List StructTag) (resolving : Resolved × σ),
      (tags.foldl (Manager.resolveTag layouts decoders) resolving).1.lookup tag =
        if tag ∈ tags then
          (answer.map fun layout => (layout, decoders.fingerprint layout)).or
            (resolving.1.lookup tag)
        else resolving.1.lookup tag := by
    intro tags
    induction tags with
    | nil => exact fun _ => rfl
    | cons other rest ih =>
      intro resolving
      rw [List.foldl_cons, ih, resolveTag_lookup decoders h]
      by_cases hother : other = tag
      · subst hother
        rw [if_pos rfl, if_pos List.mem_cons_self]
        cases answer <;> simp
      · have hiff : tag ∈ other :: rest ↔ tag ∈ rest := by simp [Ne.symm hother]
        simp only [if_neg hother, hiff]
  have hlookup := hfold tags (∅, source)
  rw [if_pos hmem, Finmap.lookup_empty, Option.or_none] at hlookup
  exact hlookup

theorem mem_distinctTags {candidates : List (Manager.Object × StructTag)}
    {candidate : Manager.Object × StructTag} (h : candidate ∈ candidates) :
    candidate.2 ∈ Manager.distinctTags candidates := by
  have hfold : ∀ (candidates : List (Manager.Object × StructTag)) (seen : List StructTag),
      (candidate ∈ candidates ∨ candidate.2 ∈ seen) → candidate.2 ∈ candidates.foldl
        (fun seen candidate => if candidate.2 ∈ seen then seen
          else seen ++ [candidate.2]) seen := by
    intro candidates
    induction candidates with
    | nil =>
      rintro seen (hmem | hmem)
      · simp at hmem
      · exact hmem
    | cons first rest ih =>
      intro seen hmem
      rw [List.foldl_cons]
      apply ih
      rcases hmem with hmem | hmem
      · rcases List.mem_cons.mp hmem with rfl | hmem
        · right
          split
          · assumption
          · simp
        · exact .inl hmem
      · right
        split
        · exact hmem
        · exact List.mem_append_left _ hmem
  exact hfold candidates [] (.inl h)

end resolve

/-! ### A checkpoint and what its capture reassembles to -/

def touches (id : ObjectId) (executed : Capture.ExecutedTransaction chain) : Bool :=
  (chain.objectChanges executed.effects).any fun change => change.id = id

/-- A predicate that, whatever its state, accepts what touches the object. -/
def KeepsTouching {σ : Type} (id : ObjectId)
    (keep : σ → Capture.ExecutedTransaction chain → Bool × σ) : Prop :=
  ∀ asked executed, touches id executed = true → (keep asked executed).1 = true

/-- Dropping transactions that never touch an object loses nothing about it. -/
theorem kept_events {σ β : Type} {id : ObjectId}
    {keep : σ → Capture.ExecutedTransaction chain → Bool × σ} (hkeep : KeepsTouching id keep)
    {found : Manager.ObjectChange → Option β}
    (hfound : ∀ change, change.id ≠ id → found change = none)
    (asked : σ) (transactions : List (Capture.ExecutedTransaction chain)) :
    ((Capture.kept keep asked transactions).flatMap View.changes).filterMap found =
      (transactions.flatMap View.changes).filterMap found := by
  induction transactions generalizing asked with
  | nil => rfl
  | cons executed rest ih =>
    rw [List.flatMap_cons, List.filterMap_append]
    cases hkept : (keep asked executed).1 with
    | true =>
      rw [Capture.kept, if_pos hkept, List.flatMap_cons, List.filterMap_append, ih]
    | false =>
      have huntouched : touches id executed = false := by
        cases htouches : touches id executed with
        | false => rfl
        | true => rw [hkeep asked executed htouches] at hkept; cases hkept
      have hnone : (View.changes executed).filterMap found = [] := by
        rw [List.filterMap_eq_nil_iff]
        intro change hchange
        obtain ⟨changed, hchanged, rfl⟩ := List.mem_map.mp hchange
        apply hfound
        intro hid
        have hany := List.any_eq_false.mp huntouched changed hchanged
        exact hany (decide_eq_true hid)
      rw [Capture.kept, hkept, if_neg Bool.false_ne_true, hnone, List.nil_append, ih]

/-- What a capture that keeps everything about an object reassembles to. -/
structure Reassembled (id : ObjectId) (original back : Capture.Checkpoint chain) : Prop where
  summary : back.summary = original.summary
  events : ∀ {β : Type} (found : Manager.ObjectChange → Option β),
    (∀ change, change.id ≠ id → found change = none) →
      (back.transactions.flatMap View.changes).filterMap found =
        (original.transactions.flatMap View.changes).filterMap found
  written : ∀ change ∈ back.transactions.flatMap View.changes, ∀ version,
    change.outputVersion = some version →
      back.objectSet.get (change.id, version) = original.objectSet.get (change.id, version)

theorem reassembled_of_recorded {formats : Formats chain} {σ : Type} {id : ObjectId}
    {keep : σ → Capture.ExecutedTransaction chain → Bool × σ} (hkeep : KeepsTouching id keep)
    {asked : σ} {fixtures recorded : Capture.Fixtures} {original : Capture.Checkpoint chain}
    (h : Capture.recordCheckpoint formats keep fixtures original asked = .ok recorded) :
    ∃ captured,
      recorded.checkpoints.lookup (chain.sequenceNumber original.summary) = some captured ∧
      ∀ later : Capture.Fixtures,
        later.checkpoints.lookup (chain.sequenceNumber original.summary) = some captured →
        ∃ back, Capture.checkpoint formats later (chain.sequenceNumber original.summary) =
            .ok back ∧ Reassembled id original back := by
  obtain ⟨captured, hlookup, hsummary, hcontents, hcaptures⟩ := Capture.recordCheckpoint_captures h
  refine ⟨captured, hlookup, fun later hlater => ?_⟩
  obtain ⟨back, hback, hsame, -, htransactions, hobjects⟩ :=
    Capture.checkpoint_of_captures hlater hsummary hcontents hcaptures
  refine ⟨back, hback, hsame, ?_, ?_⟩
  · intro β found hfound
    rw [htransactions]
    exact kept_events hkeep hfound asked original.transactions
  · intro change hchange version hversion
    obtain ⟨executed, hexecuted, hchange⟩ := List.mem_flatMap.mp hchange
    obtain ⟨changed, hchanged, rfl⟩ := List.mem_map.mp hchange
    refine Option.ext fun object => ?_
    rw [hobjects]
    refine and_iff_left ⟨executed, htransactions ▸ hexecuted, changed, hchanged, rfl, .inr hversion⟩

/-! ### The slot of one venue -/

section replay
variable {ε ε' σ σ' : Type} {live : LayoutSource ε σ} {offline : LayoutSource ε' σ'}
  (decoders : Decoders) {view : View chain} {id : ObjectId}

/-- Both sources answer alike for the types that an object's versions carry. -/
def TypedAlike (live : LayoutSource ε σ) (offline : LayoutSource ε' σ') (view : View chain)
    (id : ObjectId) (original : Capture.Checkpoint chain) : Prop :=
  ∀ change ∈ (view.checkpoint original).changes, change.id = id →
    ∀ candidate, candidateOf (view.objectSet original.objectSet) change = some candidate →
      ∃ answer, Answers live candidate.2 answer ∧ Answers offline candidate.2 answer

theorem candidateOf_congr {objects objects' : Manager.ObjectSet} {change : Manager.ObjectChange}
    (h : ∀ version, change.outputVersion = some version →
      objects'.get change.id version = objects.get change.id version) :
    candidateOf objects' change = candidateOf objects change := by
  unfold candidateOf
  cases hversion : change.outputVersion with
  | none => rfl
  | some version => simp only [Option.bind_eq_bind, Option.bind_some, h version hversion]

theorem resolvedFor_lookup {layouts : LayoutSource ε σ} {tag : StructTag}
    {answer : Option MoveTypeLayout} (hanswers : Answers layouts tag answer)
    {checkpoint : Manager.Checkpoint} {change : Manager.ObjectChange}
    (hchange : change ∈ checkpoint.changes) {object : Manager.Object}
    (hcandidate : candidateOf checkpoint.objectSet change = some (object, tag)) (source : σ) :
    (resolvedFor layouts decoders source checkpoint).lookup tag =
      answer.map fun layout => (layout, decoders.fingerprint layout) := by
  have hmem : (object, tag) ∈ (Manager.collect checkpoint).candidates := by
    rw [(collect_finds checkpoint).1]
    exact List.mem_filterMap.mpr ⟨change, hchange, hcandidate⟩
  exact resolveAll_lookup decoders hanswers (mem_distinctTags hmem) _

/-- The capture publishes and removes a venue exactly as its checkpoint did. -/
theorem eventsOf_reassembled {original back : Capture.Checkpoint chain}
    (h : Reassembled id original back) (halike : TypedAlike live offline view id original)
    (source : σ) (source' : σ') :
    eventsOf offline decoders source' (view.checkpoint back) id =
      eventsOf live decoders source (view.checkpoint original) id := by
  have hevent : ∀ change ∈ (view.checkpoint back).changes,
      eventOf offline decoders source' (view.checkpoint back) id change =
        eventOf live decoders source (view.checkpoint original) id change := by
    intro change hchange
    by_cases hid : change.id = id
    swap
    · rw [eventOf, eventOf, if_neg hid, if_neg hid]
    have hback : change ∈ back.transactions.flatMap View.changes := by
      rwa [view.checkpoint_changes] at hchange
    have hcandidate : candidateOf (view.objectSet back.objectSet) change =
        candidateOf (view.objectSet original.objectSet) change := by
      apply candidateOf_congr
      intro version hversion
      rw [view.objectSet_get, view.objectSet_get, h.written change hback version hversion]
    -- a change of the capture is one of the checkpoint's own
    have horiginal : change ∈ (view.checkpoint original).changes := by
      have hsame := h.events (fun other => if other.id = id then some other else none)
        fun other hother => if_neg hother
      have hmem : change ∈ (back.transactions.flatMap View.changes).filterMap
          fun other => if other.id = id then some other else none :=
        List.mem_filterMap.mpr ⟨change, hback, if_pos hid⟩
      rw [hsame] at hmem
      obtain ⟨other, hother, heq⟩ := List.mem_filterMap.mp hmem
      split at heq
      · cases heq
        rwa [view.checkpoint_changes]
      · cases heq
    have hdecoding : decodingOf offline decoders source' (view.checkpoint back) change =
        decodingOf live decoders source (view.checkpoint original) change := by
      unfold decodingOf
      change (candidateOf (view.objectSet back.objectSet) change).bind _ =
        (candidateOf (view.objectSet original.objectSet) change).bind _
      rw [hcandidate]
      cases hfound : candidateOf (view.objectSet original.objectSet) change with
      | none => rfl
      | some candidate =>
        obtain ⟨answer, hlive, hoffline⟩ := halike change horiginal hid candidate hfound
        simp only [Option.bind_some, outcomeOf]
        rw [resolvedFor_lookup decoders hlive horiginal hfound,
          resolvedFor_lookup decoders hoffline hchange (hcandidate.trans hfound)]
    rw [eventOf, eventOf, hdecoding]
  have hnone : ∀ change : Manager.ObjectChange, change.id ≠ id →
      eventOf live decoders source (view.checkpoint original) id change = none :=
    fun change hid => if_neg hid
  rw [eventsOf, eventsOf, List.filterMap_congr hevent, view.checkpoint_changes,
    view.checkpoint_changes]
  exact h.events _ hnone

/-- Two managers that agree on one slot and on what they skip. -/
structure Alike (id : ObjectId) (m m' : StateManager) : Prop where
  slot : m'.slots.lookup id = m.slots.lookup id
  checkpoints : m'.checkpoints = m.checkpoints
  lastApplied : m'.lastApplied = m.lastApplied

theorem Alike.apply {m m' : StateManager} (hm : Alike id m m')
    {original back : Capture.Checkpoint chain} (h : Reassembled id original back)
    (halike : TypedAlike live offline view id original) (source : σ) (source' : σ') :
    Alike id (Manager.applyCheckpoint live decoders m source (view.checkpoint original)).2.1
      (Manager.applyCheckpoint offline decoders m' source' (view.checkpoint back)).2.1 := by
  have hsequence : (view.checkpoint back).sequenceNumber =
      (view.checkpoint original).sequenceNumber :=
    congrArg chain.sequenceNumber h.summary
  have hskips : m'.skips (view.checkpoint back) = m.skips (view.checkpoint original) := by
    simp only [StateManager.skips, hm.checkpoints, hm.lastApplied, hsequence]
  cases hfresh : m.skips (view.checkpoint original) with
  | true =>
    rw [Replay.applyCheckpoint_skipped live decoders source hfresh,
      Replay.applyCheckpoint_skipped offline decoders source' (hskips.trans hfresh)]
    exact hm
  | false =>
    obtain ⟨hcount, hlast⟩ := Replay.applied_counts live decoders source hfresh
    obtain ⟨hcount', hlast'⟩ :=
      Replay.applied_counts offline decoders source' (hskips.trans hfresh)
    refine ⟨?_, ?_, ?_⟩
    · rw [lookup_applied live decoders source hfresh,
        lookup_applied offline decoders source' (hskips.trans hfresh), hm.slot,
        eventsOf_reassembled decoders h halike]
    · rw [hcount, hcount', hm.checkpoints]
    · rw [hlast, hlast', hsequence]

/-- Over a whole run the slot of the venue stays the same. -/
theorem Alike.run {originals backs : List (Capture.Checkpoint chain)}
    (h : List.Forall₂ (Reassembled id) originals backs)
    (halike : ∀ original ∈ originals, TypedAlike live offline view id original)
    {m m' : StateManager} (hm : Alike id m m') (source : σ) (source' : σ') :
    Alike id (Replay.run live decoders m source (originals.map view.checkpoint)).2.1
      (Replay.run offline decoders m' source' (backs.map view.checkpoint)).2.1 := by
  induction h generalizing m m' source source' with
  | nil => exact hm
  | cons hfirst _ ih =>
    exact ih (fun original horiginal => halike original (List.mem_cons_of_mem _ horiginal))
      (hm.apply decoders hfirst (halike _ List.mem_cons_self) source source') _ _

end replay

/-! ### Following a fixture set -/

section follow
variable {ε σ : Type} (formats : Formats chain) (view : View chain) (layouts : LayoutSource ε σ)
  (decoders : Decoders)

inductive FollowError where
  | fixture (error : Capture.FixtureError)
  | state (error : Manager.StateError)
  | nothingCaptured (start : U64)

structure Following (σ : Type) where
  manager : StateManager
  source : σ
  applied : ℕ
  seen : ℕ

/-- One turn of the loop over the captured sequence numbers. -/
def followNext (fixtures : Capture.Fixtures) (f : Following σ) (sequence : U64) :
    Except FollowError (Following σ) := do
  let back ← (Capture.checkpoint formats fixtures sequence).mapError .fixture
  let (report, manager, source) :=
    Manager.applyCheckpoint layouts decoders f.manager f.source (view.checkpoint back)
  let report ← report.mapError .state
  .ok
    { manager
      source
      applied := if 0 < report.venuesUpdated then f.applied + 1 else f.applied
      seen := f.seen + 1 }

/-- The loop ends with the checkpoint that makes `count` of them with venues. -/
def followAll (fixtures : Capture.Fixtures) (count : ℕ) (f : Following σ) :
    List U64 → Except FollowError (Following σ)
  | [] => .ok f
  | sequence :: rest => do
    let f ← followNext formats view layouts decoders fixtures f sequence
    if count ≤ f.applied then .ok f else followAll fixtures count f rest

def capturedSequences (fixtures : Capture.Fixtures) : List U64 :=
  fixtures.checkpoints.keys.sort (· ≤ ·)

def startOf (fixtures : Capture.Fixtures) (first : Option U64) : U64 :=
  first.getD ((capturedSequences fixtures).head?.getD 0)

/-- `follow_fixtures`, up to what it prints: the manager and how many checkpoints it saw. -/
def followFixtures (fixtures : Capture.Fixtures) (source : σ) (first : Option U64) (count : ℕ) :
    Except FollowError (StateManager × ℕ) := do
  let start := startOf fixtures first
  let f ← followAll formats view layouts decoders fixtures count ⟨.new, source, 0, 0⟩
    ((capturedSequences fixtures).filter fun sequence => start ≤ sequence)
  if f.seen = 0 then .error (.nothingCaptured start) else .ok (f.manager, f.seen)

variable {formats view layouts decoders}

variable (layouts decoders) in
theorem applyCheckpoint_ok (m : StateManager) (source : σ) (checkpoint : Manager.Checkpoint) :
    ∃ report, (Manager.applyCheckpoint layouts decoders m source checkpoint).1 = .ok report := by
  cases hskips : m.skips checkpoint with
  | true =>
    rw [Replay.applyCheckpoint_skipped layouts decoders source hskips]
    exact ⟨_, rfl⟩
  | false =>
    obtain ⟨p, outcomes, source', -, -, happly⟩ :=
      applyCheckpoint_fresh layouts decoders source hskips
    rw [happly]
    exact ⟨_, rfl⟩

/-- How many of the reports updated a venue. -/
def venueCheckpoints (reports : List (Except Manager.StateError Manager.UpdateReport)) : ℕ :=
  reports.countP fun report => report.toOption.any fun report => 0 < report.venuesUpdated

variable (view layouts decoders)

/-- The first `seen` checkpoints are applied, and no fewer would have done. -/
structure Followed (count : ℕ) (f : Following σ) (backs : List (Capture.Checkpoint chain))
    (seen : ℕ) (f' : Following σ) : Prop where
  le : seen ≤ backs.length
  pos : backs ≠ [] → 0 < seen
  seen_eq : f'.seen = f.seen + seen
  state_eq : (f'.manager, f'.source) =
    (Replay.run layouts decoders f.manager f.source ((backs.take seen).map view.checkpoint)).2
  ends : seen = backs.length ∨ count ≤ f'.applied
  applied_eq : f'.applied = f.applied + venueCheckpoints
    (Replay.run layouts decoders f.manager f.source ((backs.take seen).map view.checkpoint)).1
  least : ∀ k, 0 < k → k < seen → f.applied + venueCheckpoints
    (Replay.run layouts decoders f.manager f.source ((backs.take k).map view.checkpoint)).1 < count

theorem followNext_ok {fixtures : Capture.Fixtures} (f : Following σ) {sequence : U64}
    {back : Capture.Checkpoint chain}
    (h : Capture.checkpoint formats fixtures sequence = .ok back) :
    ∃ f' report, followNext formats view layouts decoders fixtures f sequence = .ok f' ∧
      Manager.applyCheckpoint layouts decoders f.manager f.source (view.checkpoint back) =
        (.ok report, f'.manager, f'.source) ∧
      f'.applied = f.applied + venueCheckpoints [.ok report] ∧ f'.seen = f.seen + 1 := by
  obtain ⟨report, hreport⟩ :=
    applyCheckpoint_ok layouts decoders f.manager f.source (view.checkpoint back)
  generalize happly : Manager.applyCheckpoint layouts decoders f.manager f.source
    (view.checkpoint back) = applied at hreport
  obtain ⟨_, manager, source⟩ := applied
  dsimp only at hreport
  subst hreport
  refine ⟨⟨manager, source, if 0 < report.venuesUpdated then f.applied + 1 else f.applied,
    f.seen + 1⟩, report, ?_, rfl, ?_, rfl⟩
  · rw [followNext, h]
    dsimp only [Except.mapError, ok_bind]
    rw [happly]
    rfl
  · dsimp only
    by_cases hvenues : 0 < report.venuesUpdated
    · simp [venueCheckpoints, hvenues, Except.toOption]
    · simp [venueCheckpoints, hvenues, Except.toOption]

theorem followAll_followed {fixtures : Capture.Fixtures} (count : ℕ) {sequences : List U64}
    {backs : List (Capture.Checkpoint chain)}
    (h : List.Forall₂ (fun sequence back =>
      Capture.checkpoint formats fixtures sequence = .ok back) sequences backs)
    (f : Following σ) :
    ∃ f' seen, followAll formats view layouts decoders fixtures count f sequences = .ok f' ∧
      Followed view layouts decoders count f backs seen f' := by
  induction h generalizing f with
  | nil =>
    refine ⟨f, 0, rfl, le_refl _, fun hne => absurd rfl hne, rfl, rfl, .inl rfl, rfl, ?_⟩
    exact fun k _ hlt => absurd hlt (Nat.not_lt_zero k)
  | @cons sequence back rest backs hback _ ih =>
    obtain ⟨f₁, report, hnext, happly, happlied, hseen⟩ :=
      followNext_ok view layouts decoders f hback
    -- the run of one more checkpoint begins with this one
    have hcons : ∀ later : List (Capture.Checkpoint chain),
        Replay.run layouts decoders f.manager f.source ((back :: later).map view.checkpoint) =
          (.ok report ::
              (Replay.run layouts decoders f₁.manager f₁.source (later.map view.checkpoint)).1,
            (Replay.run layouts decoders f₁.manager f₁.source
              (later.map view.checkpoint)).2) := by
      intro later
      rw [List.map_cons, Replay.run, happly]
    have hcount : ∀ reports, f.applied + venueCheckpoints (.ok report :: reports) =
        f₁.applied + venueCheckpoints reports := by
      intro reports
      rw [happlied, add_assoc, venueCheckpoints, venueCheckpoints, venueCheckpoints,
        ← List.singleton_append, List.countP_append]
    have hone : venueCheckpoints [] = 0 := rfl
    rw [followAll, hnext, ok_bind]
    split
    · rename_i henough
      refine ⟨f₁, 1, rfl, Nat.succ_pos _, fun _ => Nat.one_pos, hseen, ?_, .inr henough, ?_, ?_⟩
      · rw [List.take_succ_cons, List.take_zero, hcons]
        rfl
      · rw [List.take_succ_cons, List.take_zero, hcons, hcount]
        rfl
      · intro k hpos hlt
        omega
    · rename_i hmore
      obtain ⟨f', seen, hrest, hfollowed⟩ := ih f₁
      refine ⟨f', seen + 1, hrest, Nat.succ_le_succ hfollowed.le, fun _ => Nat.succ_pos _, ?_, ?_,
        ?_, ?_, ?_⟩
      · rw [hfollowed.seen_eq, hseen, add_assoc, add_comm 1]
      · rw [List.take_succ_cons, hcons, hfollowed.state_eq]
      · exact hfollowed.ends.imp (congrArg (· + 1)) id
      · rw [List.take_succ_cons, hcons, hcount, hfollowed.applied_eq]
      · intro k hpos hlt
        obtain ⟨k, rfl⟩ := Nat.exists_eq_add_of_lt hpos
        rw [zero_add, List.take_succ_cons, hcons, hcount]
        rcases Nat.eq_zero_or_pos k with rfl | hk
        · rw [List.take_zero]
          exact not_le.mp hmore
        · exact hfollowed.least k hk (by omega)

theorem followFixtures_followed {fixtures : Capture.Fixtures} {first : Option U64} (count : ℕ)
    {backs : List (Capture.Checkpoint chain)}
    (h : List.Forall₂ (fun sequence back =>
      Capture.checkpoint formats fixtures sequence = .ok back)
      ((capturedSequences fixtures).filter fun sequence => startOf fixtures first ≤ sequence) backs)
    (source : σ) :
    ∃ f seen, Followed view layouts decoders count ⟨.new, source, 0, 0⟩ backs seen f ∧
      followFixtures formats view layouts decoders fixtures source first count =
        if seen = 0 then .error (.nothingCaptured (startOf fixtures first))
        else .ok ((Replay.run layouts decoders .new source
          ((backs.take seen).map view.checkpoint)).2.1, seen) := by
  obtain ⟨f, seen, hall, hfollowed⟩ :=
    followAll_followed view layouts decoders count h ⟨.new, source, 0, 0⟩
  have hseen : f.seen = seen := by rw [hfollowed.seen_eq, Nat.zero_add]
  have hmanager : f.manager = (Replay.run layouts decoders .new source
      ((backs.take seen).map view.checkpoint)).2.1 := congrArg Prod.fst hfollowed.state_eq
  refine ⟨f, seen, hfollowed, ?_⟩
  rw [followFixtures, hall, ok_bind, hseen, hmanager]

end follow

/-! ### Recording a run -/

section record
variable {formats : Formats chain} {σ : Type} {id : ObjectId}
  {keep : σ → Capture.ExecutedTransaction chain → Bool × σ}

def sequenceOf (original : Capture.Checkpoint chain) : U64 :=
  chain.sequenceNumber original.summary

/-- Record one checkpoint after another. -/
def recordAll (formats : Formats chain)
    (keep : σ → Capture.ExecutedTransaction chain → Bool × σ) (asked : σ)
    (fixtures : Capture.Fixtures) (originals : List (Capture.Checkpoint chain)) :
    Except Capture.FixtureError Capture.Fixtures :=
  originals.foldlM (fun fixtures original =>
    Capture.recordCheckpoint formats keep fixtures original asked) fixtures

theorem recordCheckpoint_inserts {asked : σ} {fixtures recorded : Capture.Fixtures}
    {original : Capture.Checkpoint chain}
    (h : Capture.recordCheckpoint formats keep fixtures original asked = .ok recorded) :
    ∃ captured, recorded.checkpoints =
      fixtures.checkpoints.insert (sequenceOf original) captured := by
  obtain ⟨_, _, h⟩ := bind_eq_ok_iff.mp h
  obtain ⟨_, _, h⟩ := bind_eq_ok_iff.mp h
  obtain ⟨⟨captured, _⟩, _, h⟩ := bind_eq_ok_iff.mp h
  cases h
  exact ⟨captured, rfl⟩

/-- What was recorded stands under its own number, and nothing else is added. -/
theorem recordAll_spec (hkeep : KeepsTouching id keep) {asked : σ}
    {originals : List (Capture.Checkpoint chain)} (hnodup : (originals.map sequenceOf).Nodup)
    {fixtures recorded : Capture.Fixtures}
    (h : recordAll formats keep asked fixtures originals = .ok recorded) :
    (∀ s, s ∈ recorded.checkpoints ↔ s ∈ fixtures.checkpoints ∨ s ∈ originals.map sequenceOf) ∧
      (∀ s, s ∉ originals.map sequenceOf →
        recorded.checkpoints.lookup s = fixtures.checkpoints.lookup s) ∧
      ∀ original ∈ originals, ∃ back,
        Capture.checkpoint formats recorded (sequenceOf original) = .ok back ∧
          Reassembled id original back := by
  induction originals generalizing fixtures with
  | nil =>
    cases h
    simp
  | cons original rest ih =>
    rw [List.map_cons, List.nodup_cons] at hnodup
    rw [recordAll, List.foldlM_cons] at h
    obtain ⟨between, hfirst, hrest⟩ := bind_eq_ok_iff.mp h
    obtain ⟨hmem, hothers, hback⟩ := ih hnodup.2 hrest
    obtain ⟨captured, hinsert⟩ := recordCheckpoint_inserts hfirst
    obtain ⟨kept, hkept, hlater⟩ := reassembled_of_recorded hkeep hfirst
    refine ⟨?_, ?_, ?_⟩
    · intro s
      rw [hmem, hinsert, Finmap.mem_insert, List.map_cons, List.mem_cons]
      tauto
    · intro s hs
      rw [List.map_cons, List.mem_cons, not_or] at hs
      rw [hothers s hs.2, hinsert, Finmap.lookup_insert_of_ne _ hs.1]
    · intro other hother
      rcases List.mem_cons.mp hother with rfl | hother
      · exact hlater recorded ((hothers _ hnodup.1).trans hkept)
      · exact hback other hother

theorem exists_forall₂ {α β : Type} {R : α → β → Prop} {as : List α}
    (h : ∀ a ∈ as, ∃ b, R a b) : ∃ bs, List.Forall₂ R as bs := by
  induction as with
  | nil => exact ⟨[], .nil⟩
  | cons a rest ih =>
    obtain ⟨b, hb⟩ := h a List.mem_cons_self
    obtain ⟨bs, hbs⟩ := ih fun a ha => h a (List.mem_cons_of_mem _ ha)
    exact ⟨b :: bs, .cons hb hbs⟩

theorem capturedSequences_recorded (hkeep : KeepsTouching id keep) {asked : σ}
    {originals : List (Capture.Checkpoint chain)}
    (hascending : (originals.map sequenceOf).Pairwise (· < ·)) {recorded : Capture.Fixtures}
    (h : recordAll formats keep asked ⟨∅⟩ originals = .ok recorded) :
    capturedSequences recorded = originals.map sequenceOf := by
  have hnodup : (originals.map sequenceOf).Nodup := hascending.imp fun h => ne_of_lt h
  have hkeys : recorded.checkpoints.keys = (originals.map sequenceOf).toFinset := by
    ext s
    rw [Finmap.mem_keys, (recordAll_spec hkeep hnodup h).1, List.mem_toFinset]
    simp [Finmap.notMem_empty]
  rw [capturedSequences, hkeys, List.toFinset_sort _ hnodup]
  exact hascending.imp fun h => le_of_lt h

theorem backs_ne_nil {R : Capture.Checkpoint chain → Capture.Checkpoint chain → Prop}
    {p : Capture.Checkpoint chain → Bool} {originals backs : List (Capture.Checkpoint chain)}
    (h : List.Forall₂ R (originals.filter p) backs) (hsome : ∃ original ∈ originals, p original) :
    backs ≠ [] := by
  rintro rfl
  obtain ⟨original, horiginal, hp⟩ := hsome
  exact List.filter_eq_nil_iff.mp (List.forall₂_nil_right_iff.mp h) original horiginal hp

/-- Every recorded checkpoint from the start on reassembles. -/
theorem recorded_reads (hkeep : KeepsTouching id keep) {asked : σ}
    {originals : List (Capture.Checkpoint chain)}
    (hascending : (originals.map sequenceOf).Pairwise (· < ·)) {recorded : Capture.Fixtures}
    (h : recordAll formats keep asked ⟨∅⟩ originals = .ok recorded) (first : Option U64) :
    ∃ backs, List.Forall₂ (fun sequence back =>
        Capture.checkpoint formats recorded sequence = .ok back)
        ((capturedSequences recorded).filter fun sequence => startOf recorded first ≤ sequence)
        backs ∧
      List.Forall₂ (Reassembled id) (originals.filter fun original =>
        startOf recorded first ≤ sequenceOf original) backs := by
  have hnodup : (originals.map sequenceOf).Nodup := hascending.imp fun h => ne_of_lt h
  have hback := (recordAll_spec hkeep hnodup h).2.2
  obtain ⟨backs, hbacks⟩ := exists_forall₂ fun original horiginal =>
    hback original (List.mem_of_mem_filter (p := fun original =>
      startOf recorded first ≤ sequenceOf original) horiginal)
  refine ⟨backs, ?_, hbacks.imp fun _ _ h => h.2⟩
  have hsequences : (capturedSequences recorded).filter
      (fun sequence => startOf recorded first ≤ sequence) =
      (originals.filter fun original =>
        startOf recorded first ≤ sequenceOf original).map sequenceOf := by
    rw [capturedSequences_recorded hkeep hascending h, List.filter_map]
    rfl
  rw [hsequences, List.forall₂_map_left_iff]
  exact hbacks.imp fun _ _ h => h.1

end record

/-! ### A pool that trades twice -/

section sample

/-- Every object is a pool, and the effects name the one that was written. -/
def trades : Chain where
  Summary := U64
  Contents := U64
  TransactionData := U64
  Signature := U64
  Effects := ObjectKey
  Events := U64
  Object := ObjectKey
  sequenceNumber := id
  objectChanges key := [⟨key.1, none, some key.2⟩]
  key := id

def tradeFormats : Formats trades where
  summary := Capture.u64Codec
  contents := Capture.u64Codec
  transaction := Capture.u64Codec
  signature := Capture.u64Codec
  effects := Capture.objectKeyCodec
  events := Capture.u64Codec
  object := Capture.objectKeyCodec
  base64 := ByteCodecs.base64
  id := canonicalText

def poolView : View trades where
  object key := ⟨key.1, key.2, .shared 1, .move poolTag poolBytes⟩
  keyed _ := rfl

def trade (key : ObjectKey) : Capture.ExecutedTransaction trades :=
  ⟨(4 : U64), [(9 : U64)], key, none, []⟩

/-- Pool 7 and pool 8 trade, then pool 7 again. -/
def tradedTwice : List (Capture.Checkpoint trades) :=
  [⟨(1 : U64), (8 : U64), [trade (8, 3), trade (7, 3)],
      (Capture.ObjectSet.empty.insert ((7, 3) : ObjectKey)).insert ((8, 3) : ObjectKey)⟩,
    ⟨(2 : U64), (8 : U64), [trade (7, 5)], Capture.ObjectSet.empty.insert ((7, 5) : ObjectKey)⟩]

def keepPool (_ : Unit) (executed : Capture.ExecutedTransaction trades) : Bool × Unit :=
  (touches 7 executed, ())

theorem keepPool_keeps : KeepsTouching 7 keepPool := fun _ _ h => h

theorem tradedTwice_recorded :
    ∃ recorded, recordAll tradeFormats keepPool () ⟨∅⟩ tradedTwice = .ok recorded := by
  have hok : (recordAll tradeFormats keepPool () ⟨∅⟩ tradedTwice).isOk = true := by
    decide +kernel
  cases hrecord : recordAll tradeFormats keepPool () ⟨∅⟩ tradedTwice with
  | ok recorded => exact ⟨recorded, rfl⟩
  | error e =>
    rw [hrecord] at hok
    cases hok

theorem tradedTwice_ascending : (tradedTwice.map sequenceOf).Pairwise (· < ·) := by decide

theorem poolLayouts_answers (tag : StructTag) :
    Answers poolLayouts tag (if tag = poolTag then some poolLayout else none) := by
  intro source
  unfold poolLayouts
  dsimp only
  split
  · rfl
  · rfl

end sample

/-! ### Where following stops -/

section stops
variable {ε σ : Type} {formats : Formats chain} (view : View chain) (layouts : LayoutSource ε σ)
  (decoders : Decoders)

/-- `follow_fixtures` applies the first captured checkpoints from the start on, as many as
it takes to see `count` of them update a venue and at least one; it fails only when there
are none. -/
theorem follow_stops {fixtures : Capture.Fixtures} {first : Option U64}
    {backs : List (Capture.Checkpoint chain)}
    (h : List.Forall₂ (fun sequence back =>
      Capture.checkpoint formats fixtures sequence = .ok back)
      ((capturedSequences fixtures).filter fun sequence => startOf fixtures first ≤ sequence) backs)
    (source : σ) (count : ℕ) :
    (backs = [] → followFixtures formats view layouts decoders fixtures source first count =
      .error (.nothingCaptured (startOf fixtures first))) ∧
    (backs ≠ [] → ∃ seen ≤ backs.length, 0 < seen ∧
      followFixtures formats view layouts decoders fixtures source first count =
        .ok ((Replay.run layouts decoders .new source
          ((backs.take seen).map view.checkpoint)).2.1, seen) ∧
      (seen = backs.length ∨ count ≤ venueCheckpoints
        (Replay.run layouts decoders .new source ((backs.take seen).map view.checkpoint)).1) ∧
      ∀ k, 0 < k → k < seen → venueCheckpoints
        (Replay.run layouts decoders .new source
          ((backs.take k).map view.checkpoint)).1 < count) := by
  obtain ⟨f, seen, hfollowed, hfollow⟩ :=
    followFixtures_followed view layouts decoders count h source
  constructor
  · rintro rfl
    rw [hfollow, if_pos (Nat.le_zero.mp hfollowed.le)]
  · intro hne
    have hpos := hfollowed.pos hne
    refine ⟨seen, hfollowed.le, hpos, ?_, ?_, ?_⟩
    · rw [hfollow, if_neg (Nat.ne_of_gt hpos)]
    · refine hfollowed.ends.imp id fun h => ?_
      rwa [hfollowed.applied_eq, Nat.zero_add] at h
    · intro k hk hlt
      have hless := hfollowed.least k hk hlt
      rwa [Nat.zero_add] at hless

end stops

theorem follow_stops_trades : ∃ recorded backs, ∃ seen ≤ List.length backs, 0 < seen ∧
    recordAll tradeFormats keepPool () ⟨∅⟩ tradedTwice = .ok recorded ∧
    followFixtures tradeFormats poolView poolLayouts poolDecoders recorded () (some 1) 1 =
      .ok ((Replay.run poolLayouts poolDecoders .new ()
        ((backs.take seen).map poolView.checkpoint)).2.1, seen) := by
  obtain ⟨recorded, hrecord⟩ := tradedTwice_recorded
  obtain ⟨backs, hreads, hbacks⟩ :=
    recorded_reads keepPool_keeps tradedTwice_ascending hrecord (some 1)
  have hne : backs ≠ [] :=
    backs_ne_nil hbacks ⟨_, List.mem_cons_self, decide_eq_true (le_refl (1 : U64))⟩
  obtain ⟨seen, hle, hpos, hfollow, -⟩ :=
    (follow_stops poolView poolLayouts poolDecoders hreads () 1).2 hne
  exact ⟨recorded, backs, seen, hle, hpos, hrecord, hfollow⟩

/-! ### The venue after the replay -/

section watched
variable {ε ε' σ σ' τ : Type} (live : LayoutSource ε σ) (offline : LayoutSource ε' σ')
  (decoders : Decoders) (formats : Formats chain) (view : View chain)

/-- Checkpoints captured for one venue and followed offline leave its slot as the chain's own
checkpoints leave it, from the same start on and for as many of them. -/
theorem follow_replays {id : ObjectId} {keep : τ → Capture.ExecutedTransaction chain → Bool × τ}
    (hkeep : KeepsTouching id keep) {asked : τ} {originals : List (Capture.Checkpoint chain)}
    (hascending : (originals.map sequenceOf).Pairwise (· < ·)) {recorded : Capture.Fixtures}
    (hrecord : recordAll formats keep asked ⟨∅⟩ originals = .ok recorded)
    (halike : ∀ original ∈ originals, TypedAlike live offline view id original)
    {first : Option U64} (hsome : ∃ original ∈ originals,
      startOf recorded first ≤ sequenceOf original)
    (source : σ) (source' : σ') (count : ℕ) :
    ∃ m seen, 0 < seen ∧
      followFixtures formats view offline decoders recorded source' first count = .ok (m, seen) ∧
      m.slots.lookup id = (Replay.run live decoders .new source
        (((originals.filter fun original =>
          startOf recorded first ≤ sequenceOf original).take seen).map
            view.checkpoint)).2.1.slots.lookup id := by
  obtain ⟨backs, hreads, hbacks⟩ := recorded_reads hkeep hascending hrecord first
  obtain ⟨f, seen, hfollowed, hfollow⟩ :=
    followFixtures_followed view offline decoders count hreads source'
  obtain ⟨original, horiginal, hstart⟩ := hsome
  have hne : backs ≠ [] := backs_ne_nil hbacks ⟨original, horiginal, decide_eq_true hstart⟩
  have hpos := hfollowed.pos hne
  refine ⟨_, seen, hpos, hfollow.trans (if_neg (Nat.ne_of_gt hpos)), ?_⟩
  have hsame : List.Forall₂ (Reassembled id)
      ((originals.filter fun original =>
        startOf recorded first ≤ sequenceOf original).take seen) (backs.take seen) :=
    List.forall₂_take seen hbacks
  have htyped : ∀ original ∈ (originals.filter fun original =>
      startOf recorded first ≤ sequenceOf original).take seen,
      TypedAlike live offline view id original := by
    intro original horiginal
    exact halike original (List.mem_of_mem_filter (List.mem_of_mem_take horiginal))
  have hnew : Alike id (StateManager.new) StateManager.new := ⟨rfl, rfl, rfl⟩
  exact (hnew.run decoders hsame htyped source source').slot

end watched

theorem follow_replays_trades : ∃ recorded m seen, 0 < seen ∧
    recordAll tradeFormats keepPool () ⟨∅⟩ tradedTwice = .ok recorded ∧
    followFixtures tradeFormats poolView poolLayouts poolDecoders recorded () (some 1) 2 =
      .ok (m, seen) ∧
    m.slots.lookup 7 = (Replay.run poolLayouts poolDecoders .new ()
      (((tradedTwice.filter fun original => startOf recorded (some 1) ≤ sequenceOf original).take
        seen).map poolView.checkpoint)).2.1.slots.lookup 7 := by
  obtain ⟨recorded, hrecord⟩ := tradedTwice_recorded
  have halike : ∀ original ∈ tradedTwice,
      TypedAlike poolLayouts poolLayouts poolView 7 original :=
    fun _ _ _ _ _ candidate _ =>
      ⟨_, poolLayouts_answers candidate.2, poolLayouts_answers candidate.2⟩
  have hsome : ∃ original ∈ tradedTwice, startOf recorded (some 1) ≤ sequenceOf original :=
    ⟨_, List.mem_cons_self, le_refl (1 : U64)⟩
  obtain ⟨m, seen, hpos, hfollow, hslot⟩ := follow_replays poolLayouts poolLayouts poolDecoders
    tradeFormats poolView keepPool_keeps tradedTwice_ascending hrecord halike hsome () () 2
  exact ⟨recorded, m, seen, hpos, hrecord, hfollow, hslot⟩

end CapturedRuns
