import Birdai.Base.JoinSets
import Birdai.Tick.PagedNodes

/-!
# Fetching several objects

A batch that answers exactly what was asked is taken. Any other is fetched again object
by object, a chunk of concurrent reads at a time, and put back in request order.
-/

namespace ObjectFetch

open Outcomes OrderedKeys PagedReads JoinSets TickIndex Manager PagedNodes

/-! ### What the node answers -/

inductive Code where
  | ok
  | cancelled
  | unknown
  | invalidArgument
  | deadlineExceeded
  | notFound
  | alreadyExists
  | permissionDenied
  | resourceExhausted
  | failedPrecondition
  | aborted
  | outOfRange
  | unimplemented
  | internal
  | unavailable
  | dataLoss
  | unauthenticated
  deriving DecidableEq

/-- A refusal, with the text it is shown as. -/
structure Status where
  code : Code
  text : String
  deriving DecidableEq

/-- What joining a spawned fetch gives: the node's answer, or the text of why the task died. -/
abbrev Outcome := Except String (Except Status Object)

def rpcError (call : String) (status : Status) : GrpcError := .rpc call status.text

/-! ### Object by object -/

/-- How many single-object fetches run at once. -/
def fetchConcurrency : ℕ := 32

/-- An object that vanished before it could be fetched is passed over. -/
def settle (outcome : ObjectId → Outcome) (id : ObjectId) :
    Except GrpcError (Option (ObjectId × Object)) :=
  match outcome id with
  | .error error => .error (.rpc "get_object" error)
  | .ok (.ok object) => .ok (some (id, object))
  | .ok (.error status) =>
    if status.code = .notFound then .ok none else .error (rpcError "get_object" status)

def usizeMax : ℕ := 2 ^ 64 - 1

/-- The key the fetched objects are sorted by. -/
def requestPosition (ids : List ObjectId) (id : ObjectId) : ℕ :=
  ((positions ids).lookup id).getD usizeMax

/-- One chunk, its fetches joined in `order`. -/
def fetchChunk (outcome : ObjectId → Outcome) (ids order : List ObjectId) :
    Except GrpcError (List Object) := do
  let fetched ← order.foldlM (gather (settle outcome)) []
  let fetched := fetched.insertionSort fun a b =>
    requestPosition ids a.1 ≤ requestPosition ids b.1
  .ok (fetched.map Prod.snd)

/-- The fetches of every chunk, in an order they can complete in. -/
def Completes (ids : List ObjectId) (completed : List (List ObjectId)) : Prop :=
  List.Forall₂ Joins (chunks fetchConcurrency ids) completed

def addChunk (outcome : ObjectId → Outcome) (ids : List ObjectId) (objects : List Object)
    (order : List ObjectId) : Except GrpcError (List Object) := do
  let fetched ← fetchChunk outcome ids order
  .ok (objects ++ fetched)

def objectsIndividually (outcome : ObjectId → Outcome) (ids : List ObjectId)
    (completed : List (List ObjectId)) : Except GrpcError (List Object) :=
  completed.foldlM (addChunk outcome ids) []

/-- Several objects at their latest versions. -/
def objects (batch : List ObjectId → Except Status (List Object)) (outcome : ObjectId → Outcome)
    (ids : List ObjectId) (completed : List (List ObjectId)) : Except GrpcError (List Object) :=
  if ids.isEmpty then .ok []
  else
    match batch ids with
    | .ok objects =>
      if objects.length = ids.length ∧ (objects.zip ids).all fun entry => entry.1.id = entry.2 then
        .ok objects
      else objectsIndividually outcome ids completed
    | .error _ => objectsIndividually outcome ids completed

/-! ### Request order -/

/-- The object the node found, if it did. -/
def found (outcome : ObjectId → Outcome) (id : ObjectId) : Option Object :=
  match outcome id with
  | .ok (.ok object) => some object
  | _ => none

/-- The object under the id it was asked for by. -/
def foundEntry (outcome : ObjectId → Outcome) (id : ObjectId) : Option (ObjectId × Object) :=
  (found outcome id).map fun object => (id, object)

/-- The fetch ends neither with the object nor with the news that there is none. -/
def Fails (outcome : ObjectId → Outcome) (id : ObjectId) : Prop :=
  (∃ text, outcome id = .error text) ∨
    ∃ status, outcome id = .ok (.error status) ∧ status.code ≠ .notFound

variable {outcome : ObjectId → Outcome} {ids : List ObjectId}

theorem settle_found {id : ObjectId} (h : ¬ Fails outcome id) :
    settle outcome id = .ok (foundEntry outcome id) := by
  unfold settle foundEntry found
  cases hid : outcome id with
  | error text => exact absurd (.inl ⟨text, hid⟩) h
  | ok answer =>
    cases answer with
    | ok object => rfl
    | error status =>
      have hcode : status.code = .notFound := by
        by_contra hne
        exact h (.inr ⟨status, hid, hne⟩)
      exact if_pos hcode

theorem settle_fails {id : ObjectId} (h : Fails outcome id) :
    ∃ text, settle outcome id = .error (.rpc "get_object" text) := by
  unfold settle
  rcases h with ⟨text, hid⟩ | ⟨status, hid, hcode⟩
  · rw [hid]
    exact ⟨text, rfl⟩
  · rw [hid]
    exact ⟨status.text, if_neg hcode⟩

/-- A fetch fails only in a call that reads one object. -/
theorem settle_error {id : ObjectId} {e : GrpcError} (h : settle outcome id = .error e) :
    Fails outcome id ∧ ∃ text, e = .rpc "get_object" text := by
  by_cases hfails : Fails outcome id
  · obtain ⟨text, htext⟩ := settle_fails hfails
    rw [htext] at h
    exact ⟨hfails, text, (Except.error.inj h).symm⟩
  · rw [settle_found hfails] at h
    cases h

theorem requestPosition_rising (hnodup : ids.Nodup) :
    ids.Pairwise fun a b => requestPosition ids a < requestPosition ids b := by
  refine positions_rising hnodup fun a n h => ?_
  rw [requestPosition, h, Option.getD_some]

/-- A chunk is fetched whole, in whatever order its fetches complete. -/
theorem fetchChunk_found {chunk order : List ObjectId} (hjoins : Joins chunk order)
    (hrising : chunk.Pairwise fun a b => requestPosition ids a < requestPosition ids b)
    (hfound : ∀ id ∈ chunk, ¬ Fails outcome id) :
    fetchChunk outcome ids order = .ok (chunk.filterMap (found outcome)) := by
  have hperm := joins_iff_perm.mp hjoins
  have hgathered : order.foldlM (gather (settle outcome)) [] =
      .ok (order.filterMap (foundEntry outcome)) :=
    gather_all (fun id hid => settle_found (hfound id (hperm.subset hid))) []
  have hkeys : (chunk.filterMap (foundEntry outcome)).Pairwise
      fun a b => requestPosition ids a.1 < requestPosition ids b.1 := by
    rw [List.pairwise_filterMap]
    refine hrising.imp fun hlt a ha b hb => ?_
    obtain ⟨_, _, rfl⟩ := Option.map_eq_some_iff.mp ha
    obtain ⟨_, _, rfl⟩ := Option.map_eq_some_iff.mp hb
    exact hlt
  have hsorted : (order.filterMap (foundEntry outcome)).insertionSort
      (fun a b => requestPosition ids a.1 ≤ requestPosition ids b.1) =
        chunk.filterMap (foundEntry outcome) :=
    insertionSort_eq (hperm.filterMap _) hkeys
  rw [fetchChunk, hgathered, ok_bind, hsorted]
  dsimp only
  rw [List.map_filterMap]
  simp only [foundEntry, Option.map_map, Function.comp_def, Option.map_id']

theorem fetchChunk_fails {chunk order : List ObjectId} (hjoins : Joins chunk order)
    (hfails : ∃ id ∈ chunk, Fails outcome id) :
    ∃ text, fetchChunk outcome ids order = .error (.rpc "get_object" text) := by
  obtain ⟨id, hid, hfails⟩ := hfails
  obtain ⟨text, htext⟩ := settle_fails hfails
  obtain ⟨_, _, e, he, hfold⟩ := gather_fails
    ⟨id, (joins_iff_perm.mp hjoins).symm.subset hid, _, htext⟩ []
  obtain ⟨_, text, rfl⟩ := settle_error he
  refine ⟨text, ?_⟩
  rw [fetchChunk, hfold]
  rfl

section run
variable {chunked completed : List (List ObjectId)}
  (hjoins : List.Forall₂ Joins chunked completed)
  (hrising : ∀ chunk ∈ chunked,
    chunk.Pairwise fun a b => requestPosition ids a < requestPosition ids b)
include hjoins hrising

/-- Chunk by chunk, what was found so far stands in request order. -/
theorem run_found (hfound : ∀ id ∈ chunked.flatten, ¬ Fails outcome id) (objects : List Object) :
    completed.foldlM (addChunk outcome ids) objects =
      .ok (objects ++ chunked.flatten.filterMap (found outcome)) := by
  induction hjoins generalizing objects with
  | nil =>
    rw [List.flatten_nil, List.filterMap_nil, List.append_nil]
    rfl
  | @cons chunk order chunked completed hchunk _ ih =>
    rw [List.flatten_cons] at hfound
    have hfetched := fetchChunk_found hchunk (hrising chunk List.mem_cons_self)
      fun id hid => hfound id (List.mem_append_left _ hid)
    rw [List.foldlM_cons, addChunk, hfetched, ok_bind, ok_bind, List.flatten_cons,
      List.filterMap_append, ← List.append_assoc]
    exact ih (fun chunk hmem => hrising chunk (List.mem_cons_of_mem _ hmem))
      (fun id hid => hfound id (List.mem_append_right _ hid)) _

theorem run_fails (hfails : ∃ id ∈ chunked.flatten, Fails outcome id) (objects : List Object) :
    ∃ text, completed.foldlM (addChunk outcome ids) objects =
      .error (.rpc "get_object" text) := by
  induction hjoins generalizing objects with
  | nil =>
    obtain ⟨id, hid, _⟩ := hfails
    cases hid
  | @cons chunk order chunked completed hchunk _ ih =>
    rw [List.foldlM_cons, addChunk]
    by_cases hhere : ∃ id ∈ chunk, Fails outcome id
    · obtain ⟨text, htext⟩ : ∃ text, fetchChunk outcome ids order =
          .error (.rpc "get_object" text) := fetchChunk_fails hchunk hhere
      refine ⟨text, ?_⟩
      rw [htext]
      rfl
    · have hlater : ∃ id ∈ chunked.flatten, Fails outcome id := by
        obtain ⟨id, hid, hid'⟩ := hfails
        rcases List.mem_append.mp (List.flatten_cons ▸ hid) with hmem | hmem
        · exact absurd ⟨id, hmem, hid'⟩ hhere
        · exact ⟨id, hmem, hid'⟩
      have hfetched := fetchChunk_found hchunk (hrising chunk List.mem_cons_self)
        fun id hid hfail => hhere ⟨id, hid, hfail⟩
      rw [hfetched, ok_bind, ok_bind]
      exact ih (fun chunk hmem => hrising chunk (List.mem_cons_of_mem _ hmem)) hlater _

end run

theorem chunks_rising (hnodup : ids.Nodup) : ∀ chunk ∈ chunks fetchConcurrency ids,
    chunk.Pairwise fun a b => requestPosition ids a < requestPosition ids b := by
  intro chunk hchunk
  have hpart := List.sublist_flatten_of_mem hchunk
  rw [chunks_flatten (by decide)] at hpart
  exact (requestPosition_rising hnodup).sublist hpart

theorem objectsIndividually_found (hnodup : ids.Nodup) {completed : List (List ObjectId)}
    (hcompletes : Completes ids completed) (hfound : ∀ id ∈ ids, ¬ Fails outcome id) :
    objectsIndividually outcome ids completed = .ok (ids.filterMap (found outcome)) := by
  have hflatten : (chunks fetchConcurrency ids).flatten = ids := chunks_flatten (by decide) ids
  have hall : ∀ id ∈ (chunks fetchConcurrency ids).flatten, ¬ Fails outcome id := by
    rwa [hflatten]
  have hrun := run_found hcompletes (chunks_rising hnodup) hall []
  rwa [hflatten, List.nil_append] at hrun

theorem objectsIndividually_fails (hnodup : ids.Nodup) {completed : List (List ObjectId)}
    (hcompletes : Completes ids completed) (hfails : ∃ id ∈ ids, Fails outcome id) :
    ∃ text, objectsIndividually outcome ids completed = .error (.rpc "get_object" text) := by
  have hflatten : (chunks fetchConcurrency ids).flatten = ids := chunks_flatten (by decide) ids
  exact run_fails hcompletes (chunks_rising hnodup) (by rwa [hflatten]) []

/-- Whatever order the fetches of each chunk complete in, the objects found come back once each and
in request order, and any other failure is an error. -/
theorem objectsIndividually_in_order (outcome : ObjectId → Outcome) {ids : List ObjectId}
    (hnodup : ids.Nodup) {completed : List (List ObjectId)} (hcompletes : Completes ids completed) :
    ((∀ id ∈ ids, ¬ Fails outcome id) →
      objectsIndividually outcome ids completed = .ok (ids.filterMap (found outcome))) ∧
    ((∃ id ∈ ids, Fails outcome id) →
      ∃ e, objectsIndividually outcome ids completed = .error e) := by
  refine ⟨objectsIndividually_found hnodup hcompletes, fun hfails => ?_⟩
  obtain ⟨text, htext⟩ := objectsIndividually_fails hnodup hcompletes hfails
  exact ⟨_, htext⟩

/-- A node on which object 3 is gone. -/
def withoutThree (id : ObjectId) : Outcome :=
  if id = 3 then .ok (.error ⟨.notFound, "gone"⟩) else .ok (.ok (nodeObject id 1))

theorem withoutThree_found (id : ObjectId) : ¬ Fails withoutThree id := by
  unfold Fails withoutThree
  split
  · simp
  · simp

/-- The last object asked for answers first. -/
theorem objectsIndividually_in_order_of_three :
    objectsIndividually withoutThree [7, 3, 5] [[5, 7, 3]] =
      .ok [nodeObject 7 1, nodeObject 5 1] := by
  have hcompletes : Completes [7, 3, 5] [[5, 7, 3]] := .cons (joins_iff_perm.mpr (by decide)) .nil
  exact (objectsIndividually_in_order withoutThree (by decide) hcompletes).1
    fun id _ => withoutThree_found id

end ObjectFetch
