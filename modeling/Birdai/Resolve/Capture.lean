import Birdai.Base.ByteCodecs
import Birdai.Base.OrderedKeys
import Birdai.Move.MoveTypes
import Mathlib.Data.String.Basic

/-!
# Captured checkpoints

A checkpoint stored as its parts, filtered to some of its transactions, and put
together again: what comes back, and what a replayed transaction can look up.
-/

namespace Capture

open WideArith Outcomes OrderedKeys ByteCodecs TickIndex MoveTypes

/-! ### Checkpoints -/

abbrev ObjectKey := ObjectId × U64

structure ObjectChange where
  id : ObjectId
  inputVersion : Option U64
  outputVersion : Option U64

/-- The chain's own types, with what a capture reads of their values. -/
structure Chain where
  Summary : Type
  Contents : Type
  TransactionData : Type
  Signature : Type
  Effects : Type
  Events : Type
  Object : Type
  sequenceNumber : Summary → U64
  objectChanges : Effects → List ObjectChange
  key : Object → ObjectKey

variable {chain : Chain}

/-- Objects, each under its own id and version. -/
structure ObjectSet (chain : Chain) where
  objects : Finmap fun _ : ObjectKey => chain.Object
  keyed : ∀ k object, objects.lookup k = some object → chain.key object = k

namespace ObjectSet

def empty : ObjectSet chain := ⟨∅, fun _ _ h => by simp at h⟩

def get (set : ObjectSet chain) (k : ObjectKey) : Option chain.Object := set.objects.lookup k

def insert (set : ObjectSet chain) (object : chain.Object) : ObjectSet chain where
  objects := set.objects.insert (chain.key object) object
  keyed := by
    intro k other hlookup
    by_cases hk : k = chain.key object
    · subst hk
      rw [Finmap.lookup_insert] at hlookup
      cases hlookup
      rfl
    · rw [Finmap.lookup_insert_of_ne _ hk] at hlookup
      exact set.keyed k other hlookup

theorem get_insert (set : ObjectSet chain) (object : chain.Object) (k : ObjectKey) :
    (set.insert object).get k = if k = chain.key object then some object else set.get k := by
  simp only [get, insert]
  split
  · rename_i hk
    rw [hk, Finmap.lookup_insert]
  · rename_i hk
    rw [Finmap.lookup_insert_of_ne _ hk]

end ObjectSet

structure ExecutedTransaction (chain : Chain) where
  transaction : chain.TransactionData
  signatures : List chain.Signature
  effects : chain.Effects
  events : Option chain.Events
  unchangedLoadedRuntimeObjects : List ObjectKey

structure Checkpoint (chain : Chain) where
  summary : chain.Summary
  contents : chain.Contents
  transactions : List (ExecutedTransaction chain)
  objectSet : ObjectSet chain

/-! ### The captured form -/

structure CapturedTransaction where
  transaction : String
  signatures : List String
  effects : String
  events : Option String
  unchanged : List (String × U64)

/-- Encoded objects by the text of their id, then by version. -/
abbrev CapturedObjects := Finmap fun _ : String => Finmap fun _ : U64 => String

structure CapturedCheckpoint where
  summary : String
  contents : String
  transactions : List CapturedTransaction
  objects : CapturedObjects

structure Fixtures where
  checkpoints : Finmap fun _ : U64 => CapturedCheckpoint

inductive FixtureError where
  | bcs (path what message : String)
  | missing (what detail : String)

def checkpointsFile : String := "checkpoints.json"

def objectsFile : String := "objects.json"

/-- The formats a capture relies on: BCS for each type, base64, and the canonical text of
an object id. -/
structure Formats (chain : Chain) where
  summary : Codec chain.Summary (List Byte)
  contents : Codec chain.Contents (List Byte)
  transaction : Codec chain.TransactionData (List Byte)
  signature : Codec chain.Signature (List Byte)
  effects : Codec chain.Effects (List Byte)
  events : Codec chain.Events (List Byte)
  object : Codec chain.Object (List Byte)
  base64 : TextCodec (List Byte)
  id : TextCodec ObjectId

variable (formats : Formats chain)

/-- `BASE64.encode(bcs::to_bytes(..)?)`, with the error naming what was encoded. -/
def encodeAs {α : Type} (codec : Codec α (List Byte)) (path what : String) (a : α) :
    Except FixtureError String :=
  match codec.encode a with
  | .ok bytes => .ok (formats.base64.encode bytes)
  | .error message => .error (.bcs path what message)

def decodeRequired {α : Type} (codec : Codec α (List Byte)) (path what : String)
    (encoded : String) : Except FixtureError α :=
  match formats.base64.decode encoded with
  | .error message => .error (.bcs path "base64" message)
  | .ok bytes =>
    match codec.decode bytes with
    | .error message => .error (.bcs path what message)
    | .ok a => .ok a

def decode (encoded : String) : Except FixtureError chain.Object :=
  decodeRequired formats formats.object objectsFile "Object" encoded

/-! ### Recording -/

def recordInto (into : CapturedObjects) (object : chain.Object) (what : String) :
    Except FixtureError CapturedObjects := do
  let encoded ← encodeAs formats formats.object objectsFile what object
  let id := formats.id.encode (chain.key object).1
  let versions := (into.lookup id).getD ∅
  .ok (into.insert id (versions.insert (chain.key object).2 encoded))

/-- The versions of an object that a change names, where the checkpoint holds them. -/
def recordChange (set : ObjectSet chain) (into : CapturedObjects) (change : ObjectChange) :
    Except FixtureError CapturedObjects :=
  ([change.inputVersion, change.outputVersion].filterMap id).foldlM (fun into version =>
    match set.get (change.id, version) with
    | some object => recordInto formats into object "object"
    | none => .ok into) into

def captureTransaction (set : ObjectSet chain) (into : CapturedObjects)
    (executed : ExecutedTransaction chain) :
    Except FixtureError (CapturedTransaction × CapturedObjects) := do
  let transaction ←
    encodeAs formats formats.transaction checkpointsFile "TransactionData" executed.transaction
  let effects ←
    encodeAs formats formats.effects checkpointsFile "TransactionEffects" executed.effects
  let events ←
    executed.events.mapM (encodeAs formats formats.events checkpointsFile "TransactionEvents")
  let signatures ←
    executed.signatures.mapM
      (encodeAs formats formats.signature checkpointsFile "GenericSignature")
  let into ← (chain.objectChanges executed.effects).foldlM (recordChange formats set) into
  .ok
    ({ transaction
       signatures
       effects
       events
       unchanged := executed.unchangedLoadedRuntimeObjects.map fun key =>
        (formats.id.encode key.1, key.2) },
     into)

variable {σ : Type} (keep : σ → ExecutedTransaction chain → Bool × σ)

/-- One turn of the loop; the predicate may have a state of its own. -/
def captureNext (set : ObjectSet chain) (state : CapturedCheckpoint × σ)
    (executed : ExecutedTransaction chain) : Except FixtureError (CapturedCheckpoint × σ) :=
  match keep state.2 executed with
  | (false, asked) => .ok (state.1, asked)
  | (true, asked) => do
    let (entry, objects) ← captureTransaction formats set state.1.objects executed
    .ok ({ state.1 with transactions := state.1.transactions ++ [entry], objects }, asked)

def recordCheckpoint (fixtures : Fixtures) (checkpoint : Checkpoint chain) (start : σ) :
    Except FixtureError Fixtures := do
  let summary ←
    encodeAs formats formats.summary checkpointsFile "CertifiedCheckpointSummary"
      checkpoint.summary
  let contents ←
    encodeAs formats formats.contents checkpointsFile "CheckpointContents" checkpoint.contents
  let captured : CapturedCheckpoint := { summary, contents, transactions := [], objects := ∅ }
  let (captured, _) ←
    checkpoint.transactions.foldlM (captureNext formats keep checkpoint.objectSet)
      (captured, start)
  .ok { fixtures with
    checkpoints := fixtures.checkpoints.insert (chain.sequenceNumber checkpoint.summary) captured }

/-! ### Reassembling -/

/-- A corrupt entry is only warned about. -/
def insertDecoded (set : ObjectSet chain) (encoded : String) : ObjectSet chain :=
  match decode formats encoded with
  | .ok object => set.insert object
  | .error _ => set

def reassembleTransaction (entry : CapturedTransaction) :
    Except FixtureError (ExecutedTransaction chain) := do
  let transaction ←
    decodeRequired formats formats.transaction checkpointsFile "TransactionData" entry.transaction
  let effects ←
    decodeRequired formats formats.effects checkpointsFile "TransactionEffects" entry.effects
  let events ←
    entry.events.mapM (decodeRequired formats formats.events checkpointsFile "TransactionEvents")
  let signatures ←
    entry.signatures.mapM
      (decodeRequired formats formats.signature checkpointsFile "GenericSignature")
  .ok
    { transaction
      signatures
      effects
      events
      unchangedLoadedRuntimeObjects := entry.unchanged.filterMap fun key =>
        (formats.id.decode key.1).toOption.map fun id => (id, key.2) }

def checkpoint (fixtures : Fixtures) (sequence : U64) :
    Except FixtureError (Checkpoint chain) := do
  let captured ← okOr (fixtures.checkpoints.lookup sequence)
    (.missing "checkpoint" (toString sequence.val))
  let summary ←
    decodeRequired formats formats.summary checkpointsFile "CertifiedCheckpointSummary"
      captured.summary
  let contents ←
    decodeRequired formats formats.contents checkpointsFile "CheckpointContents"
      captured.contents
  let objectSet := (values captured.objects).foldl (fun set versions =>
    (values versions).foldl (insertDecoded formats) set) .empty
  let transactions ← captured.transactions.mapM (reassembleTransaction formats)
  .ok { summary, contents, transactions, objectSet }

/-! ### Every part survives -/

section parts
variable {formats}

theorem encodeAs_eq_ok {α : Type} {codec : Codec α (List Byte)} {path what encoded : String}
    {a : α} (h : encodeAs formats codec path what a = .ok encoded) :
    ∃ bytes, codec.encode a = .ok bytes ∧ encoded = formats.base64.encode bytes := by
  rw [encodeAs] at h
  split at h
  · rename_i bytes hbytes
    cases h
    exact ⟨bytes, hbytes, rfl⟩
  · cases h

theorem decodeRequired_encodeAs {α : Type} {codec : Codec α (List Byte)}
    {path what encoded : String} (path' what' : String) {a : α}
    (h : encodeAs formats codec path what a = .ok encoded) :
    decodeRequired formats codec path' what' encoded = .ok a := by
  obtain ⟨bytes, hbytes, rfl⟩ := encodeAs_eq_ok h
  rw [decodeRequired, formats.base64.decode_encode]
  dsimp only
  rw [codec.decode_encode hbytes]

theorem reassembleTransaction_captured {set : ObjectSet chain} {into into' : CapturedObjects}
    {executed : ExecutedTransaction chain} {entry : CapturedTransaction}
    (h : captureTransaction formats set into executed = .ok (entry, into')) :
    reassembleTransaction formats entry = .ok executed := by
  obtain ⟨transaction, htransaction, h⟩ := bind_eq_ok_iff.mp h
  obtain ⟨effects, heffects, h⟩ := bind_eq_ok_iff.mp h
  obtain ⟨events, hevents, h⟩ := bind_eq_ok_iff.mp h
  obtain ⟨signatures, hsignatures, h⟩ := bind_eq_ok_iff.mp h
  obtain ⟨_, _, h⟩ := bind_eq_ok_iff.mp h
  cases h
  have hevents' : events.mapM (decodeRequired formats formats.events checkpointsFile
      "TransactionEvents") = .ok executed.events := by
    cases hsome : executed.events with
    | none =>
      rw [hsome] at hevents
      cases hevents
      rfl
    | some emitted =>
      rw [hsome, Option.mapM_some] at hevents
      obtain ⟨encoded, hencoded, hevents⟩ := bind_eq_ok_iff.mp hevents
      cases hevents
      rw [Option.mapM_some, decodeRequired_encodeAs _ _ hencoded]
      rfl
  have hsignatures' : signatures.mapM (decodeRequired formats formats.signature checkpointsFile
      "GenericSignature") = .ok executed.signatures :=
    mapM_decode (fun _ _ => decodeRequired_encodeAs _ _) hsignatures
  have hunchanged : (executed.unchangedLoadedRuntimeObjects.map fun key =>
      (formats.id.encode key.1, key.2)).filterMap (fun key =>
        (formats.id.decode key.1).toOption.map fun id => (id, key.2)) =
      executed.unchangedLoadedRuntimeObjects := by
    rw [List.filterMap_map]
    refine (congrArg (List.filterMap · _) (funext fun key => ?_)).trans List.filterMap_some
    simp only [Function.comp_apply, formats.id.decode_encode]
    rfl
  rw [reassembleTransaction, decodeRequired_encodeAs _ _ htransaction, ok_bind,
    decodeRequired_encodeAs _ _ heffects, ok_bind, hevents', ok_bind, hsignatures', ok_bind,
    hunchanged]

/-! ### The recorded objects -/

def objectAt (into : CapturedObjects) (id : String) (version : U64) : Option String :=
  (into.lookup id).bind (·.lookup version)

/-- The capture holds exactly the checkpoint's objects under the named keys. -/
structure Holds (formats : Formats chain) (set : ObjectSet chain) (into : CapturedObjects)
    (named : ObjectKey → Prop) : Prop where
  complete : ∀ k object, named k → set.get k = some object →
    ∃ encoded, objectAt into (formats.id.encode k.1) k.2 = some encoded ∧
      decode formats encoded = .ok object
  sound : ∀ id version encoded, objectAt into id version = some encoded →
    ∃ k object, formats.id.encode k.1 = id ∧ k.2 = version ∧ named k ∧
      set.get k = some object ∧ decode formats encoded = .ok object

theorem holds_empty (set : ObjectSet chain) : Holds formats set ∅ fun _ => False :=
  ⟨fun _ _ h => h.elim, fun _ _ _ h => by simp [objectAt] at h⟩

/-- Only the keys that the checkpoint resolves matter. -/
theorem Holds.congr {set : ObjectSet chain} {into : CapturedObjects}
    {named named' : ObjectKey → Prop} (h : Holds formats set into named)
    (hsame : ∀ k object, set.get k = some object → (named k ↔ named' k)) :
    Holds formats set into named' := by
  constructor
  · intro k object hnamed hget
    exact h.complete k object ((hsame k object hget).mpr hnamed) hget
  · intro id version encoded hat
    obtain ⟨k, object, hid, hversion, hnamed, hget, hdecode⟩ := h.sound id version encoded hat
    exact ⟨k, object, hid, hversion, (hsame k object hget).mp hnamed, hget, hdecode⟩

theorem objectAt_insert (into : CapturedObjects) (id id' : String) (version version' : U64)
    (encoded : String) :
    objectAt (into.insert id (((into.lookup id).getD ∅).insert version encoded)) id' version' =
      if id' = id ∧ version' = version then some encoded else objectAt into id' version' := by
  simp only [objectAt]
  by_cases hid : id' = id
  · subst hid
    rw [Finmap.lookup_insert, Option.bind_some]
    by_cases hversion : version' = version
    · subst hversion
      rw [Finmap.lookup_insert, if_pos ⟨rfl, rfl⟩]
    · rw [Finmap.lookup_insert_of_ne _ hversion, if_neg fun h => hversion h.2]
      cases into.lookup id' with
      | none => exact Finmap.lookup_empty version'
      | some versions => rfl
  · rw [Finmap.lookup_insert_of_ne _ hid, if_neg fun h => hid h.1]

theorem recordInto_holds {set : ObjectSet chain} {into into' : CapturedObjects}
    {named : ObjectKey → Prop} {object : chain.Object} {what : String}
    (h : Holds formats set into named) (hget : set.get (chain.key object) = some object)
    (hrecord : recordInto formats into object what = .ok into') :
    Holds formats set into' fun k => named k ∨ k = chain.key object := by
  obtain ⟨encoded, hencoded, hrecord⟩ := bind_eq_ok_iff.mp hrecord
  cases hrecord
  have hdecode : decode formats encoded = .ok object := decodeRequired_encodeAs _ _ hencoded
  constructor
  · intro k other hnamed hget'
    rw [objectAt_insert]
    by_cases hsame : k = chain.key object
    · subst hsame
      rw [if_pos ⟨rfl, rfl⟩]
      obtain rfl := Option.some.inj (hget.symm.trans hget')
      exact ⟨encoded, rfl, hdecode⟩
    · rw [if_neg fun hkey =>
        hsame (Prod.ext (formats.id.encode_injective hkey.1) hkey.2)]
      exact h.complete k other (hnamed.resolve_right hsame) hget'
  · intro id version found hat
    rw [objectAt_insert] at hat
    split at hat
    · rename_i hkey
      cases hat
      exact ⟨chain.key object, object, hkey.1.symm, hkey.2.symm, .inr rfl, hget, hdecode⟩
    · obtain ⟨k, other, hid, hversion, hnamed, hget', hdecode'⟩ := h.sound id version found hat
      exact ⟨k, other, hid, hversion, .inl hnamed, hget', hdecode'⟩

/-- Input or output version of a change. -/
def ObjectChange.Names (change : ObjectChange) (k : ObjectKey) : Prop :=
  k.1 = change.id ∧ (change.inputVersion = some k.2 ∨ change.outputVersion = some k.2)

/-- Input or output version of some change of the transaction. -/
def ExecutedTransaction.Changes (executed : ExecutedTransaction chain) (k : ObjectKey) : Prop :=
  ∃ change ∈ chain.objectChanges executed.effects, change.Names k

/-- A fold that records what each item names records what all of them name. -/
theorem foldlM_holds {α : Type} {set : ObjectSet chain} {names : α → ObjectKey → Prop}
    {record : CapturedObjects → α → Except FixtureError CapturedObjects}
    (hstep : ∀ into into' named a, Holds formats set into named → record into a = .ok into' →
      Holds formats set into' fun k => named k ∨ names a k)
    {items : List α} {into into' : CapturedObjects} {named : ObjectKey → Prop}
    (h : Holds formats set into named) (hfold : items.foldlM record into = .ok into') :
    Holds formats set into' fun k => named k ∨ ∃ a ∈ items, names a k := by
  induction items generalizing into named with
  | nil =>
    cases hfold
    exact h.congr (by simp)
  | cons a items ih =>
    rw [List.foldlM_cons] at hfold
    obtain ⟨between, hrecord, hfold⟩ := bind_eq_ok_iff.mp hfold
    refine (ih (hstep _ _ _ a h hrecord) hfold).congr fun k object _ => ?_
    simp only [List.exists_mem_cons_iff, or_assoc]

theorem recordChange_holds {set : ObjectSet chain} {into into' : CapturedObjects}
    {named : ObjectKey → Prop} {change : ObjectChange} (h : Holds formats set into named)
    (hrecord : recordChange formats set into change = .ok into') :
    Holds formats set into' fun k => named k ∨ change.Names k := by
  have hstep : ∀ into into' named version, Holds formats set into named →
      (match set.get (change.id, version) with
        | some object => recordInto formats into object "object"
        | none => .ok into) = .ok into' →
      Holds formats set into' fun k => named k ∨ k = (change.id, version) := by
    intro into into' named version h hrecord
    cases hget : set.get (change.id, version) with
    | none =>
      rw [hget] at hrecord
      cases hrecord
      refine h.congr fun k object hk => (or_iff_left ?_).symm
      rintro rfl
      rw [hget] at hk
      cases hk
    | some object =>
      rw [hget] at hrecord
      have hkey := set.keyed _ object hget
      rw [← hkey] at hget
      rw [← hkey]
      exact recordInto_holds h hget hrecord
  refine (foldlM_holds hstep h hrecord).congr fun k object _ => or_congr_right ?_
  obtain ⟨id, version⟩ := k
  simp only [ObjectChange.Names, List.mem_filterMap, List.mem_cons, List.not_mem_nil]
  grind

/-! ### The loop over the transactions -/

/-- The transactions the predicate accepts, asked in order. -/
def kept {σ : Type} (keep : σ → ExecutedTransaction chain → Bool × σ) :
    σ → List (ExecutedTransaction chain) → List (ExecutedTransaction chain)
  | _, [] => []
  | asked, executed :: rest =>
    if (keep asked executed).1 then executed :: kept keep (keep asked executed).2 rest
    else kept keep (keep asked executed).2 rest

/-- The capture reassembles to these transactions, over the objects their changes name. -/
structure Captures (formats : Formats chain) (set : ObjectSet chain)
    (captured : CapturedCheckpoint) (transactions : List (ExecutedTransaction chain)) : Prop where
  reassembled : captured.transactions.mapM (reassembleTransaction formats) = .ok transactions
  objects : Holds formats set captured.objects fun k => ∃ executed ∈ transactions,
    executed.Changes k

theorem captureTransaction_holds {set : ObjectSet chain} {into into' : CapturedObjects}
    {named : ObjectKey → Prop} {executed : ExecutedTransaction chain}
    {entry : CapturedTransaction} (h : Holds formats set into named)
    (hcapture : captureTransaction formats set into executed = .ok (entry, into')) :
    Holds formats set into' fun k => named k ∨ executed.Changes k := by
  obtain ⟨_, _, hcapture⟩ := bind_eq_ok_iff.mp hcapture
  obtain ⟨_, _, hcapture⟩ := bind_eq_ok_iff.mp hcapture
  obtain ⟨_, _, hcapture⟩ := bind_eq_ok_iff.mp hcapture
  obtain ⟨_, _, hcapture⟩ := bind_eq_ok_iff.mp hcapture
  obtain ⟨_, hfold, hcapture⟩ := bind_eq_ok_iff.mp hcapture
  cases hcapture
  have hstep : ∀ into into' named change, Holds formats set into named →
      recordChange formats set into change = .ok into' →
      Holds formats set into' fun k => named k ∨ change.Names k :=
    fun _ _ _ _ => recordChange_holds
  exact foldlM_holds hstep h hfold

theorem captureNext_captures {σ : Type} {keep : σ → ExecutedTransaction chain → Bool × σ}
    {set : ObjectSet chain} {state state' : CapturedCheckpoint × σ}
    {executed : ExecutedTransaction chain} {before : List (ExecutedTransaction chain)}
    (h : Captures formats set state.1 before)
    (hnext : captureNext formats keep set state executed = .ok state') :
    Captures formats set state'.1
        (before ++ if (keep state.2 executed).1 then [executed] else []) ∧
      state'.2 = (keep state.2 executed).2 ∧ state'.1.summary = state.1.summary ∧
      state'.1.contents = state.1.contents := by
  rw [captureNext] at hnext
  split at hnext
  · rename_i asked hkeep
    cases hnext
    rw [hkeep, if_neg Bool.false_ne_true, List.append_nil]
    exact ⟨h, rfl, rfl, rfl⟩
  · rename_i asked hkeep
    obtain ⟨⟨entry, objects⟩, hcapture, hnext⟩ := bind_eq_ok_iff.mp hnext
    cases hnext
    rw [hkeep, if_pos rfl]
    refine ⟨⟨?_, ?_⟩, rfl, rfl, rfl⟩
    · rw [List.mapM_append, h.reassembled, ok_bind, List.mapM_cons,
        reassembleTransaction_captured hcapture]
      rfl
    · refine (captureTransaction_holds h.objects hcapture).congr fun k object _ => ?_
      simp only [List.mem_append, List.mem_singleton]
      grind

theorem foldlM_captures {σ : Type} {keep : σ → ExecutedTransaction chain → Bool × σ}
    {set : ObjectSet chain} {transactions : List (ExecutedTransaction chain)}
    {state state' : CapturedCheckpoint × σ} {before : List (ExecutedTransaction chain)}
    (h : Captures formats set state.1 before)
    (hfold : transactions.foldlM (captureNext formats keep set) state = .ok state') :
    Captures formats set state'.1 (before ++ kept keep state.2 transactions) ∧
      state'.1.summary = state.1.summary ∧ state'.1.contents = state.1.contents := by
  induction transactions generalizing state before with
  | nil =>
    cases hfold
    rw [kept, List.append_nil]
    exact ⟨h, rfl, rfl⟩
  | cons executed rest ih =>
    rw [List.foldlM_cons] at hfold
    obtain ⟨between, hnext, hfold⟩ := bind_eq_ok_iff.mp hfold
    obtain ⟨hcaptures, hasked, hsummary, hcontents⟩ := captureNext_captures h hnext
    obtain ⟨hrest, hsummary', hcontents'⟩ := ih hcaptures hfold
    refine ⟨?_, hsummary'.trans hsummary, hcontents'.trans hcontents⟩
    rw [hasked, List.append_assoc] at hrest
    rw [kept]
    cases hkeep : (keep state.2 executed).1 with
    | true =>
      rw [hkeep, if_pos rfl, List.singleton_append] at hrest
      exact hrest
    | false =>
      rw [hkeep, if_neg Bool.false_ne_true, List.nil_append] at hrest
      exact hrest

theorem recordCheckpoint_captures {σ : Type} {keep : σ → ExecutedTransaction chain → Bool × σ}
    {start : σ} {fixtures recorded : Fixtures} {original : Checkpoint chain}
    (h : recordCheckpoint formats keep fixtures original start = .ok recorded) :
    ∃ captured,
      recorded.checkpoints.lookup (chain.sequenceNumber original.summary) = some captured ∧
      decodeRequired formats formats.summary checkpointsFile "CertifiedCheckpointSummary"
        captured.summary = .ok original.summary ∧
      decodeRequired formats formats.contents checkpointsFile "CheckpointContents"
        captured.contents = .ok original.contents ∧
      Captures formats original.objectSet captured (kept keep start original.transactions) := by
  obtain ⟨summary, hsummary, h⟩ := bind_eq_ok_iff.mp h
  obtain ⟨contents, hcontents, h⟩ := bind_eq_ok_iff.mp h
  obtain ⟨⟨captured, asked⟩, hfold, h⟩ := bind_eq_ok_iff.mp h
  cases h
  have hstart : Captures formats original.objectSet
      { summary, contents, transactions := [], objects := ∅ } [] := by
    constructor
    · rfl
    · exact (holds_empty original.objectSet).congr (by simp)
  obtain ⟨hcaptures, hsame, hsame'⟩ := foldlM_captures hstart hfold
  dsimp only at hsame hsame'
  subst hsame hsame'
  exact ⟨captured, Finmap.lookup_insert _, decodeRequired_encodeAs _ _ hsummary,
    decodeRequired_encodeAs _ _ hcontents, hcaptures⟩

/-! ### The reassembled object set -/

theorem mem_flatMap_values {into : CapturedObjects} {encoded : String} :
    encoded ∈ (values into).flatMap values ↔
      ∃ id version, objectAt into id version = some encoded := by
  simp only [List.mem_flatMap, mem_values, objectAt, Option.bind_eq_some_iff]
  constructor
  · rintro ⟨versions, ⟨id, hid⟩, version, hversion⟩
    exact ⟨id, version, versions, hid, hversion⟩
  · rintro ⟨id, version, versions, hid, hversion⟩
    exact ⟨versions, ⟨id, hid⟩, version, hversion⟩

/-- Entries that all come from one object set cannot overwrite each other. -/
theorem foldl_insertDecoded {set start : ObjectSet chain} {entries : List String}
    (hentries : ∀ encoded ∈ entries, ∃ object, decode formats encoded = .ok object ∧
      set.get (chain.key object) = some object)
    (hstart : ∀ k object, start.get k = some object → set.get k = some object)
    (k : ObjectKey) (object : chain.Object) :
    (entries.foldl (insertDecoded formats) start).get k = some object ↔
      start.get k = some object ∨
        ∃ encoded ∈ entries, decode formats encoded = .ok object ∧ chain.key object = k := by
  induction entries generalizing start with
  | nil => simp
  | cons encoded entries ih =>
    obtain ⟨decoded, hdecode, hget⟩ := hentries encoded List.mem_cons_self
    have hinsert : insertDecoded formats start encoded = start.insert decoded := by
      rw [insertDecoded, hdecode]
    have hsub : ∀ k object, (start.insert decoded).get k = some object →
        set.get k = some object := by
      intro k object h
      rw [ObjectSet.get_insert] at h
      split at h
      · rename_i hk
        cases h
        rw [hk]
        exact hget
      · exact hstart k object h
    have hstep : (start.insert decoded).get k = some object ↔
        start.get k = some object ∨ decoded = object ∧ chain.key object = k := by
      rw [ObjectSet.get_insert]
      constructor
      · intro h
        split at h
        · rename_i hk
          cases h
          exact .inr ⟨rfl, hk.symm⟩
        · exact .inl h
      · rintro (h | ⟨rfl, rfl⟩)
        · split
          · rename_i hk
            have hsame := hstart k object h
            rw [hk, hget] at hsame
            exact hsame
          · exact h
        · exact if_pos rfl
    rw [List.foldl_cons, hinsert,
      ih (fun e he => hentries e (List.mem_cons_of_mem _ he)) hsub, hstep]
    simp only [List.exists_mem_cons_iff, hdecode, Except.ok.injEq, or_assoc]

theorem Holds.get_reassembled {set : ObjectSet chain} {into : CapturedObjects}
    {named : ObjectKey → Prop} (h : Holds formats set into named) (k : ObjectKey)
    (object : chain.Object) :
    ((values into).foldl (fun set versions =>
        (values versions).foldl (insertDecoded formats) set) .empty).get k = some object ↔
      set.get k = some object ∧ named k := by
  have hentries : ∀ encoded ∈ (values into).flatMap values, ∃ object,
      decode formats encoded = .ok object ∧ set.get (chain.key object) = some object := by
    intro encoded hencoded
    obtain ⟨id, version, hat⟩ := mem_flatMap_values.mp hencoded
    obtain ⟨k, object, _, _, _, hget, hdecode⟩ := h.sound id version encoded hat
    exact ⟨object, hdecode, by rwa [set.keyed k object hget]⟩
  have hnone : ∀ k object, ObjectSet.empty.get k = some object → set.get k = some object := by
    intro k object hempty
    simp [ObjectSet.empty, ObjectSet.get] at hempty
  rw [← List.foldl_flatMap, foldl_insertDecoded hentries hnone]
  constructor
  · rintro (hempty | ⟨encoded, hencoded, hdecode, rfl⟩)
    · simp [ObjectSet.empty, ObjectSet.get] at hempty
    · obtain ⟨id, version, hat⟩ := mem_flatMap_values.mp hencoded
      obtain ⟨k, found, _, _, hnamed, hget, hfound⟩ := h.sound id version encoded hat
      obtain rfl : found = object := Except.ok.inj (hfound.symm.trans hdecode)
      rw [set.keyed k found hget]
      exact ⟨hget, hnamed⟩
  · rintro ⟨hget, hnamed⟩
    obtain ⟨encoded, hat, hdecode⟩ := h.complete k object hnamed hget
    exact .inr ⟨encoded, mem_flatMap_values.mpr ⟨_, _, hat⟩, hdecode, set.keyed k object hget⟩

theorem checkpoint_of_captures {fixtures : Fixtures} {captured : CapturedCheckpoint}
    {sequence : U64} {original : Checkpoint chain}
    {transactions : List (ExecutedTransaction chain)}
    (hlookup : fixtures.checkpoints.lookup sequence = some captured)
    (hsummary : decodeRequired formats formats.summary checkpointsFile
      "CertifiedCheckpointSummary" captured.summary = .ok original.summary)
    (hcontents : decodeRequired formats formats.contents checkpointsFile "CheckpointContents"
      captured.contents = .ok original.contents)
    (h : Captures formats original.objectSet captured transactions) :
    ∃ back, checkpoint formats fixtures sequence = .ok back ∧
      back.summary = original.summary ∧ back.contents = original.contents ∧
      back.transactions = transactions ∧
      ∀ k object, back.objectSet.get k = some object ↔
        original.objectSet.get k = some object ∧ ∃ executed ∈ transactions, executed.Changes k := by
  refine ⟨⟨original.summary, original.contents, transactions, _⟩, ?_, rfl, rfl, rfl,
    h.objects.get_reassembled⟩
  rw [checkpoint, hlookup]
  dsimp only [okOr]
  rw [ok_bind, hsummary, ok_bind, hcontents, ok_bind, h.reassembled, ok_bind]

end parts

/-! ### A ledger of numbers -/

/-- Every part is a number, and the effects name one input. -/
def ledger : Chain where
  Summary := U64
  Contents := U64
  TransactionData := U64
  Signature := U64
  Effects := ObjectKey
  Events := U64
  Object := ObjectKey
  sequenceNumber := id
  objectChanges key := [⟨key.1, some key.2, none⟩]
  key := id

theorem u64_bytes : 2 ^ 64 = 256 ^ 8 := by norm_num

theorem objectId_bytes : 2 ^ 256 = 256 ^ 32 := by norm_num

def u64Codec : Codec U64 (List Byte) := littleEndian (2 ^ 64) 8 u64_bytes

def objectIdCodec : Codec ObjectId (List Byte) :=
  reversed (littleEndian (2 ^ 256) 32 objectId_bytes)

theorem length_objectIdCodec (id : ObjectId) (bytes : List Byte)
    (h : objectIdCodec.encode id = .ok bytes) : bytes.length = 32 := by
  cases h
  rw [List.length_reverse, List.length_map, length_digitsLE]

def objectKeyCodec : Codec ObjectKey (List Byte) :=
  pair objectIdCodec u64Codec 32 length_objectIdCodec

def ledgerFormats : Formats ledger where
  summary := u64Codec
  contents := u64Codec
  transaction := u64Codec
  signature := u64Codec
  effects := objectKeyCodec
  events := u64Codec
  object := objectKeyCodec
  base64 := base64
  id := canonicalText

/-- Spends `(1, 5)` and reads `(2, 7)`. -/
def payment : ExecutedTransaction ledger :=
  ⟨(4 : U64), [(9 : U64)], ((1, 5) : ObjectKey), some (3 : U64), [(2, 7)]⟩

/-- Spends what the payment reads. -/
def refund : ExecutedTransaction ledger :=
  ⟨(6 : U64), [], ((2, 7) : ObjectKey), none, []⟩

def ledgerCheckpoint : Checkpoint ledger :=
  ⟨(1 : U64), (8 : U64), [payment, refund],
    (ObjectSet.empty.insert ((1, 5) : ObjectKey)).insert ((2, 7) : ObjectKey)⟩

/-- Accepts the first transaction it is asked about. -/
def keepFirst (first : Bool) (_ : ExecutedTransaction ledger) : Bool × Bool := (first, false)

theorem ledgerCheckpoint_get (k : ObjectKey) (h : k = (1, 5) ∨ k = (2, 7)) :
    ledgerCheckpoint.objectSet.get k = some k := by
  have hinner := (ObjectSet.empty : ObjectSet ledger).get_insert ((1, 5) : ObjectKey)
  have houter := ((ObjectSet.empty : ObjectSet ledger).insert ((1, 5) : ObjectKey)).get_insert
    ((2, 7) : ObjectKey)
  rcases h with rfl | rfl
  · exact (houter (1, 5)).trans ((if_neg (by decide)).trans ((hinner (1, 5)).trans (if_pos rfl)))
  · exact (houter (2, 7)).trans (if_pos rfl)

theorem ledger_recorded : ∃ recorded,
    recordCheckpoint ledgerFormats keepFirst ⟨∅⟩ ledgerCheckpoint true = .ok recorded := by
  have hok : (recordCheckpoint ledgerFormats keepFirst ⟨∅⟩ ledgerCheckpoint true).isOk = true := by
    decide +kernel
  cases hrecord : recordCheckpoint ledgerFormats keepFirst ⟨∅⟩ ledgerCheckpoint true with
  | ok recorded => exact ⟨recorded, rfl⟩
  | error e =>
    rw [hrecord] at hok
    cases hok

/-! ### What comes back -/

/-- A recorded checkpoint reassembles to the kept transactions, over exactly the objects
that their changes name. -/
theorem checkpoint_round_trip (fixtures recorded : Fixtures) (original : Checkpoint chain)
    (start : σ) (h : recordCheckpoint formats keep fixtures original start = .ok recorded) :
    ∃ back, checkpoint formats recorded (chain.sequenceNumber original.summary) = .ok back ∧
      back.summary = original.summary ∧ back.contents = original.contents ∧
      back.transactions = kept keep start original.transactions ∧
      ∀ k object, back.objectSet.get k = some object ↔
        original.objectSet.get k = some object ∧
          ∃ executed ∈ kept keep start original.transactions, executed.Changes k := by
  obtain ⟨captured, hlookup, hsummary, hcontents, hcaptures⟩ := recordCheckpoint_captures h
  exact checkpoint_of_captures hlookup hsummary hcontents hcaptures

theorem checkpoint_round_trip_ledger : ∃ recorded back,
    recordCheckpoint ledgerFormats keepFirst ⟨∅⟩ ledgerCheckpoint true = .ok recorded ∧
    checkpoint ledgerFormats recorded 1 = .ok back ∧ back.transactions = [payment] := by
  obtain ⟨recorded, hrecord⟩ := ledger_recorded
  obtain ⟨back, hback, _, _, htransactions, _⟩ :=
    checkpoint_round_trip ledgerFormats keepFirst ⟨∅⟩ recorded ledgerCheckpoint true hrecord
  exact ⟨recorded, back, hrecord, hback, htransactions⟩

/-- What a kept transaction changed resolves as before; what it only loaded resolves as
before when a kept transaction changed it, and is absent otherwise. -/
theorem replayed_lookups (fixtures recorded : Fixtures) (original : Checkpoint chain)
    (start : σ) (h : recordCheckpoint formats keep fixtures original start = .ok recorded) :
    ∃ back, checkpoint formats recorded (chain.sequenceNumber original.summary) = .ok back ∧
      ∀ executed ∈ kept keep start original.transactions, ∀ k object,
        original.objectSet.get k = some object →
        (executed.Changes k → back.objectSet.get k = some object) ∧
        (k ∈ executed.unchangedLoadedRuntimeObjects →
          ((∃ other ∈ kept keep start original.transactions, other.Changes k) →
            back.objectSet.get k = some object) ∧
          ((¬∃ other ∈ kept keep start original.transactions, other.Changes k) →
            back.objectSet.get k = none)) := by
  obtain ⟨captured, hlookup, hsummary, hcontents, hcaptures⟩ := recordCheckpoint_captures h
  obtain ⟨back, hback, _, _, _, hobjects⟩ :=
    checkpoint_of_captures hlookup hsummary hcontents hcaptures
  refine ⟨back, hback, fun executed hkept k object hget => ⟨?_, fun _ => ⟨?_, ?_⟩⟩⟩
  · intro hchanges
    exact (hobjects k object).mpr ⟨hget, executed, hkept, hchanges⟩
  · intro hnamed
    exact (hobjects k object).mpr ⟨hget, hnamed⟩
  · intro hnamed
    cases hfound : back.objectSet.get k with
    | none => rfl
    | some found => exact absurd ((hobjects k found).mp hfound).2 hnamed

theorem replayed_lookups_ledger : ∃ recorded back,
    recordCheckpoint ledgerFormats keepFirst ⟨∅⟩ ledgerCheckpoint true = .ok recorded ∧
    checkpoint ledgerFormats recorded 1 = .ok back ∧
    back.objectSet.get (1, 5) = some (1, 5) := by
  obtain ⟨recorded, hrecord⟩ := ledger_recorded
  obtain ⟨back, hback, hlookups⟩ :=
    replayed_lookups ledgerFormats keepFirst ⟨∅⟩ recorded ledgerCheckpoint true hrecord
  refine ⟨recorded, back, hrecord, hback, ?_⟩
  exact (hlookups payment (.head _) (1, 5) ((1, 5) : ObjectKey)
    (ledgerCheckpoint_get _ (.inl rfl))).1
    ⟨⟨1, some 5, none⟩, .head _, rfl, .inl rfl⟩

/-- The payment's read of `(2, 7)` resolves in the checkpoint, and no longer once the
refund is dropped. -/
theorem unchanged_lookup_lost : ∃ recorded back,
    recordCheckpoint ledgerFormats keepFirst ⟨∅⟩ ledgerCheckpoint true = .ok recorded ∧
    checkpoint ledgerFormats recorded 1 = .ok back ∧
    payment ∈ kept keepFirst true ledgerCheckpoint.transactions ∧
    (2, 7) ∈ payment.unchangedLoadedRuntimeObjects ∧
    ledgerCheckpoint.objectSet.get (2, 7) = some (2, 7) ∧
    back.objectSet.get (2, 7) = none := by
  obtain ⟨recorded, hrecord⟩ := ledger_recorded
  obtain ⟨captured, hlookup, hsummary, hcontents, hcaptures⟩ := recordCheckpoint_captures hrecord
  obtain ⟨back, hback, _, _, _, hobjects⟩ :=
    checkpoint_of_captures hlookup hsummary hcontents hcaptures
  refine ⟨recorded, back, hrecord, hback, .head _, .head _,
    ledgerCheckpoint_get _ (.inr rfl), ?_⟩
  cases hfound : back.objectSet.get (2, 7) with
  | none => rfl
  | some found =>
    obtain ⟨_, executed, hkept, change, hchange, hid, _⟩ := (hobjects (2, 7) found).mp hfound
    obtain rfl := List.mem_singleton.mp hkept
    obtain rfl := List.mem_singleton.mp hchange
    exact absurd hid (by decide)

end Capture
