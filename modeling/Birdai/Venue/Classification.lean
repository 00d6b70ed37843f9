import Birdai.State.Manager
import Birdai.Venue.Verdict

/-!
# Classifying an object

An object end to end: what a transaction did to its price, the call that entered it, and the
static probes of its type. Then what a longer deny list changes.
-/

namespace Classification

open WideArith Outcomes TickIndex MoveTypes Signatures OracleNames SwapShape CetusPool
  AnyVenues Verdicts
open Manager (Object)

/-! ### The behavioural probe -/

def poolPriceState (pool : CetusClmm) : PriceState := ⟨pool.sqrtPrice, pool.liquidity, pool.tick⟩

/-- The price variable, of a venue that has one. -/
def priceStateOf : AnyVenue → Option PriceState
  | .cetus pool => some (poolPriceState pool)
  | .volo _ => none
  | .navi _ => none

def oracleInputs (inputs : List Object) (deny : OracleDenySet) : List String :=
  inputs.filterMap fun object =>
    match object.structTag with
    | none => none
    | some tag => if deny.matches tag.address tag.module then some (shortTag tag) else none

/-- A transaction's effect on a pool, next to the objects it took as inputs. -/
def priceStateChange (before after : CetusClmm) (inputs : List Object) (deny : OracleDenySet) :
    PriceStateChange where
  before := poolPriceState before
  after := poolPriceState after
  coinADelta := (after.coinA.val : ℤ) - before.coinA.val
  coinBDelta := (after.coinB.val : ℤ) - before.coinB.val
  oracleInputs := oracleInputs inputs deny

structure MoveCall where
  package : Address
  module : String
  function : String
  deriving DecidableEq

section classify
variable {ε : Type}

/-- The first call that swaps the venue's assets. A call that cannot be resolved is passed
over. -/
def observedEntry (layouts : LayoutSource ε) (venue : StructTag) :
    List MoveCall → Option SwapEntry
  | [] => none
  | call :: rest =>
    match entryAt layouts venue call.package call.module call.function with
    | .ok (some entry) => some entry
    | _ => observedEntry layouts venue rest

/-! ### One object -/

inductive ClassifyError (ε : Type) where
  | noTypeTag (id : String)
  | venue (error : VenueError ε)

/-- A change that was seen comes before what the object's own fields say. -/
def observationOf (priceState : Option PriceState) (change : Option PriceStateChange) :
    PriceObservation :=
  match change, priceState with
  | some change, _ => .observed change
  | none, none => .noPriceVariable
  | none, some _ => .noTransaction

def classifyObject (deny : OracleDenySet) (layouts : LayoutSource ε) (object : Object)
    (priceState : Option PriceState) (change : Option PriceStateChange)
    (observed : Option SwapEntry) : Except (ClassifyError ε) Verdict := do
  let tag ← okOr object.structTag (.noTypeTag (canonicalText.encode object.id))
  let evidence ← (staticEvidence deny layouts tag).mapError .venue
  .ok (verdict deny tag evidence (observationOf priceState change) observed)

/-- What a checkpoint shows of one transaction on a pool. -/
structure Trade where
  before : CetusClmm
  after : CetusClmm
  inputs : List Object
  calls : List MoveCall

/-- The pool of a transaction, classified by what the transaction did and called. -/
def classifyTraded (deny : OracleDenySet) (layouts : LayoutSource ε) (object : Object)
    (tag : StructTag) (trade : Trade) : Except (ClassifyError ε) Verdict :=
  classifyObject deny layouts object (priceStateOf (.cetus trade.after))
    (some (priceStateChange trade.before trade.after trade.inputs deny))
    (observedEntry layouts tag trade.calls)

end classify

/-! ### What the probes read of a deny list -/

/-- The deny list of two. -/
def joined (deny other : OracleDenySet) : OracleDenySet where
  addresses := deny.addresses ++ other.addresses
  fragments := deny.fragments ++ other.fragments
  words := fun fragment hfragment =>
    (List.mem_append.mp hfragment).elim (deny.words fragment) (other.words fragment)

variable {deny other : OracleDenySet}

theorem matches_joined {package : Address} {module : String} :
    (joined deny other).matches package module =
      (deny.matches package module || other.matches package module) := by
  rw [Bool.eq_iff_iff]
  simp only [OracleDenySet.matches, joined, Bool.or_eq_true, List.contains_iff_mem,
    List.mem_append, List.any_append]
  tauto

theorem referenceFromText_isSome_iff {text : String} :
    (referenceFromText text deny).isSome = true ↔ ∃ fragment ∈ deny.fragments,
      ∃ token ∈ (lowered text).splitOnP isSeparator, NamesAtBoundary fragment.toList token := by
  rw [referenceFromText, Option.isSome_map, List.find?_isSome]
  simp only [List.any_eq_true, decide_eq_true_eq]

theorem namesFeed_joined {entry : SwapEntry} :
    NamesFeed (joined deny other) entry ↔ NamesFeed deny entry ∨ NamesFeed other entry := by
  have htext : ∀ text, (referenceFromText text (joined deny other)).isSome = true ↔
      (referenceFromText text deny).isSome = true ∨
        (referenceFromText text other).isSome = true := by
    intro text
    simp only [referenceFromText_isSome_iff, joined, List.mem_append, or_and_right, exists_or]
  simp only [NamesFeed, htext, and_or_left, exists_or]

theorem linksFeed_joined {package : Package} :
    LinksFeed (joined deny other) package ↔ LinksFeed deny package ∨ LinksFeed other package := by
  simp only [LinksFeed, matches_joined, Bool.or_eq_true, and_or_left, exists_or]

theorem holdsFeed_joined {layout : MoveTypeLayout} :
    HoldsFeed (joined deny other) layout ↔ HoldsFeed deny layout ∨ HoldsFeed other layout := by
  simp only [HoldsFeed, matches_joined, Bool.or_eq_true, and_or_left, exists_or]

/-- An input's type is denied. -/
def TakesFeed (deny : OracleDenySet) (inputs : List Object) : Prop :=
  ∃ object ∈ inputs, ∃ tag, object.structTag = some tag ∧
    deny.matches tag.address tag.module = true

theorem oracleInputs_eq_nil_iff {inputs : List Object} :
    oracleInputs inputs deny = [] ↔ ¬TakesFeed deny inputs := by
  rw [oracleInputs, List.filterMap_eq_nil_iff, TakesFeed]
  push Not
  refine forall₂_congr fun object _ => ?_
  cases object.structTag with
  | none => simp
  | some tag => simp

theorem takesFeed_joined {inputs : List Object} :
    TakesFeed (joined deny other) inputs ↔ TakesFeed deny inputs ∨ TakesFeed other inputs := by
  simp only [TakesFeed, matches_joined, Bool.or_eq_true, and_or_left, exists_or]

/-- The price moved the way the reserves did. -/
def MovedWithFlow (before after : CetusClmm) : Prop :=
  after.coinA ≤ before.coinA ∧ before.coinB < after.coinB ∧ before.sqrtPrice < after.sqrtPrice ∨
    before.coinA < after.coinA ∧ after.coinB ≤ before.coinB ∧ after.sqrtPrice < before.sqrtPrice

theorem isEndogenous_iff {change : PriceStateChange} : change.isEndogenous = true ↔
    change.oracleInputs = [] ∧
      (change.coinADelta ≤ 0 ∧ 0 < change.coinBDelta ∧
          change.before.sqrtPrice < change.after.sqrtPrice ∨
        0 < change.coinADelta ∧ change.coinBDelta ≤ 0 ∧
          change.after.sqrtPrice < change.before.sqrtPrice) := by
  rw [PriceStateChange.isEndogenous]
  by_cases hinputs : change.oracleInputs = []
  · rw [if_neg (not_not_intro hinputs)]
    by_cases hA : 0 < change.coinADelta <;> by_cases hB : 0 < change.coinBDelta <;>
      simp [hinputs, hA, hB, ← not_lt]
  · rw [if_pos hinputs]
    simp [hinputs]

theorem priceStateChange_isEndogenous {before after : CetusClmm} {inputs : List Object} :
    (priceStateChange before after inputs deny).isEndogenous = true ↔
      ¬TakesFeed deny inputs ∧ MovedWithFlow before after := by
  rw [isEndogenous_iff, ← oracleInputs_eq_nil_iff, MovedWithFlow]
  refine and_congr_right fun _ => ?_
  simp only [priceStateChange, poolPriceState, Fin.lt_def, Fin.le_def]
  omega

/-! ### When an object is accepted -/

section accepted
variable {ε : Type} {layouts : LayoutSource ε} {object : Object} {tag : StructTag}

/-- What the static probes read of an object, before any deny list. -/
structure Sight where
  tag : StructTag
  layout : MoveTypeLayout
  package : Package
  scan : Scan

def sight (layouts : LayoutSource ε) (object : Object) : Except (ClassifyError ε) Sight := do
  let tag ← okOr object.structTag (.noTypeTag (canonicalText.encode object.id))
  let layout ← ((layouts.layout tag).mapError VenueError.resolve).mapError .venue
  let package ← ((layouts.package tag.address).mapError VenueError.resolve).mapError .venue
  let scan ← (scanPackage package tag).mapError .venue
  .ok ⟨tag, layout, package, scan⟩

def Sight.evidence (seen : Sight) (deny : OracleDenySet) : StaticEvidence where
  swapEntry := seen.scan.swapEntry
  oracleReferences := oracleReferences deny seen.layout seen.package seen.scan.swapEntry
  functionsExamined := seen.scan.functionCount
  coinFunctions := seen.scan.coinFunctions

/-- The deny list is consulted only once everything has been read. -/
theorem classifyObject_eq {priceState : Option PriceState} {change : Option PriceStateChange}
    {observed : Option SwapEntry} :
    classifyObject deny layouts object priceState change observed =
      (sight layouts object).map fun seen => verdict deny seen.tag (seen.evidence deny)
        (observationOf priceState change) observed := by
  rw [classifyObject, sight]
  cases object.structTag with
  | none => rfl
  | some tag =>
    simp only [okOr, ok_bind, staticEvidence]
    cases layouts.layout tag with
    | error error => rfl
    | ok layout =>
      cases layouts.package tag.address with
      | error error => rfl
      | ok package =>
        simp only [Except.mapError, ok_bind]
        cases hscan : (scanPackage package tag : Except (VenueError ε) Scan) with
        | error error => rfl
        | ok scan => rfl

def Accepts (outcome : Except (ClassifyError ε) Verdict) : Prop :=
  ∃ verdict, outcome = .ok verdict ∧ verdict.isPriceDiscoveryVenue = true

/-- No deny list finds a feed in what was read. -/
structure Clear (deny : OracleDenySet) (inputs : List Object) (seen : Sight) : Prop where
  inputs : ¬TakesFeed deny inputs
  links : ¬LinksFeed deny seen.package
  holds : ¬HoldsFeed deny seen.layout
  names : ∀ entry, seen.scan.swapEntry = some entry → ¬NamesFeed deny entry

theorem clear_joined {inputs : List Object} {seen : Sight} :
    Clear (joined deny other) inputs seen ↔ Clear deny inputs seen ∧ Clear other inputs seen := by
  constructor
  · rintro ⟨hinputs, hlinks, hholds, hnames⟩
    rw [takesFeed_joined, not_or] at hinputs
    rw [linksFeed_joined, not_or] at hlinks
    rw [holdsFeed_joined, not_or] at hholds
    simp only [namesFeed_joined, not_or] at hnames
    exact ⟨⟨hinputs.1, hlinks.1, hholds.1, fun entry h => (hnames entry h).1⟩,
      ⟨hinputs.2, hlinks.2, hholds.2, fun entry h => (hnames entry h).2⟩⟩
  · rintro ⟨h, h'⟩
    constructor
    · rw [takesFeed_joined, not_or]
      exact ⟨h.inputs, h'.inputs⟩
    · rw [linksFeed_joined, not_or]
      exact ⟨h.links, h'.links⟩
    · rw [holdsFeed_joined, not_or]
      exact ⟨h.holds, h'.holds⟩
    · intro entry hentry
      rw [namesFeed_joined, not_or]
      exact ⟨h.names entry hentry, h'.names entry hentry⟩

theorem classifyTraded_accepts_iff {trade : Trade} :
    Accepts (classifyTraded deny layouts object tag trade) ↔
      ∃ seen, sight layouts object = .ok seen ∧
        ((observedEntry layouts tag trade.calls).or seen.scan.swapEntry).isSome = true ∧
        MovedWithFlow trade.before trade.after ∧ Clear deny trade.inputs seen := by
  rw [classifyTraded, classifyObject_eq, Accepts]
  cases sight layouts object with
  | error error => simp [Except.map]
  | ok seen =>
    simp only [Except.map, Except.ok.injEq, exists_eq_left', isPriceDiscoveryVenue_iff,
      observationOf, PriceObservation.isEndogenous, priceStateChange_isEndogenous, Sight.evidence,
      reportedEntry, oracleReferences_eq_nil_iff]
    constructor
    · rintro ⟨hentry, ⟨hinputs, hmoved⟩, hlinks, hholds, hnames⟩
      exact ⟨hentry, hmoved, hinputs, hlinks, hholds, hnames⟩
    · rintro ⟨hentry, hmoved, hclear⟩
      exact ⟨hentry, ⟨hclear.inputs, hmoved⟩, hclear.links, hclear.holds, hclear.names⟩

/-- A joined deny list accepts what both accept. -/
theorem classifyTraded_joined {trade : Trade} :
    Accepts (classifyTraded (joined deny other) layouts object tag trade) ↔
      Accepts (classifyTraded deny layouts object tag trade) ∧
        Accepts (classifyTraded other layouts object tag trade) := by
  simp only [classifyTraded_accepts_iff, clear_joined]
  constructor
  · rintro ⟨seen, hseen, hentry, hmoved, h, h'⟩
    exact ⟨⟨seen, hseen, hentry, hmoved, h⟩, ⟨seen, hseen, hentry, hmoved, h'⟩⟩
  · rintro ⟨⟨seen, hseen, hentry, hmoved, h⟩, ⟨_, hsame, _, _, h'⟩⟩
    cases hseen.symm.trans hsame
    exact ⟨seen, hseen, hentry, hmoved, h, h'⟩

end accepted

/-! ### Denied addresses -/

section denied
variable {ε : Type} {layouts : LayoutSource ε} {object : Object}

/-- A deny list of addresses alone. -/
def listed (addresses : List Address) : OracleDenySet := ⟨addresses, [], nofun⟩

theorem foldl_withAddress (deny : OracleDenySet) (addresses : List Address) :
    addresses.foldl OracleDenySet.withAddress deny = joined deny (listed addresses) := by
  induction addresses generalizing deny with
  | nil => simp [joined, listed]
  | cons address rest ih =>
    rw [List.foldl_cons, ih]
    simp [joined, listed, OracleDenySet.withAddress]

theorem matches_listed {addresses : List Address} {package : Address} {module : String} :
    (listed addresses).matches package module = true ↔ package ∈ addresses := by
  simp [OracleDenySet.matches, listed]

/-- Where an address can be met: the types of the inputs, the modules the package links and
the datatypes of the layout. -/
def Met (inputs : List Object) (seen : Sight) (address : Address) : Prop :=
  (∃ object ∈ inputs, ∃ tag, object.structTag = some tag ∧ tag.address = address) ∨
    (∃ named ∈ seen.package.modules, ∃ handle ∈ named.2.moduleHandles,
      handle.address = address) ∨
    ∃ tag ∈ datatypes seen.layout, tag.address = address

theorem clear_listed {addresses : List Address} {inputs : List Object} {seen : Sight} :
    Clear (listed addresses) inputs seen ↔ ∀ address ∈ addresses, ¬Met inputs seen address := by
  have hnames : ∀ entry, ¬NamesFeed (listed addresses) entry := by
    rintro entry ⟨text, _, htext⟩
    obtain ⟨fragment, hfragment, _⟩ := referenceFromText_isSome_iff.mp htext
    cases hfragment
  constructor
  · rintro ⟨hinputs, hlinks, hholds, _⟩ address haddress
    rintro (⟨object, hobject, tag, htag, rfl⟩ | ⟨named, hnamed, handle, hhandle, rfl⟩ |
      ⟨tag, htag, rfl⟩)
    · exact hinputs ⟨object, hobject, tag, htag, matches_listed.mpr haddress⟩
    · exact hlinks ⟨named, hnamed, handle, hhandle, matches_listed.mpr haddress⟩
    · exact hholds ⟨tag, htag, matches_listed.mpr haddress⟩
  · intro h
    refine ⟨?_, ?_, ?_, fun entry _ => hnames entry⟩
    · rintro ⟨object, hobject, tag, htag, hmatches⟩
      exact h _ (matches_listed.mp hmatches) (.inl ⟨object, hobject, tag, htag, rfl⟩)
    · rintro ⟨named, hnamed, handle, hhandle, hmatches⟩
      exact h _ (matches_listed.mp hmatches) (.inr (.inl ⟨named, hnamed, handle, hhandle, rfl⟩))
    · rintro ⟨tag, htag, hmatches⟩
      exact h _ (matches_listed.mp hmatches) (.inr (.inr ⟨tag, htag, rfl⟩))

/-- Denied addresses turn away exactly the pools that meet one, and fail none. -/
theorem denied_addresses (deny : OracleDenySet) (layouts : LayoutSource ε) (object : Object)
    (tag : StructTag) (trade : Trade) (addresses : List Address) :
    (∀ error, classifyTraded (addresses.foldl OracleDenySet.withAddress deny) layouts object tag
        trade = .error error ↔ classifyTraded deny layouts object tag trade = .error error) ∧
    (Accepts (classifyTraded (addresses.foldl OracleDenySet.withAddress deny) layouts object tag
        trade) ↔
      Accepts (classifyTraded deny layouts object tag trade) ∧
        ∀ seen, sight layouts object = .ok seen →
          ∀ address ∈ addresses, ¬Met trade.inputs seen address) := by
  constructor
  · intro error
    simp only [classifyTraded, classifyObject_eq]
    cases sight layouts object <;> simp [Except.map]
  · rw [foldl_withAddress, classifyTraded_joined]
    refine and_congr_right fun haccepts => ?_
    obtain ⟨seen, hseen, hentry, hmoved, _⟩ := classifyTraded_accepts_iff.mp haccepts
    rw [classifyTraded_accepts_iff]
    constructor
    · rintro ⟨_, hsame, _, _, hclear⟩
      intro other hother
      cases hother.symm.trans hsame
      exact clear_listed.mp hclear
    · intro h
      exact ⟨seen, hseen, hentry, hmoved, clear_listed.mpr (h seen hseen)⟩

end denied
end Classification
