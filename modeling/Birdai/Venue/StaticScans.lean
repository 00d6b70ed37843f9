import Birdai.Base.BlockScans
import Birdai.Venue.Verdict

/-!
# Scanning a package

The scan of a defining package read off one listing of all its functions: the first
function that settles the search, the functions counted, and the signatures reported.
-/

namespace StaticScans

open Outcomes BlockScans MoveTypes Signatures OracleNames SwapShape Verdicts

variable {ε : Type}

/-- A function of a package: its module, under the package's name for it, and its own name. -/
abbrev Listed := (String × Module) × String

/-- Every function of the package, in the order they are read. -/
def listing (package : Package) : List Listed :=
  package.modules.flatMap fun named => named.2.functions.map (named, ·)

def Unreadable (listed : Listed) (message : String) : Prop :=
  listed.1.2.functionDef listed.2 = .error message

/-- A callable function that takes one asset of the venue in and hands another out. -/
def Exchanges (tag : StructTag) (listed : Listed) : Prop :=
  ∃ definition, listed.1.2.functionDef listed.2 = .ok (some definition) ∧
    isCallable definition = true ∧ ∃ x y, Borrowed definition tag x ∧ Borrowed definition tag y ∧
      Exchanged definition .staticScan x y

/-- The entry reported for a function. -/
def ReportedAs (tag : StructTag) (listed : Listed) (entry : SwapEntry) : Prop :=
  ∃ definition, listed.1.2.functionDef listed.2 = .ok (some definition) ∧
    isCallable definition = true ∧
      swapShape listed.1.1 listed.2 definition .staticScan (some tag) = some entry

def PassedOver (tag : StructTag) (listed : Listed) : Prop :=
  (∃ found, listed.1.2.functionDef listed.2 = .ok found) ∧ ¬Exchanges tag listed

/-- Every function before this one is passed over. -/
def First (tag : StructTag) (package : Package) (listed : Listed) : Prop :=
  ∃ before after, listing package = before ++ listed :: after ∧
    ∀ passed ∈ before, PassedOver tag passed

/-- A callable function with a coin or a balance in its signature. -/
def TouchesCoin (listed : Listed) : Prop :=
  ∃ definition, listed.1.2.functionDef listed.2 = .ok (some definition) ∧
    isCallable definition = true ∧
      ∃ signature ∈ definition.parameters ++ definition.returns,
        mentionsCoin (renderSignature signature) = true

/-- The signatures of all of these, in the order they are read. -/
def coinListing (package : Package) : List String :=
  (listing package).filterMap fun listed => coinSignature listed.1.1 listed.1.2 listed.2

theorem exists_reportedAs {tag : StructTag} {listed : Listed} :
    (∃ entry, ReportedAs tag listed entry) ↔ Exchanges tag listed := by
  constructor
  · rintro ⟨entry, definition, hread, hcallable, hshape⟩
    exact ⟨definition, hread, hcallable,
      (swapShape_isSome_iff ..).mp (Option.isSome_of_eq_some hshape)⟩
  · rintro ⟨definition, hread, hcallable, hexchanged⟩
    obtain ⟨entry, hshape⟩ := Option.isSome_iff_exists.mp
      ((swapShape_isSome_iff listed.1.1 listed.2 ..).mpr hexchanged)
    exact ⟨entry, definition, hread, hcallable, hshape⟩

/-! ### One function -/

/-- What one function settles: an unreadable one fails the scan, a swap ends it. -/
def decision (tag : StructTag) (listed : Listed) : Option (Except String SwapEntry) :=
  match listed.1.2.functionDef listed.2 with
  | .error message => some (.error message)
  | .ok none => none
  | .ok (some definition) =>
    if isCallable definition then
      (swapShape listed.1.1 listed.2 definition .staticScan (some tag)).map .ok
    else none

theorem decision_eq_error_iff {tag : StructTag} {listed : Listed} {message : String} :
    decision tag listed = some (.error message) ↔ Unreadable listed message := by
  rw [decision, Unreadable]
  cases hread : listed.1.2.functionDef listed.2 with
  | error found => simp
  | ok found =>
    cases found with
    | none => simp
    | some definition =>
      cases hcallable : isCallable definition <;> simp

theorem decision_eq_ok_iff {tag : StructTag} {listed : Listed} {entry : SwapEntry} :
    decision tag listed = some (.ok entry) ↔ ReportedAs tag listed entry := by
  rw [decision, ReportedAs]
  cases hread : listed.1.2.functionDef listed.2 with
  | error found => simp
  | ok found =>
    cases found with
    | none => simp
    | some definition =>
      cases hcallable : isCallable definition <;> simp [hcallable]

theorem decision_eq_none_iff {tag : StructTag} {listed : Listed} :
    decision tag listed = none ↔ PassedOver tag listed := by
  have herror : ∀ message, decision tag listed = some (.error message) ↔ _ :=
    fun _ => decision_eq_error_iff
  have hok : ∀ entry, decision tag listed = some (.ok entry) ↔ _ := fun _ => decision_eq_ok_iff
  rw [PassedOver, ← exists_reportedAs]
  constructor
  · intro hnone
    refine ⟨?_, fun ⟨entry, hreported⟩ => ?_⟩
    · cases hread : listed.1.2.functionDef listed.2 with
      | ok found => exact ⟨found, rfl⟩
      | error message =>
        have hfails := (herror message).mpr hread
        rw [hnone] at hfails
        cases hfails
    · have hfound := (hok entry).mpr hreported
      rw [hnone] at hfound
      cases hfound
  · rintro ⟨⟨found, hread⟩, hnot⟩
    rcases hdecided : decision tag listed with _ | (message | entry)
    · rfl
    · have hfails := (herror message).mp hdecided
      rw [Unreadable, hread] at hfails
      cases hfails
    · exact absurd ⟨entry, (hok entry).mp hdecided⟩ hnot

theorem coinSignature_isSome_iff {listed : Listed} :
    (coinSignature listed.1.1 listed.1.2 listed.2).isSome = true ↔ TouchesCoin listed := by
  rw [coinSignature, TouchesCoin]
  cases hread : listed.1.2.functionDef listed.2 with
  | error found => simp
  | ok found =>
    cases found with
    | none => simp
    | some definition =>
      cases hcallable : isCallable definition with
      | false => simp [hcallable]
      | true =>
        simp only [Bool.true_and, Option.isSome_ite, ← List.map_append, List.any_map,
          List.any_eq_true, Function.comp_apply, Except.ok.injEq, Option.some.injEq, hcallable,
          exists_eq_left', true_and]

/-! ### One module -/

theorem scanFunctions_eq (named : String × Module) (tag : StructTag) (names : List String) :
    scanFunctions named.1 named.2 tag names =
      settled ((names.map (named, ·)).findSome? (decision tag)) := by
  induction names with
  | nil => rfl
  | cons name rest ih =>
    rw [List.map_cons, List.findSome?_cons, scanFunctions, decision]
    dsimp only
    cases named.2.functionDef name with
    | error message => rfl
    | ok found =>
      cases found with
      | none => exact ih
      | some definition =>
        cases hcallable : isCallable definition with
        | false => simpa only [ok_bind, hcallable, Bool.not_false, if_true, Bool.false_eq_true,
            if_false] using ih
        | true =>
          cases hshape : swapShape named.1 name definition .staticScan (some tag) with
          | none => simpa only [ok_bind, hcallable, hshape, Bool.not_true, Bool.false_eq_true,
              if_false, if_true, Option.map_none] using ih
          | some entry => simp only [ok_bind, hcallable, hshape, Bool.not_true,
              Bool.false_eq_true, if_false, if_true, Option.map_some, settled]

theorem coinSignatures_eq (named : String × Module) :
    coinSignatures named.1 named.2 = (named.2.functions.map (named, ·)).filterMap
      fun listed : Listed => coinSignature listed.1.1 listed.1.2 listed.2 := by
  rw [coinSignatures, List.filterMap_map]
  rfl

/-! ### The whole package -/

variable (ε) in
/-- What one function settles, as the scan of its package reports it. -/
def verdictOn (tag : StructTag) (listed : Listed) : Option (Except (VenueError ε) SwapEntry) :=
  (decision tag listed).map (Except.mapError (.function listed.1.1 "<scan>"))

theorem findInterAssetSwap_eq (named : String × Module) (tag : StructTag) :
    (findInterAssetSwap named.1 named.2 tag).mapError
        (fun message => VenueError.function named.1 "<scan>" message) =
      settled ((named.2.functions.map (named, ·)).findSome? (verdictOn ε tag)) := by
  have hmap : (named.2.functions.map (named, ·)).findSome? (verdictOn ε tag) =
      ((named.2.functions.map (named, ·)).findSome? (decision tag)).map
        (Except.mapError (.function named.1 "<scan>")) := by
    rw [List.map_findSome?, List.findSome?_map, List.findSome?_map]
    rfl
  rw [findInterAssetSwap, scanFunctions_eq, hmap, settled_mapError]

/-- The scan from any point on. -/
theorem foldlM_scanModule (tag : StructTag) (modules : List (String × Module)) (scan : Scan) :
    (modules.foldlM (scanModule tag) scan : Except (VenueError ε) Scan) =
      settled ((scan.swapEntry.map .ok).or
        ((modules.flatMap fun named => named.2.functions.map (named, ·)).findSome?
          (verdictOn ε tag))) >>= fun swapEntry => .ok
        { swapEntry
          coinFunctions := gather maxReportedCoinFunctions scan.coinFunctions
            (modules.map fun named => coinSignatures named.1 named.2)
          functionCount := scan.functionCount +
            (modules.flatMap fun named => named.2.functions.map (named, ·)).length } := by
  induction modules generalizing scan with
  | nil => rcases scan with ⟨_ | entry, coins, count⟩ <;> rfl
  | cons named modules ih =>
    have hcount : ∀ count : ℕ, count + named.2.functions.length +
        (modules.flatMap fun named => named.2.functions.map (named, ·)).length = count +
          (named.2.functions.map (named, ·) ++
            modules.flatMap fun named => named.2.functions.map (named, ·)).length := by
      intro count
      rw [List.length_append, List.length_map, add_assoc]
    rw [List.foldlM_cons, List.flatMap_cons, List.findSome?_append, scanModule, List.map_cons]
    rcases scan with ⟨_ | entry, coins, count⟩
    · simp only [Option.isNone_none, if_true, findInterAssetSwap_eq, Option.map_none,
        Option.none_or]
      -- this module settles the search, or leaves it to those behind it
      rcases (named.2.functions.map (named, ·)).findSome? (verdictOn ε tag) with
        _ | (error | entry)
      · simp only [settled, ok_bind, ih, hcount, Option.map_none, Option.none_or, gather_cons]
      · rfl
      · simp only [settled, ok_bind, ih, hcount, Option.map_some, Option.some_or, gather_cons]
    · simp only [Option.isNone_some, Bool.false_eq_true, if_false, ok_bind, ih, hcount,
        Option.map_some, Option.some_or, settled, gather_cons]

theorem scanPackage_eq (package : Package) (tag : StructTag) :
    (scanPackage package tag : Except (VenueError ε) Scan) =
      settled ((listing package).findSome? (verdictOn ε tag)) >>= fun swapEntry => .ok
        { swapEntry
          coinFunctions := gather maxReportedCoinFunctions []
            (package.modules.map fun named => coinSignatures named.1 named.2)
          functionCount := (listing package).length } := by
  rw [scanPackage, foldlM_scanModule]
  simp only [Option.map_none, Option.none_or, Nat.zero_add, listing]

theorem coinSignatures_flatten (package : Package) :
    (package.modules.map fun named => coinSignatures named.1 named.2).flatten =
      coinListing package := by
  rw [coinListing, listing, List.filterMap_flatMap, ← List.flatMap_def]
  exact List.flatMap_congr fun named _ => coinSignatures_eq named

theorem coinListing_eq_nil_iff {package : Package} :
    coinListing package = [] ↔ ∀ listed ∈ listing package, ¬TouchesCoin listed := by
  rw [coinListing, List.filterMap_eq_nil_iff]
  simp only [← coinSignature_isSome_iff, Option.not_isSome_iff_eq_none]

variable (ε) in
theorem verdictOn_eq_none_iff {tag : StructTag} {listed : Listed} :
    verdictOn ε tag listed = none ↔ PassedOver tag listed := by
  rw [verdictOn, Option.map_eq_none_iff, decision_eq_none_iff]

variable (ε) in
theorem verdictOn_eq_ok_iff {tag : StructTag} {listed : Listed} {entry : SwapEntry} :
    verdictOn ε tag listed = some (.ok entry) ↔ ReportedAs tag listed entry := by
  rw [← decision_eq_ok_iff, verdictOn]
  rcases decision tag listed with _ | (message | found) <;> simp [Except.mapError]

theorem verdictOn_eq_error_iff {tag : StructTag} {listed : Listed} {error : VenueError ε} :
    verdictOn ε tag listed = some (.error error) ↔
      ∃ message, Unreadable listed message ∧ error = .function listed.1.1 "<scan>" message := by
  have hunreadable : ∀ message, decision tag listed = some (.error message) ↔
      Unreadable listed message := fun _ => decision_eq_error_iff
  simp only [← hunreadable, verdictOn]
  rcases decision tag listed with _ | (message | found) <;> simp [Except.mapError, eq_comm]

/-- The scan ends at the first function that settles it. -/
theorem first_settles {tag : StructTag} {package : Package}
    {d : Except (VenueError ε) SwapEntry} :
    (listing package).findSome? (verdictOn ε tag) = some d ↔
      ∃ listed, First tag package listed ∧ verdictOn ε tag listed = some d := by
  rw [List.findSome?_eq_some_iff]
  simp only [First, verdictOn_eq_none_iff ε]
  constructor
  · rintro ⟨before, listed, after, hlisting, hsettles, hbefore⟩
    exact ⟨listed, ⟨before, after, hlisting, hbefore⟩, hsettles⟩
  · rintro ⟨listed, ⟨before, after, hlisting, hbefore⟩, hsettles⟩
    exact ⟨before, listed, after, hlisting, hsettles, hbefore⟩

theorem staticEvidence_eq {deny : OracleDenySet} {layouts : LayoutSource ε} {tag : StructTag}
    {layout : MoveTypeLayout} {package : Package} (hlayout : layouts.layout tag = .ok layout)
    (hpackage : layouts.package tag.address = .ok package) :
    staticEvidence deny layouts tag =
      settled ((listing package).findSome? (verdictOn ε tag)) >>= fun swapEntry => .ok
        { swapEntry
          oracleReferences := oracleReferences deny layout package swapEntry
          functionsExamined := (listing package).length
          coinFunctions := gather maxReportedCoinFunctions []
            (package.modules.map fun named => coinSignatures named.1 named.2) } := by
  rw [staticEvidence, hlayout, hpackage]
  change (scanPackage package tag >>= _) = _
  rw [scanPackage_eq]
  cases settled ((listing package).findSome? (verdictOn ε tag)) <;> rfl

/-- The static evidence of a type, read off the listing of its package. Where a function
cannot be read before a swap is met the whole probe fails; behind the swap nothing counts. -/
theorem evidence_by_listing (deny : OracleDenySet) (layouts : LayoutSource ε) (tag : StructTag)
    (layout : MoveTypeLayout) (package : Package) (hlayout : layouts.layout tag = .ok layout)
    (hpackage : layouts.package tag.address = .ok package) :
    (∀ error, staticEvidence deny layouts tag = .error error ↔
      ∃ listed message, First tag package listed ∧ Unreadable listed message ∧
        error = .function listed.1.1 "<scan>" message) ∧
    ∀ evidence, staticEvidence deny layouts tag = .ok evidence →
      (∀ entry, evidence.swapEntry = some entry ↔
        ∃ listed, First tag package listed ∧ ReportedAs tag listed entry) ∧
      (evidence.swapEntry = none ↔ ∀ listed ∈ listing package, PassedOver tag listed) ∧
      evidence.functionsExamined = (listing package).length ∧
      (evidence.coinFunctions <+: coinListing package ∧
        min maxReportedCoinFunctions (coinListing package).length ≤
          evidence.coinFunctions.length) ∧
      (evidence.coinFunctions = [] ↔ ∀ listed ∈ listing package, ¬TouchesCoin listed) := by
  rw [staticEvidence_eq hlayout hpackage]
  refine ⟨fun error => ?_, fun evidence h => ?_⟩
  · rw [bind_ok_eq_error_iff, settled_eq_error_iff, first_settles]
    simp only [verdictOn_eq_error_iff]
    constructor
    · rintro ⟨listed, hlisted, message, hunreadable, herror⟩
      exact ⟨listed, message, hlisted, hunreadable, herror⟩
    · rintro ⟨listed, message, hlisted, hunreadable, herror⟩
      exact ⟨listed, hlisted, message, hunreadable, herror⟩
  · obtain ⟨found, hsettled, h⟩ := bind_eq_ok_iff.mp h
    cases h
    dsimp only
    rw [← coinListing_eq_nil_iff, ← coinSignatures_flatten]
    refine ⟨fun entry => ?_, ?_, rfl, ⟨gather_starts _ _, gather_enough _ _⟩,
      gather_eq_nil_iff (by decide) _⟩
    · simp only [← verdictOn_eq_ok_iff ε]
      rw [← first_settles, ← settled_eq_some_iff, hsettled, Except.ok.injEq]
    · simp only [← verdictOn_eq_none_iff ε]
      rw [← List.findSome?_eq_none_iff, ← settled_eq_none_iff, hsettled, Except.ok.injEq]

/-! ### A module that cannot be read -/

/-- The pool and one coin, for the other coin. -/
def routedSwap : FunctionDef where
  visibility := .«public»
  isEntry := false
  parameters := [poolBorrow 0 1, coin 0]
  returns := [coin 1]

/-- The unreadable module comes before the router. -/
def brokenPackage : Package :=
  ⟨30, [("math", ⟨"math", ["log2"], fun _ => .error "invalid signature token", []⟩),
    ("router", ⟨"router", ["swap"], fun _ => .ok (some routedSwap), []⟩)],
    fun _ => "module not found"⟩

def brokenLayouts : LayoutSource String where
  layout tag := .ok (.struct tag [])
  package _ := .ok brokenPackage

theorem evidence_by_listing_broken :
    staticEvidence .defaultMainnet brokenLayouts pool =
      .error (.function "math" "<scan>" "invalid signature token") := by
  have hlisting := evidence_by_listing .defaultMainnet brokenLayouts pool (.struct pool [])
    brokenPackage rfl rfl
  exact (hlisting.1 _).mpr ⟨_, _, ⟨[], _, rfl, fun _ h => absurd h List.not_mem_nil⟩, rfl, rfl⟩

end StaticScans
