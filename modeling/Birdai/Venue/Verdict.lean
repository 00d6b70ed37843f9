import Birdai.Venue.AnyVenue
import Birdai.Venue.OracleNames
import Birdai.Venue.SwapShape
import Mathlib.Data.Prod.Lex
import Mathlib.Data.String.Basic

/-!
# The verdict

What the classifier gathers from a defining package, how it reads a call the chain
made, and the three probes that make a verdict of both.
-/

namespace Verdicts

open WideArith Outcomes TickIndex MoveTypes Signatures OrderedKeys OracleNames SwapShape

def maxReportedCoinFunctions : ℕ := 12

/-- A package as the package resolver reads it: its modules in the order of their names, and
the resolver's words for a module it does not have. -/
structure Package where
  storageId : Address
  modules : List (String × Module)
  notFound : String → String

def Package.module (package : Package) (name : String) : Except String Module :=
  okOr (package.modules.lookup name) (package.notFound name)

structure LayoutSource (ε : Type) where
  layout : StructTag → Except ε MoveTypeLayout
  package : Address → Except ε Package

inductive VenueError (ε : Type) where
  | module (package module : String)
  | function (module function message : String)
  | resolve (error : ε)

structure StaticEvidence where
  swapEntry : Option SwapEntry
  oracleReferences : List OracleReference
  functionsExamined : ℕ
  coinFunctions : List String

structure PriceState where
  sqrtPrice : U128
  liquidity : U128
  tick : I32

structure PriceStateChange where
  before : PriceState
  after : PriceState
  coinADelta : ℤ
  coinBDelta : ℤ
  oracleInputs : List String

inductive PriceObservation where
  | observed (change : PriceStateChange)
  | noPriceVariable
  | noTransaction

structure Probe where
  name : String
  passed : Bool
  detail : String

structure Verdict where
  tag : String
  probes : List Probe

def Verdict.isPriceDiscoveryVenue (verdict : Verdict) : Bool := verdict.probes.all Probe.passed

/-! ### The price state -/

/-- The price moved the way the flow went, with no oracle involved. -/
def PriceStateChange.isEndogenous (change : PriceStateChange) : Bool :=
  if change.oracleInputs ≠ [] then false
  else
    match decide (0 < change.coinADelta), decide (0 < change.coinBDelta) with
    | false, true => change.before.sqrtPrice < change.after.sqrtPrice
    | true, false => change.after.sqrtPrice < change.before.sqrtPrice
    | _, _ => false

def PriceStateChange.explain (change : PriceStateChange) : String :=
  if change.oracleInputs ≠ [] then
    "oracle objects among the inputs: " ++ ", ".intercalate change.oracleInputs
  else
    let direction :=
      match decide (0 < change.coinADelta), decide (0 < change.coinBDelta) with
      | false, true => "B in, so sqrt price must rise"
      | true, false => "A in, so sqrt price must fall"
      | _, _ => "no net flow in either reserve"
    direction ++ "; sqrt price " ++ toString change.before.sqrtPrice.val ++ " -> " ++
      toString change.after.sqrtPrice.val ++ " (liquidity " ++
      toString change.before.liquidity.val ++ " -> " ++ toString change.after.liquidity.val ++
      ", tick " ++ toString change.before.tick.val ++ " -> " ++ toString change.after.tick.val ++
      ")"

/-! ### Reading functions -/

def scanFunctions (moduleName : String) (module : Module) (venue : StructTag) :
    List String → Except String (Option SwapEntry)
  | [] => .ok none
  | name :: rest => do
    match ← module.functionDef name with
    | none => scanFunctions moduleName module venue rest
    | some definition =>
      if !isCallable definition then scanFunctions moduleName module venue rest
      else
        match swapShape moduleName name definition .staticScan (some venue) with
        | some entry => .ok (some entry)
        | none => scanFunctions moduleName module venue rest

def findInterAssetSwap (moduleName : String) (module : Module) (venue : StructTag) :
    Except String (Option SwapEntry) :=
  scanFunctions moduleName module venue module.functions

def mentionsCoin (text : String) : Bool :=
  "::Coin<".toList <:+: text.toList ∨ "::Balance<".toList <:+: text.toList

def coinSignature (moduleName : String) (module : Module) (name : String) : Option String :=
  match module.functionDef name with
  | .ok (some definition) =>
    let parameters := definition.parameters.map renderSignature
    let returns := definition.returns.map renderSignature
    if isCallable definition && (parameters ++ returns).any mentionsCoin then
      some (moduleName ++ "::" ++ name ++ "(" ++ ", ".intercalate parameters ++ ") -> (" ++
        ", ".intercalate returns ++ ")")
    else none
  | _ => none

/-- A function that cannot be read is passed over here. -/
def coinSignatures (moduleName : String) (module : Module) : List String :=
  module.functions.filterMap (coinSignature moduleName module)

/-! ### Static evidence -/

variable {ε : Type} (deny : OracleDenySet)

structure Scan where
  swapEntry : Option SwapEntry := none
  coinFunctions : List String := []
  functionCount : ℕ := 0

def scanModule (tag : StructTag) (scan : Scan) (named : String × Module) :
    Except (VenueError ε) Scan := do
  let swapEntry ←
    if scan.swapEntry.isNone then
      (findInterAssetSwap named.1 named.2 tag).mapError fun message =>
        .function named.1 "<scan>" message
    else .ok scan.swapEntry
  .ok
    { swapEntry
      coinFunctions :=
        if scan.coinFunctions.length < maxReportedCoinFunctions then
          scan.coinFunctions ++ coinSignatures named.1 named.2
        else scan.coinFunctions
      functionCount := scan.functionCount + named.2.functions.length }

/-- Every module of the defining package, up to the first swap and the reported signatures. -/
def scanPackage (package : Package) (tag : StructTag) : Except (VenueError ε) Scan :=
  package.modules.foldlM (scanModule tag) {}

def viaRank : OracleVia → ℕ
  | .moduleDependency => 0
  | .fieldType => 1
  | .swapSignature => 2

/-- The derived order: package, then module, then where it was seen. -/
def sortKey (reference : OracleReference) : String ×ₗ String ×ₗ ℕ :=
  toLex (reference.package, toLex (reference.module, viaRank reference.via))

def referenceLe (a b : OracleReference) : Prop := sortKey a ≤ sortKey b

instance : DecidableRel referenceLe := fun a b =>
  inferInstanceAs (Decidable (sortKey a ≤ sortKey b))

def signatureReferences (entry : SwapEntry) : List OracleReference :=
  (entry.parameters ++ entry.returns).filterMap (referenceFromText · deny)

def oracleReferences (layout : MoveTypeLayout) (package : Package) (swapEntry : Option SwapEntry) :
    List OracleReference :=
  let dependencies := package.modules.flatMap fun named =>
    scanModuleDependencies named.1 named.2 deny
  let found := scanLayoutForOracles layout deny dependencies
  sortDedup referenceLe
    (match swapEntry with
      | some entry => found ++ signatureReferences deny entry
      | none => found)

/-- The two static probes. The layout is resolved first. -/
def staticEvidence (layouts : LayoutSource ε) (tag : StructTag) :
    Except (VenueError ε) StaticEvidence := do
  let layout ← (layouts.layout tag).mapError .resolve
  let package ← (layouts.package tag.address).mapError .resolve
  let scan ← scanPackage package tag
  .ok
    { swapEntry := scan.swapEntry
      oracleReferences := oracleReferences deny layout package scan.swapEntry
      functionsExamined := scan.functionCount
      coinFunctions := scan.coinFunctions }

/-- The function a transaction called, when it swaps the venue's assets. -/
def entryAt (layouts : LayoutSource ε) (venue : StructTag) (package : Address)
    (module function : String) : Except (VenueError ε) (Option SwapEntry) := do
  let package ← (layouts.package package).mapError .resolve
  let resolved ← (package.module module).mapError fun error =>
    .module (canonicalText.encode package.storageId) (module ++ " (" ++ error ++ ")")
  let found ← (resolved.functionDef function).mapError fun message =>
    .function module function message
  match found with
  | none => .error (.function module function
      "the function is not in the module the transaction named")
  | some definition =>
    if !isCallable definition then .ok none
    else .ok (swapShape resolved.name function definition .observedCall (some venue))

/-! ### The three probes -/

def evidenceText : EntryEvidence → String
  | .staticScan => "StaticScan"
  | .observedCall => "ObservedCall"

def viaText : OracleVia → String
  | .moduleDependency => "ModuleDependency"
  | .fieldType => "FieldType"
  | .swapSignature => "SwapSignature"

def indicesText (indices : List U16) : String :=
  "[" ++ ", ".intercalate (indices.map fun index => toString index.val) ++ "]"

/-- The entry the chain executed comes before the scanned one. -/
def reportedEntry (evidence : StaticEvidence) (observed : Option SwapEntry) : Option SwapEntry :=
  observed.or evidence.swapEntry

def swapProbe (tag : StructTag) (evidence : StaticEvidence) (observed : Option SwapEntry) :
    Probe :=
  match reportedEntry evidence observed with
  | some entry =>
    { name := "inter-asset swap entry"
      passed := true
      detail := "`" ++ entry.module ++ "::" ++ entry.function ++ "` (" ++
        evidenceText entry.evidence ++ ") mutably borrows the object's generic state and " ++
        "carries asset legs on type parameters " ++ indicesText entry.assetTypeParameters ++
        ": (" ++ ", ".intercalate entry.parameters ++ ") -> (" ++
        ", ".intercalate entry.returns ++ ")" }
  | none =>
    { name := "inter-asset swap entry"
      passed := false
      detail := "none of the " ++ toString evidence.functionsExamined ++
        " functions in the package defining " ++ shortTag tag ++
        " exchanges one of the type's own coin parameters for another with a `&mut` borrow " ++
        "of the object" ++
        if evidence.coinFunctions.isEmpty then
          "; no callable function mentions a Coin or a Balance at all"
        else "; the coin-touching signatures considered were: " ++
          " | ".intercalate evidence.coinFunctions }

def PriceObservation.isEndogenous : PriceObservation → Bool
  | .observed change => change.isEndogenous
  | _ => false

def PriceObservation.explain : PriceObservation → String
  | .observed change => change.explain
  | .noPriceVariable =>
    "the object's own state carries no price variable at all, so nothing in it can be " ++
      "discovered by trading"
  | .noTransaction =>
    "no transaction observed for this object, so the price state could not be checked " ++
      "against flow"

def priceProbe (observation : PriceObservation) : Probe where
  name := "endogenous price state"
  passed := observation.isEndogenous
  detail := observation.explain

def oracleProbe (evidence : StaticEvidence) : Probe where
  name := "no oracle dependency"
  passed := evidence.oracleReferences.isEmpty
  detail :=
    if evidence.oracleReferences.isEmpty then
      "no linked module, field type or entry signature names a price feed (scanned for " ++
        ", ".intercalate deny.fragments ++ ")"
    else
      "; ".intercalate (evidence.oracleReferences.map fun reference =>
        reference.package ++ "/" ++ reference.module ++ " via " ++ viaText reference.via)

def verdict (tag : StructTag) (evidence : StaticEvidence) (observation : PriceObservation)
    (observed : Option SwapEntry) : Verdict :=
  ⟨shortTag tag, [swapProbe tag evidence observed, priceProbe observation,
    oracleProbe deny evidence]⟩

/-! ### What the verdict rests on -/

/-- A parameter or a return names a price feed. -/
def NamesFeed (entry : SwapEntry) : Prop :=
  ∃ text ∈ entry.parameters ++ entry.returns, (referenceFromText text deny).isSome = true

variable {deny}

theorem swapProbe_passed {tag : StructTag} {evidence : StaticEvidence}
    {observed : Option SwapEntry} :
    (swapProbe tag evidence observed).passed = (reportedEntry evidence observed).isSome := by
  rw [swapProbe]
  split
  · rename_i entry hentry
    rw [hentry]
    rfl
  · rename_i hnone
    rw [hnone]
    rfl

/-- A reported entry, an endogenous price and no reference are what makes a venue. -/
theorem isPriceDiscoveryVenue_iff {tag : StructTag} {evidence : StaticEvidence}
    {observation : PriceObservation} {observed : Option SwapEntry} :
    (verdict deny tag evidence observation observed).isPriceDiscoveryVenue = true ↔
      (reportedEntry evidence observed).isSome = true ∧ observation.isEndogenous = true ∧
        evidence.oracleReferences = [] := by
  rw [Verdict.isPriceDiscoveryVenue, List.all_eq_true]
  simp only [verdict, List.forall_mem_cons, swapProbe_passed, priceProbe, oracleProbe,
    List.isEmpty_iff]
  simp

theorem signatureReferences_eq_nil_iff {entry : SwapEntry} :
    signatureReferences deny entry = [] ↔ ¬NamesFeed deny entry := by
  rw [signatureReferences, List.filterMap_eq_nil_iff, NamesFeed]
  simp

theorem scanModuleDependencies_eq_nil_iff {linkingModule : String} {module : Module} :
    scanModuleDependencies linkingModule module deny = [] ↔
      ¬∃ handle ∈ module.moduleHandles, deny.matches handle.address handle.name = true := by
  rw [scanModuleDependencies, List.map_eq_nil_iff, List.filter_eq_nil_iff]
  simp

theorem deniedDatatypes_eq_nil_iff {tags : List StructTag} :
    deniedDatatypes deny tags = [] ↔ ¬∃ tag ∈ tags, deny.matches tag.address tag.module = true := by
  rw [deniedDatatypes, List.map_eq_nil_iff, List.filter_eq_nil_iff]
  simp

variable (deny) in
/-- A module of the package links a denied one. -/
def LinksFeed (package : Package) : Prop :=
  ∃ named ∈ package.modules, ∃ handle ∈ named.2.moduleHandles,
    deny.matches handle.address handle.name = true

variable (deny) in
/-- A denied datatype occurs in the layout. -/
def HoldsFeed (layout : MoveTypeLayout) : Prop :=
  ∃ tag ∈ datatypes layout, deny.matches tag.address tag.module = true

theorem oracleReferences_eq_nil_iff {layout : MoveTypeLayout} {package : Package}
    {swapEntry : Option SwapEntry} : oracleReferences deny layout package swapEntry = [] ↔
      ¬LinksFeed deny package ∧ ¬HoldsFeed deny layout ∧
        ∀ entry, swapEntry = some entry → ¬NamesFeed deny entry := by
  have hlinks : (package.modules.flatMap fun named =>
      scanModuleDependencies named.1 named.2 deny) = [] ↔ ¬LinksFeed deny package := by
    rw [List.flatMap_eq_nil_iff]
    simp only [scanModuleDependencies_eq_nil_iff, LinksFeed]
    push Not
    rfl
  simp only [oracleReferences, sortDedup_eq_nil_iff, scanLayoutForOracles_eq]
  cases swapEntry with
  | none => simp [hlinks, deniedDatatypes_eq_nil_iff, HoldsFeed]
  | some entry =>
    simp only [List.append_eq_nil_iff, hlinks, deniedDatatypes_eq_nil_iff,
      signatureReferences_eq_nil_iff, and_assoc, Option.some.injEq, forall_eq', HoldsFeed]

variable (ε deny) in
/-- The entry found by scanning the package names a price feed. -/
def ScansFeed (package : Package) (tag : StructTag) : Prop :=
  ∃ scan : Scan, (scanPackage package tag : Except (VenueError ε) Scan) = .ok scan ∧
    ∃ entry, scan.swapEntry = some entry ∧ NamesFeed deny entry

theorem scansFeed_iff {package : Package} {tag : StructTag} {scan : Scan}
    (h : (scanPackage package tag : Except (VenueError ε) Scan) = .ok scan) :
    ScansFeed ε deny package tag ↔ ∃ entry, scan.swapEntry = some entry ∧ NamesFeed deny entry := by
  constructor
  · rintro ⟨other, hother, hnames⟩
    cases h.symm.trans hother
    exact hnames
  · intro hnames
    exact ⟨scan, h, hnames⟩

theorem staticEvidence_ok {layouts : LayoutSource ε} {tag : StructTag} {layout : MoveTypeLayout}
    {package : Package} {evidence : StaticEvidence} (hlayout : layouts.layout tag = .ok layout)
    (hpackage : layouts.package tag.address = .ok package)
    (h : staticEvidence deny layouts tag = .ok evidence) :
    ∃ scan : Scan, (scanPackage package tag : Except (VenueError ε) Scan) = .ok scan ∧
      evidence.swapEntry = scan.swapEntry ∧
      evidence.oracleReferences = oracleReferences deny layout package scan.swapEntry := by
  rw [staticEvidence, hlayout, hpackage] at h
  obtain ⟨_, hsame, h⟩ := bind_eq_ok_iff.mp h
  cases hsame
  obtain ⟨_, hsame, h⟩ := bind_eq_ok_iff.mp h
  cases hsame
  obtain ⟨scan, hscan, h⟩ := bind_eq_ok_iff.mp h
  cases h
  exact ⟨scan, hscan, rfl, rfl⟩

/-- A venue is refused for a feed in its entry's signature, unless only the observed entry's
signature names one. -/
theorem verdict_refuses_feed_iff (deny : OracleDenySet) (layouts : LayoutSource ε)
    (tag : StructTag) (layout : MoveTypeLayout) (package : Package) (evidence : StaticEvidence)
    (observation : PriceObservation) (observed : Option SwapEntry)
    (hlayout : layouts.layout tag = .ok layout)
    (hpackage : layouts.package tag.address = .ok package)
    (hevidence : staticEvidence deny layouts tag = .ok evidence) :
    (∀ entry, reportedEntry evidence observed = some entry → NamesFeed deny entry →
      (verdict deny tag evidence observation observed).isPriceDiscoveryVenue = false) ↔
    ∀ entry, observed = some entry → NamesFeed deny entry →
      observation.isEndogenous = false ∨ LinksFeed deny package ∨ HoldsFeed deny layout ∨
        ScansFeed ε deny package tag := by
  obtain ⟨scan, hscan, hentry, hreferences⟩ := staticEvidence_ok hlayout hpackage hevidence
  have hnone : evidence.oracleReferences = [] ↔ ¬LinksFeed deny package ∧ ¬HoldsFeed deny layout ∧
      ¬ScansFeed ε deny package tag := by
    rw [hreferences, oracleReferences_eq_nil_iff, scansFeed_iff hscan]
    push Not
    rfl
  have hrefused : ∀ entry, reportedEntry evidence observed = some entry →
      ((verdict deny tag evidence observation observed).isPriceDiscoveryVenue = false ↔
        observation.isEndogenous = false ∨ LinksFeed deny package ∨ HoldsFeed deny layout ∨
          ScansFeed ε deny package tag) := by
    intro entry hreported
    rw [← Bool.not_eq_true, isPriceDiscoveryVenue_iff, hreported, hnone]
    simp only [Option.isSome_some, true_and, not_and_or, not_not, Bool.not_eq_true]
  constructor
  · intro hall entry hobserved hnames
    have hreported : reportedEntry evidence observed = some entry := by
      rw [reportedEntry, hobserved]
      rfl
    exact (hrefused entry hreported).mp (hall entry hreported hnames)
  · intro hcondition entry hreported hnames
    rw [hrefused entry hreported]
    cases observed with
    | some seen =>
      cases hreported
      exact hcondition entry rfl hnames
    | none =>
      -- the scanned entry's own signature is among the static references
      have hscanned : evidence.swapEntry = some entry := hreported
      exact .inr (.inr (.inr ⟨scan, hscan, entry, hentry ▸ hscanned, hnames⟩))

/-! ### A router that takes a feed -/

/-- The pool's own package has no function that swaps. -/
def poolPackage : Package :=
  ⟨30, [("pool", ⟨"pool", [], fun _ => .ok none, []⟩)], fun _ => "module not found"⟩

/-- Both coins, and a price feed, next to the pool. -/
def pricedSwap : FunctionDef where
  visibility := .«public»
  isEntry := false
  parameters :=
    swapLegs ++ [⟨some .immutable, .datatype ⟨50, "price_info", "PriceInfoObject"⟩ []⟩]
  returns := []

def routerPackage : Package :=
  ⟨40, [("router", ⟨"router", ["swap"], fun _ => .ok (some pricedSwap), []⟩)],
    fun _ => "module not found"⟩

def chainLayouts : LayoutSource String where
  layout tag := .ok (.struct tag [])
  package address := .ok (if address = 40 then routerPackage else poolPackage)

theorem zero_i32 : -2 ^ 31 ≤ (0 : ℤ) ∧ (0 : ℤ) < 2 ^ 31 := by decide

/-- One unit of B in, and the price rises. -/
def rise : PriceStateChange := ⟨⟨100, 1, ⟨0, zero_i32⟩⟩, ⟨101, 1, ⟨0, zero_i32⟩⟩, -1, 1, []⟩

def poolEvidence : StaticEvidence :=
  ⟨none, oracleReferences .defaultMainnet (.struct pool []) poolPackage none, 0, []⟩

theorem poolEvidence_gathered :
    staticEvidence .defaultMainnet chainLayouts pool = .ok poolEvidence := rfl

theorem poolEvidence_oracleReferences : poolEvidence.oracleReferences = [] := by
  have hnone : oracleReferences .defaultMainnet (.struct pool []) poolPackage none = [] ↔ _ :=
    oracleReferences_eq_nil_iff
  refine hnone.mpr ⟨?_, ?_, nofun⟩
  · rintro ⟨named, hnamed, handle, hhandle, _⟩
    obtain rfl := List.mem_singleton.mp hnamed
    cases hhandle
  · rintro ⟨tag, htag, hmatches⟩
    obtain rfl := List.mem_singleton.mp htag
    revert hmatches
    decide +kernel

theorem pricedSwap_exchanged : Exchanged pricedSwap .observedCall 0 1 where
  distinct := by decide
  first := ⟨coin 0, by simp [pricedSwap, swapLegs], .inl ⟨[], rfl⟩⟩
  second := ⟨coin 1, by simp [pricedSwap, swapLegs], .inl ⟨[], rfl⟩⟩
  scanned hstatic := absurd hstatic (by decide)

/-- The call is an entry, and its signature names a feed. -/
theorem pricedSwap_entry : ∃ entry,
    entryAt chainLayouts pool 40 "router" "swap" = .ok (some entry) ∧
      NamesFeed .defaultMainnet entry := by
  have hsome : (swapShape "router" "swap" pricedSwap .observedCall (some pool)).isSome = true :=
    (swapShape_isSome_iff ..).mpr ⟨0, 1,
      ⟨poolBorrow 0 1, .head _, borrowsWith_poolBorrow.mpr (.inl rfl)⟩,
      ⟨poolBorrow 0 1, .head _, borrowsWith_poolBorrow.mpr (.inr rfl)⟩, pricedSwap_exchanged⟩
  obtain ⟨entry, hentry⟩ := Option.isSome_iff_exists.mp hsome
  refine ⟨entry, congrArg Except.ok hentry, "&price_info::PriceInfoObject", ?_, by decide +kernel⟩
  rw [(swapShape_rendered hentry).1]
  apply List.mem_append_left
  decide +kernel

/-- The same package, but linking the module of the feed. -/
def linkingPackage : Package :=
  ⟨30, [("pool", ⟨"pool", [], fun _ => .ok none, [⟨50, "price_info"⟩]⟩)],
    fun _ => "module not found"⟩

def linkedLayouts : LayoutSource String :=
  { chainLayouts with
    package := fun address => .ok (if address = 40 then routerPackage else linkingPackage) }

def linkedEvidence : StaticEvidence :=
  ⟨none, oracleReferences .defaultMainnet (.struct pool []) linkingPackage none, 0, []⟩

/-- The call moved the price by what it was paid, but the pool's own package links the feed. -/
theorem verdict_refuses_feed_linked : ∃ entry,
    entryAt linkedLayouts pool 40 "router" "swap" = .ok (some entry) ∧
    (verdict .defaultMainnet pool linkedEvidence (.observed rise)
      (some entry)).isPriceDiscoveryVenue = false := by
  obtain ⟨entry, hentry, hnames⟩ := pricedSwap_entry
  have hgathered : staticEvidence .defaultMainnet linkedLayouts pool = .ok linkedEvidence := rfl
  have hrefused := verdict_refuses_feed_iff .defaultMainnet linkedLayouts pool (.struct pool [])
    linkingPackage linkedEvidence (.observed rise) (some entry) rfl rfl hgathered
  have hlinks : LinksFeed .defaultMainnet linkingPackage :=
    ⟨_, .head _, _, .head _, by decide +kernel⟩
  exact ⟨entry, hentry, hrefused.mpr (fun _ _ _ => .inr (.inl hlinks)) entry rfl hnames⟩

/-- A venue whose observed entry takes a price feed. -/
theorem observed_feed_accepted : ∃ entry,
    entryAt chainLayouts pool 40 "router" "swap" = .ok (some entry) ∧
    NamesFeed .defaultMainnet entry ∧
    staticEvidence .defaultMainnet chainLayouts pool = .ok poolEvidence ∧
    (verdict .defaultMainnet pool poolEvidence (.observed rise)
      (some entry)).isPriceDiscoveryVenue = true := by
  obtain ⟨entry, hentry, hnames⟩ := pricedSwap_entry
  refine ⟨entry, hentry, hnames, poolEvidence_gathered, ?_⟩
  exact isPriceDiscoveryVenue_iff.mpr ⟨rfl, by decide +kernel, poolEvidence_oracleReferences⟩

end Verdicts
