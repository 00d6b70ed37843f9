import Birdai.Move.Signatures
import Birdai.Resolve.PackageVersions

/-!
# Price-feed names

The deny list of oracle packages, and the three scans that consult it: the modules a
module links, the datatypes of a layout, and the text of a signature.
-/

namespace OracleNames

open MoveTypes Signatures Words PackageVersion

/-! ### The deny list -/

/-- Denied packages, and name fragments made of identifier characters. -/
structure OracleDenySet where
  addresses : List Address
  fragments : List String
  words : ∀ fragment ∈ fragments, ∀ c ∈ fragment.toList, isSeparator c = false

def oracleNameFragments : List String :=
  ["oracle", "pyth", "supra", "switchboard", "price_feed", "price_info"]

theorem oracleNameFragments_words :
    ∀ fragment ∈ oracleNameFragments, ∀ c ∈ fragment.toList, isSeparator c = false := by
  have hall : oracleNameFragments.all (fun fragment =>
      fragment.toList.all fun c => !isSeparator c) = true := by
    decide +kernel
  intro fragment hfragment c hc
  have hword := List.all_eq_true.mp hall fragment hfragment
  exact (Bool.not_eq_true' _).mp (List.all_eq_true.mp hword c hc)

def OracleDenySet.defaultMainnet : OracleDenySet :=
  ⟨[], oracleNameFragments, oracleNameFragments_words⟩

def OracleDenySet.withAddress (deny : OracleDenySet) (address : Address) : OracleDenySet :=
  { deny with addresses := deny.addresses ++ [address] }

/-- A text in ASCII lower case. -/
def lowered (text : String) : List Char := text.toList.map Char.toLower

def OracleDenySet.matches (deny : OracleDenySet) (package : Address) (module : String) : Bool :=
  deny.addresses.contains package ||
    deny.fragments.any fun fragment => fragment.toList <:+: lowered module

inductive OracleVia where
  | moduleDependency
  | fieldType
  | swapSignature
  deriving DecidableEq

structure OracleReference where
  package : String
  module : String
  via : OracleVia
  deriving DecidableEq

/-! ### The scans -/

def dependencyReference (linkingModule : String) (handle : ModuleHandle) : OracleReference :=
  ⟨canonicalText.encode handle.address, linkingModule ++ " → " ++ handle.name, .moduleDependency⟩

def scanModuleDependencies (linkingModule : String) (module : Module) (deny : OracleDenySet) :
    List OracleReference :=
  (module.moduleHandles.filter fun handle => deny.matches handle.address handle.name).map
    (dependencyReference linkingModule)

def fieldReference (tag : StructTag) : OracleReference :=
  ⟨canonicalText.encode tag.address, tag.module, .fieldType⟩

def recordIfOracle (tag : StructTag) (deny : OracleDenySet) (out : List OracleReference) :
    List OracleReference :=
  if deny.matches tag.address tag.module then out ++ [fieldReference tag] else out

def recordNode (deny : OracleDenySet) (out : List OracleReference) :
    MoveTypeLayout → List OracleReference
  | .struct type _ => recordIfOracle type deny out
  | .enum type _ => recordIfOracle type deny out
  | _ => out

def scanLayoutForOracles (layout : MoveTypeLayout) (deny : OracleDenySet)
    (out : List OracleReference) : List OracleReference :=
  visit (recordNode deny) layout out

/-- A fragment is a token, or an underscore parts it from the rest of one; a fragment with
an underscore of its own may lie anywhere in a token. -/
def NamesAtBoundary (fragment token : List Char) : Prop :=
  token = fragment ∨ fragment ++ ['_'] <+: token ∨ '_' :: fragment <:+ token ∨
    '_' ∈ fragment ∧ fragment <:+: token

instance (fragment token : List Char) : Decidable (NamesAtBoundary fragment token) :=
  inferInstanceAs (Decidable (_ ∨ _ ∨ _ ∨ _ ∧ _))

def signatureReference (fragment : String) : OracleReference :=
  ⟨"<in signature>", fragment, .swapSignature⟩

def referenceFromText (text : String) (deny : OracleDenySet) : Option OracleReference :=
  (deny.fragments.find? fun fragment =>
    ((lowered text).splitOnP isSeparator).any (NamesAtBoundary fragment.toList ·)).map
      signatureReference

/-! ### What the layout scan sees -/

def collectDatatype (out : List StructTag) : MoveTypeLayout → List StructTag
  | .struct type _ => out ++ [type]
  | .enum type _ => out ++ [type]
  | _ => out

/-- The datatypes of a layout, from the root down. -/
def datatypes (layout : MoveTypeLayout) : List StructTag := visit collectDatatype layout []

def deniedDatatypes (deny : OracleDenySet) (tags : List StructTag) : List OracleReference :=
  (tags.filter fun tag => deny.matches tag.address tag.module).map fieldReference

theorem append_deniedDatatypes_concat (deny : OracleDenySet) (out : List OracleReference)
    (tags : List StructTag) (tag : StructTag) : out ++ deniedDatatypes deny (tags ++ [tag]) =
      recordIfOracle tag deny (out ++ deniedDatatypes deny tags) := by
  rw [deniedDatatypes, List.filter_append, List.map_append, recordIfOracle, ← List.append_assoc]
  cases hmatches : deny.matches tag.address tag.module with
  | true => simp [hmatches, deniedDatatypes]
  | false => simp [hmatches, deniedDatatypes]

/-- The layout scan adds the denied datatypes, in order. -/
theorem scanLayoutForOracles_eq (layout : MoveTypeLayout) (deny : OracleDenySet)
    (out : List OracleReference) :
    scanLayoutForOracles layout deny out = out ++ deniedDatatypes deny (datatypes layout) := by
  have hstep : ∀ (tags : List StructTag) (node : MoveTypeLayout),
      out ++ deniedDatatypes deny (collectDatatype tags node) =
        recordNode deny (out ++ deniedDatatypes deny tags) node := by
    intro tags node
    cases node with
    | struct type fields => exact append_deniedDatatypes_concat deny out tags type
    | enum type variants => exact append_deniedDatatypes_concat deny out tags type
    | _ => rfl
  have hnone : out ++ deniedDatatypes deny [] = out := List.append_nil out
  have hvisit := visit_hom collectDatatype (h := fun tags => out ++ deniedDatatypes deny tags)
    hstep layout []
  rw [hnone] at hvisit
  exact hvisit.symm

/-! ### What the text scan sees -/

/-- A fragment next to an underscore of a text is next to one in a token of the text. -/
theorem exists_token {fragment text : List Char} (hword : ∀ c ∈ fragment, isSeparator c = false)
    (h : NamesAtBoundary fragment text) :
    ∃ token ∈ text.splitOnP isSeparator, NamesAtBoundary fragment token := by
  have hunderscore : isSeparator '_' = false := by decide
  rcases h with rfl | ⟨after, rfl⟩ | ⟨before, rfl⟩ | ⟨hinside, before, after, rfl⟩
  · rw [List.splitOnP_eq_singleton hword]
    exact ⟨text, List.mem_cons_self, .inl rfl⟩
  · have hrun : ∀ c ∈ fragment ++ ['_'], isSeparator c = false := by
      intro c hc
      rcases List.mem_append.mp hc with hc | hc
      · exact hword c hc
      · rw [List.mem_singleton.mp hc, hunderscore]
    obtain ⟨left, right, htoken, hleft, _⟩ := exists_word_around hrun [] after
    rw [hleft rfl] at htoken
    exact ⟨_, htoken, .inr (.inl ⟨right, rfl⟩)⟩
  · have hrun : ∀ c ∈ '_' :: fragment, isSeparator c = false := by
      intro c hc
      rcases List.mem_cons.mp hc with rfl | hc
      · exact hunderscore
      · exact hword c hc
    obtain ⟨left, right, htoken, _, hright⟩ := exists_word_around hrun before []
    rw [hright rfl, List.append_nil, List.append_nil] at htoken
    exact ⟨_, htoken, .inr (.inr (.inl ⟨left, rfl⟩))⟩
  · obtain ⟨left, right, htoken, _, _⟩ := exists_word_around hword before after
    exact ⟨_, htoken, .inr (.inr (.inr ⟨hinside, left, right, rfl⟩))⟩

theorem isSeparator_toLower (c : Char) (h : isSeparator c = true) :
    isSeparator c.toLower = true := by
  have hsame : c.toLower = c := by
    have hupper : c.isUpper = false := by
      by_contra hupper
      have halphanum : c.isAlphanum = ((c.isUpper || c.isLower) || c.isDigit) := rfl
      simp [isSeparator, halphanum, hupper] at h
    have hrange : ¬(c.val ≥ 'A'.val ∧ c.val ≤ 'Z'.val) := of_decide_eq_false hupper
    exact dif_neg hrange
  rw [hsame]
  exact h

theorem referenceFromText_isSome {text : String} {deny : OracleDenySet} {fragment : String}
    (hfragment : fragment ∈ deny.fragments) {token : List Char}
    (htoken : token ∈ (lowered text).splitOnP isSeparator)
    (h : NamesAtBoundary fragment.toList token) : (referenceFromText text deny).isSome = true := by
  rw [referenceFromText, Option.isSome_map, List.find?_isSome]
  exact ⟨fragment, hfragment, List.any_eq_true.mpr ⟨token, htoken, decide_eq_true h⟩⟩

theorem referenceFromText_mentions {deny : OracleDenySet} {key : DatatypeKey}
    {signature : OpenSignature} {fragment : String} (hfragment : fragment ∈ deny.fragments)
    (hboundary : NamesAtBoundary fragment.toList (lowered key.module))
    (h : Mentions key signature.body) :
    (referenceFromText (renderSignature signature) deny).isSome = true := by
  have hembedded : Embedded isSeparator (lowered key.module)
      (lowered (renderSignature signature)) :=
    (embedded_renderSignature h).map isSeparator_toLower
  obtain ⟨token, htoken, hnames⟩ := exists_token (deny.words fragment hfragment) hboundary
  exact referenceFromText_isSome hfragment (hembedded.splitOnP_subset htoken) hnames

/-- A denied datatype is reported as a field type and as a linked module, and in a signature
when an underscore parts the fragment from the rest of the module's name. -/
theorem oracle_scans_agree (deny : OracleDenySet) (key : DatatypeKey)
    (h : deny.matches key.package key.module = true) :
    (∀ (tag : StructTag) (out : List OracleReference), tag.address = key.package →
      tag.module = key.module → recordIfOracle tag deny out =
        out ++ [⟨canonicalText.encode key.package, key.module, .fieldType⟩]) ∧
    (∀ (linkingModule : String) (module : Module),
      ⟨key.package, key.module⟩ ∈ module.moduleHandles →
        ⟨canonicalText.encode key.package, linkingModule ++ " → " ++ key.module,
          .moduleDependency⟩ ∈ scanModuleDependencies linkingModule module deny) ∧
    ∀ fragment ∈ deny.fragments, NamesAtBoundary fragment.toList (lowered key.module) →
      ∀ signature : OpenSignature, Mentions key signature.body →
        (referenceFromText (renderSignature signature) deny).isSome = true := by
  refine ⟨?_, ?_, fun fragment hfragment hboundary signature hmentions =>
    referenceFromText_mentions hfragment hboundary hmentions⟩
  · intro tag out haddress hmodule
    rw [recordIfOracle, fieldReference, haddress, hmodule, if_pos h]
  · intro linkingModule module hhandle
    exact List.mem_map.mpr ⟨_, List.mem_filter.mpr ⟨hhandle, h⟩, rfl⟩

def priceOracle : DatatypeKey := ⟨5, "Price_Oracle", "Feed"⟩

theorem oracle_scans_agree_price_oracle :
    (referenceFromText (renderSignature ⟨some .immutable, .vector (.datatype ⟨2, "bag", "Bag"⟩
      [.datatype priceOracle []])⟩) .defaultMainnet).isSome = true := by
  have h : OracleDenySet.defaultMainnet.matches priceOracle.package priceOracle.module = true := by
    decide +kernel
  exact (oracle_scans_agree .defaultMainnet priceOracle h).2.2 "oracle" (by decide +kernel)
    (by decide +kernel) _ (.vector (.argument List.mem_cons_self .datatype))

/-- Linked or in a field `historacle` counts as an oracle; in a signature it does not. -/
theorem historacle_unseen_in_signature :
    ¬∀ (deny : OracleDenySet) (key : DatatypeKey),
      deny.matches key.package key.module = true →
        ∀ signature : OpenSignature, Mentions key signature.body →
          (referenceFromText (renderSignature signature) deny).isSome = true := by
  intro hall
  have hseen := hall .defaultMainnet ⟨5, "historacle", "Token"⟩ (by decide +kernel)
    ⟨some .mutable, .datatype ⟨5, "historacle", "Token"⟩ []⟩ .datatype
  revert hseen
  decide +kernel

end OracleNames
