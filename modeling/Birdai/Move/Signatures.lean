import Birdai.Base.Words
import Birdai.Move.MoveTypes

/-!
# Function signatures

The signature of a function as its bytecode gives it, open in the function's type
parameters, and its rendering as text. Where a datatype occurs in a signature, its
module stands in the rendering between separators.
-/

namespace Signatures

open MoveTypes Words

abbrev U16 := Fin (2 ^ 16)

structure DatatypeKey where
  package : Address
  module : String
  name : String
  deriving DecidableEq

inductive OpenSignatureBody where
  | address
  | bool
  | u8
  | u16
  | u32
  | u64
  | u128
  | u256
  | vector (inner : OpenSignatureBody)
  | datatype (key : DatatypeKey) (arguments : List OpenSignatureBody)
  | typeParameter (index : U16)

inductive Reference where
  | immutable
  | mutable
  deriving DecidableEq

structure OpenSignature where
  reference : Option Reference
  body : OpenSignatureBody

inductive Visibility where
  | «private»
  | «public»
  | friend
  deriving DecidableEq

structure FunctionDef where
  visibility : Visibility
  isEntry : Bool
  parameters : List OpenSignature
  returns : List OpenSignature

structure ModuleHandle where
  address : Address
  name : String
  deriving DecidableEq

/-- A module as the package resolver reads it from bytecode. -/
structure Module where
  name : String
  functions : List String
  functionDef : String → Except String (Option FunctionDef)
  moduleHandles : List ModuleHandle

def isCallable (definition : FunctionDef) : Bool :=
  definition.isEntry || definition.visibility = .«public»

/-! ### Rendering -/

mutual

def renderBody : OpenSignatureBody → String
  | .address => "address"
  | .bool => "bool"
  | .u8 => "u8"
  | .u16 => "u16"
  | .u32 => "u32"
  | .u64 => "u64"
  | .u128 => "u128"
  | .u256 => "u256"
  | .vector inner => "vector<" ++ renderBody inner ++ ">"
  | .datatype key arguments =>
    let rendered := key.module ++ "::" ++ key.name
    if arguments.isEmpty then rendered
    else rendered ++ "<" ++ ", ".intercalate (renderBodies arguments) ++ ">"
  | .typeParameter index => "T" ++ toString index.val

def renderBodies : List OpenSignatureBody → List String
  | [] => []
  | body :: rest => renderBody body :: renderBodies rest

end

def renderPrefix : Option Reference → String
  | some .mutable => "&mut "
  | some .immutable => "&"
  | none => ""

def renderSignature (signature : OpenSignature) : String :=
  renderPrefix signature.reference ++ renderBody signature.body

theorem renderBodies_eq_map (bodies : List OpenSignatureBody) :
    renderBodies bodies = bodies.map renderBody := by
  induction bodies with
  | nil => rfl
  | cons body rest ih => rw [renderBodies, ih, List.map_cons]

/-! ### Where a datatype occurs -/

/-- A datatype occurs in a body, itself or at any depth below. -/
inductive Mentions (key : DatatypeKey) : OpenSignatureBody → Prop
  | datatype {arguments : List OpenSignatureBody} : Mentions key (.datatype key arguments)
  | vector {inner : OpenSignatureBody} : Mentions key inner → Mentions key (.vector inner)
  | argument {outer : DatatypeKey} {arguments : List OpenSignatureBody}
      {argument : OpenSignatureBody} : argument ∈ arguments → Mentions key argument →
        Mentions key (.datatype outer arguments)

/-- What is not part of an identifier. -/
def isSeparator (c : Char) : Bool := !(c.isAlphanum || c = '_')

theorem embedded_append_left (s : String) {t : String} {c : Char} {rest : List Char}
    (ht : t.toList = c :: rest) (hc : isSeparator c = true) :
    Embedded isSeparator s.toList (s ++ t).toList := by
  refine ⟨[], t.toList, by rw [String.toList_append, List.nil_append], nofun, ?_⟩
  rw [ht]
  rintro _ ⟨⟩
  exact hc

theorem embedded_append_right {s : String} (t : String) {c : Char} {rest : List Char}
    (hs : s.toList = rest ++ [c]) (hc : isSeparator c = true) :
    Embedded isSeparator t.toList (s ++ t).toList := by
  refine ⟨s.toList, [], by rw [String.toList_append, List.append_nil], ?_, nofun⟩
  rw [hs, List.getLast?_concat]
  rintro _ ⟨⟩
  exact hc

theorem embedded_brackets (before inner : String) :
    Embedded isSeparator inner.toList (before ++ "<" ++ inner ++ ">").toList := by
  have hopen : (before ++ "<").toList = before.toList ++ ['<'] := String.toList_append
  have hclose : ">".toList = '>' :: [] := rfl
  exact (embedded_append_right inner hopen (by decide)).trans
    (embedded_append_left _ hclose (by decide))

/-- The module of every datatype that occurs stands between separators. -/
theorem embedded_renderBody {key : DatatypeKey} {body : OpenSignatureBody}
    (h : Mentions key body) :
    Embedded isSeparator key.module.toList (renderBody body).toList := by
  induction h with
  | @datatype arguments =>
    have hname : ("::" ++ key.name).toList = ':' :: ':' :: key.name.toList := String.toList_append
    have hpath := embedded_append_left key.module hname (by decide)
    rw [← String.append_assoc] at hpath
    rw [renderBody]
    split
    · exact hpath
    · have hopen : ("<" ++ (", ".intercalate (renderBodies arguments) ++ ">")).toList =
          '<' :: (", ".intercalate (renderBodies arguments) ++ ">").toList := String.toList_append
      rw [String.append_assoc, String.append_assoc]
      exact hpath.trans (embedded_append_left _ hopen (by decide))
  | @vector inner _ ih =>
    rw [renderBody]
    exact ih.trans (embedded_brackets "vector" (renderBody inner))
  | @argument outer arguments argument hmem _ ih =>
    have hnonempty : ¬arguments.isEmpty = true := by
      intro hempty
      rw [List.isEmpty_iff.mp hempty] at hmem
      cases hmem
    have hjoined : Embedded isSeparator (renderBody argument).toList
        (", ".intercalate (renderBodies arguments)).toList := by
      rw [String.toList_intercalate, renderBodies_eq_map, List.map_map]
      refine embedded_intercalate ?_ ?_ nofun (List.mem_map_of_mem hmem)
      · rintro _ ⟨⟩
        decide
      · rintro _ ⟨⟩
        decide
    rw [renderBody, if_neg hnonempty]
    exact (ih.trans hjoined).trans (embedded_brackets _ _)

theorem embedded_renderSignature {key : DatatypeKey} {signature : OpenSignature}
    (h : Mentions key signature.body) :
    Embedded isSeparator key.module.toList (renderSignature signature).toList := by
  refine (embedded_renderBody h).trans ?_
  rw [renderSignature]
  obtain ⟨_ | ⟨⟨⟩⟩, body⟩ := signature
  · rw [renderPrefix, String.empty_append]
    exact .refl _
  · have hborrow : "&".toList = [] ++ ['&'] := rfl
    exact embedded_append_right _ hborrow (by decide)
  · have hborrow : "&mut ".toList = "&mut".toList ++ [' '] := rfl
    exact embedded_append_right _ hborrow (by decide)

end Signatures
