import Birdai.Base.ByteCodecs
import Birdai.Tick.TickIndex

/-!
# Move types

Type tags and annotated layouts. The nine types without parameters are one
constructor, shared by tags and layouts.
-/

namespace MoveTypes

open TickIndex ByteCodecs

abbrev Address := ObjectId

instance u16_neZero : NeZero (2 ^ 16) := ⟨by decide⟩

inductive Primitive where
  | bool
  | u8
  | u16
  | u32
  | u64
  | u128
  | u256
  | address
  | signer
  deriving DecidableEq

def Primitive.text : Primitive → String
  | .bool => "bool"
  | .u8 => "u8"
  | .u16 => "u16"
  | .u32 => "u32"
  | .u64 => "u64"
  | .u128 => "u128"
  | .u256 => "u256"
  | .address => "address"
  | .signer => "signer"

/-- A struct tag over the type of its parameters. -/
structure TagOver (τ : Type) where
  address : Address
  module : String
  name : String
  typeParams : List τ

inductive TypeTag where
  | primitive (p : Primitive)
  | vector (inner : TypeTag)
  | struct (inner : TagOver TypeTag)

abbrev StructTag := TagOver TypeTag

mutual

def decideTypeTag : (a b : TypeTag) → Decidable (a = b)
  | .primitive p, .primitive q => decidable_of_iff (p = q) (by simp)
  | .vector a, .vector b =>
    match decideTypeTag a b with
    | isTrue h => isTrue (congrArg TypeTag.vector h)
    | isFalse h => isFalse fun he => h (TypeTag.vector.inj he)
  | .struct s, .struct t =>
    match decideStructTag s t with
    | isTrue h => isTrue (congrArg TypeTag.struct h)
    | isFalse h => isFalse fun he => h (TypeTag.struct.inj he)
  | .primitive _, .vector _ => isFalse nofun
  | .primitive _, .struct _ => isFalse nofun
  | .vector _, .primitive _ => isFalse nofun
  | .vector _, .struct _ => isFalse nofun
  | .struct _, .primitive _ => isFalse nofun
  | .struct _, .vector _ => isFalse nofun

def decideStructTag : (s t : TagOver TypeTag) → Decidable (s = t)
  | ⟨a, m, n, ps⟩, ⟨a', m', n', ps'⟩ =>
    match decideTypeTags ps ps' with
    | isTrue h => decidable_of_iff (a = a' ∧ m = m' ∧ n = n') (by simp [h])
    | isFalse h => isFalse fun he => h (TagOver.mk.inj he).2.2.2

def decideTypeTags : (as bs : List TypeTag) → Decidable (as = bs)
  | [], [] => isTrue rfl
  | [], _ :: _ => isFalse nofun
  | _ :: _, [] => isFalse nofun
  | a :: as, b :: bs =>
    match decideTypeTag a b with
    | isTrue h =>
      match decideTypeTags as bs with
      | isTrue h' => isTrue (h ▸ h' ▸ rfl)
      | isFalse h' => isFalse fun he => h' (List.cons.inj he).2
    | isFalse h => isFalse fun he => h (List.cons.inj he).1

end

instance : DecidableEq TypeTag := decideTypeTag

instance : DecidableEq StructTag := decideStructTag

def suiFramework : Address := 2

/-- Exactly `address::module::name`, whatever the type arguments. -/
def isTag (tag : StructTag) (address : Address) (module name : String) : Bool :=
  tag.address = address ∧ tag.module = module ∧ tag.name = name

/-- The significant hexadecimal digits of an address. -/
def shortAddress (address : Address) : String :=
  "0x" ++ String.ofList (Nat.toDigits 16 address.val)

theorem address_digits : 2 ^ 256 = 16 ^ 64 := by norm_num

/-- All 64 digits of an address, `to_canonical_string(true)`, and how they are read back. -/
def canonicalText : TextCodec Address := hexadecimal (2 ^ 256) 64 address_digits

mutual

def shortType : TypeTag → String
  | .primitive p => p.text
  | .vector inner => "vector<" ++ shortType inner ++ ">"
  | .struct inner => shortTag inner

def shortTag : TagOver TypeTag → String
  | ⟨address, module, name, typeParams⟩ =>
    let path := shortAddress address ++ "::" ++ module ++ "::" ++ name
    match shortTypes typeParams with
    | [] => path
    | texts => path ++ "<" ++ String.intercalate ", " texts ++ ">"

def shortTypes : List TypeTag → List String
  | [] => []
  | tag :: rest => shortType tag :: shortTypes rest

end

/-- A named field over the type of its layout. -/
structure FieldOver (τ : Type) where
  name : String
  layout : τ

inductive MoveTypeLayout where
  | primitive (p : Primitive)
  | vector (inner : MoveTypeLayout)
  | struct (type : StructTag) (fields : List (FieldOver MoveTypeLayout))
  | enum (type : StructTag)
      (variants : List ((String × Fin (2 ^ 16)) × List (FieldOver MoveTypeLayout)))

abbrev MoveFieldLayout := FieldOver MoveTypeLayout

end MoveTypes
