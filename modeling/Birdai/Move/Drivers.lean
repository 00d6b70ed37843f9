import Birdai.Base.Cursors
import Birdai.Venue.AnyVenue

/-!
# Visitors of bytes

The framework that walks bytes by an annotated layout and drives a visitor over the
values it meets. How scalars, lengths and variant tags stand in the bytes is a
parameter. A driver knows where its value starts; a visitor takes everything its
driver offers, by itself or by skipping.
-/

namespace Drivers

open ByteCodecs MoveTypes AnyVenues Cursors

abbrev ByteWalk (α : Type) := Walk DecodeError Byte α

/-- What a visitor is handed for a value without parts. -/
inductive Scalar where
  | bool (b : Bool)
  | integer (n : ℕ)
  | address (a : Address)
  deriving DecidableEq

/-- How plain values stand in the bytes, and the texts of addresses and of what can go wrong. -/
structure Wire where
  scalar : Primitive → Reader String Byte Scalar
  length : Reader String Byte ℕ
  variantTag : Reader String Byte (Fin (2 ^ 16))
  addressText : Address → String
  unexpectedVariantTag : Fin (2 ^ 16) → String
  trailingBytes : ℕ → String

/-- The framework's own errors come through as annotations. -/
def annotated {α : Type} (reader : Reader String Byte α) : ByteWalk α :=
  reader.walk DecodeError.annotation

theorem annotated_reaches {α : Type} {reader : Reader String Byte α} {c d : Cursor Byte} {a : α}
    (h : annotated reader c = .ok (a, d)) : c.Reaches d :=
  (Replays.reader DecodeError.annotation reader).reaches h

/-! ### Drivers -/

structure ValueDriver where
  layout : Option MoveTypeLayout
  start : ℕ
  position : ℕ

/-- Drives a visitor with state `σ` and values in `α` over the elements of a vector. -/
structure VecDriver (σ α : Type) where
  elementLayout : MoveTypeLayout
  len : ℕ
  start : ℕ
  nextElement : σ → ByteWalk (α × σ)
  skipElement : ByteWalk Unit

/-- One field, still to be visited or skipped. -/
structure FieldDriver (σ α : Type) where
  name : String
  nextField : σ → ByteWalk (α × σ)
  skipField : ByteWalk Unit

structure StructDriver (σ α : Type) where
  type : StructTag
  start : ℕ
  fields : List (FieldDriver σ α)

structure VariantDriver (σ α : Type) where
  variantName : String
  tag : Fin (2 ^ 16)
  start : ℕ
  fields : List (FieldDriver σ α)

structure Visitor (σ α : Type) where
  visitScalar : ValueDriver → Scalar → σ → α × σ
  visitVector : VecDriver σ α → σ → ByteWalk (α × σ)
  visitStruct : StructDriver σ α → σ → ByteWalk (α × σ)
  visitVariant : VariantDriver σ α → σ → ByteWalk (α × σ)

variable {σ α : Type}

/-- The element or field is passed over. -/
def passOver (m : ByteWalk (Unit × Unit)) : ByteWalk Unit := do
  let _ ← m
  pure ()

/-- The visitor that builds nothing. -/
def nullTraversal : Visitor Unit Unit where
  visitScalar _ _ _ := ((), ())
  visitVector driver self := do
    times (passOver (driver.nextElement self)) driver.len
    pure ((), self)
  visitStruct driver self := do
    inTurn (driver.fields.map fun field => passOver (field.nextField self))
    pure ((), self)
  visitVariant driver self := do
    inTurn (driver.fields.map fun field => passOver (field.nextField self))
    pure ((), self)

/-! ### Walking a layout -/

mutual

def visitValue (wire : Wire) :
    MoveTypeLayout → (σ α : Type) → Visitor σ α → σ → ByteWalk (α × σ)
  | .primitive p, _, _, visitor, self => do
    let start ← here
    let value ← annotated (wire.scalar p)
    let position ← here
    pure (visitor.visitScalar ⟨some (.primitive p), start, position⟩ value self)
  | .vector inner, σ, α, visitor, self => do
    let start ← here
    let len ← annotated wire.length
    visitor.visitVector ⟨inner, len, start, visitValue wire inner σ α visitor,
      passOver (visitValue wire inner Unit Unit nullTraversal ())⟩ self
  | .struct type fields, σ, α, visitor, self => do
    let start ← here
    visitor.visitStruct ⟨type, start, driveFields wire fields σ α visitor⟩ self
  | .enum _ variants, σ, α, visitor, self => do
    let start ← here
    let tag ← annotated wire.variantTag
    match driveVariant wire variants tag σ α visitor with
    | some (name, fields) => visitor.visitVariant ⟨name, tag, start, fields⟩ self
    | none => fail <| DecodeError.annotation (wire.unexpectedVariantTag tag)

def driveFields (wire : Wire) :
    List (FieldOver MoveTypeLayout) → (σ α : Type) → Visitor σ α → List (FieldDriver σ α)
  | [], _, _, _ => []
  | ⟨name, layout⟩ :: rest, σ, α, visitor =>
    ⟨name, visitValue wire layout σ α visitor,
      passOver (visitValue wire layout Unit Unit nullTraversal ())⟩ ::
        driveFields wire rest σ α visitor

/-- The fields of the first variant with the tag. -/
def driveVariant (wire : Wire) :
    List ((String × Fin (2 ^ 16)) × List (FieldOver MoveTypeLayout)) → Fin (2 ^ 16) →
      (σ α : Type) → Visitor σ α → Option (String × List (FieldDriver σ α))
  | [], _, _, _, _ => none
  | ((name, variant), fields) :: rest, tag, σ, α, visitor =>
    if variant = tag then some (name, driveFields wire fields σ α visitor)
    else driveVariant wire rest tag σ α visitor

end

/-- Decode any value from its bytes with a visitor, and leave none over. -/
def decodeValue (wire : Wire) (bytes : List Byte) (layout : MoveTypeLayout) (visitor : Visitor σ α)
    (self : σ) : Except DecodeError α := do
  let (result, cursor) ← visitValue wire layout σ α visitor self ⟨0, bytes⟩
  if cursor.rest.isEmpty then .ok result.1
  else .error <| DecodeError.annotation (wire.trailingBytes cursor.rest.length)

/-! ### A plain wire -/

def scalarWidth : Primitive → ℕ
  | .bool => 1
  | .u8 => 1
  | .u16 => 2
  | .u32 => 4
  | .u64 => 8
  | .u128 => 16
  | .u256 => 32
  | .address => 32
  | .signer => 32

def readNumber (bytes : List Byte) : ℕ := Nat.ofDigits 256 (bytes.map Fin.val)

def readScalar : Primitive → List Byte → Except String Scalar
  | .bool, bytes =>
    match readNumber bytes with
    | 0 => .ok (.bool false)
    | 1 => .ok (.bool true)
    | _ => .error "expected boolean"
  | .address, bytes => .ok (.address (Fin.ofNat _ (readNumber bytes.reverse)))
  | .signer, bytes => .ok (.address (Fin.ofNat _ (readNumber bytes.reverse)))
  | _, bytes => .ok (.integer (readNumber bytes))

/-- Numbers from 128 on take more than one byte and are not read here. -/
def readShort (bytes : List Byte) : Except String ℕ :=
  if readNumber bytes < 128 then .ok (readNumber bytes) else .error "long number"

def endOfInput : String := "unexpected end of input"

/-- Scalars of fixed width, and one byte for each length and each variant tag. -/
def plainWire : Wire where
  scalar p := .fixed (scalarWidth p) endOfInput (readScalar p)
  length := .fixed 1 endOfInput readShort
  variantTag := .fixed 1 endOfInput fun bytes => (readShort bytes).map (Fin.ofNat _)
  addressText := canonicalText.encode
  unexpectedVariantTag tag := "unexpected variant tag " ++ toString tag.val
  trailingBytes n := toString n ++ " trailing bytes"

end Drivers
