import Birdai.Move.FieldVisitor
import Birdai.Resolve.Capture

/-!
# Bytes of plain values

A reader of scalars, short vectors and structs off their bytes: an instance of the
framework the decoders run under.
-/

namespace ValueBytes

open Outcomes ByteCodecs MoveTypes FieldVisitor

theorem u32_bytes : 2 ^ 32 = 256 ^ 4 := by norm_num

theorem u128_bytes : 2 ^ 128 = 256 ^ 16 := by norm_num

/-- A value of fixed width off the front of the bytes. -/
def readWord {α : Type} (codec : Codec α (List Byte)) (width : ℕ) (wrap : α → MoveValue)
    (bytes : List Byte) : Except String (MoveValue × List Byte) := do
  let n ← codec.decode (bytes.take width)
  .ok (wrap n, bytes.drop width)

def readPrimitive : Primitive → List Byte → Except String (MoveValue × List Byte)
  | .bool, 0 :: rest => .ok (.bool false, rest)
  | .bool, 1 :: rest => .ok (.bool true, rest)
  | .u32, bytes => readWord (littleEndian (2 ^ 32) 4 u32_bytes) 4 .u32 bytes
  | .u64, bytes => readWord Capture.u64Codec 8 .u64 bytes
  | .u128, bytes => readWord (littleEndian (2 ^ 128) 16 u128_bytes) 16 .u128 bytes
  | .address, bytes => readWord Capture.objectIdCodec 32 .address bytes
  | _, _ => .error "no such scalar"

/-- As many values as told, one after the other. -/
def readItems (read : List Byte → Except String (MoveValue × List Byte)) :
    ℕ → List Byte → Except String (List MoveValue × List Byte)
  | 0, bytes => .ok ([], bytes)
  | n + 1, bytes =>
    match read bytes with
    | .error e => .error e
    | .ok (item, bytes) =>
      match readItems read n bytes with
      | .error e => .error e
      | .ok (items, bytes) => .ok (item :: items, bytes)

mutual

def readValue : MoveTypeLayout → List Byte → Except String (MoveValue × List Byte)
  | .primitive p, bytes => readPrimitive p bytes
  | .vector inner, bytes =>
    match bytes with
    | [] => .error "unexpected end of input"
    | length :: rest =>
      -- Lengths from 128 on take more than one byte and are not read here.
      if 128 ≤ length.val then .error "long vector"
      else
        match readItems (readValue inner) length.val rest with
        | .ok (items, rest) => .ok (.vector inner items, rest)
        | .error e => .error e
  | .struct type fields, bytes =>
    match readFields fields bytes with
    | .ok (values, rest) => .ok (.struct type values, rest)
    | .error e => .error e
  | .enum _ _, _ => .error "enum"

def readFields : List (FieldOver MoveTypeLayout) → List Byte →
    Except String (List (String × MoveValue) × List Byte)
  | [], bytes => .ok ([], bytes)
  | ⟨name, layout⟩ :: rest, bytes =>
    match readValue layout bytes with
    | .error e => .error e
    | .ok (value, bytes) =>
      match readFields rest bytes with
      | .error e => .error e
      | .ok (values, bytes) => .ok ((name, value) :: values, bytes)

end

theorem readWord_value {α : Type} {codec : Codec α (List Byte)} {width : ℕ}
    {wrap : α → MoveValue} {bytes rest : List Byte} {value : MoveValue}
    (h : readWord codec width wrap bytes = .ok (value, rest)) : ∃ a, value = wrap a := by
  obtain ⟨a, _, hvalue⟩ := bind_eq_ok_iff.mp h
  cases hvalue
  exact ⟨a, rfl⟩

theorem readPrimitive_layout {p : Primitive} {bytes rest : List Byte} {value : MoveValue}
    (h : readPrimitive p bytes = .ok (value, rest)) : HasLayout (.primitive p) value := by
  unfold readPrimitive at h
  split at h
  · cases h
    trivial
  · cases h
    trivial
  · obtain ⟨a, rfl⟩ := readWord_value h
    trivial
  · obtain ⟨a, rfl⟩ := readWord_value h
    trivial
  · obtain ⟨a, rfl⟩ := readWord_value h
    trivial
  · obtain ⟨a, rfl⟩ := readWord_value h
    trivial
  · cases h

theorem readItems_all {P : MoveValue → Prop}
    {read : List Byte → Except String (MoveValue × List Byte)}
    (hread : ∀ bytes rest value, read bytes = .ok (value, rest) → P value) (n : ℕ)
    (bytes rest : List Byte) (items : List MoveValue)
    (h : readItems read n bytes = .ok (items, rest)) : ∀ item ∈ items, P item := by
  induction n generalizing bytes items with
  | zero =>
    cases h
    exact fun _ hitem => absurd hitem List.not_mem_nil
  | succ n ih =>
    rw [readItems] at h
    cases hfirst : read bytes with
    | error e =>
      rw [hfirst] at h
      cases h
    | ok first =>
      rw [hfirst] at h
      dsimp only at h
      cases hmore : readItems read n first.2 with
      | error e =>
        rw [hmore] at h
        cases h
      | ok more =>
        rw [hmore] at h
        cases h
        intro item hitem
        rcases List.mem_cons.mp hitem with rfl | hitem
        · exact hread bytes first.2 _ hfirst
        · exact ih first.2 more.1 hmore item hitem

mutual

theorem readValue_layout (layout : MoveTypeLayout) (bytes rest : List Byte) (value : MoveValue)
    (h : readValue layout bytes = .ok (value, rest)) : HasLayout layout value := by
  cases layout with
  | primitive p =>
    rw [readValue] at h
    exact readPrimitive_layout h
  | vector inner =>
    cases bytes with
    | nil => cases h
    | cons length bytes =>
      simp only [readValue] at h
      split at h
      · cases h
      · split at h
        · rename_i items rest' hitems
          cases h
          exact ⟨rfl, readItems_all (readValue_layout inner) _ _ _ _ hitems⟩
        · cases h
  | struct type fields =>
    rw [readValue] at h
    cases hfields : readFields fields bytes with
    | error e =>
      rw [hfields] at h
      cases h
    | ok read =>
      rw [hfields] at h
      cases h
      exact ⟨rfl, readFields_layouts fields bytes read.2 read.1 hfields⟩
  | enum type variants => cases h

theorem readFields_layouts (fields : List (FieldOver MoveTypeLayout)) (bytes rest : List Byte)
    (values : List (String × MoveValue)) (h : readFields fields bytes = .ok (values, rest)) :
    HaveLayouts fields values := by
  cases fields with
  | nil =>
    rw [readFields] at h
    cases h
    trivial
  | cons field more =>
    obtain ⟨name, layout⟩ := field
    rw [readFields] at h
    cases hvalue : readValue layout bytes with
    | error e =>
      rw [hvalue] at h
      cases h
    | ok read =>
      rw [hvalue] at h
      dsimp only at h
      cases hmore : readFields more read.2 with
      | error e =>
        rw [hmore] at h
        cases h
      | ok readMore =>
        rw [hmore] at h
        cases h
        exact ⟨rfl, readValue_layout layout bytes read.2 read.1 hvalue,
          readFields_layouts more read.2 readMore.2 readMore.1 hmore⟩

end

/-- A whole value, and no bytes left over. -/
def readWhole (layout : MoveTypeLayout) (bytes : List Byte) : Except String MoveValue :=
  match readValue layout bytes with
  | .ok (value, []) => .ok value
  | .ok (_, _ :: _) => .error "trailing bytes"
  | .error e => .error e

theorem readWhole_layout {layout : MoveTypeLayout} {bytes : List Byte} {value : MoveValue}
    (h : readWhole layout bytes = .ok value) : HasLayout layout value := by
  unfold readWhole at h
  split at h
  · rename_i hread
    cases h
    exact readValue_layout layout bytes _ _ hread
  · cases h
  · cases h

def plainBytes : Framework := ⟨readWhole, readWhole_layout⟩

end ValueBytes
