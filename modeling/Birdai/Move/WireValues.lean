import Birdai.Move.DumpRuns
import Birdai.Move.FieldVisitor

/-!
# Values off a wire

The annotated value of some bytes, as the decoders that go by name are given it, read
off the wire that dumps are read off.
-/

namespace Dumps

open NamedFields ByteCodecs MoveTypes TickIndex AnyVenues Cursors Drivers
open FieldVisitor (MoveValue HasLayout HaveLayouts Framework)

/-! ### Annotated values -/

def Scalar.truth : Scalar → Bool
  | .bool b => b
  | _ => false

def Scalar.number : Scalar → ℕ
  | .integer n => n
  | _ => 0

def Scalar.account : Scalar → Address
  | .address a => a
  | _ => 0

def scalarValue (s : Scalar) : Primitive → MoveValue
  | .bool => .bool (Scalar.truth s)
  | .u8 => .u8 (Fin.ofNat _ (Scalar.number s))
  | .u16 => .u16 (Fin.ofNat _ (Scalar.number s))
  | .u32 => .u32 (Fin.ofNat _ (Scalar.number s))
  | .u64 => .u64 (Fin.ofNat _ (Scalar.number s))
  | .u128 => .u128 (Fin.ofNat _ (Scalar.number s))
  | .u256 => .u256 (Fin.ofNat _ (Scalar.number s))
  | .address => .address (Scalar.account s)
  | .signer => .signer (Scalar.account s)

mutual

def annotatedValue (wire : Wire) : MoveTypeLayout → ByteWalk MoveValue
  | .primitive p => do
    let s ← annotated (wire.scalar p)
    pure (scalarValue s p)
  | .vector inner => do
    let len ← annotated wire.length
    let items ← collect (annotatedValue wire inner) len
    pure (.vector inner items)
  | .struct type fields => do
    let values ← annotatedFields wire fields
    pure (.struct type values)
  | .enum type variants => do
    let tag ← annotated wire.variantTag
    match annotatedVariant wire variants tag with
    | some (name, walk) => do
      let values ← walk
      pure (.variant type (name, tag) values)
    | none => fail <| DecodeError.annotation (wire.unexpectedVariantTag tag)

def annotatedFields (wire : Wire) :
    List (FieldOver MoveTypeLayout) → ByteWalk (List (String × MoveValue))
  | [] => pure []
  | ⟨name, layout⟩ :: rest => do
    let value ← annotatedValue wire layout
    let values ← annotatedFields wire rest
    pure ((name, value) :: values)

def annotatedVariant (wire : Wire) :
    List ((String × Fin (2 ^ 16)) × List (FieldOver MoveTypeLayout)) → Fin (2 ^ 16) →
      Option (String × ByteWalk (List (String × MoveValue)))
  | [], _ => none
  | ((name, variant), fields) :: rest, tag =>
    if variant = tag then some (name, annotatedFields wire fields)
    else annotatedVariant wire rest tag

end

theorem annotatedVariant_eq (wire : Wire)
    (variants : List ((String × Fin (2 ^ 16)) × List (FieldOver MoveTypeLayout)))
    (tag : Fin (2 ^ 16)) : annotatedVariant wire variants tag =
      (variants.find? fun variant => variant.1.2 = tag).map
        fun variant => (variant.1.1, annotatedFields wire variant.2) := by
  induction variants with
  | nil => rfl
  | cons variant variants ih =>
    obtain ⟨⟨name, number⟩, fields⟩ := variant
    rw [annotatedVariant]
    by_cases h : number = tag
    · rw [if_pos h, List.find?_cons_of_pos (by simpa using h)]
      rfl
    · rw [if_neg h, List.find?_cons_of_neg (by simpa using h), ih]

theorem hasLayout_scalarValue (s : Scalar) (p : Primitive) :
    HasLayout (.primitive p) (scalarValue s p) := by
  cases p <;> trivial

theorem collect_all {P : MoveValue → Prop} {m : ByteWalk MoveValue}
    (h : ∀ c v d, m c = .ok (v, d) → P v) (n : ℕ) {c d : Cursor Byte} {items : List MoveValue}
    (hrun : collect m n c = .ok (items, d)) : ∀ item ∈ items, P item := by
  induction n generalizing c items with
  | zero =>
    obtain ⟨rfl, _⟩ := pure_ok_iff.mp hrun
    exact fun _ hitem => absurd hitem List.not_mem_nil
  | succ n ih =>
    obtain ⟨item, e, hitem, hrun⟩ := bind_ok_iff.mp hrun
    obtain ⟨rest, f, hrest, hrun⟩ := bind_ok_iff.mp hrun
    obtain ⟨rfl, rfl⟩ := pure_ok_iff.mp hrun
    exact List.forall_mem_cons.mpr ⟨h c item e hitem, ih hrest⟩

mutual

theorem annotatedValue_layout (wire : Wire) (layout : MoveTypeLayout) {c d : Cursor Byte}
    {value : MoveValue} (h : annotatedValue wire layout c = .ok (value, d)) :
    HasLayout layout value := by
  cases layout with
  | primitive p =>
    rw [annotatedValue] at h
    obtain ⟨s, _, _, h⟩ := bind_ok_iff.mp h
    obtain ⟨rfl, _⟩ := pure_ok_iff.mp h
    exact hasLayout_scalarValue s p
  | vector inner =>
    rw [annotatedValue] at h
    obtain ⟨len, _, _, h⟩ := bind_ok_iff.mp h
    obtain ⟨items, _, hitems, h⟩ := bind_ok_iff.mp h
    obtain ⟨rfl, _⟩ := pure_ok_iff.mp h
    exact ⟨rfl, collect_all (fun _ _ _ => annotatedValue_layout wire inner) len hitems⟩
  | struct type fields =>
    rw [annotatedValue] at h
    obtain ⟨values, _, hvalues, h⟩ := bind_ok_iff.mp h
    obtain ⟨rfl, _⟩ := pure_ok_iff.mp h
    exact ⟨rfl, annotatedFields_layouts wire fields hvalues⟩
  | enum type variants =>
    rw [annotatedValue] at h
    obtain ⟨tag, _, _, h⟩ := bind_ok_iff.mp h
    cases hvariant : annotatedVariant wire variants tag with
    | none =>
      rw [hvariant] at h
      cases h
    | some variant =>
      rw [hvariant] at h
      obtain ⟨values, _, _, h⟩ := bind_ok_iff.mp h
      obtain ⟨rfl, _⟩ := pure_ok_iff.mp h
      exact rfl

theorem annotatedFields_layouts (wire : Wire) (fields : List (FieldOver MoveTypeLayout))
    {c d : Cursor Byte} {values : List (String × MoveValue)}
    (h : annotatedFields wire fields c = .ok (values, d)) : HaveLayouts fields values := by
  cases fields with
  | nil =>
    rw [annotatedFields] at h
    obtain ⟨rfl, _⟩ := pure_ok_iff.mp h
    trivial
  | cons field rest =>
    obtain ⟨name, layout⟩ := field
    rw [annotatedFields] at h
    obtain ⟨value, _, hvalue, h⟩ := bind_ok_iff.mp h
    obtain ⟨values, _, hvalues, h⟩ := bind_ok_iff.mp h
    obtain ⟨rfl, _⟩ := pure_ok_iff.mp h
    exact ⟨rfl, annotatedValue_layout wire layout hvalue, annotatedFields_layouts wire rest hvalues⟩

end

/-- The message of an annotation, which is all that reading a value fails with. -/
def messageOf : DecodeError → String
  | DecodeError.annotation message => message
  | _ => ""

def annotatedWhole (wire : Wire) (layout : MoveTypeLayout) (bytes : List Byte) :
    Except String MoveValue :=
  match annotatedValue wire layout ⟨0, bytes⟩ with
  | .ok (value, cursor) =>
    if cursor.rest.isEmpty then .ok value else .error (wire.trailingBytes cursor.rest.length)
  | .error e => .error (messageOf e)

theorem annotatedWhole_ok_iff {wire : Wire} {layout : MoveTypeLayout} {bytes : List Byte}
    {value : MoveValue} : annotatedWhole wire layout bytes = .ok value ↔
      ∃ position, annotatedValue wire layout ⟨0, bytes⟩ = .ok (value, ⟨position, []⟩) := by
  rw [annotatedWhole]
  constructor
  · intro h
    split at h
    · rename_i found cursor hread
      split at h
      · rename_i hempty
        cases h
        obtain ⟨position, rest⟩ := cursor
        obtain rfl : rest = [] := List.isEmpty_iff.mp hempty
        exact ⟨position, hread⟩
      · cases h
    · cases h
  · rintro ⟨position, hread⟩
    rw [hread]
    rfl

/-- The framework of the decoders that go by name, over the wire that dumps are read off. -/
def wireFramework (wire : Wire) : Framework where
  deserialize := annotatedWhole wire
  hasLayout h := by
    obtain ⟨_, hread⟩ := annotatedWhole_ok_iff.mp h
    exact annotatedValue_layout wire _ hread

/-! ### The same bytes -/

theorem skipFields_eq (wire : Wire) (fields : List (FieldOver MoveTypeLayout)) (σ α : Type)
    (visitor : Visitor σ α) :
    (driveFields wire fields σ α visitor).map FieldDriver.skipField = passFields wire fields := by
  induction fields with
  | nil => rfl
  | cons field rest ih =>
    obtain ⟨name, layout⟩ := field
    rw [driveFields, List.map_cons, ih]
    rfl

mutual

/-- What passing over a value takes, reading it takes. -/
theorem value_covers (wire : Wire) (layout : MoveTypeLayout) (k : ℕ) :
    Covers k (visitValue wire layout Unit Unit nullTraversal ()) (annotatedValue wire layout) := by
  cases layout with
  | primitive p =>
    rw [visitValue, annotatedValue]
    refine .here_left fun _ => (Replays.reader _ _).bind fun _ _ _ => ?_
    exact .here_left fun _ => .pure trivial
  | vector inner =>
    rw [visitValue, annotatedValue]
    refine .here_left fun _ => (Replays.reader _ _).bind fun len _ hlen => ?_
    subst hlen
    have hinner := passOver_covers (value_covers wire inner k)
    exact (Covers.collect hinner len).bind fun _ _ _ => .pure trivial
  | struct type fields =>
    rw [visitValue, annotatedValue]
    exact .here_left fun _ => (values_cover wire fields k).bind fun _ _ _ => .pure trivial
  | enum type variants =>
    rw [visitValue, annotatedValue]
    refine .here_left fun _ => (Replays.reader _ _).bind fun tag _ htag => ?_
    subst htag
    rw [driveVariant_eq, annotatedVariant_eq]
    cases hfind : variants.find? fun variant => variant.1.2 = tag with
    | none => exact .fail _
    | some variant =>
      have hfields := variant_covers wire variants k variant (List.mem_of_find?_eq_some hfind)
      exact hfields.bind fun _ _ _ => .pure trivial

theorem values_cover (wire : Wire) (fields : List (FieldOver MoveTypeLayout)) (k : ℕ) :
    Covers k (inTurn (passFields wire fields)) (annotatedFields wire fields) := by
  cases fields with
  | nil => exact .pure trivial
  | cons field rest =>
    obtain ⟨name, layout⟩ := field
    rw [passFields, driveFields, List.map_cons, inTurn, annotatedFields]
    refine (passOver_covers (value_covers wire layout k)).bind fun _ _ _ => ?_
    exact (values_cover wire rest k).andThen fun _ _ => .pure trivial

theorem variant_covers (wire : Wire)
    (variants : List ((String × Fin (2 ^ 16)) × List (FieldOver MoveTypeLayout))) (k : ℕ) :
    ∀ variant ∈ variants,
      Covers k (inTurn (passFields wire variant.2)) (annotatedFields wire variant.2) := by
  cases variants with
  | nil => nofun
  | cons variant rest =>
    obtain ⟨tag, fields⟩ := variant
    intro variant hvariant
    rcases List.mem_cons.mp hvariant with rfl | hvariant
    · exact values_cover wire fields k
    · exact variant_covers wire rest k variant hvariant

end

mutual

/-- And what reading a value takes, passing over it takes. -/
theorem value_covered (wire : Wire) (layout : MoveTypeLayout) (k : ℕ) :
    Covers k (annotatedValue wire layout) (visitValue wire layout Unit Unit nullTraversal ()) := by
  cases layout with
  | primitive p =>
    rw [visitValue, annotatedValue]
    refine .here_right fun _ => (Replays.reader _ _).bind fun _ _ _ => ?_
    exact .here_right fun _ => .pure trivial
  | vector inner =>
    rw [visitValue, annotatedValue]
    refine .here_right fun _ => (Replays.reader _ _).bind fun len _ hlen => ?_
    subst hlen
    have hinner := passOver_right (value_covered wire inner k)
    exact (Covers.ofCollect hinner len).bind fun _ _ _ => .pure trivial
  | struct type fields =>
    rw [visitValue, annotatedValue]
    exact .here_right fun _ => (values_covered wire fields k).bind fun _ _ _ => .pure trivial
  | enum type variants =>
    rw [visitValue, annotatedValue]
    refine .here_right fun _ => (Replays.reader _ _).bind fun tag _ htag => ?_
    subst htag
    rw [driveVariant_eq, annotatedVariant_eq]
    cases hfind : variants.find? fun variant => variant.1.2 = tag with
    | none => exact .fail _
    | some variant =>
      have hfields := variant_covered wire variants k variant (List.mem_of_find?_eq_some hfind)
      exact hfields.bind fun _ _ _ => .pure trivial

theorem values_covered (wire : Wire) (fields : List (FieldOver MoveTypeLayout)) (k : ℕ) :
    Covers k (annotatedFields wire fields) (inTurn (passFields wire fields)) := by
  cases fields with
  | nil => exact .pure trivial
  | cons field rest =>
    obtain ⟨name, layout⟩ := field
    rw [passFields, driveFields, List.map_cons, inTurn, annotatedFields]
    refine (passOver_right (value_covered wire layout k)).bind fun _ _ _ => ?_
    exact (values_covered wire rest k).map_left fun _ _ _ => trivial

theorem variant_covered (wire : Wire)
    (variants : List ((String × Fin (2 ^ 16)) × List (FieldOver MoveTypeLayout))) (k : ℕ) :
    ∀ variant ∈ variants,
      Covers k (annotatedFields wire variant.2) (inTurn (passFields wire variant.2)) := by
  cases variants with
  | nil => nofun
  | cons variant rest =>
    obtain ⟨tag, fields⟩ := variant
    intro variant hvariant
    rcases List.mem_cons.mp hvariant with rfl | hvariant
    · exact values_covered wire fields k
    · exact variant_covered wire rest k variant hvariant

end

end Dumps
