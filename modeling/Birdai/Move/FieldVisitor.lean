import Birdai.Base.BoundedLoop
import Birdai.Base.NamedFields
import Birdai.Venue.AnyVenue

/-!
# Decoding by name

Annotated values, the visitors that accept one type each, and the loop every
struct decoder runs over its driver. The framework that walks bytes by a layout is
a parameter: its drivers present the fields of a struct in layout order and consume
one with every step.
-/

namespace FieldVisitor

open WideArith Outcomes BoundedLoop NamedFields ByteCodecs TickIndex MoveTypes AnyVenues

/-! ### Annotated values -/

inductive MoveValue where
  | bool (b : Bool)
  | u8 (n : Byte)
  | u16 (n : Fin (2 ^ 16))
  | u32 (n : U32)
  | u64 (n : U64)
  | u128 (n : U128)
  | u256 (n : Fin (2 ^ 256))
  | address (a : Address)
  | signer (a : Address)
  | vector (element : MoveTypeLayout) (items : List MoveValue)
  | struct (type : StructTag) (fields : List (String × MoveValue))
  | variant (type : StructTag) (variant : String × Fin (2 ^ 16))
      (fields : List (String × MoveValue))

/-- A visitor of values, with a value of its own. -/
abbrev Visitor (α : Type) := MoveValue → Except DecodeError α

def boolV : Visitor Bool
  | .bool b => .ok b
  | _ => .error (.unexpectedType "bool")

def u32V : Visitor U32
  | .u32 n => .ok n
  | _ => .error (.unexpectedType "u32")

def u64V : Visitor U64
  | .u64 n => .ok n
  | _ => .error (.unexpectedType "u64")

def u128V : Visitor U128
  | .u128 n => .ok n
  | _ => .error (.unexpectedType "u128")

def addressV : Visitor Address
  | .address a => .ok a
  | _ => .error (.unexpectedType "address")

def byteOf : MoveValue → Option Byte
  | .u8 n => some n
  | _ => none

/-- The bytes of a `vector<u8>`, checked by the layout of its elements. -/
def bytesV : Visitor (List Byte)
  | .vector (.primitive .u8) items => okOr (items.mapM byteOf) .unexpectedEnd
  | _ => .error (.unexpectedType "vector<u8>")

def vecVisitor {α : Type} (visitor : Visitor α) : Visitor (List α)
  | .vector _ items => items.mapM visitor
  | _ => .error (.unexpectedType "a vector")

/-! ### Struct decoders -/

/-- The fields of a struct that were not consumed yet. -/
structure StructDriver where
  remaining : List (String × MoveValue)

namespace StructDriver

def peekField (driver : StructDriver) : Option String := driver.remaining.head?.map Prod.fst

def nextField {α : Type} (visitor : Visitor α) (driver : StructDriver) :
    Except DecodeError (Option α × StructDriver) :=
  match driver.remaining with
  | [] => .ok (none, driver)
  | field :: rest => do
    let value ← visitor field.2
    .ok (some value, ⟨rest⟩)

/-- Consume the next field with a visitor that looks at nothing. -/
def skipField (driver : StructDriver) : Except DecodeError (Option Unit × StructDriver) :=
  driver.nextField fun _ => .ok ()

/-- Consume the next field of a driver with a visitor. -/
def takeField {α : Type} (visitor : Visitor α) (driver : StructDriver) :
    Except DecodeError (α × StructDriver) :=
  match driver.nextField visitor with
  | .error e => .error e
  | .ok (some value, driver) => .ok (value, driver)
  | .ok (none, _) => .error .unexpectedEnd

end StructDriver

/-- What an arm of a decoder's `match` does with a field: visit it and note the value. -/
def assign {S α : Type} (visitor : Visitor α) (set : S → α → S) : Visitor (S → S) :=
  fun value => (visitor value).map fun a s => set s a

/-- What a decoder collects, the fields it knows by name, and what it makes of them. -/
structure StructDecoder (S α : Type) where
  start : S
  arms : List (String × Visitor (S → S))
  finish : S → Except DecodeError α

section decoder
variable {S α : Type}

def loopBody (arms : List (String × Visitor (S → S))) (state : S × StructDriver) :
    Except DecodeError (Pass (S × StructDriver)) :=
  match state.2.peekField with
  | none => .ok (.leave state)
  | some name =>
    match find arms name with
    | some arm => do
      let (update, driver) ← state.2.takeField arm
      .ok (.again (update state.1, driver))
    | none => do
      let (_, driver) ← state.2.skipField
      .ok (.again (state.1, driver))

/-- Every arm consumes the field it was chosen for, and so does passing one over. -/
theorem loopBody_decreases (arms : List (String × Visitor (S → S))) (s t : S × StructDriver)
    (h : loopBody arms s = .ok (.again t)) : t.2.remaining.length < s.2.remaining.length := by
  obtain ⟨state, ⟨remaining⟩⟩ := s
  cases remaining with
  | nil => cases h
  | cons field rest =>
    simp only [loopBody, StructDriver.peekField, List.head?_cons, Option.map_some] at h
    cases harm : find arms field.1 with
    | none =>
      rw [harm] at h
      cases h
      exact Nat.lt_succ_self _
    | some arm =>
      rw [harm] at h
      dsimp only [StructDriver.takeField, StructDriver.nextField] at h
      cases hvalue : arm field.2 with
      | error e =>
        rw [hvalue] at h
        cases h
      | ok update =>
        rw [hvalue] at h
        cases h
        exact Nat.lt_succ_self _

/-- `while let Some(field) = driver.peek_field()`, with a `match` on the field's name. -/
def fieldLoop (arms : List (String × Visitor (S → S))) :
    Loop DecodeError (S × StructDriver) where
  body := loopBody arms
  measure state := state.2.remaining.length
  decreases := loopBody_decreases arms

namespace StructDecoder

def decode (decoder : StructDecoder S α) (driver : StructDriver) :
    Except DecodeError (α × StructDriver) := do
  let (state, driver) ← (fieldLoop decoder.arms).run (decoder.start, driver)
  let value ← decoder.finish state
  .ok (value, driver)

end StructDecoder

def structVisitor (decoder : StructDecoder S α) : Visitor α
  | .struct _ fields => do
    let (value, _) ← decoder.decode ⟨fields⟩
    .ok value
  | _ => .error (.unexpectedType "a struct")

/-- A field that must be present. -/
def required {β : Type} (value : Option β) (field : String) : Except DecodeError β :=
  okOr value (.missingField field)

/-- A decoder that reads one field and requires it. -/
def oneField {β : Type} (name : String) (visitor : Visitor β) : StructDecoder (Option β) β where
  start := none
  arms := [(name, assign visitor fun _ value => some value)]
  finish value := required value name

/-- A loop over the driver is a fold over the fields. -/
theorem run_fieldLoop (arms : List (String × Visitor (S → S)))
    (fields : List (String × MoveValue)) (s : S) :
    (fieldLoop arms).run (s, ⟨fields⟩) =
      (fields.foldlM (readField arms) s).map fun t => (t, ⟨[]⟩) := by
  induction fields generalizing s with
  | nil => exact (fieldLoop arms).run_of_leave rfl
  | cons field rest ih =>
    have hbody : (fieldLoop arms).body (s, ⟨field :: rest⟩) =
        (readField arms s field).map fun t => .again (t, ⟨rest⟩) := by
      simp only [fieldLoop, loopBody, StructDriver.peekField, List.head?_cons, Option.map_some,
        readField]
      cases find arms field.1 with
      | none => rfl
      | some arm =>
        dsimp only [StructDriver.takeField, StructDriver.nextField]
        cases arm field.2 with
        | error e => rfl
        | ok update => rfl
    rw [List.foldlM_cons]
    cases hread : readField arms s field with
    | error e =>
      rw [hread] at hbody
      exact (fieldLoop arms).run_of_error hbody
    | ok t =>
      rw [hread] at hbody
      rw [(fieldLoop arms).run_of_again hbody, ih]
      rfl

theorem structVisitor_struct (decoder : StructDecoder S α) (type : StructTag)
    (fields : List (String × MoveValue)) : structVisitor decoder (.struct type fields) =
      (fields.foldlM (readField decoder.arms) decoder.start >>= decoder.finish) := by
  simp only [structVisitor, StructDecoder.decode]
  rw [run_fieldLoop]
  cases fields.foldlM (readField decoder.arms) decoder.start with
  | error e => rfl
  | ok s =>
    change (do
      let (value, _) ← (do
        let value ← decoder.finish s
        .ok (value, (⟨[]⟩ : StructDriver)))
      .ok value) = decoder.finish s
    cases decoder.finish s with
    | error e => rfl
    | ok value => rfl

end decoder

/-! ### Whole objects -/

mutual

/-- A value of a layout: the fields of a struct stand in the order of the layout. -/
def HasLayout : MoveTypeLayout → MoveValue → Prop
  | .primitive .bool, .bool _ => True
  | .primitive .u8, .u8 _ => True
  | .primitive .u16, .u16 _ => True
  | .primitive .u32, .u32 _ => True
  | .primitive .u64, .u64 _ => True
  | .primitive .u128, .u128 _ => True
  | .primitive .u256, .u256 _ => True
  | .primitive .address, .address _ => True
  | .primitive .signer, .signer _ => True
  | .vector inner, .vector element items =>
    element = inner ∧ ∀ item ∈ items, HasLayout inner item
  | .struct type fields, .struct type' values => type' = type ∧ HaveLayouts fields values
  | .enum type _, .variant type' _ _ => type' = type
  | _, _ => False

def HaveLayouts : List (FieldOver MoveTypeLayout) → List (String × MoveValue) → Prop
  | [], [] => True
  | ⟨name, layout⟩ :: rest, value :: values =>
    value.1 = name ∧ HasLayout layout value.2 ∧ HaveLayouts rest values
  | _, _ => False

end

mutual

/-- No struct of a layout has two fields of one name. Variants are never looked into. -/
def DistinctNames : MoveTypeLayout → Prop
  | .primitive _ => True
  | .vector inner => DistinctNames inner
  | .struct _ fields => (fields.map FieldOver.name).Nodup ∧ DistinctFields fields
  | .enum _ _ => True

def DistinctFields : List (FieldOver MoveTypeLayout) → Prop
  | [] => True
  | ⟨_, layout⟩ :: rest => DistinctNames layout ∧ DistinctFields rest

end

mutual

/-- The same of a value. -/
def Distinct : MoveValue → Prop
  | .vector _ items => DistinctItems items
  | .struct _ fields => (fields.map Prod.fst).Nodup ∧ DistinctValues fields
  | _ => True

def DistinctItems : List MoveValue → Prop
  | [] => True
  | item :: rest => Distinct item ∧ DistinctItems rest

def DistinctValues : List (String × MoveValue) → Prop
  | [] => True
  | (_, value) :: rest => Distinct value ∧ DistinctValues rest

end

/-- The annotated visitor's framework: the value it presents has the layout. -/
structure Framework where
  deserialize : MoveTypeLayout → List Byte → Except String MoveValue
  hasLayout : ∀ {layout : MoveTypeLayout} {bytes : List Byte} {value : MoveValue},
    deserialize layout bytes = .ok value → HasLayout layout value

/-- Decode a whole struct from its bytes. -/
def decodeStruct {S α : Type} (framework : Framework) (bytes : List Byte) (type : StructTag)
    (fields : List MoveFieldLayout) (decoder : StructDecoder S α) : Except DecodeError α :=
  match framework.deserialize (.struct type fields) bytes with
  | .error message => .error <| DecodeError.annotation message
  | .ok value => structVisitor decoder value

theorem distinctItems_iff {items : List MoveValue} :
    DistinctItems items ↔ ∀ item ∈ items, Distinct item := by
  induction items with
  | nil => simp [DistinctItems]
  | cons item rest ih => simp [DistinctItems, ih]

theorem distinctValues_iff {fields : List (String × MoveValue)} :
    DistinctValues fields ↔ ∀ field ∈ fields, Distinct field.2 := by
  induction fields with
  | nil => simp [DistinctValues]
  | cons field rest ih => simp [DistinctValues, ih]

theorem names_of_haveLayouts (fields : List (FieldOver MoveTypeLayout))
    (values : List (String × MoveValue)) (h : HaveLayouts fields values) :
    values.map Prod.fst = fields.map FieldOver.name := by
  induction fields generalizing values with
  | nil =>
    cases values with
    | nil => rfl
    | cons value values => exact absurd h (by simp [HaveLayouts])
  | cons field rest ih =>
    cases values with
    | nil => exact absurd h (by simp [HaveLayouts])
    | cons value values =>
      obtain ⟨name, layout⟩ := field
      obtain ⟨hname, _, hrest⟩ := h
      rw [List.map_cons, List.map_cons, hname, ih values hrest]

mutual

/-- Distinct names in a layout are distinct names in its values. -/
theorem distinct_of_layout (layout : MoveTypeLayout) (value : MoveValue)
    (h : HasLayout layout value) (hnames : DistinctNames layout) : Distinct value := by
  cases layout with
  | primitive p => cases p <;> cases value <;> trivial
  | vector inner =>
    cases value with
    | vector element items =>
      exact distinctItems_iff.mpr fun item hitem =>
        distinct_of_layout inner item (h.2 item hitem) hnames
    | _ => exact h.elim
  | struct type fields =>
    cases value with
    | struct type' values =>
      refine ⟨?_, distinct_of_layouts fields values h.2 hnames.2⟩
      rw [names_of_haveLayouts fields values h.2]
      exact hnames.1
    | _ => exact h.elim
  | enum type variants =>
    cases value with
    | variant type' variant fields => trivial
    | _ => exact h.elim

theorem distinct_of_layouts (fields : List (FieldOver MoveTypeLayout))
    (values : List (String × MoveValue)) (h : HaveLayouts fields values)
    (hnames : DistinctFields fields) : DistinctValues values := by
  cases fields with
  | nil =>
    cases values with
    | nil => trivial
    | cons value values => exact h.elim
  | cons field rest =>
    cases values with
    | nil => exact h.elim
    | cons value values =>
      obtain ⟨name, layout⟩ := field
      obtain ⟨_, hvalue, hrest⟩ := h
      exact ⟨distinct_of_layout layout value.2 hvalue hnames.1,
        distinct_of_layouts rest values hrest hnames.2⟩

end

/-! ### Agreeing in what is read -/

/-- Whether the fields that are read may stand in any order, or keep theirs. -/
inductive FieldOrder where
  | any
  | kept

namespace FieldOrder

/-- In any order the same value or some failure, in the order kept the same outcome. -/
def Agree {α : Type} (order : FieldOrder) (x y : Except DecodeError α) : Prop :=
  match order with
  | .any => x.toOption = y.toOption
  | .kept => x = y

def Fields (order : FieldOrder) (reads : List (String × (MoveValue → MoveValue → Prop)))
    (fields fields' : List (String × MoveValue)) : Prop :=
  match order with
  | .any => AnyOrder reads fields fields'
  | .kept => SameOrder reads fields fields'

end FieldOrder

/-- Structs that agree in the fields read, or the same value of another type. -/
def SameFields (order : FieldOrder) (reads : List (String × (MoveValue → MoveValue → Prop)))
    (v w : MoveValue) : Prop :=
  (∃ type fields type' fields', v = .struct type fields ∧ w = .struct type' fields' ∧
    order.Fields reads fields fields') ∨ v = w

/-- Vectors that agree item by item, or the same value of another type. -/
def SameItems (R : MoveValue → MoveValue → Prop) (v w : MoveValue) : Prop :=
  (∃ element items element' items', v = .vector element items ∧ w = .vector element' items' ∧
    List.Forall₂ R items items') ∨ v = w

/-- A visitor that reads of a value only what the relation compares. -/
def ReadsBy {α : Type} (order : FieldOrder) (R : MoveValue → MoveValue → Prop)
    (visitor : Visitor α) : Prop :=
  ∀ v w, Distinct v → Distinct w → R v w → order.Agree (visitor v) (visitor w)

section reads
variable {order : FieldOrder} {α β S : Type} {R : MoveValue → MoveValue → Prop}

theorem FieldOrder.agree_refl (order : FieldOrder) (x : Except DecodeError α) :
    order.Agree x x := by
  cases order with
  | any => rfl
  | kept => rfl

/-- Agreeing outcomes stay so under what is done with their values. -/
theorem FieldOrder.Agree.map {x y : Except DecodeError α} (h : order.Agree x y) (f : α → β) :
    order.Agree (x.map f) (y.map f) := by
  cases order with
  | kept => exact congrArg (Except.map f) h
  | any =>
    cases x with
    | error e =>
      cases y with
      | error e' => rfl
      | ok b => cases h
    | ok a =>
      cases y with
      | error e' => cases h
      | ok b =>
        cases h
        rfl

theorem FieldOrder.Agree.bind {x y : Except DecodeError α} {f g : α → Except DecodeError β}
    (h : order.Agree x y) (hf : ∀ a, order.Agree (f a) (g a)) :
    order.Agree (x >>= f) (y >>= g) := by
  cases order with
  | kept =>
    obtain rfl : x = y := h
    exact congrArg (x >>= ·) (funext hf)
  | any =>
    cases x with
    | error e =>
      cases y with
      | error e' => rfl
      | ok b => cases h
    | ok a =>
      cases y with
      | error e' => cases h
      | ok b =>
        cases h
        exact hf a

/-- A value read as a whole. -/
theorem readsBy_eq (visitor : Visitor α) : ReadsBy order Eq visitor := by
  rintro v w _ _ rfl
  exact order.agree_refl _

theorem ReadsBy.map {visitor : Visitor α} (h : ReadsBy order R visitor) (f : α → β) :
    ReadsBy order R fun value => (visitor value).map f :=
  fun v w hv hw hR => (h v w hv hw hR).map f

theorem ReadsBy.assign {visitor : Visitor α} (h : ReadsBy order R visitor) (set : S → α → S) :
    ReadsBy order R (assign visitor set) := h.map _

theorem ReadsBy.vec {visitor : Visitor α} (h : ReadsBy order R visitor) :
    ReadsBy order (SameItems R) (vecVisitor visitor) := by
  rintro v w hv hw (⟨element, items, element', items', rfl, rfl, hitems⟩ | rfl)
  · have hv' : ∀ item ∈ items, Distinct item := distinctItems_iff.mp hv
    have hw' : ∀ item ∈ items', Distinct item := distinctItems_iff.mp hw
    clear hv hw
    change order.Agree (items.mapM visitor) (items'.mapM visitor)
    induction hitems with
    | nil => exact order.agree_refl _
    | @cons item item' items items' hitem _ ih =>
      have hfirst := h item item' (hv' item List.mem_cons_self) (hw' item' List.mem_cons_self) hitem
      have hrest := ih (fun i hi => hv' i (List.mem_cons_of_mem _ hi))
        (fun i hi => hw' i (List.mem_cons_of_mem _ hi))
      rw [List.mapM_cons, List.mapM_cons]
      exact hfirst.bind fun a => hrest.bind fun rest => order.agree_refl _
  · exact order.agree_refl _

/-- The updates of different fields do not interfere. -/
def StructDecoder.Commutes (decoder : StructDecoder S α) : Prop :=
  decoder.arms.Pairwise fun arm arm' => NamedFields.Commute arm.2 arm'.2

theorem commute_assign {visitor : Visitor α} {visitor' : Visitor β} {set : S → α → S}
    {set' : S → β → S} (h : ∀ s a b, set' (set s a) b = set (set' s b) a) :
    NamedFields.Commute (FieldVisitor.assign visitor set) (FieldVisitor.assign visitor' set') := by
  intro v w update update' hupdate hupdate' s
  unfold FieldVisitor.assign at hupdate hupdate'
  cases hvisit : visitor v with
  | error e =>
    rw [hvisit] at hupdate
    cases hupdate
  | ok a =>
    cases hvisit' : visitor' w with
    | error e =>
      rw [hvisit'] at hupdate'
      cases hupdate'
    | ok b =>
      rw [hvisit] at hupdate
      rw [hvisit'] at hupdate'
      cases hupdate
      cases hupdate'
      exact h s a b

/-- A decoder whose arms read what is listed reads no more of a struct. -/
theorem ReadsBy.struct {decoder : StructDecoder S α}
    {reads : List (String × (MoveValue → MoveValue → Prop))} (hcommutes : decoder.Commutes)
    (h : List.Forall₂ (fun arm read => arm.1 = read.1 ∧ ReadsBy order read.2 arm.2)
      decoder.arms reads) : ReadsBy order (SameFields order reads) (structVisitor decoder) := by
  rintro v w hv hw (⟨type, fields, type', fields', rfl, rfl, hfields⟩ | rfl)
  · have hP : ∀ f ∈ fields, Distinct f.2 := distinctValues_iff.mp hv.2
    have hP' : ∀ f ∈ fields', Distinct f.2 := distinctValues_iff.mp hw.2
    rw [structVisitor_struct, structVisitor_struct]
    refine FieldOrder.Agree.bind ?_ fun s => order.agree_refl _
    cases order with
    | kept => exact foldlM_same_order h hP hP' hfields _
    | any => exact foldlM_any_order h hcommutes hv.1 hw.1 hP hP' hfields _
  · exact order.agree_refl _

theorem ReadsBy.oneField {visitor : Visitor α} (h : ReadsBy order R visitor) (name : String) :
    ReadsBy order (SameFields order [(name, R)]) (structVisitor (oneField name visitor)) :=
  .struct (List.pairwise_singleton _ _) (.cons ⟨rfl, h.assign _⟩ .nil)

end reads

end FieldVisitor
