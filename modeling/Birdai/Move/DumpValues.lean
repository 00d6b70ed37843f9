import Birdai.Move.DumpSpans
import Birdai.Move.WireValues

/-!
# What a dump shows

A dump shows the value that its bytes are read as, down to its depth and up to its cap.
A dotted path through the dump ends in the text of what it leads to in the value.
-/

namespace Dumps

open NamedFields ByteCodecs MoveTypes AnyVenues Cursors Drivers
open FieldVisitor (MoveValue HasLayout)

/-! ### Showing a value -/

/-- The text of a value without parts. -/
def scalarText (addressText : Address → String) : MoveValue → Option String
  | .bool b => some (if b then "true" else "false")
  | .u8 n => some (toString n.val)
  | .u16 n => some (toString n.val)
  | .u32 n => some (toString n.val)
  | .u64 n => some (toString n.val)
  | .u128 n => some (toString n.val)
  | .u256 n => some (toString n.val)
  | .address a => some (addressText a)
  | .signer a => some (addressText a)
  | _ => none

mutual

/-- The tree is the value's, down to a depth and up to a cap: a container below the depth is its
label, and of a vector the elements from the cap on are left out. -/
inductive Shows (addressText : Address → String) (cap : ℕ) : ℕ → DumpValue → MoveValue → Prop where
  | scalar {depth : ℕ} {p : Primitive} {text : String} {value : MoveValue} :
      HasLayout (.primitive p) value → scalarText addressText value = some text →
        Shows addressText cap depth (.scalar p.text text) value
  | limitedVector {element : MoveTypeLayout} {values : List MoveValue} :
      Shows addressText cap 0 (.depthLimited ("vector<" ++ shortTypeOf element ++ "> (len " ++
        toString values.length ++ ")")) (.vector element values)
  | vector {depth : ℕ} {element : MoveTypeLayout} {items : List (DumpItemOver DumpValue)}
      {values : List MoveValue} : ShowsItems addressText cap depth 0 items values →
        Shows addressText cap (depth + 1)
          (.vector (shortTypeOf element) values.length items (values.length - items.length))
          (.vector element values)
  | limitedStruct {type : StructTag} {values : List (String × MoveValue)} :
      Shows addressText cap 0 (.depthLimited (shortTag type)) (.struct type values)
  | struct {depth : ℕ} {type : StructTag} {fields : List (DumpFieldOver DumpValue)}
      {values : List (String × MoveValue)} : ShowsFields addressText cap depth fields values →
        Shows addressText cap (depth + 1)
          (.struct (shortTag type) (isChildContainer type) fields) (.struct type values)
  | limitedVariant {type : StructTag} {name : String} {tag : Fin (2 ^ 16)}
      {values : List (String × MoveValue)} :
      Shows addressText cap 0 (.depthLimited name) (.variant type (name, tag) values)
  | variant {depth : ℕ} {type : StructTag} {name : String} {tag : Fin (2 ^ 16)}
      {fields : List (DumpFieldOver DumpValue)} {values : List (String × MoveValue)} :
      ShowsFields addressText cap depth fields values →
        Shows addressText cap (depth + 1) (.variant name tag fields)
          (.variant type (name, tag) values)

inductive ShowsFields (addressText : Address → String) (cap : ℕ) :
    ℕ → List (DumpFieldOver DumpValue) → List (String × MoveValue) → Prop where
  | nil {depth : ℕ} : ShowsFields addressText cap depth [] []
  | cons {depth : ℕ} {name : String} {span : Span} {tree : DumpValue} {value : MoveValue}
      {fields : List (DumpFieldOver DumpValue)} {values : List (String × MoveValue)} :
      Shows addressText cap depth tree value → ShowsFields addressText cap depth fields values →
        ShowsFields addressText cap depth (⟨name, span, tree⟩ :: fields) ((name, value) :: values)

/-- Items from an index on. -/
inductive ShowsItems (addressText : Address → String) (cap : ℕ) :
    ℕ → ℕ → List (DumpItemOver DumpValue) → List MoveValue → Prop where
  | nil {depth index : ℕ} : ShowsItems addressText cap depth index [] []
  | full {depth index : ℕ} {values : List MoveValue} : cap ≤ index →
      ShowsItems addressText cap depth index [] values
  | cons {depth index : ℕ} {span : Span} {tree : DumpValue} {value : MoveValue}
      {items : List (DumpItemOver DumpValue)} {values : List MoveValue} : index < cap →
      Shows addressText cap depth tree value →
        ShowsItems addressText cap depth (index + 1) items values →
          ShowsItems addressText cap depth index (⟨index, span, tree⟩ :: items) (value :: values)

end

/-- A scalar a primitive can have. -/
def Fits : Primitive → Scalar → Prop
  | .bool, .bool _ => True
  | .u8, .integer n => n < 2 ^ 8
  | .u16, .integer n => n < 2 ^ 16
  | .u32, .integer n => n < 2 ^ 32
  | .u64, .integer n => n < 2 ^ 64
  | .u128, .integer n => n < 2 ^ 128
  | .u256, .integer n => n < 2 ^ 256
  | .address, .address _ => True
  | .signer, .address _ => True
  | _, _ => False

/-- A wire that reads of every primitive a scalar it can have. -/
def Typed (wire : Wire) : Prop :=
  ∀ p l s n, (wire.scalar p).read l = .ok (s, n) → Fits p s

theorem scalarText_scalarValue {addressText : Address → String} {p : Primitive} {s : Scalar}
    (h : Fits p s) :
    scalarText addressText (scalarValue s p) = some (Scalar.text addressText s) := by
  cases p <;> cases s <;>
    first
    | exact h.elim
    | rfl
    | exact congrArg (fun n => some (toString n)) (Nat.mod_eq_of_lt h)

/-! ### The same value -/

/-- The visitor renders up to the cap and descends `depth` more levels. -/
structure Renders (cap depth : ℕ) (s : Dump) : Prop where
  cap : Dump.itemCap s.options = cap
  budget : s.budget = depth

/-- What the visitor made of the value, and what it can still render. -/
structure Rendered (addressText : Address → String) (cap depth : ℕ) (r : DumpValue × Dump)
    (value : MoveValue) : Prop where
  shows : Shows addressText cap depth r.1 value
  visitor : Renders cap depth r.2

namespace Renders
variable {cap depth : ℕ} {self : Dump}

theorem exhausted (h : Renders cap depth self) : self.exhausted = true ↔ depth = 0 := by
  have hbudget := h.budget
  simp only [Dump.exhausted, decide_eq_true_eq, Dump.budget] at hbudget ⊢
  omega

theorem deeper (h : Renders cap (depth + 1) self) : Renders cap depth self.deeper := by
  have hbudget := h.budget
  refine ⟨h.cap, ?_⟩
  simp only [Dump.budget, Dump.deeper] at hbudget ⊢
  omega

theorem spanned (h : Renders cap depth self) (start stop : ℕ) :
    Renders cap depth (self.spanned start stop) := ⟨h.cap, h.budget⟩

end Renders

/-- Where the visitor ends, what it returns is the value's. -/
theorem ending_shows {addressText : Address → String} {cap depth k start : ℕ} {self : Dump}
    {tree : DumpValue} {value : MoveValue} (h : Renders cap depth self)
    (hshows : Shows addressText cap depth tree value) :
    Replays k (Rendered addressText cap depth)
      (do let position ← here; pure (tree, self.spanned start position) : ByteWalk _)
      (pure value) :=
  .here_left fun _ => .pure ⟨hshows, h.spanned _ _⟩

section vectors
variable {addressText : Address → String} {cap k : ℕ} {driver : VecDriver Dump DumpValue}
  {element : ByteWalk MoveValue} (hskip : Covers k driver.skipElement element)
  (hnext : ∀ depth self, Renders cap depth self →
    Replays k (Rendered addressText cap depth) (driver.nextElement self) element)
include hnext

/-- With the cap reached before, elements are visited and none is added. -/
theorem elementLoop_idle (n : ℕ) {depth : ℕ} {inner : Dump} (hinner : Renders cap depth inner)
    (items : List DumpItem) {rendered : ℕ} (hfull : cap ≤ rendered) :
    Replays k (fun r values => r = (items, rendered) ∧ values.length = n)
      (Dump.elementLoop driver cap n inner items rendered) (collect element n) := by
  induction n generalizing inner with
  | zero => exact .pure ⟨rfl, rfl⟩
  | succ n ih =>
    rw [Dump.elementLoop, collect]
    refine (hnext depth inner hinner).bind fun r value hvalue => ?_
    dsimp only
    rw [if_neg (not_lt.mpr hfull)]
    exact (ih hvalue.visitor).map_right fun _ _ h => ⟨h.1, congrArg Nat.succ h.2⟩

include hskip

theorem elementLoop_shows (n : ℕ) {depth : ℕ} {inner : Dump} (hinner : Renders cap depth inner)
    (items : List DumpItem) :
    Replays k (fun r values => ∃ new, r = (items ++ new, items.length + new.length) ∧
        ShowsItems addressText cap depth items.length new values ∧ values.length = n)
      (Dump.elementLoop driver cap n inner items items.length) (collect element n) := by
  induction n generalizing inner items with
  | zero => exact .pure ⟨[], by rw [List.append_nil]; rfl, .nil, rfl⟩
  | succ n ih =>
    by_cases hcap : items.length < cap
    · rw [Dump.elementLoop, collect]
      refine (hnext depth inner hinner).bind fun r value hvalue => ?_
      dsimp only
      rw [if_pos hcap]
      by_cases hlast : items.length + 1 = cap
      · rw [if_pos hlast]
        refine (Covers.collect hskip n).bind fun _ values hlength => .pure ?_
        have hitems : ShowsItems addressText cap depth items.length
            [⟨items.length, r.2.lastSpan, r.1⟩] (value :: values) :=
          .cons hcap hvalue.shows (.full hlast.ge)
        exact ⟨_, rfl, hitems, congrArg Nat.succ hlength⟩
      · rw [if_neg hlast]
        have hrest := ih hvalue.visitor (items ++ [⟨items.length, r.2.lastSpan, r.1⟩])
        rw [List.length_append, List.length_singleton] at hrest
        refine hrest.map_right fun _ values h => ?_
        obtain ⟨new, rfl, hitems, hlength⟩ := h
        refine ⟨⟨items.length, r.2.lastSpan, r.1⟩ :: new, ?_, .cons hcap hvalue.shows hitems, ?_⟩
        · rw [List.append_assoc, List.length_cons, Nat.add_assoc, Nat.add_comm 1]
          rfl
        · exact congrArg Nat.succ hlength
    · have hfull := not_lt.mp hcap
      refine (elementLoop_idle hnext (n + 1) hinner items hfull).mono fun _ values h => ?_
      exact ⟨[], by rw [List.append_nil]; exact h.1, .full hfull, h.2⟩

variable (driver) in
theorem visitVector_shows {depth : ℕ} {self : Dump} (h : Renders cap depth self) :
    Replays k (Rendered addressText cap depth) (self.visitVector driver) (do
      let items ← collect element driver.len
      pure (.vector driver.elementLayout items)) := by
  unfold Dump.visitVector
  cases depth with
  | zero =>
    rw [if_pos (h.exhausted.mpr rfl)]
    refine (Covers.collect hskip driver.len).bind fun _ values hlength => ending_shows h ?_
    rw [← hlength]
    exact .limitedVector
  | succ depth =>
    rw [if_neg fun he => Nat.succ_ne_zero depth (h.exhausted.mp he), h.cap]
    refine (elementLoop_shows hskip hnext driver.len h.deeper []).bind fun r values hloop => ?_
    obtain ⟨items, rfl, hitems, hlength⟩ := hloop
    refine ending_shows h ?_
    rw [← hlength, List.nil_append, List.length_nil, Nat.zero_add]
    exact .vector hitems

end vectors

/-! ### Fields -/

section fields
variable {wire : Wire} {cap k : ℕ} {fields : List (FieldOver MoveTypeLayout)}
  (hloop : ∀ depth inner acc, Renders cap depth inner →
    Replays k (fun dumped values => ∃ new, dumped = acc ++ new ∧
        ShowsFields wire.addressText cap depth new values)
      (Dump.fieldLoop (driveFields wire fields Dump DumpValue (dumpVisitor wire.addressText)) inner
        acc) (annotatedFields wire fields))
include hloop

/-- `limited` and `build` show what `value` makes of the fields' values. -/
theorem visitFields_shows {start : ℕ} {limited : String} {build : List DumpField → DumpValue}
    {value : List (String × MoveValue) → MoveValue}
    (hlimited : ∀ values, Shows wire.addressText cap 0 (.depthLimited limited) (value values))
    (hbuild : ∀ depth trees values, ShowsFields wire.addressText cap depth trees values →
      Shows wire.addressText cap (depth + 1) (build trees) (value values))
    {depth : ℕ} {self : Dump} (h : Renders cap depth self) :
    Replays k (Rendered wire.addressText cap depth)
      (Dump.visitFields (driveFields wire fields Dump DumpValue (dumpVisitor wire.addressText))
        start limited build self)
      (do let values ← annotatedFields wire fields; pure (value values)) := by
  unfold Dump.visitFields
  cases depth with
  | zero =>
    rw [if_pos (h.exhausted.mpr rfl), skipFields_eq]
    exact (values_cover wire fields k).bind fun _ _ _ => ending_shows h (hlimited _)
  | succ depth =>
    rw [if_neg fun he => Nat.succ_ne_zero depth (h.exhausted.mp he)]
    refine (hloop depth self.deeper [] h.deeper).bind fun trees values hshown => ?_
    obtain ⟨_, rfl, hfields⟩ := hshown
    exact ending_shows h (hbuild depth trees values hfields)

end fields

/-! ### Whole values -/

mutual

/-- A dump visits the value that is read, and shows it. -/
theorem visitDump_shows {wire : Wire} (htyped : Typed wire) (layout : MoveTypeLayout) (k : ℕ)
    {cap depth : ℕ} {self : Dump} (h : Renders cap depth self) :
    Replays k (Rendered wire.addressText cap depth)
      (visitDump wire layout self) (annotatedValue wire layout) := by
  cases layout with
  | primitive p =>
    rw [visitDump, visitValue, annotatedValue]
    refine .here_left fun start => ?_
    refine (Replays.reader_gives _ _ (htyped p)).bind fun s _ hs => .here_left fun stop => ?_
    obtain ⟨rfl, hfits⟩ := hs
    refine .pure ⟨.scalar (hasLayout_scalarValue s p) (scalarText_scalarValue hfits), ?_⟩
    exact h.spanned _ _
  | vector inner =>
    rw [visitDump, visitValue, annotatedValue]
    refine .here_left fun start => (Replays.reader _ _).bind fun len _ hlen => ?_
    subst hlen
    have hskip := passOver_covers (value_covers wire inner k)
    exact visitVector_shows ⟨inner, len, start, visitDump wire inner, _⟩ hskip
      (fun _ _ hself => visitDump_shows htyped inner k hself) h
  | struct type fields =>
    rw [visitDump, visitValue, annotatedValue]
    refine .here_left fun start => ?_
    exact visitFields_shows (fun _ _ acc hself => fields_show htyped fields k hself acc)
      (fun _ => .limitedStruct) (fun _ _ _ => .struct) h
  | enum type variants =>
    rw [visitDump, visitValue, annotatedValue]
    refine .here_left fun start => (Replays.reader _ _).bind fun tag _ htag => ?_
    subst htag
    rw [driveVariant_eq, annotatedVariant_eq]
    cases hfind : variants.find? fun variant => variant.1.2 = tag with
    | none => exact .fail _
    | some variant =>
      have hmem := List.mem_of_find?_eq_some hfind
      exact visitFields_shows
        (fun _ _ acc hself => variants_show htyped variants k variant hmem hself acc)
        (fun _ => .limitedVariant) (fun _ _ _ => .variant) h

theorem fields_show {wire : Wire} (htyped : Typed wire) (fields : List (FieldOver MoveTypeLayout))
    (k : ℕ) {cap depth : ℕ} {inner : Dump} (hinner : Renders cap depth inner)
    (acc : List DumpField) :
    Replays k (fun dumped values => ∃ new, dumped = acc ++ new ∧
        ShowsFields wire.addressText cap depth new values)
      (Dump.fieldLoop (driveFields wire fields Dump DumpValue (dumpVisitor wire.addressText)) inner
        acc) (annotatedFields wire fields) := by
  cases fields with
  | nil => exact .pure ⟨[], (List.append_nil acc).symm, .nil⟩
  | cons field rest =>
    obtain ⟨name, layout⟩ := field
    rw [driveFields, Dump.fieldLoop, annotatedFields]
    refine (visitDump_shows htyped layout k hinner).bind fun r value hvalue => ?_
    refine (fields_show htyped rest k hvalue.visitor _).map_right fun dumped values hshown => ?_
    obtain ⟨new, rfl, hfields⟩ := hshown
    exact ⟨_ :: new, List.append_assoc _ _ _, .cons hvalue.shows hfields⟩

theorem variants_show {wire : Wire} (htyped : Typed wire)
    (variants : List ((String × Fin (2 ^ 16)) × List (FieldOver MoveTypeLayout))) (k : ℕ) :
    ∀ variant ∈ variants, ∀ {cap depth : ℕ} {inner : Dump}, Renders cap depth inner → ∀ acc,
      Replays k (fun dumped values => ∃ new, dumped = acc ++ new ∧
        ShowsFields wire.addressText cap depth new values)
      (Dump.fieldLoop (driveFields wire variant.2 Dump DumpValue (dumpVisitor wire.addressText))
        inner acc) (annotatedFields wire variant.2) := by
  cases variants with
  | nil => nofun
  | cons variant rest =>
    obtain ⟨tag, fields⟩ := variant
    intro variant hvariant
    rcases List.mem_cons.mp hvariant with rfl | hvariant
    · exact fun hinner acc => fields_show htyped fields k hinner acc
    · exact variants_show htyped rest k variant hvariant

end

/-! ### Paths of names -/

/-- What a dotted path is split into. -/
def segmentsOf (path : String) : List String := (path.toList.splitOn '.').map String.ofList

namespace DumpValue

/-- The child field of the name, one level deep. -/
def child (self : DumpValue) (name : String) : Option DumpValue :=
  match self with
  | .struct _ _ fields => (fields.find? fun field => field.name = name).map DumpFieldOver.value
  | .variant _ _ fields => (fields.find? fun field => field.name = name).map DumpFieldOver.value
  | _ => none

def follow (self : DumpValue) : List String → Option DumpValue
  | [] => some self
  | segment :: rest => do
    let current ← self.child segment
    current.follow rest

def path (self : DumpValue) (path : String) : Option DumpValue := self.follow (segmentsOf path)

def asText : DumpValue → Option String
  | .scalar _ text => some text
  | _ => none

end DumpValue

/-- The part of a value under a name. -/
def valueChild (value : MoveValue) (name : String) : Option MoveValue :=
  match value with
  | .struct _ values => find values name
  | .variant _ _ values => find values name
  | _ => none

def valueFollow (value : MoveValue) : List String → Option MoveValue
  | [] => some value
  | segment :: rest => do
    let current ← valueChild value segment
    valueFollow current rest

section paths
variable {addressText : Address → String} {cap depth : ℕ} {tree : DumpValue} {value : MoveValue}

theorem ShowsFields.child {fields : List DumpField} {values : List (String × MoveValue)}
    (h : ShowsFields addressText cap depth fields values) (name : String) :
    Option.Rel (Shows addressText cap depth)
      ((fields.find? fun field => field.name = name).map DumpFieldOver.value)
      (find values name) := by
  induction fields generalizing values with
  | nil =>
    cases h
    exact .none
  | cons field fields ih =>
    cases h with
    | @cons _ first _ _ _ _ _ hfield hrest =>
      rw [find]
      by_cases hname : first = name
      · rw [List.find?_cons_of_pos (by simpa using hname),
          List.find?_cons_of_pos (by simpa using hname)]
        exact .some hfield
      · rw [List.find?_cons_of_neg (by simpa using hname),
          List.find?_cons_of_neg (by simpa using hname)]
        exact ih hrest

theorem valueChild_primitive {p : Primitive} (h : HasLayout (.primitive p) value) (name : String) :
    valueChild value name = none := by
  cases value with
  | vector element items => cases p <;> exact h.elim
  | struct type values => cases p <;> exact h.elim
  | variant type variant values => cases p <;> exact h.elim
  | _ => rfl

/-- Below the last level there is nothing to follow. -/
theorem Shows.child_limited (h : Shows addressText cap 0 tree value) (name : String) :
    tree.child name = none := by
  cases h with
  | scalar hlayout htext => rfl
  | limitedVector => rfl
  | limitedStruct => rfl
  | limitedVariant => rfl

theorem Shows.child (h : Shows addressText cap (depth + 1) tree value) (name : String) :
    Option.Rel (Shows addressText cap depth) (tree.child name) (valueChild value name) := by
  cases h with
  | scalar hlayout htext =>
    rw [valueChild_primitive hlayout]
    exact .none
  | vector hitems => exact .none
  | struct hfields => exact hfields.child name
  | variant hfields => exact hfields.child name

theorem Shows.asText (h : Shows addressText cap depth tree value) :
    tree.asText = scalarText addressText value := by
  cases h with
  | scalar hlayout htext => exact htext.symm
  | _ => rfl

/-- Within the depth a path leads as far in the tree as in the value. -/
theorem Shows.follow {segments : List String} (hdepth : segments.length ≤ depth)
    (h : Shows addressText cap depth tree value) :
    Option.Rel (Shows addressText cap (depth - segments.length)) (tree.follow segments)
      (valueFollow value segments) := by
  induction segments generalizing depth tree value with
  | nil => exact .some h
  | cons segment rest ih =>
    obtain _ | depth := depth
    · exact absurd hdepth (Nat.not_succ_le_zero _)
    · rw [List.length_cons, Nat.add_sub_add_right, DumpValue.follow, valueFollow]
      have hchild := h.child segment
      revert hchild
      generalize tree.child segment = found
      generalize valueChild value segment = found'
      rintro (⟨hshows⟩ | _)
      · exact ih (Nat.le_of_succ_le_succ hdepth) hshows
      · exact .none

/-- And at any depth it leads no further. -/
theorem Shows.follow_sound {segments : List String} {part : DumpValue}
    (h : Shows addressText cap depth tree value) (hpart : tree.follow segments = some part) :
    ∃ depth' found, valueFollow value segments = some found ∧
      Shows addressText cap depth' part found := by
  induction segments generalizing depth tree value with
  | nil =>
    cases hpart
    exact ⟨depth, value, rfl, h⟩
  | cons segment rest ih =>
    rw [DumpValue.follow] at hpart
    obtain ⟨next, hnext, hpart⟩ := Option.bind_eq_some_iff.mp hpart
    obtain _ | depth := depth
    · rw [h.child_limited] at hnext
      cases hnext
    · have hchild := h.child segment
      rw [hnext] at hchild
      rw [valueFollow]
      revert hchild
      generalize valueChild value segment = found
      rintro ⟨hshows⟩
      exact ih hshows hpart

theorem Shows.text (h : Shows addressText cap depth tree value) {path : String}
    (hdepth : (segmentsOf path).length ≤ depth) : (tree.path path).bind DumpValue.asText =
      (valueFollow value (segmentsOf path)).bind (scalarText addressText) := by
  have hfollow := h.follow hdepth
  rw [DumpValue.path]
  revert hfollow
  generalize tree.follow (segmentsOf path) = part
  generalize valueFollow value (segmentsOf path) = found
  rintro (⟨hshows⟩ | _)
  · exact hshows.asText
  · rfl

theorem Shows.text_sound (h : Shows addressText cap depth tree value) {path text : String}
    (htext : (tree.path path).bind DumpValue.asText = some text) :
    (valueFollow value (segmentsOf path)).bind (scalarText addressText) = some text := by
  obtain ⟨part, hpart, htext⟩ := Option.bind_eq_some_iff.mp htext
  obtain ⟨_, found, hfound, hshows⟩ := h.follow_sound hpart
  rw [hfound, ← htext]
  exact hshows.asText.symm

end paths

/-! ### Dumps and decoders -/

section whole
variable {wire : Wire} {options : DumpOptions} {layout : MoveTypeLayout} {bytes : List Byte}

theorem renders_start (options : DumpOptions) :
    Renders (Dump.itemCap options) options.maxDepth (Dump.withOptions options) :=
  ⟨rfl, Nat.sub_zero _⟩

theorem visit_of_dump {tree : DumpValue} (h : dump wire options layout bytes = .ok tree) :
    ∃ self position, visitDump wire layout (Dump.withOptions options) ⟨0, bytes⟩ =
      .ok ((tree, self), ⟨position, []⟩) := by
  rw [dump, decodeValue] at h
  obtain ⟨⟨⟨value, self⟩, ⟨position, rest⟩⟩, hrun, h⟩ := Outcomes.bind_eq_ok_iff.mp h
  dsimp only at h
  split at h
  · rename_i hempty
    cases h
    obtain rfl : rest = [] := List.isEmpty_iff.mp hempty
    exact ⟨self, position, hrun⟩
  · cases h

theorem value_of_dump (htyped : Typed wire) {tree : DumpValue}
    (h : dump wire options layout bytes = .ok tree) :
    ∃ value, (wireFramework wire).deserialize layout bytes = .ok value ∧
      Shows wire.addressText (Dump.itemCap options) options.maxDepth tree value := by
  obtain ⟨self, position, hrun⟩ := visit_of_dump h
  have hshows := visitDump_shows htyped layout 0 (renders_start options)
  obtain ⟨taken, hbytes, _, hreplay⟩ := hshows 0 bytes _ _ hrun
  obtain ⟨value, hvalue, hrendered⟩ := hreplay []
  rw [← hbytes] at hvalue
  exact ⟨value, annotatedWhole_ok_iff.mpr ⟨_, hvalue⟩, hrendered.shows⟩

theorem dump_of_value {value : MoveValue}
    (h : (wireFramework wire).deserialize layout bytes = .ok value) :
    ∃ tree, dump wire options layout bytes = .ok tree := by
  obtain ⟨position, hread⟩ := annotatedWhole_ok_iff.mp h
  refine dump_of_decodes ?_
  obtain ⟨taken, hbytes, _, hreplay⟩ := value_covered wire layout 0 0 bytes _ _ hread
  obtain ⟨r, hpassed, _⟩ := hreplay []
  rw [← hbytes] at hpassed
  rw [decodeValue, hpassed]
  rfl

end whole

/-- The dump is the picture of the value the decoders are given. Bytes are dumped exactly if they
are read as a value, whatever the options; the tree is that value's, down to its depth and up to its
cap, and a path that stays within the depth ends in the same text in both. -/
theorem dump_shows_value {wire : Wire} (htyped : Typed wire) (options : DumpOptions)
    (layout : MoveTypeLayout) (bytes : List Byte) :
    ((∃ tree, dump wire options layout bytes = .ok tree) ↔
      ∃ value, (wireFramework wire).deserialize layout bytes = .ok value) ∧
    ∀ tree value, dump wire options layout bytes = .ok tree →
      (wireFramework wire).deserialize layout bytes = .ok value →
        Shows wire.addressText (Dump.itemCap options) options.maxDepth tree value ∧
        (∀ path text, (tree.path path).bind DumpValue.asText = some text →
          (valueFollow value (segmentsOf path)).bind (scalarText wire.addressText) = some text) ∧
        ∀ path, (segmentsOf path).length ≤ options.maxDepth →
          (tree.path path).bind DumpValue.asText =
            (valueFollow value (segmentsOf path)).bind (scalarText wire.addressText) := by
  refine ⟨⟨?_, fun ⟨_, hvalue⟩ => dump_of_value hvalue⟩, fun tree value htree hvalue => ?_⟩
  · rintro ⟨tree, htree⟩
    obtain ⟨value, hvalue, _⟩ := value_of_dump htyped htree
    exact ⟨value, hvalue⟩
  · obtain ⟨found, hfound, hshows⟩ := value_of_dump htyped htree
    obtain rfl : found = value := Except.ok.inj (hfound.symm.trans hvalue)
    exact ⟨hshows, fun _ _ => hshows.text_sound, fun _ => hshows.text⟩

/-! ### A plain wire -/

theorem readNumber_lt (bytes : List Byte) : readNumber bytes < 256 ^ bytes.length := by
  have hdigits : ∀ d ∈ bytes.map Fin.val, d < 256 := fun d hd => by
    obtain ⟨byte, _, rfl⟩ := List.mem_map.mp hd
    exact byte.isLt
  have hlt := Nat.ofDigits_lt_base_pow_length (by norm_num) hdigits
  rwa [List.length_map] at hlt

theorem readScalar_fits {p : Primitive} {bytes : List Byte} {s : Scalar}
    (hwidth : bytes.length = scalarWidth p) (h : readScalar p bytes = .ok s) : Fits p s := by
  have hlt := readNumber_lt bytes
  rw [hwidth] at hlt
  cases p with
  | bool =>
    rw [readScalar] at h
    split at h
    · cases h
      trivial
    · cases h
      trivial
    · cases h
  | address =>
    cases h
    trivial
  | signer =>
    cases h
    trivial
  | _ =>
    cases h
    exact hlt.trans_eq (by decide)

theorem plainWire_typed : Typed plainWire := by
  intro p l s n h
  change (if scalarWidth p ≤ l.length then
    (readScalar p (l.take (scalarWidth p))).map fun a => (a, scalarWidth p)
    else .error endOfInput) = .ok (s, n) at h
  split at h
  · rename_i hwidth
    cases hread : readScalar p (l.take (scalarWidth p)) with
    | error e =>
      rw [hread] at h
      cases h
    | ok found =>
      rw [hread] at h
      cases h
      exact readScalar_fits (List.length_take_of_le hwidth) hread
  · cases h

def pairValue : MoveValue :=
  .struct pairType [("amount", .u16 261), ("marks", .vector (.primitive .u8) [.u8 7, .u8 9])]

theorem pair_read :
    (wireFramework plainWire).deserialize pairLayout pairBytes = .ok pairValue := rfl

/-- One of the two marks is rendered; the amount is found under its name. -/
theorem dump_shows_value_pair :
    Shows plainWire.addressText 1 2 pairDump pairValue ∧
      (pairDump.path "amount").bind DumpValue.asText = some "261" := by
  have hshows := (dump_shows_value plainWire_typed ⟨2, 1⟩ pairLayout pairBytes).2 pairDump pairValue
    dump_pair pair_read
  exact ⟨hshows.1, (hshows.2.2 "amount" (by decide)).trans rfl⟩

end Dumps
