import Birdai.Move.Dump

/-!
# Runs of the dump visitor

A dump takes of the bytes what passing over the value takes, and leaves the span of the
value behind.
-/

namespace Dumps

open ByteCodecs MoveTypes AnyVenues Cursors Drivers

variable {σ α : Type} {wire : Wire}

/-! ### Visitors that take everything -/

theorem passOver_covers {k : ℕ} {γ : Type} {m : ByteWalk (Unit × Unit)} {m' : ByteWalk γ}
    (h : Covers k m m') : Covers k (passOver m) m' := h.returning ()

theorem passOver_right {k : ℕ} {γ : Type} {m : ByteWalk γ} {m' : ByteWalk (Unit × Unit)}
    (h : Covers k m m') : Covers k m (passOver m') := h.returned ()

/-- A field is covered when skipping it and visiting it both take what the walk takes. -/
def CoversField (k : ℕ) (m : ByteWalk Unit) (field : FieldDriver σ α) : Prop :=
  Covers k m field.skipField ∧ ∀ self, Covers k m (field.nextField self)

/-- A visitor that takes of its driver all that there is, and never gives up. -/
structure Complete (visitor : Visitor σ α) : Prop where
  vector : ∀ {k : ℕ} {m : ByteWalk Unit} (driver : VecDriver σ α) (self : σ),
    Covers k m driver.skipElement → (∀ self, Covers k m (driver.nextElement self)) →
      Covers k (times m driver.len) (visitor.visitVector driver self)
  struct : ∀ {k : ℕ} {ms : List (ByteWalk Unit)} (driver : StructDriver σ α) (self : σ),
    List.Forall₂ (CoversField k) ms driver.fields →
      Covers k (inTurn ms) (visitor.visitStruct driver self)
  variant : ∀ {k : ℕ} {ms : List (ByteWalk Unit)} (driver : VariantDriver σ α) (self : σ),
    List.Forall₂ (CoversField k) ms driver.fields →
      Covers k (inTurn ms) (visitor.visitVariant driver self)

theorem covers_fields {k : ℕ} {ms : List (ByteWalk Unit)} {fields : List (FieldDriver σ α)}
    {walk : FieldDriver σ α → ByteWalk Unit}
    (hwalk : ∀ m field, CoversField k m field → Covers k m (walk field))
    (h : List.Forall₂ (CoversField k) ms fields) :
    Covers k (inTurn ms) (inTurn (fields.map walk)) :=
  .inTurn (List.forall₂_map_right_iff.mpr (h.imp hwalk))

theorem nullTraversal_complete : Complete nullTraversal where
  vector _ _ hskip hnext := by
    exact (Covers.times (passOver_right (hnext ())) _).returned _
  struct _ _ h := by
    exact (covers_fields (fun _ _ hfield => passOver_right (hfield.2 ())) h).returned _
  variant _ _ h := by
    exact (covers_fields (fun _ _ hfield => passOver_right (hfield.2 ())) h).returned _

/-- The first variant with the tag drives its own fields. -/
theorem driveVariant_eq (wire : Wire)
    (variants : List ((String × Fin (2 ^ 16)) × List (FieldOver MoveTypeLayout)))
    (tag : Fin (2 ^ 16)) (σ α : Type) (visitor : Visitor σ α) :
    driveVariant wire variants tag σ α visitor =
      (variants.find? fun variant => variant.1.2 = tag).map
        fun variant => (variant.1.1, driveFields wire variant.2 σ α visitor) := by
  induction variants with
  | nil => rfl
  | cons variant variants ih =>
    obtain ⟨⟨name, number⟩, fields⟩ := variant
    rw [driveVariant]
    by_cases h : number = tag
    · rw [if_pos h, List.find?_cons_of_pos (by simpa using h)]
      rfl
    · rw [if_neg h, List.find?_cons_of_neg (by simpa using h), ih]

section containers
variable {visitor : Visitor σ α} {self : σ} {c e : Cursor Byte} {r : α × σ}

/-- A vector's length is read first, then its elements. -/
theorem vector_visited {inner : MoveTypeLayout}
    (h : visitValue wire (.vector inner) σ α visitor self c = .ok (r, e)) :
    ∃ len d, c.Reaches d ∧ visitor.visitVector
      ⟨inner, len, c.position, visitValue wire inner σ α visitor,
        passOver (visitValue wire inner Unit Unit nullTraversal ())⟩ self d = .ok (r, e) := by
  rw [visitValue, here_bind] at h
  obtain ⟨len, d, hlen, h⟩ := bind_ok_iff.mp h
  exact ⟨len, d, annotated_reaches hlen, h⟩

/-- A variant's tag is read first, then the fields of the variant it names. -/
theorem enum_visited {type : StructTag}
    {variants : List ((String × Fin (2 ^ 16)) × List (FieldOver MoveTypeLayout))}
    (h : visitValue wire (.enum type variants) σ α visitor self c = .ok (r, e)) :
    ∃ tag variant d, (variants.find? fun variant => variant.1.2 = tag) = some variant ∧
      c.Reaches d ∧ visitor.visitVariant
        ⟨variant.1.1, tag, c.position, driveFields wire variant.2 σ α visitor⟩ self d =
          .ok (r, e) := by
  rw [visitValue, here_bind] at h
  obtain ⟨tag, d, htag, h⟩ := bind_ok_iff.mp h
  rw [driveVariant_eq] at h
  cases hfind : variants.find? fun variant => variant.1.2 = tag with
  | none =>
    rw [hfind] at h
    cases h
  | some variant =>
    rw [hfind] at h
    exact ⟨tag, variant, d, hfind, annotated_reaches htag, h⟩

end containers

/-- How the null traversal passes the fields over. -/
def passFields (wire : Wire) (fields : List (FieldOver MoveTypeLayout)) : List (ByteWalk Unit) :=
  (driveFields wire fields Unit Unit nullTraversal).map fun field => passOver (field.nextField ())

mutual

/-- What passing over a value takes, a complete visitor takes. -/
theorem visit_covers (wire : Wire) (layout : MoveTypeLayout) {σ α : Type} {visitor : Visitor σ α}
    (hcomplete : Complete visitor) (k : ℕ) (self : σ) :
    Covers k (visitValue wire layout Unit Unit nullTraversal ())
      (visitValue wire layout σ α visitor self) := by
  cases layout with
  | primitive p =>
    rw [visitValue, visitValue]
    refine Replays.here.bind fun _ _ _ => (Replays.reader _ _).bind fun _ _ _ => ?_
    exact Replays.here.bind fun _ _ _ => .pure trivial
  | vector inner =>
    rw [visitValue, visitValue]
    refine Replays.here.bind fun start start' _ => (Replays.reader _ _).bind fun len _ hlen => ?_
    subst hlen
    have hskip := passOver_covers (visit_covers wire inner nullTraversal_complete k ())
    have hvector := hcomplete.vector ⟨inner, len, start', visitValue wire inner σ α visitor,
      passOver (visitValue wire inner Unit Unit nullTraversal ())⟩ self (passOver_right hskip)
        fun self => passOver_covers (visit_covers wire inner hcomplete k self)
    exact hvector.returning _
  | struct type fields =>
    rw [visitValue, visitValue]
    refine Replays.here.bind fun start start' _ => ?_
    have hstruct := hcomplete.struct ⟨type, start', driveFields wire fields σ α visitor⟩ self
      (fields_cover wire fields hcomplete k)
    exact hstruct.returning _
  | enum type variants =>
    rw [visitValue, visitValue]
    refine Replays.here.bind fun start start' _ => (Replays.reader _ _).bind fun tag _ htag => ?_
    subst htag
    rw [driveVariant_eq, driveVariant_eq]
    cases hfind : variants.find? fun variant => variant.1.2 = tag with
    | none => exact .fail _
    | some variant =>
      have hfields := variants_cover wire variants hcomplete k variant
        (List.mem_of_find?_eq_some hfind)
      have hvariant := hcomplete.variant
        ⟨variant.1.1, tag, start', driveFields wire variant.2 σ α visitor⟩ self hfields
      exact hvariant.returning _

theorem fields_cover (wire : Wire) (fields : List (FieldOver MoveTypeLayout)) {σ α : Type}
    {visitor : Visitor σ α} (hcomplete : Complete visitor) (k : ℕ) :
    List.Forall₂ (CoversField k) (passFields wire fields)
      (driveFields wire fields σ α visitor) := by
  cases fields with
  | nil => exact .nil
  | cons field rest =>
    obtain ⟨name, layout⟩ := field
    rw [passFields, driveFields, driveFields, List.map_cons]
    refine .cons ⟨?_, fun self => ?_⟩ (fields_cover wire rest hcomplete k)
    · exact passOver_right (passOver_covers (visit_covers wire layout nullTraversal_complete k ()))
    · exact passOver_covers (visit_covers wire layout hcomplete k self)

theorem variants_cover (wire : Wire)
    (variants : List ((String × Fin (2 ^ 16)) × List (FieldOver MoveTypeLayout))) {σ α : Type}
    {visitor : Visitor σ α} (hcomplete : Complete visitor) (k : ℕ) :
    ∀ variant ∈ variants, List.Forall₂ (CoversField k) (passFields wire variant.2)
      (driveFields wire variant.2 σ α visitor) := by
  cases variants with
  | nil => nofun
  | cons variant rest =>
    obtain ⟨tag, fields⟩ := variant
    intro variant hvariant
    rcases List.mem_cons.mp hvariant with rfl | hvariant
    · exact fields_cover wire fields hcomplete k
    · exact variants_cover wire rest hcomplete k variant hvariant

end

/-! ### The dump visitor takes everything -/

section takes
variable {k : ℕ} {m : ByteWalk Unit}

theorem elementLoop_covers {driver : VecDriver Dump DumpValue}
    (hskip : Covers k m driver.skipElement) (hnext : ∀ self, Covers k m (driver.nextElement self))
    (cap n : ℕ) (inner : Dump) (items : List DumpItem) (rendered : ℕ) :
    Covers k (times m n) (Dump.elementLoop driver cap n inner items rendered) := by
  induction n generalizing inner items rendered with
  | zero => exact .pure trivial
  | succ n ih =>
    rw [times, Dump.elementLoop]
    refine (hnext inner).bind fun _ visited _ => ?_
    dsimp only
    split
    · split
      · exact (hskip.times n).returned _
      · exact ih _ _ _
    · exact ih _ _ _

theorem fieldLoop_covers {ms : List (ByteWalk Unit)} {drivers : List (FieldDriver Dump DumpValue)}
    (h : List.Forall₂ (CoversField k) ms drivers) (inner : Dump) (fields : List DumpField) :
    Covers k (inTurn ms) (Dump.fieldLoop drivers inner fields) := by
  induction h generalizing inner fields with
  | nil => exact .pure trivial
  | cons hfield _ ih => exact (hfield.2 inner).bind fun _ _ _ => ih _ _

theorem visitFields_covers {ms : List (ByteWalk Unit)}
    {drivers : List (FieldDriver Dump DumpValue)} (h : List.Forall₂ (CoversField k) ms drivers)
    (start : ℕ) (limited : String) (build : List DumpField → DumpValue) (self : Dump) :
    Covers k (inTurn ms) (Dump.visitFields drivers start limited build self) := by
  unfold Dump.visitFields
  split
  · exact (covers_fields (fun _ _ hfield => hfield.1) h).andThen fun _ _ => .looking _ _
  · exact (fieldLoop_covers h self.deeper []).andThen fun _ _ => .looking _ _

end takes

theorem dumpVisitor_complete (addressText : Address → String) :
    Complete (dumpVisitor addressText) where
  vector driver self hskip hnext := by
    change Covers _ _ (self.visitVector driver)
    unfold Dump.visitVector
    split
    · exact (hskip.times driver.len).andThen fun _ _ => .looking _ _
    · exact (elementLoop_covers hskip hnext _ _ _ _ _).andThen fun _ _ => .looking _ _
  struct driver self h := visitFields_covers h _ _ _ _
  variant driver self h := visitFields_covers h _ _ _ _

/-! ### The span a visit leaves -/

/-- The dump visitor on a value of the layout. -/
abbrev visitDump (wire : Wire) (layout : MoveTypeLayout) (self : Dump) :
    ByteWalk (DumpValue × Dump) :=
  visitValue wire layout Dump DumpValue (dumpVisitor wire.addressText) self

section span
variable {self : Dump} {c d : Cursor Byte} {r : DumpValue × Dump}

theorem visitVector_spanned {driver : VecDriver Dump DumpValue}
    (h : self.visitVector driver c = .ok (r, d)) : r.2 = self.spanned driver.start d.position := by
  unfold Dump.visitVector at h
  split at h
  · obtain ⟨_, _, _, h⟩ := bind_ok_iff.mp h
    rw [here_bind] at h
    obtain ⟨rfl, rfl⟩ := pure_ok_iff.mp h
    rfl
  · obtain ⟨⟨_, _⟩, _, _, h⟩ := bind_ok_iff.mp h
    dsimp only at h
    rw [here_bind] at h
    obtain ⟨rfl, rfl⟩ := pure_ok_iff.mp h
    rfl

theorem visitFields_spanned {drivers : List (FieldDriver Dump DumpValue)} {start : ℕ}
    {limited : String} {build : List DumpField → DumpValue}
    (h : Dump.visitFields drivers start limited build self c = .ok (r, d)) :
    r.2 = self.spanned start d.position := by
  unfold Dump.visitFields at h
  split at h
  · obtain ⟨_, _, _, h⟩ := bind_ok_iff.mp h
    rw [here_bind] at h
    obtain ⟨rfl, rfl⟩ := pure_ok_iff.mp h
    rfl
  · obtain ⟨_, _, _, h⟩ := bind_ok_iff.mp h
    rw [here_bind] at h
    obtain ⟨rfl, rfl⟩ := pure_ok_iff.mp h
    rfl

/-- Every visit leaves the span of its own value behind, whichever branch it took. -/
theorem visitDump_spanned {layout : MoveTypeLayout}
    (h : visitDump wire layout self c = .ok (r, d)) : r.2 = self.spanned c.position d.position := by
  cases layout with
  | primitive p =>
    rw [visitDump, visitValue, here_bind] at h
    obtain ⟨_, _, _, h⟩ := bind_ok_iff.mp h
    rw [here_bind] at h
    obtain ⟨rfl, rfl⟩ := pure_ok_iff.mp h
    rfl
  | vector inner =>
    obtain ⟨_, _, _, h⟩ := vector_visited h
    exact visitVector_spanned h
  | struct type fields =>
    rw [visitDump, visitValue, here_bind] at h
    exact visitFields_spanned h
  | enum type variants =>
    obtain ⟨_, _, _, _, _, h⟩ := enum_visited h
    exact visitFields_spanned h

end span

end Dumps
