import Birdai.Move.DumpRuns

/-!
# Dumps repeated elsewhere

A value dumped again at another place, with at least the depth it had, gives the same
tree with its spans moved, as deep as the first dump went.
-/

namespace Dumps

open ByteCodecs MoveTypes AnyVenues Cursors Drivers

/-! ### Trees cut and shifted -/

def Span.shift (k : ℕ) (span : Span) : Span := ⟨k + span.start, k + span.stop⟩

mutual

/-- What is left of a tree within a depth: a container beyond it is its label. -/
def DumpValue.cut : DumpValue → ℕ → DumpValue
  | .scalar layout text, _ => .scalar layout text
  | .struct tag _ _, 0 => .depthLimited tag
  | .struct tag container fields, depth + 1 => .struct tag container (cutFields fields depth)
  | .vector element len _ _, 0 =>
    .depthLimited ("vector<" ++ element ++ "> (len " ++ toString len ++ ")")
  | .vector element len items omitted, depth + 1 =>
    .vector element len (cutItems items depth) omitted
  | .variant name _ _, 0 => .depthLimited name
  | .variant name tag fields, depth + 1 => .variant name tag (cutFields fields depth)
  | .depthLimited layout, _ => .depthLimited layout

def cutFields : List (DumpFieldOver DumpValue) → ℕ → List (DumpFieldOver DumpValue)
  | [], _ => []
  | ⟨name, span, value⟩ :: rest, depth => ⟨name, span, value.cut depth⟩ :: cutFields rest depth

def cutItems : List (DumpItemOver DumpValue) → ℕ → List (DumpItemOver DumpValue)
  | [], _ => []
  | ⟨index, span, value⟩ :: rest, depth => ⟨index, span, value.cut depth⟩ :: cutItems rest depth

end

mutual

/-- The tree with all its spans moved up. -/
def DumpValue.shift (k : ℕ) : DumpValue → DumpValue
  | .scalar layout text => .scalar layout text
  | .struct tag container fields => .struct tag container (shiftFields k fields)
  | .vector element len items omitted => .vector element len (shiftItems k items) omitted
  | .variant name tag fields => .variant name tag (shiftFields k fields)
  | .depthLimited layout => .depthLimited layout

def shiftFields (k : ℕ) : List (DumpFieldOver DumpValue) → List (DumpFieldOver DumpValue)
  | [] => []
  | ⟨name, span, value⟩ :: rest => ⟨name, span.shift k, value.shift k⟩ :: shiftFields k rest

def shiftItems (k : ℕ) : List (DumpItemOver DumpValue) → List (DumpItemOver DumpValue)
  | [] => []
  | ⟨index, span, value⟩ :: rest => ⟨index, span.shift k, value.shift k⟩ :: shiftItems k rest

end

theorem cutFields_eq (fields : List DumpField) (depth : ℕ) : cutFields fields depth =
    fields.map fun field => ⟨field.name, field.span, field.value.cut depth⟩ := by
  induction fields with
  | nil => rfl
  | cons field rest ih => rw [cutFields, ih, List.map_cons]

theorem cutItems_eq (items : List DumpItem) (depth : ℕ) : cutItems items depth =
    items.map fun item => ⟨item.index, item.span, item.value.cut depth⟩ := by
  induction items with
  | nil => rfl
  | cons item rest ih => rw [cutItems, ih, List.map_cons]

theorem shiftFields_eq (k : ℕ) (fields : List DumpField) : shiftFields k fields =
    fields.map fun field => ⟨field.name, field.span.shift k, field.value.shift k⟩ := by
  induction fields with
  | nil => rfl
  | cons field rest ih => rw [shiftFields, ih, List.map_cons]

theorem shiftItems_eq (k : ℕ) (items : List DumpItem) : shiftItems k items =
    items.map fun item => ⟨item.index, item.span.shift k, item.value.shift k⟩ := by
  induction items with
  | nil => rfl
  | cons item rest ih => rw [shiftItems, ih, List.map_cons]

/-! ### Two dumps side by side -/

/-- How many more levels the visitor descends. -/
def Dump.budget (self : Dump) : ℕ := self.options.maxDepth - self.depth

/-- The first visitor descends `depth` levels, the second at least as many, and both render as many
items. -/
structure Tracks (depth : ℕ) (s s' : Dump) : Prop where
  items : s.options.maxItems = s'.options.maxItems
  budget : s.budget = depth
  deeper : depth ≤ s'.budget

/-- The same value, as deep as the first dump goes, `k` bytes further on. -/
structure Matches (k depth : ℕ) (r r' : DumpValue × Dump) : Prop where
  value : r.1 = (r'.1.cut depth).shift k
  span : r.2.lastSpan = r'.2.lastSpan.shift k
  visitors : Tracks depth r.2 r'.2

theorem Tracks.exhausted {depth : ℕ} {self self' : Dump} (h : Tracks depth self self') :
    self.exhausted = true ↔ depth = 0 := by
  have hbudget := h.budget
  simp only [Dump.exhausted, decide_eq_true_eq, Dump.budget] at hbudget ⊢
  omega

theorem Tracks.not_exhausted {depth : ℕ} {self self' : Dump} (h : Tracks (depth + 1) self self') :
    self'.exhausted = false := by
  have hdeeper := h.deeper
  simp only [Dump.exhausted, decide_eq_false_iff_not, Dump.budget] at hdeeper ⊢
  omega

theorem Tracks.step {depth : ℕ} {self self' : Dump} (h : Tracks (depth + 1) self self') :
    Tracks depth self.deeper self'.deeper := by
  have hbudget := h.budget
  have hdeeper := h.deeper
  refine ⟨h.items, ?_, ?_⟩
  · simp only [Dump.budget, Dump.deeper] at hbudget ⊢
    omega
  · simp only [Dump.budget, Dump.deeper] at hdeeper ⊢
    omega

theorem Tracks.spanned {depth : ℕ} {self self' : Dump} (h : Tracks depth self self')
    (start stop start' stop' : ℕ) :
    Tracks depth (self.spanned start stop) (self'.spanned start' stop') :=
  ⟨h.items, h.budget, h.deeper⟩

/-- Where both visitors end, what they return carries the spans they looked up. -/
theorem ending_replays {k depth start start' : ℕ} {self self' : Dump} {value value' : DumpValue}
    (h : Tracks depth self self') (hstart : start = k + start')
    (hvalue : value = (value'.cut depth).shift k) :
    Replays k (Matches k depth)
      (do let position ← here; pure (value, self.spanned start position) : ByteWalk _)
      (do let position ← here; pure (value', self'.spanned start' position)) := by
  refine Replays.here.bind fun position position' hposition => .pure ⟨hvalue, ?_, ?_⟩
  · rw [hstart, hposition]
    rfl
  · exact h.spanned _ _ _ _

/-! ### Vectors -/

def matchItem (k depth : ℕ) (item : DumpItem) : DumpItem :=
  ⟨item.index, item.span.shift k, (item.value.cut depth).shift k⟩

section vectors
variable {k depth : ℕ} {driver driver' : VecDriver Dump DumpValue}
  (hskip : Covers k driver.skipElement driver'.skipElement)
  (hnext : ∀ depth s s', Tracks depth s s' →
    Replays k (Matches k depth) (driver.nextElement s) (driver'.nextElement s'))
include hskip hnext

theorem elementLoop_replays (cap n : ℕ) {inner inner' : Dump} (hinner : Tracks depth inner inner')
    (items : List DumpItem) (rendered : ℕ) :
    Replays k (fun r r' => r = (r'.1.map (matchItem k depth), r'.2))
      (Dump.elementLoop driver cap n inner (items.map (matchItem k depth)) rendered)
      (Dump.elementLoop driver' cap n inner' items rendered) := by
  induction n generalizing inner inner' items rendered with
  | zero => exact .pure rfl
  | succ n ih =>
    rw [Dump.elementLoop, Dump.elementLoop]
    refine (hnext depth inner inner' hinner).bind fun r r' hmatch => ?_
    have hitems : items.map (matchItem k depth) ++
        [(⟨(items.map (matchItem k depth)).length, r.2.lastSpan, r.1⟩ : DumpItem)] =
          (items ++ [(⟨items.length, r'.2.lastSpan, r'.1⟩ : DumpItem)]).map
            (matchItem k depth) := by
      rw [List.map_append, List.length_map, hmatch.value, hmatch.span]
      rfl
    dsimp only
    by_cases hcap : rendered < cap
    · rw [if_pos hcap, if_pos hcap, hitems]
      by_cases hfull : rendered + 1 = cap
      · rw [if_pos hfull, if_pos hfull]
        exact (hskip.times n).bind fun _ _ _ => .pure rfl
      · rw [if_neg hfull, if_neg hfull]
        exact ih hmatch.visitors _ _
    · rw [if_neg hcap, if_neg hcap]
      exact ih hmatch.visitors _ _

variable (driver driver') in
theorem visitVector_replays (hvisit : ∀ s, Covers k driver.skipElement (driver'.nextElement s))
    (helement : driver.elementLayout = driver'.elementLayout) (hlen : driver.len = driver'.len)
    (hstart : driver.start = k + driver'.start) {self self' : Dump} (h : Tracks depth self self') :
    Replays k (Matches k depth) (self.visitVector driver) (self'.visitVector driver') := by
  unfold Dump.visitVector
  dsimp only
  rw [← helement, ← hlen]
  cases depth with
  | zero =>
    rw [if_pos (h.exhausted.mpr rfl)]
    split
    · exact (hskip.times driver.len).bind fun _ _ _ => ending_replays h hstart rfl
    · exact (elementLoop_covers hskip hvisit _ _ _ _ _).bind fun _ _ _ =>
        ending_replays h hstart rfl
  | succ depth =>
    have hdescends : ¬ self.exhausted = true := fun he => Nat.succ_ne_zero _ (h.exhausted.mp he)
    rw [if_neg hdescends, if_neg (Bool.eq_false_iff.mp h.not_exhausted)]
    have hcap : Dump.itemCap self.options = Dump.itemCap self'.options := by
      rw [Dump.itemCap, Dump.itemCap, h.items]
    rw [hcap]
    have hloop := elementLoop_replays hskip hnext (Dump.itemCap self'.options) driver.len
      h.step [] 0
    refine hloop.bind fun r r' hmatch => ?_
    rw [hmatch]
    refine ending_replays h hstart ?_
    rw [DumpValue.cut, DumpValue.shift, cutItems_eq, shiftItems_eq, List.map_map]
    rfl

end vectors

/-! ### Fields -/

def matchField (k depth : ℕ) (field : DumpField) : DumpField :=
  ⟨field.name, field.span.shift k, (field.value.cut depth).shift k⟩

/-- The second driver's field can be visited wherever the first one's is skipped or visited. -/
structure ReplaysField (k : ℕ) (field field' : FieldDriver Dump DumpValue) : Prop where
  name : field.name = field'.name
  skip : Covers k field.skipField field'.skipField
  visit : ∀ s, Covers k field.skipField (field'.nextField s)
  next : ∀ depth s s', Tracks depth s s' →
    Replays k (Matches k depth) (field.nextField s) (field'.nextField s')

theorem shift_cutFields (k depth : ℕ) (fields : List DumpField) :
    shiftFields k (cutFields fields depth) = fields.map (matchField k depth) := by
  rw [cutFields_eq, shiftFields_eq, List.map_map]
  rfl

section fields
variable {k depth : ℕ} {drivers drivers' : List (FieldDriver Dump DumpValue)}
  (hfields : List.Forall₂ (ReplaysField k) drivers drivers')
include hfields

theorem fieldLoop_replays {inner inner' : Dump} (hinner : Tracks depth inner inner')
    (fields : List DumpField) :
    Replays k (fun r r' => r = r'.map (matchField k depth))
      (Dump.fieldLoop drivers inner (fields.map (matchField k depth)))
      (Dump.fieldLoop drivers' inner' fields) := by
  induction hfields generalizing inner inner' fields with
  | nil => exact .pure rfl
  | @cons field field' _ _ hfield _ ih =>
    rw [Dump.fieldLoop, Dump.fieldLoop]
    refine (hfield.next depth inner inner' hinner).bind fun r r' hmatch => ?_
    dsimp only
    rw [hfield.name, hmatch.value, hmatch.span]
    have hadded := ih hmatch.visitors (fields ++ [⟨field'.name, r'.2.lastSpan, r'.1⟩])
    rw [List.map_append] at hadded
    exact hadded

/-- `limited` is the label that the tree `build` makes is cut down to. -/
theorem visitFields_replays {start start' : ℕ} (hstart : start = k + start') {limited : String}
    {build : List DumpField → DumpValue}
    (hlimited : ∀ fields, (build fields).cut 0 = .depthLimited limited)
    (hbuild : ∀ fields depth, ((build fields).cut (depth + 1)).shift k =
      build (fields.map (matchField k depth)))
    {self self' : Dump} (h : Tracks depth self self') :
    Replays k (Matches k depth) (Dump.visitFields drivers start limited build self)
      (Dump.visitFields drivers' start' limited build self') := by
  unfold Dump.visitFields
  cases depth with
  | zero =>
    rw [if_pos (h.exhausted.mpr rfl)]
    split
    · have hskips : List.Forall₂ (Covers k) (drivers.map FieldDriver.skipField)
          (drivers'.map FieldDriver.skipField) :=
        List.forall₂_map_left_iff.mpr
          (List.forall₂_map_right_iff.mpr (hfields.imp fun _ _ hfield => hfield.skip))
      exact (Covers.inTurn hskips).bind fun _ _ _ => ending_replays h hstart rfl
    · have hcovers : List.Forall₂ (CoversField k) (drivers.map FieldDriver.skipField) drivers' :=
        List.forall₂_map_left_iff.mpr
          (hfields.imp fun _ _ hfield => ⟨hfield.skip, hfield.visit⟩)
      refine (fieldLoop_covers hcovers self'.deeper []).bind fun _ fields _ => ?_
      exact ending_replays h hstart (by rw [hlimited]; rfl)
  | succ depth =>
    have hdescends : ¬ self.exhausted = true := fun he => Nat.succ_ne_zero _ (h.exhausted.mp he)
    rw [if_neg hdescends, if_neg (Bool.eq_false_iff.mp h.not_exhausted)]
    refine (fieldLoop_replays hfields h.step []).bind fun fields fields' hmatch => ?_
    exact ending_replays h hstart (by rw [hbuild, hmatch])

end fields

/-! ### Whole values -/

mutual

/-- A value dumped again gives the same tree with its spans moved, as deep as the first dump
went. -/
theorem visitDump_replays (wire : Wire) (layout : MoveTypeLayout) {k depth : ℕ} {self self' : Dump}
    (h : Tracks depth self self') :
    Replays k (Matches k depth) (visitDump wire layout self) (visitDump wire layout self') := by
  cases layout with
  | primitive p =>
    rw [visitDump, visitDump, visitValue, visitValue]
    refine Replays.here.bind fun start start' hstart => ?_
    refine (Replays.reader _ _).bind fun value _ hvalue => ?_
    subst hvalue
    refine Replays.here.bind fun stop stop' hstop => .pure ⟨rfl, ?_, h.spanned _ _ _ _⟩
    rw [hstart, hstop]
    rfl
  | vector inner =>
    rw [visitDump, visitDump, visitValue, visitValue]
    refine Replays.here.bind fun start start' hstart => ?_
    refine (Replays.reader _ _).bind fun len _ hlen => ?_
    subst hlen
    have hskip := passOver_covers (visit_covers wire inner nullTraversal_complete k ())
    exact visitVector_replays ⟨inner, len, start, visitDump wire inner, _⟩
      ⟨inner, len, start', visitDump wire inner, _⟩ (passOver_right hskip)
      (fun _ _ _ => visitDump_replays wire inner)
      (fun s => passOver_covers
        (visit_covers wire inner (dumpVisitor_complete wire.addressText) k s)) rfl rfl hstart h
  | struct type fields =>
    rw [visitDump, visitDump, visitValue, visitValue]
    refine Replays.here.bind fun start start' hstart => ?_
    refine visitFields_replays (fields_replay wire fields k) hstart (fun _ => rfl) ?_ h
    intro fields depth
    rw [DumpValue.cut, DumpValue.shift, shift_cutFields]
  | enum type variants =>
    rw [visitDump, visitDump, visitValue, visitValue]
    refine Replays.here.bind fun start start' hstart => ?_
    refine (Replays.reader _ _).bind fun tag _ htag => ?_
    subst htag
    rw [driveVariant_eq]
    cases hfind : variants.find? fun variant => variant.1.2 = tag with
    | none => exact .fail _
    | some variant =>
      have hfields := variants_replay wire variants k variant (List.mem_of_find?_eq_some hfind)
      refine visitFields_replays hfields hstart (fun _ => rfl) ?_ h
      intro fields depth
      rw [DumpValue.cut, DumpValue.shift, shift_cutFields]

theorem fields_replay (wire : Wire) (fields : List (FieldOver MoveTypeLayout)) (k : ℕ) :
    List.Forall₂ (ReplaysField k)
      (driveFields wire fields Dump DumpValue (dumpVisitor wire.addressText))
      (driveFields wire fields Dump DumpValue (dumpVisitor wire.addressText)) := by
  cases fields with
  | nil => exact .nil
  | cons field rest =>
    obtain ⟨name, layout⟩ := field
    rw [driveFields]
    have hskip := passOver_covers (visit_covers wire layout nullTraversal_complete k ())
    refine .cons ⟨rfl, passOver_right hskip, fun s => ?_, fun _ _ _ => ?_⟩
      (fields_replay wire rest k)
    · exact passOver_covers (visit_covers wire layout (dumpVisitor_complete wire.addressText) k s)
    · exact visitDump_replays wire layout

theorem variants_replay (wire : Wire)
    (variants : List ((String × Fin (2 ^ 16)) × List (FieldOver MoveTypeLayout))) (k : ℕ) :
    ∀ variant ∈ variants, List.Forall₂ (ReplaysField k)
      (driveFields wire variant.2 Dump DumpValue (dumpVisitor wire.addressText))
      (driveFields wire variant.2 Dump DumpValue (dumpVisitor wire.addressText)) := by
  cases variants with
  | nil => nofun
  | cons variant rest =>
    obtain ⟨tag, fields⟩ := variant
    intro variant hvariant
    rcases List.mem_cons.mp hvariant with rfl | hvariant
    · exact fields_replay wire fields k
    · exact variants_replay wire rest k variant hvariant

end

theorem Tracks.refl (self : Dump) : Tracks self.budget self self := ⟨rfl, rfl, le_rfl⟩

theorem visitDump_reaches {wire : Wire} {layout : MoveTypeLayout} {self : Dump}
    {c d : Cursor Byte} {r : DumpValue × Dump} (h : visitDump wire layout self c = .ok (r, d)) :
    c.Reaches d := (visitDump_replays wire layout (Tracks.refl self)).reaches h

/-! ### A dump against itself -/

theorem Span.shift_zero (span : Span) : span.shift 0 = span := by
  rw [Span.shift, Nat.zero_add, Nat.zero_add]

mutual

theorem shift_zero (value : DumpValue) : value.shift 0 = value := by
  cases value with
  | scalar layout text => rfl
  | struct tag container fields => rw [DumpValue.shift, shiftFields_zero fields]
  | vector element len items omitted => rw [DumpValue.shift, shiftItems_zero items]
  | variant name tag fields => rw [DumpValue.shift, shiftFields_zero fields]
  | depthLimited layout => rfl

theorem shiftFields_zero (fields : List (DumpFieldOver DumpValue)) :
    shiftFields 0 fields = fields := by
  cases fields with
  | nil => rfl
  | cons field rest =>
    obtain ⟨name, span, value⟩ := field
    rw [shiftFields, span.shift_zero, shift_zero value, shiftFields_zero rest]

theorem shiftItems_zero (items : List (DumpItemOver DumpValue)) : shiftItems 0 items = items := by
  cases items with
  | nil => rfl
  | cons item rest =>
    obtain ⟨index, span, value⟩ := item
    rw [shiftItems, span.shift_zero, shift_zero value, shiftItems_zero rest]

end

/-- A dump is no deeper than its visitor goes. -/
theorem visitDump_cut {wire : Wire} {layout : MoveTypeLayout} {self : Dump} {c d : Cursor Byte}
    {r : DumpValue × Dump} (h : visitDump wire layout self c = .ok (r, d)) :
    r.1.cut self.budget = r.1 := by
  obtain ⟨position, rest⟩ := c
  have hrun : visitDump wire layout self ⟨0 + position, rest⟩ = .ok (r, d) := by
    rwa [Nat.zero_add]
  obtain ⟨taken, hrest, _, hreplay⟩ :=
    visitDump_replays wire layout (Tracks.refl self) position rest r d hrun
  obtain ⟨again, hagain, hmatch⟩ := hreplay d.rest
  rw [← hrest, h] at hagain
  have hsame : r = again := (Prod.mk.inj (Except.ok.inj hagain)).1
  have hvalue := hmatch.value
  rw [shift_zero, ← hsame] at hvalue
  exact hvalue.symm

end Dumps
