import Birdai.Move.DumpReplay

/-!
# Spans of a dump

Every part of a dump was visited at its own place: the spans of its children lie one
after the other within it, and the bytes of a span give the part again when they are
decoded alone.
-/

namespace Dumps

open ByteCodecs MoveTypes AnyVenues Cursors Drivers

variable {wire : Wire}

/-! ### Parts of a dump -/

/-- A part of a dump, with the layout it was read by. -/
structure Node where
  layout : MoveTypeLayout
  span : Span
  value : DumpValue

def fieldNode (field : FieldOver MoveTypeLayout) (dumped : DumpField) : Node :=
  ⟨field.layout, dumped.span, dumped.value⟩

def itemNode (inner : MoveTypeLayout) (item : DumpItem) : Node := ⟨inner, item.span, item.value⟩

inductive Node.Child : Node → Node → Prop where
  | field {type : StructTag} {fields : List (FieldOver MoveTypeLayout)} {span : Span}
      {tag : String} {container : Bool} {dumped : List DumpField} {node : Node}
      (h : node ∈ List.zipWith fieldNode fields dumped) :
      Child ⟨.struct type fields, span, .struct tag container dumped⟩ node
  | payload {type : StructTag}
      {variants : List ((String × Fin (2 ^ 16)) × List (FieldOver MoveTypeLayout))} {span : Span}
      {name : String} {tag : Fin (2 ^ 16)} {dumped : List DumpField}
      {variant : (String × Fin (2 ^ 16)) × List (FieldOver MoveTypeLayout)} {node : Node}
      (hvariant : (variants.find? fun variant => variant.1.2 = tag) = some variant)
      (h : node ∈ List.zipWith fieldNode variant.2 dumped) :
      Child ⟨.enum type variants, span, .variant name tag dumped⟩ node
  | item {inner : MoveTypeLayout} {span : Span} {element : String} {len : ℕ}
      {items : List DumpItem} {omitted : ℕ} {node : Node} (h : node ∈ items.map (itemNode inner)) :
      Child ⟨.vector inner, span, .vector element len items omitted⟩ node

/-- The parts that stand a number of levels below the whole. -/
inductive Below (root : Node) : ℕ → Node → Prop where
  | root : Below root 0 root
  | child {depth : ℕ} {node child : Node} :
      Below root depth node → node.Child child → Below root (depth + 1) child

/-- Spans one after the other, from one position to another. -/
inductive Consecutive : ℕ → List Span → ℕ → Prop where
  | nil (p : ℕ) : Consecutive p [] p
  | cons {p q r : ℕ} {rest : List Span} :
      p ≤ q → Consecutive q rest r → Consecutive p (⟨p, q⟩ :: rest) r

/-- The node has the shape of its layout, with every field of it. The spans of the children follow
each other within the node's own, to its end where nothing is left out, and no item is unaccounted
for. -/
def Node.Tidy (node : Node) : Prop :=
  match node.layout, node.value with
  | .struct _ layouts, .struct _ _ fields =>
    fields.map DumpFieldOver.name = layouts.map FieldOver.name ∧
      Consecutive node.span.start (fields.map DumpFieldOver.span) node.span.stop
  | .enum _ variants, .variant _ tag fields =>
    ∃ variant, (variants.find? fun variant => variant.1.2 = tag) = some variant ∧
      fields.map DumpFieldOver.name = variant.2.map FieldOver.name ∧
      ∃ start, node.span.start ≤ start ∧
        Consecutive start (fields.map DumpFieldOver.span) node.span.stop
  | .vector _, .vector _ len items omitted => omitted + items.length = len ∧
    ∃ start stop, node.span.start ≤ start ∧ stop ≤ node.span.stop ∧
      Consecutive start (items.map DumpItemOver.span) stop
  | .primitive _, .scalar _ _ => True
  | .struct _ _, .depthLimited _ => True
  | .enum _ _, .depthLimited _ => True
  | .vector _, .depthLimited _ => True
  | _, _ => False

/-- The bytes of the node's span, decoded alone by its layout, give the node again: exactly with the
depth that was left to it, and as deep as it goes with any more. -/
structure Node.Redecodes (wire : Wire) (options : DumpOptions) (bytes : List Byte) (depth : ℕ)
    (node : Node) : Prop where
  inside : node.span.start ≤ node.span.stop ∧ node.span.stop ≤ bytes.length
  same : ∃ tree, dump wire ⟨options.maxDepth - depth, options.maxItems⟩ node.layout
    (slice bytes node.span.start node.span.stop) = .ok tree ∧
      node.value = tree.shift node.span.start
  deeper : ∀ maxDepth, options.maxDepth - depth ≤ maxDepth →
    ∃ tree, dump wire ⟨maxDepth, options.maxItems⟩ node.layout
      (slice bytes node.span.start node.span.stop) = .ok tree ∧
        node.value = (tree.cut (options.maxDepth - depth)).shift node.span.start

/-! ### Runs of the loops -/

/-- Visits one after the other, each from where the last one ended, and the parts they leave. -/
inductive Visits (wire : Wire) : Dump → Cursor Byte → List Node → Cursor Byte → Prop where
  | nil {inner : Dump} {c : Cursor Byte} : Visits wire inner c [] c
  | cons {layout : MoveTypeLayout} {inner : Dump} {c d e : Cursor Byte} {r : DumpValue × Dump}
      {nodes : List Node} :
      visitDump wire layout inner c = .ok (r, d) → Visits wire r.2 d nodes e →
        Visits wire inner c (⟨layout, ⟨c.position, d.position⟩, r.1⟩ :: nodes) e

theorem Visits.consecutive {inner : Dump} {c e : Cursor Byte} {nodes : List Node}
    (h : Visits wire inner c nodes e) :
    Consecutive c.position (nodes.map Node.span) e.position := by
  induction h with
  | nil => exact .nil _
  | cons hvisit _ ih => exact .cons (visitDump_reaches hvisit).le ih

theorem map_span_fieldNode {fields : List (FieldOver MoveTypeLayout)} {dumped : List DumpField}
    (h : dumped.map DumpFieldOver.name = fields.map FieldOver.name) :
    (List.zipWith fieldNode fields dumped).map Node.span = dumped.map DumpFieldOver.span := by
  induction fields generalizing dumped with
  | nil => rw [List.map_eq_nil_iff.mp h, List.zipWith_nil_right, List.map_nil, List.map_nil]
  | cons field rest ih =>
    obtain ⟨d, more, rfl, -, hmore⟩ := List.map_eq_cons_iff.mp h
    rw [List.zipWith_cons_cons, List.map_cons, List.map_cons, ih hmore]
    rfl

/-- Every field of the layout is visited, in turn. -/
structure FieldVisits (wire : Wire) (layouts : List (FieldOver MoveTypeLayout)) (inner : Dump)
    (c : Cursor Byte) (dumped : List DumpField) (e : Cursor Byte) : Prop where
  names : dumped.map DumpFieldOver.name = layouts.map FieldOver.name
  visits : Visits wire inner c (List.zipWith fieldNode layouts dumped) e

theorem FieldVisits.consecutive {layouts : List (FieldOver MoveTypeLayout)} {inner : Dump}
    {c e : Cursor Byte} {dumped : List DumpField} (h : FieldVisits wire layouts inner c dumped e) :
    Consecutive c.position (dumped.map DumpFieldOver.span) e.position := by
  rw [← map_span_fieldNode h.names]
  exact h.visits.consecutive

theorem fieldLoop_run {layouts : List (FieldOver MoveTypeLayout)} {inner : Dump}
    {fields dumped : List DumpField} {c e : Cursor Byte}
    (h : Dump.fieldLoop (driveFields wire layouts Dump DumpValue (dumpVisitor wire.addressText))
      inner fields c = .ok (dumped, e)) :
    ∃ more, dumped = fields ++ more ∧ FieldVisits wire layouts inner c more e := by
  induction layouts generalizing inner fields c with
  | nil =>
    rw [driveFields, Dump.fieldLoop] at h
    obtain ⟨rfl, rfl⟩ := pure_ok_iff.mp h
    exact ⟨[], (List.append_nil _).symm, rfl, .nil⟩
  | cons field rest ih =>
    obtain ⟨name, layout⟩ := field
    rw [driveFields, Dump.fieldLoop] at h
    obtain ⟨⟨value, inner'⟩, d, hvisit, h⟩ := bind_ok_iff.mp h
    have hspan := visitDump_spanned hvisit
    obtain ⟨more, rfl, hnames, hrun⟩ := ih h
    refine ⟨_ :: more, List.append_assoc _ _ _, ?_, ?_⟩
    · rw [List.map_cons, List.map_cons, hnames]
    · dsimp only at hspan
      rw [hspan] at hrun ⊢
      exact .cons hvisit (hspan ▸ hrun)

section elements
variable {inner : MoveTypeLayout} {len start cap n rendered total : ℕ} {self : Dump}
  {items dumped : List DumpItem} {c e : Cursor Byte}

/-- The elements a loop visits past its cap leave no item. -/
theorem elementLoop_full (hcap : ¬ rendered < cap)
    (h : Dump.elementLoop ⟨inner, len, start, visitDump wire inner,
      passOver (visitValue wire inner Unit Unit nullTraversal ())⟩ cap n self items rendered c =
        .ok ((dumped, total), e)) :
    dumped = items ∧ total = rendered ∧ c.Reaches e := by
  induction n generalizing self c with
  | zero =>
    rw [Dump.elementLoop] at h
    obtain ⟨hsame, rfl⟩ := pure_ok_iff.mp h
    obtain ⟨rfl, rfl⟩ := Prod.mk.inj hsame
    exact ⟨rfl, rfl, .refl _⟩
  | succ n ih =>
    rw [Dump.elementLoop] at h
    obtain ⟨_, _, hvisit, h⟩ := bind_ok_iff.mp h
    dsimp only at h
    rw [if_neg hcap] at h
    obtain ⟨hdumped, htotal, hreaches⟩ := ih h
    exact ⟨hdumped, htotal, (visitDump_reaches hvisit).trans hreaches⟩

/-- What a loop over elements renders; the rest comes after it. -/
theorem elementLoop_run
    (h : Dump.elementLoop ⟨inner, len, start, visitDump wire inner,
      passOver (visitValue wire inner Unit Unit nullTraversal ())⟩ cap n self items rendered c =
        .ok ((dumped, total), e)) :
    ∃ more d, dumped = items ++ more ∧ total = rendered + more.length ∧ more.length ≤ n ∧
      Visits wire self c (more.map (itemNode inner)) d ∧ d.Reaches e := by
  induction n generalizing self items rendered c with
  | zero =>
    rw [Dump.elementLoop] at h
    obtain ⟨hsame, rfl⟩ := pure_ok_iff.mp h
    obtain ⟨rfl, rfl⟩ := Prod.mk.inj hsame
    exact ⟨[], _, (List.append_nil _).symm, rfl, le_rfl, .nil, .refl _⟩
  | succ n ih =>
    by_cases hcap : rendered < cap
    · rw [Dump.elementLoop] at h
      obtain ⟨⟨value, self'⟩, d, hvisit, h⟩ := bind_ok_iff.mp h
      have hspan : self' = self.spanned c.position d.position := visitDump_spanned hvisit
      dsimp only at h
      rw [if_pos hcap] at h
      by_cases hfull : rendered + 1 = cap
      · rw [if_pos hfull] at h
        obtain ⟨_, _, hskips, h⟩ := bind_ok_iff.mp h
        obtain ⟨hsame, rfl⟩ := pure_ok_iff.mp h
        obtain ⟨rfl, rfl⟩ := Prod.mk.inj hsame
        have hskip := passOver_right (passOver_covers
          (visit_covers wire inner nullTraversal_complete 0 ()))
        refine ⟨[_], d, rfl, rfl, Nat.le_add_left _ _, ?_, (hskip.times n).reaches hskips⟩
        rw [hspan]
        exact .cons hvisit .nil
      · rw [if_neg hfull] at h
        obtain ⟨more, stop, rfl, rfl, hle, hrun, hreaches⟩ := ih h
        refine ⟨_ :: more, stop, List.append_assoc _ _ _, ?_, Nat.succ_le_succ hle, ?_, hreaches⟩
        · rw [List.length_cons]
          omega
        · rw [hspan]
          exact .cons hvisit hrun
    · obtain ⟨rfl, rfl, hreaches⟩ := elementLoop_full hcap h
      exact ⟨[], c, (List.append_nil _).symm, rfl, Nat.zero_le _, .nil, hreaches⟩

end elements

/-! ### Runs of the containers -/

section containers
variable {self : Dump} {c e : Cursor Byte} {r : DumpValue × Dump}

theorem visitFields_run {layouts : List (FieldOver MoveTypeLayout)} {start : ℕ} {limited : String}
    {build : List DumpField → DumpValue}
    (h : Dump.visitFields (driveFields wire layouts Dump DumpValue (dumpVisitor wire.addressText))
      start limited build self c = .ok (r, e)) :
    r.1 = .depthLimited limited ∨
      ∃ dumped, r.1 = build dumped ∧ FieldVisits wire layouts self.deeper c dumped e := by
  unfold Dump.visitFields at h
  split at h
  · obtain ⟨_, _, _, h⟩ := bind_ok_iff.mp h
    rw [here_bind] at h
    obtain ⟨rfl, rfl⟩ := pure_ok_iff.mp h
    exact .inl rfl
  · obtain ⟨dumped, _, hloop, h⟩ := bind_ok_iff.mp h
    rw [here_bind] at h
    obtain ⟨rfl, rfl⟩ := pure_ok_iff.mp h
    obtain ⟨_, rfl, hrun⟩ := fieldLoop_run hloop
    exact .inr ⟨_, rfl, hrun⟩

theorem struct_run {type : StructTag} {fields : List (FieldOver MoveTypeLayout)}
    (h : visitDump wire (.struct type fields) self c = .ok (r, e)) :
    r.1 = .depthLimited (shortTag type) ∨
      ∃ dumped, r.1 = .struct (shortTag type) (isChildContainer type) dumped ∧
        FieldVisits wire fields self.deeper c dumped e := by
  rw [visitDump, visitValue, here_bind] at h
  exact visitFields_run h

/-- The tag is read first, then the fields of the variant it names. -/
theorem variant_run {type : StructTag}
    {variants : List ((String × Fin (2 ^ 16)) × List (FieldOver MoveTypeLayout))}
    (h : visitDump wire (.enum type variants) self c = .ok (r, e)) :
    ∃ tag variant d, (variants.find? fun variant => variant.1.2 = tag) = some variant ∧
      c.Reaches d ∧ (r.1 = .depthLimited variant.1.1 ∨
        ∃ dumped, r.1 = .variant variant.1.1 tag dumped ∧
          FieldVisits wire variant.2 self.deeper d dumped e) := by
  obtain ⟨tag, variant, d, hfind, hd, h⟩ := enum_visited h
  exact ⟨tag, variant, d, hfind, hd, visitFields_run h⟩

/-- The length is read first, then as many elements as are rendered. -/
theorem vector_run {inner : MoveTypeLayout}
    (h : visitDump wire (.vector inner) self c = .ok (r, e)) :
    (∃ label, r.1 = .depthLimited label) ∨
      ∃ len items d stop, r.1 = .vector (shortTypeOf inner) len items (len - items.length) ∧
        items.length ≤ len ∧ c.Reaches d ∧
          Visits wire self.deeper d (items.map (itemNode inner)) stop ∧ stop.Reaches e := by
  obtain ⟨len, d, hd, h⟩ := vector_visited h
  change self.visitVector _ d = _ at h
  unfold Dump.visitVector at h
  split at h
  · obtain ⟨_, _, _, h⟩ := bind_ok_iff.mp h
    rw [here_bind] at h
    obtain ⟨rfl, rfl⟩ := pure_ok_iff.mp h
    exact .inl ⟨_, rfl⟩
  · obtain ⟨⟨items, rendered⟩, _, hloop, h⟩ := bind_ok_iff.mp h
    dsimp only at h
    rw [here_bind] at h
    obtain ⟨rfl, rfl⟩ := pure_ok_iff.mp h
    obtain ⟨_, stop, rfl, rfl, hle, hrun, hstop⟩ := elementLoop_run hloop
    rw [Nat.zero_add]
    exact .inr ⟨len, _, d, stop, rfl, hle, hd, hrun, hstop⟩

end containers

/-! ### Parts at their places -/

/-- The part is what a visit at that depth returned for the bytes of its span. -/
def Visited (wire : Wire) (options : DumpOptions) (bytes : List Byte) (depth : ℕ) (node : Node) :
    Prop :=
  ∃ self self' c d, self.options = options ∧ self.depth = depth ∧ c.In bytes ∧
    visitDump wire node.layout self c = .ok ((node.value, self'), d) ∧
      node.span = ⟨c.position, d.position⟩

section visited
variable {options : DumpOptions} {bytes : List Byte} {depth : ℕ}

/-- What the loops of a container leave was visited at the depth of their visitor. -/
theorem Visits.visited {inner : Dump} {c e : Cursor Byte} {nodes : List Node}
    (h : Visits wire inner c nodes e) (hoptions : inner.options = options)
    (hdepth : inner.depth = depth) (hc : c.In bytes) :
    ∀ node ∈ nodes, Visited wire options bytes depth node := by
  induction h with
  | nil => nofun
  | cons hvisit _ ih =>
    have hspanned := visitDump_spanned hvisit
    intro node hnode
    rcases List.mem_cons.mp hnode with rfl | hnode
    · exact ⟨_, _, _, _, hoptions, hdepth, hc, hvisit, rfl⟩
    · refine ih ?_ ?_ (hc.reaches (visitDump_reaches hvisit)) node hnode
      · rw [hspanned]
        exact hoptions
      · rw [hspanned]
        exact hdepth

/-- The children of a part were visited one level further down. -/
theorem Visited.child {node child : Node} (h : Visited wire options bytes depth node)
    (hchild : node.Child child) : Visited wire options bytes (depth + 1) child := by
  obtain ⟨self, self', c, d, rfl, rfl, hc, hrun, hspan⟩ := h
  cases hchild with
  | field hchild =>
    rcases struct_run hrun with hlimited | ⟨dumped, hvalue, hfields⟩
    · cases hlimited
    · cases hvalue
      exact hfields.visits.visited rfl rfl hc child hchild
  | payload hvariant hchild =>
    obtain ⟨tag, variant, mid, hfind, hmid, hdump⟩ := variant_run hrun
    rcases hdump with hlimited | ⟨dumped, hvalue, hfields⟩
    · cases hlimited
    · cases hvalue
      obtain rfl := Option.some.inj (hfind.symm.trans hvariant)
      exact hfields.visits.visited rfl rfl (hc.reaches hmid) child hchild
  | item hchild =>
    rcases vector_run hrun with ⟨_, hlimited⟩ | ⟨len, items, mid, stop, hvalue, _, hmid, hitems, _⟩
    · cases hlimited
    · cases hvalue
      exact hitems.visited rfl rfl (hc.reaches hmid) child hchild

theorem Visited.tidy {node : Node} (h : Visited wire options bytes depth node) : node.Tidy := by
  obtain ⟨layout, span, value⟩ := node
  obtain ⟨self, self', c, d, _, _, _, hrun, rfl⟩ := h
  cases layout with
  | primitive p =>
    rw [visitDump, visitValue, here_bind] at hrun
    obtain ⟨_, _, _, hrun⟩ := bind_ok_iff.mp hrun
    rw [here_bind] at hrun
    obtain ⟨hvalue, _⟩ := pure_ok_iff.mp hrun
    cases hvalue
    trivial
  | vector inner =>
    rcases vector_run hrun with ⟨_, hlimited⟩ | ⟨len, items, mid, stop, hvalue, hle, hmid, hitems,
      hstop⟩
    · cases hlimited
      trivial
    · cases hvalue
      have hspans := hitems.consecutive
      rw [List.map_map] at hspans
      exact ⟨Nat.sub_add_cancel hle, mid.position, stop.position, hmid.le, hstop.le, hspans⟩
  | struct type fields =>
    rcases struct_run hrun with hlimited | ⟨dumped, hvalue, hfields⟩
    · cases hlimited
      trivial
    · cases hvalue
      exact ⟨hfields.names, hfields.consecutive⟩
  | enum type variants =>
    obtain ⟨tag, variant, mid, hfind, hmid, hdump⟩ := variant_run hrun
    rcases hdump with hlimited | ⟨dumped, hvalue, hfields⟩
    · cases hlimited
      trivial
    · cases hvalue
      exact ⟨variant, hfind, hfields.names, mid.position, hmid.le, hfields.consecutive⟩

theorem dump_of_visit {layout : MoveTypeLayout} {r : DumpValue × Dump} {n : ℕ}
    (h : visitDump wire layout (Dump.withOptions options) ⟨0, bytes⟩ = .ok (r, ⟨n, []⟩)) :
    dump wire options layout bytes = .ok r.1 := by
  unfold visitDump at h
  rw [dump, decodeValue, h]
  rfl

theorem Visited.redecodes {node : Node} (h : Visited wire options bytes depth node) :
    node.Redecodes wire options bytes depth := by
  obtain ⟨layout, span, value⟩ := node
  obtain ⟨self, self', c, d, rfl, rfl, hc, hrun, rfl⟩ := h
  have hreaches := visitDump_reaches hrun
  -- any visitor that goes as deep can take this one's place, on the slice alone
  have halone (maxDepth : ℕ) (hle : self.options.maxDepth - self.depth ≤ maxDepth) :
      ∃ r, visitDump wire layout (Dump.withOptions ⟨maxDepth, self.options.maxItems⟩)
        ⟨0, slice bytes c.position d.position⟩ = .ok (r, ⟨d.position - c.position, []⟩) ∧
          value = (r.1.cut (self.options.maxDepth - self.depth)).shift c.position := by
    have htracks : Tracks self.budget self (Dump.withOptions ⟨maxDepth, self.options.maxItems⟩) :=
      ⟨rfl, rfl, hle⟩
    obtain ⟨r, hr, hmatch⟩ := (visitDump_replays wire layout htracks).alone hrun hc
    exact ⟨r, hr, hmatch.value⟩
  refine ⟨⟨hreaches.le, (hc.reaches hreaches).1⟩, ?_, fun maxDepth hle => ?_⟩
  · obtain ⟨r, hr, hvalue⟩ := halone _ le_rfl
    have hcut := visitDump_cut hr
    exact ⟨r.1, dump_of_visit hr, hvalue.trans (congrArg (DumpValue.shift c.position) hcut)⟩
  · obtain ⟨r, hr, hvalue⟩ := halone maxDepth hle
    exact ⟨r.1, dump_of_visit hr, hvalue⟩

theorem visited_of_dump {layout : MoveTypeLayout} {tree : DumpValue}
    (h : dump wire options layout bytes = .ok tree) :
    Visited wire options bytes 0 ⟨layout, ⟨0, bytes.length⟩, tree⟩ := by
  rw [dump, decodeValue] at h
  obtain ⟨⟨⟨value, self⟩, c⟩, hrun, h⟩ := Outcomes.bind_eq_ok_iff.mp h
  dsimp only at h
  split at h
  · rename_i hempty
    cases h
    have hstart := Cursor.start_in bytes
    have hc := hstart.reaches (visitDump_reaches hrun)
    have hwhole : c.position = bytes.length := by
      have hrest := List.isEmpty_iff.mp hempty
      rw [hc.2, List.drop_eq_nil_iff] at hrest
      exact le_antisymm hc.1 hrest
    exact ⟨_, self, ⟨0, bytes⟩, c, rfl, rfl, hstart, hrun, by rw [hwhole]⟩
  · cases h

theorem Below.visited {root node : Node} (h : Below root depth node)
    (hroot : Visited wire options bytes 0 root) : Visited wire options bytes depth node := by
  induction h with
  | root => exact hroot
  | child _ hchild ih => exact ih.child hchild

end visited

/-- Bytes that can be passed over can be dumped. -/
theorem dump_of_decodes {options : DumpOptions} {layout : MoveTypeLayout} {bytes : List Byte}
    (h : decodeValue wire bytes layout nullTraversal () = .ok ()) :
    ∃ tree, dump wire options layout bytes = .ok tree := by
  rw [decodeValue] at h
  obtain ⟨⟨r, c⟩, hrun, h⟩ := Outcomes.bind_eq_ok_iff.mp h
  dsimp only at h
  split at h
  · rename_i hempty
    obtain ⟨taken, hrest, hposition, hreplay⟩ := visit_covers wire layout
      (dumpVisitor_complete wire.addressText) 0 (Dump.withOptions options) 0 bytes r c hrun
    rw [List.isEmpty_iff.mp hempty, List.append_nil] at hrest
    obtain ⟨again, hagain, _⟩ := hreplay []
    rw [List.append_nil, ← hrest] at hagain
    exact ⟨_, dump_of_visit hagain⟩
  · cases h

/-- The spans of a dump are exact. Bytes that decode are dumped whatever the options; in the tree,
the spans of each part's children follow each other within its own, and its bytes decode alone to
the part itself, as deep as it goes. -/
theorem dump_spans_exact (wire : Wire) (options : DumpOptions) (layout : MoveTypeLayout)
    (bytes : List Byte) :
    (decodeValue wire bytes layout nullTraversal () = .ok () →
      ∃ tree, dump wire options layout bytes = .ok tree) ∧
    ∀ tree, dump wire options layout bytes = .ok tree →
      ∀ depth node, Below ⟨layout, ⟨0, bytes.length⟩, tree⟩ depth node →
        node.Tidy ∧ node.Redecodes wire options bytes depth := by
  refine ⟨dump_of_decodes, fun tree htree depth node hnode => ?_⟩
  have hvisited := hnode.visited (visited_of_dump htree)
  exact ⟨hvisited.tidy, hvisited.redecodes⟩

def pairType : StructTag := ⟨2, "pair", "Pair", []⟩

def pairLayout : MoveTypeLayout :=
  .struct pairType [⟨"amount", .primitive .u16⟩, ⟨"marks", .vector (.primitive .u8)⟩]

def pairBytes : List Byte := [5, 1, 2, 7, 9]

/-- One of the two marks is rendered. -/
def pairMarks : DumpValue :=
  .vector Primitive.u8.text 2 [⟨0, ⟨3, 4⟩, .scalar Primitive.u8.text (toString 7)⟩] 1

def pairDump : DumpValue :=
  .struct (shortTag pairType) (isChildContainer pairType)
    [⟨"amount", ⟨0, 2⟩, .scalar Primitive.u16.text (toString 261)⟩, ⟨"marks", ⟨2, 5⟩, pairMarks⟩]

theorem dump_pair : dump plainWire ⟨2, 1⟩ pairLayout pairBytes = .ok pairDump := rfl

theorem marks_below : Below ⟨pairLayout, ⟨0, 5⟩, pairDump⟩ 1
    ⟨.vector (.primitive .u8), ⟨2, 5⟩, pairMarks⟩ := by
  have hfield : Node.Child ⟨pairLayout, ⟨0, 5⟩, pairDump⟩
      ⟨.vector (.primitive .u8), ⟨2, 5⟩, pairMarks⟩ := .field (.tail _ (.head _))
  exact .child .root hfield

theorem dump_spans_exact_marks :
    (∃ tree, dump plainWire ⟨2, 1⟩ pairLayout pairBytes = .ok tree) ∧
    Node.Tidy ⟨.vector (.primitive .u8), ⟨2, 5⟩, pairMarks⟩ ∧
    Node.Redecodes plainWire ⟨2, 1⟩ pairBytes 1 ⟨.vector (.primitive .u8), ⟨2, 5⟩, pairMarks⟩ :=
  have hexact := dump_spans_exact plainWire ⟨2, 1⟩ pairLayout pairBytes
  ⟨hexact.1 rfl, hexact.2 pairDump dump_pair 1 _ marks_below⟩

end Dumps
