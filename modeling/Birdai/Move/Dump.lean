import Birdai.Move.Drivers

/-!
# Annotated dumps

A tree of a Move value, each part with the bytes it came from. The visitor carries the
span of the value it produced last; a container reads it off the inner visitor after
every child.
-/

namespace Dumps

open ByteCodecs MoveTypes AnyVenues Cursors Drivers

/-- How much of a value to render. -/
structure DumpOptions where
  maxDepth : ℕ := 24
  maxItems : ℕ := 32
  deriving DecidableEq

/-- A byte range: the first byte, and the first one after it. -/
structure Span where
  start : ℕ
  stop : ℕ
  deriving DecidableEq

structure DumpFieldOver (τ : Type) where
  name : String
  span : Span
  value : τ

structure DumpItemOver (τ : Type) where
  index : ℕ
  span : Span
  value : τ

inductive DumpValue where
  | scalar (layout text : String)
  | struct (tag : String) (childContainer : Bool) (fields : List (DumpFieldOver DumpValue))
  | vector (element : String) (len : ℕ) (items : List (DumpItemOver DumpValue)) (omitted : ℕ)
  | variant (name : String) (tag : Fin (2 ^ 16)) (fields : List (DumpFieldOver DumpValue))
  | depthLimited (layout : String)

abbrev DumpField := DumpFieldOver DumpValue

abbrev DumpItem := DumpItemOver DumpValue

/-! ### Labels -/

def childContainerModules : List (String × String) :=
  [("table", "Table"), ("bag", "Bag"), ("object_bag", "ObjectBag"), ("table_vec", "TableVec"),
    ("linked_table", "LinkedTable"), ("dynamic_field", "Field"),
    ("dynamic_object_field", "Wrapper")]

def isCetusSkipList (tag : StructTag) : Bool :=
  tag.module = "skip_list" ∧ tag.name = "SkipList"

/-- The entries of such a container are separate objects. -/
def isChildContainer (tag : StructTag) : Bool :=
  isCetusSkipList tag || (tag.address = suiFramework &&
    childContainerModules.any fun entry => tag.module = entry.1 ∧ tag.name = entry.2)

def shortTypeOf : MoveTypeLayout → String
  | .primitive p => p.text
  | .vector inner => "vector<" ++ shortTypeOf inner ++ ">"
  | .struct type _ => shortTag type
  | .enum type _ => shortTag type

def Scalar.text (addressText : Address → String) : Scalar → String
  | .bool b => if b then "true" else "false"
  | .integer n => toString n
  | .address a => addressText a

/-! ### The visitor -/

structure Dump where
  options : DumpOptions
  depth : ℕ
  lastSpan : Span
  deriving DecidableEq

namespace Dump

def withOptions (options : DumpOptions) : Dump := ⟨options, 0, ⟨0, 0⟩⟩

def exhausted (self : Dump) : Bool := self.options.maxDepth ≤ self.depth

def deeper (self : Dump) : Dump := { self with depth := self.depth + 1 }

def spanned (self : Dump) (start stop : ℕ) : Dump := { self with lastSpan := ⟨start, stop⟩ }

def mark (self : Dump) (driver : ValueDriver) : Dump := self.spanned driver.start driver.position

def scalar (addressText : Address → String) (driver : ValueDriver) (value : Scalar) (self : Dump) :
    DumpValue × Dump :=
  (.scalar ((driver.layout.map shortTypeOf).getD "?") (Scalar.text addressText value),
    self.mark driver)

/-- `while let Some(value) = driver.next_element(&mut inner)`, with the elements still to come. Once
the cap is reached the rest is skipped. -/
def elementLoop (driver : VecDriver Dump DumpValue) (cap : ℕ) :
    ℕ → Dump → List DumpItem → ℕ → ByteWalk (List DumpItem × ℕ)
  | 0, _, items, rendered => pure (items, rendered)
  | remaining + 1, inner, items, rendered => do
    let (value, inner) ← driver.nextElement inner
    if rendered < cap then
      let items := items ++ [⟨items.length, inner.lastSpan, value⟩]
      if rendered + 1 = cap then do
        times driver.skipElement remaining
        pure (items, rendered + 1)
      else elementLoop driver cap remaining inner items (rendered + 1)
    else elementLoop driver cap remaining inner items rendered

/-- What a `usize` cap is as a `u64`. -/
def itemCap (options : DumpOptions) : ℕ := min options.maxItems (2 ^ 64 - 1)

def visitVector (driver : VecDriver Dump DumpValue) (self : Dump) :
    ByteWalk (DumpValue × Dump) :=
  let element := shortTypeOf driver.elementLayout
  if self.exhausted then do
    times driver.skipElement driver.len
    let position ← here
    pure (.depthLimited ("vector<" ++ element ++ "> (len " ++ toString driver.len ++ ")"),
      self.spanned driver.start position)
  else do
    let (items, rendered) ← elementLoop driver (itemCap self.options) driver.len self.deeper [] 0
    let position ← here
    pure (.vector element driver.len items (driver.len - rendered),
      self.spanned driver.start position)

/-- `while let Some((field_layout, value)) = driver.next_field(&mut inner)`. -/
def fieldLoop : List (FieldDriver Dump DumpValue) → Dump → List DumpField →
    ByteWalk (List DumpField)
  | [], _, fields => pure fields
  | driver :: rest, inner, fields => do
    let (value, inner) ← driver.nextField inner
    fieldLoop rest inner (fields ++ [⟨driver.name, inner.lastSpan, value⟩])

/-- The fields of a struct or of a variant: `limited` below the depth limit, else the tree that
`build` makes of them. -/
def visitFields (drivers : List (FieldDriver Dump DumpValue)) (start : ℕ) (limited : String)
    (build : List DumpField → DumpValue) (self : Dump) : ByteWalk (DumpValue × Dump) :=
  if self.exhausted then do
    inTurn (drivers.map FieldDriver.skipField)
    let position ← here
    pure (.depthLimited limited, self.spanned start position)
  else do
    let fields ← fieldLoop drivers self.deeper []
    let position ← here
    pure (build fields, self.spanned start position)

def visitStruct (driver : StructDriver Dump DumpValue) (self : Dump) :
    ByteWalk (DumpValue × Dump) :=
  visitFields driver.fields driver.start (shortTag driver.type)
    (.struct (shortTag driver.type) (isChildContainer driver.type)) self

def visitVariant (driver : VariantDriver Dump DumpValue) (self : Dump) :
    ByteWalk (DumpValue × Dump) :=
  visitFields driver.fields driver.start driver.variantName
    (.variant driver.variantName driver.tag) self

end Dump

def dumpVisitor (addressText : Address → String) : Visitor Dump DumpValue where
  visitScalar driver value self := self.scalar addressText driver value
  visitVector driver self := self.visitVector driver
  visitStruct driver self := self.visitStruct driver
  visitVariant driver self := self.visitVariant driver

/-- The dump of a whole value. -/
def dump (wire : Wire) (options : DumpOptions) (layout : MoveTypeLayout) (bytes : List Byte) :
    Except DecodeError DumpValue :=
  decodeValue wire bytes layout (dumpVisitor wire.addressText) (Dump.withOptions options)

end Dumps
