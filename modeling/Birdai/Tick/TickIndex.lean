import Birdai.Amm.SwapExactIn
import Birdai.Amm.TickMath
import Birdai.Base.OrderedKeys
import Mathlib.Data.List.Sort

/-!
# The tick index

Nodes of a pool's skip list, filed by key and validated against the tick math.
Neighbours are found in the tick-ordered map, never by following links.
-/

namespace TickIndex

open WideArith Outcomes SwapExactIn TickMath OrderedKeys

abbrev ObjectId := Fin (2 ^ 256)

abbrev I32 := { z : ℤ // -2 ^ 31 ≤ z ∧ z < 2 ^ 31 }

abbrev U32 := Fin (2 ^ 32)

instance u32_neZero : NeZero (2 ^ 32) := ⟨by decide⟩

instance : Zero I32 := ⟨⟨0, by decide⟩⟩

/-- The bias that turns a signed tick into an orderable key. -/
def cetusTickBias : ℤ := 443636

def checkedScoreFromTick (tick : I32) : Option U64 :=
  let biased := tick.val + cetusTickBias
  if h : biased < 2 ^ 31 ∧ 0 ≤ biased then some ⟨biased.toNat, by omega⟩ else none

structure Tick where
  index : I32
  sqrtPrice : U128
  liquidityNet : I128
  liquidityGross : U128
  feeGrowthOutsideA : U128
  feeGrowthOutsideB : U128
  pointsGrowthOutside : U128
  rewardsGrowthOutside : List U128
  deriving DecidableEq

structure TickNode where
  score : U64
  nexts : List U64
  prev : Option U64
  tick : Tick
  deriving DecidableEq

def TickNode.index (node : TickNode) : ℤ := node.tick.index.val

def TickNode.boundary (node : TickNode) : Boundary :=
  { tick := node.index
    sqrtPrice := node.tick.sqrtPrice
    liquidityNet := node.tick.liquidityNet }

/-- The skip list's own metadata, inlined in the pool. -/
structure SkipListHead where
  nodeUid : ObjectId
  head : Option U64
  tail : Option U64
  level : U64
  maxLevel : U64
  size : U64
  seed : U64
  deriving DecidableEq

inductive TickError where
  | tickOutOfRange (tick : ℤ)
  | sizeMismatch (expected : U64) (actual : ℕ)
  | danglingLink (score neighbour : U64)
  | scoreMismatch (tick : ℤ) (score : U64)
  | duplicateNode (score : U64)
  | unordered
  | offGrid (tick : ℤ) (spacing : U32)
  | priceMismatch (tick : ℤ) (stored computed : U128) (deviation : ℤ) (tolerance : U128)
  deriving DecidableEq

structure SizeSkew where
  declared : U64
  observed : ℕ
  deriving DecidableEq

structure Ticks where
  nodeUid : Option ObjectId
  nodes : List TickNode
  byTick : Finmap fun _ : ℤ => ℕ
  byScore : Finmap fun _ : U64 => ℕ
  declaredSize : Option U64
  strictSize : Bool
  priceDeviations : Finmap fun _ : ℤ => ℕ
  deriving DecidableEq

/-- Where each node of a list stands, by the given key. -/
def positions {κ : Type} [DecidableEq κ] (key : TickNode → κ) (nodes : List TickNode) :
    Finmap fun _ : κ => ℕ :=
  ofEntries (nodes.zipIdx.map fun e => (key e.1, e.2))

/-- `i128::try_from(..).unwrap_or(i128::MAX)`. -/
def saturatingI128 (n : ℕ) : ℤ := if n < 2 ^ 127 then n else 2 ^ 127 - 1

def priceDeviation (stored computed : U128) : ℤ :=
  if computed ≤ stored then saturatingI128 (stored.val - computed.val)
  else -saturatingI128 (computed.val - stored.val)

namespace Ticks

def insert (t : Ticks) (node : TickNode) : Except TickError Ticks := do
  let expected ← okOr (checkedScoreFromTick node.tick.index) (.tickOutOfRange node.index)
  if node.score ≠ expected then .error (.scoreMismatch node.index node.score)
  else if node.score ∈ t.byScore then .error (.duplicateNode node.score)
  else
    .ok { t with
      byScore := t.byScore.insert node.score t.nodes.length
      byTick := t.byTick.insert node.index t.nodes.length
      nodes := t.nodes ++ [node] }

/-- The nodes in tick order, and both maps rebuilt over them. -/
def reindexed (t : Ticks) : Ticks :=
  let nodes := t.nodes.insertionSort fun a b => a.index ≤ b.index
  { t with
    nodes
    byTick := positions TickNode.index nodes
    byScore := positions TickNode.score nodes }

/-- A forward link must lead to a different node, further on. -/
def checkLink (t : Ticks) (node : TickNode) (position : ℕ) : Except TickError Unit :=
  match node.nexts.head? with
  | none => .ok ()
  | some next =>
    let elsewhere := (t.byScore.lookup next).filter fun n => n ≠ position
    let ahead := (elsewhere.bind (t.nodes[·]?)).any fun n => node.index < n.index
    if ahead then .ok ()
    else if elsewhere.isSome then .error .unordered
    else .error (.danglingLink node.score next)

def checkPrice (node : TickNode) : Except TickError ℤ :=
  match sqrtPriceAtTick node.index with
  | .error _ => .error (.tickOutOfRange node.index)
  | .ok computed =>
    let deviation := priceDeviation node.tick.sqrtPrice computed
    let tolerance := tickPriceTolerance computed
    if tolerance.val < deviation.natAbs then
      .error (.priceMismatch node.index node.tick.sqrtPrice computed deviation tolerance)
    else .ok deviation

def checkNode (t : Ticks) (deviations : Finmap fun _ : ℤ => ℕ) (entry : TickNode × ℕ) :
    Except TickError (Finmap fun _ : ℤ => ℕ) := do
  t.checkLink entry.1 entry.2
  let deviation ← checkPrice entry.1
  .ok (deviations.insert deviation ((deviations.lookup deviation).elim 1 (· + 1)))

def checkSize (t : Ticks) : Except TickError Unit :=
  match t.strictSize, t.declaredSize with
  | true, some expected =>
    if expected.val ≠ t.nodes.length then .error (.sizeMismatch expected t.nodes.length)
    else .ok ()
  | _, _ => .ok ()

def check (t : Ticks) : Except TickError (Finmap fun _ : ℤ => ℕ) := do
  t.checkSize
  t.nodes.zipIdx.foldlM t.checkNode ∅

/-- What validation answers, and the index it leaves behind either way. -/
def validate (t : Ticks) : Except TickError Unit × Ticks :=
  match t.reindexed.check with
  | .error e => (.error e, t.reindexed)
  | .ok deviations => (.ok (), { t.reindexed with priceDeviations := deviations })

def fill (t : Ticks) (nodes : List TickNode) : Except TickError Ticks := do
  let filled ← nodes.foldlM insert t
  let (outcome, validated) := filled.validate
  outcome.map fun _ => validated

def empty (nodeUid : Option ObjectId) (declaredSize : Option U64) (strictSize : Bool) : Ticks :=
  { nodeUid
    nodes := []
    byTick := ∅
    byScore := ∅
    declaredSize
    strictSize
    priceDeviations := ∅ }

/-- Build an index whose size must match the declared one. -/
def new (nodeUid : Option ObjectId) (declaredSize : Option U64) (nodes : List TickNode) :
    Except TickError Ticks :=
  (empty nodeUid declaredSize true).fill nodes

/-- Build an index that reports a difference in size instead of refusing it. -/
def fromChildren (nodeUid : Option ObjectId) (declaredSize : U64) (nodes : List TickNode) :
    Except TickError (Ticks × Option SizeSkew) := do
  let index ← (empty nodeUid (some declaredSize) false).fill nodes
  let observed := index.nodes.length
  .ok (index, if observed ≠ declaredSize.val then some ⟨declaredSize, observed⟩ else none)

def validateSpacing (t : Ticks) (spacing : U32) : Except TickError Unit :=
  if spacing = 0 then .ok ()
  else
    match t.nodes.find? fun node => node.index % (spacing.val : ℤ) ≠ 0 with
    | some node => .error (.offGrid node.index spacing)
    | none => .ok ()

/-- The node a tick of the ordered map stands for. -/
def nodeAt (t : Ticks) (tick : Option ℤ) : Option TickNode :=
  (tick.bind t.byTick.lookup).bind (t.nodes[·]?)

def nextAbove (t : Ticks) (tick : ℤ) : Option TickNode :=
  t.nodeAt (leastKey t.byTick (tick < ·))

def nextBelow (t : Ticks) (tick : ℤ) : Option TickNode :=
  t.nodeAt (greatestKey t.byTick (· < tick))

def nextAtOrBelow (t : Ticks) (tick : ℤ) : Option TickNode :=
  t.nodeAt (greatestKey t.byTick (· ≤ tick))

def get (t : Ticks) (tick : ℤ) : Option TickNode :=
  (t.byTick.lookup tick).bind (t.nodes[·]?)

/-- The nearest initialised tick, the lower one on a tie. -/
def nearest (t : Ticks) (tick : ℤ) : Option TickNode :=
  match t.nextAtOrBelow tick, t.nextAbove tick with
  | some low, some high =>
    if high.index - tick < tick - low.index then some high else some low
  | some node, none => some node
  | none, some node => some node
  | none, none => none

def bracketing (t : Ticks) (tick : ℤ) : Option TickNode × Option TickNode :=
  (t.nextAtOrBelow tick, t.nextAbove tick)

def liquidityNetAt (t : Ticks) (tick : ℤ) : Option I128 :=
  (t.get tick).map fun node => node.tick.liquidityNet

/-- The nearest node in the direction of travel. -/
def next (t : Ticks) (d : Direction) (tick : ℤ) : Option TickNode :=
  match d with
  | .bToA => t.nextAbove tick
  | .aToB => t.nextBelow tick

/-- The index with some nodes deleted, and both maps rebuilt over the rest. -/
def keeping (t : Ticks) (p : TickNode → Bool) : Ticks :=
  { t with
    nodes := t.nodes.filter p
    byTick := positions TickNode.index (t.nodes.filter p)
    byScore := positions TickNode.score (t.nodes.filter p) }

/-- The index as the swap's tick source. -/
def source (t : Ticks) : TickSource where
  nextBoundaryUp tick := (t.nextAbove tick).map TickNode.boundary
  nextBoundaryDown tick := (t.nextBelow tick).map TickNode.boundary

/-- An index that one of the two constructors accepted. -/
def Accepted (t : Ticks) : Prop :=
  (∃ nodeUid declaredSize nodes, new nodeUid declaredSize nodes = .ok t) ∨
    ∃ nodeUid declaredSize nodes skew, fromChildren nodeUid declaredSize nodes = .ok (t, skew)

end Ticks

end TickIndex
