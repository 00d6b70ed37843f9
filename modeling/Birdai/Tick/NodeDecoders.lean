import Birdai.Move.FieldVisitor

/-!
# Decoders of tick nodes

The protocol's integers and options, and the nodes and the metadata of the tick
skip list, each read by the names of its fields.
-/

namespace NodeDecoders

open WideArith SwapExactIn NamedFields MoveTypes TickIndex AnyVenues FieldVisitor

/-! ### Integers and options -/

theorem castSigned32 (bits : U32) :
    -2 ^ 31 ≤ (if bits.val < 2 ^ 31 then (bits.val : ℤ) else bits.val - 2 ^ 32) ∧
      (if bits.val < 2 ^ 31 then (bits.val : ℤ) else bits.val - 2 ^ 32) < 2 ^ 31 := by
  have hlt := bits.isLt
  split
  · omega
  · omega

/-- Two's-complement bits, reinterpreted. -/
def i32FromBits (bits : U32) : I32 := ⟨_, castSigned32 bits⟩

theorem castSigned128 (bits : U128) :
    -2 ^ 127 ≤ (if bits.val < 2 ^ 127 then (bits.val : ℤ) else bits.val - 2 ^ 128) ∧
      (if bits.val < 2 ^ 127 then (bits.val : ℤ) else bits.val - 2 ^ 128) < 2 ^ 127 := by
  have hlt := bits.isLt
  split
  · omega
  · omega

def i128FromBits (bits : U128) : I128 := ⟨_, castSigned128 bits⟩

/-- The protocol's own option: the payload is there even when it is empty. -/
structure OptionU64 where
  isNone : Bool
  value : U64

def OptionU64.toOption (option : OptionU64) : Option U64 :=
  if option.isNone then none else some option.value

def i32Decoder : StructDecoder (Option U32) I32 where
  start := none
  arms := [("bits", assign u32V fun _ bits => some bits)]
  finish bits := (required bits "bits").map i32FromBits

def i32BitsDecoder : StructDecoder (Option U32) U32 := oneField "bits" u32V

def i128BitsDecoder : StructDecoder (Option U128) U128 := oneField "bits" u128V

structure OptionFields where
  isNone : Option Bool := none
  value : Option U64 := none

def optionU64Decoder : StructDecoder OptionFields OptionU64 where
  start := {}
  arms :=
    [("is_none", assign boolV fun s b => { s with isNone := some b }),
      ("v", assign u64V fun s n => { s with value := some n })]
  finish s := do
    let isNone ← required s.isNone "is_none"
    let value ← required s.value "v"
    .ok { isNone, value }

/-! ### Ticks and nodes -/

structure TickFields where
  index : Option I32 := none
  sqrtPrice : Option U128 := none
  liquidityNet : Option I128 := none
  liquidityGross : Option U128 := none
  feeGrowthOutsideA : Option U128 := none
  feeGrowthOutsideB : Option U128 := none
  pointsGrowthOutside : Option U128 := none
  rewardsGrowthOutside : Option (List U128) := none

def tickDecoder : StructDecoder TickFields Tick where
  start := {}
  arms :=
    [("index", assign (structVisitor i32BitsDecoder) fun s bits =>
        { s with index := some (i32FromBits bits) }),
      ("sqrt_price", assign u128V fun s n => { s with sqrtPrice := some n }),
      ("liquidity_net", assign (structVisitor i128BitsDecoder) fun s bits =>
        { s with liquidityNet := some (i128FromBits bits) }),
      ("liquidity_gross", assign u128V fun s n => { s with liquidityGross := some n }),
      ("fee_growth_outside_a", assign u128V fun s n => { s with feeGrowthOutsideA := some n }),
      ("fee_growth_outside_b", assign u128V fun s n => { s with feeGrowthOutsideB := some n }),
      ("points_growth_outside", assign u128V fun s n =>
        { s with pointsGrowthOutside := some n }),
      ("rewards_growth_outside", assign (vecVisitor u128V) fun s ns =>
        { s with rewardsGrowthOutside := some ns })]
  finish s := do
    let index ← required s.index "index"
    let sqrtPrice ← required s.sqrtPrice "sqrt_price"
    let liquidityNet ← required s.liquidityNet "liquidity_net"
    let liquidityGross ← required s.liquidityGross "liquidity_gross"
    let feeGrowthOutsideA ← required s.feeGrowthOutsideA "fee_growth_outside_a"
    let feeGrowthOutsideB ← required s.feeGrowthOutsideB "fee_growth_outside_b"
    .ok
      { index
        sqrtPrice
        liquidityNet
        liquidityGross
        feeGrowthOutsideA
        feeGrowthOutsideB
        pointsGrowthOutside := s.pointsGrowthOutside.getD 0
        rewardsGrowthOutside := s.rewardsGrowthOutside.getD [] }

structure NodeFields where
  score : Option U64 := none
  nexts : Option (List U64) := none
  prev : Option (Option U64) := none
  tick : Option Tick := none

/-- A node of the skip list, as a dynamic field holds it. -/
def tickNodeDecoder : StructDecoder NodeFields TickNode where
  start := {}
  arms :=
    [("score", assign u64V fun s n => { s with score := some n }),
      ("nexts", assign (vecVisitor (structVisitor optionU64Decoder)) fun s links =>
        { s with nexts := some (links.filterMap OptionU64.toOption) }),
      ("prev", assign (structVisitor optionU64Decoder) fun s link =>
        { s with prev := some link.toOption }),
      ("value", assign (structVisitor tickDecoder) fun s tick => { s with tick := some tick })]
  finish s := do
    let score ← required s.score "score"
    let tick ← required s.tick "value"
    .ok
      { score
        nexts := s.nexts.getD []
        prev := s.prev.getD none
        tick }

/-- The dynamic field around a node: its id and its key are passed over. -/
def fieldNodeDecoder : StructDecoder (Option TickNode) TickNode :=
  oneField "value" (structVisitor tickNodeDecoder)

/-! ### The skip list's metadata -/

def idDecoder : StructDecoder (Option ObjectId) ObjectId := oneField "bytes" addressV

def uidDecoder : StructDecoder (Option ObjectId) ObjectId :=
  oneField "id" (structVisitor idDecoder)

def randomDecoder : StructDecoder (Option U64) U64 := oneField "seed" u64V

structure SkipListFields where
  nodeUid : Option ObjectId := none
  head : Option U64 := none
  tail : Option (Option U64) := none
  level : U64 := 0
  maxLevel : U64 := 0
  size : U64 := 0
  seed : U64 := 0

def skipListDecoder : StructDecoder SkipListFields SkipListHead where
  start := {}
  arms :=
    [("id", assign (structVisitor uidDecoder) fun s uid => { s with nodeUid := some uid }),
      ("head", assign (vecVisitor (structVisitor optionU64Decoder)) fun s links =>
        { s with head := links.head?.bind OptionU64.toOption }),
      ("tail", assign (structVisitor optionU64Decoder) fun s link =>
        { s with tail := some link.toOption }),
      ("level", assign u64V fun s n => { s with level := n }),
      ("max_level", assign u64V fun s n => { s with maxLevel := n }),
      ("size", assign u64V fun s n => { s with size := n }),
      ("random", assign (structVisitor randomDecoder) fun s n => { s with seed := n })]
  finish s := do
    let nodeUid ← required s.nodeUid "id"
    .ok
      { nodeUid
        head := s.head
        tail := s.tail.getD none
        level := s.level
        maxLevel := s.maxLevel
        size := s.size
        seed := s.seed }

/-! ### What they read -/

section reads
variable (order : FieldOrder)

def SameBits : MoveValue → MoveValue → Prop := SameFields order [("bits", Eq)]

def SameOption : MoveValue → MoveValue → Prop := SameFields order [("is_none", Eq), ("v", Eq)]

/-- The fields the tick decoder knows, each with what is read of it. -/
def tickReads : List (String × (MoveValue → MoveValue → Prop)) :=
  [("index", SameBits order), ("sqrt_price", Eq), ("liquidity_net", SameBits order),
    ("liquidity_gross", Eq), ("fee_growth_outside_a", Eq), ("fee_growth_outside_b", Eq),
    ("points_growth_outside", Eq), ("rewards_growth_outside", Eq)]

def SameTick : MoveValue → MoveValue → Prop := SameFields order (tickReads order)

def SameNode : MoveValue → MoveValue → Prop :=
  SameFields order
    [("score", Eq), ("nexts", SameItems (SameOption order)), ("prev", SameOption order),
      ("value", SameTick order)]

def SameFieldNode : MoveValue → MoveValue → Prop := SameFields order [("value", SameNode order)]

def SameUid : MoveValue → MoveValue → Prop :=
  SameFields order [("id", SameFields order [("bytes", Eq)])]

def SameSkipList : MoveValue → MoveValue → Prop :=
  SameFields order
    [("id", SameUid order), ("head", SameItems (SameOption order)), ("tail", SameOption order),
      ("level", Eq), ("max_level", Eq), ("size", Eq),
      ("random", SameFields order [("seed", Eq)])]

theorem tickReads_refl : ∀ read ∈ tickReads order, ∀ v, read.2 v v := by
  simp [tickReads, SameBits, SameFields]

theorem i32_reads : ReadsBy order (SameBits order) (structVisitor i32Decoder) :=
  .struct (List.pairwise_singleton _ _) (.cons ⟨rfl, (readsBy_eq _).assign _⟩ .nil)

theorem i32Bits_reads : ReadsBy order (SameBits order) (structVisitor i32BitsDecoder) :=
  (readsBy_eq u32V).oneField _

theorem i128Bits_reads : ReadsBy order (SameBits order) (structVisitor i128BitsDecoder) :=
  (readsBy_eq u128V).oneField _

theorem optionU64_commutes : optionU64Decoder.Commutes := by
  simp only [StructDecoder.Commutes, optionU64Decoder, List.pairwise_cons, List.forall_mem_cons,
    List.Pairwise.nil, List.not_mem_nil, false_implies, implies_true, and_true]
  exact commute_assign fun _ _ _ => rfl

theorem optionU64_reads : ReadsBy order (SameOption order) (structVisitor optionU64Decoder) := by
  refine .struct optionU64_commutes (.cons ⟨rfl, ?_⟩ (.cons ⟨rfl, ?_⟩ .nil))
  · exact (readsBy_eq boolV).assign _
  · exact (readsBy_eq u64V).assign _

theorem tick_commutes : tickDecoder.Commutes := by
  simp only [StructDecoder.Commutes, tickDecoder, List.pairwise_cons, List.forall_mem_cons,
    List.Pairwise.nil, List.not_mem_nil, false_implies, implies_true, and_true]
  and_intros
  all_goals exact commute_assign fun _ _ _ => rfl

theorem tick_reads : ReadsBy order (SameTick order) (structVisitor tickDecoder) := by
  refine .struct tick_commutes (.cons ⟨rfl, (i32Bits_reads order).assign _⟩ (.cons ⟨rfl, ?_⟩
    (.cons ⟨rfl, (i128Bits_reads order).assign _⟩ (.cons ⟨rfl, ?_⟩ (.cons ⟨rfl, ?_⟩
    (.cons ⟨rfl, ?_⟩ (.cons ⟨rfl, ?_⟩ (.cons ⟨rfl, ?_⟩ .nil))))))))
  all_goals exact (readsBy_eq _).assign _

theorem tickNode_commutes : tickNodeDecoder.Commutes := by
  simp only [StructDecoder.Commutes, tickNodeDecoder, List.pairwise_cons, List.forall_mem_cons,
    List.Pairwise.nil, List.not_mem_nil, false_implies, implies_true, and_true]
  and_intros
  all_goals exact commute_assign fun _ _ _ => rfl

theorem tickNode_reads : ReadsBy order (SameNode order) (structVisitor tickNodeDecoder) := by
  refine .struct tickNode_commutes (.cons ⟨rfl, ?_⟩ (.cons ⟨rfl, ?_⟩ (.cons ⟨rfl, ?_⟩
    (.cons ⟨rfl, ?_⟩ .nil))))
  · exact (readsBy_eq u64V).assign _
  · exact (optionU64_reads order).vec.assign _
  · exact (optionU64_reads order).assign _
  · exact (tick_reads order).assign _

theorem fieldNode_reads : ReadsBy order (SameFieldNode order) (structVisitor fieldNodeDecoder) :=
  (tickNode_reads order).oneField _

theorem uid_reads : ReadsBy order (SameUid order) (structVisitor uidDecoder) :=
  ((readsBy_eq addressV).oneField _).oneField _

theorem skipList_commutes : skipListDecoder.Commutes := by
  simp only [StructDecoder.Commutes, skipListDecoder, List.pairwise_cons, List.forall_mem_cons,
    List.Pairwise.nil, List.not_mem_nil, false_implies, implies_true, and_true]
  and_intros
  all_goals exact commute_assign fun _ _ _ => rfl

theorem skipList_reads : ReadsBy order (SameSkipList order) (structVisitor skipListDecoder) := by
  refine .struct skipList_commutes (.cons ⟨rfl, ?_⟩ (.cons ⟨rfl, ?_⟩ (.cons ⟨rfl, ?_⟩
    (.cons ⟨rfl, ?_⟩ (.cons ⟨rfl, ?_⟩ (.cons ⟨rfl, ?_⟩ (.cons ⟨rfl, ?_⟩ .nil)))))))
  · exact (uid_reads order).assign _
  · exact (optionU64_reads order).vec.assign _
  · exact (optionU64_reads order).assign _
  · exact (readsBy_eq u64V).assign _
  · exact (readsBy_eq u64V).assign _
  · exact (readsBy_eq u64V).assign _
  · exact ((readsBy_eq u64V).oneField _).assign _

end reads

end NodeDecoders
