import Birdai.Tick.NodeDecoders
import Birdai.Move.ValueBytes

/-!
# The pool decoder

The pool and what is nested in it, each read by the names of its fields, and what
an upgrade of a layout may change without changing the pool that is read.
-/

namespace PoolDecoder

open WideArith SwapExactIn NamedFields ByteCodecs MoveTypes TickIndex CetusPool AnyVenues
  FieldVisitor NodeDecoders ValueBytes

/-- `Balance` is inlined: a `u64` one level down. -/
def balanceDecoder : StructDecoder (Option U64) U64 := oneField "value" u64V

def moveStringDecoder : StructDecoder (Option (List Byte)) (List Byte) := oneField "bytes" bytesV

/-- The tick manager, of which the skip list's metadata is kept. -/
def tickManagerProxy : StructDecoder (Option SkipListHead) SkipListHead :=
  oneField "ticks" (structVisitor skipListDecoder)

structure PoolFields where
  coinA : Option U64 := none
  coinB : Option U64 := none
  tickSpacing : Option U32 := none
  feeRate : Option U64 := none
  liquidity : Option U128 := none
  sqrtPrice : Option U128 := none
  tick : Option I32 := none
  feeGrowthGlobalA : Option U128 := none
  feeGrowthGlobalB : Option U128 := none
  feeProtocolCoinA : Option U64 := none
  feeProtocolCoinB : Option U64 := none
  ticks : Option SkipListHead := none
  isPaused : Option Bool := none
  index : Option U64 := none
  url : Option (List Byte) := none

def cetusPoolDecoder : StructDecoder PoolFields CetusClmm where
  start := {}
  arms :=
    [("coin_a", assign (structVisitor balanceDecoder) fun s n => { s with coinA := some n }),
      ("coin_b", assign (structVisitor balanceDecoder) fun s n => { s with coinB := some n }),
      ("tick_spacing", assign u32V fun s n => { s with tickSpacing := some n }),
      ("fee_rate", assign u64V fun s n => { s with feeRate := some n }),
      ("liquidity", assign u128V fun s n => { s with liquidity := some n }),
      ("current_sqrt_price", assign u128V fun s n => { s with sqrtPrice := some n }),
      ("current_tick_index", assign (structVisitor i32Decoder) fun s z =>
        { s with tick := some z }),
      ("fee_growth_global_a", assign u128V fun s n => { s with feeGrowthGlobalA := some n }),
      ("fee_growth_global_b", assign u128V fun s n => { s with feeGrowthGlobalB := some n }),
      ("fee_protocol_coin_a", assign u64V fun s n => { s with feeProtocolCoinA := some n }),
      ("fee_protocol_coin_b", assign u64V fun s n => { s with feeProtocolCoinB := some n }),
      ("tick_manager", assign (structVisitor tickManagerProxy) fun s head =>
        { s with ticks := some head }),
      ("is_pause", assign boolV fun s b => { s with isPaused := some b }),
      ("index", assign u64V fun s n => { s with index := some n }),
      ("url", assign (structVisitor moveStringDecoder) fun s bytes =>
        { s with url := some bytes })]
  finish s := do
    let coinA ← required s.coinA "coin_a"
    let coinB ← required s.coinB "coin_b"
    let tickSpacing ← required s.tickSpacing "tick_spacing"
    let feeRate ← required s.feeRate "fee_rate"
    let liquidity ← required s.liquidity "liquidity"
    let sqrtPrice ← required s.sqrtPrice "current_sqrt_price"
    let tick ← required s.tick "current_tick_index"
    let feeGrowthGlobalA ← required s.feeGrowthGlobalA "fee_growth_global_a"
    let feeGrowthGlobalB ← required s.feeGrowthGlobalB "fee_growth_global_b"
    let ticks ← required s.ticks "tick_manager"
    -- A pool that halts swaps must not be read as live.
    let isPaused ← required s.isPaused "is_pause"
    .ok
      { coinA
        coinB
        tickSpacing
        feeRate
        liquidity
        sqrtPrice
        tick
        feeGrowthGlobalA
        feeGrowthGlobalB
        feeProtocolCoinA := s.feeProtocolCoinA.getD 0
        feeProtocolCoinB := s.feeProtocolCoinB.getD 0
        ticks
        isPaused
        index := s.index.getD 0
        url := s.url.getD [] }

/-! ### What it reads -/

section reads
variable (order : FieldOrder)

def SameBalance : MoveValue → MoveValue → Prop := SameFields order [("value", Eq)]

/-- The fields the pool decoder knows, each with what is read of it. -/
def poolReads : List (String × (MoveValue → MoveValue → Prop)) :=
  [("coin_a", SameBalance order), ("coin_b", SameBalance order), ("tick_spacing", Eq),
    ("fee_rate", Eq), ("liquidity", Eq), ("current_sqrt_price", Eq),
    ("current_tick_index", SameBits order), ("fee_growth_global_a", Eq),
    ("fee_growth_global_b", Eq), ("fee_protocol_coin_a", Eq), ("fee_protocol_coin_b", Eq),
    ("tick_manager", SameFields order [("ticks", SameSkipList order)]), ("is_pause", Eq),
    ("index", Eq), ("url", SameFields order [("bytes", Eq)])]

def SamePool : MoveValue → MoveValue → Prop := SameFields order (poolReads order)

theorem pool_commutes : cetusPoolDecoder.Commutes := by
  simp only [StructDecoder.Commutes, cetusPoolDecoder, List.pairwise_cons, List.forall_mem_cons,
    List.Pairwise.nil, List.not_mem_nil, false_implies, implies_true, and_true]
  and_intros
  all_goals exact commute_assign fun _ _ _ => rfl

theorem balance_reads : ReadsBy order (SameBalance order) (structVisitor balanceDecoder) :=
  (readsBy_eq u64V).oneField _

theorem pool_reads : ReadsBy order (SamePool order) (structVisitor cetusPoolDecoder) := by
  refine .struct pool_commutes (.cons ⟨rfl, (balance_reads order).assign _⟩
    (.cons ⟨rfl, (balance_reads order).assign _⟩ (.cons ⟨rfl, ?_⟩ (.cons ⟨rfl, ?_⟩
    (.cons ⟨rfl, ?_⟩ (.cons ⟨rfl, ?_⟩ (.cons ⟨rfl, (i32_reads order).assign _⟩
    (.cons ⟨rfl, ?_⟩ (.cons ⟨rfl, ?_⟩ (.cons ⟨rfl, ?_⟩ (.cons ⟨rfl, ?_⟩
    (.cons ⟨rfl, ((skipList_reads order).oneField _).assign _⟩ (.cons ⟨rfl, ?_⟩
    (.cons ⟨rfl, ?_⟩ (.cons ⟨rfl, ((readsBy_eq bytesV).oneField _).assign _⟩
    .nil)))))))))))))))
  all_goals exact (readsBy_eq _).assign _

end reads

/-- A decoder that reads only what is compared gets the same from bytes of two layouts. -/
theorem decodeStruct_agrees (framework : Framework) {order : FieldOrder} {S α : Type}
    {decoder : StructDecoder S α} {R : MoveValue → MoveValue → Prop}
    (hreads : ReadsBy order R (structVisitor decoder)) {type₁ type₂ : StructTag}
    {fields₁ fields₂ : List MoveFieldLayout} {bytes₁ bytes₂ : List Byte} {value₁ value₂ : MoveValue}
    (h₁ : framework.deserialize (.struct type₁ fields₁) bytes₁ = .ok value₁)
    (h₂ : framework.deserialize (.struct type₂ fields₂) bytes₂ = .ok value₂)
    (hnames₁ : DistinctNames (.struct type₁ fields₁))
    (hnames₂ : DistinctNames (.struct type₂ fields₂)) (hR : R value₁ value₂) :
    order.Agree (decodeStruct framework bytes₁ type₁ fields₁ decoder)
      (decodeStruct framework bytes₂ type₂ fields₂ decoder) := by
  have hvalue₁ := distinct_of_layout _ _ (framework.hasLayout h₁) hnames₁
  have hvalue₂ := distinct_of_layout _ _ (framework.hasLayout h₂) hnames₂
  simp only [decodeStruct, h₁, h₂]
  exact hreads value₁ value₂ hvalue₁ hvalue₂ hR

/-- Two layouts whose bytes hold the same under every name a decoder reads, at every
level, decode alike: in any order of the fields to the same value or to some failure
each, in the order kept to the same outcome. -/
theorem decode_by_name (framework : Framework) (order : FieldOrder) {type₁ type₂ : StructTag}
    {fields₁ fields₂ : List MoveFieldLayout} {bytes₁ bytes₂ : List Byte} {value₁ value₂ : MoveValue}
    (h₁ : framework.deserialize (.struct type₁ fields₁) bytes₁ = .ok value₁)
    (h₂ : framework.deserialize (.struct type₂ fields₂) bytes₂ = .ok value₂)
    (hnames₁ : DistinctNames (.struct type₁ fields₁))
    (hnames₂ : DistinctNames (.struct type₂ fields₂)) :
    (SamePool order value₁ value₂ →
      order.Agree (decodeStruct framework bytes₁ type₁ fields₁ cetusPoolDecoder)
        (decodeStruct framework bytes₂ type₂ fields₂ cetusPoolDecoder)) ∧
    (SameFieldNode order value₁ value₂ →
      order.Agree (decodeStruct framework bytes₁ type₁ fields₁ fieldNodeDecoder)
        (decodeStruct framework bytes₂ type₂ fields₂ fieldNodeDecoder)) ∧
    (SameNode order value₁ value₂ →
      order.Agree (decodeStruct framework bytes₁ type₁ fields₁ tickNodeDecoder)
        (decodeStruct framework bytes₂ type₂ fields₂ tickNodeDecoder)) ∧
    (SameTick order value₁ value₂ →
      order.Agree (decodeStruct framework bytes₁ type₁ fields₁ tickDecoder)
        (decodeStruct framework bytes₂ type₂ fields₂ tickDecoder)) :=
  ⟨decodeStruct_agrees framework (pool_reads order) h₁ h₂ hnames₁ hnames₂,
    decodeStruct_agrees framework (fieldNode_reads order) h₁ h₂ hnames₁ hnames₂,
    decodeStruct_agrees framework (tickNode_reads order) h₁ h₂ hnames₁ hnames₂,
    decodeStruct_agrees framework (tick_reads order) h₁ h₂ hnames₁ hnames₂⟩

/-! ### A tick before and after an upgrade -/

def tickTag : StructTag := ⟨1, "tick", "Tick", []⟩

def bitsTag : StructTag := ⟨1, "i32", "I32", []⟩

/-- The fields a tick cannot do without. -/
def tickLayout : List MoveFieldLayout :=
  [⟨"index", .struct bitsTag [⟨"bits", .primitive .u32⟩]⟩, ⟨"sqrt_price", .primitive .u128⟩,
    ⟨"liquidity_net", .struct bitsTag [⟨"bits", .primitive .u128⟩]⟩,
    ⟨"liquidity_gross", .primitive .u128⟩, ⟨"fee_growth_outside_a", .primitive .u128⟩,
    ⟨"fee_growth_outside_b", .primitive .u128⟩]

/-- The same after an upgrade: one more field, and all of them the other way round. -/
def upgradedLayout : List MoveFieldLayout := (⟨"owner", .primitive .address⟩ :: tickLayout).reverse

def tickBytes : List Byte := [10, 0, 0, 0] ++ List.replicate 80 0

def upgradedBytes : List Byte := List.replicate 80 0 ++ [10, 0, 0, 0] ++ List.replicate 32 0

def tickValues : List (String × MoveValue) :=
  [("index", .struct bitsTag [("bits", .u32 10)]), ("sqrt_price", .u128 0),
    ("liquidity_net", .struct bitsTag [("bits", .u128 0)]), ("liquidity_gross", .u128 0),
    ("fee_growth_outside_a", .u128 0), ("fee_growth_outside_b", .u128 0)]

def upgradedValues : List (String × MoveValue) :=
  (("owner", .address 0) :: tickValues).reverse

theorem decode_by_name_upgraded :
    (decodeStruct plainBytes tickBytes tickTag tickLayout tickDecoder).toOption =
      (decodeStruct plainBytes upgradedBytes tickTag upgradedLayout tickDecoder).toOption ∧
    (decodeStruct plainBytes tickBytes tickTag tickLayout tickDecoder).isOk = true := by
  refine ⟨?_, by decide +kernel⟩
  have hread : plainBytes.deserialize (.struct tickTag tickLayout) tickBytes =
      .ok (.struct tickTag tickValues) := rfl
  have hread' : plainBytes.deserialize (.struct tickTag upgradedLayout) upgradedBytes =
      .ok (.struct tickTag upgradedValues) := rfl
  have hsame : SameTick .any (.struct tickTag tickValues) (.struct tickTag upgradedValues) := by
    refine .inl ⟨_, _, _, _, rfl, rfl, anyOrder_of_find (tickReads_refl .any) ?_⟩
    simp only [tickReads, List.forall_mem_cons, List.not_mem_nil, false_implies, implies_true,
      and_true]
    exact ⟨rfl, rfl, rfl, rfl, rfl, rfl, rfl, rfl⟩
  refine (decode_by_name plainBytes .any hread hread' ?_ ?_).2.2.2 hsame
  · simp [DistinctNames, DistinctFields, tickLayout]
  · simp [DistinctNames, DistinctFields, upgradedLayout, tickLayout]

/-- An index and a price of the wrong types. -/
def illTyped : List MoveFieldLayout :=
  [⟨"index", .primitive .u64⟩, ⟨"sqrt_price", .primitive .u64⟩]

/-- Two fields of the wrong types fail with the error of whichever comes first. -/
theorem swapped_fields_fail_apart : ∃ values values',
    plainBytes.deserialize (.struct tickTag illTyped) (List.replicate 16 0) =
        .ok (.struct tickTag values) ∧
      plainBytes.deserialize (.struct tickTag illTyped.reverse) (List.replicate 16 0) =
        .ok (.struct tickTag values') ∧
      DistinctNames (.struct tickTag illTyped) ∧ DistinctNames (.struct tickTag illTyped.reverse) ∧
      SameTick .any (.struct tickTag values) (.struct tickTag values') ∧
      decodeStruct plainBytes (List.replicate 16 0) tickTag illTyped tickDecoder =
        .error (.unexpectedType "a struct") ∧
      decodeStruct plainBytes (List.replicate 16 0) tickTag illTyped.reverse tickDecoder =
        .error (.unexpectedType "u128") := by
  refine ⟨[("index", .u64 0), ("sqrt_price", .u64 0)], [("sqrt_price", .u64 0), ("index", .u64 0)],
    rfl, rfl, ?_, ?_, ?_, by decide +kernel, by decide +kernel⟩
  · simp [DistinctNames, DistinctFields, illTyped]
  · simp [DistinctNames, DistinctFields, illTyped]
  · refine .inl ⟨_, _, _, _, rfl, rfl, anyOrder_of_find (tickReads_refl .any) ?_⟩
    simp only [tickReads, List.forall_mem_cons, List.not_mem_nil, false_implies, implies_true,
      and_true]
    exact ⟨rfl, rfl, rfl, rfl, rfl, rfl, rfl, rfl⟩

end PoolDecoder
