import Birdai.Move.Dump
import Birdai.Venue.PoolDecoder

/-!
# The decoders of all venues

The vault and the ledger beside the pool, and what the shape test before a decoder is
worth: with it no decoder fails for want of a field, and without it the ledger's would
accept any struct at all.
-/

namespace VenueDecoders

open WideArith Outcomes NamedFields ByteCodecs MoveTypes TickIndex CetusPool AnyVenues FieldVisitor
  NodeDecoders PoolDecoder ValueBytes

def u8V : Visitor Byte
  | .u8 n => .ok n
  | _ => .error (.unexpectedType "u8")

def addressVecV : Visitor (List Address) := vecVisitor addressV

/-! ### The vault -/

/-- A `Table` holds its length only. -/
def tableSizeDecoder : StructDecoder (Option U64) U64 := oneField "size" u64V

def balanceHolderDecoder : StructDecoder (Option U64) U64 :=
  oneField "balance" (structVisitor balanceDecoder)

structure EntryFields where
  key : Option Address := none
  value : Option U64 := none

def vecMapEntryDecoder : StructDecoder EntryFields (Address × U64) where
  start := {}
  arms :=
    [("key", assign addressV fun s a => { s with key := some a }),
      ("value", assign u64V fun s n => { s with value := some n })]
  finish s := do
    let key ← required s.key "key"
    let value ← required s.value "value"
    .ok (key, value)

def vecMapDecoder : StructDecoder (Option (List (Address × U64))) (List (Address × U64)) where
  start := none
  arms :=
    [("contents", assign (vecVisitor (structVisitor vecMapEntryDecoder)) fun _ entries =>
      some entries)]
  finish contents := .ok (contents.getD [])

structure ValidatorSet where
  vaults : U64 := 0
  validators : List (Address × U64) := []
  sortedValidators : List Address := []

def validatorSetDecoder : StructDecoder ValidatorSet ValidatorSet where
  start := {}
  arms :=
    [("vaults", assign (structVisitor tableSizeDecoder) fun s n => { s with vaults := n }),
      ("validators", assign (structVisitor vecMapDecoder) fun s entries =>
        { s with validators := entries }),
      ("sorted_validators", assign addressVecV fun s addresses =>
        { s with sortedValidators := addresses })]
  finish s := .ok s

structure VoloFields where
  pending : Option U64 := none
  collectableFee : Option U64 := none
  validatorSet : Option ValidatorSet := none

def voloPoolDecoder : StructDecoder VoloFields VoloNativePool where
  start := {}
  arms :=
    [("pending", assign (structVisitor balanceHolderDecoder) fun s n =>
        { s with pending := some n }),
      ("collectable_fee", assign (structVisitor balanceHolderDecoder) fun s n =>
        { s with collectableFee := some n }),
      ("validator_set", assign (structVisitor validatorSetDecoder) fun s set =>
        { s with validatorSet := some set })]
  finish s := do
    let validatorSet ← required s.validatorSet "validator_set"
    let pending ← required s.pending "pending"
    let collectableFee ← required s.collectableFee "collectable_fee"
    .ok
      { pending
        collectableFee
        vaults := validatorSet.vaults
        validators := validatorSet.validators
        sortedValidators := validatorSet.sortedValidators }

/-! ### The ledger -/

def emptyStorage : NaviStorage := ⟨0, false, 0, 0, [], 0⟩

/-- Nothing is required: what is missing stays zero, false or empty. -/
def naviStorageDecoder : StructDecoder NaviStorage NaviStorage where
  start := emptyStorage
  arms :=
    [("version", assign u64V fun s n => { s with version := n }),
      ("paused", assign boolV fun s b => { s with paused := b }),
      ("reserves", assign (structVisitor tableSizeDecoder) fun s n =>
        { s with reservesSize := n }),
      ("reserves_count", assign u8V fun s n => { s with reservesCount := n }),
      ("users", assign addressVecV fun s addresses => { s with users := addresses }),
      ("user_info", assign (structVisitor tableSizeDecoder) fun s n =>
        { s with userInfoSize := n })]
  finish s := .ok s

/-! ### Every venue's decoder -/

/-- `Venue::decode`, the same for every venue but for its decoder. -/
def venueOf {S α : Type} (framework : Framework) (decoder : StructDecoder S α)
    (bytes : List Byte) (layout : MoveTypeLayout) : Except VenueError α :=
  match layout with
  | .struct type fields => (decodeStruct framework bytes type fields decoder).mapError .decode
  | _ => .error (.notAStruct (Dumps.shortTypeOf layout))

def decoders (framework : Framework) (fingerprint : MoveTypeLayout → Fingerprint) : Decoders where
  fingerprint := fingerprint
  cetus := venueOf framework cetusPoolDecoder
  volo := venueOf framework voloPoolDecoder
  navi := venueOf framework naviStorageDecoder

/-! ### What they read -/

section reads
variable (order : FieldOrder)

def SameTable : MoveValue → MoveValue → Prop := SameFields order [("size", Eq)]

def SameHolder : MoveValue → MoveValue → Prop := SameFields order [("balance", SameBalance order)]

def SameEntry : MoveValue → MoveValue → Prop := SameFields order [("key", Eq), ("value", Eq)]

def SameVecMap : MoveValue → MoveValue → Prop :=
  SameFields order [("contents", SameItems (SameEntry order))]

def SameValidators : MoveValue → MoveValue → Prop :=
  SameFields order
    [("vaults", SameTable order), ("validators", SameVecMap order), ("sorted_validators", Eq)]

/-- The fields each venue's decoder knows, with what is read of them. -/
def venueReads : VenueKind → List (String × (MoveValue → MoveValue → Prop))
  | .cetusClmm => poolReads order
  | .voloNativePool =>
    [("pending", SameHolder order), ("collectable_fee", SameHolder order),
      ("validator_set", SameValidators order)]
  | .naviStorage =>
    [("version", Eq), ("paused", Eq), ("reserves", SameTable order), ("reserves_count", Eq),
      ("users", Eq), ("user_info", SameTable order)]

def SameVenue (kind : VenueKind) : MoveValue → MoveValue → Prop :=
  SameFields order (venueReads order kind)

theorem tableSize_reads : ReadsBy order (SameTable order) (structVisitor tableSizeDecoder) :=
  (readsBy_eq u64V).oneField _

theorem balanceHolder_reads :
    ReadsBy order (SameHolder order) (structVisitor balanceHolderDecoder) :=
  (balance_reads order).oneField _

theorem vecMapEntry_reads : ReadsBy order (SameEntry order) (structVisitor vecMapEntryDecoder) := by
  refine .struct ?_ (.cons ⟨rfl, (readsBy_eq _).assign _⟩ (.cons ⟨rfl, (readsBy_eq _).assign _⟩
    .nil))
  exact List.pairwise_pair.mpr (commute_assign fun _ _ _ => rfl)

theorem vecMap_reads : ReadsBy order (SameVecMap order) (structVisitor vecMapDecoder) :=
  .struct (List.pairwise_singleton _ _) (.cons ⟨rfl, (vecMapEntry_reads order).vec.assign _⟩ .nil)

theorem validatorSet_commutes : validatorSetDecoder.Commutes := by
  simp only [StructDecoder.Commutes, validatorSetDecoder, List.pairwise_cons, List.forall_mem_cons,
    List.Pairwise.nil, List.not_mem_nil, false_implies, implies_true, and_true]
  and_intros
  all_goals exact commute_assign fun _ _ _ => rfl

theorem validatorSet_reads :
    ReadsBy order (SameValidators order) (structVisitor validatorSetDecoder) :=
  .struct validatorSet_commutes (.cons ⟨rfl, (tableSize_reads order).assign _⟩
    (.cons ⟨rfl, (vecMap_reads order).assign _⟩ (.cons ⟨rfl, (readsBy_eq _).assign _⟩ .nil)))

theorem volo_commutes : voloPoolDecoder.Commutes := by
  simp only [StructDecoder.Commutes, voloPoolDecoder, List.pairwise_cons, List.forall_mem_cons,
    List.Pairwise.nil, List.not_mem_nil, false_implies, implies_true, and_true]
  and_intros
  all_goals exact commute_assign fun _ _ _ => rfl

theorem volo_reads :
    ReadsBy order (SameVenue order .voloNativePool) (structVisitor voloPoolDecoder) :=
  .struct volo_commutes (.cons ⟨rfl, (balanceHolder_reads order).assign _⟩
    (.cons ⟨rfl, (balanceHolder_reads order).assign _⟩
    (.cons ⟨rfl, (validatorSet_reads order).assign _⟩ .nil)))

theorem navi_commutes : naviStorageDecoder.Commutes := by
  simp only [StructDecoder.Commutes, naviStorageDecoder, List.pairwise_cons, List.forall_mem_cons,
    List.Pairwise.nil, List.not_mem_nil, false_implies, implies_true, and_true]
  and_intros
  all_goals exact commute_assign fun _ _ _ => rfl

theorem navi_reads :
    ReadsBy order (SameVenue order .naviStorage) (structVisitor naviStorageDecoder) := by
  refine .struct navi_commutes (.cons ⟨rfl, ?_⟩ (.cons ⟨rfl, ?_⟩
    (.cons ⟨rfl, (tableSize_reads order).assign _⟩ (.cons ⟨rfl, ?_⟩ (.cons ⟨rfl, ?_⟩
    (.cons ⟨rfl, (tableSize_reads order).assign _⟩ .nil))))))
  all_goals exact (readsBy_eq _).assign _

end reads

/-! ### The shape of a layout -/

theorem layoutHasShape_iff {kind : VenueKind} {fields : List MoveFieldLayout} :
    layoutHasShape kind fields = true ↔
      ∀ name ∈ requiredFields kind, name ∈ fields.map FieldOver.name := by
  simp [layoutHasShape]

/-- The shape of a layout, from a value of it. -/
theorem layoutHasShape_iff_value {kind : VenueKind} {type type' : StructTag}
    {fields : List MoveFieldLayout} {values : List (String × MoveValue)}
    (h : HasLayout (.struct type fields) (.struct type' values)) :
    layoutHasShape kind fields = true ↔
      ∀ name ∈ requiredFields kind, name ∈ values.map Prod.fst := by
  rw [layoutHasShape_iff, names_of_haveLayouts fields values h.2]

theorem required_read (order : FieldOrder) (kind : VenueKind) :
    ∀ name ∈ requiredFields kind, name ∈ (venueReads order kind).map Prod.fst := by
  cases kind <;> simp [requiredFields, venueReads, poolReads]

theorem exists_fields {type : StructTag} {fields : List MoveFieldLayout} {value : MoveValue}
    (h : HasLayout (.struct type fields) value) : ∃ values, value = .struct type values := by
  cases value with
  | struct type' values =>
    obtain rfl := h.1
    exact ⟨values, rfl⟩
  | _ => exact h.elim

/-- Values that agree in what is read come from layouts of the same shape. -/
theorem shape_agrees {order : FieldOrder} {kind : VenueKind} {type₁ type₂ : StructTag}
    {fields₁ fields₂ : List MoveFieldLayout} {value₁ value₂ : MoveValue}
    (h₁ : HasLayout (.struct type₁ fields₁) value₁) (h₂ : HasLayout (.struct type₂ fields₂) value₂)
    (hsame : SameVenue order kind value₁ value₂) :
    layoutHasShape kind fields₁ = layoutHasShape kind fields₂ := by
  obtain ⟨values₁, rfl⟩ := exists_fields h₁
  obtain ⟨values₂, rfl⟩ := exists_fields h₂
  rw [Bool.eq_iff_iff, layoutHasShape_iff_value h₁, layoutHasShape_iff_value h₂]
  refine forall₂_congr fun name hname => ?_
  have hread := required_read order kind name hname
  rcases hsame with ⟨_, _, _, _, heq₁, heq₂, hfields⟩ | heq
  · cases heq₁
    cases heq₂
    cases order with
    | any => exact AnyOrder.mem_iff hfields hread
    | kept => exact SameOrder.mem_iff hfields hread
  · cases heq
    rfl

/-! ### Upgrades of any venue -/

theorem toOption_typed {α : Type} {x y : Except DecodeError α} (h : x.toOption = y.toOption)
    (f : α → AnyVenue) :
    ((x.mapError VenueError.decode).map f).toOption =
      ((y.mapError VenueError.decode).map f).toOption := by
  cases x with
  | error e =>
    cases y with
    | error e' => rfl
    | ok b => cases h
  | ok a =>
    cases y with
    | error e' => cases h
    | ok b =>
      cases h
      rfl

/-- An object types alike under two layouts whose bytes hold the same under every name its
venue's decoder reads: the same venue or no venue, and with the order of the names kept
the same error. -/
theorem decodeVenue_by_name (framework : Framework) (fingerprint : MoveTypeLayout → Fingerprint)
    (order : FieldOrder) (tag : StructTag) {type₁ type₂ : StructTag}
    {fields₁ fields₂ : List MoveFieldLayout} {bytes₁ bytes₂ : List Byte} {value₁ value₂ : MoveValue}
    (h₁ : framework.deserialize (.struct type₁ fields₁) bytes₁ = .ok value₁)
    (h₂ : framework.deserialize (.struct type₂ fields₂) bytes₂ = .ok value₂)
    (hnames₁ : DistinctNames (.struct type₁ fields₁))
    (hnames₂ : DistinctNames (.struct type₂ fields₂))
    (hsame : ∀ kind, venueKindOf tag = some kind → SameVenue order kind value₁ value₂) :
    (decodeVenue (decoders framework fingerprint) bytes₁ tag (.struct type₁ fields₁)).toOption =
        (decodeVenue (decoders framework fingerprint) bytes₂ tag
          (.struct type₂ fields₂)).toOption ∧
      (order = .kept →
        decodeVenue (decoders framework fingerprint) bytes₁ tag (.struct type₁ fields₁) =
          decodeVenue (decoders framework fingerprint) bytes₂ tag (.struct type₂ fields₂)) := by
  unfold decodeVenue
  cases hkind : venueKindOf tag with
  | none => exact ⟨rfl, fun _ => rfl⟩
  | some kind =>
    have hvenue := hsame kind hkind
    have hshape := shape_agrees (framework.hasLayout h₁) (framework.hasLayout h₂) hvenue
    -- each decoder reads no more than what agrees
    have hagree : ∀ {S α : Type} {decoder : StructDecoder S α} (f : α → AnyVenue),
        ReadsBy order (SameVenue order kind) (structVisitor decoder) →
          ((venueOf framework decoder bytes₁ (.struct type₁ fields₁)).map f).toOption =
              ((venueOf framework decoder bytes₂ (.struct type₂ fields₂)).map f).toOption ∧
            (order = .kept →
              (venueOf framework decoder bytes₁ (.struct type₁ fields₁)).map f =
                (venueOf framework decoder bytes₂ (.struct type₂ fields₂)).map f) := by
      intro S α decoder f hreads
      have hdecode := decodeStruct_agrees framework hreads h₁ h₂ hnames₁ hnames₂ hvenue
      cases order with
      | any => exact ⟨toOption_typed hdecode f, nofun⟩
      | kept =>
        have heq : decodeStruct framework bytes₁ type₁ fields₁ decoder =
            decodeStruct framework bytes₂ type₂ fields₂ decoder := hdecode
        simp only [venueOf, heq, implies_true, and_self]
    dsimp only
    rw [hshape]
    split
    · cases kind with
      | cetusClmm => exact hagree .cetus (pool_reads order)
      | voloNativePool => exact hagree .volo (volo_reads order)
      | naviStorage => exact hagree .navi (navi_reads order)
    · exact ⟨rfl, fun _ => rfl⟩

def vaultTag : StructTag := ⟨1, "native_pool", "NativePool", []⟩

def plainTag : StructTag := ⟨1, "plain", "Plain", []⟩

def holderLayout : MoveTypeLayout :=
  .struct plainTag [⟨"balance", .struct plainTag [⟨"value", .primitive .u64⟩]⟩]

def vaultLayout : List MoveFieldLayout :=
  [⟨"pending", holderLayout⟩, ⟨"collectable_fee", holderLayout⟩,
    ⟨"validator_set", .struct plainTag
      [⟨"vaults", .struct plainTag [⟨"size", .primitive .u64⟩]⟩]⟩]

/-- The same after an upgrade: one more field, and all of them the other way round. -/
def upgradedVault : List MoveFieldLayout := (⟨"owner", .primitive .address⟩ :: vaultLayout).reverse

def vaultBytes : List Byte :=
  5 :: List.replicate 7 0 ++ 6 :: List.replicate 7 0 ++ 7 :: List.replicate 7 0

def upgradedVaultBytes : List Byte :=
  7 :: List.replicate 7 0 ++ 6 :: List.replicate 7 0 ++ 5 :: List.replicate 39 0

def holder (n : U64) : MoveValue :=
  .struct plainTag [("balance", .struct plainTag [("value", .u64 n)])]

def vaultValues : List (String × MoveValue) :=
  [("pending", holder 5), ("collectable_fee", holder 6),
    ("validator_set", .struct plainTag [("vaults", .struct plainTag [("size", .u64 7)])])]

def upgradedVaultValues : List (String × MoveValue) :=
  (("owner", .address 0) :: vaultValues).reverse

theorem decodeVenue_by_name_vault :
    (decodeVenue (decoders plainBytes fun _ => 0) vaultBytes vaultTag
        (.struct vaultTag vaultLayout)).toOption =
      (decodeVenue (decoders plainBytes fun _ => 0) upgradedVaultBytes vaultTag
        (.struct vaultTag upgradedVault)).toOption ∧
    decodeVenue (decoders plainBytes fun _ => 0) vaultBytes vaultTag
        (.struct vaultTag vaultLayout) = .ok (.volo ⟨5, 6, 7, [], []⟩) := by
  refine ⟨?_, by decide +kernel⟩
  have hread : plainBytes.deserialize (.struct vaultTag vaultLayout) vaultBytes =
      .ok (.struct vaultTag vaultValues) := rfl
  have hread' : plainBytes.deserialize (.struct vaultTag upgradedVault) upgradedVaultBytes =
      .ok (.struct vaultTag upgradedVaultValues) := rfl
  have hrefl : ∀ read ∈ venueReads .any .voloNativePool, ∀ v, read.2 v v := by
    simp [venueReads, SameHolder, SameValidators, SameFields]
  have hsame : SameVenue .any .voloNativePool (.struct vaultTag vaultValues)
      (.struct vaultTag upgradedVaultValues) := by
    refine .inl ⟨_, _, _, _, rfl, rfl, anyOrder_of_find hrefl ?_⟩
    simp only [venueReads, List.forall_mem_cons, List.not_mem_nil, false_implies, implies_true,
      and_true]
    exact ⟨rfl, rfl, rfl⟩
  refine (decodeVenue_by_name plainBytes (fun _ => 0) .any vaultTag hread hread' ?_ ?_ ?_).1
  · simp [DistinctNames, DistinctFields, vaultLayout, holderLayout]
  · simp [DistinctNames, DistinctFields, upgradedVault, vaultLayout, holderLayout]
  · intro kind hkind
    obtain rfl : VenueKind.voloNativePool = kind := Option.some.inj hkind
    exact hsame

/-! ### What the shape test is worth -/

section required
variable {S α : Type}

/-- The fields a decoder cannot do without, each with whether its state has noted it. -/
structure Requires (decoder : StructDecoder S α) (fields : List (String × (S → Bool))) :
    Prop where
  start : ∀ f ∈ fields, f.2 decoder.start = false
  known : ∀ f ∈ fields, (find decoder.arms f.1).isSome = true
  notes : ∀ f ∈ fields, Notes decoder.arms f.1 f.2
  ok : ∀ s a, decoder.finish s = .ok a → ∀ f ∈ fields, f.2 s = true
  error : ∀ s e, decoder.finish s = .error e → ∃ f ∈ fields, f.2 s = false

/-- A decoder takes a struct only if all it requires is there, and if it is all there it
fails only as one of the fields fails. -/
theorem Requires.exact {decoder : StructDecoder S α} {fields : List (String × (S → Bool))}
    (h : Requires decoder fields) (type : StructTag) (values : List (String × MoveValue)) :
    (∀ a, structVisitor decoder (.struct type values) = .ok a →
      ∀ f ∈ fields, f.1 ∈ values.map Prod.fst) ∧
    ((∀ f ∈ fields, f.1 ∈ values.map Prod.fst) →
      ∀ e, structVisitor decoder (.struct type values) = .error e →
        ∃ value ∈ values, ∃ arm, find decoder.arms value.1 = some arm ∧
          arm value.2 = .error e) := by
  have hnoted : ∀ f ∈ fields, ∀ t,
      values.foldlM (readField decoder.arms) decoder.start = .ok t →
        (f.2 t = true ↔ f.1 ∈ values.map Prod.fst) := by
    intro f hf t hfold
    rw [noted_foldlM (h.notes f hf) (h.known f hf) hfold, h.start f hf]
    simp
  rw [structVisitor_struct]
  constructor
  · intro a hok f hf
    obtain ⟨t, hfold, hfinish⟩ := bind_eq_ok_iff.mp hok
    exact (hnoted f hf t hfold).mp (h.ok t a hfinish f hf)
  · intro hall e herror
    cases hfold : values.foldlM (readField decoder.arms) decoder.start with
    | error e' =>
      rw [hfold, error_bind] at herror
      cases herror
      exact foldlM_error hfold
    | ok t =>
      rw [hfold, ok_bind] at herror
      obtain ⟨f, hf, hmissing⟩ := h.error t e herror
      rw [(hnoted f hf t hfold).mpr (hall f hf)] at hmissing
      cases hmissing

theorem assign_eq_ok {β : Type} {visitor : Visitor β} {set : S → β → S} {v : MoveValue}
    {update : S → S} (h : assign visitor set v = .ok update) :
    ∃ b, update = fun s => set s b := by
  unfold assign at h
  cases hvisit : visitor v with
  | error e =>
    rw [hvisit] at h
    cases h
  | ok b =>
    rw [hvisit] at h
    cases h
    exact ⟨b, rfl⟩

theorem required_eq_ok {β : Type} {value : Option β} {field : String} {b : β}
    (h : required value field = .ok b) : value.isSome = true := by
  rw [okOr_eq_ok_iff.mp h]
  rfl

theorem required_failsOnly {β : Type} {value : Option β} {field : String} {P : Prop}
    (h : value.isSome = false → P) : FailsOnly (fun _ => P) (required value field) := by
  cases value with
  | none => exact .error (h rfl)
  | some b => exact .ok b

end required

def voloRequired : List (String × (VoloFields → Bool)) :=
  [("pending", fun s => s.pending.isSome), ("collectable_fee", fun s => s.collectableFee.isSome),
    ("validator_set", fun s => s.validatorSet.isSome)]

def poolRequired : List (String × (PoolFields → Bool)) :=
  [("coin_a", fun s => s.coinA.isSome), ("coin_b", fun s => s.coinB.isSome),
    ("tick_spacing", fun s => s.tickSpacing.isSome), ("fee_rate", fun s => s.feeRate.isSome),
    ("liquidity", fun s => s.liquidity.isSome), ("current_sqrt_price", fun s => s.sqrtPrice.isSome),
    ("current_tick_index", fun s => s.tick.isSome),
    ("fee_growth_global_a", fun s => s.feeGrowthGlobalA.isSome),
    ("fee_growth_global_b", fun s => s.feeGrowthGlobalB.isSome),
    ("tick_manager", fun s => s.ticks.isSome), ("is_pause", fun s => s.isPaused.isSome)]

theorem volo_notes : ∀ f ∈ voloRequired, Notes voloPoolDecoder.arms f.1 f.2 := by
  simp only [voloRequired, voloPoolDecoder, Notes, List.forall_mem_cons, List.not_mem_nil,
    false_implies, implies_true, and_true]
  and_intros
  all_goals
    intro v update hupdate s
    obtain ⟨b, rfl⟩ := assign_eq_ok hupdate
    simp

theorem pool_notes : ∀ f ∈ poolRequired, Notes cetusPoolDecoder.arms f.1 f.2 := by
  simp only [poolRequired, cetusPoolDecoder, Notes, List.forall_mem_cons, List.not_mem_nil,
    false_implies, implies_true, and_true]
  and_intros
  all_goals
    intro v update hupdate s
    obtain ⟨b, rfl⟩ := assign_eq_ok hupdate
    simp

theorem volo_requires : Requires voloPoolDecoder voloRequired where
  start := by simp [voloRequired, voloPoolDecoder]
  known := by simp [voloRequired, voloPoolDecoder, find]
  notes := volo_notes
  ok := by
    intro s a h
    obtain ⟨_, hset, h⟩ := bind_eq_ok_iff.mp h
    obtain ⟨_, hpending, h⟩ := bind_eq_ok_iff.mp h
    obtain ⟨_, hfee, h⟩ := bind_eq_ok_iff.mp h
    simp [voloRequired, required_eq_ok hset, required_eq_ok hpending, required_eq_ok hfee]
  error := by
    intro s e
    have hmem : ∀ f ∈ voloRequired, f.2 s = false → ∃ f ∈ voloRequired, f.2 s = false :=
      fun f hf hmissing => ⟨f, hf, hmissing⟩
    simp only [voloRequired, List.forall_mem_cons] at hmem
    obtain ⟨hpending, hfee, hset, -⟩ := hmem
    refine FailsOnly.bind (required_failsOnly hset) (fun _ _ =>
      .bind (required_failsOnly hpending) fun _ _ =>
        .bind (required_failsOnly hfee) fun _ _ => .ok _) e

theorem pool_requires : Requires cetusPoolDecoder poolRequired where
  start := by simp [poolRequired, cetusPoolDecoder]
  known := by simp [poolRequired, cetusPoolDecoder, find]
  notes := pool_notes
  ok := by
    intro s a h
    obtain ⟨_, h₁, h⟩ := bind_eq_ok_iff.mp h
    obtain ⟨_, h₂, h⟩ := bind_eq_ok_iff.mp h
    obtain ⟨_, h₃, h⟩ := bind_eq_ok_iff.mp h
    obtain ⟨_, h₄, h⟩ := bind_eq_ok_iff.mp h
    obtain ⟨_, h₅, h⟩ := bind_eq_ok_iff.mp h
    obtain ⟨_, h₆, h⟩ := bind_eq_ok_iff.mp h
    obtain ⟨_, h₇, h⟩ := bind_eq_ok_iff.mp h
    obtain ⟨_, h₈, h⟩ := bind_eq_ok_iff.mp h
    obtain ⟨_, h₉, h⟩ := bind_eq_ok_iff.mp h
    obtain ⟨_, h₁₀, h⟩ := bind_eq_ok_iff.mp h
    obtain ⟨_, h₁₁, h⟩ := bind_eq_ok_iff.mp h
    simp [poolRequired, required_eq_ok h₁, required_eq_ok h₂, required_eq_ok h₃,
      required_eq_ok h₄, required_eq_ok h₅, required_eq_ok h₆, required_eq_ok h₇,
      required_eq_ok h₈, required_eq_ok h₉, required_eq_ok h₁₀, required_eq_ok h₁₁]
  error := by
    intro s e
    have hmem : ∀ f ∈ poolRequired, f.2 s = false → ∃ f ∈ poolRequired, f.2 s = false :=
      fun f hf hmissing => ⟨f, hf, hmissing⟩
    simp only [poolRequired, List.forall_mem_cons] at hmem
    obtain ⟨h₁, h₂, h₃, h₄, h₅, h₆, h₇, h₈, h₉, h₁₀, h₁₁, -⟩ := hmem
    refine FailsOnly.bind (required_failsOnly h₁) (fun _ _ =>
      .bind (required_failsOnly h₂) fun _ _ => .bind (required_failsOnly h₃) fun _ _ =>
      .bind (required_failsOnly h₄) fun _ _ => .bind (required_failsOnly h₅) fun _ _ =>
      .bind (required_failsOnly h₆) fun _ _ => .bind (required_failsOnly h₇) fun _ _ =>
      .bind (required_failsOnly h₈) fun _ _ => .bind (required_failsOnly h₉) fun _ _ =>
      .bind (required_failsOnly h₁₀) fun _ _ => .bind (required_failsOnly h₁₁) fun _ _ =>
      .ok _) e

/-- A field of the struct that the decoder knows by name fails with the error. -/
def VisitFails {S α : Type} (decoder : StructDecoder S α) (value : MoveValue) (e : DecodeError) :
    Prop :=
  ∃ type values, value = .struct type values ∧ ∃ field ∈ values,
    ∃ arm, find decoder.arms field.1 = some arm ∧ arm field.2 = .error e

/-- The shape test refuses nothing the decoder would take, and what passes it can fail in
the decoder only as one of its fields fails. -/
def Gated {S α : Type} (framework : Framework) (decoder : StructDecoder S α) (kind : VenueKind) :
    Prop :=
  ∀ type fields bytes value, framework.deserialize (.struct type fields) bytes = .ok value →
    (∀ a, venueOf framework decoder bytes (.struct type fields) = .ok a →
      layoutHasShape kind fields = true) ∧
    (layoutHasShape kind fields = true → ∀ e,
      venueOf framework decoder bytes (.struct type fields) = .error e →
        ∃ e', e = .decode e' ∧ VisitFails decoder value e')

theorem venueOf_read {S α : Type} {framework : Framework} {decoder : StructDecoder S α}
    {type : StructTag} {fields : List MoveFieldLayout} {bytes : List Byte} {value : MoveValue}
    (h : framework.deserialize (.struct type fields) bytes = .ok value) :
    venueOf framework decoder bytes (.struct type fields) =
      (structVisitor decoder value).mapError .decode := by
  simp only [venueOf, decodeStruct, h]

theorem mapError_eq_error {α : Type} {x : Except DecodeError α} {e : VenueError}
    (h : x.mapError VenueError.decode = .error e) : ∃ e', x = .error e' ∧ e = .decode e' := by
  cases x with
  | error e' =>
    cases h
    exact ⟨e', rfl, rfl⟩
  | ok a => cases h

/-- A decoder that requires what the shape test asks for is gated by it. -/
theorem Requires.gated {S α : Type} {decoder : StructDecoder S α}
    {required : List (String × (S → Bool))} (h : Requires decoder required) {kind : VenueKind}
    (hkind : requiredFields kind = required.map Prod.fst) (framework : Framework) :
    Gated framework decoder kind := by
  intro type fields bytes value hread
  have hlayout := framework.hasLayout hread
  obtain ⟨values, rfl⟩ := exists_fields hlayout
  obtain ⟨hneeds, hfails⟩ := h.exact type values
  have hshape : layoutHasShape kind fields = true ↔
      ∀ f ∈ required, f.1 ∈ values.map Prod.fst := by
    rw [layoutHasShape_iff_value hlayout, hkind]
    simp
  rw [venueOf_read hread]
  constructor
  · intro a hok
    rw [hshape]
    apply hneeds a
    cases hvisit : structVisitor decoder (.struct type values) with
    | error e =>
      rw [hvisit] at hok
      cases hok
    | ok b =>
      rw [hvisit] at hok
      cases hok
      rfl
  · intro hall e herror
    obtain ⟨e', hvisit, rfl⟩ := mapError_eq_error herror
    exact ⟨e', rfl, type, values, rfl, hfails (hshape.mp hall) e' hvisit⟩

/-- The shape test and the decoders never disagree about the pool and the vault. The ledger's
decoder requires nothing: it fails only as one of its fields fails, and takes a struct with
none of them for an empty ledger. -/
theorem shape_exact (framework : Framework) :
    Gated framework cetusPoolDecoder .cetusClmm ∧
      Gated framework voloPoolDecoder .voloNativePool ∧
      ∀ type fields bytes value,
        framework.deserialize (.struct type fields) bytes = .ok value →
        (∀ e, venueOf framework naviStorageDecoder bytes (.struct type fields) = .error e →
          ∃ e', e = .decode e' ∧ VisitFails naviStorageDecoder value e') ∧
        ((∀ field ∈ fields, find naviStorageDecoder.arms field.name = none) →
          venueOf framework naviStorageDecoder bytes (.struct type fields) =
            .ok emptyStorage) := by
  refine ⟨pool_requires.gated rfl framework, volo_requires.gated rfl framework, ?_⟩
  intro type fields bytes value hread
  have hlayout := framework.hasLayout hread
  obtain ⟨values, rfl⟩ := exists_fields hlayout
  rw [venueOf_read hread]
  constructor
  · intro e herror
    obtain ⟨e', hvisit, rfl⟩ := mapError_eq_error herror
    refine ⟨e', rfl, type, values, rfl, ?_⟩
    rw [structVisitor_struct] at hvisit
    cases hfold : values.foldlM (readField naviStorageDecoder.arms) naviStorageDecoder.start with
    | error e'' =>
      rw [hfold, error_bind] at hvisit
      cases hvisit
      exact foldlM_error hfold
    | ok s =>
      rw [hfold, ok_bind] at hvisit
      cases hvisit
  · intro hunknown
    have hnames := names_of_haveLayouts fields values hlayout.2
    have hknown : known naviStorageDecoder.arms values = [] := by
      rw [known, List.filter_eq_nil_iff]
      intro field hfield
      have hname : field.1 ∈ fields.map FieldOver.name := by
        rw [← hnames]
        exact List.mem_map_of_mem hfield
      obtain ⟨layout, hmem, hsame⟩ := List.mem_map.mp hname
      rw [← hsame, hunknown layout hmem]
      simp
    rw [structVisitor_struct, foldlM_known, hknown]
    rfl

end VenueDecoders
