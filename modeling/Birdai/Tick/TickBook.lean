import Birdai.Amm.PricingSpecs
import Birdai.Tick.TickIndex

/-!
# Books of initialised ticks

What an accepted index is for: the boundaries of a pool in tick order, each with
a price that the tick math vouches for. Prices then follow ticks, and the
neighbour lookups of the index are the neighbours of the book.
-/

namespace TickBook

open WideArith Outcomes SwapExactIn PricingSpecs TickMath OrderedKeys TickIndex

/-- The boundaries of a pool, in tick order, at prices close to the tick math's. -/
structure Book where
  boundaries : List Boundary
  ordered : boundaries.Pairwise fun a b => a.tick < b.tick
  inRange : ∀ b ∈ boundaries, minTick ≤ b.tick ∧ b.tick ≤ maxTick
  close : ∀ b ∈ boundaries,
    b.sqrtPrice.val ≤ priceAt b.tick + toleranceAt (priceAt b.tick) ∧
      priceAt b.tick ≤ b.sqrtPrice.val + toleranceAt (priceAt b.tick)

namespace Book
variable (book : Book)

/-- The boundaries in the order a swap meets them. -/
def travel (d : Direction) : List Boundary :=
  match d with
  | .bToA => book.boundaries
  | .aToB => book.boundaries.reverse

theorem mem_travel {d : Direction} {b : Boundary} : b ∈ book.travel d ↔ b ∈ book.boundaries := by
  cases d with
  | bToA => exact Iff.rfl
  | aToB => exact List.mem_reverse

/-- Met later in the direction of travel. -/
abbrev Before (d : Direction) (a b : Boundary) : Prop := along d a.tick < along d b.tick

instance (d : Direction) : Std.Irrefl (Before d) := ⟨fun _ => lt_irrefl _⟩

instance (d : Direction) : Std.Antisymm (Before d) := ⟨fun _ _ h h' => absurd h h'.not_gt⟩

theorem travel_ordered (d : Direction) : (book.travel d).Pairwise (Before d) := by
  cases d with
  | bToA => exact book.ordered
  | aToB =>
    apply (List.pairwise_reverse.mpr book.ordered).imp
    intro a b h
    simp only [Before, along]
    omega

/-- A stored price stays below the tick math's price of every higher tick. -/
theorem price_lt_priceAt {b : Boundary} (hb : b ∈ book.boundaries) {tick : ℤ}
    (hlt : b.tick < tick) (hmax : tick ≤ maxTick) : b.sqrtPrice.val < priceAt tick :=
  (book.close b hb).1.trans_lt (priceAt_strictMono (book.inRange b hb).1 hlt hmax)

theorem priceAt_lt_price {b : Boundary} (hb : b ∈ book.boundaries) {tick : ℤ}
    (hmin : minTick ≤ tick) (hlt : tick + 1 < b.tick) : priceAt (tick + 1) < b.sqrtPrice.val := by
  have hclose := (book.close b hb).2
  have hmax := (book.inRange b hb).2
  have hgap := priceAt_gap (show minTick ≤ b.tick - 1 by omega) (show b.tick - 1 < maxTick by omega)
  rw [Int.sub_add_cancel] at hgap
  rcases Int.lt_or_eq_of_le (show tick + 1 ≤ b.tick - 1 by omega) with hfar | hnear
  · have := priceAt_strictMono (show minTick ≤ tick + 1 by omega) hfar (by omega)
    omega
  · rw [hnear]
    omega

/-- Stored prices follow the ticks. -/
theorem price_lt_price {a b : Boundary} (ha : a ∈ book.boundaries) (hb : b ∈ book.boundaries)
    (hlt : a.tick < b.tick) : a.sqrtPrice.val < b.sqrtPrice.val := by
  have hmin := (book.inRange a ha).1
  have hmax := (book.inRange b hb).2
  have hgap := priceAt_gap (show minTick ≤ b.tick - 1 by omega) (show b.tick - 1 < maxTick by omega)
  rw [Int.sub_add_cancel] at hgap
  have ha := (book.close a ha).1
  have hb := (book.close b hb).2
  rcases Int.lt_or_eq_of_le (show a.tick ≤ b.tick - 1 by omega) with hfar | hnear
  · have := priceAt_strictMono hmin hfar (by omega)
    omega
  · rw [← hnear] at hgap
    omega

theorem reach_lt_reach {d : Direction} {a b : Boundary} (ha : a ∈ book.boundaries)
    (hb : b ∈ book.boundaries) (hlt : Before d a b) :
    reach d a.sqrtPrice < reach d b.sqrtPrice := by
  cases d with
  | bToA => exact Int.ofNat_lt.mpr (book.price_lt_price ha hb hlt)
  | aToB =>
    have hprice := book.price_lt_price hb ha (by simp only [Before, along] at hlt; omega)
    simp only [reach, along]
    omega

theorem eq_of_tick_eq {a b : Boundary} (ha : a ∈ book.boundaries) (hb : b ∈ book.boundaries)
    (htick : a.tick = b.tick) : a = b := by
  have hnodup : (book.boundaries.map Boundary.tick).Nodup :=
    List.pairwise_map.mpr (book.ordered.imp fun hlt => hlt.ne)
  exact List.inj_on_of_nodup_map hnodup ha hb htick

/-- The nearest boundary strictly past a tick, in the direction of travel. -/
def next (d : Direction) (tick : ℤ) : Option Boundary :=
  (book.travel d).find? fun b => along d tick < along d b.tick

theorem next_eq_some_iff {d : Direction} {tick : ℤ} {b : Boundary} :
    book.next d tick = some b ↔ b ∈ book.boundaries ∧ along d tick < along d b.tick ∧
      ∀ a ∈ book.boundaries, along d tick < along d a.tick → along d b.tick ≤ along d a.tick := by
  simp only [← book.mem_travel (d := d)]
  exact find?_eq_some_iff_least (book.travel_ordered d)

theorem next_eq_none_iff {d : Direction} {tick : ℤ} :
    book.next d tick = none ↔ ∀ b ∈ book.boundaries, ¬ along d tick < along d b.tick := by
  simp only [next]
  simp [List.find?_eq_none, book.mem_travel]

/-- The book as a tick source. -/
def source : TickSource where
  nextBoundaryUp := book.next .bToA
  nextBoundaryDown := book.next .aToB

end Book

/-! ### Looking up nodes by their tick -/

theorem lookup_positions {κ : Type} [DecidableEq κ] {key : TickNode → κ} {nodes : List TickNode}
    (hnodup : (nodes.map key).Nodup) {k : κ} {position : ℕ} :
    (positions key nodes).lookup k = some position ↔
      ∃ n, nodes[position]? = some n ∧ key n = k := by
  have hkeys : (nodes.zipIdx.map fun e => (key e.1, e.2)).map Prod.fst = nodes.map key := by
    rw [List.map_map, show Prod.fst ∘ (fun e : TickNode × ℕ => (key e.1, e.2)) =
      key ∘ Prod.fst from rfl, ← List.map_map, List.zipIdx_map_fst]
  rw [positions, lookup_ofEntries (hkeys ▸ hnodup), List.mem_map]
  constructor
  · rintro ⟨⟨n, p⟩, hmem, he⟩
    cases he
    exact ⟨n, List.mem_zipIdx_iff_getElem?.mp hmem, rfl⟩
  · rintro ⟨n, hn, rfl⟩
    exact ⟨(n, position), List.mem_zipIdx_iff_getElem?.mpr hn, rfl⟩

theorem mem_positions {κ : Type} [DecidableEq κ] {key : TickNode → κ} {nodes : List TickNode}
    {k : κ} : k ∈ positions key nodes ↔ ∃ n ∈ nodes, key n = k := by
  rw [positions, mem_ofEntries]
  simp only [List.mem_map]
  constructor
  · rintro ⟨_, ⟨⟨n, position⟩, hmem, rfl⟩, hkey⟩
    exact ⟨n, List.mem_of_getElem? (List.mem_zipIdx_iff_getElem?.mp hmem), hkey⟩
  · rintro ⟨n, hn, hkey⟩
    obtain ⟨position, hposition⟩ := List.mem_iff_getElem?.mp hn
    exact ⟨_, ⟨(n, position), List.mem_zipIdx_iff_getElem?.mpr hposition, rfl⟩, hkey⟩

/-- The tick map tells where each node stands, whatever the order of the nodes. -/
structure Located (t : Ticks) : Prop where
  lookup_byTick : ∀ {tick : ℤ} {position : ℕ}, t.byTick.lookup tick = some position ↔
    ∃ n, t.nodes[position]? = some n ∧ n.index = tick

namespace Located
variable {t : Ticks} (h : Located t)
include h

theorem mem_byTick {tick : ℤ} : tick ∈ t.byTick ↔ ∃ n ∈ t.nodes, n.index = tick := by
  rw [Finmap.mem_iff]
  simp only [h.lookup_byTick]
  constructor
  · rintro ⟨position, n, hn, hindex⟩
    exact ⟨n, List.mem_of_getElem? hn, hindex⟩
  · rintro ⟨n, hn, hindex⟩
    obtain ⟨position, hposition⟩ := List.mem_iff_getElem?.mp hn
    exact ⟨position, n, hposition, hindex⟩

theorem nodeAt_eq_some_iff {tick : Option ℤ} {n : TickNode} :
    t.nodeAt tick = some n ↔ n ∈ t.nodes ∧ tick = some n.index := by
  simp only [Ticks.nodeAt, Option.bind_eq_some_iff]
  constructor
  · rintro ⟨position, ⟨k, rfl, hlookup⟩, hn⟩
    obtain ⟨m, hm, rfl⟩ := h.lookup_byTick.mp hlookup
    obtain rfl := Option.some.inj (hm.symm.trans hn)
    exact ⟨List.mem_of_getElem? hn, rfl⟩
  · rintro ⟨hn, rfl⟩
    obtain ⟨position, hposition⟩ := List.mem_iff_getElem?.mp hn
    exact ⟨position, ⟨_, rfl, h.lookup_byTick.mpr ⟨n, hposition, rfl⟩⟩, hposition⟩

theorem least_iff {p : ℤ → Prop} [DecidablePred p] {n : TickNode} :
    t.nodeAt (leastKey t.byTick p) = some n ↔ n ∈ t.nodes ∧ p n.index ∧
      ∀ m ∈ t.nodes, p m.index → n.index ≤ m.index := by
  rw [h.nodeAt_eq_some_iff, leastKey_eq_some_iff, h.mem_byTick]
  constructor
  · rintro ⟨hn, _, hp, hleast⟩
    exact ⟨hn, hp, fun m hm => hleast m.index (h.mem_byTick.mpr ⟨m, hm, rfl⟩)⟩
  · rintro ⟨hn, hp, hleast⟩
    refine ⟨hn, ⟨n, hn, rfl⟩, hp, ?_⟩
    intro j hj hp
    obtain ⟨m, hm, rfl⟩ := h.mem_byTick.mp hj
    exact hleast m hm hp

theorem greatest_iff {p : ℤ → Prop} [DecidablePred p] {n : TickNode} :
    t.nodeAt (greatestKey t.byTick p) = some n ↔ n ∈ t.nodes ∧ p n.index ∧
      ∀ m ∈ t.nodes, p m.index → m.index ≤ n.index := by
  rw [h.nodeAt_eq_some_iff, greatestKey_eq_some_iff, h.mem_byTick]
  constructor
  · rintro ⟨hn, _, hp, hgreatest⟩
    exact ⟨hn, hp, fun m hm => hgreatest m.index (h.mem_byTick.mpr ⟨m, hm, rfl⟩)⟩
  · rintro ⟨hn, hp, hgreatest⟩
    refine ⟨hn, ⟨n, hn, rfl⟩, hp, ?_⟩
    intro j hj hp
    obtain ⟨m, hm, rfl⟩ := h.mem_byTick.mp hj
    exact hgreatest m hm hp

theorem nodeAt_eq_none_iff {tick : Option ℤ} (htick : ∀ k, tick = some k → k ∈ t.byTick) :
    t.nodeAt tick = none ↔ tick = none := by
  cases tick with
  | none => exact ⟨fun _ => rfl, fun _ => rfl⟩
  | some k =>
    obtain ⟨n, hn, hindex⟩ := h.mem_byTick.mp (htick k rfl)
    have hfound := h.nodeAt_eq_some_iff.mpr ⟨hn, congrArg some hindex.symm⟩
    simp [hfound]

theorem least_none_iff {p : ℤ → Prop} [DecidablePred p] :
    t.nodeAt (leastKey t.byTick p) = none ↔ ∀ m ∈ t.nodes, ¬ p m.index := by
  rw [h.nodeAt_eq_none_iff fun k hk => (leastKey_eq_some_iff.mp hk).1, leastKey_eq_none_iff]
  simp only [h.mem_byTick]
  grind

theorem greatest_none_iff {p : ℤ → Prop} [DecidablePred p] :
    t.nodeAt (greatestKey t.byTick p) = none ↔ ∀ m ∈ t.nodes, ¬ p m.index := by
  rw [h.nodeAt_eq_none_iff fun k hk => (greatestKey_eq_some_iff.mp hk).1,
    greatestKey_eq_none_iff]
  simp only [h.mem_byTick]
  grind

end Located

/-! ### From an accepted index to its book -/

/-- What insertion keeps: every node is filed under its own key, and no tick twice. -/
structure Filed (t : Ticks) : Prop where
  scored : ∀ n ∈ t.nodes, checkedScoreFromTick n.tick.index = some n.score
  known : ∀ n ∈ t.nodes, n.score ∈ t.byScore
  distinct : t.nodes.Pairwise fun a b => a.index ≠ b.index

theorem filed_insert {t t' : Ticks} {node : TickNode} (h : Filed t)
    (hinsert : t.insert node = .ok t') : Filed t' := by
  obtain ⟨expected, hscore, hinsert⟩ := bind_eq_ok_iff.mp hinsert
  rw [okOr_eq_ok_iff] at hscore
  split at hinsert
  · cases hinsert
  · rename_i heq
    split at hinsert
    · cases hinsert
    · rename_i hfresh
      cases hinsert
      rw [not_not] at heq
      subst heq
      refine ⟨?_, ?_, ?_⟩
      · simp only [List.mem_append, List.mem_singleton]
        rintro n (hn | rfl)
        · exact h.scored n hn
        · exact hscore
      · simp only [List.mem_append, List.mem_singleton, Finmap.mem_insert]
        rintro n (hn | rfl)
        · exact .inr (h.known n hn)
        · exact .inl rfl
      · simp only [List.pairwise_append, List.mem_singleton, List.pairwise_singleton, true_and]
        refine ⟨h.distinct, ?_⟩
        intro a ha n hn hindex
        rw [hn] at hindex
        have hsame : a.score = node.score := by
          have ha' := h.scored a ha
          rw [Subtype.ext hindex] at ha'
          exact Option.some.inj (ha'.symm.trans hscore)
        exact hfresh (hsame ▸ h.known a ha)

instance : Std.Total fun a b : TickNode => a.index ≤ b.index := ⟨fun _ _ => le_total _ _⟩

instance : IsTrans TickNode fun a b => a.index ≤ b.index := ⟨fun _ _ _ => le_trans⟩

theorem reindexed_ordered {t : Ticks} (h : Filed t) :
    t.reindexed.nodes.Pairwise fun a b => a.index < b.index := by
  have hsorted := List.pairwise_insertionSort (fun a b : TickNode => a.index ≤ b.index) t.nodes
  have hperm := List.perm_insertionSort (fun a b : TickNode => a.index ≤ b.index) t.nodes
  have hdistinct : t.reindexed.nodes.Pairwise fun a b => a.index ≠ b.index :=
    (hperm.pairwise_iff fun hab => hab.symm).mpr h.distinct
  exact hsorted.imp₂ (fun _ _ hle hne => lt_of_le_of_ne hle hne) hdistinct

theorem priceDeviation_close {stored computed : U128}
    (h : (priceDeviation stored computed).natAbs ≤ (tickPriceTolerance computed).val) :
    stored.val ≤ computed.val + toleranceAt computed.val ∧
      computed.val ≤ stored.val + toleranceAt computed.val := by
  rw [tickPriceTolerance_val] at h
  have htol := toleranceAt_le computed.val
  have hlt := computed.isLt
  unfold priceDeviation saturatingI128 at h
  split at h
  · rename_i hle
    have hle : computed.val ≤ stored.val := hle
    split at h
    · omega
    · omega
  · rename_i hlt
    have hlt : ¬ computed.val ≤ stored.val := hlt
    split at h
    · omega
    · omega

theorem checkPrice_ok {node : TickNode} {deviation : ℤ}
    (h : Ticks.checkPrice node = .ok deviation) :
    minTick ≤ node.index ∧ node.index ≤ maxTick ∧
      node.tick.sqrtPrice.val ≤ priceAt node.index + toleranceAt (priceAt node.index) ∧
      priceAt node.index ≤ node.tick.sqrtPrice.val + toleranceAt (priceAt node.index) := by
  unfold Ticks.checkPrice at h
  split at h
  · cases h
  · rename_i computed hcomputed
    obtain ⟨hmin, hmax, hval⟩ := sqrtPriceAtTick_eq_ok hcomputed
    dsimp only at h
    split at h
    · cases h
    · rename_i htol
      rw [← hval]
      exact ⟨hmin, hmax, priceDeviation_close (not_lt.mp htol)⟩

/-- What the constructors leave: nodes in tick order, a map that finds them, and
prices that passed. -/
structure Indexed (t : Ticks) : Prop where
  ordered : t.nodes.Pairwise fun a b => a.index < b.index
  byTick : t.byTick = positions TickNode.index t.nodes
  priced : ∀ n ∈ t.nodes, ∃ deviation, Ticks.checkPrice n = .ok deviation

theorem insert_eq {t t' : Ticks} {node : TickNode} (h : t.insert node = .ok t') :
    t' = { t with
      byScore := t.byScore.insert node.score t.nodes.length
      byTick := t.byTick.insert node.index t.nodes.length
      nodes := t.nodes ++ [node] } := by
  obtain ⟨expected, _, h⟩ := bind_eq_ok_iff.mp h
  split at h
  · cases h
  · split at h
    · cases h
    · cases h
      rfl

theorem foldlM_insert_nodes {nodes : List TickNode} {t t' : Ticks}
    (h : nodes.foldlM Ticks.insert t = .ok t') : t'.nodes = t.nodes ++ nodes := by
  induction nodes generalizing t with
  | nil =>
    cases h
    exact (List.append_nil _).symm
  | cons node nodes ih =>
    rw [List.foldlM_cons] at h
    obtain ⟨filed, hinsert, h⟩ := bind_eq_ok_iff.mp h
    rw [ih h, insert_eq hinsert, List.append_assoc, List.singleton_append]

theorem validate_ok {t t' : Ticks} (h : t.validate = (.ok (), t')) :
    ∃ deviations, t.reindexed.check = .ok deviations ∧
      t' = { t.reindexed with priceDeviations := deviations } := by
  simp only [Ticks.validate] at h
  split at h
  · cases h
  · rename_i deviations hcheck
    cases h
    exact ⟨deviations, hcheck, rfl⟩

theorem checkLink_failsOnly {P : TickError → Prop} (hunordered : P .unordered)
    (hdangling : ∀ score neighbour, P (.danglingLink score neighbour)) (t : Ticks)
    (node : TickNode) (position : ℕ) : FailsOnly P (t.checkLink node position) := by
  intro e h
  unfold Ticks.checkLink at h
  split at h
  · cases h
  · dsimp only at h
    split at h
    · cases h
    · split at h
      · cases h
        exact hunordered
      · cases h
        exact hdangling _ _

theorem checkSize_failsOnly {P : TickError → Prop}
    (hsize : ∀ expected actual, P (.sizeMismatch expected actual)) (t : Ticks) :
    FailsOnly P t.checkSize := by
  intro e h
  unfold Ticks.checkSize at h
  split at h
  · split at h
    · cases h
      exact hsize _ _
    · cases h
  · cases h

/-- Validation fails with a size, a link or what a price check fails with. -/
theorem validate_failsOnly {P : TickError → Prop}
    (hsize : ∀ expected actual, P (.sizeMismatch expected actual)) (hunordered : P .unordered)
    (hdangling : ∀ score neighbour, P (.danglingLink score neighbour))
    (hprice : ∀ node, FailsOnly P (Ticks.checkPrice node)) (t : Ticks) :
    FailsOnly P t.validate.1 := by
  have hcheck : FailsOnly P t.reindexed.check :=
    .bind (checkSize_failsOnly hsize _) fun _ _ => .foldlM fun _ entry =>
      .bind (checkLink_failsOnly hunordered hdangling _ _ _) fun _ _ =>
        .bind (hprice entry.1) fun _ _ => .ok _
  intro e h
  unfold Ticks.validate at h
  split at h
  · rename_i hfail
    cases h
    exact hcheck e hfail
  · cases h

/-- A filled index was filed node by node and then passed its checks. -/
theorem fill_ok {t t' : Ticks} {nodes : List TickNode} (h : t.fill nodes = .ok t') :
    ∃ filled deviations, nodes.foldlM Ticks.insert t = .ok filled ∧
      filled.reindexed.check = .ok deviations ∧
      t' = { filled.reindexed with priceDeviations := deviations } := by
  obtain ⟨filled, hfilled, h⟩ := bind_eq_ok_iff.mp h
  generalize hvalidate : filled.validate = validated at h
  obtain ⟨outcome, after⟩ := validated
  cases outcome with
  | error e => cases h
  | ok done =>
    cases h
    obtain ⟨deviations, hcheck, rfl⟩ := validate_ok hvalidate
    exact ⟨filled, deviations, hfilled, hcheck, rfl⟩

theorem fill_perm {t t' : Ticks} {nodes : List TickNode} (h : t.fill nodes = .ok t') :
    t'.nodes.Perm (t.nodes ++ nodes) := by
  obtain ⟨filled, _, hfilled, _, rfl⟩ := fill_ok h
  rw [← foldlM_insert_nodes hfilled]
  exact List.perm_insertionSort _ _

theorem fill_indexed {t t' : Ticks} {nodes : List TickNode} (h : Filed t)
    (hfill : t.fill nodes = .ok t') : Indexed t' := by
  obtain ⟨filled, deviations, hfilled, hcheck, rfl⟩ := fill_ok hfill
  have hfiled := foldlM_invariant (fun _ _ _ => filed_insert) hfilled h
  refine ⟨reindexed_ordered hfiled, rfl, ?_⟩
  intro n hn
  obtain ⟨_, _, hcheck⟩ := bind_eq_ok_iff.mp hcheck
  obtain ⟨position, hposition⟩ := List.mem_iff_getElem?.mp hn
  have hmem : (n, position) ∈ filled.reindexed.nodes.zipIdx :=
    List.mem_zipIdx_iff_getElem?.mpr hposition
  obtain ⟨_, _, hstep⟩ := foldlM_step_of_mem hcheck hmem
  obtain ⟨_, _, hstep⟩ := bind_eq_ok_iff.mp hstep
  obtain ⟨deviation, hprice, _⟩ := bind_eq_ok_iff.mp hstep
  exact ⟨deviation, hprice⟩

theorem filed_empty (nodeUid : Option ObjectId) (declaredSize : Option U64) (strictSize : Bool) :
    Filed (Ticks.empty nodeUid declaredSize strictSize) where
  scored _ hn := absurd hn List.not_mem_nil
  known _ hn := absurd hn List.not_mem_nil
  distinct := List.Pairwise.nil

theorem accepted_indexed {t : Ticks} (h : t.Accepted) : Indexed t := by
  rcases h with ⟨nodeUid, declaredSize, nodes, h⟩ | ⟨nodeUid, declaredSize, nodes, skew, h⟩
  · exact fill_indexed (filed_empty _ _ _) h
  · obtain ⟨index, hfill, h⟩ := bind_eq_ok_iff.mp h
    cases h
    exact fill_indexed (filed_empty _ _ _) hfill

namespace Indexed
variable {t : Ticks} (h : Indexed t)
include h

theorem located : Located t where
  lookup_byTick := by
    intro tick position
    rw [h.byTick]
    exact lookup_positions (List.pairwise_map.mpr (h.ordered.imp fun hlt => hlt.ne))

theorem nextAbove_eq_some_iff {tick : ℤ} {n : TickNode} :
    t.nextAbove tick = some n ↔ n ∈ t.nodes ∧ tick < n.index ∧
      ∀ m ∈ t.nodes, tick < m.index → n.index ≤ m.index := h.located.least_iff

theorem nextBelow_eq_some_iff {tick : ℤ} {n : TickNode} :
    t.nextBelow tick = some n ↔ n ∈ t.nodes ∧ n.index < tick ∧
      ∀ m ∈ t.nodes, m.index < tick → m.index ≤ n.index := h.located.greatest_iff

/-- The book of an accepted index. -/
def book : Book where
  boundaries := t.nodes.map TickNode.boundary
  ordered := List.pairwise_map.mpr h.ordered
  inRange := by
    intro b hb
    obtain ⟨n, hn, rfl⟩ := List.mem_map.mp hb
    obtain ⟨_, hprice⟩ := h.priced n hn
    exact ⟨(checkPrice_ok hprice).1, (checkPrice_ok hprice).2.1⟩
  close := by
    intro b hb
    obtain ⟨n, hn, rfl⟩ := List.mem_map.mp hb
    obtain ⟨_, hprice⟩ := h.priced n hn
    exact (checkPrice_ok hprice).2.2

theorem nextAbove_boundary (tick : ℤ) :
    (t.nextAbove tick).map TickNode.boundary = h.book.next .bToA tick := by
  ext b
  rw [h.book.next_eq_some_iff, Option.map_eq_some_iff]
  simp only [along, book, List.forall_mem_map, h.nextAbove_eq_some_iff]
  rw [List.mem_map]
  constructor
  · rintro ⟨n, ⟨hn, hlt, hleast⟩, rfl⟩
    exact ⟨⟨n, hn, rfl⟩, hlt, hleast⟩
  · rintro ⟨⟨n, hn, rfl⟩, hlt, hleast⟩
    exact ⟨n, ⟨hn, hlt, hleast⟩, rfl⟩

theorem nextBelow_boundary (tick : ℤ) :
    (t.nextBelow tick).map TickNode.boundary = h.book.next .aToB tick := by
  ext b
  rw [h.book.next_eq_some_iff, Option.map_eq_some_iff]
  simp only [along, neg_lt_neg_iff, neg_le_neg_iff, book, List.forall_mem_map,
    h.nextBelow_eq_some_iff]
  rw [List.mem_map]
  constructor
  · rintro ⟨n, ⟨hn, hlt, hgreatest⟩, rfl⟩
    exact ⟨⟨n, hn, rfl⟩, hlt, hgreatest⟩
  · rintro ⟨⟨n, hn, rfl⟩, hlt, hgreatest⟩
    exact ⟨n, ⟨hn, hlt, hgreatest⟩, rfl⟩

theorem next_boundary (d : Direction) (tick : ℤ) :
    (t.next d tick).map TickNode.boundary = h.book.next d tick := by
  cases d with
  | bToA => exact h.nextAbove_boundary tick
  | aToB => exact h.nextBelow_boundary tick

/-- An accepted index answers as its book does. -/
theorem source_eq : t.source = h.book.source := by
  unfold Ticks.source Book.source
  congr 1
  · exact funext h.nextAbove_boundary
  · exact funext h.nextBelow_boundary

end Indexed

/-! ### A small book -/

/-- A level-0 node of the skip list that carries nothing but its price and net. -/
def plainNode (index : I32) (score : U64) (sqrtPrice : U128) (liquidityNet : I128)
    (nexts : List U64) : TickNode :=
  { score
    nexts
    prev := none
    tick :=
      { index
        sqrtPrice
        liquidityNet
        liquidityGross := 1000000
        feeGrowthOutsideA := 0
        feeGrowthOutsideB := 0
        pointsGrowthOutside := 0
        rewardsGrowthOutside := [] } }

/-- A plain node from integers, where they are in range. -/
def nodeFrom (index : ℤ) (score : U64) (sqrtPrice : U128) (liquidityNet : ℤ)
    (nexts : List U64) : TickNode :=
  plainNode (if h : -2 ^ 31 ≤ index ∧ index < 2 ^ 31 then ⟨index, h⟩ else 0) score sqrtPrice
    (if h : -2 ^ 127 ≤ liquidityNet ∧ liquidityNet < 2 ^ 127 then ⟨liquidityNet, h⟩
      else ⟨0, by decide⟩) nexts

/-- A position over `[-100, 100)` and one over `[0, 100)`, at the tick math's prices. -/
def twoPositions : List TickNode :=
  [plainNode ⟨-100, by decide⟩ 443536 18354745142194483563 ⟨600000, by decide⟩ [443636],
   plainNode 0 443636 18446744073709551616 ⟨400000, by decide⟩ [443736],
   plainNode ⟨100, by decide⟩ 443736 18539204128674405812 ⟨-1000000, by decide⟩ []]

def twoPositionsIndex : Ticks :=
  { nodeUid := none
    nodes := twoPositions
    byTick := positions TickNode.index twoPositions
    byScore := positions TickNode.score twoPositions
    declaredSize := some 3
    strictSize := true
    priceDeviations := Finmap.singleton 0 3 }

theorem twoPositionsIndex_accepted : twoPositionsIndex.Accepted :=
  .inl ⟨none, some 3, twoPositions, by decide +kernel⟩

/-! ### Tick order is price order -/

/-- One of the two constructors built the index from these nodes. -/
def AcceptedFrom (nodes : List TickNode) (t : Ticks) : Prop :=
  (∃ nodeUid declaredSize, Ticks.new nodeUid declaredSize nodes = .ok t) ∨
    ∃ nodeUid declaredSize skew, Ticks.fromChildren nodeUid declaredSize nodes = .ok (t, skew)

theorem AcceptedFrom.accepted {nodes : List TickNode} {t : Ticks} (h : AcceptedFrom nodes t) :
    t.Accepted := by
  rcases h with ⟨nodeUid, declaredSize, h⟩ | ⟨nodeUid, declaredSize, skew, h⟩
  · exact .inl ⟨nodeUid, declaredSize, nodes, h⟩
  · exact .inr ⟨nodeUid, declaredSize, nodes, skew, h⟩

theorem AcceptedFrom.perm {nodes : List TickNode} {t : Ticks} (h : AcceptedFrom nodes t) :
    t.nodes.Perm nodes := by
  rcases h with ⟨nodeUid, declaredSize, h⟩ | ⟨nodeUid, declaredSize, skew, h⟩
  · exact fill_perm h
  · obtain ⟨index, hfill, h⟩ := bind_eq_ok_iff.mp h
    cases h
    exact fill_perm hfill

theorem Indexed.sqrtPrice_lt {t : Ticks} (h : Indexed t) {a b : TickNode} (ha : a ∈ t.nodes)
    (hb : b ∈ t.nodes) (hlt : a.index < b.index) : a.tick.sqrtPrice < b.tick.sqrtPrice := by
  have hbook : ∀ n ∈ t.nodes, n.boundary ∈ h.book.boundaries := fun n => List.mem_map_of_mem
  exact h.book.price_lt_price (hbook a ha) (hbook b hb) hlt

theorem Indexed.sqrtPrice_pos {t : Ticks} (h : Indexed t) {n : TickNode} (hn : n ∈ t.nodes) :
    n.tick.sqrtPrice ≠ 0 := by
  obtain ⟨deviation, hprice⟩ := h.priced n hn
  obtain ⟨hmin, hmax, _, hclose⟩ := checkPrice_ok hprice
  have hleast : minSqrtPrice.val ≤ priceAt n.index := by
    rw [← priceAt_minTick]
    rcases hmin.eq_or_lt with heq | hlt
    · rw [heq]
    · have hrise := priceAt_strictMono le_rfl hlt hmax
      omega
  have htolerance := toleranceAt_le (priceAt n.index)
  have hmin : minSqrtPrice.val = 4295048016 := rfl
  intro hzero
  have hzero : n.tick.sqrtPrice.val = 0 := congrArg Fin.val hzero
  omega

/-- The nodes an index was built from store non-zero prices that rise with the tick, and
every boundary the index answers lies strictly further in price. -/
theorem prices_follow_ticks {nodes : List TickNode} {t : Ticks} (h : AcceptedFrom nodes t) :
    (∀ n ∈ nodes, n.tick.sqrtPrice ≠ 0) ∧
    (∀ a ∈ nodes, ∀ b ∈ nodes, a.index < b.index → a.tick.sqrtPrice < b.tick.sqrtPrice) ∧
    (∀ a ∈ nodes, ∀ b, t.source.nextBoundaryUp a.index = some b →
      a.tick.sqrtPrice < b.sqrtPrice) ∧
    (∀ a ∈ nodes, ∀ b, t.source.nextBoundaryDown a.index = some b →
      b.sqrtPrice < a.tick.sqrtPrice) := by
  have hindexed := accepted_indexed h.accepted
  simp only [← h.perm.mem_iff]
  refine ⟨fun n => hindexed.sqrtPrice_pos, fun a ha b => hindexed.sqrtPrice_lt ha, ?_, ?_⟩
  · intro a ha b hb
    obtain ⟨n, hn, rfl⟩ := Option.map_eq_some_iff.mp hb
    obtain ⟨hn, hlt, _⟩ := hindexed.nextAbove_eq_some_iff.mp hn
    exact hindexed.sqrtPrice_lt ha hn hlt
  · intro a ha b hb
    obtain ⟨n, hn, rfl⟩ := Option.map_eq_some_iff.mp hb
    obtain ⟨hn, hlt, _⟩ := hindexed.nextBelow_eq_some_iff.mp hn
    exact hindexed.sqrtPrice_lt hn ha hlt

/-- Of two positions over three ticks, the boundary above the lowest lies above its price. -/
theorem prices_follow_ticks_two :
    (twoPositions.map fun n => n.tick.sqrtPrice).all (· ≠ 0) = true ∧
      (18354745142194483563 : U128) < 18446744073709551616 := by
  have haccepted : AcceptedFrom twoPositions twoPositionsIndex :=
    .inl ⟨none, some 3, by decide +kernel⟩
  obtain ⟨hpos, hlt, _⟩ := prices_follow_ticks haccepted
  refine ⟨?_, ?_⟩
  · simp only [List.all_map, List.all_eq_true, Function.comp_apply, decide_eq_true_eq]
    exact hpos
  · exact hlt _ List.mem_cons_self _ (List.mem_cons_of_mem _ List.mem_cons_self) (by decide)

end TickBook
