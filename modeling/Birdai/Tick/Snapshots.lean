import Birdai.Base.PagedReads
import Birdai.Base.Tallies
import Birdai.Tick.SkipLinks
import Birdai.Tick.TickHistory

/-!
# Snapshots of the nodes

Which sets of nodes make an index, in whatever order they were read, and what the
deviations kept beside an index count.
-/

namespace Snapshots

open WideArith Outcomes OrderedKeys TickMath TickIndex TickBook TickHistory SkipLinks Tallies

/-- What is asked of the nodes as a set. A first link leads to a later node. -/
structure Consistent (nodes : List TickNode) : Prop where
  acceptable : ∀ n ∈ nodes, Acceptable n
  once : (nodes.map TickNode.score).Nodup
  ahead : ∀ n ∈ nodes, ∀ next, n.nexts.head? = some next →
    ∃ m ∈ nodes, m.score = next ∧ n.index < m.index

/-! ### What filing and sorting leave behind -/

/-- The nodes of a list in tick order, and both maps over them. -/
def sorted (t : Ticks) (nodes : List TickNode) : Ticks := { t with nodes }.reindexed

theorem insert_sorted {t t' : Ticks} {node : TickNode} (h : t.insert node = .ok t')
    (nodes : List TickNode) : sorted t' nodes = sorted t nodes := by
  rw [insert_eq h]
  rfl

/-- Filing the nodes leaves nothing but the nodes, once they are sorted. -/
theorem filed_reindexed {t filed : Ticks} {nodes : List TickNode}
    (h : nodes.foldlM Ticks.insert t = .ok filed) :
    filed.reindexed = sorted t (t.nodes ++ nodes) := by
  have hrest : ∀ all, sorted filed all = sorted t all :=
    foldlM_invariant (I := fun filed : Ticks => ∀ all, sorted filed all = sorted t all)
      (fun _ _ _ hsame hinsert all => (insert_sorted hinsert all).trans (hsame all)) h
      fun _ => rfl
  rw [← hrest, ← foldlM_insert_nodes h]
  rfl

/-- Nodes of different ticks are sorted into one list only. -/
theorem sorted_perm (t : Ticks) {nodes nodes' : List TickNode} (hperm : nodes.Perm nodes')
    (hdistinct : nodes.Pairwise fun a b => a.index ≠ b.index) :
    sorted t nodes = sorted t nodes' := by
  have hordered : ∀ {l : List TickNode}, l.Pairwise (fun a b => a.index ≠ b.index) →
      (l.insertionSort fun a b => a.index ≤ b.index).Pairwise fun a b => a.index < b.index := by
    intro l hl
    have hsorted := List.pairwise_insertionSort (fun a b : TickNode => a.index ≤ b.index) l
    have hother := ((List.perm_insertionSort (fun a b : TickNode => a.index ≤ b.index)
      l).pairwise_iff fun hab => hab.symm).mpr hl
    exact hsorted.imp₂ (fun _ _ hle hne => lt_of_le_of_ne hle hne) hother
  have hdistinct' := (hperm.pairwise_iff fun hab => hab.symm).mp hdistinct
  have hsame : (nodes.insertionSort fun a b => a.index ≤ b.index) =
      nodes'.insertionSort fun a b => a.index ≤ b.index := by
    refine List.Perm.eq_of_pairwise (fun _ _ _ _ hlt hlt' => absurd hlt hlt'.not_gt)
      (hordered hdistinct) (hordered hdistinct') ?_
    exact (List.perm_insertionSort _ _).trans (hperm.trans (List.perm_insertionSort _ _).symm)
  simp only [sorted, Ticks.reindexed, hsame]

/-! ### The checks of a sorted index -/

/-- A link passes when it leads to a node of the index that is further on. -/
theorem checkLink_ok_iff {t : Ticks} (hbyScore : t.byScore = positions TickNode.score t.nodes)
    (honce : (t.nodes.map TickNode.score).Nodup) {n : TickNode} {position : ℕ}
    (hn : t.nodes[position]? = some n) :
    t.checkLink n position = .ok () ↔ ∀ next, n.nexts.head? = some next →
      ∃ m ∈ t.nodes, m.score = next ∧ n.index < m.index := by
  rw [Ticks.checkLink]
  cases hnext : n.nexts.head? with
  | none => simp
  | some next =>
    have hfound : ((((t.byScore.lookup next).filter fun k => k ≠ position).bind
        (t.nodes[·]?)).any fun m => n.index < m.index) = true ↔
        ∃ m ∈ t.nodes, m.score = next ∧ n.index < m.index := by
      rw [hbyScore, Option.any_eq_true]
      constructor
      · rintro ⟨m, hm, hlt⟩
        obtain ⟨k, hk, hat⟩ := Option.bind_eq_some_iff.mp hm
        obtain ⟨hk, _⟩ := Option.filter_eq_some_iff.mp hk
        obtain ⟨m', hm', hscore⟩ := (lookup_positions honce).mp hk
        obtain rfl := Option.some.inj (hm'.symm.trans hat)
        exact ⟨m', List.mem_of_getElem? hat, hscore, of_decide_eq_true hlt⟩
      · rintro ⟨m, hm, hscore, hlt⟩
        obtain ⟨k, hk⟩ := List.mem_iff_getElem?.mp hm
        refine ⟨m, Option.bind_eq_some_iff.mpr ⟨k, Option.filter_eq_some_iff.mpr ⟨?_, ?_⟩, hk⟩,
          decide_eq_true hlt⟩
        · exact (lookup_positions honce).mpr ⟨m, hk, hscore⟩
        · apply decide_eq_true
          rintro rfl
          obtain rfl := Option.some.inj (hn.symm.trans hk)
          exact absurd hlt (lt_irrefl _)
    simp only [Option.some.injEq, forall_eq']
    rw [← hfound]
    split
    · rename_i hahead
      exact iff_of_true rfl hahead
    · rename_i hbehind
      split
      · exact iff_of_false (by simp) hbehind
      · exact iff_of_false (by simp) hbehind

/-- What the deviations of a list of nodes are tallied from. -/
def Deviations (nodes : List TickNode) (deviations : List ℤ) : Prop :=
  List.Forall₂ (fun n deviation => Ticks.checkPrice n = .ok deviation) nodes deviations

theorem foldlM_checkNode_iff {t : Ticks} {entries : List (TickNode × ℕ)}
    {start found : Tally ℤ} :
    entries.foldlM t.checkNode start = .ok found ↔
      (∀ e ∈ entries, t.checkLink e.1 e.2 = .ok ()) ∧
        ∃ deviations, Deviations (entries.map Prod.fst) deviations ∧
          found = deviations.foldl Tally.add start := by
  induction entries generalizing start with
  | nil =>
    constructor
    · intro h
      cases h
      exact ⟨fun _ he => absurd he List.not_mem_nil, [], .nil, rfl⟩
    · rintro ⟨_, _, hnodes, rfl⟩
      cases hnodes
      rfl
  | cons e entries ih =>
    rw [List.foldlM_cons, bind_eq_ok_iff]
    constructor
    · rintro ⟨between, hfirst, hrest⟩
      obtain ⟨_, hlink, hfirst⟩ := bind_eq_ok_iff.mp hfirst
      obtain ⟨deviation, hprice, hfirst⟩ := bind_eq_ok_iff.mp hfirst
      cases hfirst
      obtain ⟨hlinks, deviations, hprices, rfl⟩ := ih.mp hrest
      refine ⟨?_, deviation :: deviations, .cons hprice hprices, rfl⟩
      rintro e' (_ | ⟨_, he'⟩)
      · exact hlink
      · exact hlinks e' he'
    · rintro ⟨hlinks, deviations, hprices, rfl⟩
      cases hprices with
      | cons hprice hprices =>
        refine ⟨start.add _, ?_, ih.mpr ⟨?_, _, hprices, rfl⟩⟩
        · rw [Ticks.checkNode, hlinks e List.mem_cons_self, ok_bind, hprice, ok_bind]
          rfl
        · intro e' he'
          exact hlinks e' (List.mem_cons_of_mem _ he')

theorem sorted_nodes (t : Ticks) (nodes : List TickNode) : (sorted t nodes).nodes.Perm nodes :=
  List.perm_insertionSort _ _

theorem check_ok_iff {t : Ticks} {nodes : List TickNode}
    (honce : (nodes.map TickNode.score).Nodup) {found : Tally ℤ} :
    (sorted t nodes).check = .ok found ↔ (sorted t nodes).checkSize = .ok () ∧
      (∀ n ∈ nodes, ∀ next, n.nexts.head? = some next →
        ∃ m ∈ nodes, m.score = next ∧ n.index < m.index) ∧
      ∃ deviations, Deviations (sorted t nodes).nodes deviations ∧
        found = deviations.foldl Tally.add ∅ := by
  have hperm := sorted_nodes t nodes
  have hlinks : (∀ e ∈ (sorted t nodes).nodes.zipIdx,
      (sorted t nodes).checkLink e.1 e.2 = .ok ()) ↔
        ∀ n ∈ nodes, ∀ next, n.nexts.head? = some next →
          ∃ m ∈ nodes, m.score = next ∧ n.index < m.index := by
    have hpassed : ∀ {n : TickNode} {position : ℕ}, (sorted t nodes).nodes[position]? = some n →
        ((sorted t nodes).checkLink n position = .ok () ↔ ∀ next, n.nexts.head? = some next →
          ∃ m ∈ nodes, m.score = next ∧ n.index < m.index) := by
      intro n position hn
      rw [checkLink_ok_iff rfl ((hperm.map TickNode.score).nodup_iff.mpr honce) hn]
      simp only [hperm.mem_iff]
    constructor
    · intro h n hn
      obtain ⟨position, hposition⟩ := List.mem_iff_getElem?.mp (hperm.mem_iff.mpr hn)
      exact (hpassed hposition).mp
        (h (n, position) (List.mem_zipIdx_iff_getElem?.mpr hposition))
    · intro h e he
      have hposition := List.mem_zipIdx_iff_getElem?.mp he
      exact (hpassed hposition).mpr (h e.1 (hperm.mem_iff.mp (List.mem_of_getElem? hposition)))
  have hnodes : (sorted t nodes).nodes.zipIdx.map Prod.fst = (sorted t nodes).nodes :=
    List.zipIdx_map_fst _ _
  rw [Ticks.check, bind_eq_ok_iff, ← hlinks]
  constructor
  · rintro ⟨_, hsize, hfold⟩
    obtain ⟨hpass, hfound⟩ := foldlM_checkNode_iff.mp hfold
    rw [hnodes] at hfound
    exact ⟨hsize, hpass, hfound⟩
  · rintro ⟨hsize, hpass, hfound⟩
    rw [← hnodes] at hfound
    exact ⟨(), hsize, foldlM_checkNode_iff.mpr ⟨hpass, hfound⟩⟩

/-! ### Building an index -/

section building
variable {nodeUid : Option ObjectId} {declaredSize : Option U64} {strictSize : Bool}
  {nodes : List TickNode} {t : Ticks}

/-- An index is the sorted nodes, and the deviations its checks counted. -/
theorem fill_ok_iff : (Ticks.empty nodeUid declaredSize strictSize).fill nodes = .ok t ↔
    (∀ n ∈ nodes, Acceptable n) ∧ (nodes.map TickNode.score).Nodup ∧
      ∃ found, (sorted (Ticks.empty nodeUid declaredSize strictSize) nodes).check = .ok found ∧
        t = { sorted (Ticks.empty nodeUid declaredSize strictSize) nodes with
          priceDeviations := found } := by
  constructor
  · intro h
    have hindexed := fill_indexed (filed_empty _ _ _) h
    have hperm := fill_perm h
    obtain ⟨filed, found, hfiled, hcheck, rfl⟩ := fill_ok h
    have hfilled := foldlM_invariant (fun _ _ _ => filed_insert) hfiled (filed_empty _ _ _)
    have hnodes : filed.nodes = nodes := foldlM_insert_nodes hfiled
    have hsorted : filed.reindexed = sorted (Ticks.empty nodeUid declaredSize strictSize) nodes :=
      filed_reindexed hfiled
    have hacceptable : ∀ n ∈ nodes, Acceptable n := fun n hn =>
      ⟨hfilled.scored n (hnodes ▸ hn), hindexed.priced n (hperm.mem_iff.mpr hn)⟩
    refine ⟨hacceptable, ?_, found, hsorted ▸ hcheck, by rw [hsorted]⟩
    rw [List.Nodup, List.pairwise_map]
    refine (hnodes ▸ hfilled.distinct).imp_of_mem ?_
    intro a b ha hb hne hscore
    exact hne ((hacceptable a ha).index_eq (hacceptable b hb) hscore)
  · rintro ⟨hacceptable, honce, found, hcheck, rfl⟩
    obtain ⟨filed, hfiled⟩ := foldlM_insert_ok
      (t := Ticks.empty nodeUid declaredSize strictSize) hacceptable honce
      (fun _ _ => Finmap.notMem_empty)
    have hsorted : filed.reindexed = sorted (Ticks.empty nodeUid declaredSize strictSize) nodes :=
      filed_reindexed hfiled
    rw [Ticks.fill, hfiled, ok_bind, Ticks.validate, hsorted, hcheck]
    rfl

theorem exists_deviations {nodes : List TickNode} (h : ∀ n ∈ nodes, Acceptable n) :
    ∃ deviations, Deviations nodes deviations := by
  induction nodes with
  | nil => exact ⟨[], .nil⟩
  | cons n nodes ih =>
    obtain ⟨deviation, hprice⟩ := (h n List.mem_cons_self).priced
    obtain ⟨deviations, hprices⟩ := ih fun m hm => h m (List.mem_cons_of_mem _ hm)
    exact ⟨deviation :: deviations, .cons hprice hprices⟩

theorem checkSize_ok_iff :
    (sorted (Ticks.empty nodeUid declaredSize strictSize) nodes).checkSize = .ok () ↔
      (strictSize = true → ∀ declared, declaredSize = some declared →
        declared.val = nodes.length) := by
  have hlength : (sorted (Ticks.empty nodeUid declaredSize strictSize) nodes).nodes.length =
      nodes.length := (sorted_nodes _ nodes).length_eq
  cases strictSize with
  | false => exact iff_of_true rfl nofun
  | true =>
    cases declaredSize with
    | none => exact iff_of_true rfl fun _ => nofun
    | some declared =>
      have hsize : (sorted (Ticks.empty nodeUid (some declared) true) nodes).checkSize =
          if declared.val ≠ nodes.length then .error (.sizeMismatch declared nodes.length)
          else .ok () := by
        rw [← hlength]
        rfl
      rw [hsize]
      by_cases heq : declared.val = nodes.length
      · simp [heq]
      · simp [heq]

theorem fill_accepts_iff :
    (∃ t, (Ticks.empty nodeUid declaredSize strictSize).fill nodes = .ok t) ↔
      Consistent nodes ∧ (strictSize = true → ∀ declared, declaredSize = some declared →
        declared.val = nodes.length) := by
  simp only [fill_ok_iff]
  constructor
  · rintro ⟨t, hacceptable, honce, found, hcheck, _⟩
    obtain ⟨hsize, hahead, _⟩ := (check_ok_iff honce).mp hcheck
    exact ⟨⟨hacceptable, honce, hahead⟩, checkSize_ok_iff.mp hsize⟩
  · rintro ⟨⟨hacceptable, honce, hahead⟩, hsize⟩
    have hsorted : ∀ n ∈ (sorted (Ticks.empty nodeUid declaredSize strictSize) nodes).nodes,
        Acceptable n := fun n hn => hacceptable n ((sorted_nodes _ nodes).mem_iff.mp hn)
    obtain ⟨deviations, hprices⟩ := exists_deviations hsorted
    exact ⟨_, hacceptable, honce, _, (check_ok_iff honce).mpr
      ⟨checkSize_ok_iff.mpr hsize, hahead, deviations, hprices, rfl⟩, rfl⟩

theorem fill_perm_ok {nodes' : List TickNode} (hperm : nodes.Perm nodes')
    (h : (Ticks.empty nodeUid declaredSize strictSize).fill nodes = .ok t) :
    (Ticks.empty nodeUid declaredSize strictSize).fill nodes' = .ok t := by
  obtain ⟨hacceptable, honce, found, hcheck, rfl⟩ := fill_ok_iff.mp h
  have hdistinct : nodes.Pairwise fun a b => a.index ≠ b.index := by
    rw [List.Nodup, List.pairwise_map] at honce
    refine honce.imp_of_mem ?_
    intro a b ha hb hne hindex
    have hscored := (hacceptable a ha).scored
    have htick : a.tick.index = b.tick.index := Subtype.ext hindex
    rw [htick, (hacceptable b hb).scored] at hscored
    exact hne (Option.some.inj hscored).symm
  rw [sorted_perm _ hperm hdistinct] at hcheck ⊢
  exact fill_ok_iff.mpr ⟨fun n hn => hacceptable n (hperm.mem_iff.mpr hn),
    (hperm.map TickNode.score).nodup_iff.mp honce, found, hcheck, rfl⟩

theorem fromChildren_perm_ok {nodes' : List TickNode} {declared : U64}
    (hperm : nodes.Perm nodes') {skew : Option SizeSkew}
    (h : Ticks.fromChildren nodeUid declared nodes = .ok (t, skew)) :
    Ticks.fromChildren nodeUid declared nodes' = .ok (t, skew) := by
  obtain ⟨index, hfill, hrest⟩ := bind_eq_ok_iff.mp h
  exact bind_eq_ok_iff.mpr ⟨index, fill_perm_ok hperm hfill, hrest⟩

end building

/-- The largest absolute deviation of a stored price from the tick math. -/
def maxPriceDeviation (t : Ticks) : ℕ :=
  (t.priceDeviations.keys.image Int.natAbs).max.unbotD 0

/-- How many nodes store exactly the price the tick math derives. -/
def exactPriceNodes (t : Ticks) : ℕ := (t.priceDeviations.lookup 0).getD 0

/-- How far the stored price is above the computed one. -/
def priceGap (n : TickNode) : Option ℤ :=
  (sqrtPriceAtTick n.index).toOption.map fun computed =>
    (n.tick.sqrtPrice.val : ℤ) - (computed.val : ℤ)

/-- The index after a call, with the nodes it held when it last passed validation. -/
def measure (s : Ticks × List TickNode) (c : Call) : Ticks × List TickNode :=
  let (outcome, t) := call s.1 c
  match c, outcome with
  | .validate, .ok () => (t, t.nodes)
  | _, _ => (t, s.2)

def measured (t : Ticks) (calls : List Call) : Ticks × List TickNode :=
  calls.foldl measure (t, [])

/-- The deviations count the gaps of the nodes last validated. -/
def Measures (s : Ticks × List TickNode) : Prop :=
  ∃ gaps, List.Forall₂ (fun n gap => priceGap n = some gap) s.2 gaps ∧
    Tally.Counts s.1.priceDeviations gaps

/-- A deviation within the tolerance was not cut short. -/
theorem priceDeviation_eq {stored computed : U128}
    (h : (priceDeviation stored computed).natAbs ≤ (tickPriceTolerance computed).val) :
    priceDeviation stored computed = (stored.val : ℤ) - (computed.val : ℤ) := by
  rw [tickPriceTolerance_val] at h
  have htol := toleranceAt_le computed.val
  have hlt := computed.isLt
  unfold priceDeviation saturatingI128 at h ⊢
  split at h
  · rename_i hle
    have hle : computed.val ≤ stored.val := hle
    split at h
    · rename_i hfits
      rw [if_pos ‹_›, if_pos hfits]
      omega
    · omega
  · rename_i hnot
    have hnot : ¬ computed.val ≤ stored.val := hnot
    split at h
    · rename_i hfits
      rw [if_neg ‹_›, if_pos hfits]
      omega
    · omega

theorem checkPrice_gap {n : TickNode} {deviation : ℤ}
    (h : Ticks.checkPrice n = .ok deviation) : priceGap n = some deviation := by
  unfold Ticks.checkPrice at h
  split at h
  · cases h
  · rename_i computed hcomputed
    dsimp only at h
    split at h
    · cases h
    · rename_i htolerance
      cases h
      rw [priceGap, hcomputed, priceDeviation_eq (not_lt.mp htolerance)]
      rfl

theorem validate_measures {t t' : Ticks} (h : t.validate = (.ok (), t')) :
    Measures (t', t'.nodes) := by
  obtain ⟨found, hcheck, rfl⟩ := validate_ok h
  obtain ⟨_, _, hfold⟩ := bind_eq_ok_iff.mp hcheck
  obtain ⟨_, deviations, hprices, rfl⟩ := foldlM_checkNode_iff.mp hfold
  rw [List.zipIdx_map_fst] at hprices
  exact ⟨deviations, hprices.imp fun _ _ => checkPrice_gap,
    Tally.counts_empty.foldl deviations⟩

theorem measure_measures {s : Ticks × List TickNode} (h : Measures s) (c : Call) :
    Measures (measure s c) := by
  obtain ⟨t, nodes⟩ := s
  obtain ⟨gaps, hgaps, hcounts⟩ := h
  cases c with
  | insert node =>
    simp only [measure, call, insertInPlace_eq]
    cases hinsert : t.insert node with
    | error e => exact ⟨gaps, hgaps, hcounts⟩
    | ok t' =>
      refine ⟨gaps, hgaps, ?_⟩
      rw [insert_eq hinsert]
      exact hcounts
  | validate =>
    simp only [measure, call]
    generalize hvalidate : t.validate = validated
    obtain ⟨outcome, t'⟩ := validated
    cases outcome with
    | ok done => exact validate_measures hvalidate
    | error e =>
      -- A validation that fails leaves the deviations of the one before.
      have hkept : t'.priceDeviations = t.priceDeviations := by
        simp only [Ticks.validate] at hvalidate
        split at hvalidate
        · cases hvalidate
          rfl
        · cases hvalidate
      exact ⟨gaps, hgaps, hkept ▸ hcounts⟩

theorem measured_measures (nodeUid : Option ObjectId) (declaredSize : Option U64)
    (strictSize : Bool) (calls : List Call) :
    Measures (measured (Ticks.empty nodeUid declaredSize strictSize) calls) :=
  KeyedFolds.foldl_preserves (I := Measures) (fun _ c h => measure_measures h c) calls
    ⟨[], .nil, Tally.counts_empty⟩

theorem count_gaps {nodes : List TickNode} {gaps : List ℤ}
    (h : List.Forall₂ (fun n gap => priceGap n = some gap) nodes gaps) (gap : ℤ) :
    gaps.count gap = nodes.countP fun n => priceGap n = some gap := by
  induction h with
  | nil => rfl
  | @cons n other nodes gaps hgap _ ih =>
    rw [List.count_cons, List.countP_cons, ih, hgap]
    simp

theorem priceGap_zero_iff {n : TickNode} :
    priceGap n = some 0 ↔ sqrtPriceAtTick n.index = .ok n.tick.sqrtPrice := by
  cases hcomputed : sqrtPriceAtTick n.index with
  | error e => simp [priceGap, hcomputed, Except.toOption]
  | ok computed =>
    simp only [priceGap, hcomputed, Except.toOption, Option.map_some, Option.some.injEq,
      Except.ok.injEq]
    constructor
    · intro hgap
      apply Fin.ext
      omega
    · rintro rfl
      omega

/-- Whatever was inserted or validated, the deviations beside an index are those of the nodes
it held when it last passed validation: each exact and with the number of its nodes. -/
theorem deviations_measured (nodeUid : Option ObjectId) (declaredSize : Option U64)
    (strictSize : Bool) (calls : List Call) :
    let s := measured (Ticks.empty nodeUid declaredSize strictSize) calls
    (∀ gap, (s.1.priceDeviations.lookup gap).getD 0 =
      s.2.countP fun n => priceGap n = some gap) ∧
    Tally.total s.1.priceDeviations = s.2.length ∧
    exactPriceNodes s.1 =
      s.2.countP (fun n => sqrtPriceAtTick n.index = .ok n.tick.sqrtPrice) ∧
    (∀ n ∈ s.2, ∃ gap, priceGap n = some gap ∧ gap.natAbs ≤ maxPriceDeviation s.1) ∧
    (s.2 ≠ [] → ∃ n ∈ s.2, (priceGap n).map Int.natAbs = some (maxPriceDeviation s.1)) := by
  obtain ⟨gaps, hgaps, hcounts⟩ :=
    measured_measures nodeUid declaredSize strictSize calls
  generalize measured (Ticks.empty nodeUid declaredSize strictSize) calls = s at *
  have hcount : ∀ gap, (s.1.priceDeviations.lookup gap).getD 0 =
      s.2.countP fun n => priceGap n = some gap := fun gap =>
    (hcounts.getD gap).trans (count_gaps hgaps gap)
  refine ⟨hcount, hcounts.total_eq.trans hgaps.length_eq.symm, ?_, ?_, ?_⟩
  · rw [exactPriceNodes, hcount]
    simp only [priceGap_zero_iff]
  · intro n hn
    obtain ⟨gap, hgap, hmem⟩ : ∃ gap, priceGap n = some gap ∧ gap ∈ gaps := by
      obtain ⟨gap, hmem, hgap⟩ := PagedReads.exists_paired hgaps.flip hn
      exact ⟨gap, hgap, hmem⟩
    have hkey : gap ∈ s.1.priceDeviations.keys :=
      Finmap.mem_keys.mpr (hcounts.mem_iff.mpr hmem)
    obtain ⟨largest, hlargest⟩ := Finset.max_of_mem (Finset.mem_image_of_mem Int.natAbs hkey)
    refine ⟨gap, hgap, ?_⟩
    rw [maxPriceDeviation, hlargest, WithBot.unbotD_coe]
    exact Finset.le_max_of_eq (Finset.mem_image_of_mem Int.natAbs hkey) hlargest
  · intro hne
    obtain ⟨first, hfirst⟩ := List.exists_mem_of_ne_nil _ hne
    obtain ⟨gap, hmem, _⟩ := PagedReads.exists_paired hgaps.flip hfirst
    have hkey : gap ∈ s.1.priceDeviations.keys :=
      Finmap.mem_keys.mpr (hcounts.mem_iff.mpr hmem)
    obtain ⟨largest, hlargest⟩ := Finset.max_of_mem (Finset.mem_image_of_mem Int.natAbs hkey)
    obtain ⟨widest, hwidest, rfl⟩ := Finset.mem_image.mp (Finset.mem_of_max hlargest)
    obtain ⟨n, hn, hgap⟩ := PagedReads.exists_paired hgaps
      (hcounts.mem_iff.mp (Finmap.mem_keys.mp hwidest))
    refine ⟨n, hn, ?_⟩
    rw [hgap, maxPriceDeviation, hlargest, WithBot.unbotD_coe]
    rfl

end Snapshots
