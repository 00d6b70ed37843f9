import Birdai.Base.KeyedFolds
import Birdai.Tick.TickBook

/-!
# Histories of a tick index

One index under any sequence of insertions and validations, some of them failing,
against the finite set of the nodes that were inserted.
-/

namespace TickHistory

open WideArith Outcomes OrderedKeys TickIndex TickBook

/-! ### Calls on one index -/

/-- `insert` on the index it changes, statement by statement. -/
def insertInPlace (t : Ticks) (node : TickNode) : Except TickError Unit × Ticks :=
  match checkedScoreFromTick node.tick.index with
  | none => (.error (.tickOutOfRange node.index), t)
  | some expected =>
    if node.score ≠ expected then (.error (.scoreMismatch node.index node.score), t)
    else if node.score ∈ t.byScore then (.error (.duplicateNode node.score), t)
    else
      let position := t.nodes.length
      let t := { t with byScore := t.byScore.insert node.score position }
      let t := { t with byTick := t.byTick.insert node.index position }
      (.ok (), { t with nodes := t.nodes ++ [node] })

theorem insertInPlace_eq (t : Ticks) (node : TickNode) :
    insertInPlace t node = match t.insert node with
      | .ok t' => (.ok (), t')
      | .error e => (.error e, t) := by
  rw [insertInPlace, Ticks.insert]
  cases checkedScoreFromTick node.tick.index with
  | none => rfl
  | some expected =>
    dsimp only [okOr]
    rw [ok_bind]
    by_cases hscore : node.score ≠ expected
    · rw [if_pos hscore, if_pos hscore]
    · rw [if_neg hscore, if_neg hscore]
      by_cases hknown : node.score ∈ t.byScore
      · rw [if_pos hknown, if_pos hknown]
      · rw [if_neg hknown, if_neg hknown]

/-- An insertion that fails leaves the index as it was. -/
theorem insertInPlace_error {t t' : Ticks} {node : TickNode} {e : TickError}
    (h : insertInPlace t node = (.error e, t')) : t' = t := by
  rw [insertInPlace_eq] at h
  cases hinsert : t.insert node with
  | error e' =>
    rw [hinsert] at h
    exact (Prod.mk.inj h).2.symm
  | ok filed =>
    rw [hinsert] at h
    cases h

inductive Call where
  | insert (node : TickNode)
  | validate

/-- What a call answers, and the index it leaves behind. -/
def call (t : Ticks) : Call → Except TickError Unit × Ticks
  | .insert node => insertInPlace t node
  | .validate => t.validate

/-! ### The set of nodes -/

/-- The nodes of a pool, each under its tick index. -/
abbrev NodeSet := Finmap fun _ : ℤ => TickNode

namespace NodeSet

def above (set : NodeSet) (tick : ℤ) : Option TickNode :=
  (leastKey set (tick < ·)).bind set.lookup

def atOrBelow (set : NodeSet) (tick : ℤ) : Option TickNode :=
  (greatestKey set (· ≤ tick)).bind set.lookup

def below (set : NodeSet) (tick : ℤ) : Option TickNode :=
  (greatestKey set (· < tick)).bind set.lookup

/-- No node is closer to the tick, and none as close lies lower. -/
def IsNearest (set : NodeSet) (tick : ℤ) (n : TickNode) : Prop :=
  set.lookup n.index = some n ∧ ∀ m, set.lookup m.index = some m →
    (n.index - tick).natAbs ≤ (m.index - tick).natAbs ∧
      ((n.index - tick).natAbs = (m.index - tick).natAbs → n.index ≤ m.index)

end NodeSet

theorem isNearest_unique {set : NodeSet} {tick : ℤ} {n m : TickNode} (hn : set.IsNearest tick n)
    (hm : set.IsNearest tick m) : n = m := by
  obtain ⟨hleast, hlower⟩ := hn.2 m hm.1
  obtain ⟨hleast', hlower'⟩ := hm.2 n hn.1
  have hsame := le_antisymm hleast hleast'
  have hindex : n.index = m.index := le_antisymm (hlower hsame) (hlower' hsame.symm)
  have hlookup := hn.1
  rw [hindex, hm.1] at hlookup
  exact (Option.some.inj hlookup).symm

/-- Every lookup on the index answers what the set does. -/
structure Answers (t : Ticks) (set : NodeSet) : Prop where
  get : ∀ tick, t.get tick = set.lookup tick
  nextAbove : ∀ tick, t.nextAbove tick = set.above tick
  nextAtOrBelow : ∀ tick, t.nextAtOrBelow tick = set.atOrBelow tick
  nextBelow : ∀ tick, t.nextBelow tick = set.below tick
  bracketing : ∀ tick, t.bracketing tick = (set.atOrBelow tick, set.above tick)
  nearest : ∀ tick n, t.nearest tick = some n ↔ set.IsNearest tick n
  liquidityNetAt : ∀ tick, t.liquidityNetAt tick =
    (set.lookup tick).map fun node => node.tick.liquidityNet

/-- The maps locate the nodes, and the nodes are those of the set. -/
structure Represents (t : Ticks) (set : NodeSet) : Prop where
  filed : Filed t
  located : Located t
  lookup : ∀ {tick : ℤ} {n : TickNode}, set.lookup tick = some n ↔ n ∈ t.nodes ∧ n.index = tick

namespace Represents
variable {t : Ticks} {set : NodeSet} (h : Represents t set)
include h

theorem nodeAt_some (tick : ℤ) : t.nodeAt (some tick) = set.lookup tick := by
  ext n
  rw [h.located.nodeAt_eq_some_iff, h.lookup, Option.some.injEq, eq_comm (a := tick)]

theorem keys : t.byTick.keys = set.keys := by
  ext tick
  rw [Finmap.mem_keys, Finmap.mem_keys, h.located.mem_byTick, Finmap.mem_iff]
  simp only [h.lookup]

theorem nodeAt_bind (tick : Option ℤ) : t.nodeAt tick = tick.bind set.lookup := by
  cases tick with
  | none => rfl
  | some tick => exact h.nodeAt_some tick

theorem mem_nodes {n : TickNode} : n ∈ t.nodes ↔ set.lookup n.index = some n := by
  rw [h.lookup]
  exact ⟨fun hn => ⟨hn, rfl⟩, fun hn => hn.1⟩

theorem nextAbove (tick : ℤ) : t.nextAbove tick = set.above tick := by
  rw [Ticks.nextAbove, h.nodeAt_bind, leastKey, h.keys]
  rfl

theorem nextAtOrBelow (tick : ℤ) : t.nextAtOrBelow tick = set.atOrBelow tick := by
  rw [Ticks.nextAtOrBelow, h.nodeAt_bind, greatestKey, h.keys]
  rfl

theorem nextBelow (tick : ℤ) : t.nextBelow tick = set.below tick := by
  rw [Ticks.nextBelow, h.nodeAt_bind, greatestKey, h.keys]
  rfl

theorem get (tick : ℤ) : t.get tick = set.lookup tick := h.nodeAt_some tick

theorem isNearest_iff {tick : ℤ} {n : TickNode} :
    set.IsNearest tick n ↔ n ∈ t.nodes ∧ ∀ m ∈ t.nodes,
      (n.index - tick).natAbs ≤ (m.index - tick).natAbs ∧
        ((n.index - tick).natAbs = (m.index - tick).natAbs → n.index ≤ m.index) := by
  simp only [NodeSet.IsNearest, ← h.mem_nodes]

/-- The node found is the upper neighbour where that is strictly closer, else the lower. -/
theorem isNearest_of_nearest {tick : ℤ} {n : TickNode} (hn : t.nearest tick = some n) :
    set.IsNearest tick n := by
  rw [h.isNearest_iff]
  rw [Ticks.nearest] at hn
  cases hlow : t.nextAtOrBelow tick with
  | none =>
    have hnone := h.located.greatest_none_iff.mp hlow
    cases hhigh : t.nextAbove tick with
    | none =>
      rw [hlow, hhigh] at hn
      cases hn
    | some high =>
      rw [hlow, hhigh] at hn
      cases hn
      obtain ⟨hmem, hlt, hleast⟩ := h.located.least_iff.mp hhigh
      refine ⟨hmem, fun m hm => ?_⟩
      have := hleast m hm (not_le.mp (hnone m hm))
      omega
  | some low =>
    obtain ⟨hmem, hle, hgreatest⟩ := h.located.greatest_iff.mp hlow
    cases hhigh : t.nextAbove tick with
    | none =>
      have hnone := h.located.least_none_iff.mp hhigh
      rw [hlow, hhigh] at hn
      cases hn
      refine ⟨hmem, fun m hm => ?_⟩
      have := hgreatest m hm (not_lt.mp (hnone m hm))
      omega
    | some high =>
      obtain ⟨hmem', hlt, hleast⟩ := h.located.least_iff.mp hhigh
      rw [hlow, hhigh] at hn
      dsimp only at hn
      have houtside : ∀ m ∈ t.nodes, m.index ≤ low.index ∨ high.index ≤ m.index := by
        intro m hm
        by_cases hside : m.index ≤ tick
        · exact .inl (hgreatest m hm hside)
        · exact .inr (hleast m hm (not_le.mp hside))
      by_cases hcloser : high.index - tick < tick - low.index
      · rw [if_pos hcloser] at hn
        cases hn
        refine ⟨hmem', fun m hm => ?_⟩
        have := houtside m hm
        omega
      · rw [if_neg hcloser] at hn
        cases hn
        refine ⟨hmem, fun m hm => ?_⟩
        have := houtside m hm
        omega

/-- Some node is found unless there is none. -/
theorem nearest_isSome (tick : ℤ) {n : TickNode} (hn : n ∈ t.nodes) :
    ∃ found, t.nearest tick = some found := by
  rw [Ticks.nearest]
  cases hlow : t.nextAtOrBelow tick with
  | none =>
    cases hhigh : t.nextAbove tick with
    | none =>
      have hbelow := h.located.greatest_none_iff.mp hlow n hn
      exact absurd (not_le.mp hbelow) (h.located.least_none_iff.mp hhigh n hn)
    | some high => exact ⟨high, rfl⟩
  | some low =>
    cases hhigh : t.nextAbove tick with
    | none => exact ⟨low, rfl⟩
    | some high => exact ⟨_, (apply_ite some _ _ _).symm⟩

theorem nearest_iff (tick : ℤ) (n : TickNode) :
    t.nearest tick = some n ↔ set.IsNearest tick n := by
  refine ⟨h.isNearest_of_nearest, fun hn => ?_⟩
  obtain ⟨found, hfound⟩ := h.nearest_isSome tick (h.mem_nodes.mpr hn.1)
  rw [hfound, isNearest_unique (h.isNearest_of_nearest hfound) hn]

/-- The maps answer for the whole set. -/
theorem answers : Answers t set where
  get := h.get
  nextAbove := h.nextAbove
  nextAtOrBelow := h.nextAtOrBelow
  nextBelow := h.nextBelow
  bracketing tick := by
    rw [Ticks.bracketing, h.nextAtOrBelow, h.nextAbove]
  nearest := h.nearest_iff
  liquidityNetAt tick := by
    rw [Ticks.liquidityNetAt, h.get]

end Represents

/-! ### One call -/

theorem represents_empty (nodeUid : Option ObjectId) (declaredSize : Option U64)
    (strictSize : Bool) : Represents (Ticks.empty nodeUid declaredSize strictSize) ∅ where
  filed := filed_empty nodeUid declaredSize strictSize
  located := ⟨by simp [Ticks.empty]⟩
  lookup := by simp [Ticks.empty]

theorem getElem?_concat {nodes : List TickNode} {node n : TickNode} {position : ℕ} :
    (nodes ++ [node])[position]? = some n ↔
      nodes[position]? = some n ∨ position = nodes.length ∧ node = n := by
  grind

/-- A successful insertion puts the node at the end, under a new tick. -/
theorem insert_represents {t t' : Ticks} {set : NodeSet} {node : TickNode}
    (h : Represents t set) (hinsert : t.insert node = .ok t') :
    Represents t' (set.insert node.index node) := by
  have hfiled := filed_insert h.filed hinsert
  have heq := insert_eq hinsert
  have hnodes : t'.nodes = t.nodes ++ [node] := by
    rw [heq]
  have hbyTick : t'.byTick = t.byTick.insert node.index t.nodes.length := by
    rw [heq]
  have hfresh : ∀ n ∈ t.nodes, n.index ≠ node.index := by
    have hdistinct := hfiled.distinct
    rw [hnodes, List.pairwise_append] at hdistinct
    exact fun n hn => hdistinct.2.2 n hn node (List.mem_singleton_self node)
  refine ⟨hfiled, ⟨?_⟩, ?_⟩
  · intro tick position
    rw [hbyTick, hnodes]
    simp only [getElem?_concat]
    by_cases htick : tick = node.index
    · subst htick
      rw [Finmap.lookup_insert, Option.some.injEq]
      constructor
      · rintro rfl
        exact ⟨node, .inr ⟨rfl, rfl⟩, rfl⟩
      · rintro ⟨n, hn | ⟨rfl, _⟩, hindex⟩
        · exact absurd hindex (hfresh n (List.mem_of_getElem? hn))
        · rfl
    · rw [Finmap.lookup_insert_of_ne _ htick, h.located.lookup_byTick]
      refine exists_congr fun n => and_congr_left fun hindex => ?_
      refine (or_iff_left ?_).symm
      rintro ⟨_, rfl⟩
      exact htick hindex.symm
  · intro tick n
    rw [hnodes, List.mem_append, List.mem_singleton]
    by_cases htick : tick = node.index
    · subst htick
      rw [Finmap.lookup_insert, Option.some.injEq]
      constructor
      · rintro rfl
        exact ⟨.inr rfl, rfl⟩
      · rintro ⟨hn | rfl, hindex⟩
        · exact absurd hindex (hfresh n hn)
        · rfl
    · rw [Finmap.lookup_insert_of_ne _ htick, h.lookup]
      refine and_congr_left fun hindex => (or_iff_left ?_).symm
      rintro rfl
      exact htick hindex.symm

/-- Sorting the nodes and rebuilding the maps keeps the set. -/
theorem reindexed_represents {t : Ticks} {set : NodeSet} (h : Represents t set) :
    Represents t.reindexed set := by
  have hperm : t.reindexed.nodes.Perm t.nodes := List.perm_insertionSort _ _
  have hordered := reindexed_ordered h.filed
  refine ⟨⟨?_, ?_, hordered.imp fun hlt => hlt.ne⟩, ⟨?_⟩, ?_⟩
  · intro n hn
    exact h.filed.scored n (hperm.mem_iff.mp hn)
  · intro n hn
    exact mem_positions.mpr ⟨n, hn, rfl⟩
  · exact lookup_positions (List.pairwise_map.mpr (hordered.imp fun hlt => hlt.ne))
  · intro tick n
    rw [h.lookup, hperm.mem_iff]

theorem validate_nodes (t : Ticks) : ∃ deviations,
    t.validate.2 = { t.reindexed with priceDeviations := deviations } := by
  simp only [Ticks.validate]
  split
  · exact ⟨t.reindexed.priceDeviations, rfl⟩
  · exact ⟨_, rfl⟩

theorem validate_represents {t : Ticks} {set : NodeSet} (h : Represents t set) :
    Represents t.validate.2 set := by
  obtain ⟨deviations, hvalidate⟩ := validate_nodes t
  rw [hvalidate]
  obtain ⟨⟨hscored, hknown, hdistinct⟩, ⟨hlocated⟩, hlookup⟩ := reindexed_represents h
  exact ⟨⟨hscored, hknown, hdistinct⟩, ⟨hlocated⟩, hlookup⟩

/-! ### A history of calls -/

/-- The set after a call: only a successful insertion adds to it. -/
def file (set : NodeSet) : Call → Except TickError Unit → NodeSet
  | .insert node, .ok () => set.insert node.index node
  | _, _ => set

def step (s : Ticks × NodeSet) (c : Call) : Ticks × NodeSet :=
  let (outcome, t) := call s.1 c
  (t, file s.2 c outcome)

/-- The index after some calls, and the nodes inserted by those that succeeded. -/
def history (t : Ticks) (calls : List Call) : Ticks × NodeSet := calls.foldl step (t, ∅)

theorem step_represents {s : Ticks × NodeSet} (h : Represents s.1 s.2) (c : Call) :
    Represents (step s c).1 (step s c).2 := by
  obtain ⟨t, set⟩ := s
  cases c with
  | insert node =>
    simp only [step, call, insertInPlace_eq]
    cases hinsert : t.insert node with
    | error e => exact h
    | ok t' => exact insert_represents h hinsert
  | validate =>
    have hfile : file set .validate t.validate.1 = set := by
      cases t.validate.1 <;> rfl
    change Represents t.validate.2 (file set .validate t.validate.1)
    rw [hfile]
    exact validate_represents h

theorem history_represents (nodeUid : Option ObjectId) (declaredSize : Option U64)
    (strictSize : Bool) (calls : List Call) :
    Represents (history (Ticks.empty nodeUid declaredSize strictSize) calls).1
      (history (Ticks.empty nodeUid declaredSize strictSize) calls).2 :=
  KeyedFolds.foldl_preserves (I := fun s : Ticks × NodeSet => Represents s.1 s.2)
    (fun _ c h => step_represents h c) calls (represents_empty nodeUid declaredSize strictSize)

/-- After any calls on an empty index every lookup answers as on the set of the inserted
nodes, a failed insertion changes nothing, and validation leaves the nodes in tick order. -/
theorem lookups_match_set (nodeUid : Option ObjectId) (declaredSize : Option U64)
    (strictSize : Bool) (calls : List Call) :
    let s := history (Ticks.empty nodeUid declaredSize strictSize) calls
    Answers s.1 s.2 ∧
      (∀ node e t, call s.1 (.insert node) = (.error e, t) → t = s.1) ∧
      (call s.1 .validate).2.nodes.Pairwise fun a b => a.index < b.index := by
  have h := history_represents nodeUid declaredSize strictSize calls
  refine ⟨h.answers, ?_, ?_⟩
  · intro node e t hcall
    exact insertInPlace_error hcall
  · obtain ⟨deviations, hvalidate⟩ :=
      validate_nodes (history (Ticks.empty nodeUid declaredSize strictSize) calls).1
    simp only [call]
    rw [hvalidate]
    exact reindexed_ordered h.filed

/-- Tick 50 is as far from tick 0 as from tick 100. -/
example : ((history (Ticks.empty none (some 7) true)
    (.validate :: twoPositions.reverse.map .insert)).1.nearest 50).map TickNode.index = some 0 := by
  decide +kernel

end TickHistory
