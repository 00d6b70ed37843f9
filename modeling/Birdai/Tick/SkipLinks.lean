import Birdai.Tick.TickBook

/-!
# Partial walks over the skip list

Which lost nodes the level-0 links give away. A link only looks forward, so a walk
that lost an end run at the bottom keeps a list that closes.
-/

namespace SkipLinks

open WideArith Outcomes OrderedKeys TickIndex TickBook

/-! ### Well-formed lists -/

/-- The node's key encodes its index, and its price passes. -/
structure Acceptable (n : TickNode) : Prop where
  scored : checkedScoreFromTick n.tick.index = some n.score
  priced : ∃ deviation, Ticks.checkPrice n = .ok deviation

/-- Each level-0 link is the key of the next node, and the last node has none. -/
def Linked (nodes : List TickNode) : Prop :=
  ∀ position n, nodes[position]? = some n →
    n.nexts.head? = (nodes[position + 1]?).map TickNode.score

structure SkipList where
  nodes : List TickNode
  ordered : nodes.Pairwise fun a b => a.index < b.index
  acceptable : ∀ n ∈ nodes, Acceptable n
  linked : Linked nodes

/-- A walk that met some of the nodes, in any order, and lost at least one. -/
structure PartialWalk (list : SkipList) where
  nodes : List TickNode
  nonempty : nodes ≠ []
  nodup : nodes.Nodup
  subset : ∀ n ∈ nodes, n ∈ list.nodes
  proper : ∃ n ∈ list.nodes, n ∉ nodes

theorem checkedScore_inj {a b : I32} {score : U64} (ha : checkedScoreFromTick a = some score)
    (hb : checkedScoreFromTick b = some score) : a = b := by
  simp only [checkedScoreFromTick] at ha hb
  split at ha
  · split at hb
    · have hscore := congrArg Fin.val (Option.some.inj (ha.trans hb.symm))
      simp only at hscore
      apply Subtype.ext
      omega
    · cases hb
  · cases ha

theorem Acceptable.index_eq {a b : TickNode} (ha : Acceptable a) (hb : Acceptable b)
    (hscore : a.score = b.score) : a.index = b.index :=
  congrArg Subtype.val (checkedScore_inj ha.scored (hscore ▸ hb.scored))

namespace SkipList
variable (list : SkipList)

theorem eq_of_index_eq {a b : TickNode} (ha : a ∈ list.nodes) (hb : b ∈ list.nodes)
    (hindex : a.index = b.index) : a = b := by
  have hnodup : (list.nodes.map TickNode.index).Nodup :=
    List.pairwise_map.mpr (list.ordered.imp fun hlt => hlt.ne)
  exact List.inj_on_of_nodup_map hnodup ha hb hindex

theorem eq_of_score_eq {a b : TickNode} (ha : a ∈ list.nodes) (hb : b ∈ list.nodes)
    (hscore : a.score = b.score) : a = b :=
  list.eq_of_index_eq ha hb
    ((list.acceptable a ha).index_eq (list.acceptable b hb) hscore)

theorem scores_nodup : (list.nodes.map TickNode.score).Nodup := by
  have hnodup : list.nodes.Nodup := list.ordered.imp fun hlt heq => by
    subst heq
    exact lt_irrefl _ hlt
  exact hnodup.map_on fun a ha b hb => list.eq_of_score_eq ha hb

end SkipList

/-! ### Lists that close -/

theorem foldlM_insert_ok {nodes : List TickNode} {t : Ticks}
    (hacceptable : ∀ n ∈ nodes, Acceptable n) (hnodup : (nodes.map TickNode.score).Nodup)
    (hfresh : ∀ n ∈ nodes, n.score ∉ t.byScore) :
    ∃ filed, nodes.foldlM Ticks.insert t = .ok filed := by
  induction nodes generalizing t with
  | nil => exact ⟨t, rfl⟩
  | cons node nodes ih =>
    rw [List.map_cons, List.nodup_cons] at hnodup
    have hinsert : t.insert node = .ok { t with
        byScore := t.byScore.insert node.score t.nodes.length
        byTick := t.byTick.insert node.index t.nodes.length
        nodes := t.nodes ++ [node] } := by
      rw [Ticks.insert, (hacceptable node List.mem_cons_self).scored]
      dsimp only [okOr]
      rw [ok_bind, if_neg (not_not.mpr rfl), if_neg (hfresh node List.mem_cons_self)]
    rw [List.foldlM_cons, hinsert, ok_bind]
    apply ih
    · intro n hn
      exact hacceptable n (List.mem_cons_of_mem _ hn)
    · exact hnodup.2
    · intro n hn
      rw [Finmap.mem_insert]
      rintro (hscore | hknown)
      · exact hnodup.1 (List.mem_map.mpr ⟨n, hn, hscore⟩)
      · exact hfresh n (List.mem_cons_of_mem _ hn) hknown

theorem foldlM_checkNode_ok {t : Ticks} {entries : List (TickNode × ℕ)}
    (hlinks : ∀ e ∈ entries, t.checkLink e.1 e.2 = .ok ())
    (hprices : ∀ e ∈ entries, ∃ deviation, Ticks.checkPrice e.1 = .ok deviation)
    (deviations : Finmap fun _ : ℤ => ℕ) :
    ∃ found, entries.foldlM t.checkNode deviations = .ok found := by
  induction entries generalizing deviations with
  | nil => exact ⟨deviations, rfl⟩
  | cons e entries ih =>
    obtain ⟨deviation, hprice⟩ := hprices e List.mem_cons_self
    rw [List.foldlM_cons, Ticks.checkNode, hlinks e List.mem_cons_self, ok_bind, hprice, ok_bind,
      ok_bind]
    exact ih (fun e he => hlinks e (List.mem_cons_of_mem _ he))
      (fun e he => hprices e (List.mem_cons_of_mem _ he)) _

/-- In tick order, a link to the next node leads ahead. -/
theorem checkLink_linked (list : SkipList) {t : Ticks} (hnodes : t.nodes = list.nodes)
    (hbyScore : t.byScore = positions TickNode.score list.nodes) {n : TickNode} {position : ℕ}
    (hn : list.nodes[position]? = some n) : t.checkLink n position = .ok () := by
  have hlink := list.linked position n hn
  rw [Ticks.checkLink, hlink]
  cases hnext : list.nodes[position + 1]? with
  | none => rfl
  | some next =>
    have hlookup : t.byScore.lookup next.score = some (position + 1) := by
      rw [hbyScore]
      exact (lookup_positions list.scores_nodup).mpr ⟨next, hnext, rfl⟩
    have hahead : n.index < next.index := by
      obtain ⟨hposition, rfl⟩ := List.getElem?_eq_some_iff.mp hn
      obtain ⟨hposition', rfl⟩ := List.getElem?_eq_some_iff.mp hnext
      exact List.pairwise_iff_getElem.mp list.ordered _ _ hposition hposition' (Nat.lt_succ_self _)
    have helsewhere : (some (position + 1)).filter (fun n => n ≠ position) =
        some (position + 1) := by
      rw [Option.filter_some, if_pos (decide_eq_true (Nat.succ_ne_self position))]
    have hfound : ((some (position + 1)).bind (t.nodes[·]?)).any
        (fun m => n.index < m.index) = true := by
      rw [hnodes, Option.bind_some, hnext, Option.any_some]
      exact decide_eq_true hahead
    dsimp only [Option.map_some]
    rw [hlookup, helsewhere, if_pos hfound]

/-- A list that closes is accepted whole, in whatever order it is read. -/
theorem fromChildren_linked (list : SkipList) {nodes : List TickNode}
    (hperm : nodes.Perm list.nodes) (nodeUid : Option ObjectId) (declaredSize : U64) :
    ∃ t skew, Ticks.fromChildren nodeUid declaredSize nodes = .ok (t, skew) := by
  obtain ⟨filed, hfiled⟩ := foldlM_insert_ok (t := Ticks.empty nodeUid (some declaredSize) false)
    (fun n hn => list.acceptable n (hperm.mem_iff.mp hn))
    ((hperm.map TickNode.score).nodup_iff.mpr list.scores_nodup) (fun n _ => Finmap.notMem_empty)
  have hnodes : filed.reindexed.nodes = list.nodes := by
    have hinvariant := foldlM_invariant (fun _ _ _ => filed_insert) hfiled (filed_empty _ _ _)
    have hfilled := foldlM_insert_nodes hfiled
    have hsorted : filed.reindexed.nodes.Perm list.nodes :=
      (List.perm_insertionSort _ _).trans (hfilled ▸ hperm)
    exact hsorted.eq_of_pairwise (fun a b _ _ hlt hlt' => absurd hlt hlt'.not_gt)
      (reindexed_ordered hinvariant) list.ordered
  have hmem : ∀ e ∈ filed.reindexed.nodes.zipIdx, list.nodes[e.2]? = some e.1 := by
    intro e he
    rw [hnodes] at he
    exact List.mem_zipIdx_iff_getElem?.mp he
  obtain ⟨deviations, hnodesOk⟩ := foldlM_checkNode_ok
    (fun e he => checkLink_linked list hnodes (hnodes ▸ rfl) (hmem e he))
    (fun e he => (list.acceptable e.1 (List.mem_of_getElem? (hmem e he))).priced) ∅
  have hcheck : filed.reindexed.check = .ok deviations := by
    have hlenient : filed.strictSize = false :=
      foldlM_invariant (I := fun t : Ticks => t.strictSize = false)
        (fun _ _ _ hlenient hinsert => insert_eq hinsert ▸ hlenient) hfiled rfl
    have hsize : filed.reindexed.checkSize = .ok () := by
      simp only [Ticks.checkSize, Ticks.reindexed, hlenient]
    rw [Ticks.check, hsize, ok_bind]
    exact hnodesOk
  have hfill : (Ticks.empty nodeUid (some declaredSize) false).fill nodes =
      .ok { filed.reindexed with priceDeviations := deviations } := by
    rw [Ticks.fill, hfiled, ok_bind, Ticks.validate, hcheck]
    rfl
  rw [Ticks.fromChildren, hfill, ok_bind]
  exact ⟨_, _, rfl⟩

/-! ### What the links give away -/

/-- An accepted index holds the node every link of its nodes names. -/
theorem fromChildren_closed {nodeUid : Option ObjectId} {declaredSize : U64}
    {nodes : List TickNode} {t : Ticks} {skew : Option SizeSkew}
    (h : Ticks.fromChildren nodeUid declaredSize nodes = .ok (t, skew)) {n : TickNode}
    (hn : n ∈ nodes) {next : U64} (hnext : n.nexts.head? = some next) :
    ∃ m ∈ nodes, m.score = next := by
  obtain ⟨index, hfill, _⟩ := bind_eq_ok_iff.mp h
  obtain ⟨filed, deviations, hfiled, hcheck, _⟩ := fill_ok hfill
  have hperm : filed.reindexed.nodes.Perm nodes :=
    (List.perm_insertionSort _ _).trans (foldlM_insert_nodes hfiled ▸ List.Perm.refl _)
  obtain ⟨position, hposition⟩ := List.mem_iff_getElem?.mp (hperm.mem_iff.mpr hn)
  obtain ⟨_, _, hnodes⟩ := bind_eq_ok_iff.mp hcheck
  have hmem : (n, position) ∈ filed.reindexed.nodes.zipIdx :=
    List.mem_zipIdx_iff_getElem?.mpr hposition
  obtain ⟨_, _, hstep⟩ := foldlM_step_of_mem hnodes hmem
  obtain ⟨_, hlink, _⟩ := bind_eq_ok_iff.mp hstep
  simp only [Ticks.checkLink, hnext] at hlink
  cases hlookup : filed.reindexed.byScore.lookup next with
  | none =>
    rw [hlookup] at hlink
    cases hlink
  | some elsewhere =>
    have hknown : next ∈ filed.reindexed.byScore := Finmap.mem_iff.mpr ⟨elsewhere, hlookup⟩
    obtain ⟨m, hm, hscore⟩ := mem_positions.mp hknown
    exact ⟨m, hperm.mem_iff.mp hm, hscore⟩

variable {list : SkipList}

/-- From a node onwards, a set of nodes that holds what its links name holds the rest. -/
theorem closed_above {kept : List TickNode} (hsubset : ∀ n ∈ kept, n ∈ list.nodes)
    (hclosed : ∀ n ∈ kept, ∀ next, n.nexts.head? = some next → ∃ m ∈ kept, m.score = next)
    {a b : TickNode} (ha : a ∈ kept) (hb : b ∈ list.nodes) (hlt : a.index < b.index) :
    b ∈ kept := by
  obtain ⟨i, hi⟩ := List.mem_iff_getElem?.mp (hsubset a ha)
  obtain ⟨j, hj⟩ := List.mem_iff_getElem?.mp hb
  have hij : i ≤ j := by
    by_contra hlt'
    obtain ⟨hi', rfl⟩ := List.getElem?_eq_some_iff.mp hi
    obtain ⟨hj', rfl⟩ := List.getElem?_eq_some_iff.mp hj
    have hbelow := List.pairwise_iff_getElem.mp list.ordered j i hj' hi' (not_le.mp hlt')
    exact absurd hlt hbelow.not_gt
  clear hlt hb
  induction j, hij using Nat.le_induction generalizing b with
  | base =>
    rw [hi] at hj
    exact Option.some.inj hj ▸ ha
  | succ j hij ih =>
    obtain ⟨hj', _⟩ := List.getElem?_eq_some_iff.mp hj
    have hbefore : list.nodes[j]? = some list.nodes[j] := List.getElem?_eq_getElem (by omega)
    have hlink := list.linked j _ hbefore
    rw [hj] at hlink
    obtain ⟨m, hm, hscore⟩ := hclosed _ (ih hbefore) b.score hlink
    have heq := list.eq_of_score_eq (hsubset m hm) (List.mem_of_getElem? hj) hscore
    exact heq ▸ hm

/-- What is left after losing a run at the bottom closes again. -/
theorem linked_kept {p : TickNode → Bool} (nodes : List TickNode) (hlinked : Linked nodes)
    (hordered : nodes.Pairwise fun a b => a.index < b.index)
    (habove : ∀ a ∈ nodes, ∀ b ∈ nodes, a.index < b.index → p a → p b) :
    Linked (nodes.filter p) := by
  induction nodes with
  | nil => exact hlinked
  | cons n rest ih =>
    rw [List.pairwise_cons] at hordered
    by_cases hn : p n
    · have hall : (n :: rest).filter p = n :: rest := by
        rw [List.filter_eq_self]
        rintro b (_ | ⟨_, hb⟩)
        · exact hn
        · exact habove n List.mem_cons_self b (List.mem_cons_of_mem _ hb) (hordered.1 b hb) hn
      rw [hall]
      exact hlinked
    · rw [List.filter_cons_of_neg hn]
      apply ih
      · intro position m hm
        exact hlinked (position + 1) m hm
      · exact hordered.2
      · intro a ha b hb
        exact habove a (List.mem_cons_of_mem _ ha) b (List.mem_cons_of_mem _ hb)

/-- The upper end of a list. -/
def SkipList.upper (list : SkipList) (p : TickNode → Bool)
    (habove : ∀ a ∈ list.nodes, ∀ b ∈ list.nodes, a.index < b.index → p a → p b) : SkipList where
  nodes := list.nodes.filter p
  ordered := list.ordered.filter p
  acceptable n hn := list.acceptable n (List.mem_of_mem_filter hn)
  linked := linked_kept list.nodes list.linked list.ordered habove

/-- A partial walk is refused exactly when it lost a node above one that it kept. -/
theorem fromChildren_refuses_iff (walk : PartialWalk list) (nodeUid : Option ObjectId)
    (declaredSize : U64) :
    (∃ e, Ticks.fromChildren nodeUid declaredSize walk.nodes = .error e) ↔
      ∃ kept ∈ walk.nodes, ∃ lost ∈ list.nodes, lost ∉ walk.nodes ∧
        kept.index < lost.index := by
  constructor
  · rintro ⟨e, herror⟩
    by_contra hnone
    have habove : ∀ a ∈ list.nodes, ∀ b ∈ list.nodes, a.index < b.index →
        decide (a ∈ walk.nodes) → decide (b ∈ walk.nodes) := by
      simp only [decide_eq_true_eq]
      intro a _ b hb hlt ha
      by_contra hlost
      exact hnone ⟨a, ha, b, hb, hlost, hlt⟩
    have hnodup : list.nodes.Nodup := List.Nodup.of_map _ list.scores_nodup
    have hperm : walk.nodes.Perm (list.upper _ habove).nodes := by
      apply (List.perm_ext_iff_of_nodup walk.nodup (hnodup.filter _)).mpr
      intro n
      rw [List.mem_filter, decide_eq_true_eq]
      exact ⟨fun hn => ⟨walk.subset n hn, hn⟩, fun hn => hn.2⟩
    obtain ⟨t, skew, hok⟩ := fromChildren_linked _ hperm nodeUid declaredSize
    rw [hok] at herror
    cases herror
  · rintro ⟨kept, hkept, lost, hlost, hmissing, hlt⟩
    cases hwalk : Ticks.fromChildren nodeUid declaredSize walk.nodes with
    | error e => exact ⟨e, rfl⟩
    | ok accepted =>
      obtain ⟨t, skew⟩ := accepted
      exact absurd (closed_above walk.subset (fun n hn next => fromChildren_closed hwalk hn)
        hkept hlost hlt) hmissing

/-! ### A walk that lost the head -/

theorem twoPositions_ordered : twoPositions.Pairwise fun a b => a.index < b.index := by decide

theorem twoPositions_acceptable : ∀ n ∈ twoPositions, Acceptable n := by
  have hchecks : twoPositions.all (fun n =>
      checkedScoreFromTick n.tick.index = some n.score ∧ (Ticks.checkPrice n).isOk) = true := by
    decide +kernel
  intro n hn
  have hcheck := List.all_eq_true.mp hchecks n hn
  rw [decide_eq_true_eq] at hcheck
  exact ⟨hcheck.1, exists_ok hcheck.2⟩

theorem twoPositions_linked : Linked twoPositions := by
  rintro (_ | _ | _ | position) n hn
  · cases hn
    rfl
  · cases hn
    rfl
  · cases hn
    rfl
  · cases hn

def threeTicks : SkipList :=
  ⟨twoPositions, twoPositions_ordered, twoPositions_acceptable, twoPositions_linked⟩

/-- A node lost above a kept one is noticed. -/
theorem fromChildren_refuses_gap :
    ∃ e, Ticks.fromChildren none 3 [twoPositions.head (by decide)] = .error e := by
  let walk : PartialWalk threeTicks :=
    { nodes := [twoPositions.head (by decide)]
      nonempty := List.cons_ne_nil _ _
      nodup := List.nodup_singleton _
      subset := by decide
      proper := by decide }
  exact (fromChildren_refuses_iff walk none 3).mpr
    ⟨_, List.mem_cons_self, twoPositions[1], by decide, by decide, by decide⟩

/-- The two upper ticks alone are accepted: nothing links to the lost head. -/
theorem fromChildren_accepts_headless :
    ∃ walk : PartialWalk threeTicks, ∃ t,
      Ticks.fromChildren none 3 walk.nodes = .ok (t, some ⟨3, 2⟩) := by
  let walk : PartialWalk threeTicks :=
    { nodes := twoPositions.tail
      nonempty := by decide
      nodup := by decide
      subset := by decide
      proper := by decide }
  have hok : ((Ticks.fromChildren none 3 twoPositions.tail).map Prod.snd) =
      .ok (some ⟨3, 2⟩) := by
    decide +kernel
  obtain ⟨accepted, haccepted⟩ := exists_ok (x := Ticks.fromChildren none 3 twoPositions.tail)
    (by decide +kernel)
  obtain ⟨t, skew⟩ := accepted
  rw [haccepted] at hok
  cases hok
  exact ⟨walk, t, haccepted⟩

end SkipLinks
