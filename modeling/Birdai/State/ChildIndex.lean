import Birdai.State.OrderedFold

/-!
# The child index

Child sets under the inner UIDs of pools, and for each child the UID whose set
holds it. Insertions, drops at capacity, deletions of children and removals of
pools each touch one map or both.
-/

namespace ChildIndex

open WideArith Outcomes TickIndex MoveTypes AnyVenues Manager KeyedFolds PhaseSpecs OrderedFold

section run
variable {ε σ : Type} (layouts : LayoutSource ε σ) (decoders : Decoders)

/-- The manager after a sequence of calls, whatever state their layouts were read in. -/
def applyAll (m : StateManager) (calls : List (σ × Checkpoint)) : StateManager :=
  calls.foldl (fun m call => (applyCheckpoint layouts decoders m call.1 call.2).2.1) m

/-- Every decodable version of an object carries the same inner UID. -/
def SameUid (calls : List (σ × Checkpoint)) : Prop :=
  ∃ uid : ObjectId → Option ObjectId, ∀ call ∈ calls,
    ∀ object ∈ call.2.changes.filterMap (decodingOf layouts decoders call.1 call.2),
      object.venue.nodeUid? = uid object.id

/-- Every dynamic field id keeps one parent UID. -/
def OneParent (calls : List (σ × Checkpoint)) : Prop :=
  ∃ parentOf : ObjectId → ObjectId, ∀ call ∈ calls,
    ∀ child ∈ call.2.changes.filterMap (childOf call.2.objectSet), child.1 = parentOf child.2

end run

/-! ### Children of tracked pools only -/

/-- Every tracked venue carries the inner UID of its object. -/
def Typed (uid : ObjectId → Option ObjectId) (m : StateManager) : Prop :=
  ∀ id slot, m.slots.lookup id = some slot → slot.venue.nodeUid? = uid id

/-- Every child set is bounded and hangs off a tracked pool. -/
def Covered (m : StateManager) : Prop :=
  ∀ u set, m.children.lookup u = some set →
    (set.capacity = m.childCapacity ∧ set.fieldIds.card ≤ set.capacity) ∧
      ∃ id, m.nodeUidOf id = some u

theorem insert_bounded {set : ChildSet} (h : set.fieldIds.card ≤ set.capacity)
    (fieldId : ObjectId) : (set.insert fieldId).1.fieldIds.card ≤ set.capacity := by
  simp only [ChildSet.insert]
  split
  · exact h
  · rename_i hroom
    by_cases hheld : fieldId ∈ set.fieldIds
    · rw [Finset.insert_eq_of_mem hheld]
      exact h
    · have hcard := Finset.card_insert_of_notMem hheld
      have hless : ¬ set.capacity ≤ set.fieldIds.card := fun hfull => hroom ⟨hfull, hheld⟩
      dsimp only
      omega

theorem insertAll_bounded {set : ChildSet} (h : set.fieldIds.card ≤ set.capacity)
    (fieldIds : List ObjectId) : (insertAll set fieldIds).fieldIds.card ≤ set.capacity := by
  induction fieldIds generalizing set with
  | nil => exact h
  | cons fieldId rest ih =>
    have hcapacity : (set.insert fieldId).1.capacity = set.capacity := by
      simp only [ChildSet.insert]
      split
      · rfl
      · rfl
    have hfirst := insert_bounded h fieldId
    rw [← hcapacity] at hfirst ⊢
    exact ih hfirst

theorem typed_publishInto {uid : ObjectId → Option ObjectId}
    {slots : Finmap fun _ : ObjectId => VenueSlot} {object : Decoded}
    (hslots : ∀ id slot, slots.lookup id = some slot → slot.venue.nodeUid? = uid id)
    (hobject : object.venue.nodeUid? = uid object.id) (id : ObjectId) (slot : VenueSlot)
    (h : (publishInto slots object).lookup id = some slot) : slot.venue.nodeUid? = uid id := by
  rw [lookup_publishInto] at h
  split at h
  · rename_i hid
    subst hid
    simp only [publishCell] at h
    split at h
    · cases h
      exact hobject
    · exact hslots _ slot h
  · exact hslots id slot h

/-- Publishing keeps every pool tracked under its UID. -/
theorem covered_publishAll {uid : ObjectId → Option ObjectId} {p : Progress}
    {outcomes : List (Except StateError Decoded)} (htyped : Typed uid p.manager)
    (hobjects : ∀ object ∈ outcomes.filterMap Except.toOption,
      object.venue.nodeUid? = uid object.id)
    (hcovered : Covered p.manager) :
    Typed uid (outcomes.foldl Progress.publish p).manager ∧
      Covered (outcomes.foldl Progress.publish p).manager := by
  obtain ⟨hslots, hchildren, _, hrest⟩ := publishAll_spec outcomes p
  have htyped' : Typed uid (outcomes.foldl Progress.publish p).manager := by
    rw [Typed, hslots]
    generalize outcomes.filterMap Except.toOption = objects at hobjects
    have hstart := htyped
    rw [Typed] at hstart
    generalize p.manager.slots = slots at hstart ⊢
    induction objects generalizing slots with
    | nil => exact hstart
    | cons object rest ih =>
      exact ih (fun o ho => hobjects o (List.mem_cons_of_mem _ ho)) _
        (typed_publishInto hstart (hobjects object List.mem_cons_self))
  refine ⟨htyped', fun u set hset => ?_⟩
  rw [hchildren] at hset
  obtain ⟨hbounded, id, hid⟩ := hcovered u set hset
  rw [hrest.childCapacity]
  refine ⟨hbounded, id, ?_⟩
  obtain ⟨slot, hslot, huid⟩ := Option.bind_eq_some_iff.mp hid
  have hkept : ((outcomes.foldl Progress.publish p).manager.slots.lookup id).isSome = true := by
    rw [hslots, lookup_publishAll]
    exact foldl_preserves (I := fun cell : Option VenueSlot => cell.isSome = true)
      (fun cell object _ => isSome_publishCell cell object) _ (by rw [hslot]; rfl)
  obtain ⟨slot', hslot'⟩ := Option.isSome_iff_exists.mp hkept
  rw [StateManager.nodeUidOf, hslot', Option.bind_some, htyped' id slot' hslot',
    ← htyped id slot hslot]
  exact huid

/-- A removal takes a pool's child set along. -/
theorem covered_remove {p : Progress} (id : ObjectId) (hcovered : Covered p.manager) :
    Covered (p.remove id).manager := by
  obtain ⟨hslots, hchildren, howners, hrest⟩ := removeSlot_spec p id
  obtain ⟨hslots', hchildren', _, hrest'⟩ := removeChild_spec (p.removeSlot id) id
  have hsame : SameRest p.manager (p.remove id).manager := hrest.trans hrest'
  intro u set hset
  have hlookup : (p.remove id).manager.children.lookup u = _ := hchildren' u
  rw [hlookup, hchildren u] at hset
  have hheld : ∀ s, (if p.manager.nodeUidOf id = some u then none
      else p.manager.children.lookup u) = some s →
      (s.capacity = p.manager.childCapacity ∧ s.fieldIds.card ≤ s.capacity) ∧
        ∃ other, (p.remove id).manager.nodeUidOf other = some u := by
    intro s hs
    split at hs
    · cases hs
    · rename_i hpool
      obtain ⟨hbounded, other, hother⟩ := hcovered u s hs
      refine ⟨hbounded, other, ?_⟩
      have hne : id ≠ other := fun he => hpool (he ▸ hother)
      have hslot : (p.remove id).manager.slots.lookup other = p.manager.slots.lookup other :=
        (congrArg (Finmap.lookup other) hslots').trans ((hslots other).trans (if_neg hne))
      rw [StateManager.nodeUidOf, hslot]
      exact hother
  rw [hsame.childCapacity]
  split at hset
  · obtain ⟨s, hs, rfl⟩ := Option.map_eq_some_iff.mp hset
    obtain ⟨⟨hcapacity, hcard⟩, hpool⟩ := hheld s hs
    exact ⟨⟨hcapacity, (Finset.card_erase_le).trans hcard⟩, hpool⟩
  · exact hheld set hset

/-- Indexing opens sets under tracked pools only, up to their capacity. -/
theorem covered_indexChildren {p : Progress} (childParents : List (ObjectId × ObjectId))
    (hcovered : Covered p.manager) : Covered (p.indexChildren childParents).manager := by
  obtain ⟨hslots, hchildren, hrest⟩ := indexChildren_spec p childParents
  have huid : ∀ id, (p.indexChildren childParents).manager.nodeUidOf id =
      p.manager.nodeUidOf id := by
    intro id
    rw [StateManager.nodeUidOf, hslots, StateManager.nodeUidOf]
  intro u set hset
  rw [hrest.childCapacity]
  simp only [huid]
  rw [hchildren u] at hset
  split at hset
  · rename_i hindexed
    obtain rfl := Option.some.inj hset
    refine ⟨?_, mem_pricedParents.mp hindexed.1⟩
    have hopen : ((p.manager.children.lookup u).getD ⟨∅, p.manager.childCapacity⟩).capacity =
          p.manager.childCapacity ∧
        ((p.manager.children.lookup u).getD ⟨∅, p.manager.childCapacity⟩).fieldIds.card ≤
          ((p.manager.children.lookup u).getD ⟨∅, p.manager.childCapacity⟩).capacity := by
      cases hheld : p.manager.children.lookup u with
      | none => exact ⟨rfl, by simp⟩
      | some s => exact (hcovered u s hheld).1
    have hcapacity := (insertAll_spec (fieldsUnder childParents u)
      ((p.manager.children.lookup u).getD ⟨∅, p.manager.childCapacity⟩)).1
    exact ⟨hcapacity.trans hopen.1, (insertAll_bounded hopen.2 _).trans hcapacity.ge⟩
  · exact hcovered u set hset

section covered
variable {ε σ : Type} {layouts : LayoutSource ε σ} {decoders : Decoders}
  {uid : ObjectId → Option ObjectId}

theorem covered_finish {p : Progress} (sequence : U64) (found : Collected)
    {outcomes : List (Except StateError Decoded)} (htyped : Typed uid p.manager)
    (hobjects : ∀ object ∈ outcomes.filterMap Except.toOption,
      object.venue.nodeUid? = uid object.id)
    (hcovered : Covered p.manager) :
    Typed uid (finish p sequence found outcomes).manager ∧
      Covered (finish p sequence found outcomes).manager := by
  obtain ⟨htyped', hcovered'⟩ := covered_publishAll htyped hobjects hcovered
  have hremoved : Covered
      (found.removed.foldl Progress.remove (outcomes.foldl Progress.publish p)).manager :=
    foldl_preserves (I := fun q : Progress => Covered q.manager)
      (fun q id hq => covered_remove id hq) _ hcovered'
  refine ⟨fun id slot hslot => ?_, covered_indexChildren found.childParents hremoved⟩
  rw [(finish_spec p sequence found outcomes).1 id, ← (publishAll_spec outcomes p).1] at hslot
  split at hslot
  · cases hslot
  · exact htyped' id slot hslot

theorem covered_apply {m : StateManager} {source : σ} {checkpoint : Checkpoint}
    (hobjects : ∀ object ∈ checkpoint.changes.filterMap
      (decodingOf layouts decoders source checkpoint), object.venue.nodeUid? = uid object.id)
    (htyped : Typed uid m) (hcovered : Covered m) :
    Typed uid (applyCheckpoint layouts decoders m source checkpoint).2.1 ∧
      Covered (applyCheckpoint layouts decoders m source checkpoint).2.1 ∧
      (applyCheckpoint layouts decoders m source checkpoint).2.1.childCapacity =
        m.childCapacity := by
  cases hskips : m.skips checkpoint with
  | true =>
    simp only [applyCheckpoint, hskips, ↓reduceIte]
    exact ⟨htyped, hcovered, trivial⟩
  | false =>
    obtain ⟨p, outcomes, source', hsame, houtcomes, happly⟩ :=
      applyCheckpoint_fresh layouts decoders source hskips
    have htyped' : Typed uid p.manager := by
      rw [Typed, hsame.slots]
      exact htyped
    have hcovered' : Covered p.manager := by
      simp only [Covered, StateManager.nodeUidOf, hsame.slots, hsame.children,
        hsame.childCapacity]
      exact hcovered
    rw [happly]
    rw [← houtcomes] at hobjects
    obtain ⟨hfinal, hfinal'⟩ := covered_finish checkpoint.sequenceNumber (collect checkpoint)
      htyped' hobjects hcovered'
    exact ⟨hfinal, hfinal', (finish_spec p _ _ outcomes).2.2.2.trans hsame.childCapacity⟩

end covered

/-- In every run whose objects keep their inner UIDs, each child set hangs off a tracked
pool and stays within the capacity. -/
theorem children_covered {ε σ : Type} (layouts : LayoutSource ε σ) (decoders : Decoders)
    (childCapacity : ℕ) (calls : List (σ × Checkpoint)) (hsame : SameUid layouts decoders calls)
    (u : ObjectId) (set : ChildSet)
    (hset : (applyAll layouts decoders (StateManager.withChildCapacity childCapacity)
      calls).children.lookup u = some set) :
    set.fieldIds.card ≤ childCapacity ∧ ∃ id slot,
      (applyAll layouts decoders (StateManager.withChildCapacity childCapacity)
        calls).slots.lookup id = some slot ∧ slot.venue.nodeUid? = some u := by
  obtain ⟨uid, huid⟩ := hsame
  have hrun : ∀ m : StateManager, Typed uid m → Covered m →
      Covered (applyAll layouts decoders m calls) ∧
        (applyAll layouts decoders m calls).childCapacity = m.childCapacity := by
    clear hset
    induction calls with
    | nil => exact fun m _ hcovered => ⟨hcovered, rfl⟩
    | cons call rest ih =>
      intro m htyped hcovered
      obtain ⟨htyped', hcovered', hcapacity⟩ := covered_apply
        (huid call List.mem_cons_self) htyped hcovered
      obtain ⟨hlast, hlast'⟩ := ih (fun c hc => huid c (List.mem_cons_of_mem _ hc)) _
        htyped' hcovered'
      exact ⟨hlast, hlast'.trans hcapacity⟩
  obtain ⟨hcovered, hcapacity⟩ := hrun (StateManager.withChildCapacity childCapacity)
    (fun id slot h => by simp [StateManager.withChildCapacity] at h)
    (fun u set h => by simp [StateManager.withChildCapacity] at h)
  obtain ⟨⟨hcap, hcard⟩, id, hid⟩ := hcovered u set hset
  refine ⟨hcard.trans_eq (hcap.trans hcapacity), id, ?_⟩
  exact Option.bind_eq_some_iff.mp hid

theorem children_covered_minted :
    ∃ id slot, (applyAll poolLayouts poolDecoders (StateManager.withChildCapacity 4)
      [((), opening), ((), minted)]).slots.lookup id = some slot ∧
        slot.venue.nodeUid? = some 9 :=
  (children_covered poolLayouts poolDecoders 4 [((), opening), ((), minted)]
    ⟨fun _ => some 9, by decide +kernel⟩ 9 ⟨{8}, 4⟩ (by decide +kernel)).2

/-! ### The reverse map -/

/-- The index and its reverse map agree. -/
def Agree (m : StateManager) : Prop :=
  ∀ x u, m.childOwners.lookup x = some u ↔ x ∈ m.childFields u

/-- A child is only ever owned by its own parent. -/
def Routed (parentOf : ObjectId → ObjectId) (m : StateManager) : Prop :=
  ∀ x u, m.childOwners.lookup x = some u → u = parentOf x

/-- What indexing does to the two maps. -/
structure Indexed (m m' : StateManager) : Prop where
  kept : ∀ u, m.childFields u ⊆ m'.childFields u
  owned : ∀ x u, m.childOwners.lookup x = some u → m'.childOwners.lookup x = some u
  owners : ∀ x u, m'.childOwners.lookup x = some u →
    m.childOwners.lookup x = some u ∨ x ∈ m'.childFields u
  entered : ∀ x u, x ∈ m'.childFields u →
    x ∈ m.childFields u ∨ m'.childOwners.lookup x = some u

theorem Indexed.refl (m : StateManager) : Indexed m m :=
  ⟨fun _ => subset_rfl, fun _ _ h => h, fun _ _ h => .inl h, fun _ _ h => .inl h⟩

theorem Indexed.trans {m m' m'' : StateManager} (h : Indexed m m') (h' : Indexed m' m'') :
    Indexed m m'' := by
  refine ⟨fun u => (h.kept u).trans (h'.kept u), fun x u hx => h'.owned x u (h.owned x u hx),
    fun x u hx => ?_, fun x u hx => ?_⟩
  · rcases h'.owners x u hx with hx | hx
    · exact (h.owners x u hx).imp_right fun hx => h'.kept u hx
    · exact .inr hx
  · rcases h'.entered x u hx with hx | hx
    · exact (h.entered x u hx).imp_right (h'.owned x u)
    · exact .inr hx

theorem index_cases (parent : ObjectId) (g : Grouping) (fieldId : ObjectId) :
    ((g.index parent fieldId).set.fieldIds = g.set.fieldIds ∧
      (g.index parent fieldId).owners = g.owners) ∨
    (fieldId ∉ g.set.fieldIds ∧
      (g.index parent fieldId).set.fieldIds = Insert.insert fieldId g.set.fieldIds ∧
      (g.index parent fieldId).owners = g.owners.insert fieldId parent) := by
  by_cases hfull : g.set.capacity ≤ g.set.fieldIds.card ∧ fieldId ∉ g.set.fieldIds
  · have hinsert : g.set.insert fieldId = (g.set, false) := if_pos hfull
    simp [Grouping.index, hinsert, hfull.2]
  · have hinsert : g.set.insert fieldId =
        ({ g.set with fieldIds := Insert.insert fieldId g.set.fieldIds },
          decide (fieldId ∉ g.set.fieldIds)) := if_neg hfull
    by_cases hheld : fieldId ∈ g.set.fieldIds
    · simp [Grouping.index, hinsert, hheld]
    · simp [Grouping.index, hinsert, hheld]

/-- Exactly the fields that enter a set get its parent for their owner. -/
theorem grouping_owners (parent : ObjectId) (fieldIds : List ObjectId) (g : Grouping) :
    g.set.fieldIds ⊆ (fieldIds.foldl (Grouping.index parent) g).set.fieldIds ∧
      (∀ x ∈ (fieldIds.foldl (Grouping.index parent) g).set.fieldIds,
        x ∈ g.set.fieldIds ∨ x ∈ fieldIds) ∧
      ∀ x, (fieldIds.foldl (Grouping.index parent) g).owners.lookup x =
        if x ∈ (fieldIds.foldl (Grouping.index parent) g).set.fieldIds ∧ x ∉ g.set.fieldIds then
          some parent
        else g.owners.lookup x := by
  induction fieldIds generalizing g with
  | nil => exact ⟨subset_rfl, fun x hx => .inl hx, fun x => by simp⟩
  | cons fieldId rest ih =>
    obtain ⟨hsubset, hentered, howners⟩ := ih (g.index parent fieldId)
    simp only [List.foldl_cons]
    rcases index_cases parent g fieldId with ⟨hset, howner⟩ | ⟨hnew, hset, howner⟩
    · rw [hset] at hsubset hentered howners
      rw [howner] at howners
      exact ⟨hsubset, fun x hx => (hentered x hx).imp_right (List.mem_cons_of_mem _), howners⟩
    · rw [hset] at hsubset hentered howners
      rw [howner] at howners
      refine ⟨(Finset.subset_insert _ _).trans hsubset, fun x hx => ?_, fun x => ?_⟩
      · rcases hentered x hx with hx | hx
        · rcases Finset.mem_insert.mp hx with rfl | hx
          · exact .inr List.mem_cons_self
          · exact .inl hx
        · exact .inr (List.mem_cons_of_mem _ hx)
      · rw [howners x]
        by_cases hx : x = fieldId
        · subst hx
          have hmem := hsubset (Finset.mem_insert_self x g.set.fieldIds)
          simp [hmem, hnew]
        · exact if_congr (and_congr_right' (by simp [hx])) rfl (Finmap.lookup_insert_of_ne _ hx)

/-- A group enters the set of its parent, and what enters gets that parent for its owner. -/
theorem indexGroup_enters {priced : Finset ObjectId} (p : Progress) {parent : ObjectId}
    (fieldIds : List ObjectId) (hpriced : parent ∈ priced) :
    ∃ held : Finset ObjectId,
      (∀ u, (p.indexGroup priced (parent, fieldIds)).manager.childFields u =
        if u = parent then held else p.manager.childFields u) ∧
      p.manager.childFields parent ⊆ held ∧
      (∀ x ∈ held, x ∈ p.manager.childFields parent ∨ x ∈ fieldIds) ∧
      ∀ x, (p.indexGroup priced (parent, fieldIds)).manager.childOwners.lookup x =
        if x ∈ held ∧ x ∉ p.manager.childFields parent then some parent
        else p.manager.childOwners.lookup x := by
  simp only [Progress.indexGroup, if_neg (not_not.mpr hpriced)]
  obtain ⟨hsubset, hentered, howners⟩ := grouping_owners parent fieldIds
    ⟨(p.manager.children.lookup parent).getD ⟨∅, p.manager.childCapacity⟩,
      p.manager.childOwners, 0, 0⟩
  generalize fieldIds.foldl (Grouping.index parent) _ = g at hsubset hentered howners ⊢
  have hheld : ((p.manager.children.lookup parent).getD
      ⟨∅, p.manager.childCapacity⟩).fieldIds = p.manager.childFields parent := by
    rw [StateManager.childFields]
    cases p.manager.children.lookup parent <;> rfl
  rw [hheld] at hsubset
  simp only [hheld] at hentered howners
  refine ⟨g.set.fieldIds, fun u => ?_, hsubset, hentered, howners⟩
  simp only [StateManager.childFields]
  by_cases hu : u = parent
  · subst hu
    simp
  · rw [Finmap.lookup_insert_of_ne _ hu, if_neg hu]

section index
variable {parentOf : ObjectId → ObjectId}

theorem indexGroup_indexed (priced : Finset ObjectId) {p : Progress}
    {group : ObjectId × List ObjectId} (hgroup : ∀ x ∈ group.2, group.1 = parentOf x)
    (hrouted : Routed parentOf p.manager) :
    Indexed p.manager (p.indexGroup priced group).manager ∧
      Routed parentOf (p.indexGroup priced group).manager := by
  obtain ⟨parent, fieldIds⟩ := group
  by_cases hpriced : parent ∈ priced
  · obtain ⟨held, hfields, hsubset, hentered, howners⟩ := indexGroup_enters p fieldIds hpriced
    generalize (p.indexGroup priced (parent, fieldIds)).manager = m at hfields howners ⊢
    -- A field that enters was listed, so the group's parent is its own.
    have hown : ∀ x, x ∈ held → x ∉ p.manager.childFields parent → parent = parentOf x :=
      fun x hx hnew => hgroup x ((hentered x hx).resolve_left hnew)
    refine ⟨⟨fun u => ?_, fun x u hx => ?_, fun x u hx => ?_, fun x u hx => ?_⟩,
      fun x u hx => ?_⟩
    · rw [hfields u]
      split
      · rename_i hu
        rw [hu]
        exact hsubset
      · exact subset_rfl
    · rw [howners x]
      split
      · rename_i hnew
        rw [hown x hnew.1 hnew.2, hrouted x u hx]
      · exact hx
    · rw [howners x] at hx
      split at hx
      · rename_i hnew
        obtain rfl := Option.some.inj hx
        rw [hfields, if_pos rfl]
        exact .inr hnew.1
      · exact .inl hx
    · rw [hfields u] at hx
      split at hx
      · rename_i hu
        subst hu
        by_cases hold : x ∈ p.manager.childFields u
        · exact .inl hold
        · exact .inr ((howners x).trans (if_pos ⟨hx, hold⟩))
      · exact .inl hx
    · rw [howners x] at hx
      split at hx
      · rename_i hnew
        obtain rfl := Option.some.inj hx
        exact hown x hnew.1 hnew.2
      · exact hrouted x u hx
  · have hskip : p.indexGroup priced (parent, fieldIds) = p := if_pos hpriced
    rw [hskip]
    exact ⟨Indexed.refl _, hrouted⟩

theorem indexChildren_indexed {p : Progress} {childParents : List (ObjectId × ObjectId)}
    (hchildren : ∀ child ∈ childParents, child.1 = parentOf child.2)
    (hrouted : Routed parentOf p.manager) :
    Indexed p.manager (p.indexChildren childParents).manager ∧
      Routed parentOf (p.indexChildren childParents).manager := by
  simp only [Progress.indexChildren]
  split
  · exact ⟨Indexed.refl _, hrouted⟩
  · have hgroups : ∀ group ∈ ((groupChildren childParents).keys.sort (· ≤ ·)).map
        (fun parent => (parent, ((groupChildren childParents).lookup parent).getD [])),
        ∀ x ∈ group.2, group.1 = parentOf x := by
      intro group hgroup x hx
      obtain ⟨parent, _, rfl⟩ := List.mem_map.mp hgroup
      dsimp only at hx ⊢
      rw [groupChildren_lookup] at hx
      split at hx
      · cases hx
      · obtain ⟨child, hchild, rfl⟩ := List.mem_map.mp hx
        obtain ⟨hmem, hparent⟩ := List.mem_filter.mp hchild
        rw [← of_decide_eq_true hparent]
        exact hchildren child hmem
    generalize pricedParents p.manager = priced
    generalize ((groupChildren childParents).keys.sort (· ≤ ·)).map
      (fun parent => (parent, ((groupChildren childParents).lookup parent).getD [])) = groups
      at hgroups
    induction groups generalizing p with
    | nil => exact ⟨Indexed.refl _, hrouted⟩
    | cons group rest ih =>
      obtain ⟨hfirst, hrouted'⟩ :=
        indexGroup_indexed priced (hgroups group List.mem_cons_self) hrouted
      obtain ⟨hrest, hlast⟩ := ih hrouted' fun g hg => hgroups g (List.mem_cons_of_mem _ hg)
      exact ⟨hfirst.trans hrest, hlast⟩

end index

theorem removeAll_owners (removed : List ObjectId) (p : Progress) (x : ObjectId) :
    (removed.foldl Progress.remove p).manager.childOwners.lookup x =
      if x ∈ removed then none else p.manager.childOwners.lookup x := by
  induction removed generalizing p with
  | nil => simp
  | cons id rest ih =>
    rw [List.foldl_cons, ih, (remove_spec p id).2.1]
    by_cases hid : id = x
    · simp [hid]
    · simp [hid, Ne.symm hid]

/-- A parent whose set is empty holds what is indexed for it, if its pool is tracked. -/
theorem mem_childFields_fresh {p : Progress} {childParents : List (ObjectId × ObjectId)}
    {u x : ObjectId} (hcapped : Capped p.manager) (hempty : ∀ y, y ∉ p.manager.childFields u) :
    x ∈ (p.indexChildren childParents).manager.childFields u ↔ u ∈ pricedParents p.manager ∧
      x ∈ (insertAll ⟨∅, p.manager.childCapacity⟩ (fieldsUnder childParents u)).fieldIds := by
  have hfresh : (p.manager.children.lookup u).getD ⟨∅, p.manager.childCapacity⟩ =
      ⟨∅, p.manager.childCapacity⟩ := by
    cases hset : p.manager.children.lookup u with
    | none => rfl
    | some set =>
      obtain ⟨fieldIds, capacity⟩ := set
      have hcapacity : capacity = p.manager.childCapacity := hcapped u _ hset
      have hnone : fieldIds = ∅ := by
        refine Finset.eq_empty_of_forall_notMem fun y hy => hempty y ?_
        rw [mem_childFields]
        exact ⟨_, hset, hy⟩
      rw [Option.getD_some, hnone, hcapacity]
  have hlookup := (indexChildren_spec p childParents).2.1 u
  rw [hfresh] at hlookup
  rw [StateManager.childFields, hlookup]
  by_cases hpriced : u ∈ pricedParents p.manager
  · by_cases hfields : fieldsUnder childParents u = []
    · have hx := hempty x
      rw [StateManager.childFields] at hx
      simp [hfields, hpriced, hx, insertAll]
    · simp [hfields, hpriced]
  · have hx := hempty x
    rw [StateManager.childFields] at hx
    simp [hpriced, hx]

/-- After a removal the maps agree again exactly when every child of a parent that is
gone is removed or entered anew. -/
theorem agree_iff_of_phases {m mid last : StateManager} {gone : ObjectId → Prop}
    {removed : List ObjectId} (hagree : Agree m)
    (hfields : ∀ u x, x ∈ mid.childFields u ↔ x ∈ m.childFields u ∧ ¬ gone u ∧ x ∉ removed)
    (howners : ∀ x, mid.childOwners.lookup x =
      if x ∈ removed then none else m.childOwners.lookup x)
    (hindexed : Indexed mid last) :
    Agree last ↔ ∀ u, gone u → ∀ x ∈ m.childFields u, x ∈ removed ∨ x ∈ last.childFields u := by
  constructor
  · intro hlast u _ x hx
    by_cases hremoved : x ∈ removed
    · exact .inl hremoved
    · have howner : mid.childOwners.lookup x = some u := by
        rw [howners, if_neg hremoved]
        exact (hagree x u).mpr hx
      exact .inr ((hlast x u).mp (hindexed.owned x u howner))
  · intro hclears x u
    constructor
    · intro howner
      rcases hindexed.owners x u howner with hbefore | hentered
      · rw [howners] at hbefore
        split at hbefore
        · cases hbefore
        · rename_i hkept
          have hx := (hagree x u).mp hbefore
          by_cases hgone : gone u
          · exact (hclears u hgone x hx).resolve_left hkept
          · exact hindexed.kept u ((hfields u x).mpr ⟨hx, hgone, hkept⟩)
      · exact hentered
    · intro hx
      rcases hindexed.entered x u hx with hbefore | howner
      · obtain ⟨hheld, _, hkept⟩ := (hfields u x).mp hbefore
        refine hindexed.owned x u ?_
        rw [howners, if_neg hkept]
        exact (hagree x u).mpr hheld
      · exact howner

section agree
variable {ε σ : Type} (layouts : LayoutSource ε σ) (decoders : Decoders)

/-- Of a pool that the checkpoint removes, every child held goes too, or is written again
under a pool with the same inner UID that stays, within its capacity. -/
def Clears (m : StateManager) (source : σ) (checkpoint : Checkpoint) : Prop :=
  ∀ u, Untracked layouts decoders m source checkpoint u → ∀ x ∈ m.childFields u,
    x ∈ removedIds checkpoint ∨ Tracked layouts decoders m source checkpoint u ∧
      x ∈ (insertAll ⟨∅, m.childCapacity⟩
        (fieldsUnder (checkpoint.changes.filterMap (childOf checkpoint.objectSet)) u)).fieldIds

variable {layouts decoders} {parentOf : ObjectId → ObjectId}

/-- One checkpoint keeps the two maps in agreement exactly when it clears what it
removes. -/
theorem agree_apply_iff {m : StateManager} {source : σ} {checkpoint : Checkpoint}
    (hcapped : Capped m) (hagree : Agree m) (hrouted : Routed parentOf m)
    (hchildren : ∀ child ∈ checkpoint.changes.filterMap (childOf checkpoint.objectSet),
      child.1 = parentOf child.2) (hfresh : m.skips checkpoint = false) :
    (Agree (applyCheckpoint layouts decoders m source checkpoint).2.1 ↔
        Clears layouts decoders m source checkpoint) ∧
      Routed parentOf (applyCheckpoint layouts decoders m source checkpoint).2.1 := by
  obtain ⟨p, outcomes, source', hsame, houtcomes, happly⟩ :=
    applyCheckpoint_fresh layouts decoders source hfresh
  obtain ⟨_, hremoved, hfound⟩ := collect_finds checkpoint
  obtain ⟨_, hheld, howners, hrest⟩ := publishAll_spec outcomes p
  obtain ⟨hslots, hfields, hkeeps, hrest'⟩ :=
    removeAll_spec (collect checkpoint).removed (outcomes.foldl Progress.publish p)
  have hroutes := removeAll_owners (collect checkpoint).removed (outcomes.foldl Progress.publish p)
  have huid := nodeUidOf_published hsame houtcomes
  have hcapped' := hkeeps (publishAll_capped outcomes
    (capped_of_children hcapped ⟨hsame.children, hsame.childCapacity⟩))
  have hcapacity := (hrest.trans hrest').childCapacity.trans hsame.childCapacity
  have hchildFields : (outcomes.foldl Progress.publish p).manager.childFields = m.childFields := by
    funext u
    rw [StateManager.childFields, hheld, hsame.children, StateManager.childFields]
  rw [happly]
  simp only [finish, Progress.commit, hfound]
  generalize (collect checkpoint).removed.foldl Progress.remove
    (outcomes.foldl Progress.publish p) = q at hslots hfields hroutes hcapped' hcapacity ⊢
  rw [hremoved] at hslots hfields hroutes
  simp only [hchildFields, huid, howners, hsame.childOwners] at hfields hroutes
  have hgone : ∀ u x, x ∈ q.manager.childFields u ↔ x ∈ m.childFields u ∧
      ¬ Untracked layouts decoders m source checkpoint u ∧ x ∉ removedIds checkpoint := by
    intro u x
    rw [hfields u x]
    refine and_congr_right fun hx => and_congr ?_ (not_congr ?_)
    · simp only [Untracked, removedIds, not_exists, not_and, ne_eq]
    · exact and_iff_left ((hagree x u).mpr hx)
  have hrouted' : Routed parentOf q.manager := by
    intro x u hx
    rw [hroutes] at hx
    split at hx
    · cases hx
    · exact hrouted x u hx
  obtain ⟨hindexed, hlast⟩ := indexChildren_indexed hchildren hrouted'
  refine ⟨(agree_iff_of_phases hagree hgone hroutes hindexed).trans ?_, hlast⟩
  refine forall_congr' fun u => forall_congr' fun huntracked => forall₂_congr fun x _ =>
    or_congr_right ?_
  have hempty : ∀ y, y ∉ q.manager.childFields u :=
    fun y hy => ((hgone u y).mp hy).2.1 huntracked
  rw [mem_childFields_fresh hcapped' hempty, hcapacity, mem_pricedParents]
  refine and_congr_left' (exists_congr fun id => ?_)
  rw [StateManager.nodeUidOf, hslots, ← huid id, StateManager.nodeUidOf]
  by_cases hid : id ∈ removedIds checkpoint
  · have hid' : id ∈ checkpoint.changes.filterMap removedBy := hid
    simp [hid, hid']
  · have hid' : id ∉ checkpoint.changes.filterMap removedBy := hid
    simp [hid, hid']

theorem run_agree_iff {calls : List (σ × Checkpoint)}
    (hchildren : ∀ call ∈ calls, ∀ child ∈ call.2.changes.filterMap (childOf call.2.objectSet),
      child.1 = parentOf child.2)
    {m : StateManager} (hm : Reachable layouts decoders m) (hagree : Agree m)
    (hrouted : Routed parentOf m) :
    (∀ before, before <+: calls → Agree (applyAll layouts decoders m before)) ↔
      ∀ before call, before ++ [call] <+: calls →
        (applyAll layouts decoders m before).skips call.2 = true ∨
          Clears layouts decoders (applyAll layouts decoders m before) call.1 call.2 := by
  induction calls generalizing m with
  | nil =>
    constructor
    · intro _ before call hprefix
      exact absurd (List.prefix_nil.mp hprefix) (by simp)
    · intro _ before hprefix
      rw [List.prefix_nil.mp hprefix]
      exact hagree
  | cons first rest ih =>
    have hrest : ∀ call ∈ rest, ∀ child ∈ call.2.changes.filterMap (childOf call.2.objectSet),
        child.1 = parentOf child.2 :=
      fun call hcall => hchildren call (List.mem_cons_of_mem _ hcall)
    have hstep : (Agree (applyCheckpoint layouts decoders m first.1 first.2).2.1 ↔
        m.skips first.2 = true ∨ Clears layouts decoders m first.1 first.2) ∧
        Routed parentOf (applyCheckpoint layouts decoders m first.1 first.2).2.1 := by
      cases hskips : m.skips first.2 with
      | true =>
        simp only [applyCheckpoint, hskips, ↓reduceIte]
        exact ⟨iff_of_true hagree (.inl trivial), hrouted⟩
      | false =>
        simp only [Bool.false_eq_true, false_or]
        exact agree_apply_iff (capped_of_reachable layouts decoders hm) hagree hrouted
          (hchildren first List.mem_cons_self) hskips
    have hlater := fun hagree' => ih hrest (hm.apply first.1 first.2) hagree' hstep.2
    constructor
    · intro hall before call hprefix
      have hagree' := hall [first] ⟨rest, rfl⟩
      rcases before with _ | ⟨other, before⟩
      · obtain ⟨rfl, _⟩ := List.cons_prefix_cons.mp hprefix
        exact hstep.1.mp hagree'
      · obtain ⟨rfl, hbefore⟩ := List.cons_prefix_cons.mp hprefix
        refine (hlater hagree').mp (fun later hlater => ?_) before call hbefore
        exact hall (other :: later) (List.cons_prefix_cons.mpr ⟨rfl, hlater⟩)
    · intro hall before hprefix
      rcases before with _ | ⟨other, before⟩
      · exact hagree
      · obtain ⟨rfl, hbefore⟩ := List.cons_prefix_cons.mp hprefix
        have hagree' := hstep.1.mpr (hall [] other ⟨rest, rfl⟩)
        refine (hlater hagree').mpr (fun later call hlater => ?_) before hbefore
        exact hall (other :: later) call (List.cons_prefix_cons.mpr ⟨rfl, hlater⟩)

end agree

/-- In a run whose fields keep their parents, the reverse map agrees with the child sets
in every state reached exactly when every checkpoint clears the pools it removes. -/
theorem owners_agree_iff {ε σ : Type} (layouts : LayoutSource ε σ) (decoders : Decoders)
    (childCapacity : ℕ) (calls : List (σ × Checkpoint)) (hparent : OneParent calls) :
    (∀ before, before <+: calls → ∀ x u,
      (applyAll layouts decoders (StateManager.withChildCapacity childCapacity)
        before).childOwners.lookup x = some u ↔
      x ∈ (applyAll layouts decoders (StateManager.withChildCapacity childCapacity)
        before).childFields u) ↔
      ∀ before call, before ++ [call] <+: calls →
        (applyAll layouts decoders (StateManager.withChildCapacity childCapacity)
          before).skips call.2 = true ∨
        Clears layouts decoders (applyAll layouts decoders
          (StateManager.withChildCapacity childCapacity) before) call.1 call.2 := by
  obtain ⟨parentOf, hchildren⟩ := hparent
  refine run_agree_iff hchildren (.start childCapacity) (fun x u => ?_) (fun x u h => ?_)
  · simp [StateManager.withChildCapacity, StateManager.childFields]
  · simp [StateManager.withChildCapacity] at h

theorem oneParent_of_all {σ : Type} {calls : List (σ × Checkpoint)} (parentOf : ObjectId → ObjectId)
    (h : (calls.all fun call => (call.2.changes.filterMap (childOf call.2.objectSet)).all
      fun child => child.1 = parentOf child.2) = true) : OneParent calls := by
  refine ⟨parentOf, fun call hcall child hchild => ?_⟩
  have hall := List.all_eq_true.mp h call hcall
  exact of_decide_eq_true (List.all_eq_true.mp hall child hchild)

/-- The pool goes, its node stays. -/
def closing : Checkpoint := ⟨3, [⟨[⟨7, none⟩]⟩], ⟨[], .nil⟩⟩

/-- The pool and its node go together. -/
def closingBoth : Checkpoint := ⟨3, [⟨[⟨8, none⟩, ⟨7, none⟩]⟩], ⟨[], .nil⟩⟩

theorem clears_of_no_removal {ε σ : Type} {layouts : LayoutSource ε σ} {decoders : Decoders}
    (m : StateManager) (source : σ) {checkpoint : Checkpoint} (h : removedIds checkpoint = []) :
    Clears layouts decoders m source checkpoint := by
  rintro u ⟨id, hid, _⟩
  rw [h] at hid
  cases hid

def mintedPool : StateManager :=
  applyAll poolLayouts poolDecoders (StateManager.withChildCapacity 4)
    [((), opening), ((), minted)]

theorem clears_closingBoth : Clears poolLayouts poolDecoders mintedPool () closingBoth := by
  rintro u ⟨id, hid, huid⟩ x hx
  have hid : id = 8 ∨ id = 7 := by simpa [removedIds, removedBy, closingBoth,
    Checkpoint.changes] using hid
  have hu : u = 9 := by
    rcases hid with rfl | rfl
    · have hnone : newestUid poolLayouts poolDecoders mintedPool () closingBoth 8 = none := by
        decide +kernel
      rw [hnone] at huid
      cases huid
    · have hnine : newestUid poolLayouts poolDecoders mintedPool () closingBoth 7 = some 9 := by
        decide +kernel
      exact (Option.some.inj (hnine.symm.trans huid)).symm
  have hheld : mintedPool.childFields 9 = {8} := by decide +kernel
  rw [hu, hheld, Finset.mem_singleton] at hx
  rw [hx]
  exact .inl (by decide)

theorem owners_agree_closed :
    (applyAll poolLayouts poolDecoders (StateManager.withChildCapacity 4)
      [((), opening), ((), minted), ((), closingBoth)]).childOwners.lookup 8 = some 9 ↔
    8 ∈ (applyAll poolLayouts poolDecoders (StateManager.withChildCapacity 4)
      [((), opening), ((), minted), ((), closingBoth)]).childFields 9 := by
  refine (owners_agree_iff poolLayouts poolDecoders 4
    [((), opening), ((), minted), ((), closingBoth)]
    (oneParent_of_all (fun _ => 9) (by decide +kernel))).mpr ?_ _ (List.prefix_refl _) 8 9
  rintro (_ | ⟨first, _ | ⟨second, _ | ⟨third, rest⟩⟩⟩) call hprefix
  · obtain ⟨rfl, _⟩ := List.cons_prefix_cons.mp hprefix
    exact .inr (clears_of_no_removal _ _ rfl)
  · obtain ⟨rfl, hsecond⟩ := List.cons_prefix_cons.mp hprefix
    obtain ⟨rfl, _⟩ := List.cons_prefix_cons.mp hsecond
    exact .inr (clears_of_no_removal _ _ rfl)
  · obtain ⟨rfl, hsecond⟩ := List.cons_prefix_cons.mp hprefix
    obtain ⟨rfl, hthird⟩ := List.cons_prefix_cons.mp hsecond
    obtain ⟨rfl, _⟩ := List.cons_prefix_cons.mp hthird
    exact .inr clears_closingBoth
  · have hlong := hprefix.length_le
    simp only [List.cons_append, List.length_cons, List.length_append, List.length_nil] at hlong
    omega

/-- A pool removed without its nodes leaves their owners behind. -/
theorem owners_outlive_pool :
    OneParent [((), opening), ((), minted), ((), closing)] ∧
    (applyAll poolLayouts poolDecoders StateManager.new
      [((), opening), ((), minted), ((), closing)]).childOwners.lookup 8 = some 9 ∧
    8 ∉ (applyAll poolLayouts poolDecoders StateManager.new
      [((), opening), ((), minted), ((), closing)]).childFields 9 :=
  ⟨oneParent_of_all (fun _ => 9) (by decide +kernel), by decide +kernel, by decide +kernel⟩

end ChildIndex
