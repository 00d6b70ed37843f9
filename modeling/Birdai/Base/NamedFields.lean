import Birdai.Base.Outcomes
import Mathlib.Data.List.Nodup
import Mathlib.Data.List.Pairwise
import Mathlib.Data.List.Perm.Basic
import Mathlib.Data.Option.Basic

/-!
# Reading named fields

A pass over named fields in which each field known by name updates a state and
the others are passed over. The outcome depends on the fields known only; where
the updates of different names commute, it depends on their order only through
which failure comes first.
-/

namespace NamedFields

open Outcomes

universe u v w x

section read
variable {κ : Type u} {V : Type v} {S : Type w} {ε : Type x} [DecidableEq κ]

/-- The entry under a name, the first if there are several. -/
def find {β : Type*} (entries : List (κ × β)) (name : κ) : Option β :=
  (entries.find? fun entry => entry.1 = name).map Prod.snd

/-- One field: its own arm updates the state, an unknown field leaves it. -/
def readField (arms : List (κ × (V → Except ε (S → S)))) (s : S) (field : κ × V) : Except ε S :=
  match find arms field.1 with
  | none => .ok s
  | some arm =>
    match arm field.2 with
    | .error e => .error e
    | .ok update => .ok (update s)

/-- The fields whose names are listed. -/
def known {β : Type*} (entries : List (κ × β)) (fields : List (κ × V)) : List (κ × V) :=
  fields.filter fun field => (find entries field.1).isSome

theorem find_mem {β : Type*} {entries : List (κ × β)} {name : κ} {b : β}
    (h : find entries name = some b) : (name, b) ∈ entries := by
  obtain ⟨entry, hfound, rfl⟩ := Option.map_eq_some_iff.mp h
  have hname : entry.1 = name := by simpa using List.find?_some hfound
  have hmem := List.mem_of_find?_eq_some hfound
  rw [← hname]
  exact hmem

/-- Where the names are distinct, every entry is the one found. -/
theorem find_eq_some_iff {β : Type*} {entries : List (κ × β)}
    (hnodup : (entries.map Prod.fst).Nodup) {name : κ} {b : β} :
    find entries name = some b ↔ (name, b) ∈ entries := by
  constructor
  · exact find_mem
  · intro hmem
    induction entries with
    | nil => cases hmem
    | cons entry rest ih =>
      obtain ⟨hnot, hrest⟩ := List.nodup_cons.mp hnodup
      rcases List.mem_cons.mp hmem with rfl | hmem
      · simp [find]
      · have hne : entry.1 ≠ name := by
          rintro rfl
          exact hnot (List.mem_map.mpr ⟨_, hmem, rfl⟩)
        have hskip : find (entry :: rest) name = find rest name := by
          simp [find, hne]
        rw [hskip]
        exact ih hrest hmem

theorem find_isSome_iff {β : Type*} {entries : List (κ × β)} {name : κ} :
    (find entries name).isSome = true ↔ name ∈ entries.map Prod.fst := by
  rw [find, Option.isSome_map, List.find?_isSome, List.mem_map]
  simp

/-- Unknown fields change nothing. -/
theorem foldlM_known (arms : List (κ × (V → Except ε (S → S)))) (fields : List (κ × V)) (s : S) :
    fields.foldlM (readField arms) s = (known arms fields).foldlM (readField arms) s := by
  induction fields generalizing s with
  | nil => rfl
  | cons field rest ih =>
    simp only [known] at ih ⊢
    cases harm : find arms field.1 with
    | none =>
      have hfirst : readField arms s field = .ok s := by simp [readField, harm]
      rw [List.filter_cons_of_neg (by simp [harm]), List.foldlM_cons, hfirst, ok_bind, ih]
    | some arm =>
      rw [List.filter_cons_of_pos (by simp [harm]), List.foldlM_cons, List.foldlM_cons]
      cases readField arms s field with
      | error e => rfl
      | ok s' => rw [ok_bind, ok_bind, ih]

/-! ### Updates that commute -/

/-- What two arms do to the state does not depend on which goes first. -/
def Commute (f g : V → Except ε (S → S)) : Prop :=
  ∀ a b update update', f a = .ok update → g b = .ok update' →
    ∀ s, update' (update s) = update (update' s)

theorem Commute.symm {f g : V → Except ε (S → S)} (h : Commute f g) : Commute g f :=
  fun a b update update' hupdate hupdate' s => (h b a update' update hupdate' hupdate s).symm

/-- What a field known by name comes to: an update, or a failure. -/
def event (arms : List (κ × (V → Except ε (S → S)))) (field : κ × V) :
    Option (κ × Option (S → S)) :=
  (find arms field.1).map fun arm => (field.1, (arm field.2).toOption)

def play (state : Option S) (event : κ × Option (S → S)) : Option S :=
  state.bind fun s => event.2.map fun update => update s

theorem toOption_readField (arms : List (κ × (V → Except ε (S → S)))) (s : S)
    (field : κ × V) : (readField arms s field).toOption =
      (event arms field).elim (some s) (play (some s)) := by
  unfold readField event
  cases find arms field.1 with
  | none => rfl
  | some arm =>
    simp only [Option.map_some, Option.elim_some, play, Option.bind_some]
    cases arm field.2 with
    | error e => rfl
    | ok update => rfl

omit [DecidableEq κ] in
theorem foldl_play_none (events : List (κ × Option (S → S))) : events.foldl play none = none := by
  induction events with
  | nil => rfl
  | cons e rest ih => exact ih

/-- The state after a pass, from the events alone. -/
theorem toOption_foldlM (arms : List (κ × (V → Except ε (S → S)))) (fields : List (κ × V))
    (s : S) : (fields.foldlM (readField arms) s).toOption =
      (fields.filterMap (event arms)).foldl play (some s) := by
  induction fields generalizing s with
  | nil => rfl
  | cons field rest ih =>
    have hfirst := toOption_readField arms s field
    rw [List.foldlM_cons]
    cases hread : readField arms s field with
    | error e =>
      rw [hread] at hfirst
      cases hevent : event arms field with
      | none =>
        rw [hevent] at hfirst
        cases hfirst
      | some e' =>
        rw [hevent] at hfirst
        rw [List.filterMap_cons_some hevent, List.foldl_cons]
        change none = play (some s) e' at hfirst
        rw [← hfirst, foldl_play_none]
        rfl
    | ok s' =>
      rw [hread] at hfirst
      rw [ok_bind, ih]
      cases hevent : event arms field with
      | none =>
        rw [hevent] at hfirst
        rw [List.filterMap_cons_none hevent, ← Option.some.inj hfirst]
      | some e' =>
        rw [hevent] at hfirst
        rw [List.filterMap_cons_some hevent, List.foldl_cons]
        change some s' = play (some s) e' at hfirst
        rw [← hfirst]

/-- Events of distinct names, by commuting arms, can be played in any order. -/
theorem play_comm {arms : List (κ × (V → Except ε (S → S)))}
    (hcommute : arms.Pairwise fun a b => Commute a.2 b.2) {fields : List (κ × V)}
    (hnodup : (fields.map Prod.fst).Nodup) {e e' : κ × Option (S → S)}
    (he : e ∈ fields.filterMap (event arms)) (he' : e' ∈ fields.filterMap (event arms))
    (state : Option S) : play (play state e) e' = play (play state e') e := by
  obtain ⟨⟨name, a⟩, hfield, hevent⟩ := List.mem_filterMap.mp he
  obtain ⟨⟨name', b⟩, hfield', hevent'⟩ := List.mem_filterMap.mp he'
  obtain ⟨arm, harm, rfl⟩ := Option.map_eq_some_iff.mp hevent
  obtain ⟨arm', harm', rfl⟩ := Option.map_eq_some_iff.mp hevent'
  by_cases hname : name = name'
  · subst hname
    have hvalue := (find_eq_some_iff hnodup).mpr hfield
    rw [(find_eq_some_iff hnodup).mpr hfield'] at hvalue
    obtain rfl := Option.some.inj hvalue
    rw [harm] at harm'
    obtain rfl := Option.some.inj harm'
    rfl
  · have hpair : Commute arm arm' := by
      have : Std.Symm fun a b : κ × (V → Except ε (S → S)) => Commute a.2 b.2 :=
        ⟨fun _ _ h => h.symm⟩
      refine hcommute.forall (find_mem harm) (find_mem harm') fun heq => ?_
      exact hname (Prod.mk.inj heq).1
    cases state with
    | none => rfl
    | some s =>
      simp only [play, Option.bind_some]
      cases hupdate : arm a with
      | error e => cases arm' b <;> rfl
      | ok update =>
        cases hupdate' : arm' b with
        | error e => rfl
        | ok update' => exact congrArg some (hpair a b update update' hupdate hupdate' s)

theorem mem_events {arms : List (κ × (V → Except ε (S → S)))} {fields : List (κ × V)}
    (hnodup : (fields.map Prod.fst).Nodup) {e : κ × Option (S → S)} :
    e ∈ fields.filterMap (event arms) ↔ ∃ arm, find arms e.1 = some arm ∧
      (find fields e.1).map (fun value => (arm value).toOption) = some e.2 := by
  obtain ⟨name, update⟩ := e
  constructor
  · intro he
    obtain ⟨⟨name', value⟩, hfield, hevent⟩ := List.mem_filterMap.mp he
    obtain ⟨arm, harm, heq⟩ := Option.map_eq_some_iff.mp hevent
    cases heq
    refine ⟨arm, harm, ?_⟩
    rw [(find_eq_some_iff hnodup).mpr hfield]
    rfl
  · rintro ⟨arm, harm, hvalue⟩
    obtain ⟨value, hfound, hupdate⟩ := Option.map_eq_some_iff.mp hvalue
    dsimp only at harm hfound hupdate
    refine List.mem_filterMap.mpr ⟨(name, value), find_mem hfound, ?_⟩
    rw [event, harm, Option.map_some, hupdate]

theorem events_nodup (arms : List (κ × (V → Except ε (S → S)))) {fields : List (κ × V)}
    (hnodup : (fields.map Prod.fst).Nodup) : (fields.filterMap (event arms)).Nodup := by
  refine (List.pairwise_map.mp hnodup).filterMap _ fun f g hne e he e' he' heq => hne ?_
  obtain ⟨arm, _, rfl⟩ := Option.map_eq_some_iff.mp he
  obtain ⟨arm', _, rfl⟩ := Option.map_eq_some_iff.mp he'
  exact (Prod.mk.inj heq).1

/-! ### Fields that agree in what is read -/

/-- The same values under every name read, wherever the names stand. -/
def AnyOrder (reads : List (κ × (V → V → Prop))) (fields fields' : List (κ × V)) : Prop :=
  ∀ read ∈ reads, Option.Rel read.2 (find fields read.1) (find fields' read.1)

/-- The same values under the names read, and the names in the same order. -/
def SameOrder (reads : List (κ × (V → V → Prop))) (fields fields' : List (κ × V)) : Prop :=
  List.Forall₂
    (fun field field' => field.1 = field'.1 ∧
      ∀ R, find reads field.1 = some R → R field.2 field'.2)
    (known reads fields) (known reads fields')

/-- Fields found alike agree under reflexive relations. -/
theorem anyOrder_of_find {reads : List (κ × (V → V → Prop))} {fields fields' : List (κ × V)}
    (hrefl : ∀ read ∈ reads, ∀ v, read.2 v v)
    (h : ∀ read ∈ reads, find fields read.1 = find fields' read.1) :
    AnyOrder reads fields fields' := by
  intro read hread
  rw [h read hread]
  cases find fields' read.1 with
  | none => exact .none
  | some v => exact .some (hrefl read hread v)

/-- Fields that agree in what is read have the same of the names read. -/
theorem AnyOrder.mem_iff {reads : List (κ × (V → V → Prop))} {fields fields' : List (κ × V)}
    (h : AnyOrder reads fields fields') {name : κ} (hname : name ∈ reads.map Prod.fst) :
    name ∈ fields.map Prod.fst ↔ name ∈ fields'.map Prod.fst := by
  obtain ⟨read, hread, rfl⟩ := List.mem_map.mp hname
  have hrel := h read hread
  rw [← find_isSome_iff, ← find_isSome_iff]
  generalize find fields read.1 = found at hrel ⊢
  generalize find fields' read.1 = found' at hrel ⊢
  cases hrel with
  | none => rfl
  | some _ => rfl

theorem SameOrder.mem_iff {reads : List (κ × (V → V → Prop))} {fields fields' : List (κ × V)}
    (h : SameOrder reads fields fields') {name : κ} (hname : name ∈ reads.map Prod.fst) :
    name ∈ fields.map Prod.fst ↔ name ∈ fields'.map Prod.fst := by
  have hknown : ∀ fs : List (κ × V),
      name ∈ fs.map Prod.fst ↔ name ∈ (known reads fs).map Prod.fst := by
    intro fs
    simp only [List.mem_map, known, List.mem_filter]
    constructor
    · rintro ⟨field, hfield, rfl⟩
      exact ⟨field, ⟨hfield, find_isSome_iff.mpr hname⟩, rfl⟩
    · rintro ⟨field, hfield, rfl⟩
      exact ⟨field, hfield.1, rfl⟩
  have hnames : (known reads fields).map Prod.fst = (known reads fields').map Prod.fst := by
    have hpairs : List.Forall₂ (fun f g => f.1 = g.1) (known reads fields)
        (known reads fields') := h.imp fun _ _ hpair => hpair.1
    generalize known reads fields = fs at hpairs
    generalize known reads fields' = gs at hpairs
    induction hpairs with
    | nil => rfl
    | cons hfirst _ ih => rw [List.map_cons, List.map_cons, hfirst, ih]
  rw [hknown, hknown fields', hnames]

/-- Arms that read their names as listed: related values come to outcomes that agree. -/
def ArmsRead (P : V → Prop) (agree : Except ε (S → S) → Except ε (S → S) → Prop)
    (arms : List (κ × (V → Except ε (S → S)))) (reads : List (κ × (V → V → Prop))) : Prop :=
  List.Forall₂
    (fun arm read => arm.1 = read.1 ∧
      ∀ a b, P a → P b → read.2 a b → agree (arm.2 a) (arm.2 b))
    arms reads

variable {P : V → Prop} {agree : Except ε (S → S) → Except ε (S → S) → Prop}
  {arms : List (κ × (V → Except ε (S → S)))} {reads : List (κ × (V → V → Prop))}

theorem ArmsRead.find_eq (h : ArmsRead P agree arms reads) (name : κ) :
    (find arms name = none ∧ find reads name = none) ∨
      ∃ arm R, find arms name = some arm ∧ find reads name = some R ∧
        ∀ a b, P a → P b → R a b → agree (arm a) (arm b) := by
  induction h with
  | nil => exact .inl ⟨rfl, rfl⟩
  | @cons arm read arms reads hpair _ ih =>
    obtain ⟨hname, hagree⟩ := hpair
    by_cases heq : arm.1 = name
    · refine .inr ⟨arm.2, read.2, ?_, ?_, hagree⟩
      · simp [find, heq]
      · simp [find, ← hname, heq]
    · have harm : find (arm :: arms) name = find arms name := by simp [find, heq]
      have hread : find (read :: reads) name = find reads name := by
        rw [hname] at heq
        simp [find, heq]
      rw [harm, hread]
      exact ih

/-- Where the arms commute and the names are distinct, a pass over fields that agree in
what is read ends in the same state, or fails, in any order. -/
theorem foldlM_any_order
    (hreads : ArmsRead P (fun x y => x.toOption = y.toOption) arms reads)
    (hcommute : arms.Pairwise fun a b => Commute a.2 b.2) {fields fields' : List (κ × V)}
    (hnodup : (fields.map Prod.fst).Nodup) (hnodup' : (fields'.map Prod.fst).Nodup)
    (hP : ∀ f ∈ fields, P f.2) (hP' : ∀ f ∈ fields', P f.2)
    (h : AnyOrder reads fields fields') (s : S) :
    (fields.foldlM (readField arms) s).toOption =
      (fields'.foldlM (readField arms) s).toOption := by
  have hsame : ∀ name arm, find arms name = some arm →
      (find fields name).map (fun value => (arm value).toOption) =
        (find fields' name).map (fun value => (arm value).toOption) := by
    intro name arm harm
    rcases hreads.find_eq name with ⟨hnone, _⟩ | ⟨arm', R, harm', hR, hagree⟩
    · rw [harm] at hnone
      cases hnone
    · rw [harm] at harm'
      obtain rfl := Option.some.inj harm'
      have hrel := h (name, R) (find_mem hR)
      dsimp only at hrel
      cases hfound : find fields name with
      | none =>
        rw [hfound] at hrel
        cases hfound' : find fields' name with
        | none => rfl
        | some b =>
          rw [hfound'] at hrel
          cases hrel
      | some a =>
        rw [hfound] at hrel
        cases hfound' : find fields' name with
        | none =>
          rw [hfound'] at hrel
          cases hrel
        | some b =>
          rw [hfound'] at hrel
          cases hrel with
          | some hab =>
            exact congrArg some
              (hagree a b (hP _ (find_mem hfound)) (hP' _ (find_mem hfound')) hab)
  have hperm : (fields.filterMap (event arms)).Perm (fields'.filterMap (event arms)) := by
    refine (List.perm_ext_iff_of_nodup (events_nodup arms hnodup)
      (events_nodup arms hnodup')).mpr fun e => ?_
    rw [mem_events hnodup, mem_events hnodup']
    refine exists_congr fun arm => and_congr_right fun harm => ?_
    rw [hsame e.1 arm harm]
  rw [toOption_foldlM, toOption_foldlM]
  exact hperm.foldl_eq' (fun e he e' he' state => play_comm hcommute hnodup he he' state) _

/-- In the same order, even the failures are the same. -/
theorem foldlM_same_order (hreads : ArmsRead P Eq arms reads) {fields fields' : List (κ × V)}
    (hP : ∀ f ∈ fields, P f.2) (hP' : ∀ f ∈ fields', P f.2)
    (h : SameOrder reads fields fields') (s : S) :
    fields.foldlM (readField arms) s = fields'.foldlM (readField arms) s := by
  have hknown : ∀ fs : List (κ × V), known arms fs = known reads fs := by
    intro fs
    refine List.filter_congr fun f _ => ?_
    rcases hreads.find_eq f.1 with ⟨harm, hread⟩ | ⟨arm, R, harm, hread, _⟩
    · rw [harm, hread]
      rfl
    · rw [harm, hread]
      rfl
  have hwalk : ∀ {fs gs : List (κ × V)}, List.Forall₂ (fun f g => f.1 = g.1 ∧
      ∀ R, find reads f.1 = some R → R f.2 g.2) fs gs → (∀ f ∈ fs, P f.2) → (∀ g ∈ gs, P g.2) →
      ∀ s, fs.foldlM (readField arms) s = gs.foldlM (readField arms) s := by
    intro fs gs hpairs
    induction hpairs with
    | nil => exact fun _ _ s => rfl
    | @cons f g fs gs hpair _ ih =>
      intro hfs hgs s
      obtain ⟨hname, hrelated⟩ := hpair
      have hfirst : readField arms s f = readField arms s g := by
        unfold readField
        rw [← hname]
        rcases hreads.find_eq f.1 with ⟨harm, _⟩ | ⟨arm, R, harm, hread, hagree⟩
        · rw [harm]
        · rw [harm]
          dsimp only
          rw [hagree f.2 g.2 (hfs f List.mem_cons_self) (hgs g List.mem_cons_self)
            (hrelated R hread)]
      rw [List.foldlM_cons, List.foldlM_cons, hfirst]
      cases readField arms s g with
      | error e => rfl
      | ok s' =>
        exact ih (fun f hf => hfs f (List.mem_cons_of_mem _ hf))
          (fun g hg => hgs g (List.mem_cons_of_mem _ hg)) s'
  rw [foldlM_known, foldlM_known arms fields', hknown, hknown]
  exact hwalk h (fun f hf => hP f (List.mem_of_mem_filter hf))
    (fun f hf => hP' f (List.mem_of_mem_filter hf)) s

/-! ### Fields that must be there -/

/-- The state notes a field when its own arm updates it, and never otherwise. -/
def Notes (arms : List (κ × (V → Except ε (S → S)))) (name : κ) (noted : S → Bool) : Prop :=
  ∀ arm ∈ arms, ∀ v update, arm.2 v = .ok update →
    ∀ s, noted (update s) = (decide (arm.1 = name) || noted s)

theorem noted_readField {name : κ} {noted : S → Bool} (h : Notes arms name noted)
    (hknown : (find arms name).isSome = true) {s t : S} {field : κ × V}
    (hread : readField arms s field = .ok t) :
    noted t = (decide (field.1 = name) || noted s) := by
  unfold readField at hread
  cases harm : find arms field.1 with
  | none =>
    rw [harm] at hread
    cases hread
    have hne : field.1 ≠ name := by
      rintro rfl
      rw [harm] at hknown
      cases hknown
    rw [decide_eq_false hne, Bool.false_or]
  | some arm =>
    rw [harm] at hread
    dsimp only at hread
    cases hupdate : arm field.2 with
    | error e =>
      rw [hupdate] at hread
      cases hread
    | ok update =>
      rw [hupdate] at hread
      cases hread
      exact h _ (find_mem harm) field.2 update hupdate s

/-- After a pass a field is noted when it was there, or had been noted before. -/
theorem noted_foldlM {name : κ} {noted : S → Bool} (h : Notes arms name noted)
    (hknown : (find arms name).isSome = true) {fields : List (κ × V)} {s t : S}
    (hfold : fields.foldlM (readField arms) s = .ok t) :
    noted t = true ↔ name ∈ fields.map Prod.fst ∨ noted s = true := by
  induction fields generalizing s with
  | nil =>
    cases hfold
    simp
  | cons field rest ih =>
    rw [List.foldlM_cons] at hfold
    obtain ⟨u, hread, hfold⟩ := bind_eq_ok_iff.mp hfold
    rw [ih hfold, noted_readField h hknown hread, List.map_cons, List.mem_cons, Bool.or_eq_true,
      decide_eq_true_eq, eq_comm (a := field.1)]
    tauto

/-- A pass that fails, fails as the arm of one of its fields. -/
theorem foldlM_error {fields : List (κ × V)} {s : S} {e : ε}
    (hfold : fields.foldlM (readField arms) s = .error e) :
    ∃ field ∈ fields, ∃ arm, find arms field.1 = some arm ∧ arm field.2 = .error e := by
  induction fields generalizing s with
  | nil => cases hfold
  | cons field rest ih =>
    rw [List.foldlM_cons] at hfold
    cases hread : readField arms s field with
    | ok u =>
      rw [hread, ok_bind] at hfold
      obtain ⟨other, hother, harm⟩ := ih hfold
      exact ⟨other, List.mem_cons_of_mem _ hother, harm⟩
    | error e' =>
      rw [hread, error_bind] at hfold
      cases hfold
      refine ⟨field, List.mem_cons_self, ?_⟩
      unfold readField at hread
      cases harm : find arms field.1 with
      | none =>
        rw [harm] at hread
        cases hread
      | some arm =>
        rw [harm] at hread
        dsimp only at hread
        cases hvalue : arm field.2 with
        | ok update =>
          rw [hvalue] at hread
          cases hread
        | error e'' =>
          rw [hvalue] at hread
          cases hread
          exact ⟨arm, rfl, hvalue⟩

end read

end NamedFields
