import Mathlib.Data.List.Infix

/-!
# Words of a text

A text split at its separators, and what of one text survives inside another: the
words of a part that ends at separators, and the word around a run without any.
-/

namespace Words

variable {α : Type} {p : α → Bool}

/-- A part of a text with a separator, or nothing, on either side. -/
def Embedded (p : α → Bool) (inner outer : List α) : Prop :=
  ∃ before after, outer = before ++ inner ++ after ∧ (∀ c ∈ before.getLast?, p c = true) ∧
    ∀ c ∈ after.head?, p c = true

theorem Embedded.refl (text : List α) : Embedded p text text :=
  ⟨[], [], (List.append_nil text).symm, nofun, nofun⟩

theorem Embedded.trans {a b c : List α} (hab : Embedded p a b) (hbc : Embedded p b c) :
    Embedded p a c := by
  obtain ⟨before, after, rfl, hbefore, hafter⟩ := hab
  obtain ⟨before', after', rfl, hbefore', hafter'⟩ := hbc
  refine ⟨before' ++ before, after ++ after', by simp only [List.append_assoc], ?_, ?_⟩
  · intro c hc
    rw [List.getLast?_append] at hc
    cases hlast : before.getLast? with
    | none =>
      rw [hlast] at hc
      exact hbefore' c hc
    | some last =>
      rw [hlast] at hc
      exact hbefore c (hlast ▸ hc)
  · intro c hc
    rw [List.head?_append] at hc
    cases hhead : after.head? with
    | none =>
      rw [hhead] at hc
      exact hafter' c hc
    | some head =>
      rw [hhead] at hc
      exact hafter c (hhead ▸ hc)

theorem Embedded.map {f : α → α} (hf : ∀ c, p c = true → p (f c) = true) {inner outer : List α}
    (h : Embedded p inner outer) : Embedded p (inner.map f) (outer.map f) := by
  obtain ⟨before, after, rfl, hbefore, hafter⟩ := h
  refine ⟨before.map f, after.map f, by simp only [List.map_append], ?_, ?_⟩
  · intro c hc
    rw [List.getLast?_map] at hc
    obtain ⟨d, hd, rfl⟩ := Option.map_eq_some_iff.mp hc
    exact hf d (hbefore d hd)
  · intro c hc
    rw [List.head?_map] at hc
    obtain ⟨d, hd, rfl⟩ := Option.map_eq_some_iff.mp hc
    exact hf d (hafter d hd)

/-- The words of an embedded part are words of the whole. -/
theorem Embedded.splitOnP_subset {inner outer : List α} (h : Embedded p inner outer) :
    inner.splitOnP p ⊆ outer.splitOnP p := by
  obtain ⟨before, after, rfl, hbefore, hafter⟩ := h
  have hleft : inner.splitOnP p ⊆ (inner ++ after).splitOnP p := by
    cases after with
    | nil => rw [List.append_nil]; exact List.Subset.refl _
    | cons c after =>
      rw [List.splitOnP_append_cons inner after (hafter c rfl)]
      exact List.subset_append_left _ _
  rcases List.eq_nil_or_concat before with rfl | ⟨before, c, rfl⟩
  · exact hleft
  · rw [List.concat_eq_append] at hbefore ⊢
    have hseparator : p c = true := hbefore c List.getLast?_concat
    rw [List.append_assoc, List.append_assoc, List.singleton_append,
      List.splitOnP_append_cons before _ hseparator]
    exact List.Subset.trans hleft (List.subset_append_right _ _)

theorem mem_modifyHead {f : α → α} {a : α} {l : List α} (h : a ∈ l) :
    a ∈ l.modifyHead f ∨ f a ∈ l.modifyHead f := by
  cases l with
  | nil => cases h
  | cons b l =>
    rcases List.mem_cons.mp h with rfl | hmem
    · exact .inr List.mem_cons_self
    · exact .inl (List.mem_cons_of_mem _ hmem)

/-- A run without separators lies in one word, at an end of it where the run is at that end
of the text. -/
theorem exists_word_around {run : List α} (hrun : ∀ c ∈ run, p c = false) (before after : List α) :
    ∃ left right, left ++ run ++ right ∈ (before ++ run ++ after).splitOnP p ∧
      (before = [] → left = []) ∧ (after = [] → right = []) := by
  induction before with
  | nil =>
    induction after generalizing run with
    | nil =>
      refine ⟨[], [], ?_, fun _ => rfl, fun _ => rfl⟩
      rw [List.nil_append, List.append_nil, List.splitOnP_eq_singleton hrun]
      exact List.mem_cons_self
    | cons c after ih =>
      cases hc : p c with
      | true =>
        refine ⟨[], [], ?_, fun _ => rfl, nofun⟩
        rw [List.nil_append, List.append_nil,
          List.splitOnP_append_cons_of_forall_mem hrun c hc after]
        exact List.mem_cons_self
      | false =>
        -- the word goes on, so the next element joins the run
        have hlonger : ∀ d ∈ run ++ [c], p d = false := by
          intro d hd
          rcases List.mem_append.mp hd with hd | hd
          · exact hrun d hd
          · rw [List.mem_singleton.mp hd, hc]
        obtain ⟨left, right, hmem, hleft, _⟩ := ih hlonger
        refine ⟨left, c :: right, ?_, hleft, nofun⟩
        simp only [List.append_assoc, List.singleton_append, List.nil_append] at hmem ⊢
        exact hmem
  | cons c before ih =>
    obtain ⟨left, right, hmem, hleft, hright⟩ := ih
    rw [List.cons_append, List.cons_append, List.splitOnP_cons_eq_if_modifyHead]
    split
    · exact ⟨left, right, List.mem_cons_of_mem _ hmem, nofun, hright⟩
    · rcases mem_modifyHead hmem with hmem | hmem
      · exact ⟨left, right, hmem, nofun, hright⟩
      · exact ⟨c :: left, right, hmem, nofun, hright⟩

/-- A member of a list of texts is embedded in their join by a separator. -/
theorem embedded_intercalate {separator text : List α} {texts : List (List α)}
    (hhead : ∀ c ∈ separator.head?, p c = true) (hlast : ∀ c ∈ separator.getLast?, p c = true)
    (hseparator : separator ≠ []) (htext : text ∈ texts) :
    Embedded p text (separator.intercalate texts) := by
  induction texts with
  | nil => cases htext
  | cons first rest ih =>
    cases rest with
    | nil =>
      rw [List.mem_singleton.mp htext, List.intercalate_singleton]
      exact .refl _
    | cons second rest =>
      rw [List.intercalate_cons_cons]
      rcases List.mem_cons.mp htext with rfl | htext
      · refine ⟨[], separator ++ separator.intercalate (second :: rest), by simp, nofun, ?_⟩
        intro c hc
        rw [List.head?_append_of_ne_nil _ hseparator] at hc
        exact hhead c hc
      · refine (ih htext).trans ⟨first ++ separator, [], by simp, ?_, nofun⟩
        intro c hc
        rw [List.getLast?_append_of_ne_nil _ hseparator] at hc
        exact hlast c hc

end Words
