/-!
# Outcomes of fallible steps

What a chain of fallible steps returned, read back step by step, and when two
such chains agree.
-/

namespace Outcomes

universe u v w

theorem bind_eq_ok_iff {ε : Type v} {α β : Type u} {x : Except ε α} {f : α → Except ε β} {b : β} :
    (x >>= f) = .ok b ↔ ∃ a, x = .ok a ∧ f a = .ok b := by
  cases x with
  | error e => simp [bind, Except.bind]
  | ok a => simp [bind, Except.bind]

@[simp] theorem ok_bind {ε : Type v} {α β : Type u} (a : α) (f : α → Except ε β) :
    ((Except.ok a : Except ε α) >>= f) = f a := rfl

@[simp] theorem error_bind {ε : Type v} {α β : Type u} (e : ε) (f : α → Except ε β) :
    ((Except.error e : Except ε α) >>= f) = .error e := rfl

/-- The value of an option, or the given error. -/
def okOr {ε : Type v} {α : Type u} (x : Option α) (e : ε) : Except ε α :=
  match x with
  | some a => .ok a
  | none => .error e

theorem okOr_eq_ok_iff {ε : Type v} {α : Type u} {x : Option α} {e : ε} {a : α} :
    okOr x e = .ok a ↔ x = some a := by
  cases x <;> simp [okOr]

theorem okOr_eq_error_iff {ε : Type v} {α : Type u} {x : Option α} {e e' : ε} :
    okOr x e = .error e' ↔ x = none ∧ e = e' := by
  cases x <;> simp [okOr]

theorem exists_ok {ε : Type v} {α : Type u} {x : Except ε α} (h : x.isOk = true) :
    ∃ a, x = .ok a := by
  cases x with
  | error e => cases h
  | ok a => exact ⟨a, rfl⟩

/-- What every step of a fold preserves, a successful fold preserves. -/
theorem foldlM_invariant {ε : Type v} {σ α : Type u} {f : σ → α → Except ε σ} {I : σ → Prop}
    (step : ∀ s a t, I s → f s a = .ok t → I t) {l : List α} {s t : σ}
    (h : l.foldlM f s = .ok t) (hs : I s) : I t := by
  induction l generalizing s with
  | nil =>
    cases h
    exact hs
  | cons a l ih =>
    rw [List.foldlM_cons] at h
    obtain ⟨u, hu, h⟩ := bind_eq_ok_iff.mp h
    exact ih h (step s a u hs hu)

/-- Folds whose steps agree on the elements agree. -/
theorem foldlM_congr_mem {ε : Type v} {σ α : Type u} {f g : σ → α → Except ε σ} {l : List α}
    (h : ∀ a ∈ l, ∀ s, f s a = g s a) (s : σ) : l.foldlM f s = l.foldlM g s := by
  induction l generalizing s with
  | nil => rfl
  | cons a l ih =>
    rw [List.foldlM_cons, List.foldlM_cons, h a List.mem_cons_self s]
    exact congrArg _ (funext fun t => ih (fun b hb => h b (List.mem_cons_of_mem _ hb)) t)

theorem exists_foldlM {ε : Type v} {σ α : Type u} {f : σ → α → Except ε σ}
    (h : ∀ s a, ∃ t, f s a = .ok t) (l : List α) (s : σ) : ∃ t, l.foldlM f s = .ok t := by
  induction l generalizing s with
  | nil => exact ⟨s, rfl⟩
  | cons a l ih =>
    obtain ⟨u, hu⟩ := h s a
    obtain ⟨t, ht⟩ := ih u
    exact ⟨t, bind_eq_ok_iff.mpr ⟨u, hu, ht⟩⟩

/-- A successful fold took a successful step for every element. -/
theorem foldlM_step_of_mem {ε : Type v} {σ α : Type u} {f : σ → α → Except ε σ} {l : List α}
    {s t : σ} (h : l.foldlM f s = .ok t) {a : α} (ha : a ∈ l) : ∃ u v, f u a = .ok v := by
  induction l generalizing s with
  | nil => cases ha
  | cons b l ih =>
    rw [List.foldlM_cons] at h
    obtain ⟨u, hu, h⟩ := bind_eq_ok_iff.mp h
    rcases List.mem_cons.mp ha with rfl | ha
    · exact ⟨s, u, hu⟩
    · exact ih h ha

/-- The computation never fails with this error. -/
def Avoids {ε : Type v} {α : Type u} (e : ε) (x : Except ε α) : Prop := x ≠ .error e

namespace Avoids
variable {ε : Type v} {α β : Type u} {e : ε}

theorem ok (a : α) : Avoids e (.ok a) := nofun

theorem error {e' : ε} (h : e' ≠ e) : Avoids e (.error e' : Except ε α) :=
  fun he => h (Except.error.inj he)

theorem bind {x : Except ε α} {f : α → Except ε β} (hx : Avoids e x)
    (hf : ∀ a, x = .ok a → Avoids e (f a)) : Avoids e (x >>= f) := by
  cases x with
  | error e' => exact fun he => hx (congrArg _ (Except.error.inj he))
  | ok a => exact hf a rfl

end Avoids

/-- Every failure of the computation is of this kind. -/
def FailsOnly {ε : Type v} {α : Type u} (P : ε → Prop) (x : Except ε α) : Prop :=
  ∀ e, x = .error e → P e

namespace FailsOnly
variable {ε : Type v} {α β : Type u} {P : ε → Prop}

theorem ok (a : α) : FailsOnly P (.ok a) := nofun

theorem error {e : ε} (h : P e) : FailsOnly P (.error e : Except ε α) :=
  fun _ he => Except.error.inj he ▸ h

theorem okOr {x : Option α} {e : ε} (h : P e) : FailsOnly P (okOr x e) :=
  fun _ he => (okOr_eq_error_iff.mp he).2 ▸ h

theorem bind {x : Except ε α} {f : α → Except ε β} (hx : FailsOnly P x)
    (hf : ∀ a, x = .ok a → FailsOnly P (f a)) : FailsOnly P (x >>= f) := by
  cases x with
  | error e => exact fun e' he => hx e' (congrArg _ (Except.error.inj he))
  | ok a => exact hf a rfl

theorem foldlM {σ : Type u} {f : σ → α → Except ε σ} {l : List α} {s : σ}
    (h : ∀ s a, FailsOnly P (f s a)) : FailsOnly P (l.foldlM f s) := by
  induction l generalizing s with
  | nil => exact .ok s
  | cons a l ih =>
    rw [List.foldlM_cons]
    exact .bind (h s a) fun _ _ => ih

theorem avoids {x : Except ε α} {e : ε} (h : FailsOnly P x) (he : ¬ P e) : Avoids e x :=
  fun hx => he (h e hx)

end FailsOnly

/-! ### Outcomes without their errors -/

theorem toOption_bind {ε : Type v} {α β : Type u} (x : Except ε α) (f : α → Except ε β) :
    (x >>= f).toOption = x.toOption.bind fun a => (f a).toOption := by
  cases x <;> rfl

theorem toOption_mapError {ε : Type v} {ε' : Type w} {α : Type u} (f : ε → ε') (x : Except ε α) :
    (x.mapError f).toOption = x.toOption := by
  cases x <;> rfl

theorem toOption_okOr {ε : Type v} {α : Type u} (x : Option α) (e : ε) :
    (okOr x e).toOption = x := by
  cases x <;> rfl

theorem toOption_foldlM {ε : Type v} {σ α : Type u} (f : σ → α → Except ε σ) (l : List α) (s : σ) :
    (l.foldlM f s).toOption = l.foldlM (fun s a => (f s a).toOption) s := by
  induction l generalizing s with
  | nil => rfl
  | cons a l ih =>
    rw [List.foldlM_cons, toOption_bind, List.foldlM_cons]
    exact congrArg _ (funext ih)

/-- Two outcomes agree when both fail alike or both succeed with related values. -/
inductive OutcomeRel {ε : Type v} {α : Type u} {β : Type w} (R : α → β → Prop) :
    Except ε α → Except ε β → Prop where
  | error (e : ε) : OutcomeRel R (.error e) (.error e)
  | ok {a : α} {b : β} : R a b → OutcomeRel R (.ok a) (.ok b)

end Outcomes
