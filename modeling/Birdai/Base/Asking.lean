/-!
# Programs that ask a store

A program asks for values by key and ends with a result; a request that fails ends it
with that failure. It is answered by a fixed table, or run over a store that may change
with every request.
-/

namespace Asking

variable {κ β ε α σ : Type}

inductive Program (κ β ε α : Type) where
  | done (result : Except ε α)
  | ask (key : κ) (next : β → Program κ β ε α)

/-- What the program comes to over a fixed table. -/
def answer (serve : κ → Except ε β) : Program κ β ε α → Except ε α
  | .done result => result
  | .ask key next =>
    match serve key with
    | .error e => .error e
    | .ok value => answer serve (next value)

/-- The program over a store, request by request. -/
def run (fetch : σ → κ → Except ε β × σ) : Program κ β ε α → σ → Except ε α × σ
  | .done result, s => (result, s)
  | .ask key next, s =>
    match fetch s key with
    | (.error e, s) => (.error e, s)
    | (.ok value, s) => run fetch (next value) s

/-- The program was given these answers in turn, and this is what is left of it. -/
inductive Given : Program κ β ε α → List (κ × β) → Program κ β ε α → Prop where
  | nil (program : Program κ β ε α) : Given program [] program
  | cons {key : κ} {value : β} {next : β → Program κ β ε α} {answers : List (κ × β)}
      {rest : Program κ β ε α} : Given (next value) answers rest →
        Given (.ask key next) ((key, value) :: answers) rest

theorem Given.concat {program : Program κ β ε α} {answers : List (κ × β)} {key : κ}
    {next : β → Program κ β ε α} (h : Given program answers (.ask key next)) (value : β) :
    Given program (answers ++ [(key, value)]) (next value) := by
  generalize hrest : Program.ask key next = rest at h
  induction h with
  | nil program =>
    subst hrest
    exact .cons (.nil _)
  | cons _ ih => exact .cons (ih hrest)

/-- A table that serves more changes no program that came to its end. -/
theorem answer_mono {serve serve' : κ → Except ε β}
    (h : ∀ key value, serve key = .ok value → serve' key = .ok value) {program : Program κ β ε α}
    {a : α} (hanswer : answer serve program = .ok a) : answer serve' program = .ok a := by
  induction program with
  | done result => exact hanswer
  | ask key next ih =>
    rw [answer] at hanswer ⊢
    cases hserve : serve key with
    | error e =>
      rw [hserve] at hanswer
      cases hanswer
    | ok value =>
      rw [hserve] at hanswer
      rw [h key value hserve]
      exact ih value hanswer

/-- Over a store whose every request is answered by the table, and leaves such a store
behind, the program comes to what it comes to over the table. -/
theorem run_answers {fetch : σ → κ → Except ε β × σ} {serve : κ → Except ε β} {I : σ → Prop}
    (hfetch : ∀ s key, I s → (fetch s key).1 = serve key ∧ I (fetch s key).2)
    (program : Program κ β ε α) {s : σ} (hs : I s) :
    (run fetch program s).1 = answer serve program ∧ I (run fetch program s).2 := by
  induction program generalizing s with
  | done result => exact ⟨rfl, hs⟩
  | ask key next ih =>
    obtain ⟨hserve, hafter⟩ := hfetch s key hs
    rw [run, answer, ← hserve]
    cases hresult : fetch s key with
    | mk outcome after =>
      rw [hresult] at hafter
      cases outcome with
      | error e => exact ⟨rfl, hafter⟩
      | ok value => exact ih value hafter

end Asking
