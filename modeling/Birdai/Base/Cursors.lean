import Birdai.Base.Outcomes
import Mathlib.Data.List.Forall2

/-!
# Walks over a list

Fallible walks that take elements off the front of a list and count them. One walk
replays another when it takes the same stretch, wherever the stretch begins and
whatever follows it.
-/

namespace Cursors

open Outcomes

variable {ε β α γ : Type}

structure Cursor (β : Type) where
  position : ℕ
  rest : List β

abbrev Walk (ε β α : Type) := StateT (Cursor β) (Except ε) α

theorem bind_ok_iff {δ : Type} {m : Walk ε β α} {f : α → Walk ε β δ} {c c' : Cursor β} {b : δ} :
    (m >>= f) c = .ok (b, c') ↔ ∃ a d, m c = .ok (a, d) ∧ f a d = .ok (b, c') := by
  change (m c >>= fun r => f r.1 r.2) = .ok (b, c') ↔ _
  rw [bind_eq_ok_iff, Prod.exists]

theorem pure_ok_iff {a b : α} {c c' : Cursor β} :
    (pure a : Walk ε β α) c = .ok (b, c') ↔ b = a ∧ c' = c := by
  change (Except.ok (a, c) : Except ε (α × Cursor β)) = .ok (b, c') ↔ _
  rw [Except.ok.injEq, Prod.mk.injEq, eq_comm, @eq_comm _ c]

/-- A stretch off the front, taken and counted, leads from the one cursor to the other. -/
def Cursor.Reaches (c d : Cursor β) : Prop :=
  ∃ taken, c.rest = taken ++ d.rest ∧ d.position = c.position + taken.length

theorem Cursor.Reaches.refl (c : Cursor β) : c.Reaches c := ⟨[], rfl, rfl⟩

theorem Cursor.Reaches.trans {c d e : Cursor β} (hcd : c.Reaches d) (hde : d.Reaches e) :
    c.Reaches e := by
  obtain ⟨taken, hrest, hposition⟩ := hcd
  obtain ⟨more, hrest', hposition'⟩ := hde
  refine ⟨taken ++ more, by rw [hrest, hrest', List.append_assoc], ?_⟩
  rw [hposition', hposition, List.length_append, Nat.add_assoc]

theorem Cursor.Reaches.le {c d : Cursor β} (h : c.Reaches d) : c.position ≤ d.position := by
  obtain ⟨taken, _, hposition⟩ := h
  omega

/-- Where the walk stands. -/
def here : Walk ε β ℕ := fun c => .ok (c.position, c)

theorem here_ok_iff {p : ℕ} {c c' : Cursor β} :
    (here : Walk ε β ℕ) c = .ok (p, c') ↔ p = c.position ∧ c' = c := by
  change (Except.ok (c.position, c) : Except ε (ℕ × Cursor β)) = .ok (p, c') ↔ _
  rw [Except.ok.injEq, Prod.mk.injEq, eq_comm, @eq_comm _ c]

theorem here_bind (f : ℕ → Walk ε β α) (c : Cursor β) : (here >>= f) c = f c.position c := rfl

def fail (e : ε) : Walk ε β α := fun _ => .error e

/-- A reader of one value, which looks at no more than it takes. -/
structure Reader (ε β α : Type) where
  read : List β → Except ε (α × ℕ)
  selfDelimiting : ∀ {l : List β} {a : α} {n : ℕ}, read l = .ok (a, n) →
    n ≤ l.length ∧ ∀ after, read (l.take n ++ after) = .ok (a, n)

/-- The reader as a walk, its errors wrapped. -/
def Reader.walk {ε' : Type} (wrap : ε → ε') (reader : Reader ε β α) : Walk ε' β α := fun c =>
  match reader.read c.rest with
  | .ok (a, n) => .ok (a, ⟨c.position + n, c.rest.drop n⟩)
  | .error e => .error (wrap e)

theorem Reader.walk_ok_iff {ε' : Type} {wrap : ε → ε'} {reader : Reader ε β α} {a : α}
    {c c' : Cursor β} : reader.walk wrap c = .ok (a, c') ↔
      ∃ n, reader.read c.rest = .ok (a, n) ∧ c' = ⟨c.position + n, c.rest.drop n⟩ := by
  unfold Reader.walk
  constructor
  · intro h
    split at h
    · rename_i b n hread
      cases h
      exact ⟨n, hread, rfl⟩
    · cases h
  · rintro ⟨n, hread, rfl⟩
    rw [hread]

/-- A reader of values that all take the same width. -/
def Reader.fixed (width : ℕ) (short : ε) (value : List β → Except ε α) : Reader ε β α where
  read l := if width ≤ l.length then (value (l.take width)).map fun a => (a, width)
    else .error short
  selfDelimiting {l a n} h := by
    split at h
    · rename_i hwidth
      cases hvalue : value (l.take width) with
      | error e =>
        rw [hvalue] at h
        cases h
      | ok b =>
        rw [hvalue] at h
        cases h
        have htaken : (l.take width).length = width := by
          rw [List.length_take, Nat.min_eq_left hwidth]
        refine ⟨hwidth, fun after => ?_⟩
        rw [List.take_left' htaken, hvalue, List.length_append, htaken,
          if_pos (Nat.le_add_right _ _)]
        rfl
    · cases h

/-- The same walk a number of times. -/
def times (m : Walk ε β Unit) : ℕ → Walk ε β Unit
  | 0 => pure ()
  | n + 1 => do
    m
    times m n

/-- One walk after the other. -/
def inTurn : List (Walk ε β Unit) → Walk ε β Unit
  | [] => pure ()
  | m :: rest => do
    m
    inTurn rest

/-- What the same walk returns, a number of times. -/
def collect (m : Walk ε β α) : ℕ → Walk ε β (List α)
  | 0 => pure []
  | n + 1 => do
    let a ← m
    let rest ← collect m n
    pure (a :: rest)

/-! ### Replays -/

/-- Whatever stretch the first walk takes from position `k + p`, the second takes from `p`,
whatever follows the stretch, and what they return is related. -/
def Replays (k : ℕ) (R : α → γ → Prop) (m : Walk ε β α) (m' : Walk ε β γ) : Prop :=
  ∀ p l a c, m ⟨k + p, l⟩ = .ok (a, c) →
    ∃ taken, l = taken ++ c.rest ∧ c.position = k + p + taken.length ∧
      ∀ after, ∃ b, m' ⟨p, taken ++ after⟩ = .ok (b, ⟨p + taken.length, after⟩) ∧ R a b

namespace Replays
variable {δ η : Type} {k : ℕ} {R : α → γ → Prop} {m : Walk ε β α} {m' : Walk ε β γ}

theorem pure {a : α} {b : γ} (h : R a b) :
    Replays k R (Pure.pure a : Walk ε β α) (Pure.pure b) := by
  intro p l a' c hrun
  obtain ⟨rfl, rfl⟩ := pure_ok_iff.mp hrun
  exact ⟨[], rfl, rfl, fun after => ⟨b, rfl, h⟩⟩

theorem here : Replays k (fun p q => p = k + q) (here : Walk ε β ℕ) Cursors.here := by
  intro p l a c hrun
  obtain ⟨rfl, rfl⟩ := here_ok_iff.mp hrun
  exact ⟨[], rfl, rfl, fun after => ⟨p, rfl, rfl⟩⟩

theorem fail (e : ε) : Replays k R (Cursors.fail e) m' := nofun

theorem reader {ε' : Type} (wrap : ε' → ε) (r : Reader ε' β α) :
    Replays k Eq (r.walk wrap) (r.walk wrap) := by
  intro p l a c hrun
  obtain ⟨n, hread, rfl⟩ := Reader.walk_ok_iff.mp hrun
  obtain ⟨hn, hlocal⟩ := r.selfDelimiting hread
  have htaken : (l.take n).length = n := by rw [List.length_take, Nat.min_eq_left hn]
  refine ⟨l.take n, (List.take_append_drop n l).symm, by rw [htaken], fun after => ?_⟩
  refine ⟨a, Reader.walk_ok_iff.mpr ⟨n, hlocal after, ?_⟩, rfl⟩
  rw [htaken, List.drop_left' htaken]

/-- What holds of everything the reader gives. -/
theorem reader_gives {ε' : Type} {P : α → Prop} (wrap : ε' → ε) (r : Reader ε' β α)
    (hP : ∀ l a n, r.read l = .ok (a, n) → P a) :
    Replays k (fun a b => a = b ∧ P a) (r.walk wrap) (r.walk wrap) := by
  intro p l a c hrun
  obtain ⟨n, hread, _⟩ := Reader.walk_ok_iff.mp hrun
  obtain ⟨taken, hl, hc, hreplay⟩ := Replays.reader wrap r p l a c hrun
  refine ⟨taken, hl, hc, fun after => ?_⟩
  obtain ⟨b, hb, heq⟩ := hreplay after
  exact ⟨b, hb, heq, hP l a n hread⟩

theorem mono {S : α → γ → Prop} (h : Replays k R m m') (hS : ∀ a b, R a b → S a b) :
    Replays k S m m' := by
  intro p l a c hrun
  obtain ⟨taken, hl, hc, hreplay⟩ := h p l a c hrun
  refine ⟨taken, hl, hc, fun after => ?_⟩
  obtain ⟨b, hb, hR⟩ := hreplay after
  exact ⟨b, hb, hS a b hR⟩

/-- The first walk may look where it stands. -/
theorem here_left {f : ℕ → Walk ε β α} (h : ∀ position, Replays k R (f position) m') :
    Replays k R (Cursors.here >>= f) m' := fun p l a c hrun => h (k + p) p l a c hrun

/-- And so may the second. -/
theorem here_right {f : ℕ → Walk ε β γ} (h : ∀ position, Replays k R m (f position)) :
    Replays k R m (Cursors.here >>= f) := fun p l a c hrun => h p p l a c hrun

/-- A stretch is told by what is left of it. -/
theorem bind {S : δ → η → Prop} {f : α → Walk ε β δ} {f' : γ → Walk ε β η}
    (hm : Replays k R m m') (hf : ∀ a b, R a b → Replays k S (f a) (f' b)) :
    Replays k S (m >>= f) (m' >>= f') := by
  intro p l d c hrun
  obtain ⟨a, mid, hfirst, hrest⟩ := bind_ok_iff.mp hrun
  obtain ⟨taken, rfl, hmid, hreplay⟩ := hm p l a mid hfirst
  obtain ⟨position, rest⟩ := mid
  dsimp only at hmid hreplay hfirst ⊢
  subst hmid
  rw [Nat.add_assoc] at hrest
  obtain ⟨b, _, hR⟩ := hreplay []
  obtain ⟨more, hl, hc, _⟩ := hf a b hR _ _ _ _ hrest
  refine ⟨taken ++ more, by rw [List.append_assoc, ← hl], ?_, fun after => ?_⟩
  · rw [hc, List.length_append]
    omega
  · obtain ⟨b, hb, hR⟩ := hreplay (more ++ after)
    obtain ⟨more', hl', hc', hlater⟩ := hf a b hR _ _ _ _ hrest
    have hsame : more' = more := List.append_cancel_right (hl'.symm.trans hl)
    obtain ⟨e, he, hS⟩ := hlater after
    refine ⟨e, ?_, hS⟩
    rw [List.append_assoc, List.length_append, ← Nat.add_assoc]
    exact bind_ok_iff.mpr ⟨b, _, hb, hsame ▸ he⟩

/-- Something may be made of what the second walk returns. -/
theorem map_right {S : α → η → Prop} {g : γ → η} (h : Replays k R m m')
    (hS : ∀ a b, R a b → S a (g b)) : Replays k S m (do let b ← m'; Pure.pure (g b)) := by
  have hboth : Replays k S (m >>= Pure.pure) (do let b ← m'; Pure.pure (g b)) :=
    h.bind fun a b hR => .pure (hS a b hR)
  rwa [bind_pure] at hboth

theorem map_left {S : δ → γ → Prop} {g : α → δ} (h : Replays k R m m')
    (hS : ∀ a b, R a b → S (g a) b) : Replays k S (do let a ← m; Pure.pure (g a)) m' := by
  have hboth : Replays k S (do let a ← m; Pure.pure (g a)) (m' >>= Pure.pure) :=
    h.bind fun a b hR => .pure (hS a b hR)
  rwa [bind_pure] at hboth

theorem reaches (h : Replays 0 R m m') {c d : Cursor β} {a : α} (hrun : m c = .ok (a, d)) :
    c.Reaches d := by
  obtain ⟨position, rest⟩ := c
  rw [← Nat.zero_add position] at hrun
  obtain ⟨taken, hl, hd, _⟩ := h position rest a d hrun
  rw [Nat.zero_add] at hd
  exact ⟨taken, hl, hd⟩

end Replays

/-- The second walk takes every stretch the first takes. -/
abbrev Covers (k : ℕ) (m : Walk ε β α) (m' : Walk ε β γ) : Prop :=
  Replays k (fun _ _ => True) m m'

namespace Covers
variable {δ : Type} {k : ℕ}

theorem times {m m' : Walk ε β Unit} (h : Covers k m m') (n : ℕ) :
    Covers k (times m n) (Cursors.times m' n) := by
  induction n with
  | zero => exact .pure trivial
  | succ n ih => exact h.bind fun _ _ _ => ih

theorem collect {m : Walk ε β Unit} {m' : Walk ε β α} (h : Covers k m m') (n : ℕ) :
    Replays k (fun _ as => as.length = n) (Cursors.times m n) (Cursors.collect m' n) := by
  induction n with
  | zero => exact .pure rfl
  | succ n ih =>
    exact h.bind fun _ _ _ => ih.map_right fun _ _ hlength => congrArg Nat.succ hlength

theorem ofCollect {m : Walk ε β α} {m' : Walk ε β Unit} (h : Covers k m m') (n : ℕ) :
    Covers k (Cursors.collect m n) (Cursors.times m' n) := by
  induction n with
  | zero => exact .pure trivial
  | succ n ih =>
    have hrest : Covers k (Cursors.collect m n) (Cursors.times m' n) := ih
    exact h.bind fun _ _ _ => hrest.map_left fun _ _ _ => trivial

theorem inTurn {ms ms' : List (Walk ε β Unit)} (h : List.Forall₂ (Covers k) ms ms') :
    Covers k (inTurn ms) (Cursors.inTurn ms') := by
  induction h with
  | nil => exact .pure trivial
  | cons hm _ ih => exact hm.bind fun _ _ _ => ih

/-- What a walk returns does not matter for what it takes. -/
theorem returning {m : Walk ε β α} {m' : Walk ε β γ} (h : Covers k m m') (d : δ) :
    Covers k (do let _ ← m; pure d) m' := by
  have hcovers : Covers k (do let _ ← m; pure d) (m' >>= pure) := h.bind fun _ _ _ => .pure trivial
  rwa [bind_pure] at hcovers

/-- A walk may go on as long as it takes no more. -/
theorem andThen {m : Walk ε β α} {m' : Walk ε β γ} {f : γ → Walk ε β δ} (h : Covers k m m')
    (hf : ∀ (a : α) (b : γ), Covers k (pure a : Walk ε β α) (f b)) : Covers k m (m' >>= f) := by
  have hcovers : Covers k (m >>= pure) (m' >>= f) := h.bind fun a b _ => hf a b
  rwa [bind_pure] at hcovers

theorem returned {m : Walk ε β α} {m' : Walk ε β γ} (h : Covers k m m') (d : δ) :
    Covers k m (do let _ ← m'; pure d) := h.andThen fun _ _ => .pure trivial

/-- Looking where one stands takes nothing. -/
theorem looking (a : α) (f : ℕ → δ) :
    Covers k (pure a : Walk ε β α) (do let position ← here; pure (f position)) := by
  intro p l b c hrun
  obtain ⟨rfl, rfl⟩ := pure_ok_iff.mp hrun
  exact ⟨[], rfl, rfl, fun after => ⟨f p, rfl, trivial⟩⟩

end Covers

/-! ### Places in a list -/

/-- The cursor stands in the list. -/
def Cursor.In (l : List β) (c : Cursor β) : Prop :=
  c.position ≤ l.length ∧ c.rest = l.drop c.position

theorem Cursor.start_in (l : List β) : (⟨0, l⟩ : Cursor β).In l := ⟨Nat.zero_le _, rfl⟩

/-- The part of a list between two positions. -/
def slice (l : List β) (start stop : ℕ) : List β := (l.drop start).take (stop - start)

section place
variable {k : ℕ} {R : α → γ → Prop} {m : Walk ε β α} {m' : Walk ε β γ} {l : List β}
  {c d : Cursor β} {a : α}

theorem Cursor.In.reaches (hc : c.In l) (h : c.Reaches d) : d.In l := by
  obtain ⟨taken, hrest, hd⟩ := h
  have hlength := congrArg List.length (hc.2.symm.trans hrest)
  rw [List.length_drop, List.length_append] at hlength
  have hle := hc.1
  refine ⟨by omega, ?_⟩
  rw [hd, ← List.drop_drop, ← hc.2, hrest, List.drop_left]

/-- The stretch a walk took can be cut out and walked alone. -/
theorem Replays.alone (h : Replays c.position R m m') (hrun : m c = .ok (a, d)) (hc : c.In l) :
    ∃ b, m' ⟨0, slice l c.position d.position⟩ = .ok (b, ⟨d.position - c.position, []⟩) ∧
      R a b := by
  obtain ⟨taken, hrest, hposition, hreplay⟩ := h 0 c.rest a d hrun
  obtain ⟨b, hb, hR⟩ := hreplay []
  have hslice : slice l c.position d.position = taken := by
    rw [slice, ← hc.2, hrest, hposition, Nat.add_zero, Nat.add_sub_cancel_left, List.take_left]
  have hlength : d.position - c.position = taken.length := by omega
  rw [List.append_nil, Nat.zero_add] at hb
  refine ⟨b, ?_, hR⟩
  rw [hslice, hlength]
  exact hb

end place

end Cursors
