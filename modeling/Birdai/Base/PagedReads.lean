import Birdai.Base.Outcomes
import Mathlib.Data.List.Forall2

/-!
# Paged reads

Pages linked by tokens, lists cut into chunks of bounded length, and folds over what
was read for each chunk.
-/

namespace PagedReads

open Outcomes

universe u v

variable {ε α τ : Type}

structure Page (α τ : Type) where
  entries : List α
  next : Option τ
  deriving DecidableEq

/-- The pages a reader hands out from a cursor on, each linked to the next by its token. -/
inductive Linked (read : Option τ → Except ε (Page α τ)) : Option τ → List (Page α τ) → Prop where
  | last {cursor : Option τ} {page : Page α τ} :
      read cursor = .ok page → page.next = none → Linked read cursor [page]
  | more {cursor : Option τ} {page : Page α τ} {next : τ} {pages : List (Page α τ)} :
      read cursor = .ok page → page.next = some next → Linked read (some next) pages →
        Linked read cursor (page :: pages)

/-! ### Chunks -/

/-- At most `fuel` chunks of `size` elements each, the last one possibly shorter. -/
def chunksWithin (size : ℕ) : ℕ → List α → List (List α)
  | 0, _ => []
  | _ + 1, [] => []
  | fuel + 1, a :: l => (a :: l).take size :: chunksWithin size fuel ((a :: l).drop size)

def chunks (size : ℕ) (l : List α) : List (List α) := chunksWithin size l.length l

theorem chunksWithin_flatten {size : ℕ} (hsize : 0 < size) (fuel : ℕ) (l : List α)
    (h : l.length ≤ fuel) : (chunksWithin size fuel l).flatten = l := by
  induction fuel generalizing l with
  | zero =>
    cases l with
    | nil => rfl
    | cons a l => cases h
  | succ fuel ih =>
    cases l with
    | nil => rfl
    | cons a l =>
      have hrest : ((a :: l).drop size).length ≤ fuel := by
        rw [List.length_drop]
        omega
      rw [chunksWithin, List.flatten_cons, ih _ hrest, List.take_append_drop]

theorem chunks_flatten {size : ℕ} (hsize : 0 < size) (l : List α) :
    (chunks size l).flatten = l :=
  chunksWithin_flatten hsize l.length l (Nat.le_refl _)

/-! ### Paired lists -/

theorem exists_paired {α β : Type} {R : α → β → Prop} {l : List α} {l' : List β}
    (h : List.Forall₂ R l l') {b : β} (hb : b ∈ l') : ∃ a ∈ l, R a b := by
  induction h with
  | nil => cases hb
  | @cons a _ l _ hab _ ih =>
    rcases List.mem_cons.mp hb with rfl | hb
    · exact ⟨a, List.mem_cons_self, hab⟩
    · obtain ⟨a', ha', hab'⟩ := ih hb
      exact ⟨a', List.mem_cons_of_mem _ ha', hab'⟩

/-- What is told apart on one side is told apart on the other. -/
theorem nodup_of_paired {α β γ δ : Type} {R : α → β → Prop} {f : α → γ} {g : β → δ} {l : List α}
    {l' : List β} (h : List.Forall₂ R l l') (hnodup : (l.map f).Nodup)
    (hinj : ∀ a ∈ l, ∀ a' ∈ l, ∀ b b', R a b → R a' b' → g b = g b' → f a = f a') :
    (l'.map g).Nodup := by
  induction h with
  | nil => exact List.nodup_nil
  | @cons a b l l' hab hrest ih =>
    rw [List.map_cons, List.nodup_cons] at hnodup ⊢
    constructor
    · intro hmem
      obtain ⟨b', hb', heq⟩ := List.mem_map.mp hmem
      obtain ⟨a', ha', hab'⟩ := exists_paired hrest hb'
      apply hnodup.1
      rw [hinj a List.mem_cons_self a' (List.mem_cons_of_mem _ ha') b b' hab hab' heq.symm]
      exact List.mem_map_of_mem ha'
    · apply ih hnodup.2
      intro a ha a' ha'
      exact hinj a (List.mem_cons_of_mem _ ha) a' (List.mem_cons_of_mem _ ha')

theorem mapM_paired {α β : Type} {f : α → Except ε β} {l : List α} {l' : List β}
    (h : List.Forall₂ (fun a b => f a = .ok b) l l') : l.mapM f = .ok l' := by
  induction h with
  | nil => rfl
  | cons hab _ ih =>
    rw [List.mapM_cons, hab, ok_bind, ih]
    rfl

theorem paired_of_mapM {α β : Type} {f : α → Except ε β} {l : List α} {l' : List β}
    (h : l.mapM f = .ok l') : List.Forall₂ (fun a b => f a = .ok b) l l' := by
  induction l generalizing l' with
  | nil =>
    cases h
    exact .nil
  | cons a l ih =>
    rw [List.mapM_cons] at h
    obtain ⟨b, hb, h⟩ := bind_eq_ok_iff.mp h
    obtain ⟨rest, hrest, h⟩ := bind_eq_ok_iff.mp h
    cases h
    exact .cons hb (ih hrest)

/-- A filter that drops nothing pairs the list with what it keeps. -/
theorem filterMap_paired {α β : Type} {f : α → Option β} {l : List α} {l' : List β}
    (h : List.Forall₂ (fun a b => f a = some b) l l') : l.filterMap f = l' := by
  induction h with
  | nil => rfl
  | cons hab _ ih => rw [List.filterMap_cons_some hab, ih]

theorem paired_filterMap {α β : Type} {f : α → Option β} {l : List α}
    (h : ∀ a ∈ l, (f a).isSome = true) :
    List.Forall₂ (fun a b => f a = some b) l (l.filterMap f) := by
  induction l with
  | nil => exact .nil
  | cons a l ih =>
    obtain ⟨b, hb⟩ := Option.isSome_iff_exists.mp (h a List.mem_cons_self)
    rw [List.filterMap_cons_some hb]
    exact .cons hb (ih fun a' ha' => h a' (List.mem_cons_of_mem _ ha'))

/-- What is paired with all the chunks is cut as they are. -/
theorem flatten_paired {α β : Type} {R : α → β → Prop} {chunked : List (List α)} {l' : List β}
    (h : List.Forall₂ R chunked.flatten l') :
    ∃ batches, List.Forall₂ (List.Forall₂ R) chunked batches ∧ batches.flatten = l' := by
  induction chunked generalizing l' with
  | nil =>
    cases h
    exact ⟨[], .nil, rfl⟩
  | cons chunk chunked ih =>
    rw [List.flatten_cons] at h
    have hfirst := List.forall₂_take chunk.length h
    have hrest := List.forall₂_drop chunk.length h
    rw [List.take_left' rfl] at hfirst
    rw [List.drop_left' rfl] at hrest
    obtain ⟨batches, hbatches, hflatten⟩ := ih hrest
    exact ⟨_, .cons hfirst hbatches, by rw [List.flatten_cons, hflatten, List.take_append_drop]⟩

/-! ### Batches -/

/-- Folding over what is read for each chunk is folding over all that was read. -/
theorem foldlM_batches {β γ σ : Type} {read : β → Except ε (List γ)} {f : σ → γ → Except ε σ}
    {l : List β} {s t : σ} :
    l.foldlM (fun s chunk => read chunk >>= fun batch => batch.foldlM f s) s = .ok t ↔
      ∃ batches, List.Forall₂ (fun chunk batch => read chunk = .ok batch) l batches ∧
        batches.flatten.foldlM f s = .ok t := by
  induction l generalizing s with
  | nil =>
    constructor
    · intro h
      exact ⟨[], .nil, h⟩
    · rintro ⟨batches, hread, hfold⟩
      cases hread
      exact hfold
  | cons chunk l ih =>
    rw [List.foldlM_cons, bind_eq_ok_iff]
    constructor
    · rintro ⟨u, hu, hrest⟩
      obtain ⟨batch, hbatch, hfold⟩ := bind_eq_ok_iff.mp hu
      obtain ⟨batches, hread, hmore⟩ := ih.mp hrest
      refine ⟨batch :: batches, .cons hbatch hread, ?_⟩
      rw [List.flatten_cons, List.foldlM_append, bind_eq_ok_iff]
      exact ⟨u, hfold, hmore⟩
    · rintro ⟨batches, hread, hfold⟩
      cases hread with
      | cons hbatch hread =>
        rw [List.flatten_cons, List.foldlM_append, bind_eq_ok_iff] at hfold
        obtain ⟨u, hfirst, hmore⟩ := hfold
        exact ⟨u, bind_eq_ok_iff.mpr ⟨_, hbatch, hfirst⟩, ih.mpr ⟨_, hread, hmore⟩⟩

/-- Batches that answer their chunks key by key answer the whole list key by key. -/
theorem map_flatten_batches {β γ : Type} {read : List β → Except ε (List γ)} {key : γ → β}
    (hkeys : ∀ chunk batch, read chunk = .ok batch → batch.map key = chunk)
    {l : List (List β)} {batches : List (List γ)}
    (h : List.Forall₂ (fun chunk batch => read chunk = .ok batch) l batches) :
    batches.flatten.map key = l.flatten := by
  induction h with
  | nil => rfl
  | cons hbatch _ ih =>
    rw [List.flatten_cons, List.map_append, hkeys _ _ hbatch, ih, List.flatten_cons]

theorem read_of_mem_batches {β γ : Type} {read : β → Except ε (List γ)} {l : List β}
    {batches : List (List γ)} {c : γ}
    (h : List.Forall₂ (fun chunk batch => read chunk = .ok batch) l batches)
    (hc : c ∈ batches.flatten) : ∃ chunk batch, read chunk = .ok batch ∧ c ∈ batch := by
  obtain ⟨batch, hbatch, hc⟩ := List.mem_flatten.mp hc
  obtain ⟨chunk, _, hread⟩ := exists_paired h hbatch
  exact ⟨chunk, batch, hread, hc⟩

end PagedReads
