import Birdai.Base.LabelledRuns
import Birdai.Resolve.PackageVersions
import Mathlib.Logic.Function.Basic

/-!
# The package store

Bytecode cached over an object source, under the version that was live before it
was read. A fetch is four steps, and other fetches and observations may fall
between any two of them.
-/

namespace PackageStore

open WideArith LabelledRuns MoveTypes PackageVersion

/-! ### The store -/

structure SourcePackageStore (π : Type) where
  versions : PackageVersions
  cache : Finmap fun _ : Address => U64 × π

inductive ResolveError where
  | objectNotFound
  | other (text : String)

inductive StoreError where
  | packageNotFound (id : Address)
  | store (store error : String)
  | malformed (text : String)

/-- The cached package, while no newer version is live than the one it was recorded at. -/
def SourcePackageStore.lookup {π : Type} (store : SourcePackageStore π) (id : Address)
    (live : U64) : Option π :=
  ((store.cache.lookup id).filter fun entry => live ≤ entry.1).map Prod.snd

section steps
variable {ω π : Type} (readFromObject : ω → Except StoreError π)

/-- What a fetch makes of the source's answer. -/
def fetchFromSource (id : Address) : Except ResolveError ω → Except StoreError π
  | .error .objectNotFound => .error (.packageNotFound id)
  | .error (.other text) => .error (.store "SourcePackageStore" text)
  | .ok object => readFromObject object

/-! ### Fetches and observations interleaved -/

/-- Where a fetch stands. -/
inductive Fetch (π : Type) where
  | idle
  | lookingUp (id : Address) (live : U64)
  | fetching (id : Address) (live : U64)
  | inserting (id : Address) (live : U64) (package : π)
  | served (package : π)
  | returned (package : π)
  | failed (error : StoreError)

structure World (π : Type) where
  store : SourcePackageStore π
  fetches : ℕ → Fetch π

def World.start (π : Type) : World π :=
  { store := ⟨.new, ∅⟩, fetches := fun _ => .idle }

/-- A fetch starts by reading the live version; the source answers when it will. -/
inductive Action (ω : Type) where
  | start (fetch : ℕ) (id : Address)
  | lookup (fetch : ℕ)
  | answer (fetch : ℕ) (object : Except ResolveError ω)
  | upsert (fetch : ℕ)
  | observe (versions : List (Address × U64))

def World.turn (w : World π) (fetch : ℕ) (next : Fetch π) : World π :=
  { w with fetches := Function.update w.fetches fetch next }

theorem World.turn_self (w : World π) (fetch : ℕ) (next : Fetch π) :
    (w.turn fetch next).fetches fetch = next := Function.update_self ..

def step (w : World π) : Action ω → Option (World π)
  | .start fetch id =>
    match w.fetches fetch with
    | .idle => some (w.turn fetch (.lookingUp id (w.store.versions.live id)))
    | _ => none
  | .lookup fetch =>
    match w.fetches fetch with
    | .lookingUp id live =>
      match w.store.lookup id live with
      | some package => some (w.turn fetch (.served package))
      | none => some (w.turn fetch (.fetching id live))
    | _ => none
  | .answer fetch object =>
    match w.fetches fetch with
    | .fetching id live =>
      match fetchFromSource readFromObject id object with
      | .ok package => some (w.turn fetch (.inserting id live package))
      | .error e => some (w.turn fetch (.failed e))
    | _ => none
  | .upsert fetch =>
    match w.fetches fetch with
    | .inserting id live package =>
      some { w.turn fetch (.returned package) with
        store := { w.store with cache := w.store.cache.insert id (live, package) } }
    | _ => none
  | .observe versions =>
    some { w with store := { w.store with versions := w.store.versions.observe versions } }

/-! ### The history of the versions -/

def observed (versions : PackageVersions) : Action ω → PackageVersions
  | .observe observations => versions.observe observations
  | _ => versions

/-- The version live for a package before the action at `time`. -/
def liveAt (actions : List (Action ω)) (id : Address) (time : ℕ) : U64 :=
  ((actions.take time).foldl observed .new).live id

/-- The action at `time` is an observation that raised the package's version. -/
def RaisedAt (actions : List (Action ω)) (id : Address) (time : ℕ) : Prop :=
  liveAt actions id time < liveAt actions id (time + 1)

instance (actions : List (Action ω)) (id : Address) (time : ℕ) :
    Decidable (RaisedAt actions id time) := inferInstanceAs (Decidable (_ < _))

/-- A fetch that started at `time` has read this package from the source. -/
def ReadBy (actions : List (Action ω)) (id : Address) (time : ℕ) (package : π) : Prop :=
  ∃ fetch later object, actions[time]? = some (.start fetch id) ∧ time < later ∧
    actions[later]? = some (.answer fetch (.ok object)) ∧ readFromObject object = .ok package

end steps

section history
variable {ω π : Type} {readFromObject : ω → Except StoreError π}

theorem liveAt_le_succ (actions : List (Action ω)) (id : Address) (time : ℕ) :
    liveAt actions id time ≤ liveAt actions id (time + 1) := by
  simp only [liveAt]
  rw [List.take_add_one, List.foldl_append]
  cases actions[time]? with
  | none => exact le_rfl
  | some action =>
    cases action with
    | observe versions => exact live_le_observe _ versions id
    | _ => exact le_rfl

theorem liveAt_mono (actions : List (Action ω)) (id : Address) : Monotone (liveAt actions id) :=
  monotone_nat_of_le_succ (liveAt_le_succ actions id)

/-- If a version read later is no newer, nothing was raised between the two reads. -/
theorem lt_of_raisedAt {actions : List (Action ω)} {id : Address} {early late raise : ℕ}
    (hcurrent : liveAt actions id late ≤ liveAt actions id early)
    (hraise : RaisedAt actions id raise) (hlate : raise < late) : raise < early := by
  by_contra hearly
  have hbefore := liveAt_mono actions id (not_lt.mp hearly)
  have hafter := liveAt_mono actions id (Nat.succ_le_of_lt hlate)
  exact absurd (hbefore.trans_lt (hraise.trans_le hafter)) (not_lt.mpr hcurrent)

theorem liveAt_append {actions : List (Action ω)} (more : List (Action ω)) (id : Address)
    {time : ℕ} (htime : time ≤ actions.length) :
    liveAt (actions ++ more) id time = liveAt actions id time := by
  simp only [liveAt]
  rw [List.take_append_of_le_length htime]

theorem getElem?_append_some {actions : List (Action ω)} (more : List (Action ω)) {time : ℕ}
    {action : Action ω} (h : actions[time]? = some action) :
    (actions ++ more)[time]? = some action := by
  obtain ⟨hlt, _⟩ := List.getElem?_eq_some_iff.mp h
  rw [List.getElem?_append_left hlt, h]

theorem ReadBy.append {actions : List (Action ω)} (more : List (Action ω)) {id : Address}
    {time : ℕ} {package : π} (h : ReadBy readFromObject actions id time package) :
    ReadBy readFromObject (actions ++ more) id time package := by
  obtain ⟨fetch, later, object, hstart, hlt, hanswer, hread⟩ := h
  exact ⟨fetch, later, object, getElem?_append_some more hstart, hlt,
    getElem?_append_some more hanswer, hread⟩

/-! ### Every recorded version was read before its package -/

/-- The fetch started at `time`, and the version it read was live then. -/
def StartedAt (actions : List (Action ω)) (fetch : ℕ) (id : Address) (live : U64) (time : ℕ) :
    Prop :=
  actions[time]? = some (.start fetch id) ∧ live = liveAt actions id time

/-- A recorded package: the version next to it was live when the fetch that read it started. -/
def Recorded (readFromObject : ω → Except StoreError π) (actions : List (Action ω))
    (id : Address) (live : U64) (package : π) : Prop :=
  ∃ time, ReadBy readFromObject actions id time package ∧ time < actions.length ∧
    live = liveAt actions id time

/-- Where a fetch got what it carries. -/
def FetchTraced (readFromObject : ω → Except StoreError π) (actions : List (Action ω))
    (fetch : ℕ) : Fetch π → Prop
  | .lookingUp id live => ∃ time, StartedAt actions fetch id live time
  | .fetching id live => ∃ time, StartedAt actions fetch id live time
  | .inserting id live package => Recorded readFromObject actions id live package
  | _ => True

structure Traced (readFromObject : ω → Except StoreError π) (actions : List (Action ω))
    (w : World π) : Prop where
  versions : w.store.versions = actions.foldl observed .new
  cached : ∀ id live package, w.store.cache.lookup id = some (live, package) →
    Recorded readFromObject actions id live package
  fetches : ∀ fetch, FetchTraced readFromObject actions fetch (w.fetches fetch)

theorem StartedAt.append {actions : List (Action ω)} (more : List (Action ω)) {fetch : ℕ}
    {id : Address} {live : U64} {time : ℕ} (h : StartedAt actions fetch id live time) :
    StartedAt (actions ++ more) fetch id live time := by
  obtain ⟨hlt, _⟩ := List.getElem?_eq_some_iff.mp h.1
  exact ⟨getElem?_append_some more h.1, by rw [liveAt_append more id hlt.le, h.2]⟩

theorem Recorded.append {actions : List (Action ω)} (more : List (Action ω)) {id : Address}
    {live : U64} {package : π} (h : Recorded readFromObject actions id live package) :
    Recorded readFromObject (actions ++ more) id live package := by
  obtain ⟨time, hread, hlt, hlive⟩ := h
  refine ⟨time, hread.append more, ?_, ?_⟩
  · rw [List.length_append]
    omega
  · rw [liveAt_append more id hlt.le, hlive]

/-- The package a fetch reads is recorded under the version it started with. -/
theorem StartedAt.recorded {actions : List (Action ω)} {fetch : ℕ} {id : Address} {live : U64}
    {time : ℕ} (h : StartedAt actions fetch id live time) {object : ω} {package : π}
    (hread : readFromObject object = .ok package) :
    Recorded readFromObject (actions ++ [.answer fetch (.ok object)]) id live package := by
  obtain ⟨hlt, _⟩ := List.getElem?_eq_some_iff.mp h.1
  have hlast : (actions ++ [Action.answer fetch (.ok object)])[actions.length]? =
      some (.answer fetch (.ok object)) := List.getElem?_concat_length
  have hafter := h.append [.answer fetch (.ok object)]
  refine ⟨time, ⟨fetch, actions.length, object, hafter.1, hlt, hlast, hread⟩, ?_, hafter.2⟩
  rw [List.length_append]
  omega

theorem FetchTraced.append {actions : List (Action ω)} (more : List (Action ω)) {fetch : ℕ}
    {f : Fetch π} (h : FetchTraced readFromObject actions fetch f) :
    FetchTraced readFromObject (actions ++ more) fetch f := by
  cases f with
  | lookingUp id live =>
    obtain ⟨time, hstarted⟩ := h
    exact ⟨time, hstarted.append more⟩
  | fetching id live =>
    obtain ⟨time, hstarted⟩ := h
    exact ⟨time, hstarted.append more⟩
  | inserting id live package => exact Recorded.append more h
  | _ => trivial

theorem traced_start : Traced readFromObject [] (World.start π) :=
  ⟨rfl, fun id live package h => by simp [World.start] at h, fun _ => trivial⟩

/-- Turning one fetch keeps the rest. -/
theorem Traced.turn {actions : List (Action ω)} {action : Action ω} {w : World π}
    (h : Traced readFromObject actions w)
    (hobserved : observed w.store.versions action = w.store.versions) {fetch : ℕ} {next : Fetch π}
    (hnext : FetchTraced readFromObject (actions ++ [action]) fetch next) :
    Traced readFromObject (actions ++ [action]) (w.turn fetch next) := by
  refine ⟨?_, fun id live package hcached => (h.cached id live package hcached).append _, ?_⟩
  · rw [List.foldl_append, ← h.versions]
    exact hobserved.symm
  · apply (Function.forall_update_iff w.fetches
      (p := fun other f => FetchTraced readFromObject (actions ++ [action]) other f)).mpr
    exact ⟨hnext, fun other _ => (h.fetches other).append _⟩

/-- Caching a recorded package keeps the rest. -/
theorem Traced.insert {actions : List (Action ω)} {w : World π}
    (h : Traced readFromObject actions w) {id : Address} {live : U64} {package : π}
    (hrecorded : Recorded readFromObject actions id live package) :
    Traced readFromObject actions
      { w with store := { w.store with cache := w.store.cache.insert id (live, package) } } := by
  refine ⟨h.versions, fun other live' package' hlookup => ?_, h.fetches⟩
  by_cases hother : other = id
  · subst hother
    rw [Finmap.lookup_insert] at hlookup
    cases hlookup
    exact hrecorded
  · rw [Finmap.lookup_insert_of_ne _ hother] at hlookup
    exact h.cached other live' package' hlookup

theorem step_traced {actions : List (Action ω)} {action : Action ω} {w w' : World π}
    (h : Traced readFromObject actions w) (hstep : step readFromObject w action = some w') :
    Traced readFromObject (actions ++ [action]) w' := by
  cases action with
  | start fetch id =>
    rw [step] at hstep
    split at hstep
    · cases hstep
      refine h.turn rfl ⟨actions.length, by simp, ?_⟩
      rw [liveAt_append _ _ le_rfl, liveAt, List.take_length, ← h.versions]
    · cases hstep
  | lookup fetch =>
    have hfetch := h.fetches fetch
    rw [step] at hstep
    split at hstep
    · rename_i id live hcall
      rw [hcall] at hfetch
      split at hstep
      · cases hstep
        exact h.turn rfl trivial
      · cases hstep
        exact h.turn rfl (FetchTraced.append _ hfetch)
    · cases hstep
  | answer fetch object =>
    have hfetch := h.fetches fetch
    rw [step] at hstep
    split at hstep
    · rename_i id live hcall
      rw [hcall] at hfetch
      split at hstep
      · rename_i package hread
        cases hstep
        obtain ⟨time, hstarted⟩ := hfetch
        cases object with
        | error e => cases e <;> cases hread
        | ok object => exact h.turn rfl (hstarted.recorded hread)
      · cases hstep
        exact h.turn rfl trivial
    · cases hstep
  | upsert fetch =>
    have hfetch := h.fetches fetch
    rw [step] at hstep
    split at hstep
    · rename_i id live package hcall
      rw [hcall] at hfetch
      cases hstep
      have hreturned : FetchTraced readFromObject (actions ++ [.upsert fetch]) fetch
          (.returned package) := trivial
      exact (h.turn rfl hreturned).insert (Recorded.append _ hfetch)
    · cases hstep
  | observe versions =>
    cases hstep
    refine ⟨?_, fun id live package hcached => (h.cached id live package hcached).append _,
      fun fetch => (h.fetches fetch).append _⟩
    rw [List.foldl_append, ← h.versions]
    rfl

theorem run_traced {actions : List (Action ω)} {w : World π}
    (h : runAll (step readFromObject) (World.start π) actions = some w) :
    Traced readFromObject actions w := by
  induction actions using List.reverseRecOn generalizing w with
  | nil =>
    cases h
    exact traced_start
  | append_singleton actions action ih =>
    obtain ⟨before, hbefore, hstep⟩ := runAll_concat_iff.mp h
    exact step_traced (ih hbefore) hstep

/-! ### What the cache serves -/

/-- A package served from the cache was read by a fetch that started after every observation
that raised the package's version before the serving fetch started. -/
theorem served_after_raises {actions : List (Action ω)} {w w' : World π} {fetch : ℕ} {package : π}
    (hrun : runAll (step readFromObject) (World.start π) actions = some w)
    (hstep : step readFromObject w (.lookup fetch) = some w')
    (hserved : w'.fetches fetch = .served package) :
    ∃ id serving reading, actions[serving]? = some (.start fetch id) ∧
      ReadBy readFromObject actions id reading package ∧
      ∀ raise < serving, RaisedAt actions id raise → raise < reading := by
  have h := run_traced hrun
  have hfetch := h.fetches fetch
  rw [step] at hstep
  split at hstep
  · rename_i id live hcall
    rw [hcall] at hfetch
    obtain ⟨serving, hstarted, hlive⟩ := hfetch
    split at hstep
    · rename_i found hlookup
      cases hstep
      rw [World.turn_self] at hserved
      cases hserved
      obtain ⟨⟨recorded, _⟩, hentry, rfl⟩ := Option.map_eq_some_iff.mp hlookup
      obtain ⟨hcached, hcurrent⟩ := Option.filter_eq_some_iff.mp hentry
      obtain ⟨reading, hread, _, hrecorded⟩ := h.cached id recorded _ hcached
      refine ⟨id, serving, reading, hstarted, hread, fun raise hlt hraise => ?_⟩
      apply lt_of_raisedAt _ hraise hlt
      rw [← hlive, ← hrecorded]
      exact of_decide_eq_true hcurrent
    · cases hstep
      rw [World.turn_self] at hserved
      cases hserved
  · cases hstep

end history

/-! ### An observation between a version read and its lookup -/

section sample

/-- One fetch of package 1 from start to end; it reads the bytecode before the upgrade. -/
def fetchWhole : List (Action Bool) := [.start 0 1, .lookup 0, .answer 0 (.ok false), .upsert 0]

def runBool (actions : List (Action Bool)) : Option (World Bool) :=
  runAll (step fun upgraded => .ok upgraded) (World.start Bool) actions

theorem served_after_raises_observed : ∃ reading, 0 < reading ∧
    ReadBy (fun upgraded => .ok upgraded)
      ([Action.observe [(1, 1)]] ++ fetchWhole ++ [.start 1 1]) 1 reading false := by
  obtain ⟨w, w', hrun, hstep, hserved⟩ :
      ∃ w w', runBool ([.observe [(1, 1)]] ++ fetchWhole ++ [.start 1 1]) = some w ∧
        step (fun upgraded => .ok upgraded) w (.lookup 1) = some w' ∧
        w'.fetches 1 = .served false := ⟨_, _, rfl, rfl, rfl⟩
  obtain ⟨id, serving, reading, hserving, hread, hfresh⟩ := served_after_raises hrun hstep hserved
  rcases serving with _ | _ | _ | _ | _ | _ | serving
  all_goals cases hserving
  exact ⟨reading, hfresh 0 (by decide) (by decide), hread⟩

theorem served_before_raise :
    ∃ w w', runBool (fetchWhole ++ [.start 1 1, .observe [(1, 1)]]) = some w ∧
      step (fun upgraded => .ok upgraded) w (.lookup 1) = some w' ∧
      w'.fetches 1 = .served false ∧
      RaisedAt (fetchWhole ++ [.start 1 1, .observe [(1, 1)]]) 1 5 ∧
      ∀ reading, ReadBy (fun upgraded => .ok upgraded)
        (fetchWhole ++ [.start 1 1, .observe [(1, 1)]]) 1 reading false → reading < 5 := by
  refine ⟨_, _, rfl, rfl, rfl, by decide, ?_⟩
  rintro reading ⟨fetch, later, object, _, hlt, hanswer, _⟩
  have hlater : later < 6 := (List.getElem?_eq_some_iff.mp hanswer).1
  omega

end sample

end PackageStore
