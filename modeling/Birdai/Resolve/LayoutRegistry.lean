import Birdai.Base.LabelledRuns
import Birdai.Resolve.PackageVersions
import Birdai.Venue.AnyVenue

/-!
# The layout registry

A cache of resolved layouts that an observed package version invalidates. A call
of `layout` is five steps, and other calls, observations and evictions may fall
between any two of them.
-/

namespace LayoutRegistry

open WideArith LabelledRuns TickIndex MoveTypes AnyVenues PackageVersion KeyedFolds

/-! ### The cache -/

/-- A shared layout. `resolvedAt` only tells when it was resolved: no step reads it. -/
structure Shared where
  layout : MoveTypeLayout
  resolvedAt : ℕ

structure CachedLayout where
  layout : Shared
  dependencies : List (Address × U64)
  fingerprint : Fingerprint

structure Registry where
  cache : Finmap fun _ : StructTag => CachedLayout
  packages : PackageVersions
  hits : ℕ
  misses : ℕ
  invalidated : ℕ

namespace Registry

def new : Registry := ⟨∅, .new, 0, 0, 0⟩

/-- Some package an entry depends on has moved. -/
def stale (r : Registry) (entry : CachedLayout) : Bool :=
  entry.dependencies.any fun dependency => !r.packages.isCurrent dependency.1 dependency.2

/-- The cached layout of a canonical tag, unless it went stale. -/
def lookup (r : Registry) (canonical : StructTag) : Option Shared × Registry :=
  match (r.cache.lookup canonical).filter fun entry => !r.stale entry with
  | some entry => (some entry.layout, { r with hits := r.hits + 1 })
  | none => (none, { r with misses := r.misses + 1 })

def insert (r : Registry) (canonical : StructTag) (entry : CachedLayout) : Registry :=
  { r with cache := r.cache.insert canonical entry }

/-- The first half of `note_packages`. -/
def observe (r : Registry) (versions : List (Address × U64)) : Registry :=
  { r with packages := r.packages.observe versions }

/-- The second half of `note_packages`: drop what the observations made stale. -/
def evict (r : Registry) : Registry :=
  let dropped := (r.cache.entries.filter fun cell => r.stale cell.2).card
  { r with
    cache := retain r.cache fun entry => !r.stale entry
    invalidated := r.invalidated + dropped }

def invalidate (r : Registry) (tag : StructTag) : Registry :=
  { r with cache := r.cache.erase tag }

/-- `note_packages` when nothing falls between its halves. -/
def notePackages (r : Registry) (versions : List (Address × U64)) : Registry :=
  if versions = [] then r else (r.observe versions).evict

/-- The fingerprint recorded for a cached layout, unless it went stale. -/
def fingerprint (r : Registry) (tag : StructTag) : Option Fingerprint :=
  match r.cache.lookup tag with
  | none => none
  | some entry => if r.stale entry then none else some entry.fingerprint

end Registry

/-! ### One call -/

/-- The package resolver over the bytecode its store holds. -/
structure Resolver (ε σ : Type) where
  canonicalType : σ → TypeTag → Except ε TypeTag
  typeLayout : σ → TypeTag → Except ε MoveTypeLayout

inductive ResolveError (ε : Type) where
  | layout (tag : StructTag) (source : ε)
  | notAStruct (type : TypeTag)

section call
variable {ε σ : Type} (resolver : Resolver ε σ) (fingerprint : MoveTypeLayout → Fingerprint)

def canonical (store : σ) (tag : StructTag) : Except (ResolveError ε) StructTag :=
  match resolver.canonicalType store (.struct tag) with
  | .error source => .error (.layout tag source)
  | .ok (.struct inner) => .ok inner
  | .ok other => .error (.notAStruct other)

/-- Where a call of `layout` stands. -/
inductive Call (ε : Type) where
  | idle
  | canonicalising (tag : StructTag)
  | lookingUp (canonical : StructTag)
  | resolving (canonical : StructTag)
  | collecting (canonical : StructTag) (layout : Shared)
  | inserting (canonical : StructTag) (entry : CachedLayout)
  | served (layout : Shared)
  | returned (layout : Shared)
  | failed (error : ResolveError ε)

/-- The next step of a call, if it has one. -/
def resume (r : Registry) (store : σ) (now : ℕ) : Call ε → Option (Call ε × Registry)
  | .canonicalising tag =>
    match canonical resolver store tag with
    | .ok canonical => some (.lookingUp canonical, r)
    | .error e => some (.failed e, r)
  | .lookingUp canonical =>
    match r.lookup canonical with
    | (some layout, r) => some (.served layout, r)
    | (none, r) => some (.resolving canonical, r)
  | .resolving canonical =>
    match resolver.typeLayout store (.struct canonical) with
    | .ok layout => some (.collecting canonical ⟨layout, now⟩, r)
    | .error source => some (.failed (.layout canonical source), r)
  | .collecting canonical layout =>
    let dependencies := collectDependencies layout.layout r.packages
    some (.inserting canonical ⟨layout, dependencies, fingerprint layout.layout⟩, r)
  | .inserting canonical entry => some (.returned entry.layout, r.insert canonical entry)
  | _ => none

/-! ### Calls, observations and upgrades interleaved -/

/-- The registry, the calls on it and the evictions still due. `now` counts the steps and
`raisedAt` dates the last increase of each package's version: no step reads them. -/
structure World (ε σ : Type) where
  registry : Registry
  store : σ
  calls : ℕ → Call ε
  evictions : ℕ
  now : ℕ
  raisedAt : Address → ℕ

def World.start (ε : Type) {σ : Type} (store : σ) : World ε σ :=
  { registry := .new
    store
    calls := fun _ => .idle
    evictions := 0
    now := 0
    raisedAt := fun _ => 0 }

inductive Action (σ : Type) where
  | upgrade (store : σ)
  | call (call : ℕ) (tag : StructTag)
  | resume (call : ℕ)
  | observe (versions : List (Address × U64))
  | evict
  | invalidate (tag : StructTag)

def step (w : World ε σ) : Action σ → Option (World ε σ)
  | .upgrade store => some { w with store, now := w.now + 1 }
  | .call call tag =>
    match w.calls call with
    | .idle =>
      some { w with
        calls := Function.update w.calls call (.canonicalising tag)
        now := w.now + 1 }
    | _ => none
  | .resume call =>
    (resume resolver fingerprint w.registry w.store (w.now + 1) (w.calls call)).map fun next =>
      { w with
        registry := next.2
        calls := Function.update w.calls call next.1
        now := w.now + 1 }
  | .observe versions =>
    let registry := w.registry.observe versions
    some { w with
      registry
      evictions := if versions = [] then w.evictions else w.evictions + 1
      now := w.now + 1
      raisedAt := fun address =>
        if w.registry.packages.live address < registry.packages.live address then w.now + 1
        else w.raisedAt address }
  | .evict =>
    if w.evictions = 0 then none
    else
      some { w with
        registry := w.registry.evict
        evictions := w.evictions - 1
        now := w.now + 1 }
  | .invalidate tag => some { w with registry := w.registry.invalidate tag, now := w.now + 1 }

/-- No package is raised while a layout that mentions it is between its resolve and its
dependencies. -/
def Quiet (w : World ε σ) : Action σ → Prop
  | .observe versions => ∀ call canonical layout, w.calls call = .collecting canonical layout →
      ∀ a, Mentions a layout.layout →
        (w.registry.packages.observe versions).live a ≤ w.registry.packages.live a
  | _ => True

/-- The worlds of the runs whose every step is quiet. -/
inductive QuietRun : World ε σ → Prop
  | start (store : σ) : QuietRun (World.start ε store)
  | step {w w' : World ε σ} (action : Action σ) (h : QuietRun w) (hquiet : Quiet w action)
      (hstep : step resolver fingerprint w action = some w') : QuietRun w'

end call

/-! ### What the steps keep -/

section keep
variable {ε σ : Type} {resolver : Resolver ε σ} {fingerprint : MoveTypeLayout → Fingerprint}

/-- What holds of resolved layouts and of entries, wherever a call carries them. -/
def CallKeeps (L : Shared → Prop) (E : CachedLayout → Prop) : Call ε → Prop
  | .collecting _ layout => L layout
  | .inserting _ entry => E entry
  | _ => True

theorem update_keeps {P : Call ε → Prop} {calls : ℕ → Call ε} (next : Call ε)
    (hcalls : ∀ other, P (calls other)) (hnext : P next) (call other : ℕ) :
    P (Function.update calls call next other) := by
  by_cases hother : other = call
  · rw [hother, Function.update_self]
    exact hnext
  · rw [Function.update_of_ne hother]
    exact hcalls other

theorem lookup_registry (r : Registry) (canonical : StructTag) :
    (r.lookup canonical).2.cache = r.cache ∧ (r.lookup canonical).2.packages = r.packages := by
  simp only [Registry.lookup]
  split
  · exact ⟨rfl, rfl⟩
  · exact ⟨rfl, rfl⟩

variable {L : Shared → Prop} {E : CachedLayout → Prop}

/-- One step of a call keeps what its resolve and its dependencies establish. -/
theorem resume_keeps {r r' : Registry} {store : σ} {now : ℕ} {c c' : Call ε}
    (hresolve : ∀ layout, L ⟨layout, now⟩)
    (hcollect : ∀ layout, L layout →
      E ⟨layout, collectDependencies layout.layout r.packages, fingerprint layout.layout⟩)
    (hentries : ∀ tag entry, r.cache.lookup tag = some entry → E entry) (hcall : CallKeeps L E c)
    (h : resume resolver fingerprint r store now c = some (c', r')) :
    r'.packages = r.packages ∧ (∀ tag entry, r'.cache.lookup tag = some entry → E entry) ∧
      CallKeeps L E c' := by
  cases c with
  | canonicalising tag =>
    rw [resume] at h
    split at h
    · cases h
      exact ⟨rfl, hentries, trivial⟩
    · cases h
      exact ⟨rfl, hentries, trivial⟩
  | lookingUp canonical =>
    obtain ⟨hcache, hpackages⟩ := lookup_registry r canonical
    rw [resume] at h
    generalize r.lookup canonical = looked at h hcache hpackages
    obtain ⟨layout, later⟩ := looked
    dsimp only at hcache hpackages
    cases layout with
    | some layout =>
      cases h
      exact ⟨hpackages, hcache ▸ hentries, trivial⟩
    | none =>
      cases h
      exact ⟨hpackages, hcache ▸ hentries, trivial⟩
  | resolving canonical =>
    rw [resume] at h
    split at h
    · cases h
      exact ⟨rfl, hentries, hresolve _⟩
    · cases h
      exact ⟨rfl, hentries, trivial⟩
  | collecting canonical layout =>
    rw [resume] at h
    cases h
    exact ⟨rfl, hentries, hcollect layout hcall⟩
  | inserting canonical entry =>
    rw [resume] at h
    cases h
    refine ⟨rfl, fun tag cached hcached => ?_, trivial⟩
    by_cases htag : tag = canonical
    · rw [htag, Registry.insert, Finmap.lookup_insert] at hcached
      exact Option.some.inj hcached ▸ hcall
    · rw [Registry.insert, Finmap.lookup_insert_of_ne _ htag] at hcached
      exact hentries tag cached hcached
  | _ => cases h

/-- Between observations a step keeps all of it, the versions and their dates. -/
theorem step_keeps {w w' : World ε σ} {action : Action σ}
    (hunobserved : ∀ versions, action ≠ .observe versions)
    (hresolve : ∀ layout, L ⟨layout, w.now + 1⟩)
    (hcollect : ∀ layout, L layout → E ⟨layout,
      collectDependencies layout.layout w.registry.packages, fingerprint layout.layout⟩)
    (hentries : ∀ tag entry, w.registry.cache.lookup tag = some entry → E entry)
    (hcalls : ∀ call, CallKeeps L E (w.calls call))
    (hstep : step resolver fingerprint w action = some w') :
    (w'.registry.packages = w.registry.packages ∧ w'.raisedAt = w.raisedAt ∧
      w'.now = w.now + 1) ∧
    (∀ tag entry, w'.registry.cache.lookup tag = some entry → E entry) ∧
    ∀ call, CallKeeps L E (w'.calls call) := by
  cases action with
  | upgrade store =>
    cases hstep
    exact ⟨⟨rfl, rfl, rfl⟩, hentries, hcalls⟩
  | call call tag =>
    rw [step] at hstep
    split at hstep
    · cases hstep
      exact ⟨⟨rfl, rfl, rfl⟩, hentries, update_keeps (.canonicalising tag) hcalls trivial call⟩
    · cases hstep
  | resume call =>
    obtain ⟨⟨c', r'⟩, hresume, rfl⟩ := Option.map_eq_some_iff.mp hstep
    obtain ⟨hpackages, hentries', hcall'⟩ :=
      resume_keeps hresolve hcollect hentries (hcalls call) hresume
    exact ⟨⟨hpackages, rfl, rfl⟩, hentries', update_keeps c' hcalls hcall' call⟩
  | observe versions => exact absurd rfl (hunobserved versions)
  | evict =>
    rw [step] at hstep
    split at hstep
    · cases hstep
    · cases hstep
      refine ⟨⟨rfl, rfl, rfl⟩, fun tag entry hcached => ?_, hcalls⟩
      rw [Registry.evict, lookup_retain] at hcached
      exact hentries tag entry (Option.filter_eq_some_iff.mp hcached).1
  | invalidate tag =>
    cases hstep
    refine ⟨⟨rfl, rfl, rfl⟩, fun other entry hcached => ?_, hcalls⟩
    by_cases hother : other = tag
    · rw [hother, Registry.invalidate, Finmap.lookup_erase] at hcached
      cases hcached
    · rw [Registry.invalidate, Finmap.lookup_erase_ne hother] at hcached
      exact hentries other entry hcached

end keep

/-! ### The invariant -/

/-- An entry whose packages are all as recorded was resolved after their last increase. -/
def Dated (live : Address → U64) (raisedAt : Address → ℕ) (entry : CachedLayout) : Prop :=
  ∀ a, Mentions a entry.layout.layout → ∃ version, (a, version) ∈ entry.dependencies ∧
    version ≤ live a ∧ (live a = version → raisedAt a < entry.layout.resolvedAt)

section invariant
variable {ε σ : Type}

def CallDated (live : Address → U64) (raisedAt : Address → ℕ) : Call ε → Prop
  | .collecting _ layout => ∀ a, Mentions a layout.layout → raisedAt a < layout.resolvedAt
  | .inserting _ entry => Dated live raisedAt entry
  | _ => True

structure Sound (w : World ε σ) : Prop where
  clock : ∀ a, w.raisedAt a ≤ w.now
  entries : ∀ tag entry, w.registry.cache.lookup tag = some entry →
    Dated w.registry.packages.live w.raisedAt entry
  calls : ∀ call, CallDated w.registry.packages.live w.raisedAt (w.calls call)

/-- A higher version outdates what was recorded, so dating survives an observation. -/
theorem Dated.observe {live live' : Address → U64} {raisedAt : Address → ℕ}
    {entry : CachedLayout} (h : Dated live raisedAt entry) (hle : ∀ a, live a ≤ live' a)
    (now : ℕ) :
    Dated live' (fun a => if live a < live' a then now else raisedAt a) entry := by
  intro a hmentions
  obtain ⟨version, hmem, hversion, hfresh⟩ := h a hmentions
  refine ⟨version, hmem, hversion.trans (hle a), fun hsame => ?_⟩
  have hheld : ¬ live a < live' a := fun hraised =>
    absurd (hsame ▸ hraised) hversion.not_gt
  dsimp only
  rw [if_neg hheld]
  exact hfresh (le_antisymm (hsame ▸ hle a) hversion)

/-- What the cache serves was resolved after every increase seen so far. -/
theorem lookup_fresh {r : Registry} {raisedAt : Address → ℕ} (canonical : StructTag)
    {layout : Shared} (hentries : ∀ tag entry, r.cache.lookup tag = some entry →
      Dated r.packages.live raisedAt entry)
    (hserved : (r.lookup canonical).1 = some layout) {a : Address}
    (hmentions : Mentions a layout.layout) : raisedAt a < layout.resolvedAt := by
  simp only [Registry.lookup] at hserved
  split at hserved
  · rename_i entry hentry
    obtain rfl := Option.some.inj hserved
    obtain ⟨hcached, hcurrent⟩ := Option.filter_eq_some_iff.mp hentry
    obtain ⟨version, hmem, hversion, hfresh⟩ := hentries canonical entry hcached a hmentions
    refine hfresh (le_antisymm ?_ hversion)
    have hnot : r.stale entry = false := by simpa using hcurrent
    have hdependency := List.any_eq_false.mp hnot _ hmem
    simpa [PackageVersions.isCurrent] using hdependency
  · cases hserved

theorem callDated_iff {live : Address → U64} {raisedAt : Address → ℕ} (c : Call ε) :
    CallDated live raisedAt c ↔
      CallKeeps (fun layout => ∀ a, Mentions a layout.layout → raisedAt a < layout.resolvedAt)
        (Dated live raisedAt) c := by
  cases c <;> exact Iff.rfl

theorem sound_start (store : σ) : Sound (World.start ε store) :=
  ⟨fun _ => le_rfl, fun tag _ h => by simp [World.start, Registry.new] at h, fun _ => trivial⟩

theorem step_sound {resolver : Resolver ε σ} {fingerprint : MoveTypeLayout → Fingerprint}
    {w w' : World ε σ} {action : Action σ} (hsound : Sound w) (hquiet : Quiet w action)
    (hstep : step resolver fingerprint w action = some w') : Sound w' := by
  obtain ⟨hclock, hentries, hcalls⟩ := hsound
  have hlater : ∀ a, w.raisedAt a ≤ w.now + 1 := fun a => (hclock a).trans (Nat.le_succ _)
  by_cases hobserves : ∃ versions, action = .observe versions
  · obtain ⟨versions, rfl⟩ := hobserves
    cases hstep
    have hle := live_le_observe w.registry.packages versions
    refine ⟨fun a => ?_, fun tag entry hcached => ?_, fun call => ?_⟩
    · dsimp only
      split
      · exact le_rfl
      · exact hlater a
    · exact (hentries tag entry hcached).observe hle _
    · have hcall := hcalls call
      dsimp only
      cases hc : w.calls call with
      | collecting canonical layout =>
        rw [hc] at hcall
        intro a hmentions
        have hsame := hquiet call canonical layout hc a hmentions
        exact (if_neg hsame.not_gt).trans_lt (hcall a hmentions)
      | inserting canonical entry =>
        rw [hc] at hcall
        exact Dated.observe hcall hle _
      | _ => trivial
  · simp only [callDated_iff] at hcalls
    obtain ⟨⟨hpackages, hdates, hnow⟩, hentries', hcalls'⟩ := step_keeps
      (fun versions he => hobserves ⟨versions, he⟩)
      (fun _ a _ => Nat.lt_succ_of_le (hclock a))
      (fun layout hfresh a hmentions => ⟨w.registry.packages.live a,
        mem_collectDependencies.mpr ⟨hmentions, rfl⟩, le_rfl, fun _ => hfresh a hmentions⟩)
      hentries hcalls hstep
    refine ⟨?_, ?_, fun call => (callDated_iff _).mpr ?_⟩
    · rw [hdates, hnow]
      exact hlater
    · rw [hpackages, hdates]
      exact hentries'
    · rw [hpackages, hdates]
      exact hcalls' call

theorem run_sound {resolver : Resolver ε σ} {fingerprint : MoveTypeLayout → Fingerprint}
    {w : World ε σ} (h : QuietRun resolver fingerprint w) : Sound w := by
  induction h with
  | start store => exact sound_start store
  | step action _ hquiet hstep ih => exact step_sound ih hquiet hstep

/-- In a quiet run every layout served from the cache was resolved after every increase
already observed of every package it mentions. -/
theorem served_fresh {resolver : Resolver ε σ} {fingerprint : MoveTypeLayout → Fingerprint}
    {w w' : World ε σ} (hrun : QuietRun resolver fingerprint w) {call : ℕ}
    {canonical : StructTag} {layout : Shared} (hcall : w.calls call = .lookingUp canonical)
    (hstep : step resolver fingerprint w (.resume call) = some w')
    (hserved : w'.calls call = .served layout) (a : Address)
    (hmentions : Mentions a layout.layout) : w.raisedAt a < layout.resolvedAt := by
  obtain ⟨⟨c', r'⟩, hresume, rfl⟩ := Option.map_eq_some_iff.mp hstep
  dsimp only at hserved
  rw [Function.update_self] at hserved
  subst hserved
  rw [hcall, resume] at hresume
  refine lookup_fresh canonical (run_sound hrun).entries ?_ hmentions
  generalize w.registry.lookup canonical = looked at hresume
  obtain ⟨found, later⟩ := looked
  cases found with
  | some found =>
    cases hresume
    rfl
  | none => cases hresume

end invariant

/-! ### What a raise in between does -/

section noise
variable {ε σ : Type} (resolver : Resolver ε σ) (fingerprint : MoveTypeLayout → Fingerprint)

/-- Without observations every run is quiet. -/
theorem run_quiet {w w' : World ε σ} {actions : List (Action σ)}
    (h : QuietRun resolver fingerprint w)
    (hunobserved : ∀ versions, .observe versions ∉ actions)
    (hrun : runAll (step resolver fingerprint) w actions = some w') :
    QuietRun resolver fingerprint w' := by
  refine runAll_preserves hrun (fun action hmem w₁ w₂ hquiet hstep => ?_) h
  refine .step action hquiet ?_ hstep
  cases action with
  | observe versions => exact absurd hmem (hunobserved versions)
  | _ => trivial

/-- Dependencies recorded now are current now. -/
theorem recorded_current (r : Registry) (layout : Shared) (hash : Fingerprint) :
    r.stale ⟨layout, collectDependencies layout.layout r.packages, hash⟩ = false := by
  refine List.any_eq_false.mpr fun dependency hdependency => ?_
  obtain ⟨a, version⟩ := dependency
  obtain ⟨_, rfl⟩ := mem_collectDependencies.mp hdependency
  simp [PackageVersions.isCurrent]

theorem lookup_inserted {r : Registry} {canonical : StructTag} {entry : CachedLayout}
    (hcurrent : r.stale entry = false) :
    ((r.insert canonical entry).lookup canonical).1 = some entry.layout := by
  have hkeep : (!(r.insert canonical entry).stale entry) = true := by
    change (!r.stale entry) = true
    rw [hcurrent]
    rfl
  simp only [Registry.lookup]
  have hcached : (r.insert canonical entry).cache.lookup canonical = some entry :=
    Finmap.lookup_insert _
  rw [hcached, Option.filter_some, if_pos hkeep]

theorem step_resume {w : World ε σ} {call : ℕ} {c c' : Call ε} {r : Registry}
    (hcall : w.calls call = c)
    (h : resume resolver fingerprint w.registry w.store (w.now + 1) c = some (c', r)) :
    step resolver fingerprint w (.resume call) = some { w with
      registry := r
      calls := Function.update w.calls call c'
      now := w.now + 1 } := by
  rw [step, hcall, h]
  rfl

theorem run_pair {w₀ w₁ w₂ : World ε σ} {first second : Action σ}
    (hfirst : step resolver fingerprint w₀ first = some w₁)
    (hsecond : step resolver fingerprint w₁ second = some w₂) :
    runAll (step resolver fingerprint) w₀ [first, second] = some w₂ :=
  (runAll_of_step hfirst).trans (runAll_of_step hsecond)

/-- Two more steps cache what a call collects. -/
theorem run_insert {w : World ε σ} {call : ℕ} {canon : StructTag} {layout : Shared}
    (hcall : w.calls call = .collecting canon layout) :
    ∃ w', runAll (step resolver fingerprint) w [.resume call, .resume call] = some w' ∧
      w'.registry = w.registry.insert canon
        ⟨layout, collectDependencies layout.layout w.registry.packages,
          fingerprint layout.layout⟩ ∧
      w'.store = w.store ∧ w'.raisedAt = w.raisedAt ∧
      ∀ other ≠ call, w'.calls other = w.calls other := by
  have hcollect := step_resume resolver fingerprint hcall rfl
  refine ⟨_, run_pair resolver fingerprint hcollect
    (step_resume resolver fingerprint (Function.update_self ..) rfl), rfl, rfl, rfl, ?_⟩
  intro other hother
  exact (Function.update_of_ne hother _ _).trans (Function.update_of_ne hother _ _)

/-- A fresh call comes to its lookup. -/
theorem run_lookup {w : World ε σ} {call : ℕ} {tag canon : StructTag}
    (hcall : w.calls call = .idle) (hcanonical : canonical resolver w.store tag = .ok canon) :
    ∃ w', runAll (step resolver fingerprint) w [.call call tag, .resume call] = some w' ∧
      w'.registry = w.registry ∧ w'.raisedAt = w.raisedAt ∧
      w'.calls call = .lookingUp canon := by
  have hstart : step resolver fingerprint w (.call call tag) = some { w with
      calls := Function.update w.calls call (.canonicalising tag)
      now := w.now + 1 } := by
    rw [step, hcall]
  have hcanonicalise : resume resolver fingerprint w.registry w.store (w.now + 2)
      (.canonicalising tag) = some (.lookingUp canon, w.registry) := by
    rw [resume, hcanonical]
  exact ⟨_, run_pair resolver fingerprint hstart
    (step_resume resolver fingerprint (Function.update_self ..) hcanonicalise), rfl, rfl,
    Function.update_self ..⟩

/-- A collected layout is served to the next call, if nothing is observed in between. -/
theorem run_serves {w : World ε σ} {call other : ℕ} (tag : StructTag) {canon : StructTag}
    {layout : Shared} (hcall : w.calls call = .collecting canon layout)
    (hother : w.calls other = .idle)
    (hcanonical : canonical resolver w.store tag = .ok canon) :
    ∃ w₁ w₂, runAll (step resolver fingerprint) w
        [.resume call, .resume call, .call other tag, .resume other] = some w₁ ∧
      w₁.calls other = .lookingUp canon ∧ w₁.raisedAt = w.raisedAt ∧
      step resolver fingerprint w₁ (.resume other) = some w₂ ∧
      w₂.calls other = .served layout := by
  have hne : other ≠ call := by
    rintro rfl
    rw [hcall] at hother
    cases hother
  obtain ⟨w₁, hinsert, hregistry, hstore, hdate, hcalls⟩ :=
    run_insert resolver fingerprint hcall
  obtain ⟨w₂, hlookup, hregistry', hdate', hlookingUp⟩ :=
    run_lookup resolver fingerprint ((hcalls other hne).trans hother) (hstore ▸ hcanonical)
  have hserves : (w₂.registry.lookup canon).1 = some layout := by
    rw [hregistry', hregistry]
    exact lookup_inserted (recorded_current _ _ _)
  have hresume : resume resolver fingerprint w₂.registry w₂.store (w₂.now + 1)
      (.lookingUp canon) = some (.served layout, (w₂.registry.lookup canon).2) := by
    rw [resume]
    generalize w₂.registry.lookup canon = looked at hserves
    obtain ⟨found, later⟩ := looked
    dsimp only at hserves
    rw [hserves]
  refine ⟨w₂, _, ?_, hlookingUp, hdate'.trans hdate,
    step_resume resolver fingerprint hlookingUp hresume, Function.update_self ..⟩
  have hsplit : ([.resume call, .resume call, .call other tag, .resume other] : List (Action σ)) =
      [.resume call, .resume call] ++ [.call other tag, .resume other] := rfl
  rw [hsplit, runAll_append, hinsert, Option.bind_some, hlookup]

/-- A raise between a resolve and its dependencies is recorded as seen: the layout from
before the raise is then served to the next call. -/
theorem noise_serves_stale {w : World ε σ} {call other : ℕ} (tag : StructTag)
    {canon : StructTag} {layout : Shared} {versions : List (Address × U64)} {a : Address}
    (hcall : w.calls call = .collecting canon layout) (hother : w.calls other = .idle)
    (hcanonical : canonical resolver w.store tag = .ok canon)
    (hraised : w.registry.packages.live a < (w.registry.packages.observe versions).live a) :
    ∃ w₁ w₂, runAll (step resolver fingerprint) w [.observe versions, .resume call, .resume call,
        .call other tag, .resume other] = some w₁ ∧
      w₁.calls other = .lookingUp canon ∧ w₁.raisedAt a = w.now + 1 ∧
      step resolver fingerprint w₁ (.resume other) = some w₂ ∧
      w₂.calls other = .served layout := by
  obtain ⟨w₀, hobserve, hstore, hcalls, hdate⟩ :
      ∃ w₀, step resolver fingerprint w (.observe versions) = some w₀ ∧ w₀.store = w.store ∧
        w₀.calls = w.calls ∧ w₀.raisedAt a = w.now + 1 :=
    ⟨_, rfl, rfl, rfl, if_pos hraised⟩
  rw [← hcalls] at hcall hother
  obtain ⟨w₁, w₂, hrun, hlookingUp, hdate', hserved⟩ :=
    run_serves resolver fingerprint tag hcall hother (hstore ▸ hcanonical)
  exact ⟨w₁, w₂, (runAll_of_step hobserve).trans hrun, hlookingUp, hdate' ▸ hdate, hserved⟩

end noise

section sample

def poolTag : StructTag := ⟨1, "pool", "Pool", []⟩

/-- The pool before and after its package is upgraded. -/
def poolLayout (upgraded : Bool) : MoveTypeLayout :=
  .struct poolTag
    (⟨"fee_rate", .primitive .u64⟩ :: if upgraded then [⟨"fee_cap", .primitive .u64⟩] else [])

/-- Every tag is canonical, and the store knows one type. -/
def poolResolver : Resolver Unit Bool :=
  { canonicalType := fun _ type => .ok type
    typeLayout := fun upgraded type =>
      if type = .struct poolTag then .ok (poolLayout upgraded) else .error () }

def runPool (actions : List (Action Bool)) : Option (World Unit Bool) :=
  runAll (step poolResolver fun _ => 0) (World.start Unit false) actions

def fetch : List (Action Bool) := [.call 0 poolTag, .resume 0, .resume 0, .resume 0]

def serve : List (Action Bool) := [.resume 0, .resume 0, .call 1 poolTag, .resume 1]

/-- An increase observed before the resolve is seen by what is served. -/
theorem served_fresh_pool :
    ∃ w w', runPool ([.observe [(1, 2)]] ++ fetch ++ serve) = some w ∧
      step poolResolver (fun _ => 0) w (.resume 1) = some w' ∧
      w'.calls 1 = .served ⟨poolLayout false, 5⟩ ∧ w.raisedAt 1 < 5 := by
  obtain ⟨w, hfetched, hcall, hother, hquiet⟩ :
      ∃ w, runPool ([.observe [(1, 2)]] ++ fetch) = some w ∧
        w.calls 0 = .collecting poolTag ⟨poolLayout false, 5⟩ ∧ w.calls 1 = .idle ∧
        QuietRun poolResolver (fun _ => 0) w :=
    ⟨_, rfl, rfl, rfl, .step (.resume 0) (.step (.resume 0) (.step (.resume 0)
      (.step (.call 0 poolTag) (.step (.observe [(1, 2)]) (.start false) nofun rfl) trivial rfl)
      trivial rfl) trivial rfl) trivial rfl⟩
  obtain ⟨w₁, w₂, hrun, hlookingUp, _, hstep, hserved⟩ :=
    run_serves poolResolver (fun _ => 0) poolTag hcall hother rfl
  refine ⟨w₁, w₂, ?_, hstep, hserved, ?_⟩
  · rw [runPool, runAll_append, ← runPool, hfetched]
    exact hrun
  · have hrun' := run_quiet poolResolver (fun _ => 0) hquiet (by simp) hrun
    exact served_fresh hrun' hlookingUp hstep hserved 1 (.structTag .address)

/-- An increase observed after the resolve and before the dependencies is not. -/
theorem served_stale_pool :
    ∃ w w', runPool (fetch ++ [.upgrade true, .observe [(1, 2)]] ++ serve) = some w ∧
      step poolResolver (fun _ => 0) w (.resume 1) = some w' ∧
      w'.calls 1 = .served ⟨poolLayout false, 4⟩ ∧ Mentions 1 (poolLayout false) ∧
      4 < w.raisedAt 1 := by
  obtain ⟨w, hfetched, hcall, hother, hstore, hnow, hraised⟩ :
      ∃ w, runPool (fetch ++ [.upgrade true]) = some w ∧
        w.calls 0 = .collecting poolTag ⟨poolLayout false, 4⟩ ∧ w.calls 1 = .idle ∧
        w.store = true ∧ w.now = 5 ∧
        w.registry.packages.live 1 < (w.registry.packages.observe [(1, 2)]).live 1 :=
    ⟨_, rfl, rfl, rfl, rfl, rfl, by decide⟩
  obtain ⟨w₁, w₂, hrun, hlookingUp, hdate, hstep, hserved⟩ :=
    noise_serves_stale poolResolver (fun _ => 0) poolTag hcall hother rfl hraised
  refine ⟨w₁, w₂, ?_, hstep, hserved, .structTag .address, ?_⟩
  · have hsplit : fetch ++ [.upgrade true, .observe [(1, 2)]] ++ serve =
        (fetch ++ [.upgrade true]) ++ (.observe [(1, 2)] :: serve) := rfl
    rw [runPool, hsplit, runAll_append, ← runPool, hfetched]
    exact hrun
  · rw [hdate, hnow]
    decide

end sample

end LayoutRegistry
