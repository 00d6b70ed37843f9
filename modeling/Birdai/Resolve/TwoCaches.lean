import Birdai.Base.LabelledRuns
import Birdai.Resolve.LayoutRegistry
import Birdai.Resolve.OfflineLayouts

/-!
# Two caches, one tracker

The layout registry over the package store. A call runs the resolver's programs over the
store, and each of their requests is a fetch of several steps; other calls, observations
and evictions may fall between any two of them. Both caches ask one tracker of versions.
-/

namespace TwoCaches

open WideArith MoveTypes AnyVenues PackageVersion Asking LabelledRuns
open PackageStore (SourcePackageStore StoreError fetchFromSource)
open LayoutRegistry (Shared CachedLayout Registry ResolveError)
open OfflineLayouts (Resolver)

/-! ### A program over the store -/

/-- A package the store has read. `startedAt` only tells when the fetch that read it started: no
step reads it. -/
structure Read (π : Type) where
  package : π
  startedAt : ℕ

/-- A request that was answered. -/
structure Use (π : Type) where
  id : Address
  read : Read π

def Use.answer {π : Type} (use : Use π) : Address × π := (use.id, use.read.package)

abbrev Bytecode (π : Type) := Finmap fun _ : Address => U64 × Read π

section asking
variable {ω π α : Type}

/-- A request of the program, the version that was live when it was made, and how it goes on. -/
structure Request (π α : Type) where
  id : Address
  live : U64
  startedAt : ℕ
  next : π → Program Address π StoreError α

inductive Stage (π : Type) where
  | lookingUp
  | fetching
  | inserting (package : π)

inductive Progress (π α : Type) where
  | running (program : Program Address π StoreError α)
  | waiting (request : Request π α) (stage : Stage π)

/-- Where a program over the store stands, and what it was given so far: no step reads the uses. -/
structure Pending (π α : Type) where
  progress : Progress π α
  uses : List (Use π)

def Pending.start (program : Program Address π StoreError α) : Pending π α := ⟨.running program, []⟩

/-- A program goes on or has come to its end. -/
inductive Turn (π α : Type) where
  | going (pending : Pending π α)
  | ended (result : Except StoreError α) (uses : List (Use π))

namespace Pending
variable (readFromObject : ω → Except StoreError π)

/-- The next step of a program, over the versions and the bytecode. The source's answer is what a
fetch gets that waits for it. -/
def resume (versions : PackageVersions) (bytecode : Bytecode π) (now : ℕ)
    (answer : Except PackageStore.ResolveError ω) : Pending π α → Turn π α × Bytecode π
  | ⟨.running (.done result), uses⟩ => (.ended result uses, bytecode)
  | ⟨.running (.ask id next), uses⟩ =>
    (.going ⟨.waiting ⟨id, versions.live id, now, next⟩ .lookingUp, uses⟩, bytecode)
  | ⟨.waiting request .lookingUp, uses⟩ =>
    match (SourcePackageStore.mk versions bytecode).lookup request.id request.live with
    | some read =>
      (.going ⟨.running (request.next read.package), uses ++ [⟨request.id, read⟩]⟩, bytecode)
    | none => (.going ⟨.waiting request .fetching, uses⟩, bytecode)
  | ⟨.waiting request .fetching, uses⟩ =>
    match fetchFromSource readFromObject request.id answer with
    | .ok package => (.going ⟨.waiting request (.inserting package), uses⟩, bytecode)
    | .error e => (.ended (.error e) uses, bytecode)
  | ⟨.waiting request (.inserting package), uses⟩ =>
    let read : Read π := ⟨package, request.startedAt⟩
    (.going ⟨.running (request.next package), uses ++ [⟨request.id, read⟩]⟩,
      bytecode.insert request.id (request.live, read))

end Pending

end asking

/-! ### Calls -/

inductive Call (π : Type) where
  | idle
  | canonicalising (tag : StructTag) (pending : Pending π TypeTag)
  | lookingUp (canonical : StructTag)
  | resolving (canonical : StructTag) (pending : Pending π MoveTypeLayout)
  | collecting (canonical : StructTag) (layout : Shared) (uses : List (Use π))
  | inserting (canonical : StructTag) (entry : CachedLayout) (uses : List (Use π))
  | served (layout : Shared)
  | returned (layout : Shared)
  | packaging (pending : Pending π π)
  | packaged (result : Except StoreError π)
  | failed (error : ResolveError StoreError)

/-- Both caches, the calls on them and the evictions still due. `origin` keeps what the entry of a
tag was built from, `now` counts the steps and `raisedAt` dates the last increase of each package's
version: no step reads them. -/
structure World (π : Type) where
  registry : Registry
  bytecode : Bytecode π
  origin : StructTag → List (Use π)
  calls : ℕ → Call π
  evictions : ℕ
  now : ℕ
  raisedAt : Address → ℕ

def World.start (π : Type) : World π :=
  { registry := .new
    bytecode := ∅
    origin := fun _ => []
    calls := fun _ => .idle
    evictions := 0
    now := 0
    raisedAt := fun _ => 0 }

inductive Action (ω : Type) where
  | layout (call : ℕ) (tag : StructTag)
  | package (call : ℕ) (address : Address)
  | resume (call : ℕ) (answer : Except PackageStore.ResolveError ω)
  | observe (versions : List (Address × U64))
  | evict
  | invalidate (tag : StructTag)

section steps
variable {ω π : Type} (readFromObject : ω → Except StoreError π) (resolver : Resolver π)
  (fingerprint : MoveTypeLayout → Fingerprint)

/-- What `layout` makes of a canonical type. -/
def canonicalised (tag : StructTag) : Except StoreError TypeTag → Call π
  | .error source => .failed (.layout tag source)
  | .ok (.struct inner) => .lookingUp inner
  | .ok other => .failed (.notAStruct other)

/-- What it makes of a resolved layout. -/
def resolved (canonical : StructTag) (now : ℕ) (uses : List (Use π)) :
    Except StoreError MoveTypeLayout → Call π
  | .error source => .failed (.layout canonical source)
  | .ok layout => .collecting canonical ⟨layout, now⟩ uses

/-- What a step of a call leaves behind. -/
structure Outcome (π : Type) where
  call : Call π
  registry : Registry
  bytecode : Bytecode π
  origin : StructTag → List (Use π)

/-- The next step of a call, if it has one. -/
def proceed (w : World π) (answer : Except PackageStore.ResolveError ω) :
    Call π → Option (Outcome π)
  | .canonicalising tag pending =>
    match pending.resume readFromObject w.registry.packages w.bytecode (w.now + 1) answer with
    | (.going pending, bytecode) =>
      some ⟨.canonicalising tag pending, w.registry, bytecode, w.origin⟩
    | (.ended result _, bytecode) =>
      some ⟨canonicalised tag result, w.registry, bytecode, w.origin⟩
  | .lookingUp canonical =>
    match w.registry.lookup canonical with
    | (some layout, registry) => some ⟨.served layout, registry, w.bytecode, w.origin⟩
    | (none, registry) =>
      some ⟨.resolving canonical (.start (resolver.typeLayout (.struct canonical))), registry,
        w.bytecode, w.origin⟩
  | .resolving canonical pending =>
    match pending.resume readFromObject w.registry.packages w.bytecode (w.now + 1) answer with
    | (.going pending, bytecode) =>
      some ⟨.resolving canonical pending, w.registry, bytecode, w.origin⟩
    | (.ended result uses, bytecode) =>
      some ⟨resolved canonical (w.now + 1) uses result, w.registry, bytecode, w.origin⟩
  | .collecting canonical layout uses =>
    let dependencies := collectDependencies layout.layout w.registry.packages
    some ⟨.inserting canonical ⟨layout, dependencies, fingerprint layout.layout⟩ uses, w.registry,
      w.bytecode, w.origin⟩
  | .inserting canonical entry uses =>
    some ⟨.returned entry.layout, w.registry.insert canonical entry, w.bytecode,
      Function.update w.origin canonical uses⟩
  | .packaging pending =>
    match pending.resume readFromObject w.registry.packages w.bytecode (w.now + 1) answer with
    | (.going pending, bytecode) => some ⟨.packaging pending, w.registry, bytecode, w.origin⟩
    | (.ended result _, bytecode) => some ⟨.packaged result, w.registry, bytecode, w.origin⟩
  | _ => none

def step (w : World π) : Action ω → Option (World π)
  | .layout call tag =>
    match w.calls call with
    | .idle =>
      let pending := Pending.start (resolver.canonicalType (.struct tag))
      some { w with
        calls := Function.update w.calls call (.canonicalising tag pending)
        now := w.now + 1 }
    | _ => none
  | .package call address =>
    match w.calls call with
    | .idle =>
      let pending := Pending.start (.ask address fun package => .done (.ok package))
      some { w with
        calls := Function.update w.calls call (.packaging pending)
        now := w.now + 1 }
    | _ => none
  | .resume call answer =>
    (proceed readFromObject resolver fingerprint w answer (w.calls call)).map fun next =>
      { w with
        registry := next.registry
        bytecode := next.bytecode
        origin := next.origin
        calls := Function.update w.calls call next.call
        now := w.now + 1 }
  | .observe versions =>
    let registry := w.registry.observe versions
    some { w with
      registry
      evictions := if versions = [] then w.evictions else w.evictions + 1
      now := w.now + 1
      raisedAt := fun address =>
        if w.registry.packages.live address < registry.packages.live address then w.now + 1
        else w.raisedAt address }
  | .evict =>
    if w.evictions = 0 then none
    else
      some { w with
        registry := w.registry.evict
        evictions := w.evictions - 1
        now := w.now + 1 }
  | .invalidate tag => some { w with registry := w.registry.invalidate tag, now := w.now + 1 }

/-- The package a program waits for. -/
def Pending.asksFor {α : Type} (pending : Pending π α) (a : Address) : Prop :=
  match pending.progress with
  | .running _ => False
  | .waiting request _ => request.id = a

/-- A call that resolves has asked for the package, and has not collected its dependencies yet. -/
def Call.Relies (a : Address) : Call π → Prop
  | .resolving _ pending => pending.asksFor a ∨ ∃ use ∈ pending.uses, use.id = a
  | .collecting _ _ uses => ∃ use ∈ uses, use.id = a
  | _ => False

/-- No package is raised while a call relies on it. -/
def Quiet (w : World π) : Action ω → Prop
  | .observe versions => ∀ call a, (w.calls call).Relies a →
      (w.registry.packages.observe versions).live a ≤ w.registry.packages.live a
  | _ => True

/-- The steps of quiet runs. -/
def QuietStep (w : World π) (action : Action ω) (w' : World π) : Prop :=
  Quiet w action ∧ step readFromObject resolver fingerprint w action = some w'

end steps

/-! ### The invariant -/

section invariant
variable {ω π α : Type}

/-- As long as the version recorded with it is live, what was read is from after its increase. -/
structure DatedRead (live : Address → U64) (raisedAt : Address → ℕ) (id : Address) (version : U64)
    (startedAt : ℕ) : Prop where
  le : version ≤ live id
  current : live id = version → raisedAt id < startedAt

/-- The read is from after the package's last increase. -/
def Use.Fresh (raisedAt : Address → ℕ) (use : Use π) : Prop :=
  raisedAt use.id < use.read.startedAt

def Pending.Dated (live : Address → U64) (raisedAt : Address → ℕ) (pending : Pending π α) : Prop :=
  match pending.progress with
  | .running _ => True
  | .waiting request _ => DatedRead live raisedAt request.id request.live request.startedAt

/-- What is left of the program. -/
def Progress.program : Progress π α → Program Address π StoreError α
  | .running program => program
  | .waiting request _ => .ask request.id request.next

/-- The program was given what it used, all of it fresh, and waits for what is still live. -/
structure Pending.Follows (live : Address → U64) (raisedAt : Address → ℕ)
    (program : Program Address π StoreError α) (pending : Pending π α) : Prop where
  given : Given program (pending.uses.map Use.answer) pending.progress.program
  fresh : ∀ use ∈ pending.uses, use.Fresh raisedAt
  live : ∀ request stage, pending.progress = .waiting request stage → live request.id = request.live

/-- The resolver comes to the layout when it is given what is used. -/
def Built (resolver : Resolver π) (canonical : StructTag) (layout : MoveTypeLayout)
    (uses : List (Use π)) : Prop :=
  Given (resolver.typeLayout (.struct canonical)) (uses.map Use.answer) (.done (.ok layout))

/-- As long as no package of an entry has moved, what the entry was built from is fresh. -/
structure DatedEntry (resolver : Resolver π) (live : Address → U64) (raisedAt : Address → ℕ)
    (canonical : StructTag) (entry : CachedLayout) (uses : List (Use π)) : Prop where
  built : Built resolver canonical entry.layout.layout uses
  dated : ∀ use ∈ uses, Mentions use.id entry.layout.layout → ∃ version,
    (use.id, version) ∈ entry.dependencies ∧
      DatedRead live raisedAt use.id version use.read.startedAt

def Turn.Dated (live : Address → U64) (raisedAt : Address → ℕ) : Turn π α → Prop
  | .going pending => pending.Dated live raisedAt
  | .ended _ _ => True

def Turn.Follows (live : Address → U64) (raisedAt : Address → ℕ)
    (program : Program Address π StoreError α) : Turn π α → Prop
  | .going pending => pending.Follows live raisedAt program
  | .ended result uses => ∀ a, result = .ok a →
    Given program (uses.map Use.answer) (.done (.ok a)) ∧ ∀ use ∈ uses, use.Fresh raisedAt

def CallSound (resolver : Resolver π) (live : Address → U64) (raisedAt : Address → ℕ) :
    Call π → Prop
  | .canonicalising _ pending => pending.Dated live raisedAt
  | .resolving canonical pending => pending.Dated live raisedAt ∧
    pending.Follows live raisedAt (resolver.typeLayout (.struct canonical))
  | .collecting canonical layout uses => Built resolver canonical layout.layout uses ∧
    ∀ use ∈ uses, use.Fresh raisedAt
  | .inserting canonical entry uses => DatedEntry resolver live raisedAt canonical entry uses
  | .packaging pending => pending.Dated live raisedAt
  | _ => True

/-- The bytecode is dated. -/
def Stocked (live : Address → U64) (raisedAt : Address → ℕ) (bytecode : Bytecode π) : Prop :=
  ∀ id version read, bytecode.lookup id = some (version, read) →
    DatedRead live raisedAt id version read.startedAt

structure Sound (resolver : Resolver π) (w : World π) : Prop where
  clock : ∀ a, w.raisedAt a ≤ w.now
  stocked : Stocked w.registry.packages.live w.raisedAt w.bytecode
  entries : ∀ tag entry, w.registry.cache.lookup tag = some entry →
    DatedEntry resolver w.registry.packages.live w.raisedAt tag entry (w.origin tag)
  calls : ∀ call, CallSound resolver w.registry.packages.live w.raisedAt (w.calls call)

end invariant

/-! ### A program's step -/

section resume
variable {ω π α : Type} (readFromObject : ω → Except StoreError π) {versions : PackageVersions}
  {raisedAt : Address → ℕ} {bytecode : Bytecode π} (answer : Except PackageStore.ResolveError ω)
  (now : ℕ)

theorem Stocked.insert {live : Address → U64} (h : Stocked live raisedAt bytecode) {id : Address}
    {version : U64} {read : Read π} (hread : DatedRead live raisedAt id version read.startedAt) :
    Stocked live raisedAt (bytecode.insert id (version, read)) := by
  intro other version' read' hlookup
  by_cases hother : other = id
  · subst hother
    rw [Finmap.lookup_insert] at hlookup
    cases hlookup
    exact hread
  · rw [Finmap.lookup_insert_of_ne _ hother] at hlookup
    exact h other version' read' hlookup

/-- What was recorded under the version that is still live is fresh. -/
theorem fresh_of_lookup (hstocked : Stocked versions.live raisedAt bytecode) {id : Address}
    {live : U64} {read : Read π} (hlive : versions.live id = live)
    (h : (SourcePackageStore.mk versions bytecode).lookup id live = some read) :
    raisedAt id < read.startedAt := by
  obtain ⟨⟨version, found⟩, hentry, rfl⟩ := Option.map_eq_some_iff.mp h
  obtain ⟨hcached, hcurrent⟩ := Option.filter_eq_some_iff.mp hentry
  have hdated := hstocked id version found hcached
  have hle : live ≤ version := of_decide_eq_true hcurrent
  exact hdated.current (le_antisymm (hlive ▸ hle) hdated.le)

theorem resume_dated {now : ℕ} (hclock : ∀ a, raisedAt a < now)
    (hstocked : Stocked versions.live raisedAt bytecode) {pending : Pending π α}
    (hdated : pending.Dated versions.live raisedAt) :
    Stocked versions.live raisedAt
        (pending.resume readFromObject versions bytecode now answer).2 ∧
      (pending.resume readFromObject versions bytecode now answer).1.Dated versions.live
        raisedAt := by
  obtain ⟨progress, uses⟩ := pending
  cases progress with
  | running program =>
    cases program with
    | done result => exact ⟨hstocked, trivial⟩
    | ask id next => exact ⟨hstocked, le_rfl, fun _ => hclock id⟩
  | waiting request stage =>
    cases stage with
    | lookingUp =>
      rw [Pending.resume]
      split
      · exact ⟨hstocked, trivial⟩
      · exact ⟨hstocked, hdated⟩
    | fetching =>
      rw [Pending.resume]
      split
      · exact ⟨hstocked, hdated⟩
      · exact ⟨hstocked, trivial⟩
    | inserting package => exact ⟨hstocked.insert hdated, trivial⟩

theorem Pending.Follows.used {live : Address → U64} {program : Program Address π StoreError α}
    {request : Request π α} {stage : Stage π} {uses : List (Use π)} {read : Read π}
    (h : Pending.Follows live raisedAt program ⟨.waiting request stage, uses⟩)
    (hread : raisedAt request.id < read.startedAt) :
    Pending.Follows live raisedAt program
      ⟨.running (request.next read.package), uses ++ [⟨request.id, read⟩]⟩ := by
  refine ⟨?_, fun use huse => ?_, nofun⟩
  · rw [List.map_append]
    exact h.given.concat read.package
  · rcases List.mem_append.mp huse with huse | huse
    · exact h.fresh use huse
    · cases List.mem_singleton.mp huse
      exact hread

theorem resume_follows (hstocked : Stocked versions.live raisedAt bytecode)
    {program : Program Address π StoreError α} {pending : Pending π α}
    (hdated : pending.Dated versions.live raisedAt)
    (hfollows : pending.Follows versions.live raisedAt program) :
    (pending.resume readFromObject versions bytecode now answer).1.Follows versions.live raisedAt
      program := by
  obtain ⟨progress, uses⟩ := pending
  cases progress with
  | running rest =>
    cases rest with
    | done result =>
      rintro a rfl
      exact ⟨hfollows.given, hfollows.fresh⟩
    | ask id next =>
      refine ⟨hfollows.given, hfollows.fresh, fun request stage hwaiting => ?_⟩
      cases hwaiting
      rfl
  | waiting request stage =>
    have hlive := hfollows.live request stage rfl
    cases stage with
    | lookingUp =>
      rw [Pending.resume]
      split
      · rename_i read hlookup
        exact hfollows.used (fresh_of_lookup hstocked hlive hlookup)
      · exact ⟨hfollows.given, hfollows.fresh, fun _ _ hwaiting => by cases hwaiting; exact hlive⟩
    | fetching =>
      rw [Pending.resume]
      split
      · exact ⟨hfollows.given, hfollows.fresh, fun _ _ hwaiting => by cases hwaiting; exact hlive⟩
      · exact fun _ herror => by cases herror
    | inserting package =>
      have hread : raisedAt request.id < (Read.mk package request.startedAt).startedAt :=
        hdated.current hlive
      exact hfollows.used hread

end resume

/-! ### Every step -/

section steps
variable {ω π : Type} {readFromObject : ω → Except StoreError π} {resolver : Resolver π}
  {fingerprint : MoveTypeLayout → Fingerprint} {w w' : World π}

theorem canonicalised_sound (live : Address → U64) (raisedAt : Address → ℕ) (tag : StructTag)
    (result : Except StoreError TypeTag) :
    CallSound resolver live raisedAt (canonicalised tag result : Call π) := by
  unfold canonicalised
  split <;> trivial

/-- A step of a call keeps the versions, and with them what both caches hold. -/
theorem proceed_sound {answer : Except PackageStore.ResolveError ω} {c : Call π}
    {next : Outcome π} (hsound : Sound resolver w)
    (hcall : CallSound resolver w.registry.packages.live w.raisedAt c)
    (h : proceed readFromObject resolver fingerprint w answer c = some next) :
    next.registry.packages = w.registry.packages ∧
      Stocked w.registry.packages.live w.raisedAt next.bytecode ∧
      (∀ tag entry, next.registry.cache.lookup tag = some entry →
        DatedEntry resolver w.registry.packages.live w.raisedAt tag entry (next.origin tag)) ∧
      CallSound resolver w.registry.packages.live w.raisedAt next.call := by
  have hclock : ∀ a, w.raisedAt a < w.now + 1 := fun a => Nat.lt_succ_of_le (hsound.clock a)
  cases c with
  | canonicalising tag pending =>
    have hdated := resume_dated readFromObject answer hclock hsound.stocked hcall
    rw [proceed] at h
    generalize pending.resume readFromObject w.registry.packages w.bytecode (w.now + 1) answer =
      resumed at h hdated
    obtain ⟨turn, bytecode⟩ := resumed
    cases turn with
    | going pending =>
      cases h
      exact ⟨rfl, hdated.1, hsound.entries, hdated.2⟩
    | ended result uses =>
      cases h
      exact ⟨rfl, hdated.1, hsound.entries, canonicalised_sound _ _ tag result⟩
  | lookingUp canonical =>
    obtain ⟨hcache, hpackages⟩ := LayoutRegistry.lookup_registry w.registry canonical
    rw [proceed] at h
    generalize w.registry.lookup canonical = looked at h hcache hpackages
    obtain ⟨found, registry⟩ := looked
    dsimp only at hcache hpackages
    cases found with
    | some layout =>
      cases h
      exact ⟨hpackages, hsound.stocked, hcache ▸ hsound.entries, trivial⟩
    | none =>
      cases h
      refine ⟨hpackages, hsound.stocked, hcache ▸ hsound.entries, trivial, .nil _, ?_, ?_⟩
      · exact fun _ huse => absurd huse List.not_mem_nil
      · nofun
  | resolving canonical pending =>
    have hdated := resume_dated readFromObject answer hclock hsound.stocked hcall.1
    have hfollows := resume_follows readFromObject answer (w.now + 1) hsound.stocked hcall.1
      hcall.2
    rw [proceed] at h
    generalize pending.resume readFromObject w.registry.packages w.bytecode (w.now + 1) answer =
      resumed at h hdated hfollows
    obtain ⟨turn, bytecode⟩ := resumed
    cases turn with
    | going pending =>
      cases h
      exact ⟨rfl, hdated.1, hsound.entries, hdated.2, hfollows⟩
    | ended result uses =>
      cases h
      refine ⟨rfl, hdated.1, hsound.entries, ?_⟩
      cases result with
      | error e => trivial
      | ok layout => exact hfollows layout rfl
  | collecting canonical layout uses =>
    cases h
    refine ⟨rfl, hsound.stocked, hsound.entries, hcall.1, fun use huse hmentions => ?_⟩
    exact ⟨_, mem_collectDependencies.mpr ⟨hmentions, rfl⟩, le_rfl, fun _ => hcall.2 use huse⟩
  | inserting canonical entry uses =>
    cases h
    refine ⟨rfl, hsound.stocked, fun tag cached hcached => ?_, trivial⟩
    by_cases htag : tag = canonical
    · subst htag
      rw [Registry.insert, Finmap.lookup_insert] at hcached
      dsimp only
      rw [Function.update_self]
      exact Option.some.inj hcached ▸ hcall
    · rw [Registry.insert, Finmap.lookup_insert_of_ne _ htag] at hcached
      dsimp only
      rw [Function.update_of_ne htag]
      exact hsound.entries tag cached hcached
  | packaging pending =>
    have hdated := resume_dated readFromObject answer hclock hsound.stocked hcall
    rw [proceed] at h
    generalize pending.resume readFromObject w.registry.packages w.bytecode (w.now + 1) answer =
      resumed at h hdated
    obtain ⟨turn, bytecode⟩ := resumed
    cases turn with
    | going pending =>
      cases h
      exact ⟨rfl, hdated.1, hsound.entries, hdated.2⟩
    | ended result uses =>
      cases h
      exact ⟨rfl, hdated.1, hsound.entries, trivial⟩
  | _ => cases h

theorem step_of_proceed {answer : Except PackageStore.ResolveError ω} {call : ℕ}
    {next : Outcome π}
    (h : proceed readFromObject resolver fingerprint w answer (w.calls call) = some next) :
    ∃ w', step readFromObject resolver fingerprint w (.resume call answer) = some w' ∧
      w'.calls call = next.call := by
  rw [step, h]
  exact ⟨_, rfl, Function.update_self ..⟩

/-- Turning one call keeps the others. -/
theorem update_sound {live : Address → U64} {raisedAt : Address → ℕ} {calls : ℕ → Call π}
    {next : Call π} (hcalls : ∀ other, CallSound resolver live raisedAt (calls other))
    (hnext : CallSound resolver live raisedAt next) (call other : ℕ) :
    CallSound resolver live raisedAt (Function.update calls call next other) := by
  by_cases hother : other = call
  · rw [hother, Function.update_self]
    exact hnext
  · rw [Function.update_of_ne hother]
    exact hcalls other

/-- An entry less keeps the rest. -/
theorem Sound.drop (h : Sound resolver w) (registry : Registry)
    (hpackages : registry.packages = w.registry.packages)
    (hcache : ∀ tag entry, registry.cache.lookup tag = some entry →
      w.registry.cache.lookup tag = some entry) (evictions : ℕ) :
    Sound resolver { w with registry, evictions, now := w.now + 1 } := by
  refine ⟨fun a => (h.clock a).trans (Nat.le_succ _), ?_, fun tag entry hcached => ?_, ?_⟩
  · rw [hpackages]
    exact h.stocked
  · rw [hpackages]
    exact h.entries tag entry (hcache tag entry hcached)
  · rw [hpackages]
    exact h.calls

section observe
variable {live live' : Address → U64} {raisedAt : Address → ℕ} (hle : ∀ a, live a ≤ live' a)
  (now : ℕ)

/-- The dates after an observation. -/
def raised (live live' : Address → U64) (raisedAt : Address → ℕ) (now : ℕ) (a : Address) : ℕ :=
  if live a < live' a then now else raisedAt a

theorem raised_of_le {a : Address} (h : live' a ≤ live a) :
    raised live live' raisedAt now a = raisedAt a := if_neg h.not_gt

theorem Use.Fresh.observe {use : Use π} (h : use.Fresh raisedAt)
    (hquiet : live' use.id ≤ live use.id) : use.Fresh (raised live live' raisedAt now) := by
  rw [Use.Fresh, raised_of_le now hquiet]
  exact h

include hle

/-- A higher version outdates what was recorded, so dating survives an observation. -/
theorem DatedRead.observe {id : Address} {version : U64} {startedAt : ℕ}
    (h : DatedRead live raisedAt id version startedAt) :
    DatedRead live' (raised live live' raisedAt now) id version startedAt := by
  refine ⟨h.le.trans (hle id), fun hsame => ?_⟩
  have hheld : live' id ≤ live id := hsame ▸ h.le
  rw [raised_of_le now hheld]
  exact h.current (le_antisymm (hsame ▸ hle id) h.le)

theorem Pending.Dated.observe {α : Type} {pending : Pending π α}
    (h : pending.Dated live raisedAt) :
    pending.Dated live' (raised live live' raisedAt now) := by
  obtain ⟨progress, uses⟩ := pending
  cases progress with
  | running program => trivial
  | waiting request stage => exact DatedRead.observe hle now h

theorem DatedEntry.observe {canonical : StructTag} {entry : CachedLayout} {uses : List (Use π)}
    (h : DatedEntry resolver live raisedAt canonical entry uses) :
    DatedEntry resolver live' (raised live live' raisedAt now) canonical entry uses := by
  refine ⟨h.built, fun use huse hmentions => ?_⟩
  obtain ⟨version, hmem, hdated⟩ := h.dated use huse hmentions
  exact ⟨version, hmem, hdated.observe hle now⟩

/-- What a call relies on is not raised, so it is still fresh. -/
theorem CallSound.observe {c : Call π} (h : CallSound resolver live raisedAt c)
    (hquiet : ∀ a, c.Relies a → live' a ≤ live a) :
    CallSound resolver live' (raised live live' raisedAt now) c := by
  cases c with
  | canonicalising tag pending => exact Pending.Dated.observe hle now h
  | packaging pending => exact Pending.Dated.observe hle now h
  | inserting canonical entry uses => exact DatedEntry.observe hle now h
  | collecting canonical layout uses =>
    exact ⟨h.1, fun use huse => (h.2 use huse).observe now (hquiet use.id ⟨use, huse, rfl⟩)⟩
  | resolving canonical pending =>
    obtain ⟨hdated, hfollows⟩ := h
    refine ⟨hdated.observe hle now, hfollows.given, fun use huse => ?_, fun request stage hw => ?_⟩
    · exact (hfollows.fresh use huse).observe now (hquiet use.id (.inr ⟨use, huse, rfl⟩))
    · have hasks : pending.asksFor request.id := by
        rw [Pending.asksFor, hw]
      have hsame := le_antisymm (hquiet request.id (.inl hasks)) (hle request.id)
      rw [hsame, hfollows.live request stage hw]
  | _ => trivial

end observe

theorem step_sound {action : Action ω} (hsound : Sound resolver w)
    (hstep : QuietStep readFromObject resolver fingerprint w action w') : Sound resolver w' := by
  obtain ⟨hquiet, hstep⟩ := hstep
  have hlater : ∀ a, w.raisedAt a ≤ w.now + 1 := fun a => (hsound.clock a).trans (Nat.le_succ _)
  cases action with
  | layout call tag =>
    rw [step] at hstep
    split at hstep
    · cases hstep
      have hcall : CallSound resolver w.registry.packages.live w.raisedAt
        (.canonicalising tag (.start (resolver.canonicalType (.struct tag)))) := trivial
      exact ⟨hlater, hsound.stocked, hsound.entries, update_sound hsound.calls hcall call⟩
    · cases hstep
  | package call address =>
    rw [step] at hstep
    split at hstep
    · cases hstep
      have hcall : CallSound resolver w.registry.packages.live w.raisedAt
        (.packaging (.start (.ask address fun package => .done (.ok package)))) := trivial
      exact ⟨hlater, hsound.stocked, hsound.entries, update_sound hsound.calls hcall call⟩
    · cases hstep
  | resume call answer =>
    obtain ⟨next, hnext, rfl⟩ := Option.map_eq_some_iff.mp hstep
    obtain ⟨hpackages, hstocked, hentries, hcall⟩ :=
      proceed_sound hsound (hsound.calls call) hnext
    refine ⟨hlater, ?_, ?_, ?_⟩
    · dsimp only
      rw [hpackages]
      exact hstocked
    · dsimp only
      rw [hpackages]
      exact hentries
    · dsimp only
      rw [hpackages]
      exact update_sound hsound.calls hcall call
  | observe versions =>
    cases hstep
    have hle := live_le_observe w.registry.packages versions
    refine ⟨fun a => ?_, fun id version read hcached => ?_, fun tag entry hcached => ?_, ?_⟩
    · dsimp only
      split
      · exact le_rfl
      · exact hlater a
    · exact (hsound.stocked id version read hcached).observe hle (w.now + 1)
    · exact (hsound.entries tag entry hcached).observe hle (w.now + 1)
    · exact fun call => (hsound.calls call).observe hle (w.now + 1) (hquiet call)
  | evict =>
    rw [step] at hstep
    split at hstep
    · cases hstep
    · cases hstep
      refine hsound.drop w.registry.evict rfl (fun tag entry hcached => ?_) _
      rw [Registry.evict, KeyedFolds.lookup_retain] at hcached
      exact (Option.filter_eq_some_iff.mp hcached).1
  | invalidate tag =>
    cases hstep
    refine hsound.drop (w.registry.invalidate tag) rfl (fun other entry hcached => ?_) _
    by_cases hother : other = tag
    · rw [hother, Registry.invalidate, Finmap.lookup_erase] at hcached
      cases hcached
    · rw [Registry.invalidate, Finmap.lookup_erase_ne hother] at hcached
      exact hcached

theorem start_sound (resolver : Resolver π) : Sound resolver (World.start π) :=
  ⟨fun _ => le_rfl, fun id _ _ h => by simp [World.start] at h,
    fun tag _ h => by simp [World.start, Registry.new] at h, fun _ => trivial⟩

theorem run_sound {actions : List (Action ω)}
    (h : Run (QuietStep readFromObject resolver fingerprint) (World.start π) actions w) :
    Sound resolver w := h.preserves step_sound (start_sound resolver)

/-! ### What calls hand out -/

/-- An entry that is served has not moved, so what it mentions of its origin is fresh. -/
theorem lookup_fresh {canonical : StructTag} {layout : Shared} (hsound : Sound resolver w)
    (hserved : (w.registry.lookup canonical).1 = some layout) :
    Built resolver canonical layout.layout (w.origin canonical) ∧
      ∀ use ∈ w.origin canonical, Mentions use.id layout.layout → use.Fresh w.raisedAt := by
  simp only [Registry.lookup] at hserved
  split at hserved
  · rename_i entry hentry
    obtain rfl := Option.some.inj hserved
    obtain ⟨hcached, hcurrent⟩ := Option.filter_eq_some_iff.mp hentry
    obtain ⟨hbuilt, hdated⟩ := hsound.entries canonical entry hcached
    refine ⟨hbuilt, fun use huse hmentions => ?_⟩
    obtain ⟨version, hmem, hread⟩ := hdated use huse hmentions
    have hnot : w.registry.stale entry = false := by simpa using hcurrent
    have hdependency := List.any_eq_false.mp hnot _ hmem
    have hle : w.registry.packages.live use.id ≤ version := by
      simpa [PackageVersions.isCurrent] using hdependency
    exact hread.current (le_antisymm hle hread.le)
  · cases hserved

/-- Where a call serves the layout from the cache, or has just resolved it. -/
def HandsOut (w w' : World π) (call : ℕ) (canonical : StructTag) (layout : MoveTypeLayout)
    (uses : List (Use π)) : Prop :=
  (∃ shared : Shared, w.calls call = .lookingUp canonical ∧ w'.calls call = .served shared ∧
    shared.layout = layout ∧ uses = w.origin canonical) ∨
  ∃ shared : Shared, w'.calls call = .collecting canonical shared uses ∧ shared.layout = layout

end steps

/-! ### One package, two calls -/

section sample

open LayoutRegistry (poolTag poolLayout)

/-- Every tag is canonical, and a layout takes one package. -/
def poolResolver : Resolver Bool where
  canonicalType type := .done (.ok type)
  typeLayout _ := .ask 1 fun upgraded => .done (.ok (poolLayout upgraded))

def runPool (actions : List (Action Bool)) : Option (World Bool) :=
  runAll (step (fun upgraded => .ok upgraded) poolResolver fun _ => 0) (World.start Bool) actions

/-- Any other step of a call. -/
def go (call : ℕ) : Action Bool := .resume call (.error .objectNotFound)

def fetchPool : List (Action Bool) :=
  [.observe [(1, 2)], .layout 0 poolTag, go 0, go 0, go 0, go 0, .resume 0 (.ok false), go 0, go 0,
    go 0, go 0, .layout 1 poolTag, go 1]

/-- Without observations every run is quiet. -/
theorem run_of_steps {w w' : World Bool} {actions : List (Action Bool)}
    (hunobserved : ∀ versions, .observe versions ∉ actions)
    (h : runAll (step (fun upgraded => .ok upgraded) poolResolver fun _ => 0) w actions = some w') :
    Run (QuietStep (fun upgraded => .ok upgraded) poolResolver fun _ => 0) w actions w' := by
  refine run_of_runAll h fun action hmem w₁ w₂ hstep => ⟨?_, hstep⟩
  cases action with
  | observe versions => exact absurd hmem (hunobserved versions)
  | _ => trivial

end sample

end TwoCaches
