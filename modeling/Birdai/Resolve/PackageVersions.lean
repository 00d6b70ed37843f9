import Birdai.Base.KeyedFolds
import Birdai.Amm.WideArith
import Birdai.Move.MoveTypes
import Mathlib.Data.Finset.Sort

/-!
# Package versions

The versions a checkpoint has named, and the packages a layout mentions. Both
caches over the resolver ask the same tracker whether a package has moved.
-/

namespace PackageVersion

open WideArith MoveTypes

/-! ### The tracker -/

structure PackageVersions where
  seen : Finmap fun _ : Address => U64
  deriving DecidableEq

namespace PackageVersions

def new : PackageVersions := ⟨∅⟩

def observeOne (versions : PackageVersions) (observation : Address × U64) : PackageVersions :=
  ⟨versions.seen.insert observation.1
    (match versions.seen.lookup observation.1 with
    | some seen => max seen observation.2
    | none => observation.2)⟩

/-- Versions only move forwards. -/
def observe (versions : PackageVersions) (observations : List (Address × U64)) :
    PackageVersions :=
  if observations = [] then versions else observations.foldl observeOne versions

/-- The version believed live, zero when nothing was observed. -/
def live (versions : PackageVersions) (address : Address) : U64 :=
  (versions.seen.lookup address).getD 0

/-- A value recorded at `version` has not been superseded. -/
def isCurrent (versions : PackageVersions) (address : Address) (version : U64) : Bool :=
  versions.live address ≤ version

end PackageVersions

theorem live_observeOne (versions : PackageVersions) (observation : Address × U64)
    (address : Address) : (versions.observeOne observation).live address =
      if observation.1 = address then max (versions.live address) observation.2
      else versions.live address := by
  unfold PackageVersions.live PackageVersions.observeOne
  by_cases haddress : observation.1 = address
  · subst haddress
    cases versions.seen.lookup observation.1 with
    | none => simp
    | some seen => simp
  · rw [Finmap.lookup_insert_of_ne _ (Ne.symm haddress), if_neg haddress]

/-- No observation moves a package back. -/
theorem live_le_observe (versions : PackageVersions) (observations : List (Address × U64))
    (address : Address) : versions.live address ≤ (versions.observe observations).live address := by
  simp only [PackageVersions.observe]
  split
  · exact le_rfl
  · refine KeyedFolds.foldl_preserves (I := fun later : PackageVersions =>
      versions.live address ≤ later.live address) (fun later observation hle => ?_) _ le_rfl
    rw [live_observeOne]
    split
    · exact hle.trans (le_max_left _ _)
    · exact hle

/-! ### The packages a layout mentions -/

mutual

/-- Every package a struct tag mentions, its type parameters included. -/
def collectTagAddresses : TagOver TypeTag → Finset Address → Finset Address
  | ⟨address, _, _, typeParams⟩, out => collectParamAddresses typeParams (insert address out)

def collectTypeTagAddresses : TypeTag → Finset Address → Finset Address
  | .struct inner, out => collectTagAddresses inner out
  | .vector inner, out => collectTypeTagAddresses inner out
  | .primitive _, out => out

def collectParamAddresses : List TypeTag → Finset Address → Finset Address
  | [], out => out
  | param :: rest, out => collectParamAddresses rest (collectTypeTagAddresses param out)

end

section visit
variable {α : Type} (f : α → MoveTypeLayout → α)

mutual

/-- Every node of a layout, from the root down. -/
def visit : MoveTypeLayout → α → α
  | .primitive p, acc => f acc (.primitive p)
  | .vector inner, acc => visit inner (f acc (.vector inner))
  | .struct type fields, acc => visitFields fields (f acc (.struct type fields))
  | .enum type variants, acc => visitVariants variants (f acc (.enum type variants))

def visitFields : List (FieldOver MoveTypeLayout) → α → α
  | [], acc => acc
  | ⟨_, layout⟩ :: rest, acc => visitFields rest (visit layout acc)

def visitVariants : List ((String × Fin (2 ^ 16)) × List (FieldOver MoveTypeLayout)) → α → α
  | [], acc => acc
  | (_, fields) :: rest, acc => visitVariants rest (visitFields fields acc)

end

mutual

/-- A map that commutes with every step of a visit commutes with the visit. -/
theorem visit_hom {β : Type} {g : β → MoveTypeLayout → β} {h : α → β}
    (hstep : ∀ acc node, h (f acc node) = g (h acc) node) (layout : MoveTypeLayout) (acc : α) :
    h (visit f layout acc) = visit g layout (h acc) := by
  cases layout with
  | primitive p => rw [visit, visit, hstep]
  | vector inner => rw [visit, visit, visit_hom hstep, hstep]
  | struct type fields => rw [visit, visit, visitFields_hom hstep, hstep]
  | enum type variants => rw [visit, visit, visitVariants_hom hstep, hstep]

theorem visitFields_hom {β : Type} {g : β → MoveTypeLayout → β} {h : α → β}
    (hstep : ∀ acc node, h (f acc node) = g (h acc) node)
    (fields : List (FieldOver MoveTypeLayout)) (acc : α) :
    h (visitFields f fields acc) = visitFields g fields (h acc) := by
  cases fields with
  | nil => rfl
  | cons field rest =>
    obtain ⟨_, layout⟩ := field
    rw [visitFields, visitFields, visitFields_hom hstep, visit_hom hstep]

theorem visitVariants_hom {β : Type} {g : β → MoveTypeLayout → β} {h : α → β}
    (hstep : ∀ acc node, h (f acc node) = g (h acc) node)
    (variants : List ((String × Fin (2 ^ 16)) × List (FieldOver MoveTypeLayout))) (acc : α) :
    h (visitVariants f variants acc) = visitVariants g variants (h acc) := by
  cases variants with
  | nil => rfl
  | cons variant rest =>
    obtain ⟨_, fields⟩ := variant
    rw [visitVariants, visitVariants, visitVariants_hom hstep, visitFields_hom hstep]

end

end visit

def collectNode (out : Finset Address) : MoveTypeLayout → Finset Address
  | .struct type _ => collectTagAddresses type out
  | .enum type _ => collectTagAddresses type out
  | _ => out

/-- Every package a layout references, with the version believed live for it. -/
def collectDependencies (layout : MoveTypeLayout) (live : PackageVersions) :
    List (Address × U64) :=
  ((visit collectNode layout ∅).sort (· ≤ ·)).map fun address => (address, live.live address)

mutual

/-- A package occurs somewhere in a type tag. -/
inductive TypeMentions (a : Address) : TypeTag → Prop
  | struct {inner : StructTag} : TagMentions a inner → TypeMentions a (.struct inner)
  | vector {inner : TypeTag} : TypeMentions a inner → TypeMentions a (.vector inner)

inductive TagMentions (a : Address) : TagOver TypeTag → Prop
  | address {module name : String} {typeParams : List TypeTag} :
      TagMentions a ⟨a, module, name, typeParams⟩
  | param {address : Address} {module name : String} {typeParams : List TypeTag}
      {param : TypeTag} : param ∈ typeParams → TypeMentions a param →
        TagMentions a ⟨address, module, name, typeParams⟩

end

/-- A package occurs somewhere in a layout. -/
inductive Mentions (a : Address) : MoveTypeLayout → Prop
  | vector {inner : MoveTypeLayout} : Mentions a inner → Mentions a (.vector inner)
  | structTag {type : StructTag} {fields : List (FieldOver MoveTypeLayout)} :
      TagMentions a type → Mentions a (.struct type fields)
  | structField {type : StructTag} {fields : List (FieldOver MoveTypeLayout)}
      {field : FieldOver MoveTypeLayout} : field ∈ fields → Mentions a field.layout →
        Mentions a (.struct type fields)
  | enumTag {type : StructTag}
      {variants : List ((String × Fin (2 ^ 16)) × List (FieldOver MoveTypeLayout))} :
      TagMentions a type → Mentions a (.enum type variants)
  | enumField {type : StructTag}
      {variants : List ((String × Fin (2 ^ 16)) × List (FieldOver MoveTypeLayout))}
      {variant : (String × Fin (2 ^ 16)) × List (FieldOver MoveTypeLayout)}
      {field : FieldOver MoveTypeLayout} : variant ∈ variants → field ∈ variant.2 →
        Mentions a field.layout → Mentions a (.enum type variants)

section collect
variable {a : Address}

mutual

theorem mem_collectTagAddresses (tag : TagOver TypeTag) (out : Finset Address) :
    a ∈ collectTagAddresses tag out ↔ a ∈ out ∨ TagMentions a tag := by
  obtain ⟨address, module, name, typeParams⟩ := tag
  rw [collectTagAddresses, mem_collectParamAddresses, Finset.mem_insert]
  constructor
  · rintro ((rfl | hout) | ⟨param, hparam, hmentions⟩)
    · exact .inr .address
    · exact .inl hout
    · exact .inr (.param hparam hmentions)
  · rintro (hout | hmentions)
    · exact .inl (.inr hout)
    · cases hmentions with
      | address => exact .inl (.inl rfl)
      | param hparam hmentions => exact .inr ⟨_, hparam, hmentions⟩

theorem mem_collectTypeTagAddresses (tag : TypeTag) (out : Finset Address) :
    a ∈ collectTypeTagAddresses tag out ↔ a ∈ out ∨ TypeMentions a tag := by
  cases tag with
  | primitive p =>
    rw [collectTypeTagAddresses]
    exact (or_iff_left nofun).symm
  | vector inner =>
    rw [collectTypeTagAddresses, mem_collectTypeTagAddresses]
    exact or_congr_right ⟨.vector, fun | .vector h => h⟩
  | struct inner =>
    rw [collectTypeTagAddresses, mem_collectTagAddresses]
    exact or_congr_right ⟨.struct, fun | .struct h => h⟩

theorem mem_collectParamAddresses (typeParams : List TypeTag) (out : Finset Address) :
    a ∈ collectParamAddresses typeParams out ↔
      a ∈ out ∨ ∃ param ∈ typeParams, TypeMentions a param := by
  cases typeParams with
  | nil => simp [collectParamAddresses]
  | cons param rest =>
    rw [collectParamAddresses, mem_collectParamAddresses, mem_collectTypeTagAddresses, or_assoc]
    simp

end

mutual

theorem mem_visit (layout : MoveTypeLayout) (out : Finset Address) :
    a ∈ visit collectNode layout out ↔ a ∈ out ∨ Mentions a layout := by
  cases layout with
  | primitive p =>
    rw [visit]
    exact (or_iff_left nofun).symm
  | vector inner =>
    rw [visit, mem_visit]
    exact or_congr_right ⟨.vector, fun | .vector h => h⟩
  | struct type fields =>
    rw [visit, mem_visitFields, collectNode, mem_collectTagAddresses, or_assoc]
    refine or_congr_right ⟨?_, fun h => ?_⟩
    · rintro (htag | ⟨field, hfield, hmentions⟩)
      · exact .structTag htag
      · exact .structField hfield hmentions
    · cases h with
      | structTag htag => exact .inl htag
      | structField hfield hmentions => exact .inr ⟨_, hfield, hmentions⟩
  | enum type variants =>
    rw [visit, mem_visitVariants, collectNode, mem_collectTagAddresses, or_assoc]
    refine or_congr_right ⟨?_, fun h => ?_⟩
    · rintro (htag | ⟨variant, hvariant, field, hfield, hmentions⟩)
      · exact .enumTag htag
      · exact .enumField hvariant hfield hmentions
    · cases h with
      | enumTag htag => exact .inl htag
      | enumField hvariant hfield hmentions => exact .inr ⟨_, hvariant, _, hfield, hmentions⟩

theorem mem_visitFields (fields : List (FieldOver MoveTypeLayout)) (out : Finset Address) :
    a ∈ visitFields collectNode fields out ↔
      a ∈ out ∨ ∃ field ∈ fields, Mentions a field.layout := by
  cases fields with
  | nil => simp [visitFields]
  | cons field rest =>
    obtain ⟨name, layout⟩ := field
    rw [visitFields, mem_visitFields, mem_visit, or_assoc]
    simp

theorem mem_visitVariants
    (variants : List ((String × Fin (2 ^ 16)) × List (FieldOver MoveTypeLayout)))
    (out : Finset Address) : a ∈ visitVariants collectNode variants out ↔
      a ∈ out ∨ ∃ variant ∈ variants, ∃ field ∈ variant.2, Mentions a field.layout := by
  cases variants with
  | nil => simp [visitVariants]
  | cons variant rest =>
    obtain ⟨name, fields⟩ := variant
    rw [visitVariants, mem_visitVariants, mem_visitFields, or_assoc]
    simp

end

/-- The dependencies of a layout are the packages it mentions, as they are live now. -/
theorem mem_collectDependencies {layout : MoveTypeLayout} {live : PackageVersions}
    {version : U64} : (a, version) ∈ collectDependencies layout live ↔
      Mentions a layout ∧ version = live.live a := by
  simp only [collectDependencies]
  rw [List.mem_map]
  constructor
  · rintro ⟨address, haddress, heq⟩
    rw [Finset.mem_sort, mem_visit] at haddress
    obtain ⟨rfl, rfl⟩ := Prod.mk.inj heq
    exact ⟨haddress.resolve_left (Finset.notMem_empty _), rfl⟩
  · rintro ⟨hmentions, rfl⟩
    refine ⟨a, ?_, rfl⟩
    rw [Finset.mem_sort, mem_visit]
    exact .inr hmentions

end collect

end PackageVersion
