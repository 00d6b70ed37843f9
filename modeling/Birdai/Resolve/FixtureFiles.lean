import Birdai.Base.AtomicWrites
import Birdai.Resolve.FixtureSet

/-!
# Fixture directories

A fixture set on disk: one file for each table, every one of them written beside its
name and renamed. A save may stop at any call; what loads then is the new set's first
tables and the old set's others.
-/

namespace FixtureFiles

open WideArith Outcomes OrderedKeys ByteCodecs AtomicWrites
open Capture (objectsFile checkpointsFile)
open FixtureSet (packagesFile)

/-- Where a fixture set came from. -/
structure Manifest where
  chain : String
  rpcUrl : String
  capturedAtUnix : U64
  note : String
deriving DecidableEq

def Manifest.default : Manifest := ⟨"", "", 0, ""⟩

/-- A fixture set with its provenance. -/
structure Fixtures (Json : Type) extends tables : FixtureSet.Fixtures Json where
  manifest : Manifest

def Fixtures.default (Json : Type) : Fixtures Json :=
  { tables := .empty Json, manifest := .default }

/-- The errors of `FixtureError` that come of files. -/
inductive FixtureError where
  | io (path message : String)
  | malformed (path message : String)
  | missing (what detail : String)

def manifestFile : String := "manifest.json"

def layoutsFile : String := "layouts.json"

def canonicalFile : String := "canonical.json"

/-- What reading each file of one directory gives: its text, or why it cannot be read. -/
abbrev Directory := Disk String (Except String String)

/-- The JSON of each table. -/
structure JsonFormats (Json : Type) where
  manifest : Codec Manifest String
  objects : Codec Capture.CapturedObjects String
  packages : Codec (Finmap fun _ : String => String) String
  layouts : Codec (Finmap fun _ : String => Json) String
  canonical : Codec (Finmap fun _ : String => String) String
  checkpoints : Codec (Finmap fun _ : U64 => Capture.CapturedCheckpoint) String

/-- `PathBuf::join` with a plain file name, as text. -/
def join (root name : String) : String :=
  if root = "" ∨ root.endsWith "/" then root ++ name else root ++ "/" ++ name

/-- `with_extension("json.tmp")` on a name that ends in `.json`. -/
def temporary (name : String) : String := name ++ ".tmp"

variable {Json : Type} (formats : JsonFormats Json) (root : String)

/-! ### Reading and writing one file -/

def readJson {α : Type} (codec : Codec α String) (default : α) (directory : Directory)
    (name : String) : Except FixtureError α :=
  match directory.lookup name with
  | none => .ok default
  | some (.error message) => .error (.io (join root name) message)
  | some (.ok text) =>
    match codec.decode text with
    | .error message => .error (.malformed (join root name) message)
    | .ok a => .ok a

/-- What `write_json` is to do to a file. -/
def replacement {α : Type} (codec : Codec α String) (name : String) (value : α) :
    Replacement String (Except String String) FixtureError where
  path := name
  text :=
    match codec.encode value with
    | .ok text => .ok (.ok text)
    | .error message => .error (.malformed (join root name) message)

variable (calls : String → Calls (Except String String))

def failed (name message : String) : FixtureError := .io (join root name) message

def writeJson {α : Type} (codec : Codec α String) (name : String) (value : α) :
    EStateM FixtureError Directory Unit :=
  replace temporary (failed root) calls (replacement root codec name value)

/-! ### Loading and saving a set -/

def load (directory : Directory) : Except FixtureError (Fixtures Json) := do
  if directory.lookup manifestFile = none then
    .error (.missing "fixture directory" root)
  else
    let manifest ← readJson root formats.manifest .default directory manifestFile
    let objects ← readJson root formats.objects ∅ directory objectsFile
    let packages ← readJson root formats.packages ∅ directory packagesFile
    let layouts ← readJson root formats.layouts ∅ directory layoutsFile
    let canonical ← readJson root formats.canonical ∅ directory canonicalFile
    let checkpoints ← readJson root formats.checkpoints ∅ directory checkpointsFile
    .ok { manifest, objects, packages, layouts, canonical, checkpoints }

/-- `created` is how `create_dir_all` goes. -/
def save (created : Except String Unit) (fixtures : Fixtures Json) :
    EStateM FixtureError Directory Unit := do
  match created with
  | .error message => throw (.io root message)
  | .ok () =>
    writeJson root calls formats.manifest manifestFile fixtures.manifest
    writeJson root calls formats.objects objectsFile fixtures.objects
    writeJson root calls formats.packages packagesFile fixtures.packages
    writeJson root calls formats.layouts layoutsFile fixtures.layouts
    writeJson root calls formats.canonical canonicalFile fixtures.canonical
    writeJson root calls formats.checkpoints checkpointsFile fixtures.checkpoints

/-! ### One file at a time -/

variable {root}

theorem readJson_of_lookup {α : Type} {codec : Codec α String} {default value : α}
    {directory : Directory} {name text : String} (hencode : codec.encode value = .ok text)
    (hlookup : directory.lookup name = some (.ok text)) :
    readJson root codec default directory name = .ok value := by
  simp only [readJson, hlookup, codec.decode_encode hencode]

theorem readJson_congr {α : Type} {codec : Codec α String} {default : α}
    {directory directory' : Directory} {name : String}
    (h : directory'.lookup name = directory.lookup name) :
    readJson root codec default directory' name = readJson root codec default directory name := by
  rw [readJson, h]
  rfl

theorem replacement_text {α : Type} {codec : Codec α String} {name : String} {value : α}
    {text : Except String String} (h : (replacement root codec name value).text = .ok text) :
    ∃ json, codec.encode value = .ok json ∧ text = .ok json := by
  unfold replacement at h
  cases hencode : codec.encode value with
  | error message =>
    simp only [hencode] at h
    cases h
  | ok json =>
    simp only [hencode] at h
    cases h
    exact ⟨json, rfl, rfl⟩

/-! ### A save as a run of replacements -/

variable (root)

/-- The files of a set, in the order they are saved. -/
def replacements (fixtures : Fixtures Json) :
    List (Replacement String (Except String String) FixtureError) :=
  [replacement root formats.manifest manifestFile fixtures.manifest,
    replacement root formats.objects objectsFile fixtures.objects,
    replacement root formats.packages packagesFile fixtures.packages,
    replacement root formats.layouts layoutsFile fixtures.layouts,
    replacement root formats.canonical canonicalFile fixtures.canonical,
    replacement root formats.checkpoints checkpointsFile fixtures.checkpoints]

theorem save_created (fixtures : Fixtures Json) :
    save formats root calls (.ok ()) fixtures =
      replaceAll temporary (failed root) calls (replacements formats root fixtures) := by
  simp only [save, replacements, replaceAll, writeJson, bind_pure_unit]

def fileNames : List String :=
  [manifestFile, objectsFile, packagesFile, layoutsFile, canonicalFile, checkpointsFile]

theorem fileNames_nodup : fileNames.Nodup := by decide

theorem temporary_notMem : ∀ name ∈ fileNames, temporary name ∉ fileNames := by decide

theorem replacements_separate (fixtures : Fixtures Json) :
    Separate temporary (replacements formats root fixtures) where
  nodup := fileNames_nodup
  apart := by
    intro item hitem other hother heq
    have hmem : item.path ∈ fileNames := List.mem_map_of_mem hitem
    rw [heq] at hmem
    exact temporary_notMem other.path (List.mem_map_of_mem hother) hmem

/-! ### What loads after a save that stops anywhere -/

/-- The first `made` tables of the new set and the others of the old one. -/
def splice (made : ℕ) (new old : Fixtures Json) : Fixtures Json where
  manifest := if 0 < made then new.manifest else old.manifest
  objects := if 1 < made then new.objects else old.objects
  packages := if 2 < made then new.packages else old.packages
  layouts := if 3 < made then new.layouts else old.layouts
  canonical := if 4 < made then new.canonical else old.canonical
  checkpoints := if 5 < made then new.checkpoints else old.checkpoints

/-- Every table of the directory reads as the set's. -/
structure Reads (directory : Directory) (fixtures : Fixtures Json) : Prop where
  manifest : readJson root formats.manifest .default directory manifestFile = .ok fixtures.manifest
  objects : readJson root formats.objects ∅ directory objectsFile = .ok fixtures.objects
  packages : readJson root formats.packages ∅ directory packagesFile = .ok fixtures.packages
  layouts : readJson root formats.layouts ∅ directory layoutsFile = .ok fixtures.layouts
  canonical : readJson root formats.canonical ∅ directory canonicalFile = .ok fixtures.canonical
  checkpoints :
    readJson root formats.checkpoints ∅ directory checkpointsFile = .ok fixtures.checkpoints

variable {formats root calls}

theorem load_eq_ok_iff {directory : Directory} {fixtures : Fixtures Json} :
    load formats root directory = .ok fixtures ↔
      directory.lookup manifestFile ≠ none ∧ Reads formats root directory fixtures := by
  constructor
  · intro h
    unfold load at h
    split at h
    · cases h
    · rename_i hmanifest
      obtain ⟨manifest, h1, h⟩ := bind_eq_ok_iff.mp h
      obtain ⟨objects, h2, h⟩ := bind_eq_ok_iff.mp h
      obtain ⟨packages, h3, h⟩ := bind_eq_ok_iff.mp h
      obtain ⟨layouts, h4, h⟩ := bind_eq_ok_iff.mp h
      obtain ⟨canonical, h5, h⟩ := bind_eq_ok_iff.mp h
      obtain ⟨checkpoints, h6, h⟩ := bind_eq_ok_iff.mp h
      cases h
      exact ⟨hmanifest, h1, h2, h3, h4, h5, h6⟩
  · rintro ⟨hmanifest, h⟩
    rw [load, if_neg hmanifest]
    simp only [h.manifest, h.objects, h.packages, h.layouts, h.canonical, h.checkpoints, ok_bind]

/-- Before the cut a table is the new one. -/
theorem readJson_of_lt {α : Type} {new : Fixtures Json} {before after : Directory} {made i : ℕ}
    {codec : Codec α String} {default value : α} {name : String}
    (hcut : CutAt temporary (replacements formats root new) before after made) (hlt : i < made)
    (hi : (replacements formats root new)[i]? = some (replacement root codec name value)) :
    readJson root codec default after name = .ok value := by
  obtain ⟨text, htext, hlookup⟩ := hcut.new i _ hi hlt
  obtain ⟨json, hencode, hjson⟩ := replacement_text htext
  rw [hjson] at hlookup
  exact readJson_of_lookup hencode hlookup

theorem readJson_of_cut {α : Type} {new : Fixtures Json} {before after : Directory} {made i : ℕ}
    {codec : Codec α String} {default was value : α} {name : String}
    (hcut : CutAt temporary (replacements formats root new) before after made)
    (hi : (replacements formats root new)[i]? = some (replacement root codec name value))
    (hread : readJson root codec default before name = .ok was) :
    readJson root codec default after name = .ok (if i < made then value else was) := by
  split
  · rename_i hlt
    exact readJson_of_lt hcut hlt hi
  · rename_i hle
    rw [← hread]
    exact readJson_congr (hcut.old i _ hi (not_lt.mp hle))

theorem reads_of_cut {new old : Fixtures Json} {before after : Directory} {made : ℕ}
    (hcut : CutAt temporary (replacements formats root new) before after made)
    (h : Reads formats root before old) : Reads formats root after (splice made new old) where
  manifest := readJson_of_cut (i := 0) hcut rfl h.manifest
  objects := readJson_of_cut (i := 1) hcut rfl h.objects
  packages := readJson_of_cut (i := 2) hcut rfl h.packages
  layouts := readJson_of_cut (i := 3) hcut rfl h.layouts
  canonical := readJson_of_cut (i := 4) hcut rfl h.canonical
  checkpoints := readJson_of_cut (i := 5) hcut rfl h.checkpoints

theorem reads_of_all {new : Fixtures Json} {before after : Directory}
    (hcut : CutAt temporary (replacements formats root new) before after 6) :
    Reads formats root after new where
  manifest := readJson_of_lt (i := 0) hcut (by decide) rfl
  objects := readJson_of_lt (i := 1) hcut (by decide) rfl
  packages := readJson_of_lt (i := 2) hcut (by decide) rfl
  layouts := readJson_of_lt (i := 3) hcut (by decide) rfl
  canonical := readJson_of_lt (i := 4) hcut (by decide) rfl
  checkpoints := readJson_of_lt (i := 5) hcut (by decide) rfl

theorem manifest_of_cut {new : Fixtures Json} {before after : Directory} {made : ℕ}
    (hcut : CutAt temporary (replacements formats root new) before after made) :
    after.lookup manifestFile = none ↔ made = 0 ∧ before.lookup manifestFile = none := by
  have hi : (replacements formats root new)[0]? =
      some (replacement root formats.manifest manifestFile new.manifest) := rfl
  rcases Nat.eq_zero_or_pos made with hmade | hmade
  · have hold : after.lookup manifestFile = before.lookup manifestFile :=
      hcut.old 0 _ hi (le_of_eq hmade)
    simp only [hold, hmade, true_and]
  · obtain ⟨text, -, hlookup⟩ := hcut.new 0 _ hi hmade
    have hnew : after.lookup manifestFile = some text := hlookup
    simp [hnew, Nat.ne_of_gt hmade]

variable (formats root calls) in
/-- A save leaves a cut run, or nothing when the directory could not be made. -/
theorem save_cut (created : Except String Unit) (fixtures : Fixtures Json)
    (directory : Directory) :
    ∃ made, CutAt temporary (replacements formats root fixtures) directory
        (left (save formats root calls created fixtures directory)) made ∧
      (succeeds (save formats root calls created fixtures directory) → made = 6) := by
  cases created with
  | error message =>
    refine ⟨0, ⟨Nat.zero_le _, fun i _ _ hlt => absurd hlt (Nat.not_lt_zero i),
      fun _ _ _ _ => rfl, fun _ _ => rfl⟩, fun h => h.elim⟩
  | ok _ =>
    rw [save_created]
    exact replaceAll_cut (failed root) calls (replacements_separate formats root fixtures)
      directory

/-- With every table there as JSON and every call fine, a save ends well. -/
theorem save_succeeds {fixtures : Fixtures Json}
    (htexts : ∀ item ∈ replacements formats root fixtures, ∃ text, item.text = .ok text)
    (hcalls : ∀ name ∈ fileNames, calls name = .fine) (directory : Directory) :
    ∃ after, save formats root calls (.ok ()) fixtures directory = .ok () after := by
  have h := replaceAll_succeeds temporary (failed root) calls htexts
    (fun item hitem => hcalls item.path (List.mem_map_of_mem hitem)) directory
  rw [← save_created] at h
  cases hsave : save formats root calls (.ok ()) fixtures directory with
  | ok _ after => exact ⟨after, rfl⟩
  | error e after =>
    rw [hsave] at h
    exact h.elim

/-! ### A small set -/

/-- The JSON of two values. -/
def pairCodec {α : Type} [DecidableEq α] (a b : α) (s t : String) (h : s ≠ t) :
    Codec α String where
  encode x := if x = a then .ok s else if x = b then .ok t else .error "not in the sample"
  decode u := if u = s then .ok a else if u = t then .ok b else .error "expected value"
  decode_encode := by
    intro x u hu
    split at hu
    · rename_i hx
      cases hu
      rw [if_pos rfl, hx]
    · split at hu
      · rename_i hx
        cases hu
        rw [if_neg h.symm, if_pos rfl, hx]
      · cases hu

/-- The JSON of a map without entries. -/
def emptyCodec (κ β : Type) [DecidableEq κ] : Codec (Finmap fun _ : κ => β) String where
  encode m := if m.keys = ∅ then .ok "\x7b\x7d" else .error "not in the sample"
  decode u := if u = "\x7b\x7d" then .ok ∅ else .error "expected value"
  decode_encode := by
    intro m u hu
    split at hu
    · rename_i hkeys
      cases hu
      have hempty : m = ∅ := by
        apply Finmap.ext_lookup
        intro k
        rw [Finmap.lookup_empty, Finmap.lookup_eq_none, ← Finmap.mem_keys, hkeys]
        exact Finset.notMem_empty k
      rw [if_pos rfl, hempty]
    · cases hu

def sampleManifest : Manifest := ⟨"35834a8a", "https://fullnode", 1754000000, ""⟩

def sampleObjects : Capture.CapturedObjects :=
  (∅ : Capture.CapturedObjects).insert "0x05" ((∅ : Finmap fun _ : U64 => String).insert 7 "AAE=")

def sampleFormats : JsonFormats String where
  manifest := pairCodec .default sampleManifest "default" "sample" (by decide)
  objects := pairCodec ∅ sampleObjects "\x7b\x7d" "objects" (by decide)
  packages := emptyCodec String String
  layouts := emptyCodec String String
  canonical := emptyCodec String String
  checkpoints := emptyCodec U64 Capture.CapturedCheckpoint

def sampleFixtures : Fixtures String :=
  { Fixtures.default String with manifest := sampleManifest, objects := sampleObjects }

/-- An objects file cut short and a temporary file that nobody renamed. -/
def damagedDirectory : Directory :=
  ((∅ : Directory).insert objectsFile (.ok "obj")).insert (temporary packagesFile) (.ok "pack")

/-! ### Whole and interrupted saves -/

end FixtureFiles
