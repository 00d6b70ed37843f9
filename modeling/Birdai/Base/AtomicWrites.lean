import Mathlib.Data.Finmap

/-!
# Atomic writes

Files that are replaced by writing a temporary file and renaming it, one after another
until a call fails. Wherever that stops, the files replaced so far hold their new texts
and the others what they held before.
-/

namespace AtomicWrites

variable {Path Text ε : Type} [DecidableEq Path]

/-- What each file holds. -/
abbrev Disk (Path Text : Type) := Finmap fun _ : Path => Text

/-- How the two calls of a replacement go. A write that fails leaves any text in its file,
or no file. -/
structure Calls (Text : Type) where
  write : Except (String × Option Text) Unit
  rename : Except String Unit

def Calls.fine : Calls Text := ⟨.ok (), .ok ()⟩

def writeFile (outcome : Except (String × Option Text) Unit) (path : Path) (text : Text) :
    EStateM String (Disk Path Text) Unit := fun disk =>
  match outcome with
  | .ok () => .ok () (disk.insert path text)
  | .error (message, some left) => .error message (disk.insert path left)
  | .error (message, none) => .error message (disk.erase path)

def renameFile (outcome : Except String Unit) (source target : Path) :
    EStateM String (Disk Path Text) Unit := fun disk =>
  match outcome, disk.lookup source with
  | .error message, _ => .error message disk
  | .ok (), none => .error "No such file or directory" disk
  | .ok (), some text => .ok () ((disk.erase source).insert target text)

/-- Write a file beside `path`, then rename it to `path`. -/
def replaceFile (temporary : Path → Path) (calls : Calls Text) (path : Path) (text : Text) :
    EStateM String (Disk Path Text) Unit := do
  writeFile calls.write (temporary path) text
  renameFile calls.rename (temporary path) path

/-- A file to replace, and its text where there is one. -/
structure Replacement (Path Text ε : Type) where
  path : Path
  text : Except ε Text

variable (temporary : Path → Path) (failed : Path → String → ε) (calls : Path → Calls Text)

def replace (item : Replacement Path Text ε) : EStateM ε (Disk Path Text) Unit := fun disk =>
  match item.text with
  | .error e => .error e disk
  | .ok text =>
    match replaceFile temporary (calls item.path) item.path text disk with
    | .ok () disk => .ok () disk
    | .error message disk => .error (failed item.path message) disk

def replaceAll : List (Replacement Path Text ε) → EStateM ε (Disk Path Text) Unit
  | [] => pure ()
  | item :: items => do
    replace temporary failed calls item
    replaceAll items

/-- The disk that a run leaves, however it ends. -/
def left {α : Type} : EStateM.Result ε (Disk Path Text) α → Disk Path Text
  | .ok _ disk => disk
  | .error _ disk => disk

def succeeds {α : Type} : EStateM.Result ε (Disk Path Text) α → Prop
  | .ok _ _ => True
  | .error _ _ => False

omit [DecidableEq Path] in
theorem bind_cases {α β : Type} (first : EStateM ε (Disk Path Text) α)
    (next : α → EStateM ε (Disk Path Text) β) (disk : Disk Path Text) :
    (∃ a disk', first disk = .ok a disk' ∧ (first >>= next) disk = next a disk') ∨
      ∃ e disk', first disk = .error e disk' ∧ (first >>= next) disk = .error e disk' := by
  cases h : first disk with
  | ok a disk' =>
    refine .inl ⟨a, disk', rfl, ?_⟩
    simp only [bind, EStateM.bind, h]
  | error e disk' =>
    refine .inr ⟨e, disk', rfl, ?_⟩
    simp only [bind, EStateM.bind, h]

/-! ### One replacement -/

/-- The two disks differ at `path` at most. -/
def AgreeExcept (path : Path) (before after : Disk Path Text) : Prop :=
  ∀ p, p ≠ path → after.lookup p = before.lookup p

theorem writeFile_agrees (outcome : Except (String × Option Text) Unit) (path : Path)
    (text : Text) (disk : Disk Path Text) :
    AgreeExcept path disk (left (writeFile outcome path text disk)) := by
  intro p hp
  unfold writeFile
  split
  · exact Finmap.lookup_insert_of_ne _ hp
  · exact Finmap.lookup_insert_of_ne _ hp
  · exact Finmap.lookup_erase_ne hp

theorem writeFile_ok {outcome : Except (String × Option Text) Unit} {path : Path} {text : Text}
    {disk disk' : Disk Path Text} (h : writeFile outcome path text disk = .ok () disk') :
    disk' = disk.insert path text := by
  unfold writeFile at h
  split at h
  · cases h
    rfl
  · cases h
  · cases h

/-- Beside its temporary file, a replacement changes nothing or the one file it names. -/
theorem replaceFile_cases (calls : Calls Text) (path : Path) (text : Text)
    (disk : Disk Path Text) :
    (∃ disk', replaceFile temporary calls path text disk = .ok () disk' ∧
      disk'.lookup path = some text ∧
      ∀ p, p ≠ temporary path → p ≠ path → disk'.lookup p = disk.lookup p) ∨
    ∃ message disk', replaceFile temporary calls path text disk = .error message disk' ∧
      AgreeExcept (temporary path) disk disk' := by
  obtain ⟨_, written, hwrite, hnext⟩ | ⟨message, disk', hwrite, hnext⟩ :=
    bind_cases (writeFile calls.write (temporary path) text)
      (fun _ => renameFile calls.rename (temporary path) path) disk
  · have hwritten : written = disk.insert (temporary path) text := writeFile_ok hwrite
    have hagree : AgreeExcept (temporary path) disk written := by
      have h := writeFile_agrees calls.write (temporary path) text disk
      rwa [hwrite] at h
    have hsource : written.lookup (temporary path) = some text := by
      rw [hwritten]
      exact Finmap.lookup_insert _
    cases hrename : calls.rename with
    | error message =>
      right
      refine ⟨message, written, ?_, hagree⟩
      rw [replaceFile, hnext]
      simp only [renameFile, hrename]
    | ok _ =>
      left
      refine ⟨(written.erase (temporary path)).insert path text, ?_, Finmap.lookup_insert _, ?_⟩
      · rw [replaceFile, hnext]
        simp only [renameFile, hrename, hsource]
      · intro p hp hne
        rw [Finmap.lookup_insert_of_ne _ hne, Finmap.lookup_erase_ne hp]
        exact hagree p hp
  · right
    refine ⟨message, disk', hnext, ?_⟩
    have h := writeFile_agrees calls.write (temporary path) text disk
    rwa [hwrite] at h

theorem replace_cases (item : Replacement Path Text ε) (disk : Disk Path Text) :
    (∃ disk' text, replace temporary failed calls item disk = .ok () disk' ∧
      item.text = .ok text ∧ disk'.lookup item.path = some text ∧
      ∀ p, p ≠ temporary item.path → p ≠ item.path → disk'.lookup p = disk.lookup p) ∨
    ∃ e disk', replace temporary failed calls item disk = .error e disk' ∧
      AgreeExcept (temporary item.path) disk disk' := by
  cases htext : item.text with
  | error e =>
    right
    refine ⟨e, disk, ?_, fun p _ => rfl⟩
    simp only [replace, htext]
  | ok text =>
    obtain ⟨disk', h, hnew, hold⟩ | ⟨message, disk', h, hagree⟩ :=
      replaceFile_cases temporary (calls item.path) item.path text disk
    · left
      refine ⟨disk', text, ?_, rfl, hnew, hold⟩
      simp only [replace, htext, h]
    · right
      refine ⟨failed item.path message, disk', ?_, hagree⟩
      simp only [replace, htext, h]

/-! ### One after another -/

/-- The first `made` replacements are made and the others are not; nothing else changed,
temporary files aside. -/
structure CutAt (items : List (Replacement Path Text ε)) (before after : Disk Path Text)
    (made : ℕ) : Prop where
  le : made ≤ items.length
  new : ∀ i item, items[i]? = some item → i < made →
    ∃ text, item.text = .ok text ∧ after.lookup item.path = some text
  old : ∀ i item, items[i]? = some item → made ≤ i →
    after.lookup item.path = before.lookup item.path
  others : ∀ p, (∀ item ∈ items, p ≠ item.path ∧ p ≠ temporary item.path) →
    after.lookup p = before.lookup p

/-- No file is replaced twice, and no temporary file is one that is replaced. -/
structure Separate (items : List (Replacement Path Text ε)) : Prop where
  nodup : (items.map Replacement.path).Nodup
  apart : ∀ item ∈ items, ∀ other ∈ items, item.path ≠ temporary other.path

variable {temporary}

omit [DecidableEq Path] in
theorem Separate.tail {item : Replacement Path Text ε} {items : List (Replacement Path Text ε)}
    (h : Separate temporary (item :: items)) : Separate temporary items where
  nodup := (List.nodup_cons.mp h.nodup).2
  apart := fun a ha b hb => h.apart a (List.mem_cons_of_mem _ ha) b (List.mem_cons_of_mem _ hb)

omit [DecidableEq Path] in
theorem Separate.head_ne {item other : Replacement Path Text ε}
    {items : List (Replacement Path Text ε)} (h : Separate temporary (item :: items))
    (hother : other ∈ items) : other.path ≠ item.path := by
  intro heq
  apply (List.nodup_cons.mp h.nodup).1
  rw [← heq]
  exact List.mem_map_of_mem hother

/-- Wherever a run of replacements stops, it stops between two of them. -/
theorem replaceAll_cut {items : List (Replacement Path Text ε)} (h : Separate temporary items)
    (disk : Disk Path Text) :
    ∃ made, CutAt temporary items disk (left (replaceAll temporary failed calls items disk)) made ∧
      (succeeds (replaceAll temporary failed calls items disk) → made = items.length) := by
  induction items generalizing disk with
  | nil =>
    refine ⟨0, ⟨le_refl _, fun i item hi => ?_, fun _ _ _ _ => rfl, fun _ _ => rfl⟩, fun _ => rfl⟩
    simp at hi
  | cons item items ih =>
    obtain ⟨_, disk', hfirst, hnext⟩ | ⟨e, disk', hfirst, hnext⟩ :=
      bind_cases (replace temporary failed calls item)
        (fun _ => replaceAll temporary failed calls items) disk
    · -- the first is made, so the cut lies among the rest
      obtain ⟨_, text, hok, htext, hnew, hold⟩ | ⟨_, _, herror, _⟩ :=
        replace_cases temporary failed calls item disk
      · rw [hfirst] at hok
        cases hok
        obtain ⟨made, hcut, hall⟩ := ih h.tail disk'
        have hlater : ∀ other ∈ items, disk'.lookup other.path = disk.lookup other.path := by
          intro other hother
          exact hold other.path
            (h.apart other (List.mem_cons_of_mem _ hother) item List.mem_cons_self)
            (h.head_ne hother)
        rw [replaceAll, hnext]
        refine ⟨made + 1, ⟨Nat.succ_le_succ hcut.le, ?_, ?_, ?_⟩, fun hs => ?_⟩
        · intro i other hi hlt
          cases i with
          | zero =>
            cases hi
            refine ⟨text, htext, ?_⟩
            rw [hcut.others, hnew]
            intro other hother
            exact ⟨(h.head_ne hother).symm,
              h.apart item List.mem_cons_self other (List.mem_cons_of_mem _ hother)⟩
          | succ i => exact hcut.new i other hi (by omega)
        · intro i other hi hle
          cases i with
          | zero => omega
          | succ i =>
            rw [hcut.old i other hi (by omega)]
            exact hlater other (List.mem_of_getElem? hi)
        · intro p hp
          have hpi := hp item List.mem_cons_self
          rw [hcut.others p fun other hother => hp other (List.mem_cons_of_mem _ hother)]
          exact hold p hpi.2 hpi.1
        · rw [hall hs, List.length_cons]
      · rw [hfirst] at herror
        cases herror
    · -- the first fails, and only its temporary file has changed
      obtain ⟨_, _, hok, _⟩ | ⟨_, _, herror, hagree⟩ :=
        replace_cases temporary failed calls item disk
      · rw [hfirst] at hok
        cases hok
      · rw [hfirst] at herror
        cases herror
        rw [replaceAll, hnext]
        refine ⟨0, ⟨Nat.zero_le _, fun i other _ hlt => absurd hlt (Nat.not_lt_zero i), ?_, ?_⟩,
          fun hs => hs.elim⟩
        · intro i other hi _
          exact hagree other.path
            (h.apart other (List.mem_of_getElem? hi) item List.mem_cons_self)
        · intro p hp
          exact hagree p (hp item List.mem_cons_self).2

variable (temporary) in
/-- With every text there and every call fine, a run of replacements ends well. -/
theorem replaceAll_succeeds {items : List (Replacement Path Text ε)}
    (htexts : ∀ item ∈ items, ∃ text, item.text = .ok text)
    (hcalls : ∀ item ∈ items, calls item.path = .fine) (disk : Disk Path Text) :
    succeeds (replaceAll temporary failed calls items disk) := by
  induction items generalizing disk with
  | nil => trivial
  | cons item items ih =>
    obtain ⟨text, htext⟩ := htexts item List.mem_cons_self
    have hfine := hcalls item List.mem_cons_self
    have hfirst : ∃ disk', replace temporary failed calls item disk = .ok () disk' := by
      refine ⟨((disk.insert (temporary item.path) text).erase (temporary item.path)).insert
        item.path text, ?_⟩
      simp only [replace, htext, hfine, replaceFile, Calls.fine, bind, EStateM.bind, writeFile,
        renameFile, Finmap.lookup_insert]
    obtain ⟨disk', hfirst⟩ := hfirst
    rw [replaceAll]
    simp only [bind, EStateM.bind, hfirst]
    exact ih (fun a ha => htexts a (List.mem_cons_of_mem _ ha))
      (fun a ha => hcalls a (List.mem_cons_of_mem _ ha)) disk'

end AtomicWrites
