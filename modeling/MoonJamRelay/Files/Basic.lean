import Mathlib.Data.List.TakeWhile
import MoonJamRelay.Data.UnorderedMap

/-!
# Files and directories

Directories whose names refer to files and to other directories; there are no links.  Nothing here
makes or moves a directory, but an empty one can be removed.  A name has at most `nameMax`
characters and a path at most `pathMax`, as on Linux; no other limit of size and no permission is
modelled.

* `FileSystem` : what the names refer to.  A file keeps its `inode` until it is removed, so a
  descriptor still refers to it after others have opened it.
* `FileSystem.target` : what a path refers to.  A path ends at its first zero character; empty
  components and `.` are skipped, `..` is the parent, and every component but the last must be a
  directory.
* `openTruncate`, `write` : opening a file for output empties it, or makes it; what is written then
  replaces the contents from the first byte on.  `writeFile` does both.  When the file cannot be
  opened both do nothing, and nobody is told.
* `opens` : the file that opening a path for output leads to.
* `contents` : what the files hold, whatever their inodes; one lemma says what an operation does
  to it.
-/

namespace MoonJamRelay

/-- A component of a path, or the name of a file. -/
abbrev Name := List UInt8

/-- The longest name of a file or a directory. -/
def nameMax : ℕ := 255

/-- The longest path, with the zero at its end. -/
def pathMax : ℕ := 4096

/-- A file. -/
structure File where
  inode : ℕ
  contents : List UInt8
  deriving DecidableEq

/-- What a name in a directory refers to, where `D` are the directories. -/
inductive Entry (D : Type*) where
  | file (file : File)
  | directory (d : D)
  deriving DecidableEq

namespace Entry

variable {D : Type*}

def getFile : Entry D → Option File
  | file f => some f
  | directory _ => none

def getDirectory : Entry D → Option D
  | file _ => none
  | directory d => some d

end Entry

/-- What a path refers to. -/
inductive Target (D : Type*) where
  /-- A name in a directory.  There may be a file or a directory of this name. -/
  | entry (location : D × Name)
  /-- A directory, when the path ends in a dot or a slash. -/
  | directory (d : D)
  /-- Some directory on the way does not exist. -/
  | missing
  /-- The path, or the name of a directory on the way, is too long. -/
  | tooLong
  deriving DecidableEq

/-- The files in the directories `D`. -/
structure FileSystem (D : Type*) [DecidableEq D] where
  /-- What the names in the directories refer to. -/
  tree : UnorderedMap (D × Name) (Entry D)
  /-- The directory a directory is in; the root is in itself. -/
  parent : D → D
  /-- The inode of the next new file. -/
  nextInode : ℕ
  name_le : ∀ l e, tree.lookup l = some e → l.2.length ≤ nameMax
  inode_lt : ∀ l f, tree.lookup l = some (.file f) → f.inode < nextInode

/-- An open file: where it was opened, and its inode. -/
structure Descriptor (D : Type*) where
  location : D × Name
  inode : ℕ
  deriving DecidableEq

namespace FileSystem

variable {D : Type*} [DecidableEq D] (fs : FileSystem D)

/-- The file at a location, if there is one. -/
def file (l : D × Name) : Option File := (fs.tree.lookup l).bind Entry.getFile

/-- The directory at a location, if there is one. -/
def directory (l : D × Name) : Option D := (fs.tree.lookup l).bind Entry.getDirectory

/-- What the file at a location holds, if there is one. -/
def contents (l : D × Name) : Option (List UInt8) := (fs.file l).map File.contents

/-- The inode of the file at a location, if there is one. -/
def inode (l : D × Name) : Option ℕ := (fs.file l).map File.inode

/-- The names in a directory. -/
def entries (d : D) : List Name := (fs.tree.keys.filter fun l => l.1 = d).map Prod.snd

/-! ### Paths -/

/-- What the components of a path refer to, from the directory `d`. -/
def follow (d : D) : List Name → Target D
  | [] => .directory d
  | name :: rest =>
    if name = [] ∨ name = [46] then follow d rest
    else if name = [46, 46] then follow (fs.parent d) rest
    else if rest = [] then .entry (d, name)
    else if nameMax < name.length then .tooLong
    else match fs.directory (d, name) with
      | some d' => follow d' rest
      | none => .missing

/-- What a path refers to.  Its first `before` characters, which are left out here, lead to the
directory `d`. -/
def target (d : D) (before : ℕ) (path : List UInt8) : Target D :=
  let path := path.takeWhile fun c => c ≠ 0
  if pathMax ≤ before + path.length then .tooLong else fs.follow d (path.splitOn 47)

/-- The path refers to something that exists.  The call throws when a name is too long. -/
def fileExists : Target D → Option Bool
  | .entry l => if l.2.length ≤ nameMax then some (decide (l ∈ fs.tree)) else none
  | .directory _ => some true
  | .missing => some false
  | .tooLong => none

/-! ### Reading and writing -/

/-- What reading the file gives; nothing when there is none. -/
def read : Target D → List UInt8
  | .entry l => (fs.contents l).getD []
  | .directory _ | .missing | .tooLong => []

/-- Make or replace the file at a location; there is none when the name is too long. -/
def put (l : D × Name) (f : File) : FileSystem D :=
  if h : l.2.length ≤ nameMax then
    { tree := fs.tree.insert l (.file f)
      parent := fs.parent
      nextInode := max fs.nextInode (f.inode + 1)
      name_le := fun l' e he => by
        rw [UnorderedMap.lookup_insert_eq] at he
        split_ifs at he with hl
        · exact hl ▸ h
        · exact fs.name_le l' e he
      inode_lt := fun l' f' hf => by
        rw [UnorderedMap.lookup_insert_eq] at hf
        split_ifs at hf with hl
        · obtain rfl := Entry.file.inj (Option.some.inj hf)
          exact Nat.lt_of_lt_of_le (Nat.lt_succ_self _) (Nat.le_max_right _ _)
        · exact Nat.lt_of_lt_of_le (fs.inode_lt l' f' hf) (Nat.le_max_left _ _) }
  else fs

/-- Open a file for output.  It is empty then; if it did not exist it does.  The second component
is the descriptor, when the file can be opened. -/
def openTruncate : Target D → FileSystem D × Option (Descriptor D)
  | .entry l =>
    if l.2.length ≤ nameMax then
      match fs.tree.lookup l with
      | some (.file f) => (fs.put l ⟨f.inode, []⟩, some ⟨l, f.inode⟩)
      | some (.directory _) => (fs, none)
      | none => (fs.put l ⟨fs.nextInode, []⟩, some ⟨l, fs.nextInode⟩)
    else (fs, none)
  | .directory _ | .missing | .tooLong => (fs, none)

/-- Write to an open file, from its first byte on.  When the file was removed this changes no file
with a name. -/
def write (fd : Option (Descriptor D)) (bytes : List UInt8) : FileSystem D :=
  match fd with
  | none => fs
  | some fd =>
    match fs.file fd.location with
    | none => fs
    | some f =>
      if f.inode = fd.inode then
        fs.put fd.location ⟨f.inode, bytes ++ f.contents.drop bytes.length⟩
      else fs

/-- Replace what a file holds. -/
def writeFile (t : Target D) (bytes : List UInt8) : FileSystem D :=
  (fs.openTruncate t).1.write (fs.openTruncate t).2 bytes

/-- The file that opening the path for output empties or makes, when it can be opened. -/
def opens : Target D → Option (D × Name)
  | .entry l => if l.2.length ≤ nameMax ∧ fs.directory l = none then some l else none
  | .directory _ | .missing | .tooLong => none

/-! ### Removing -/

/-- The name does not refer to anything any more. -/
def drop (l : D × Name) : FileSystem D where
  tree := fs.tree.erase l
  parent := fs.parent
  nextInode := fs.nextInode
  name_le l' e he := by
    rw [UnorderedMap.lookup_erase_eq] at he
    split_ifs at he
    exact fs.name_le l' e he
  inode_lt l' f hf := by
    rw [UnorderedMap.lookup_erase_eq] at hf
    split_ifs at hf
    exact fs.inode_lt l' f hf

/-- Remove a file or an empty directory.  The first component says whether there was one.  The call
throws when the directory is not empty and when a name is too long; a path that ends in a dot or a
slash does not come here. -/
def remove : Target D → Option (Bool × FileSystem D)
  | .entry l =>
    if l.2.length ≤ nameMax then
      match fs.tree.lookup l with
      | some (.file _) => some (true, fs.drop l)
      | some (.directory d) => if fs.entries d = [] then some (true, fs.drop l) else none
      | none => some (false, fs)
    else none
  | .missing => some (false, fs)
  | .directory _ | .tooLong => none

variable {fs} {fs' : FileSystem D} {l : D × Name} {t : Target D}

/-! ### What there is -/

theorem file_eq_some {f : File} : fs.file l = some f ↔ fs.tree.lookup l = some (.file f) := by
  rw [file]
  rcases fs.tree.lookup l with _ | f' | d <;> simp [Entry.getFile]

theorem directory_eq_some {d : D} :
    fs.directory l = some d ↔ fs.tree.lookup l = some (.directory d) := by
  rw [directory]
  rcases fs.tree.lookup l with _ | f | d' <;> simp [Entry.getDirectory]

theorem directory_eq_none_of_file {f : File} (h : fs.file l = some f) : fs.directory l = none := by
  rw [directory, file_eq_some.1 h]
  rfl

theorem mem_tree_iff :
    l ∈ fs.tree ↔ (fs.file l).isSome = true ∨ (fs.directory l).isSome = true := by
  rw [UnorderedMap.mem_iff_lookup, file, directory]
  rcases fs.tree.lookup l with _ | f | d <;> simp [Entry.getFile, Entry.getDirectory]

theorem contents_isSome : (fs.contents l).isSome = (fs.file l).isSome := Option.isSome_map

theorem inode_isSome : (fs.inode l).isSome = (fs.contents l).isSome := by
  rw [inode, Option.isSome_map, contents_isSome]

theorem opens_of_contents {c : List UInt8} (h : fs.contents l = some c) :
    fs.opens (.entry l) = some l := by
  obtain ⟨f, hf, -⟩ := Option.map_eq_some_iff.1 h
  exact if_pos ⟨fs.name_le l _ (file_eq_some.1 hf), directory_eq_none_of_file hf⟩

theorem fileExists_of_contents {c : List UInt8} (h : fs.contents l = some c) :
    fs.fileExists (.entry l) = some true := by
  obtain ⟨f, hf, -⟩ := Option.map_eq_some_iff.1 h
  rw [fileExists, if_pos (fs.name_le l _ (file_eq_some.1 hf)),
    decide_eq_true (UnorderedMap.mem_of_lookup (file_eq_some.1 hf))]

theorem mem_tree_of_contents {c : List UInt8} (h : fs.contents l = some c) : l ∈ fs.tree := by
  rw [mem_tree_iff, ← contents_isSome, h]
  exact .inl rfl

theorem read_entry {c : List UInt8} (h : fs.contents l = some c) : fs.read (.entry l) = c := by
  rw [read, h]
  rfl

theorem exists_of_read (h : fs.read t ≠ []) : ∃ l c, t = .entry l ∧ fs.contents l = some c := by
  cases t with
  | entry l =>
    cases hc : fs.contents l with
    | none => exact absurd (by rw [read, hc]; rfl) h
    | some c => exact ⟨l, c, rfl, hc⟩
  | directory | missing | tooLong => exact absurd rfl h

theorem mem_entries {d : D} {name : Name} : name ∈ fs.entries d ↔ (d, name) ∈ fs.tree := by
  rw [entries, List.mem_map]
  constructor
  · rintro ⟨⟨d', name'⟩, hl, rfl⟩
    obtain ⟨hkey, hd⟩ := List.mem_filter.1 hl
    obtain rfl : d' = d := by simpa using hd
    exact AList.mem_keys.2 hkey
  · exact fun h => ⟨(d, name), List.mem_filter.2 ⟨AList.mem_keys.1 h, by simp⟩, rfl⟩

theorem nodup_entries (d : D) : (fs.entries d).Nodup := by
  refine ((AList.keys_nodup fs.tree).filter _).map_on ?_
  rintro ⟨d₁, n₁⟩ h₁ ⟨d₂, n₂⟩ h₂ rfl
  have h₁ := (List.mem_filter.1 h₁).2
  have h₂ := (List.mem_filter.1 h₂).2
  simp_all

theorem opens_eq_some : fs.opens t = some l ↔
    t = .entry l ∧ l.2.length ≤ nameMax ∧ fs.directory l = none := by
  cases t with
  | entry l' =>
    simp only [opens, Option.ite_none_right_eq_some, Option.some.injEq, Target.entry.injEq]
    constructor
    · rintro ⟨h, rfl⟩
      exact ⟨rfl, h⟩
    · rintro ⟨rfl, h⟩
      exact ⟨h, rfl⟩
  | directory | missing | tooLong => simp [opens]

/-! ### The same directories -/

/-- The two have the same directories. -/
structure SameDirectories (fs fs' : FileSystem D) : Prop where
  parent : fs'.parent = fs.parent
  directory : fs'.directory = fs.directory

namespace SameDirectories

theorem symm (h : SameDirectories fs fs') : SameDirectories fs' fs :=
  ⟨h.parent.symm, h.directory.symm⟩

theorem trans {fs'' : FileSystem D} (h : SameDirectories fs fs') (h' : SameDirectories fs' fs'') :
    SameDirectories fs fs'' :=
  ⟨h'.parent.trans h.parent, h'.directory.trans h.directory⟩

theorem follow_eq (h : SameDirectories fs fs') (d : D) (names : List Name) :
    fs'.follow d names = fs.follow d names := by
  induction names generalizing d with
  | nil => rfl
  | cons name rest ih => simp only [follow, ih, h.parent, h.directory]

theorem target_eq (h : SameDirectories fs fs') (d : D) (before : ℕ) (path : List UInt8) :
    fs'.target d before path = fs.target d before path := by
  simp only [target, h.follow_eq]

theorem opens_eq (h : SameDirectories fs fs') : fs'.opens = fs.opens := by
  funext t
  cases t with
  | entry l => rw [opens, opens, h.directory]
  | directory | missing | tooLong => rfl

theorem mem_tree_iff (h : SameDirectories fs fs')
    (hfiles : ∀ l, (fs'.contents l).isSome = (fs.contents l).isSome) :
    l ∈ fs'.tree ↔ l ∈ fs.tree := by
  simp only [contents_isSome] at hfiles
  rw [FileSystem.mem_tree_iff, FileSystem.mem_tree_iff, hfiles, h.directory]

theorem fileExists_eq (h : SameDirectories fs fs')
    (hfiles : ∀ l, (fs'.contents l).isSome = (fs.contents l).isSome) (t : Target D) :
    fs'.fileExists t = fs.fileExists t := by
  cases t with
  | entry l => simp only [fileExists, h.mem_tree_iff hfiles]
  | directory | missing | tooLong => rfl

end SameDirectories

/-! ### What the operations change -/

theorem file_put (f : File) (hl : l.2.length ≤ nameMax) (l' : D × Name) :
    (fs.put l f).file l' = if l' = l then some f else fs.file l' := by
  simp only [file, put, dif_pos hl, UnorderedMap.lookup_insert_eq]
  split_ifs <;> rfl

theorem sameDirectories_put (f : File) (hl : l.2.length ≤ nameMax) (hfile : fs.directory l = none) :
    SameDirectories fs (fs.put l f) := by
  refine ⟨by rw [put, dif_pos hl], funext fun l' => ?_⟩
  simp only [directory, put, dif_pos hl, UnorderedMap.lookup_insert_eq]
  split_ifs with h
  · subst h
    exact hfile.symm
  · rfl

theorem nextInode_put (f : File) (hl : l.2.length ≤ nameMax) :
    (fs.put l f).nextInode = max fs.nextInode (f.inode + 1) := by
  rw [put, dif_pos hl]

theorem inode_put (f : File) (hl : l.2.length ≤ nameMax) (l' : D × Name) :
    (fs.put l f).inode l' = if l' = l then some f.inode else fs.inode l' := by
  rw [inode, file_put f hl]
  split_ifs <;> rfl

theorem file_drop (l l' : D × Name) :
    (fs.drop l).file l' = if l' = l then none else fs.file l' := by
  simp only [file, drop, UnorderedMap.lookup_erase_eq]
  split_ifs <;> rfl

theorem directory_drop (l l' : D × Name) :
    (fs.drop l).directory l' = if l' = l then none else fs.directory l' := by
  simp only [directory, drop, UnorderedMap.lookup_erase_eq]
  split_ifs <;> rfl

theorem contents_drop (l l' : D × Name) :
    (fs.drop l).contents l' = if l' = l then none else fs.contents l' := by
  rw [contents, file_drop]
  split_ifs <;> rfl

/-- A file that can be opened for output keeps its inode, or gets a new one. -/
theorem openTruncate_of_opens (h : fs.opens t = some l) : ∃ i,
    fs.openTruncate t = (fs.put l ⟨i, []⟩, some ⟨l, i⟩) ∧
      (fs.inode l = some i ∨ fs.inode l = none ∧ i = fs.nextInode) := by
  obtain ⟨rfl, hl, hdir⟩ := opens_eq_some.1 h
  rw [openTruncate, if_pos hl, inode, file]
  cases he : fs.tree.lookup l with
  | none => exact ⟨_, rfl, .inr ⟨rfl, rfl⟩⟩
  | some e =>
    cases e with
    | file f => exact ⟨_, rfl, .inl rfl⟩
    | directory d =>
      rw [directory_eq_some.2 he] at hdir
      cases hdir

theorem openTruncate_of_not_opens (h : fs.opens t = none) : fs.openTruncate t = (fs, none) := by
  cases t with
  | entry l =>
    rw [openTruncate]
    split_ifs with hl
    · have hdir : fs.directory l ≠ none := fun hdir => by
        rw [opens, if_pos ⟨hl, hdir⟩] at h
        cases h
      obtain ⟨d, hd⟩ := Option.ne_none_iff_exists'.1 hdir
      rw [directory_eq_some.1 hd]
    · rfl
  | directory | missing | tooLong => rfl

/-- Opening for output empties the file, and leaves all others as they are. -/
theorem contents_openTruncate (t : Target D) (l : D × Name) :
    (fs.openTruncate t).1.contents l = if fs.opens t = some l then some [] else fs.contents l := by
  cases hopens : fs.opens t with
  | none => rw [openTruncate_of_not_opens hopens, if_neg (by simp)]
  | some l' =>
    obtain ⟨i, hopen, -⟩ := openTruncate_of_opens hopens
    rw [hopen, contents, file_put _ (opens_eq_some.1 hopens).2.1]
    simp only [Option.some.injEq, eq_comm (a := l')]
    split_ifs <;> rfl

/-- The inode of an open file is not used again. -/
theorem inode_openTruncate_lt (t : Target D) :
    fs.nextInode ≤ (fs.openTruncate t).1.nextInode ∧
      ∀ fd, (fs.openTruncate t).2 = some fd → fd.inode < (fs.openTruncate t).1.nextInode := by
  cases hopens : fs.opens t with
  | none =>
    rw [openTruncate_of_not_opens hopens]
    exact ⟨Nat.le_refl _, fun fd hfd => by cases hfd⟩
  | some l =>
    obtain ⟨i, hopen, -⟩ := openTruncate_of_opens hopens
    rw [hopen]
    refine ⟨?_, fun fd hfd => ?_⟩
    · rw [nextInode_put _ (opens_eq_some.1 hopens).2.1]
      exact Nat.le_max_left _ _
    · obtain rfl := Option.some.inj hfd
      rw [nextInode_put _ (opens_eq_some.1 hopens).2.1]
      exact Nat.le_max_right _ _

theorem inode_openTruncate {i : ℕ} (h : fs.inode l = some i) (t : Target D) :
    (fs.openTruncate t).1.inode l = some i := by
  cases hopens : fs.opens t with
  | none => rwa [openTruncate_of_not_opens hopens]
  | some l' =>
    obtain ⟨j, hopen, hj⟩ := openTruncate_of_opens hopens
    rw [hopen, inode_put _ (opens_eq_some.1 hopens).2.1]
    split_ifs with hl
    · subst hl
      rw [h] at hj
      obtain hj | ⟨hj, -⟩ := hj
      · exact hj.symm
      · cases hj
    · exact h

theorem sameDirectories_openTruncate (t : Target D) :
    SameDirectories fs (fs.openTruncate t).1 := by
  cases hopens : fs.opens t with
  | none => rw [openTruncate_of_not_opens hopens]; exact ⟨rfl, rfl⟩
  | some l =>
    obtain ⟨i, hopen, -⟩ := openTruncate_of_opens hopens
    rw [hopen]
    exact sameDirectories_put _ (opens_eq_some.1 hopens).2.1 (opens_eq_some.1 hopens).2.2

/-- How writing ends: nothing changes, or the file that was opened and is still there. -/
theorem write_cases (fd : Option (Descriptor D)) (bytes : List UInt8) :
    fs.write fd bytes = fs ∨ ∃ d f, fd = some d ∧ fs.file d.location = some f ∧
      f.inode = d.inode ∧ fs.write fd bytes =
        fs.put d.location ⟨f.inode, bytes ++ f.contents.drop bytes.length⟩ := by
  cases fd with
  | none => exact .inl rfl
  | some d =>
    rw [write]
    cases hf : fs.file d.location with
    | none => exact .inl rfl
    | some f =>
      by_cases hi : f.inode = d.inode
      · exact .inr ⟨d, f, rfl, hf, hi, if_pos hi⟩
      · exact .inl (if_neg hi)

/-- Writing changes the contents of the file that was opened, if it is still there. -/
theorem contents_write (fd : Descriptor D) (bytes : List UInt8) (l : D × Name) :
    (fs.write (some fd) bytes).contents l =
      if l = fd.location ∧ fs.inode fd.location = some fd.inode then
        (fs.contents l).map fun old => bytes ++ old.drop bytes.length
      else fs.contents l := by
  rw [write, inode]
  cases hf : fs.file fd.location with
  | none => rw [if_neg (by simp)]
  | some f =>
    simp only [Option.map_some, Option.some.injEq]
    by_cases hi : f.inode = fd.inode
    · simp only [hi, if_true, and_true, contents,
        file_put _ (fs.name_le _ _ (file_eq_some.1 hf))]
      split_ifs with hl
      · rw [hl, hf]
        rfl
      · rfl
    · simp only [hi, if_false, and_false]

@[simp] theorem inode_write (fd : Option (Descriptor D)) (bytes : List UInt8) :
    (fs.write fd bytes).inode = fs.inode := by
  funext l
  obtain h | ⟨d, f, -, hf, -, h⟩ := fs.write_cases fd bytes
  · rw [h]
  · rw [h, inode, inode, file_put _ (fs.name_le _ _ (file_eq_some.1 hf))]
    split_ifs with hl
    · rw [hl, hf]
      rfl
    · rfl

@[simp] theorem nextInode_write (fd : Option (Descriptor D)) (bytes : List UInt8) :
    (fs.write fd bytes).nextInode = fs.nextInode := by
  obtain h | ⟨d, f, -, hf, -, h⟩ := fs.write_cases fd bytes
  · rw [h]
  · have hf := file_eq_some.1 hf
    rw [h, nextInode_put _ (fs.name_le _ _ hf)]
    exact Nat.max_eq_left (show f.inode + 1 ≤ _ from fs.inode_lt _ f hf)

theorem sameDirectories_write (fd : Option (Descriptor D)) (bytes : List UInt8) :
    SameDirectories fs (fs.write fd bytes) := by
  obtain h | ⟨d, f, -, hf, -, h⟩ := fs.write_cases fd bytes
  · rw [h]
    exact ⟨rfl, rfl⟩
  · rw [h]
    exact sameDirectories_put _ (fs.name_le _ _ (file_eq_some.1 hf)) (directory_eq_none_of_file hf)

theorem sameDirectories_writeFile (t : Target D) (bytes : List UInt8) :
    SameDirectories fs (fs.writeFile t bytes) :=
  (sameDirectories_openTruncate t).trans (sameDirectories_write _ _)

theorem contents_writeFile (t : Target D) (bytes : List UInt8) (l : D × Name) :
    (fs.writeFile t bytes).contents l = if fs.opens t = some l then some bytes
      else fs.contents l := by
  rw [writeFile]
  cases hopens : fs.opens t with
  | none => rw [openTruncate_of_not_opens hopens, write, if_neg (by simp)]
  | some l' =>
    obtain ⟨i, hopen, -⟩ := openTruncate_of_opens hopens
    have hl' := (opens_eq_some.1 hopens).2.1
    have hempty : (fs.put l' ⟨i, []⟩).file l' = some ⟨i, []⟩ := by rw [file_put _ hl', if_pos rfl]
    rw [hopen, contents_write, if_congr (and_iff_left ?_) rfl rfl]
    · simp only [contents, file_put _ hl', Option.some.injEq, eq_comm (a := l')]
      split_ifs
      · simp
      · rfl
    · rw [inode, hempty]
      rfl

theorem contents_isSome_writeFile (hl : (fs.contents l).isSome = true) (bytes : List UInt8)
    (l' : D × Name) :
    ((fs.writeFile (.entry l) bytes).contents l').isSome = (fs.contents l').isSome := by
  rw [contents_writeFile]
  split_ifs with h
  · obtain rfl := Target.entry.inj (opens_eq_some.1 h).1
    rw [hl]
    rfl
  · rfl

/-- How removing ends. -/
theorem remove_cases {b : Bool} (h : fs.remove t = some (b, fs')) :
    (∃ l, t = .entry l ∧ l ∈ fs.tree ∧ b = true ∧ fs' = fs.drop l) ∨
      b = false ∧ fs' = fs ∧ ∀ l, t = .entry l → l ∉ fs.tree := by
  cases t with
  | entry l =>
    rw [remove] at h
    split_ifs at h with hl
    cases he : fs.tree.lookup l with
    | none =>
      rw [he] at h
      obtain ⟨rfl, rfl⟩ := Prod.mk.inj (Option.some.inj h)
      refine .inr ⟨rfl, rfl, fun l' hl' => ?_⟩
      obtain rfl := Target.entry.inj hl'
      rw [← AList.lookup_eq_none, he]
    | some e =>
      have hmem := UnorderedMap.mem_of_lookup he
      rw [he] at h
      cases e with
      | file f =>
        obtain ⟨rfl, rfl⟩ := Prod.mk.inj (Option.some.inj h)
        exact .inl ⟨l, rfl, hmem, rfl, rfl⟩
      | directory d =>
        simp only at h
        split_ifs at h
        obtain ⟨rfl, rfl⟩ := Prod.mk.inj (Option.some.inj h)
        exact .inl ⟨l, rfl, hmem, rfl, rfl⟩
  | missing =>
    obtain ⟨rfl, rfl⟩ := Prod.mk.inj (Option.some.inj h)
    exact .inr ⟨rfl, rfl, fun l hl => by cases hl⟩
  | directory | tooLong => cases h

theorem file_eq_none_of_not_opens (h : fs.opens (.entry l) = none) : fs.file l = none := by
  rw [Option.eq_none_iff_forall_ne_some]
  intro f hf
  rw [opens_of_contents (c := f.contents) (by rw [contents, hf]; rfl)] at h
  cases h

theorem file_remove {b : Bool} (h : fs.remove t = some (b, fs')) (l : D × Name) :
    fs'.file l = if fs.opens t = some l then none else fs.file l := by
  obtain ⟨l', rfl, -, -, rfl⟩ | ⟨-, rfl, hnot⟩ := remove_cases h
  · rw [file_drop]
    by_cases hl : l = l'
    · subst hl
      rw [if_pos rfl]
      split_ifs with hopens
      · rfl
      · symm
        refine file_eq_none_of_not_opens (Option.eq_none_iff_forall_ne_some.2 fun l' hl' => ?_)
        obtain rfl := Target.entry.inj (opens_eq_some.1 hl').1
        exact hopens hl'
    · rw [if_neg hl, if_neg fun hopens => hl (Target.entry.inj (opens_eq_some.1 hopens).1).symm]
  · split_ifs with hopens
    · have hmem := hnot l (opens_eq_some.1 hopens).1
      rw [FileSystem.mem_tree_iff, not_or] at hmem
      simpa using hmem.1
    · rfl

theorem contents_remove {b : Bool} (h : fs.remove t = some (b, fs')) (l : D × Name) :
    fs'.contents l = if fs.opens t = some l then none else fs.contents l := by
  rw [contents, file_remove h]
  split_ifs <;> rfl

theorem inode_remove {b : Bool} (h : fs.remove t = some (b, fs')) (l : D × Name) :
    fs'.inode l = if fs.opens t = some l then none else fs.inode l := by
  rw [inode, file_remove h]
  split_ifs <;> rfl

theorem nextInode_remove {b : Bool} (h : fs.remove t = some (b, fs')) :
    fs'.nextInode = fs.nextInode := by
  obtain ⟨l, -, -, -, rfl⟩ | ⟨-, rfl, -⟩ := remove_cases h <;> rfl

theorem remove_of_contents {c : List UInt8} (h : fs.contents l = some c) :
    fs.remove (.entry l) = some (true, fs.drop l) := by
  obtain ⟨f, hf, -⟩ := Option.map_eq_some_iff.1 h
  have hf := file_eq_some.1 hf
  simp only [remove, if_pos (fs.name_le l _ hf), hf]

/-- Removing throws only where no file can be opened. -/
theorem opens_of_remove_throws (h : fs.remove t = none) : fs.opens t = none := by
  by_contra hne
  obtain ⟨l, hl⟩ := Option.ne_none_iff_exists'.1 hne
  obtain ⟨rfl, hname, hdir⟩ := opens_eq_some.1 hl
  rw [remove, if_pos hname] at h
  cases he : fs.tree.lookup l with
  | none =>
    rw [he] at h
    cases h
  | some e =>
    rw [he] at h
    cases e with
    | file f => cases h
    | directory d =>
      rw [directory_eq_some.2 he] at hdir
      cases hdir

/-- What exists is removed, or the call throws. -/
theorem remove_of_exists {b : Bool} (h : fs.remove t = some (b, fs'))
    (hexists : fs.fileExists t = some true) : b = true := by
  obtain ⟨l, -, -, rfl, -⟩ | ⟨rfl, -, hnot⟩ := remove_cases h
  · rfl
  · cases t with
    | entry l =>
      rw [fileExists] at hexists
      split_ifs at hexists
      exact absurd (by simpa using hexists) (hnot l rfl)
    | missing | tooLong => cases hexists
    | directory d => cases h

theorem SameDirectories.remove (h : SameDirectories fs fs')
    (hfiles : ∀ l, (fs'.contents l).isSome = (fs.contents l).isSome) (t : Target D) :
    (fs.remove t = none ∧ fs'.remove t = none) ∨ ∃ b gs gs', fs.remove t = some (b, gs) ∧
      fs'.remove t = some (b, gs') ∧ SameDirectories gs gs' := by
  have hdrop : ∀ l, SameDirectories (fs.drop l) (fs'.drop l) := fun l =>
    ⟨h.parent, funext fun l' => by rw [directory_drop, directory_drop, h.directory]⟩
  cases t with
  | entry l =>
    have hmem := h.mem_tree_iff (l := l) hfiles
    simp only [FileSystem.remove]
    split_ifs with hl
    · cases he : fs.tree.lookup l with
      | none =>
        have he' : fs'.tree.lookup l = none := by
          rw [AList.lookup_eq_none, hmem, ← AList.lookup_eq_none, he]
        rw [he']
        exact .inr ⟨_, _, _, rfl, rfl, h⟩
      | some e =>
        obtain ⟨e', he'⟩ := UnorderedMap.mem_iff_lookup.1 (hmem.2 (UnorderedMap.mem_of_lookup he))
        have hdir : e'.getDirectory = e.getDirectory := by
          have hdir := congrFun h.directory l
          rwa [FileSystem.directory, FileSystem.directory, he, he'] at hdir
        rw [he']
        cases e with
        | file f =>
          cases e' with
          | file f' => exact .inr ⟨_, _, _, rfl, rfl, hdrop l⟩
          | directory d => cases hdir
        | directory d =>
          cases e' with
          | file f' => cases hdir
          | directory d' =>
            obtain rfl := Option.some.inj hdir
            have hentries : fs'.entries d' = [] ↔ fs.entries d' = [] := by
              simp only [List.eq_nil_iff_forall_not_mem, mem_entries, h.mem_tree_iff hfiles]
            simp only [hentries]
            split_ifs
            · exact .inr ⟨_, _, _, rfl, rfl, hdrop l⟩
            · exact .inl ⟨rfl, rfl⟩
    · exact .inl ⟨rfl, rfl⟩
  | missing => exact .inr ⟨_, _, _, rfl, rfl, h⟩
  | directory | tooLong => exact .inl ⟨rfl, rfl⟩

/-! ### Paths of files -/

theorem target_name {d : D} {before : ℕ} {name : Name} (h0 : 0 ∉ name) (hslash : 47 ∉ name)
    (hne : name ≠ [] ∧ name ≠ [46] ∧ name ≠ [46, 46]) :
    fs.target d before name = if pathMax ≤ before + name.length then .tooLong
      else .entry (d, name) := by
  have htake : name.takeWhile (fun c => c ≠ 0) = name :=
    List.takeWhile_eq_self_iff.2 fun c hc => by simpa using ne_of_mem_of_not_mem hc h0
  have hsplit : name.splitOn 47 = [name] :=
    List.splitOnP_eq_singleton fun c hc => by simpa using ne_of_mem_of_not_mem hc hslash
  simp only [target, htake, hsplit, follow, if_neg (not_or.2 ⟨hne.1, hne.2.1⟩), if_neg hne.2.2,
    if_true]

/-- What comes after a zero does not matter. -/
theorem target_append_zero (d : D) (before : ℕ) (path rest : List UInt8) :
    fs.target d before (path ++ 0 :: rest) = fs.target d before path := by
  have htake : (path ++ 0 :: rest).takeWhile (fun c => c ≠ 0) =
      path.takeWhile fun c => c ≠ 0 := by
    induction path with
    | nil => rfl
    | cons c path ih =>
      rw [List.cons_append, List.takeWhile_cons, List.takeWhile_cons, ih]
  simp only [target, htake]

end FileSystem

end MoonJamRelay
