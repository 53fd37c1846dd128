import MoonJamRelay.Api.Server

/-!
# Concurrent requests

The HTTP library runs the handlers of several requests at the same time.  The files and the
directory have no lock, and the key table is locked for one scan or for the swap of `refreshKeys`
only.  So a handler is cut at its file operations and at its accesses to the table: a program point
is what comes before the next of them, which is then one step.

* `Scan` : a call of `refreshKeys` that has not swapped the table yet.
* `HandlerPc` : the program points, with the local variables that are still read.
* `ApiSystem` : the files, the table and all handlers.
* `ApiSystem.HalfWritten`, `Holds` : a file was emptied and is not written yet; what a file holds
  once those who have opened it have written.
-/

namespace MoonJamRelay

/-- A scan of the key directory by `refreshKeys`. -/
structure Scan where
  /-- The entries when the directory was opened, with their inodes. -/
  start : List (Name × ℕ)
  /-- The entries that were read. -/
  seen : List Name
  /-- `keys`. -/
  keys : List AccessKeys
  /-- The number of scans begun before; no code counts them. -/
  ticket : ℕ
  deriving DecidableEq

/-- The keys drawn by `/create`. -/
structure KeyPair where
  moonHash : RandomString
  playerHash : RandomString
  ne : moonHash ≠ playerHash
  deriving DecidableEq

/-- An id that matches `[0-9a-zA-Z]+`. -/
structure SafeId where
  id : List UInt8
  valid : ValidId id
  deriving DecidableEq

/-- What comes after a call of `refreshKeys`. -/
inductive AfterRefresh where
  /-- `/create`: draw the keys. -/
  | draw (id : List UInt8) (limit : Option (List UInt8))
  /-- `/get`: look for the file. -/
  | get (id : List UInt8)
  /-- `/create`: answer.  The file was written when `written` scans had begun; no code counts
  them. -/
  | answer (response : ApiResponse) (written : ℕ)
  deriving DecidableEq

/-- What comes after a call of `writeFile`. -/
inductive AfterWrite where
  /-- `/create`: refresh the keys, then answer. -/
  | refresh (response : ApiResponse)
  /-- `/limit`: answer. -/
  | answer (response : ApiResponse)
  deriving DecidableEq

/-- Where a handler is. -/
inductive HandlerPc (D : Type*) where
  /-- There is no such request yet. -/
  | absent
  /-- `refreshKeys`: before the directory is opened. -/
  | refresh (next : AfterRefresh)
  /-- `refreshKeys`: in the loop over the directory. -/
  | scan (scan : Scan) (next : AfterRefresh)
  /-- `refreshKeys`: before the swap. -/
  | swap (scan : Scan) (next : AfterRefresh)
  /-- `/create`: draw the player key, with so many attempts left. -/
  | drawPlayer (id : List UInt8) (limit : Option (List UInt8)) (attempts : ℕ)
  /-- `/create`: draw the moon key, with so many attempts left. -/
  | drawMoon (id : List UInt8) (limit : Option (List UInt8)) (playerHash : RandomString)
      (attempts : ℕ)
  /-- `/create`: open the file for output. -/
  | createOpen (id : List UInt8) (limit : Option (List UInt8)) (keys : KeyPair)
  /-- `/get`: look for the file. -/
  | getExists (id : List UInt8)
  /-- `/get`: read the file. -/
  | getRead (id : List UInt8)
  /-- `/delete`: look for the file. -/
  | deleteExists (id : List UInt8)
  /-- `/delete`: remove the file. -/
  | deleteRemove (id : SafeId)
  /-- `/limit`: look for the file. -/
  | limitExists (id : List UInt8) (text : List UInt8)
  /-- `/limit`: read the file. -/
  | limitRead (id : SafeId) (text : List UInt8)
  /-- `/limit`: open the file for output. -/
  | limitOpen (id : SafeId) (text moonHash playerHash : List UInt8)
  /-- `writeFile`: write to the open file. -/
  | write (fd : Option (Descriptor D)) (content : List UInt8) (next : AfterWrite)
  /-- The handler has returned. -/
  | answered (response : ApiResponse)
  deriving DecidableEq

namespace HandlerPc

variable {D : Type*}

/-- The text a handler is about to write to an open file. -/
def writing : HandlerPc D → Option (Descriptor D × List UInt8)
  | write (some fd) content _ => some (fd, content)
  | _ => none

/-- The scan of a handler. -/
def scanning : HandlerPc D → Option Scan
  | scan sc _ | swap sc _ => some sc
  | _ => none

/-- The response, once it does not depend on what others do. -/
def outcome : HandlerPc D → Option ApiResponse
  | refresh (.answer r _) | scan _ (.answer r _) | swap _ (.answer r _) | write _ _ (.refresh r)
  | write _ _ (.answer r) | answered r => some r
  | _ => none

end HandlerPc

/-- A handler: the request and where it is. -/
structure Handler (D : Type*) where
  request : ApiRequest
  pc : HandlerPc D

/-- No handler. -/
def Handler.none {D : Type*} : Handler D := ⟨⟨.get, Option.none, Option.none, Option.none⟩, .absent⟩

/-- The state of all handlers. -/
structure ApiSystem (D : Type*) [DecidableEq D] where
  files : FileSystem D
  /-- The key table of the relay. -/
  keyManager : KeyManager
  /-- The number of requests so far. -/
  begun : ℕ
  handlers : ℕ → Handler D
  /-- The number of scans begun so far; no code counts them. -/
  scans : ℕ
  /-- The largest `written` of the `/create` requests that have swapped the table after their write;
  no code keeps it. -/
  recorded : ℕ

namespace ApiSystem

variable {D : Type*} [DecidableEq D] (s : ApiSystem D)

/-- The program point of a handler. -/
abbrev pc (n : ℕ) : HandlerPc D := (s.handlers n).pc

/-- The handler goes on at `pc`. -/
def goto (n : ℕ) (pc : HandlerPc D) : ApiSystem D :=
  { s with handlers := Function.update s.handlers n { s.handlers n with pc := pc } }

/-- The files and the table, as the handlers find them. -/
def server : ApiServer D := ⟨s.files, s.keyManager⟩

/-! ### Files that are being written -/

/-- The handler has opened the file, which is still there, and is about to write the text. -/
def Writes (n : ℕ) (l : D × Name) (content : List UInt8) : Prop :=
  ∃ fd, (s.pc n).writing = some (fd, content) ∧ fd.location = l ∧
    s.files.inode l = some fd.inode

/-- A handler has emptied the file, and has not written it yet. -/
def HalfWritten (l : D × Name) : Prop := ∃ n content, s.Writes n l content

/-- What the file holds, once the handler that has emptied it has written. -/
def Holds (l : D × Name) (content : List UInt8) : Prop :=
  (¬ s.HalfWritten l ∧ s.files.contents l = some content) ∨ ∃ n, s.Writes n l content

end ApiSystem

end MoonJamRelay
