import MoonJamRelay.Api.KeyFile
import MoonJamRelay.Files.Basic
import MoonJamRelay.Machine.Basic

/-!
# The key API

`ApiServer` is what the handlers of the HTTP server work on: the files, and the key table of the
relay.  Here every handler is one function, as if requests were handled one at a time;
`MoonJamRelay.Requests` takes them apart.

* `Installation` : the directory of the key files and the secret.
* `ApiRequest`, `ApiResponse` : the form fields the handlers read, and what they answer.  A handler
  that throws is answered with status 500 by the HTTP library.
* `Luck` : what the program does not decide, that is the random strings of `/create` and the order
  in which the directory lists its files.
* `create`, `get`, `delete`, `limit` : the handlers; `handle` : the one of the route.
* `apiServer` : the machine that handles one request after the other.
-/

namespace MoonJamRelay

/-- `.txt`. -/
def txt : Name := [46, 116, 120, 116]

/-- `../keys/`. -/
def keysPath : List UInt8 := [46, 46, 47, 107, 101, 121, 115, 47]

/-- Where the program was installed. -/
structure Installation (D : Type*) where
  /-- `../keys`. -/
  keys : D
  /-- The contents of `../secretkey.txt`. -/
  secret : List UInt8

/-- What the path `"../keys/" + id + ".txt"` refers to. -/
def Installation.keyFile {D : Type*} [DecidableEq D] (inst : Installation D) (files : FileSystem D)
    (id : List UInt8) : Target D :=
  files.target inst.keys keysPath.length (id ++ txt)

/-- An id that is part of a file name: it has no slash and no zero. -/
def PlainId (id : List UInt8) : Prop := 47 ∉ id ∧ 0 ∉ id

instance (id : List UInt8) : Decidable (PlainId id) := inferInstanceAs (Decidable (_ ∧ _))

/-- The id matches `[0-9a-zA-Z]+`. -/
def ValidId (id : List UInt8) : Prop := id ≠ [] ∧ ∀ c ∈ id, Alphanumeric c

instance (id : List UInt8) : Decidable (ValidId id) :=
  decidable_of_iff (id ≠ [] ∧ id.all (fun c => decide (Alphanumeric c)) = true) (by
    simp [ValidId, List.all_eq_true])

/-- The name of the key file is not too long: the id has at most 251 characters. -/
def FitsName (id : List UInt8) : Prop := (id ++ txt).length ≤ nameMax

instance (id : List UInt8) : Decidable (FitsName id) := inferInstanceAs (Decidable (_ ≤ _))

theorem fitsName_iff {id : List UInt8} : FitsName id ↔ id.length ≤ 251 := by
  rw [FitsName, List.length_append]
  change id.length + 4 ≤ 255 ↔ id.length ≤ 251
  omega

theorem ValidId.plainId {id : List UInt8} (h : ValidId id) : PlainId id :=
  ⟨fun hc => absurd (h.2 _ hc) (by decide), fun hc => absurd (h.2 _ hc) (by decide)⟩

namespace Installation

variable {D : Type*} [DecidableEq D] (inst : Installation D) {files files' : FileSystem D}
  {id : List UInt8}

theorem keyFile_of_plainId (files : FileSystem D) (h : PlainId id) : inst.keyFile files id =
    if pathMax ≤ keysPath.length + (id ++ txt).length then .tooLong
    else .entry (inst.keys, id ++ txt) := by
  have hlen : 4 ≤ (id ++ txt).length := by simp [txt]
  refine FileSystem.target_name ?_ ?_ ⟨?_, ?_, ?_⟩
  · simpa [txt] using h.2
  · simpa [txt] using h.1
  · rintro he
    simp [he] at hlen
  · rintro he
    simp [he] at hlen
  · rintro he
    simp [he] at hlen

theorem keyFile_eq (files : FileSystem D) (h : PlainId id) (hfits : FitsName id) :
    inst.keyFile files id = .entry (inst.keys, id ++ txt) := by
  have hlong : (id ++ txt).length ≤ 255 := hfits
  rw [keyFile_of_plainId inst files h, if_neg]
  change ¬ 4096 ≤ 8 + (id ++ txt).length
  omega

/-- The path of a plain id is too long, or it is that of a name in the key directory. -/
theorem keyFile_cases (files : FileSystem D) (h : PlainId id) :
    inst.keyFile files id = .tooLong ∨ inst.keyFile files id = .entry (inst.keys, id ++ txt) := by
  rw [keyFile_of_plainId inst files h]
  split_ifs
  · exact .inl rfl
  · exact .inr rfl

theorem eq_of_keyFile_entry (h : PlainId id) {l : D × Name}
    (hl : inst.keyFile files id = .entry l) : l = (inst.keys, id ++ txt) := by
  obtain hlong | hentry := inst.keyFile_cases files h
  · cases hl.symm.trans hlong
  · exact Target.entry.inj (hl.symm.trans hentry)

theorem keyFile_congr (h : files.SameDirectories files') (id : List UInt8) :
    inst.keyFile files' id = inst.keyFile files id := h.target_eq _ _ _

theorem opens_keyFile_iff (h : PlainId id) {l : D × Name} :
    files.opens (inst.keyFile files id) = some l ↔
      l = (inst.keys, id ++ txt) ∧ FitsName id ∧ files.directory l = none := by
  rw [FileSystem.opens_eq_some]
  constructor
  · rintro ⟨hl, hfits, hdir⟩
    obtain rfl := inst.eq_of_keyFile_entry h hl
    exact ⟨rfl, hfits, hdir⟩
  · rintro ⟨rfl, hfits, hdir⟩
    exact ⟨inst.keyFile_eq files h hfits, hfits, hdir⟩

theorem fitsName_of_contents {c : List UInt8}
    (h : files.contents (inst.keys, id ++ txt) = some c) : FitsName id :=
  (FileSystem.opens_eq_some.1 (FileSystem.opens_of_contents h)).2.1

theorem fileExists_keyFile (h : PlainId id) : files.fileExists (inst.keyFile files id) =
    if FitsName id then some (decide ((inst.keys, id ++ txt) ∈ files.tree)) else none := by
  by_cases hfits : FitsName id
  · rw [inst.keyFile_eq files h hfits]
    rfl
  · obtain hlong | hentry := inst.keyFile_cases files h
    · rw [hlong, if_neg hfits]
      rfl
    · rw [hentry]
      rfl

/-- Every id has another one for the same path. -/
theorem keyFile_append_zero (files : FileSystem D) (id : List UInt8) :
    inst.keyFile files (id ++ txt ++ [0]) = inst.keyFile files id := by
  rw [keyFile, keyFile, List.append_assoc]
  exact FileSystem.target_append_zero _ _ _ _

end Installation

/-! ### Requests -/

/-- The handlers. -/
inductive Route where
  | create | get | delete | limit
  deriving DecidableEq

/-- A request: its route, and the contents of the form fields the handlers look for. -/
structure ApiRequest where
  route : Route
  key : Option (List UInt8)
  id : Option (List UInt8)
  limit : Option (List UInt8)
  deriving DecidableEq

/-- The content of a response. -/
inductive Content where
  | none
  /-- An empty object. -/
  | empty
  /-- An object with the keys and the limit. -/
  | keys (moonkey playerkey : List UInt8) (playerlimit : ℕ)
  /-- An object that says `success`. -/
  | success
  deriving DecidableEq

/-- The characters of a text. -/
def ascii (text : String) : List UInt8 := text.toList.map fun c => UInt8.ofNat c.toNat

/-- The JSON text of a content. -/
def Content.text : Content → List UInt8
  | .none => []
  | .empty => ascii "\x7b\x7d"
  | .keys moonkey playerkey playerlimit =>
    ascii "\x7b\"moonkey\": \"" ++ moonkey ++ ascii "\", \"playerkey\": \"" ++ playerkey ++
      ascii "\", \"playerlimit\": " ++ Decimal.print playerlimit ++ ascii "\x7d"
  | .success => ascii "\x7b\"success\": true\x7d"

/-- A response. -/
structure ApiResponse where
  status : ℕ
  content : Content
  deriving DecidableEq

/-- The response to a handler that throws. -/
def ApiResponse.thrown : ApiResponse := ⟨500, .none⟩

/-- The order in which a directory lists its entries. -/
structure ScanOrder where
  arrange : List Name → List Name
  perm : ∀ names, (arrange names).Perm names

/-- What the program does not decide. -/
structure Luck where
  /-- The random strings, in the order they are drawn. -/
  draws : ℕ → RandomString
  /-- The orders of the directory in the two calls of `refreshKeys`. -/
  first : ScanOrder
  second : ScanOrder

instance : Inhabited RandomString := ⟨⟨⟨[48, 48, 48, 48], rfl⟩, alphanumeric_of_all rfl⟩⟩

instance : Inhabited ScanOrder := ⟨⟨fun names => names, .refl⟩⟩

instance : Inhabited Luck := ⟨⟨fun _ => default, default, default⟩⟩

/-- The number of attempts to find a new key. -/
def maxAttempts : ℕ := 1024

/-- The loop that draws a key until it is not taken: the first of `attempts` strings from number
`i` on, and the number of the next string.  The loop gives up after that many. -/
def drawKey (taken : RandomString → Bool) (draws : ℕ → RandomString) :
    ℕ → ℕ → Option (RandomString × ℕ)
  | 0, _ => none
  | attempts + 1, i =>
    if taken (draws i) then drawKey taken draws attempts (i + 1) else some (draws i, i + 1)

theorem not_taken_of_drawKey {taken : RandomString → Bool} {draws : ℕ → RandomString}
    {attempts i j : ℕ} {r : RandomString} (h : drawKey taken draws attempts i = some (r, j)) :
    taken r = false := by
  induction attempts generalizing i with
  | zero => cases h
  | succ attempts ih =>
    rw [drawKey] at h
    split_ifs at h with ht
    · exact ih h
    · obtain ⟨rfl, -⟩ := Prod.mk.inj (Option.some.inj h)
      simpa using ht

/-- The limit of a `/create` request. -/
def createLimit (limit : Option (List UInt8)) : ℕ := limit.elim defaultPlayerLimit playerLimitOf

theorem createLimit_le (limit : Option (List UInt8)) : createLimit limit ≤ intMax := by
  cases limit with
  | none => decide
  | some text => exact playerLimitOf_le text

/-! ### The handlers -/

/-- What the handlers work on. -/
structure ApiServer (D : Type*) [DecidableEq D] where
  files : FileSystem D
  /-- The key table of the relay. -/
  keyManager : KeyManager

/-- The key is one of the two. -/
def AccessKeys.Has (e : AccessKeys) (key : Hash) : Prop := e.moonKey = key ∨ e.playerKey = key

namespace ApiServer

variable {D : Type*} [DecidableEq D] (inst : Installation D) (s : ApiServer D)

/-- `readFile`. -/
def readFile (t : Target D) : List UInt8 := stripLines (s.files.read t)

/-- What `refreshKeys` finds in the directory, in the given order. -/
def scan (names : List Name) : List AccessKeys :=
  names.filterMap fun name => AccessKeys.ofContents (s.readFile (.entry (inst.keys, name)))

/-- `refreshKeys`. -/
def refreshKeys (order : ScanOrder) : ApiServer D :=
  { s with keyManager := ⟨s.scan inst (order.arrange (s.files.entries inst.keys))⟩ }

/-- `writeFile`. -/
def writeFile (t : Target D) (text : List UInt8) : ApiServer D :=
  { s with files := s.files.writeFile t text }

/-- `hasKey` of a random string. -/
def hasKey (r : RandomString) : Bool := s.keyManager.hasKey (convertHash r.bytes)

/-- The two loops of `/create`: the player key and the moon key. -/
def drawKeys (draws : ℕ → RandomString) : Option (RandomString × RandomString) :=
  (drawKey s.hasKey draws maxAttempts 0).bind fun (player, i) =>
    (drawKey (fun moon => s.hasKey moon || decide (moon = player)) draws maxAttempts i).map
      fun (moon, _) => (player, moon)

/-- What the path of an id refers to. -/
def keyFile (id : List UInt8) : Target D := inst.keyFile s.files id

/-- `/create`, when the request has the secret.  Whether the file can be opened is not asked. -/
def create (id : List UInt8) (limit : Option (List UInt8)) (luck : Luck) :
    ApiServer D × Option ApiResponse :=
  let playerLimit := createLimit limit
  let s := s.refreshKeys inst luck.first
  match s.drawKeys luck.draws with
  | none => (s, some ⟨500, .none⟩)
  | some (player, moon) =>
    let s := s.writeFile (s.keyFile inst id) (keyText moon.bytes player.bytes playerLimit)
    (s.refreshKeys inst luck.second, some ⟨200, .keys moon.bytes player.bytes playerLimit⟩)

/-- `/get`, when the request has the secret. -/
def get (id : List UInt8) (luck : Luck) : ApiServer D × Option ApiResponse :=
  let s := s.refreshKeys inst luck.first
  match s.files.fileExists (s.keyFile inst id) with
  | none => (s, none)
  | some false => (s, some ⟨200, .empty⟩)
  | some true =>
    let contents := s.readFile (s.keyFile inst id)
    (s, (moonHashOf contents).bind fun moonHash => (playerHashOf contents).map fun playerHash =>
      ⟨200, .keys moonHash playerHash (reportedLimit contents)⟩)

/-- `/delete`, when the request has the secret. -/
def delete (id : List UInt8) : ApiServer D × Option ApiResponse :=
  match s.files.fileExists (s.keyFile inst id) with
  | none => (s, none)
  | some false => (s, some ⟨500, .none⟩)
  | some true =>
    if ¬ ValidId id then (s, some ⟨400, .none⟩)
    else
      match s.files.remove (s.keyFile inst id) with
      | none => (s, none)
      | some (false, files) => ({ s with files := files }, some ⟨400, .none⟩)
      | some (true, files) => ({ s with files := files }, some ⟨200, .success⟩)

/-- `/limit`, when the request has the secret and a limit. -/
def limit (id : List UInt8) (text : List UInt8) : ApiServer D × Option ApiResponse :=
  match s.files.fileExists (s.keyFile inst id) with
  | none => (s, none)
  | some false => (s, some ⟨500, .none⟩)
  | some true =>
    if ¬ ValidId id then (s, some ⟨400, .none⟩)
    else
      let playerLimit := playerLimitOf text
      let contents := s.readFile (s.keyFile inst id)
      match moonHashOf contents, playerHashOf contents with
      | some moonHash, some playerHash =>
        (s.writeFile (s.keyFile inst id) (keyText moonHash playerHash playerLimit),
          some ⟨200, .keys moonHash playerHash playerLimit⟩)
      | _, _ => (s, none)

/-- The handler of a request that has all fields and the secret. -/
inductive Task where
  | create (id : List UInt8) (limit : Option (List UInt8))
  | get (id : List UInt8)
  | delete (id : List UInt8)
  | limit (id : List UInt8) (text : List UInt8)
  deriving DecidableEq

/-- What the handler is to do, when the request has the fields it needs and the secret. -/
def task (request : ApiRequest) : Option Task :=
  match request.key, request.id with
  | some key, some id =>
    if key ≠ inst.secret then none
    else match request.route with
      | .create => some (.create id request.limit)
      | .get => some (.get id)
      | .delete => some (.delete id)
      | .limit => request.limit.map (.limit id)
  | _, _ => none

/-- Perform a task. -/
def perform (luck : Luck) : Task → ApiServer D × Option ApiResponse
  | .create id limit => s.create inst id limit luck
  | .get id => s.get inst id luck
  | .delete id => s.delete inst id
  | .limit id text => s.limit inst id text

/-- Handle a request: the state after the handler, and the response. -/
def handle (request : ApiRequest) (luck : Luck) : ApiServer D × ApiResponse :=
  match task inst request with
  | none => (s, ⟨511, .none⟩)
  | some t => ((s.perform inst luck t).1, (s.perform inst luck t).2.getD .thrown)

/-! ### The key files and the table -/

/-- What the file with a name in the key directory holds. -/
def keyFiles (name : Name) : Option (List UInt8) := s.files.contents (inst.keys, name)

/-- `refreshKeys` loads the keys from the file with this name. -/
def Loads (name : Name) (e : AccessKeys) : Prop :=
  ∃ c, s.keyFiles inst name = some c ∧ AccessKeys.ofContents (stripLines c) = some e

/-- The table holds what `refreshKeys` would load. -/
def Fresh : Prop :=
  s.keyManager.keys.Perm (s.scan inst (s.files.entries inst.keys))

variable {inst s} {name : Name} {e : AccessKeys} {t : Target D} {text : List UInt8}

theorem readFile_eq {c : List UInt8} (h : s.keyFiles inst name = some c) :
    s.readFile (.entry (inst.keys, name)) = stripLines c := by
  rw [readFile, FileSystem.read_entry h]

theorem exists_of_readFile (h : s.readFile t ≠ []) :
    ∃ l c, t = .entry l ∧ s.files.contents l = some c :=
  FileSystem.exists_of_read fun he => h (by rw [readFile, he]; rfl)

theorem exists_of_playerHashOf {player : List UInt8}
    (h : playerHashOf (s.readFile t) = some player) :
    ∃ l c, t = .entry l ∧ s.files.contents l = some c :=
  exists_of_readFile fun he => by rw [he] at h; cases h

theorem fileExists_of_playerHashOf {player : List UInt8}
    (h : playerHashOf (s.readFile t) = some player) : s.files.fileExists t = some true := by
  obtain ⟨l, c, rfl, hc⟩ := exists_of_playerHashOf h
  exact FileSystem.fileExists_of_contents hc

theorem keyFile_of_keyFiles {id c : List UInt8} (hid : PlainId id)
    (h : s.keyFiles inst (id ++ txt) = some c) :
    s.keyFile inst id = .entry (inst.keys, id ++ txt) :=
  inst.keyFile_eq s.files hid (inst.fitsName_of_contents h)

/-- When there is a player key under a plain id, there is a key file. -/
theorem keyFiles_of_playerHashOf {id player : List UInt8} (hid : PlainId id)
    (h : playerHashOf (s.readFile (s.keyFile inst id)) = some player) :
    ∃ c, s.keyFiles inst (id ++ txt) = some c := by
  obtain ⟨l, c, hl, hc⟩ := exists_of_playerHashOf h
  obtain rfl := inst.eq_of_keyFile_entry hid hl
  exact ⟨c, hc⟩

theorem loads_of_readFile
    (he : AccessKeys.ofContents (s.readFile (.entry (inst.keys, name))) = some e) :
    s.Loads inst name e := by
  obtain ⟨l, c, hl, hc⟩ := exists_of_readFile (s := s) (t := .entry (inst.keys, name))
    fun hnil => by rw [hnil] at he; cases he
  obtain rfl := Target.entry.inj hl
  exact ⟨c, hc, by rwa [readFile_eq hc] at he⟩

theorem mem_scan_entries : e ∈ s.scan inst (s.files.entries inst.keys) ↔
    ∃ name, s.Loads inst name e := by
  rw [scan, List.mem_filterMap]
  constructor
  · rintro ⟨name, -, he⟩
    exact ⟨name, loads_of_readFile he⟩
  · rintro ⟨name, c, hc, he⟩
    exact ⟨name, FileSystem.mem_entries.2 (FileSystem.mem_tree_of_contents hc),
      by rwa [readFile_eq hc]⟩

theorem mem_entries_of_keyFiles (h : (s.keyFiles inst name).isSome = true) :
    name ∈ s.files.entries inst.keys := by
  obtain ⟨c, hc⟩ := Option.isSome_iff_exists.1 h
  exact FileSystem.mem_entries.2 (FileSystem.mem_tree_of_contents hc)

/-- A scan finds nothing under the names that are not those of files. -/
theorem scan_filter (names : List Name) :
    s.scan inst (names.filter fun name => (s.keyFiles inst name).isSome) = s.scan inst names := by
  rw [scan, scan, List.filterMap_filter]
  refine List.filterMap_congr fun name _ => ?_
  split_ifs with hsome
  · rfl
  · refine (Option.eq_none_iff_forall_ne_some.2 fun e he => hsome ?_).symm
    obtain ⟨c, hc, -⟩ := loads_of_readFile he
    rw [hc]
    rfl

theorem scan_perm_of_files {s' : ApiServer D} {names names' : List Name} (hn : names.Nodup)
    (hn' : names'.Nodup)
    (hmem : ∀ name, name ∈ names' ∧ (s'.keyFiles inst name).isSome = true ↔
      name ∈ names ∧ (s.keyFiles inst name).isSome = true)
    (hsame : ∀ name ∈ names, s'.keyFiles inst name = s.keyFiles inst name) :
    (s'.scan inst names').Perm (s.scan inst names) := by
  rw [← scan_filter names, ← scan_filter names']
  have hperm : (names'.filter fun name => (s'.keyFiles inst name).isSome).Perm
      (names.filter fun name => (s.keyFiles inst name).isSome) :=
    (List.perm_ext_iff_of_nodup (hn'.filter _) (hn.filter _)).2 fun name => by
      rw [List.mem_filter, List.mem_filter, hmem]
  refine (hperm.filterMap _).trans (List.Perm.of_eq (List.filterMap_congr fun name hname => ?_))
  have hfile : s'.files.contents (inst.keys, name) = s.files.contents (inst.keys, name) :=
    hsame name (List.mem_filter.1 hname).1
  rw [readFile, readFile, FileSystem.read, FileSystem.read, hfile]

theorem fresh_refreshKeys (order : ScanOrder) : (s.refreshKeys inst order).Fresh inst :=
  (order.perm _).filterMap _

@[simp] theorem files_refreshKeys (order : ScanOrder) :
    (s.refreshKeys inst order).files = s.files := rfl

@[simp] theorem keyFiles_refreshKeys (order : ScanOrder) (name : Name) :
    (s.refreshKeys inst order).keyFiles inst name = s.keyFiles inst name := rfl

@[simp] theorem keyFile_refreshKeys (order : ScanOrder) (id : List UInt8) :
    (s.refreshKeys inst order).keyFile inst id = s.keyFile inst id := rfl

@[simp] theorem readFile_refreshKeys (order : ScanOrder) (t : Target D) :
    (s.refreshKeys inst order).readFile t = s.readFile t := rfl

@[simp] theorem keyFile_writeFile (t : Target D) (text id : List UInt8) :
    (s.writeFile t text).keyFile inst id = s.keyFile inst id :=
  inst.keyFile_congr (FileSystem.sameDirectories_writeFile t text) id

theorem keyFiles_writeFile (name : Name) : (s.writeFile t text).keyFiles inst name =
    if s.files.opens t = some (inst.keys, name) then some text else s.keyFiles inst name :=
  FileSystem.contents_writeFile t text _

theorem Fresh.mem_keys (h : s.Fresh inst) :
    e ∈ s.keyManager.keys ↔ ∃ name, s.Loads inst name e := by
  rw [h.mem_iff, mem_scan_entries]

/-- In a fresh table a key is found exactly if a key file has it. -/
theorem Fresh.hasKey_iff (h : s.Fresh inst) {key : Hash} : s.keyManager.hasKey key = true ↔
    ∃ name e, s.Loads inst name e ∧ e.Has key := by
  simp only [KeyManager.hasKey, KeyManager.find, List.find?_isSome, Bool.or_eq_true, beq_iff_eq,
    h.mem_keys, AccessKeys.Has]
  constructor
  · rintro ⟨e, ⟨name, hl⟩, hk⟩
    exact ⟨name, e, hl, hk⟩
  · rintro ⟨name, e, hl, hk⟩
    exact ⟨e, ⟨name, hl⟩, hk⟩

/-- The keys that were drawn are not in the table, and differ. -/
theorem drawKeys_spec {draws : ℕ → RandomString} {player moon : RandomString}
    (h : s.drawKeys draws = some (player, moon)) :
    s.hasKey player = false ∧ s.hasKey moon = false ∧ moon ≠ player := by
  obtain ⟨⟨r, i⟩, hplayer, h⟩ := Option.bind_eq_some_iff.1 h
  obtain ⟨⟨r', j⟩, hmoon, h⟩ := Option.map_eq_some_iff.1 h
  obtain ⟨rfl, rfl⟩ := Prod.mk.inj h
  have hm := not_taken_of_drawKey hmoon
  rw [Bool.or_eq_false_iff, decide_eq_false_iff_not] at hm
  exact ⟨not_taken_of_drawKey hplayer, hm.1, hm.2⟩

/-! ### What a task does -/

/-- How a task can end: the state after it, and its response. -/
inductive TaskResult (inst : Installation D) (s : ApiServer D) (luck : Luck) :
    Task → ApiServer D → Option ApiResponse → Prop
  | noKeys (id : List UInt8) (limit : Option (List UInt8)) :
      (s.refreshKeys inst luck.first).drawKeys luck.draws = none →
      TaskResult inst s luck (.create id limit) (s.refreshKeys inst luck.first)
        (some ⟨500, .none⟩)
  | created (id : List UInt8) (limit : Option (List UInt8)) (player moon : RandomString) :
      (s.refreshKeys inst luck.first).drawKeys luck.draws = some (player, moon) →
      TaskResult inst s luck (.create id limit)
        (((s.refreshKeys inst luck.first).writeFile (s.keyFile inst id)
          (keyText moon.bytes player.bytes (createLimit limit))).refreshKeys inst luck.second)
        (some ⟨200, .keys moon.bytes player.bytes (createLimit limit)⟩)
  | getRefused (id : List UInt8) : s.files.fileExists (s.keyFile inst id) = none →
      TaskResult inst s luck (.get id) (s.refreshKeys inst luck.first) none
  | getNothing (id : List UInt8) : s.files.fileExists (s.keyFile inst id) = some false →
      TaskResult inst s luck (.get id) (s.refreshKeys inst luck.first) (some ⟨200, .empty⟩)
  | got (id moon player : List UInt8) : s.files.fileExists (s.keyFile inst id) = some true →
      moonHashOf (s.readFile (s.keyFile inst id)) = some moon →
      playerHashOf (s.readFile (s.keyFile inst id)) = some player →
      TaskResult inst s luck (.get id) (s.refreshKeys inst luck.first)
        (some ⟨200, .keys moon player (reportedLimit (s.readFile (s.keyFile inst id)))⟩)
  | getThrows (id : List UInt8) : s.files.fileExists (s.keyFile inst id) = some true →
      playerHashOf (s.readFile (s.keyFile inst id)) = none →
      TaskResult inst s luck (.get id) (s.refreshKeys inst luck.first) none
  | deleteRefused (id : List UInt8) : s.files.fileExists (s.keyFile inst id) = none →
      TaskResult inst s luck (.delete id) s none
  | deleteNothing (id : List UInt8) : s.files.fileExists (s.keyFile inst id) = some false →
      TaskResult inst s luck (.delete id) s (some ⟨500, .none⟩)
  | deleteInvalid (id : List UInt8) : s.files.fileExists (s.keyFile inst id) = some true →
      ¬ ValidId id → TaskResult inst s luck (.delete id) s (some ⟨400, .none⟩)
  | deleted (id : List UInt8) (files : FileSystem D) : ValidId id →
      s.files.fileExists (s.keyFile inst id) = some true →
      s.files.remove (s.keyFile inst id) = some (true, files) →
      TaskResult inst s luck (.delete id) { s with files := files } (some ⟨200, .success⟩)
  | deleteThrows (id : List UInt8) : ValidId id →
      s.files.fileExists (s.keyFile inst id) = some true →
      s.files.remove (s.keyFile inst id) = none → TaskResult inst s luck (.delete id) s none
  | limitRefused (id text : List UInt8) : s.files.fileExists (s.keyFile inst id) = none →
      TaskResult inst s luck (.limit id text) s none
  | limitNothing (id text : List UInt8) : s.files.fileExists (s.keyFile inst id) = some false →
      TaskResult inst s luck (.limit id text) s (some ⟨500, .none⟩)
  | limitInvalid (id text : List UInt8) : s.files.fileExists (s.keyFile inst id) = some true →
      ¬ ValidId id → TaskResult inst s luck (.limit id text) s (some ⟨400, .none⟩)
  | limited (id text moon player : List UInt8) : ValidId id →
      s.files.fileExists (s.keyFile inst id) = some true →
      moonHashOf (s.readFile (s.keyFile inst id)) = some moon →
      playerHashOf (s.readFile (s.keyFile inst id)) = some player →
      TaskResult inst s luck (.limit id text)
        (s.writeFile (s.keyFile inst id) (keyText moon player (playerLimitOf text)))
        (some ⟨200, .keys moon player (playerLimitOf text)⟩)
  | limitThrows (id text : List UInt8) : ValidId id →
      s.files.fileExists (s.keyFile inst id) = some true →
      playerHashOf (s.readFile (s.keyFile inst id)) = none →
      TaskResult inst s luck (.limit id text) s none

theorem perform_result (s : ApiServer D) (luck : Luck) (t : Task) :
    TaskResult inst s luck t (s.perform inst luck t).1 (s.perform inst luck t).2 := by
  cases t with
  | create id limit =>
    simp only [perform, create]
    cases hdraw : (s.refreshKeys inst luck.first).drawKeys luck.draws with
    | none => exact .noKeys id limit hdraw
    | some keys => exact .created id limit keys.1 keys.2 hdraw
  | get id =>
    simp only [perform, get, files_refreshKeys, keyFile_refreshKeys, readFile_refreshKeys]
    rcases hexists : s.files.fileExists (s.keyFile inst id) with _ | _ | _
    · exact .getRefused id hexists
    · exact .getNothing id hexists
    · rw [moonHashOf_eq, Option.bind_some]
      cases hplayer : playerHashOf (s.readFile (s.keyFile inst id)) with
      | none => exact .getThrows id hexists hplayer
      | some player => exact .got id _ player hexists (moonHashOf_eq _) hplayer
  | delete id =>
    simp only [perform, delete]
    rcases hexists : s.files.fileExists (s.keyFile inst id) with _ | _ | _
    · exact .deleteRefused id hexists
    · exact .deleteNothing id hexists
    · by_cases hid : ValidId id
      · simp only [hid, not_true_eq_false, if_false]
        rcases hremove : s.files.remove (s.keyFile inst id) with _ | ⟨removed, files⟩
        · exact .deleteThrows id hid hexists hremove
        · obtain rfl := FileSystem.remove_of_exists hremove hexists
          exact .deleted id files hid hexists hremove
      · simp only [hid, not_false_eq_true, if_true]
        exact .deleteInvalid id hexists hid
  | limit id text =>
    simp only [perform, limit]
    rcases hexists : s.files.fileExists (s.keyFile inst id) with _ | _ | _
    · exact .limitRefused id text hexists
    · exact .limitNothing id text hexists
    · by_cases hid : ValidId id
      · simp only [hid, not_true_eq_false, if_false]
        rw [moonHashOf_eq]
        cases hplayer : playerHashOf (s.readFile (s.keyFile inst id)) with
        | none => exact .limitThrows id text hid hexists hplayer
        | some player => exact .limited id text _ player hid hexists (moonHashOf_eq _) hplayer
      · simp only [hid, not_false_eq_true, if_true]
        exact .limitInvalid id text hexists hid

theorem TaskResult.perform_eq {luck : Luck} {t : Task} {s' : ApiServer D}
    {response : Option ApiResponse} (h : TaskResult inst s luck t s' response) :
    s.perform inst luck t = (s', response) := by
  cases h with
  | noKeys id limit hdraw | created id limit player moon hdraw =>
    simp only [perform, create, hdraw, keyFile_refreshKeys]
  | getRefused id hexists | getNothing id hexists => simp [perform, get, hexists]
  | got id moon player hexists hmoon hplayer => simp [perform, get, hexists, hmoon, hplayer]
  | getThrows id hexists hplayer => simp [perform, get, hexists, moonHashOf_eq, hplayer]
  | deleteRefused id hexists | deleteNothing id hexists => simp [perform, delete, hexists]
  | deleteInvalid id hexists hid => simp [perform, delete, hexists, hid]
  | deleted id files hid hexists hremove => simp [perform, delete, hexists, hid, hremove]
  | deleteThrows id hid hexists hremove => simp [perform, delete, hexists, hid, hremove]
  | limitRefused id text hexists | limitNothing id text hexists => simp [perform, limit, hexists]
  | limitInvalid id text hexists hid => simp [perform, limit, hexists, hid]
  | limited id text moon player hid hexists hmoon hplayer =>
    simp [perform, limit, hexists, hid, hmoon, hplayer]
  | limitThrows id text hid hexists hplayer =>
    simp [perform, limit, hexists, hid, moonHashOf_eq, hplayer]

end ApiServer

/-! ### The machine -/

/-- A request, with the luck it meets. -/
structure ApiCall where
  request : ApiRequest
  luck : Luck

/-- The state between two requests, with the responses so far, newest first. -/
structure ApiWorld (D : Type*) [DecidableEq D] where
  server : ApiServer D
  answers : List ApiResponse

/-- The constructor of `KeyManager` scans the directory. -/
def ApiServer.start {D : Type*} [DecidableEq D] (inst : Installation D) (files : FileSystem D)
    (order : ScanOrder) : ApiServer D :=
  ApiServer.refreshKeys inst ⟨files, ⟨[]⟩⟩ order

/-- One request after the other. -/
def apiServer {D : Type*} [DecidableEq D] (inst : Installation D) (start : ApiServer D) :
    Machine (ApiWorld D) ApiCall where
  init := ⟨start, []⟩
  next w call := some
    ⟨(w.server.handle inst call.request call.luck).1,
      (w.server.handle inst call.request call.luck).2 :: w.answers⟩

/-! ### An installation for the examples -/

/-- One directory, which has the key files; the secret is "s". -/
def oneDirectory : Installation Unit where
  keys := ()
  secret := [115]

/-- A file system without files. -/
def noFiles : FileSystem Unit where
  tree := ∅
  parent d := d
  nextInode := 0
  name_le _ _ h := by cases h
  inode_lt _ _ h := by cases h

/-- The id "a". -/
def exampleId : List UInt8 := [97]

/-- The key directory with the file of `exampleId`, and the table that was loaded from it. -/
def oneFile (contents : List UInt8) : ApiServer Unit :=
  .start oneDirectory (noFiles.put ((), exampleId ++ txt) ⟨0, contents⟩) default

theorem keyFiles_oneFile (contents : List UInt8) :
    (oneFile contents).keyFiles oneDirectory (exampleId ++ txt) = some contents := rfl

/-- The random strings "0000", then always "1111". -/
def exampleLuck : Luck where
  draws i := if i = 0 then default else ⟨⟨[49, 49, 49, 49], rfl⟩, alphanumeric_of_all rfl⟩
  first := default
  second := default

/-- The API when the program starts without files. -/
def emptyApi : Machine (ApiWorld Unit) ApiCall :=
  apiServer oneDirectory (.start oneDirectory noFiles default)

/-- The request `/create` for `exampleId`. -/
def createCall : ApiCall := ⟨⟨.create, some oneDirectory.secret, some exampleId, none⟩, exampleLuck⟩

/-- The state after `createCall`. -/
def createdWorld : ApiWorld Unit := (emptyApi.run emptyApi.init [createCall]).get (by rfl)

theorem createdWorld_reachable : emptyApi.Reachable createdWorld :=
  .of_run (Option.some_get _).symm

end MoonJamRelay
