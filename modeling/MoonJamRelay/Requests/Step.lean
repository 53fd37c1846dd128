import MoonJamRelay.Requests.State

/-!
# The steps of concurrent requests

* `ApiSystem.stepExec` : the next step of a handler, from the source.
* `ApiSystem.next` : the step a label names.  A label says which request arrives, or which handler
  steps, with the directory entry it reads or the random string it draws.
* `apiSystem` : the machine.
* `ApiSystem.HandlerStep` : what a step of a handler can do; `handlerStep_of_next` is the inversion.

An entry can be read when it was not read before.  When it is not there any more it reads as an
empty file, which is skipped; so an entry that others add or remove during the scan can be read or
not.  A directory reads as an empty file too.  The scan ends when all files were read that have been
in the directory all the time.
-/

namespace MoonJamRelay

/-- What happens next. -/
inductive RequestLabel where
  /-- The HTTP library calls the handler of a request. -/
  | begin (request : ApiRequest)
  /-- A scan reads an entry of the directory. -/
  | entry (n : ℕ) (name : Name)
  /-- `/create` draws a random string. -/
  | draw (n : ℕ) (r : RandomString)
  /-- A handler takes any other step. -/
  | step (n : ℕ)
  deriving DecidableEq

/-- Where a handler begins; a request without the fields or the secret is answered. -/
def HandlerPc.start {D : Type*} : Option ApiServer.Task → HandlerPc D
  | none => .answered ⟨511, .none⟩
  | some (.create id limit) => .refresh (.draw id limit)
  | some (.get id) => .refresh (.get id)
  | some (.delete id) => .deleteExists id
  | some (.limit id text) => .limitExists id text

/-- Where a handler goes on after `refreshKeys`. -/
def AfterRefresh.pc {D : Type*} : AfterRefresh → HandlerPc D
  | draw id limit => .drawPlayer id limit maxAttempts
  | get id => .getExists id
  | answer response _ => .answered response

/-- Read an entry. -/
def Scan.read (scan : Scan) (name : Name) (contents : List UInt8) : Scan :=
  { scan with
    seen := name :: scan.seen
    keys := scan.keys ++ (AccessKeys.ofContents contents).toList }

/-- The text of the keys. -/
def KeyPair.text (keys : KeyPair) (limit : Option (List UInt8)) : List UInt8 :=
  keyText keys.moonHash.bytes keys.playerHash.bytes (createLimit limit)

/-- The response that reports the keys. -/
def KeyPair.report (keys : KeyPair) (limit : Option (List UInt8)) : ApiResponse :=
  ⟨200, .keys keys.moonHash.bytes keys.playerHash.bytes (createLimit limit)⟩

namespace ApiSystem

variable {D : Type*} [DecidableEq D] (inst : Installation D) (s : ApiSystem D)

/-- The files of the key directory, with their inodes. -/
def entries : List (Name × ℕ) :=
  (s.files.entries inst.keys).filterMap fun name =>
    (s.files.inode (inst.keys, name)).map fun inode => (name, inode)

/-- All entries that are still those from the start of the scan were read. -/
def Complete (scan : Scan) : Prop :=
  ∀ entry ∈ scan.start, entry ∈ s.entries inst → entry.1 ∈ scan.seen

instance (scan : Scan) : Decidable (s.Complete inst scan) :=
  inferInstanceAs (Decidable (∀ _ ∈ _, _ → _))

/-- What the path of an id refers to. -/
def keyFile (id : List UInt8) : Target D := inst.keyFile s.files id

/-- Open a file for output, and go on at its `write`. -/
def openWrite (n : ℕ) (t : Target D) (content : List UInt8) (next : AfterWrite) : ApiSystem D :=
  { s with files := (s.files.openTruncate t).1 }.goto n
    (.write (s.files.openTruncate t).2 content next)

/-- The next step of a handler. -/
def stepExec (n : ℕ) : Option (ApiSystem D) :=
  match s.pc n with
  | .absent | .drawPlayer .. | .drawMoon .. | .answered _ => none
  | .refresh next =>
    some ({ s with scans := s.scans + 1 }.goto n (.scan ⟨s.entries inst, [], [], s.scans⟩ next))
  | .scan scan next => if s.Complete inst scan then some (s.goto n (.swap scan next)) else none
  | .swap scan next =>
    let recorded := match next with
      | .answer _ written => max s.recorded written
      | _ => s.recorded
    some ({ s with keyManager := ⟨scan.keys⟩, recorded := recorded }.goto n next.pc)
  | .createOpen id limit keys =>
    some (s.openWrite n (s.keyFile inst id) (keys.text limit) (.refresh (keys.report limit)))
  | .getExists id =>
    some (s.goto n (match s.files.fileExists (s.keyFile inst id) with
      | none => .answered .thrown
      | some false => .answered ⟨200, .empty⟩
      | some true => .getRead id))
  | .getRead id =>
    let contents := s.server.readFile (s.keyFile inst id)
    let response := (moonHashOf contents).bind fun moonHash =>
      (playerHashOf contents).map fun playerHash =>
        (⟨200, .keys moonHash playerHash (reportedLimit contents)⟩ : ApiResponse)
    some (s.goto n (.answered (response.getD .thrown)))
  | .deleteExists id =>
    some (s.goto n (match s.files.fileExists (s.keyFile inst id) with
      | none => .answered .thrown
      | some false => .answered ⟨500, .none⟩
      | some true => if h : ValidId id then .deleteRemove ⟨id, h⟩ else .answered ⟨400, .none⟩))
  | .deleteRemove id =>
    match s.files.remove (s.keyFile inst id.id) with
    | none => some (s.goto n (.answered .thrown))
    | some (removed, files) =>
      some ({ s with files := files }.goto n
        (.answered (if removed then ⟨200, .success⟩ else ⟨400, .none⟩)))
  | .limitExists id text =>
    some (s.goto n (match s.files.fileExists (s.keyFile inst id) with
      | none => .answered .thrown
      | some false => .answered ⟨500, .none⟩
      | some true => if h : ValidId id then .limitRead ⟨id, h⟩ text else .answered ⟨400, .none⟩))
  | .limitRead id text =>
    let contents := s.server.readFile (s.keyFile inst id.id)
    some (s.goto n (match moonHashOf contents, playerHashOf contents with
      | some moonHash, some playerHash => .limitOpen id text moonHash playerHash
      | _, _ => .answered .thrown))
  | .limitOpen id text moonHash playerHash =>
    some (s.openWrite n (s.keyFile inst id.id) (keyText moonHash playerHash (playerLimitOf text))
      (.answer ⟨200, .keys moonHash playerHash (playerLimitOf text)⟩))
  | .write fd content next =>
    let pc := match next with
      | .refresh response => HandlerPc.refresh (.answer response s.scans)
      | .answer response => .answered response
    some ({ s with files := s.files.write fd content }.goto n pc)

/-- A handler reads an entry of the directory. -/
def entryExec (n : ℕ) (name : Name) : Option (ApiSystem D) :=
  match s.pc n with
  | .scan scan next =>
    if name ∈ scan.seen then none
    else some (s.goto n
      (.scan (scan.read name (s.server.readFile (.entry (inst.keys, name)))) next))
  | _ => none

/-- A handler draws a key. -/
def drawExec (n : ℕ) (r : RandomString) : Option (ApiSystem D) :=
  match s.pc n with
  | .drawPlayer _ _ 0 | .drawMoon _ _ _ 0 => some (s.goto n (.answered ⟨500, .none⟩))
  | .drawPlayer id limit (attempts + 1) =>
    some (s.goto n (if s.server.hasKey r then .drawPlayer id limit attempts
      else .drawMoon id limit r maxAttempts))
  | .drawMoon id limit playerHash (attempts + 1) =>
    some (s.goto n (if h : s.server.hasKey r = true ∨ r = playerHash then
        .drawMoon id limit playerHash attempts
      else .createOpen id limit ⟨r, playerHash, fun he => h (.inr he)⟩))
  | _ => none

/-- A request arrives. -/
def arrive (request : ApiRequest) : ApiSystem D :=
  { s with
    handlers := Function.update s.handlers s.begun ⟨request, .start (ApiServer.task inst request)⟩
    begun := s.begun + 1 }

/-- The state after a step. -/
def next : RequestLabel → Option (ApiSystem D)
  | .begin request => some (s.arrive inst request)
  | .entry n name => s.entryExec inst n name
  | .draw n r => s.drawExec n r
  | .step n => s.stepExec inst n

/-- The state before the first request. -/
def init (start : ApiServer D) : ApiSystem D :=
  ⟨start.files, start.keyManager, 0, fun _ => .none, 0, 0⟩

end ApiSystem

/-- All handlers as a machine. -/
def apiSystem {D : Type*} [DecidableEq D] (inst : Installation D) (start : ApiServer D) :
    Machine (ApiSystem D) RequestLabel where
  init := .init start
  next s := s.next inst

namespace ApiSystem

variable {D : Type*} [DecidableEq D] {inst : Installation D} {s s' : ApiSystem D}

/-- The steps of the handler `n`. -/
inductive HandlerStep (inst : Installation D) (s : ApiSystem D) (n : ℕ) :
    RequestLabel → ApiSystem D → Prop
  | refresh (next : AfterRefresh) : s.pc n = .refresh next →
      HandlerStep inst s n (.step n)
        ({ s with scans := s.scans + 1 }.goto n (.scan ⟨s.entries inst, [], [], s.scans⟩ next))
  | entry (scan : Scan) (next : AfterRefresh) (name : Name) : s.pc n = .scan scan next →
      name ∉ scan.seen → HandlerStep inst s n (.entry n name) (s.goto n
        (.scan (scan.read name (s.server.readFile (.entry (inst.keys, name)))) next))
  | complete (scan : Scan) (next : AfterRefresh) : s.pc n = .scan scan next →
      s.Complete inst scan → HandlerStep inst s n (.step n) (s.goto n (.swap scan next))
  | swap (scan : Scan) (next : AfterRefresh) : s.pc n = .swap scan next →
      (∀ response written, next ≠ .answer response written) →
      HandlerStep inst s n (.step n) ({ s with keyManager := ⟨scan.keys⟩ }.goto n next.pc)
  | lastSwap (scan : Scan) (response : ApiResponse) (written : ℕ) :
      s.pc n = .swap scan (.answer response written) → HandlerStep inst s n (.step n)
        ({ s with keyManager := ⟨scan.keys⟩, recorded := max s.recorded written }.goto n
          (.answered response))
  | noPlayer (id : List UInt8) (limit : Option (List UInt8)) (r : RandomString) :
      s.pc n = .drawPlayer id limit 0 →
      HandlerStep inst s n (.draw n r) (s.goto n (.answered ⟨500, .none⟩))
  | takenPlayer (id : List UInt8) (limit : Option (List UInt8)) (k : ℕ) (r : RandomString) :
      s.pc n = .drawPlayer id limit (k + 1) → s.server.hasKey r = true →
      HandlerStep inst s n (.draw n r) (s.goto n (.drawPlayer id limit k))
  | player (id : List UInt8) (limit : Option (List UInt8)) (k : ℕ) (r : RandomString) :
      s.pc n = .drawPlayer id limit (k + 1) → s.server.hasKey r = false →
      HandlerStep inst s n (.draw n r) (s.goto n (.drawMoon id limit r maxAttempts))
  | noMoon (id : List UInt8) (limit : Option (List UInt8)) (playerHash r : RandomString) :
      s.pc n = .drawMoon id limit playerHash 0 →
      HandlerStep inst s n (.draw n r) (s.goto n (.answered ⟨500, .none⟩))
  | takenMoon (id : List UInt8) (limit : Option (List UInt8)) (playerHash : RandomString) (k : ℕ)
      (r : RandomString) : s.pc n = .drawMoon id limit playerHash (k + 1) →
      s.server.hasKey r = true ∨ r = playerHash →
      HandlerStep inst s n (.draw n r) (s.goto n (.drawMoon id limit playerHash k))
  | moon (id : List UInt8) (limit : Option (List UInt8)) (keys : KeyPair) (k : ℕ) :
      s.pc n = .drawMoon id limit keys.playerHash (k + 1) → s.server.hasKey keys.moonHash = false →
      HandlerStep inst s n (.draw n keys.moonHash) (s.goto n (.createOpen id limit keys))
  | createOpen (id : List UInt8) (limit : Option (List UInt8)) (keys : KeyPair) :
      s.pc n = .createOpen id limit keys → HandlerStep inst s n (.step n)
        (s.openWrite n (s.keyFile inst id) (keys.text limit) (.refresh (keys.report limit)))
  | getRefused (id : List UInt8) : s.pc n = .getExists id →
      s.files.fileExists (s.keyFile inst id) = none →
      HandlerStep inst s n (.step n) (s.goto n (.answered .thrown))
  | getNothing (id : List UInt8) : s.pc n = .getExists id →
      s.files.fileExists (s.keyFile inst id) = some false →
      HandlerStep inst s n (.step n) (s.goto n (.answered ⟨200, .empty⟩))
  | getFile (id : List UInt8) : s.pc n = .getExists id →
      s.files.fileExists (s.keyFile inst id) = some true →
      HandlerStep inst s n (.step n) (s.goto n (.getRead id))
  | got (id moonHash playerHash : List UInt8) : s.pc n = .getRead id →
      moonHashOf (s.server.readFile (s.keyFile inst id)) = some moonHash →
      playerHashOf (s.server.readFile (s.keyFile inst id)) = some playerHash →
      HandlerStep inst s n (.step n) (s.goto n (.answered ⟨200, .keys moonHash playerHash
        (reportedLimit (s.server.readFile (s.keyFile inst id)))⟩))
  | getThrows (id : List UInt8) : s.pc n = .getRead id →
      playerHashOf (s.server.readFile (s.keyFile inst id)) = none →
      HandlerStep inst s n (.step n) (s.goto n (.answered .thrown))
  | deleteRefused (id : List UInt8) : s.pc n = .deleteExists id →
      s.files.fileExists (s.keyFile inst id) = none →
      HandlerStep inst s n (.step n) (s.goto n (.answered .thrown))
  | deleteNothing (id : List UInt8) : s.pc n = .deleteExists id →
      s.files.fileExists (s.keyFile inst id) = some false →
      HandlerStep inst s n (.step n) (s.goto n (.answered ⟨500, .none⟩))
  | deleteInvalid (id : List UInt8) : s.pc n = .deleteExists id →
      s.files.fileExists (s.keyFile inst id) = some true → ¬ ValidId id →
      HandlerStep inst s n (.step n) (s.goto n (.answered ⟨400, .none⟩))
  | deleteFile (id : SafeId) : s.pc n = .deleteExists id.id →
      s.files.fileExists (s.keyFile inst id.id) = some true →
      HandlerStep inst s n (.step n) (s.goto n (.deleteRemove id))
  | deleteRemove (id : SafeId) (removed : Bool) (files : FileSystem D) :
      s.pc n = .deleteRemove id → s.files.remove (s.keyFile inst id.id) = some (removed, files) →
      HandlerStep inst s n (.step n) ({ s with files := files }.goto n
        (.answered (if removed then ⟨200, .success⟩ else ⟨400, .none⟩)))
  | deleteThrows (id : SafeId) : s.pc n = .deleteRemove id →
      s.files.remove (s.keyFile inst id.id) = none →
      HandlerStep inst s n (.step n) (s.goto n (.answered .thrown))
  | limitRefused (id text : List UInt8) : s.pc n = .limitExists id text →
      s.files.fileExists (s.keyFile inst id) = none →
      HandlerStep inst s n (.step n) (s.goto n (.answered .thrown))
  | limitNothing (id text : List UInt8) : s.pc n = .limitExists id text →
      s.files.fileExists (s.keyFile inst id) = some false →
      HandlerStep inst s n (.step n) (s.goto n (.answered ⟨500, .none⟩))
  | limitInvalid (id text : List UInt8) : s.pc n = .limitExists id text →
      s.files.fileExists (s.keyFile inst id) = some true → ¬ ValidId id →
      HandlerStep inst s n (.step n) (s.goto n (.answered ⟨400, .none⟩))
  | limitFile (id : SafeId) (text : List UInt8) : s.pc n = .limitExists id.id text →
      s.files.fileExists (s.keyFile inst id.id) = some true →
      HandlerStep inst s n (.step n) (s.goto n (.limitRead id text))
  | limitRead (id : SafeId) (text moonHash playerHash : List UInt8) : s.pc n = .limitRead id text →
      moonHashOf (s.server.readFile (s.keyFile inst id.id)) = some moonHash →
      playerHashOf (s.server.readFile (s.keyFile inst id.id)) = some playerHash →
      HandlerStep inst s n (.step n) (s.goto n (.limitOpen id text moonHash playerHash))
  | limitThrows (id : SafeId) (text : List UInt8) : s.pc n = .limitRead id text →
      playerHashOf (s.server.readFile (s.keyFile inst id.id)) = none →
      HandlerStep inst s n (.step n) (s.goto n (.answered .thrown))
  | limitOpen (id : SafeId) (text moonHash playerHash : List UInt8) :
      s.pc n = .limitOpen id text moonHash playerHash → HandlerStep inst s n (.step n)
        (s.openWrite n (s.keyFile inst id.id) (keyText moonHash playerHash (playerLimitOf text))
          (.answer ⟨200, .keys moonHash playerHash (playerLimitOf text)⟩))
  | writeCreate (fd : Option (Descriptor D)) (content : List UInt8) (response : ApiResponse) :
      s.pc n = .write fd content (.refresh response) → HandlerStep inst s n (.step n)
        ({ s with files := s.files.write fd content }.goto n
          (.refresh (.answer response s.scans)))
  | writeLimit (fd : Option (Descriptor D)) (content : List UInt8) (response : ApiResponse) :
      s.pc n = .write fd content (.answer response) → HandlerStep inst s n (.step n)
        ({ s with files := s.files.write fd content }.goto n (.answered response))

theorem handlerStep_of_stepExec {n : ℕ} (h : s.stepExec inst n = some s') :
    HandlerStep inst s n (.step n) s' := by
  unfold stepExec at h
  cases hpc : s.pc n with
  | absent | drawPlayer | drawMoon | answered =>
    rw [hpc] at h
    cases h
  | refresh next =>
    rw [hpc] at h
    obtain rfl := Option.some.inj h
    exact .refresh next hpc
  | scan scan next =>
    simp only [hpc] at h
    split_ifs at h with hcomplete
    obtain rfl := Option.some.inj h
    exact .complete scan next hpc hcomplete
  | swap scan next =>
    rw [hpc] at h
    obtain rfl := Option.some.inj h
    cases next with
    | draw | get => exact .swap scan _ hpc fun _ _ he => by cases he
    | answer response written => exact .lastSwap scan response written hpc
  | createOpen id limit keys =>
    rw [hpc] at h
    obtain rfl := Option.some.inj h
    exact .createOpen id limit keys hpc
  | getExists id =>
    simp only [hpc] at h
    obtain rfl := Option.some.inj h
    rcases hexists : s.files.fileExists (s.keyFile inst id) with _ | _ | _
    · exact .getRefused id hpc hexists
    · exact .getNothing id hpc hexists
    · exact .getFile id hpc hexists
  | getRead id =>
    rw [hpc] at h
    obtain rfl := Option.some.inj h
    cases hplayer : playerHashOf (s.server.readFile (s.keyFile inst id)) with
    | none =>
      rw [moonHashOf_eq]
      exact .getThrows id hpc hplayer
    | some playerHash =>
      rw [moonHashOf_eq]
      exact .got id _ playerHash hpc (moonHashOf_eq _) hplayer
  | deleteExists id =>
    simp only [hpc] at h
    obtain rfl := Option.some.inj h
    rcases hexists : s.files.fileExists (s.keyFile inst id) with _ | _ | _
    · exact .deleteRefused id hpc hexists
    · exact .deleteNothing id hpc hexists
    · by_cases hid : ValidId id
      · simp only [dif_pos hid]
        exact .deleteFile ⟨id, hid⟩ hpc hexists
      · simp only [dif_neg hid]
        exact .deleteInvalid id hpc hexists hid
  | deleteRemove id =>
    simp only [hpc] at h
    rcases hremove : s.files.remove (s.keyFile inst id.id) with _ | ⟨removed, files⟩
    · rw [hremove] at h
      obtain rfl := Option.some.inj h
      exact .deleteThrows id hpc hremove
    · rw [hremove] at h
      obtain rfl := Option.some.inj h
      exact .deleteRemove id removed files hpc hremove
  | limitExists id text =>
    simp only [hpc] at h
    obtain rfl := Option.some.inj h
    rcases hexists : s.files.fileExists (s.keyFile inst id) with _ | _ | _
    · exact .limitRefused id text hpc hexists
    · exact .limitNothing id text hpc hexists
    · by_cases hid : ValidId id
      · simp only [dif_pos hid]
        exact .limitFile ⟨id, hid⟩ text hpc hexists
      · simp only [dif_neg hid]
        exact .limitInvalid id text hpc hexists hid
  | limitRead id text =>
    rw [hpc] at h
    obtain rfl := Option.some.inj h
    cases hplayer : playerHashOf (s.server.readFile (s.keyFile inst id.id)) with
    | none =>
      rw [moonHashOf_eq]
      exact .limitThrows id text hpc hplayer
    | some playerHash =>
      rw [moonHashOf_eq]
      exact .limitRead id text _ playerHash hpc (moonHashOf_eq _) hplayer
  | limitOpen id text moonHash playerHash =>
    rw [hpc] at h
    obtain rfl := Option.some.inj h
    exact .limitOpen id text moonHash playerHash hpc
  | write fd content next =>
    rw [hpc] at h
    obtain rfl := Option.some.inj h
    cases next with
    | refresh response => exact .writeCreate fd content response hpc
    | answer response => exact .writeLimit fd content response hpc

theorem handlerStep_of_entryExec {n : ℕ} {name : Name} (h : s.entryExec inst n name = some s') :
    HandlerStep inst s n (.entry n name) s' := by
  unfold entryExec at h
  split at h
  · rename_i scan next hpc
    split_ifs at h with hseen
    obtain rfl := Option.some.inj h
    exact .entry scan next name hpc hseen
  · cases h

theorem handlerStep_of_drawExec {n : ℕ} {r : RandomString} (h : s.drawExec n r = some s') :
    HandlerStep inst s n (.draw n r) s' := by
  unfold drawExec at h
  split at h
  · rename_i id limit hpc
    obtain rfl := Option.some.inj h
    exact .noPlayer id limit r hpc
  · rename_i id limit playerHash hpc
    obtain rfl := Option.some.inj h
    exact .noMoon id limit playerHash r hpc
  · rename_i id limit k hpc
    obtain rfl := Option.some.inj h
    split_ifs with htaken
    · exact .takenPlayer id limit k r hpc htaken
    · exact .player id limit k r hpc (Bool.eq_false_iff.2 htaken)
  · rename_i id limit playerHash k hpc
    obtain rfl := Option.some.inj h
    split_ifs with htaken
    · exact .takenMoon id limit playerHash k r hpc htaken
    · rw [not_or] at htaken
      exact .moon id limit ⟨r, playerHash, htaken.2⟩ k hpc (Bool.eq_false_iff.2 htaken.1)
  · cases h

theorem handlerStep_of_next {l : RequestLabel} (h : s.next inst l = some s') :
    (∃ request, l = .begin request ∧ s' = s.arrive inst request) ∨
      ∃ n, HandlerStep inst s n l s' := by
  cases l with
  | begin request => exact .inl ⟨request, rfl, (Option.some.inj h).symm⟩
  | entry n name => exact .inr ⟨n, handlerStep_of_entryExec h⟩
  | draw n r => exact .inr ⟨n, handlerStep_of_drawExec h⟩
  | step n => exact .inr ⟨n, handlerStep_of_stepExec h⟩

end ApiSystem

end MoonJamRelay
