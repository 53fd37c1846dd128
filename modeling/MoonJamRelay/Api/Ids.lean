import MoonJamRelay.Api.Readers

/-!
# Ids

An id becomes part of a path.  `/delete` and `/limit` match it against `[0-9a-zA-Z]+` before they
read, write or remove the file; `/create` and `/get` take any text.

* `ApiServer.LeavesAlone` : a handler does not make, read, write or remove a file; what it holds
  does not matter to the handler.
* `IdLaw` : a handler leaves all files outside the key directory alone, and a pair that `/create`
  reports is in a file of its own, which the other handlers then find.
* `IdLaw.Holds` : when the law holds; `idLaw_iff` : exactly then.  If all ids count, a new pair
  never has a file of its own, since every id has another one with the same path.  If those of
  letters and digits count, it has one exactly when its id is such an id and its file can be opened.
-/

namespace MoonJamRelay

namespace ApiServer

variable {D : Type*} [DecidableEq D] (inst : Installation D) (s : ApiServer D)

/-- The handler leaves the file alone.  If it does not exist, it is not made.  If it does, then
whatever it holds the response is the same, the table has the same pairs, and it holds this
afterwards. -/
def LeavesAlone (request : ApiRequest) (luck : Luck) (l : D × Name) : Prop :=
  (s.files.contents l = none → (s.handle inst request luck).1.files.contents l = none) ∧
  ((s.files.contents l).isSome → ∀ c, let s' := s.writeFile (.entry l) c
    (s'.handle inst request luck).2 = (s.handle inst request luck).2 ∧
    (s'.handle inst request luck).1.keyManager.keys.Perm
      (s.handle inst request luck).1.keyManager.keys ∧
    (s'.handle inst request luck).1.files.contents l = some c)

/-- The pair of an id is in a file of the key directory that no other id of `ids` leads to.
`/get` reports it, and `/limit` and `/delete` accept the id. -/
structure OwnFile (ids : List UInt8 → Prop) (id moon player : List UInt8) (limit : ℕ) : Prop where
  file : ∃ name, s.keyFile inst id = .entry (inst.keys, name) ∧
    s.keyFiles inst name = some (keyText moon player limit)
  unique : ∀ id', ids id' → s.keyFile inst id' = s.keyFile inst id → id' = id
  get : ∀ luck, (s.handle inst (getRequest inst id) luck).2 = ⟨200, .keys moon player limit⟩
  limit : ∀ text luck, (s.handle inst (limitRequest inst id text) luck).2.status = 200
  delete : ∀ luck,
    (s.handle inst ⟨.delete, some inst.secret, some id, none⟩ luck).2.status = 200

end ApiServer

/-- What an API that keeps to its directory does with a request, where `ids` are the ids that
count. -/
structure IdLaw {D : Type*} [DecidableEq D] (inst : Installation D) (ids : List UInt8 → Prop)
    (s : ApiServer D) (request : ApiRequest) (luck : Luck) : Prop where
  inside : ∀ l : D × Name, l.1 ≠ inst.keys → s.LeavesAlone inst request luck l
  created : request.route = .create → request.key = some inst.secret → ∀ id moon player limit,
    request.id = some id → (s.handle inst request luck).2 = ⟨200, .keys moon player limit⟩ →
    (s.handle inst request luck).1.OwnFile inst ids id moon player limit

/-- When the law holds: the request is not a `/create` that draws two new keys for an id that is
not `safe`, nor a `/get` with the path of a file outside the key directory. -/
def IdLaw.Holds {D : Type*} [DecidableEq D] (inst : Installation D) (safe : List UInt8 → Prop)
    (s : ApiServer D) (request : ApiRequest) (luck : Luck) : Prop :=
  match ApiServer.task inst request with
  | some (.create id _) => (s.refreshKeys inst luck.first).drawKeys luck.draws = none ∨ safe id
  | some (.get id) => ∀ l, s.keyFile inst id = .entry l → (s.files.contents l).isSome →
    l.1 = inst.keys
  | _ => True

namespace ApiServer

variable {D : Type*} [DecidableEq D] {inst : Installation D} {s s' : ApiServer D}
  {request : ApiRequest} {luck : Luck} {l : D × Name} {id : List UInt8}

/-! ### Overwriting a file outside the key directory -/

/-- Two directories with the same key files give the same pairs. -/
theorem refreshKeys_perm (h : ∀ name, s'.keyFiles inst name = s.keyFiles inst name)
    (order order' : ScanOrder) : (s'.refreshKeys inst order).keyManager.keys.Perm
      (s.refreshKeys inst order').keyManager.keys := by
  have hscan : (s'.scan inst (s'.files.entries inst.keys)).Perm
      (s.scan inst (s.files.entries inst.keys)) := by
    refine scan_perm_of_files (FileSystem.nodup_entries _) (FileSystem.nodup_entries _)
      (fun name => ?_) fun name _ => h name
    rw [and_iff_right_of_imp mem_entries_of_keyFiles, and_iff_right_of_imp mem_entries_of_keyFiles,
      h name]
  exact (fresh_refreshKeys order).trans (hscan.trans (fresh_refreshKeys order').symm)

/-- The draws depend on the pairs of the table only. -/
theorem drawKeys_perm (h : s'.keyManager.keys.Perm s.keyManager.keys)
    (draws : ℕ → RandomString) : s'.drawKeys draws = s.drawKeys draws := by
  have hhas : s'.hasKey = s.hasKey := by
    funext r
    simp only [hasKey, KeyManager.hasKey, KeyManager.find, List.isSome_find?]
    exact h.any_eq
  rw [drawKeys, drawKeys, hhas]

theorem fileExists_writeFile (hl : (s.files.contents l).isSome = true) (c : List UInt8)
    (t : Target D) : (s.writeFile (.entry l) c).files.fileExists t = s.files.fileExists t :=
  (FileSystem.sameDirectories_writeFile _ _).fileExists_eq
    (FileSystem.contents_isSome_writeFile hl c) t

theorem remove_writeFile (hl : (s.files.contents l).isSome = true) (c : List UInt8)
    {t : Target D} :
    (s.files.remove t = none → (s.writeFile (.entry l) c).files.remove t = none) ∧
    ∀ b files, s.files.remove t = some (b, files) →
      ∃ files', (s.writeFile (.entry l) c).files.remove t = some (b, files') := by
  obtain ⟨h, h'⟩ | ⟨b, files, files', h, h', -⟩ :=
    (FileSystem.sameDirectories_writeFile _ _).remove
      (FileSystem.contents_isSome_writeFile hl c) t
  · exact ⟨fun _ => h', fun b files hsome => by cases h.symm.trans hsome⟩
  · refine ⟨fun hnone => (by cases h.symm.trans hnone), fun b' fs hsome => ⟨files', ?_⟩⟩
    obtain ⟨rfl, -⟩ := Prod.mk.inj (Option.some.inj (h.symm.trans hsome))
    exact h'

theorem readFile_writeFile_of_ne {t : Target D} (ht : t ≠ .entry l) (c : List UInt8) :
    (s.writeFile (.entry l) c).readFile t = s.readFile t := by
  cases t with
  | entry l' =>
    have hne : s.files.opens (.entry l) ≠ some l' := fun he =>
      ht (FileSystem.opens_eq_some.1 he).1.symm
    simp only [readFile, writeFile, FileSystem.read, FileSystem.contents_writeFile, hne, if_false]
  | directory | missing | tooLong => rfl

theorem keyFiles_writeFile_outside (hl : l.1 ≠ inst.keys) (c : List UInt8) (name : Name) :
    (s.writeFile (.entry l) c).keyFiles inst name = s.keyFiles inst name := by
  rw [keyFiles_writeFile, if_neg]
  rintro he
  exact hl (by rw [Target.entry.inj (FileSystem.opens_eq_some.1 he).1])

/-- The path of the task may be that of the file `l`: a `/create` that gets to write, or a
`/get`.  The other handlers do not open the file of such an id. -/
def Task.Opens (inst : Installation D) (s : ApiServer D) (luck : Luck) (l : D × Name) :
    Task → Prop
  | .create id _ => (s.refreshKeys inst luck.first).drawKeys luck.draws ≠ none ∧
      s.files.opens (s.keyFile inst id) = some l
  | .get id => s.keyFile inst id = .entry l
  | .delete _ | .limit _ _ => False

theorem keyFile_ne_of_validId (hid : ValidId id) (hl : l.1 ≠ inst.keys) :
    s.keyFile inst id ≠ .entry l := by
  intro he
  exact hl (by rw [inst.eq_of_keyFile_entry hid.plainId he])

theorem opens_ne_of_validId (hid : ValidId id) (hl : l.1 ≠ inst.keys) :
    s.files.opens (s.keyFile inst id) ≠ some l := fun he =>
  keyFile_ne_of_validId hid hl (FileSystem.opens_eq_some.1 he).1

/-- What a task does to a file outside the key directory that it does not open. -/
theorem contents_perform (hl : l.1 ≠ inst.keys) {t : Task} (ht : ¬ t.Opens inst s luck l) :
    (s.perform inst luck t).1.files.contents l = s.files.contents l := by
  have hr : TaskResult inst s luck t (s.perform inst luck t).1 (s.perform inst luck t).2 :=
    perform_result s luck t
  generalize s.perform inst luck t = p at hr ⊢
  obtain ⟨s', response⟩ := p
  cases hr with
  | noKeys | getRefused | getNothing | got | getThrows => rfl
  | deleteRefused | deleteNothing | deleteInvalid | deleteThrows => rfl
  | limitRefused | limitNothing | limitInvalid | limitThrows => rfl
  | created id limit player moon hdraw =>
    have hne : s.files.opens (s.keyFile inst id) ≠ some l := fun he => ht ⟨by simp [hdraw], he⟩
    exact (FileSystem.contents_writeFile _ _ _).trans (if_neg hne)
  | deleted id files hid hexists hremove =>
    exact (FileSystem.contents_remove hremove l).trans (if_neg (opens_ne_of_validId hid hl))
  | limited id text moon player hid =>
    exact (FileSystem.contents_writeFile _ _ _).trans (if_neg (opens_ne_of_validId hid hl))

/-- What a file outside the key directory holds does not matter to a task that does not open it. -/
theorem perform_writeFile (hl : l.1 ≠ inst.keys) (hex : (s.files.contents l).isSome) {t : Task}
    (ht : ¬ t.Opens inst s luck l) (c : List UInt8) :
    ((s.writeFile (.entry l) c).perform inst luck t).2 = (s.perform inst luck t).2 ∧
    ((s.writeFile (.entry l) c).perform inst luck t).1.keyManager.keys.Perm
      (s.perform inst luck t).1.keyManager.keys := by
  have hkeys := keyFiles_writeFile_outside (s := s) hl c
  have hperm := refreshKeys_perm hkeys luck.first luck.first
  have hdraws := drawKeys_perm hperm luck.draws
  have hpath : ∀ id, (s.writeFile (.entry l) c).keyFile inst id = s.keyFile inst id := fun id =>
    keyFile_writeFile _ _ id
  have hexists : ∀ {id b}, s.files.fileExists (s.keyFile inst id) = b →
      (s.writeFile (.entry l) c).files.fileExists
        ((s.writeFile (.entry l) c).keyFile inst id) = b := fun {id b} h => by
    rw [hpath, fileExists_writeFile hex, h]
  have hread : ∀ {id}, ¬ s.keyFile inst id = .entry l →
      (s.writeFile (.entry l) c).readFile ((s.writeFile (.entry l) c).keyFile inst id) =
        s.readFile (s.keyFile inst id) := fun {id} hne => by
    rw [hpath, readFile_writeFile_of_ne hne]
  have hr : TaskResult inst s luck t (s.perform inst luck t).1 (s.perform inst luck t).2 :=
    perform_result s luck t
  generalize s.perform inst luck t = p at hr ⊢
  obtain ⟨s', response⟩ := p
  cases hr with
  | noKeys id limit hdraw =>
    rw [(TaskResult.noKeys id limit (hdraws.trans hdraw)).perform_eq]
    exact ⟨rfl, hperm⟩
  | created id limit player moon hdraw =>
    rw [(TaskResult.created id limit player moon (hdraws.trans hdraw)).perform_eq]
    refine ⟨rfl, refreshKeys_perm (fun name => ?_) _ _⟩
    have hopens : (s.writeFile (.entry l) c).files.opens = s.files.opens :=
      (FileSystem.sameDirectories_writeFile _ _).opens_eq
    simp only [keyFiles_writeFile, keyFiles_refreshKeys, files_refreshKeys, hkeys, hpath, hopens]
    rfl
  | getRefused id hno =>
    rw [(TaskResult.getRefused id (hexists hno)).perform_eq]
    exact ⟨rfl, hperm⟩
  | getNothing id hno =>
    rw [(TaskResult.getNothing id (hexists hno)).perform_eq]
    exact ⟨rfl, hperm⟩
  | got id moon player hyes hmoon hplayer =>
    rw [← hread ht] at hmoon hplayer ⊢
    rw [(TaskResult.got id moon player (hexists hyes) hmoon hplayer).perform_eq]
    exact ⟨rfl, hperm⟩
  | getThrows id hyes hplayer =>
    rw [← hread ht] at hplayer
    rw [(TaskResult.getThrows id (hexists hyes) hplayer).perform_eq]
    exact ⟨rfl, hperm⟩
  | deleteRefused id hno =>
    rw [(TaskResult.deleteRefused id (hexists hno)).perform_eq]
    exact ⟨rfl, .refl _⟩
  | deleteNothing id hno =>
    rw [(TaskResult.deleteNothing id (hexists hno)).perform_eq]
    exact ⟨rfl, .refl _⟩
  | deleteInvalid id hyes hid =>
    rw [(TaskResult.deleteInvalid id (hexists hyes) hid).perform_eq]
    exact ⟨rfl, .refl _⟩
  | deleted id files hid hyes hremove =>
    obtain ⟨files', hremove'⟩ := (remove_writeFile hex c).2 _ _ hremove
    rw [← hpath] at hremove'
    rw [(TaskResult.deleted id _ hid (hexists hyes) hremove').perform_eq]
    exact ⟨rfl, .refl _⟩
  | deleteThrows id hid hyes hremove =>
    have hremove' := (remove_writeFile hex c).1 hremove
    rw [← hpath] at hremove'
    rw [(TaskResult.deleteThrows id hid (hexists hyes) hremove').perform_eq]
    exact ⟨rfl, .refl _⟩
  | limitRefused id text hno =>
    rw [(TaskResult.limitRefused id text (hexists hno)).perform_eq]
    exact ⟨rfl, .refl _⟩
  | limitNothing id text hno =>
    rw [(TaskResult.limitNothing id text (hexists hno)).perform_eq]
    exact ⟨rfl, .refl _⟩
  | limitInvalid id text hyes hid =>
    rw [(TaskResult.limitInvalid id text (hexists hyes) hid).perform_eq]
    exact ⟨rfl, .refl _⟩
  | limited id text moon player hid hyes hmoon hplayer =>
    rw [← hread (keyFile_ne_of_validId hid hl)] at hmoon hplayer
    rw [(TaskResult.limited id text moon player hid (hexists hyes) hmoon hplayer).perform_eq]
    exact ⟨rfl, .refl _⟩
  | limitThrows id text hid hyes hplayer =>
    rw [← hread (keyFile_ne_of_validId hid hl)] at hplayer
    rw [(TaskResult.limitThrows id text hid (hexists hyes) hplayer).perform_eq]
    exact ⟨rfl, .refl _⟩

theorem opens_writeFile (hl : l.1 ≠ inst.keys) {t : Task} (c : List UInt8) :
    t.Opens inst (s.writeFile (.entry l) c) luck l ↔ t.Opens inst s luck l := by
  have hperm := refreshKeys_perm (keyFiles_writeFile_outside (s := s) hl c) luck.first luck.first
  have hopens : (s.writeFile (.entry l) c).files.opens = s.files.opens :=
    (FileSystem.sameDirectories_writeFile _ _).opens_eq
  cases t with
  | create id limit => simp only [Task.Opens, drawKeys_perm hperm, keyFile_writeFile, hopens]
  | get id => simp only [Task.Opens, keyFile_writeFile]
  | delete | limit => rfl

theorem contents_writeFile_self (hex : (s.files.contents l).isSome = true) (c : List UInt8) :
    (s.writeFile (.entry l) c).files.contents l = some c := by
  obtain ⟨old, hold⟩ := Option.isSome_iff_exists.1 hex
  exact (FileSystem.contents_writeFile _ _ _).trans (if_pos (FileSystem.opens_of_contents hold))

theorem leavesAlone_of_not_opens (hl : l.1 ≠ inst.keys)
    (h : ∀ t, task inst request = some t → ¬ t.Opens inst s luck l) :
    s.LeavesAlone inst request luck l := by
  unfold LeavesAlone handle
  cases htask : task inst request with
  | none => exact ⟨id, fun hex c => ⟨rfl, .refl _, contents_writeFile_self hex c⟩⟩
  | some t =>
    have ht := h t htask
    refine ⟨(contents_perform hl ht).trans, fun hex c => ?_⟩
    obtain ⟨hresponse, htable⟩ := perform_writeFile hl hex ht c
    refine ⟨by simp only [hresponse], htable, ?_⟩
    exact (contents_perform hl ((opens_writeFile hl c).not.2 ht)).trans
      (contents_writeFile_self hex c)

theorem leavesAlone_get_of_none (htask : task inst request = some (.get id))
    (hnone : s.files.contents l = none) : s.LeavesAlone inst request luck l := by
  unfold LeavesAlone handle
  rw [htask]
  have hfiles : (s.get inst id luck).1.files = s.files := by
    simp only [get]
    split <;> rfl
  exact ⟨(congrArg (FileSystem.contents · l) hfiles).trans, fun hex => by simp [hnone] at hex⟩

/-- A `/get` reads a file that exists: the response says whether it is long enough. -/
theorem not_leavesAlone_get (htask : task inst request = some (.get id))
    (hfile : s.keyFile inst id = .entry l) (hex : (s.files.contents l).isSome = true) :
    ¬ s.LeavesAlone inst request luck l := by
  have hstatus : ∀ c, ((s.writeFile (.entry l) c).handle inst request luck).2.status =
      if hashLength + 1 ≤ (stripLines c).length then 200 else 500 := by
    intro c
    have hself := contents_writeFile_self hex c
    have hread : (s.writeFile (.entry l) c).readFile (.entry l) = stripLines c := by
      rw [readFile, FileSystem.read_entry hself]
    have hget : ((s.writeFile (.entry l) c).get inst id luck).2 =
        (playerHashOf (stripLines c)).map fun player =>
          ⟨200, .keys ((stripLines c).take hashLength) player (reportedLimit (stripLines c))⟩ := by
      simp only [get, files_refreshKeys, keyFile_refreshKeys, readFile_refreshKeys,
        keyFile_writeFile, hfile, FileSystem.fileExists_of_contents hself, hread]
      rw [moonHashOf_eq, Option.bind_some]
    rw [handle, htask]
    simp only [perform, hget, playerHashOf_eq]
    split_ifs <;> rfl
  rintro ⟨-, hsame⟩
  have hshort := congrArg ApiResponse.status (hsame hex []).1
  have hlong := congrArg ApiResponse.status (hsame hex [97, 98, 99, 100, 101]).1
  rw [hstatus] at hshort hlong
  exact absurd (hshort.trans hlong.symm) (by decide)

/-! ### New pairs -/

omit [DecidableEq D] in
theorem task_eq_create {limit : Option (List UInt8)} :
    task inst request = some (.create id limit) ↔ request.route = .create ∧
      request.key = some inst.secret ∧ request.id = some id ∧ request.limit = limit := by
  obtain ⟨route, key, id', limit'⟩ := request
  cases key <;> cases id' <;> cases route <;> simp [task]

/-- A pair in the file of a valid id is in a file of its own, as far as valid ids count. -/
theorem ownFile_of_validId (hid : ValidId id) {moon player : RandomString} {limit : ℕ}
    (hlimit : limit ≤ intMax)
    (hraw : s.keyFiles inst (id ++ txt) = some (keyText moon.bytes player.bytes limit)) :
    s.OwnFile inst ValidId id moon.bytes player.bytes limit := by
  have hmoon : (keyText moon.bytes player.bytes limit).take hashLength = moon.bytes :=
    Option.some.inj ((moonHashOf_eq _).symm.trans (moonHashOf_keyText moon.length_bytes))
  have hplayer : playerHashOf (keyText moon.bytes player.bytes limit) = some player.bytes :=
    playerHashOf_keyText moon.length_bytes player.length_bytes
  have hfile := keyFile_of_keyFiles hid.plainId hraw
  refine ⟨⟨id ++ txt, hfile, hraw⟩, ?_, ?_, ?_, ?_⟩
  · intro id' hid' he
    have hname := inst.eq_of_keyFile_entry hid'.plainId (he.trans hfile)
    exact (List.append_cancel_right (Prod.mk.inj hname).2).symm
  · intro luck
    rw [handle_getRequest, get_of_file luck hfile hraw, stripLines_randomText, hplayer, hmoon,
      reportedLimit_keyText moon.length_bytes player.length_bytes hlimit]
    rfl
  · intro text luck
    rw [handle_limitRequest, limit_of_file text hid hraw, stripLines_randomText, hplayer]
    rfl
  · intro luck
    simp [handle, task, perform, delete, hfile, FileSystem.fileExists_of_contents hraw, hid,
      FileSystem.remove_of_contents hraw]

theorem OwnFile.validId {ids : List UInt8 → Prop} {moon player : List UInt8} {limit : ℕ}
    (h : s.OwnFile inst ids id moon player limit) : ValidId id := by
  by_contra hid
  have hstatus := h.delete default
  revert hstatus
  simp only [handle, task, perform, ApiServer.delete, ne_eq, not_true_eq_false, if_false, hid,
    not_false_eq_true, if_true]
  split <;> simp [ApiResponse.thrown]

theorem OwnFile.opens {ids : List UInt8 → Prop} {moon player : List UInt8} {limit : ℕ}
    (h : s.OwnFile inst ids id moon player limit) :
    (s.files.opens (s.keyFile inst id)).isSome = true := by
  obtain ⟨name, hfile, hraw⟩ := h.file
  rw [hfile, FileSystem.opens_of_contents hraw]
  rfl

/-- No pair is in a file of its own, as far as all ids count. -/
theorem not_ownFile {moon player : List UInt8} {limit : ℕ} :
    ¬ s.OwnFile inst (fun _ => True) id moon player limit := by
  intro h
  have hlen := congrArg List.length
    (h.unique (id ++ txt ++ [0]) trivial (inst.keyFile_append_zero s.files id))
  simp only [List.length_append, List.length_singleton] at hlen
  omega

end ApiServer

/-! ### When the law holds -/

variable {D : Type*} [DecidableEq D]

namespace IdLaw

open ApiServer

variable {inst : Installation D} {s : ApiServer D} {request : ApiRequest} {luck : Luck}
  {ids safe : List UInt8 → Prop}

/-- A request that is not a `/create` with the secret makes no pair. -/
theorem created_of_task (h : ∀ id limit, task inst request ≠ some (.create id limit))
    (hroute : request.route = .create) (hkey : request.key = some inst.secret)
    (id moon player : List UInt8) (limit : ℕ) (hid : request.id = some id)
    (_ : (s.handle inst request luck).2 = ⟨200, .keys moon player limit⟩) :
    (s.handle inst request luck).1.OwnFile inst ids id moon player limit :=
  absurd (task_eq_create.2 ⟨hroute, hkey, hid, rfl⟩) (h id request.limit)

/-- A `/create` that has drawn two keys: the law holds when the pair is in a file of its own, and
the id is safe then. -/
theorem iff_of_created {id : List UInt8} {limit : Option (List UInt8)} {player moon : RandomString}
    (htask : task inst request = some (.create id limit))
    (hdraw : (s.refreshKeys inst luck.first).drawKeys luck.draws = some (player, moon))
    (hsafe : safe id → ValidId id)
    (hown : (s.create inst id limit luck).1.OwnFile inst ids id moon.bytes player.bytes
      (createLimit limit) ↔ safe id) : IdLaw inst ids s request luck ↔ safe id := by
  have hhandle : s.handle inst request luck =
      ((s.create inst id limit luck).1, (s.create inst id limit luck).2.getD .thrown) := by
    rw [handle, htask]
    rfl
  have hresponse : (s.handle inst request luck).2 =
      ⟨200, .keys moon.bytes player.bytes (createLimit limit)⟩ := by
    rw [hhandle, (create_of_drawKeys hdraw id limit).1]
    rfl
  obtain ⟨hroute, hkey, hid, -⟩ := task_eq_create.1 htask
  constructor
  · intro h
    have hcreated := h.created hroute hkey id _ _ _ hid hresponse
    rw [hhandle] at hcreated
    exact hown.1 hcreated
  · intro h
    refine ⟨fun l hl => leavesAlone_of_not_opens hl fun t ht ho => ?_, ?_⟩
    · obtain rfl := Option.some.inj (htask.symm.trans ht)
      exact opens_ne_of_validId (hsafe h) hl ho.2
    · intro _ _ id' moon' player' limit' hid' hresponse'
      obtain rfl := Option.some.inj (hid.symm.trans hid')
      simp only [hresponse, ApiResponse.mk.injEq, Content.keys.injEq, true_and] at hresponse'
      obtain ⟨rfl, rfl, rfl⟩ := hresponse'
      rw [hhandle]
      exact hown.2 h

/-- A `/get`: the law holds when its path is not that of a file outside the key directory. -/
theorem iff_of_get {id : List UInt8} (htask : task inst request = some (.get id)) :
    IdLaw inst ids s request luck ↔
      ∀ l, s.keyFile inst id = .entry l → (s.files.contents l).isSome → l.1 = inst.keys := by
  constructor
  · intro h l hfile hex
    by_contra hl
    exact not_leavesAlone_get htask hfile hex (h.inside l hl)
  · intro h
    refine ⟨fun l hl => ?_, created_of_task (by simp [htask])⟩
    cases hc : s.files.contents l with
    | none => exact leavesAlone_get_of_none htask hc
    | some c =>
      refine leavesAlone_of_not_opens hl fun t ht ho => hl (h l ?_ (by simp [hc]))
      obtain rfl := Option.some.inj (htask.symm.trans ht)
      exact ho

/-- The law holds exactly when `IdLaw.Holds`, if the pair of a `/create` is in a file of its own
exactly when the id is safe. -/
theorem iff_holds (hsafe : ∀ id, safe id → ValidId id)
    (hown : ∀ id limit player moon, task inst request = some (.create id limit) →
      (s.refreshKeys inst luck.first).drawKeys luck.draws = some (player, moon) →
      ((s.create inst id limit luck).1.OwnFile inst ids id moon.bytes player.bytes
        (createLimit limit) ↔ safe id)) :
    IdLaw inst ids s request luck ↔ IdLaw.Holds inst safe s request luck := by
  -- without a `/create` and without a path that is opened there is nothing to check
  have hquiet : (∀ id limit, task inst request ≠ some (.create id limit)) →
      (∀ t, task inst request = some t → ∀ l, ¬ t.Opens inst s luck l) →
      IdLaw inst ids s request luck := fun hcreate hopens =>
    ⟨fun l hl => leavesAlone_of_not_opens hl fun t ht => hopens t ht l, created_of_task hcreate⟩
  unfold IdLaw.Holds
  cases htask : task inst request with
  | none => exact iff_of_true (hquiet (by simp [htask]) (by simp [htask])) trivial
  | some t =>
    cases t with
    | create id limit =>
      cases hdraw : (s.refreshKeys inst luck.first).drawKeys luck.draws with
      | none =>
        refine iff_of_true ⟨fun l hl => leavesAlone_of_not_opens hl fun t ht ho => ?_, ?_⟩
          (.inl rfl)
        · obtain rfl := Option.some.inj (htask.symm.trans ht)
          exact ho.1 hdraw
        · intro _ _ _ _ _ _ _ hresponse
          simp only [handle, htask, perform, create, hdraw] at hresponse
          cases hresponse
      | some keys =>
        rw [iff_of_created htask hdraw (hsafe id) (hown id limit _ _ htask hdraw)]
        simp
    | get id => exact iff_of_get htask
    | delete id | limit id text =>
      refine iff_of_true (hquiet (by simp [htask]) fun t ht l ho => ?_) trivial
      obtain rfl := Option.some.inj (htask.symm.trans ht)
      exact ho

end IdLaw

/-- **When ids keep to the key directory.**  If all ids count, exactly when the request neither
draws keys for a new pair nor is a `/get` for the path of a file outside; if only ids of letters
and digits count, a `/create` for such an id keeps to it too when the file can be opened. -/
theorem idLaw_iff (inst : Installation D) (s : ApiServer D) (request : ApiRequest) (luck : Luck) :
    (IdLaw inst (fun _ => True) s request luck ↔
      IdLaw.Holds inst (fun _ => False) s request luck) ∧
    (IdLaw inst ValidId s request luck ↔ IdLaw.Holds inst (fun id =>
      ValidId id ∧ (s.files.opens (s.keyFile inst id)).isSome = true) s request luck) := by
  constructor
  · refine IdLaw.iff_holds (fun _ h => h.elim) fun id limit player moon _ _ => ?_
    exact iff_of_false ApiServer.not_ownFile not_false
  · refine IdLaw.iff_holds (fun _ h => h.1) fun id limit player moon _ hdraw => ?_
    obtain ⟨-, -, hfiles⟩ := ApiServer.create_of_drawKeys hdraw id limit
    have hsame : s.files.SameDirectories (s.files.writeFile (s.keyFile inst id)
        (keyText moon.bytes player.bytes (createLimit limit))) :=
      FileSystem.sameDirectories_writeFile _ _
    refine ⟨fun h => ⟨h.validId, ?_⟩, fun ⟨hid, hopens⟩ => ?_⟩
    · have hopens := h.opens
      rwa [ApiServer.keyFile, hfiles, inst.keyFile_congr hsame, hsame.opens_eq] at hopens
    · refine ApiServer.ownFile_of_validId hid (createLimit_le limit) ?_
      obtain ⟨l, hl⟩ := Option.isSome_iff_exists.1 hopens
      obtain ⟨rfl, -⟩ := (inst.opens_keyFile_iff hid.plainId).1 hl
      rw [ApiServer.keyFiles, hfiles, FileSystem.contents_writeFile, if_pos hl]

/-- The id "a-b". -/
def dashId : List UInt8 := [97, 45, 98]

/-- **Ids are not handled uniformly**: `/create` makes a pair for "a-b", which `/delete` then
refuses. -/
theorem not_idLaw : ¬ IdLaw oneDirectory (fun _ => True) (.start oneDirectory noFiles default)
    ⟨.create, some oneDirectory.secret, some dashId, none⟩ exampleLuck := by
  intro h
  have hown := h.created rfl rfl dashId [49, 49, 49, 49] [48, 48, 48, 48] 80 rfl
    (by decide +kernel)
  have hstatus := hown.delete default
  revert hstatus
  decide +kernel

end MoonJamRelay
