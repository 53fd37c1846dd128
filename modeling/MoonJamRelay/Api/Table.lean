import MoonJamRelay.Api.Store

/-!
# The key table and the key files

The table is a copy of what the key files hold.  `/create` and `/get` load it again, `/delete` and
`/limit` do not, so what they change is missing in the table until some later request loads it.

* `ApiServer.loaded`, `others` : what `refreshKeys` finds in one file, and in all others.
  `fresh_iff_loaded` : when a table stays fresh though one file has changed.
* `TableKeepsUp` : what the table has to hold after a request that was answered with status 200.
* `LeavesTable` : the condition on a request and on the state before it.
* `tableKeepsUp_iff` : in a run of requests the table keeps up exactly when all requests answered
  with status 200 meet the condition.
-/

namespace MoonJamRelay

namespace ApiServer

variable {D : Type*} [DecidableEq D] (inst : Installation D) (s : ApiServer D)

/-! ### One file and the others -/

/-- What `refreshKeys` finds in one file. -/
def loaded (name : Name) : Option AccessKeys :=
  (s.keyFiles inst name).bind fun c => AccessKeys.ofContents (stripLines c)

/-- What `refreshKeys` finds in the other files. -/
def others (name : Name) : List AccessKeys := s.scan inst ((s.files.entries inst.keys).erase name)

variable {inst s} {s' : ApiServer D} {name : Name} {e : AccessKeys}

theorem loaded_eq_some : s.loaded inst name = some e ↔ s.Loads inst name e :=
  Option.bind_eq_some_iff

theorem scan_perm (name : Name) : (s.scan inst (s.files.entries inst.keys)).Perm
    ((s.loaded inst name).toList ++ s.others inst name) := by
  by_cases hname : name ∈ s.files.entries inst.keys
  · have hloaded : s.loaded inst name =
        AccessKeys.ofContents (s.readFile (.entry (inst.keys, name))) := by
      refine Option.ext fun e => ?_
      rw [loaded_eq_some]
      constructor
      · rintro ⟨c, hc, he⟩
        rwa [readFile_eq hc]
      · exact loads_of_readFile
    refine ((List.perm_cons_erase hname).filterMap _).trans (List.Perm.of_eq ?_)
    rw [hloaded, List.filterMap_cons, others, scan]
    cases AccessKeys.ofContents (s.readFile (.entry (inst.keys, name))) <;> rfl
  · have hnone : s.keyFiles inst name = none := by
      rw [← Option.not_isSome_iff_eq_none]
      exact fun h => hname (mem_entries_of_keyFiles h)
    rw [others, List.erase_of_not_mem hname, loaded, hnone]
    exact .refl _

theorem others_perm (h : ∀ name', name' ≠ name → s'.keyFiles inst name' = s.keyFiles inst name') :
    (s'.others inst name).Perm (s.others inst name) := by
  have hnodup : ∀ s : ApiServer D, (s.files.entries inst.keys).Nodup := fun s =>
    FileSystem.nodup_entries _
  refine scan_perm_of_files ((hnodup s).erase name) ((hnodup s').erase name) (fun name' => ?_)
    fun name' hname' => h name' ((hnodup s).mem_erase_iff.1 hname').1
  rw [(hnodup s).mem_erase_iff, (hnodup s').mem_erase_iff, and_assoc, and_assoc]
  refine and_congr_right fun hne => ?_
  rw [and_iff_right_of_imp mem_entries_of_keyFiles, and_iff_right_of_imp mem_entries_of_keyFiles,
    h name' hne]

/-- When one file has changed but the table has not, the table is fresh if the file is loaded as
before. -/
theorem fresh_iff_loaded (hfresh : s.Fresh inst) (hkeys : s'.keyManager = s.keyManager)
    (h : ∀ name', name' ≠ name → s'.keyFiles inst name' = s.keyFiles inst name') :
    s'.Fresh inst ↔ s'.loaded inst name = s.loaded inst name := by
  have hscan := hfresh.trans (scan_perm name)
  have hscan' : (s'.scan inst (s'.files.entries inst.keys)).Perm
      ((s'.loaded inst name).toList ++ s.others inst name) :=
    (scan_perm name).trans ((others_perm h).append_left _)
  have hoption : ∀ a b : Option AccessKeys, a.toList.Perm b.toList ↔ a = b := by
    intro a b
    cases a <;> cases b <;> simp
  rw [Fresh, hkeys]
  constructor
  · intro hperm
    refine (hoption _ _).1 ?_
    exact (List.perm_append_right_iff _).1 ((hperm.trans hscan').symm.trans hscan)
  · intro heq
    rw [heq] at hscan'
    exact hscan.trans hscan'.symm

end ApiServer

/-! ### Keeping up -/

variable {D : Type*} [DecidableEq D]

section

variable (inst : Installation D) (s s' : ApiServer D)

/-- What the table has to hold for a request answered with status 200, from `s` to `s'`.
* A pair that `/create` reports is recognised by `getRoom`.
* A limit that `/limit` reports is what `getPlayerLimit` returns for the two keys it reports.
* The keys of an id that was deleted are not recognised by `getRoom` and `hasKey`. -/
def ApiServer.Task.Recognised (response : ApiResponse) : Task → Prop
  | .create _ _ => ∀ moonkey playerkey limit, response.content = .keys moonkey playerkey limit →
    s'.keyManager.getRoom (convertHash moonkey) = convertHash moonkey ∧
      s'.keyManager.getRoom (convertHash playerkey) = convertHash moonkey
  | .get _ => True
  | .delete id => ∀ e key, s.Loads inst (id ++ txt) e → e.Has key →
    s'.keyManager.getRoom key = Hash.empty ∧ s'.keyManager.hasKey key = false
  | .limit _ _ => ∀ moonkey playerkey limit, response.content = .keys moonkey playerkey limit →
    ∃ moonKey playerKey : Hash, moonKey.bytes = moonkey ∧ playerKey.bytes = playerkey ∧
      s'.keyManager.getPlayerLimit moonKey = limit ∧ s'.keyManager.getPlayerLimit playerKey = limit

/-- The request needs no change of the table that its handler does not make.
* `/create` : the path of the id is that of a file in the key directory that can be opened.
* `/limit` : `refreshKeys` loads the file of the id, with this limit, and the table has this limit
  for both keys.
* `/delete` : `refreshKeys` skips the file of the id. -/
def ApiServer.Task.LeavesTable : Task → Prop
  | .create id _ => ∃ name, s.files.opens (s.keyFile inst id) = some (inst.keys, name)
  | .get _ => True
  | .delete id => ∀ e, ¬ s.Loads inst (id ++ txt) e
  | .limit id text => ∃ e, s.Loads inst (id ++ txt) e ∧ e.playerLimit = playerLimitOf text ∧
    s.keyManager.getPlayerLimit e.moonKey = playerLimitOf text ∧
      s.keyManager.getPlayerLimit e.playerKey = playerLimitOf text

/-- After a request answered with status 200 the table holds what `refreshKeys` would load, and so
what the request was about. -/
def TableKeepsUp (call : ApiCall) : Prop :=
  let s' := (s.handle inst call.request call.luck).1
  let response := (s.handle inst call.request call.luck).2
  response.status = 200 → s'.Fresh inst ∧ ∀ task, ApiServer.task inst call.request = some task →
    task.Recognised inst s s' response

/-- A request answered with status 200 meets the condition of its task. -/
def LeavesTable (call : ApiCall) : Prop :=
  (s.handle inst call.request call.luck).2.status = 200 →
    ∀ task, ApiServer.task inst call.request = some task → task.LeavesTable inst s

end

variable {inst : Installation D} {s s' : ApiServer D} {e : AccessKeys}

namespace ApiServer

theorem Fresh.find_eq (h : s.Fresh inst) {name : Name} {key : Hash} (he : s.Loads inst name e)
    (hkey : e.Has key) (honly : ∀ name' e', s.Loads inst name' e' → e'.Has key → e' = e) :
    s.keyManager.find key = some e := by
  have hsome : (s.keyManager.find key).isSome :=
    h.hasKey_iff.2 ⟨name, e, he, hkey⟩
  obtain ⟨e', he'⟩ := Option.isSome_iff_exists.1 hsome
  obtain ⟨hmem, hhas⟩ := KeyManager.find_spec he'
  obtain ⟨name', hl⟩ := h.mem_keys.1 hmem
  rw [he', honly name' e' hl hhas]

/-- The pair of `/create` is recognised exactly if it was written to a file `o` of the key
directory. -/
theorem recognises_iff {o : Option (D × Name)} {moon player : RandomString} {limit : ℕ}
    (hfresh : s'.Fresh inst) (hlimit : limit ≤ intMax)
    (hkey : ∀ name, s'.keyFiles inst name = if o = some (inst.keys, name) then
      some (keyText moon.bytes player.bytes limit) else s.keyFiles inst name)
    (hnew : ∀ name e, s.Loads inst name e → ¬ e.Has moon.toHash ∧ ¬ e.Has player.toHash) :
    (s'.keyManager.getRoom moon.toHash = moon.toHash ∧
      s'.keyManager.getRoom player.toHash = moon.toHash) ↔ ∃ name, o = some (inst.keys, name) := by
  -- the keys are in the new file only
  have honly : ∀ name e', s'.Loads inst name e' → e'.Has moon.toHash ∨ e'.Has player.toHash →
      o = some (inst.keys, name) ∧ e' = ⟨moon.toHash, player.toHash, limit, hlimit⟩ := by
    intro name e' he' hhas
    have hname := hkey name
    split_ifs at hname with ht
    · exact ⟨ht, (loads_iff hname hlimit).1 he'⟩
    · obtain ⟨hm, hp⟩ := hnew name e' ((Loads.congr hname).1 he')
      exact (hhas.elim hm hp).elim
  constructor
  · rintro ⟨hroom, -⟩
    by_contra hno
    have hnone : s'.keyManager.hasKey moon.toHash = false := by
      rw [Bool.eq_false_iff, ne_eq, hfresh.hasKey_iff]
      rintro ⟨name, e', he', hhas⟩
      exact hno ⟨name, (honly name e' he' (.inl hhas)).1⟩
    rw [KeyManager.hasKey, Option.isSome_eq_false_iff, Option.isNone_iff_eq_none] at hnone
    rw [KeyManager.getRoom, hnone] at hroom
    exact moon.ne_empty hroom.symm
  · rintro ⟨name, ht⟩
    have hname := hkey name
    rw [if_pos ht] at hname
    have hself := (loads_iff hname hlimit).2 rfl
    have hm := hfresh.find_eq hself (.inl rfl) fun name' e' he' hhas =>
      (honly name' e' he' (.inl hhas)).2
    have hp := hfresh.find_eq hself (.inr rfl) fun name' e' he' hhas =>
      (honly name' e' he' (.inr hhas)).2
    rw [KeyManager.getRoom, KeyManager.getRoom, hm, hp]
    exact ⟨rfl, rfl⟩

/-! ### One request -/

variable {luck : Luck} {task : Task} {response : Option ApiResponse}

theorem TaskResult.fresh (hr : TaskResult inst s luck task s' response) (hfresh : s.Fresh inst)
    (hok : (response.getD .thrown).status ≠ 200) : s'.Fresh inst := by
  cases hr with
  | noKeys | getRefused | getNothing | got | getThrows => exact fresh_refreshKeys _
  | deleteRefused | deleteNothing | deleteInvalid | deleteThrows => exact hfresh
  | limitRefused | limitNothing | limitInvalid | limitThrows => exact hfresh
  | created | deleted | limited => exact absurd rfl hok

theorem created_keepsUp_iff {id : List UInt8} {limit : Option (List UInt8)}
    {player moon : RandomString}
    (hdraw : (s.refreshKeys inst luck.first).drawKeys luck.draws = some (player, moon))
    (hfresh : s'.Fresh inst) (hfiles : s'.files = s.files.writeFile (s.keyFile inst id)
      (keyText moon.bytes player.bytes (createLimit limit))) :
    (Task.create id limit).Recognised inst s s'
        ⟨200, .keys moon.bytes player.bytes (createLimit limit)⟩ ↔
      (Task.create id limit).LeavesTable inst s := by
  obtain ⟨hplayer, hmoon, -⟩ := drawKeys_spec hdraw
  have hfirst : (s.refreshKeys inst luck.first).Fresh inst := fresh_refreshKeys _
  have hkey : ∀ name, s'.keyFiles inst name =
      if s.files.opens (s.keyFile inst id) = some (inst.keys, name) then
        some (keyText moon.bytes player.bytes (createLimit limit)) else s.keyFiles inst name := by
    intro name
    rw [keyFiles, hfiles]
    exact FileSystem.contents_writeFile _ _ _
  have hiff := recognises_iff hfresh (createLimit_le limit) hkey fun name e he =>
    ⟨not_has_of_hasKey hfirst hmoon he, not_has_of_hasKey hfirst hplayer he⟩
  rw [Task.LeavesTable, ← hiff, Task.Recognised]
  constructor
  · intro h
    have h := h _ _ _ rfl
    rwa [convertHash_bytes, convertHash_bytes] at h
  · intro h moonkey playerkey l hcontent
    obtain ⟨rfl, rfl, rfl⟩ := Content.keys.inj hcontent
    rwa [convertHash_bytes, convertHash_bytes]

/-- A `/delete` takes one name out of the key directory, that of a file or of a directory. -/
theorem keyFiles_deleted {id : List UInt8} {files : FileSystem D} (hid : ValidId id)
    (hremove : s.files.remove (s.keyFile inst id) = some (true, files)) (name : Name) :
    ({ s with files := files } : ApiServer D).keyFiles inst name =
      if id ++ txt = name then none else s.keyFiles inst name := by
  obtain ⟨l, hl, -, -, rfl⟩ | ⟨hfalse, -⟩ := FileSystem.remove_cases hremove
  · obtain rfl := inst.eq_of_keyFile_entry hid.plainId hl
    simp only [keyFiles, FileSystem.contents_drop, Prod.mk.injEq, true_and, eq_comm (a := name)]
  · cases hfalse

theorem deleted_keepsUp_iff (hfresh : s.Fresh inst) {id : List UInt8}
    (hkeys : s'.keyManager = s.keyManager) (hkey : ∀ name, s'.keyFiles inst name =
      if id ++ txt = name then none else s.keyFiles inst name) :
    s'.Fresh inst ∧ (Task.delete id).Recognised inst s s' ⟨200, .success⟩ ↔
      (Task.delete id).LeavesTable inst s := by
  have hnone : s'.loaded inst (id ++ txt) = none := by
    rw [loaded, hkey, if_pos rfl]
    rfl
  have hiff : s'.Fresh inst ↔ none = s.loaded inst (id ++ txt) := by
    rw [← hnone]
    exact fresh_iff_loaded hfresh hkeys fun name' hne => by rw [hkey, if_neg fun h => hne h.symm]
  rw [hiff, Task.LeavesTable, Task.Recognised]
  constructor
  · rintro ⟨hloaded, -⟩ e he
    rw [← loaded_eq_some, ← hloaded] at he
    cases he
  · intro hno
    refine ⟨(Option.eq_none_iff_forall_ne_some.2 fun e he => ?_).symm, fun e key he => ?_⟩
    · exact hno e (loaded_eq_some.1 he)
    · exact absurd he (hno e)

theorem limited_keepsUp_iff (hfresh : s.Fresh inst) {id text moon player : List UInt8}
    (hid : ValidId id) (hmoon : moonHashOf (s.readFile (s.keyFile inst id)) = some moon)
    (hplayer : playerHashOf (s.readFile (s.keyFile inst id)) = some player) :
    (s.writeFile (s.keyFile inst id) (keyText moon player (playerLimitOf text))).Fresh inst ∧
        (Task.limit id text).Recognised inst s
          (s.writeFile (s.keyFile inst id) (keyText moon player (playerLimitOf text)))
          ⟨200, .keys moon player (playerLimitOf text)⟩ ↔
      (Task.limit id text).LeavesTable inst s := by
  obtain ⟨raw, hraw⟩ := keyFiles_of_playerHashOf hid.plainId hplayer
  rw [keyFile_of_keyFiles hid.plainId hraw] at hmoon hplayer ⊢
  rw [readFile_eq hraw] at hmoon hplayer
  have hkey : ∀ name, (s.writeFile (.entry (inst.keys, id ++ txt))
      (keyText moon player (playerLimitOf text))).keyFiles inst name = if id ++ txt = name then
        some (keyText moon player (playerLimitOf text)) else s.keyFiles inst name := fun name => by
    rw [keyFiles_writeFile, FileSystem.opens_of_contents hraw]
    simp only [Option.some.injEq, Prod.mk.injEq, true_and]
  have hkeys : (s.writeFile (.entry (inst.keys, id ++ txt))
      (keyText moon player (playerLimitOf text))).keyManager = s.keyManager := rfl
  generalize s.writeFile (.entry (inst.keys, id ++ txt))
    (keyText moon player (playerLimitOf text)) = s' at hkey hkeys ⊢
  -- the new file has the same keys
  have hnew : ∀ moonKey playerKey : Hash, moonKey.bytes = moon → playerKey.bytes = player →
      s'.loaded inst (id ++ txt) =
        some ⟨moonKey, playerKey, playerLimitOf text, playerLimitOf_le text⟩ := by
    rintro moonKey playerKey rfl rfl
    rw [loaded, hkey, if_pos rfl, Option.bind_some, stripLines_keyText
      (not_line_end_of_substr hmoon) (not_line_end_of_substr hplayer)]
    exact ofContents_keyText _ _ _
  have hiff : s'.Fresh inst ↔ s'.loaded inst (id ++ txt) = s.loaded inst (id ++ txt) :=
    fresh_iff_loaded hfresh hkeys fun name' hne => (hkey name').trans (if_neg fun h => hne h.symm)
  rw [Task.LeavesTable, Task.Recognised, hkeys]
  constructor
  · rintro ⟨hfresh', hrec⟩
    obtain ⟨moonKey, playerKey, hm, hp, hlimits⟩ := hrec _ _ _ rfl
    have hloaded := (hiff.1 hfresh').symm.trans (hnew moonKey playerKey hm hp)
    exact ⟨_, loaded_eq_some.1 hloaded, rfl, hlimits⟩
  · rintro ⟨e, he, hlimit, hlimits⟩
    obtain ⟨c, hc, hof⟩ := he
    obtain rfl := Option.some.inj (hraw.symm.trans hc)
    obtain ⟨hm, hp, -⟩ := ofContents_spec hof
    have hm := Option.some.inj (hm.symm.trans hmoon)
    have hp := Option.some.inj (hp.symm.trans hplayer)
    have hself : e = ⟨e.moonKey, e.playerKey, playerLimitOf text, playerLimitOf_le text⟩ := by
      cases e
      cases hlimit
      rfl
    refine ⟨hiff.2 ?_, fun moonkey playerkey l hcontent => ?_⟩
    · rw [hnew e.moonKey e.playerKey hm hp, ← hself, loaded_eq_some.2 ⟨raw, hraw, hof⟩]
    · obtain ⟨rfl, rfl, rfl⟩ := Content.keys.inj hcontent
      exact ⟨e.moonKey, e.playerKey, hm, hp, hlimits⟩

/-- A request answered with status 200 keeps the table up exactly if it meets the condition. -/
theorem TaskResult.keepsUp_iff (hr : TaskResult inst s luck task s' response)
    (hfresh : s.Fresh inst) (hok : (response.getD .thrown).status = 200) :
    s'.Fresh inst ∧ task.Recognised inst s s' (response.getD .thrown) ↔
      task.LeavesTable inst s := by
  cases hr with
  | noKeys | getRefused | getThrows => exact absurd hok (by decide)
  | deleteRefused | deleteNothing | deleteInvalid | deleteThrows => exact absurd hok (by decide)
  | limitRefused | limitNothing | limitInvalid | limitThrows => exact absurd hok (by decide)
  | getNothing | got => exact iff_of_true ⟨fresh_refreshKeys _, trivial⟩ trivial
  | created id limit player moon hdraw =>
    have hlast : (((s.refreshKeys inst luck.first).writeFile (s.keyFile inst id) (keyText moon.bytes
        player.bytes (createLimit limit))).refreshKeys inst luck.second).Fresh inst :=
      fresh_refreshKeys _
    exact (and_iff_right hlast).trans (created_keepsUp_iff hdraw hlast rfl)
  | deleted id files hid hexists hremove =>
    exact deleted_keepsUp_iff hfresh rfl (keyFiles_deleted hid hremove)
  | limited id text moon player hid hexists hmoon hplayer =>
    exact limited_keepsUp_iff hfresh hid hmoon hplayer

end ApiServer

/-- One request from a state with a fresh table. -/
theorem tableKeepsUp_step (hfresh : s.Fresh inst) (call : ApiCall) :
    TableKeepsUp inst s call ↔ LeavesTable inst s call := by
  simp only [TableKeepsUp, LeavesTable, ApiServer.handle]
  cases ApiServer.task inst call.request with
  | none => simp
  | some task =>
    simp only [Option.some.injEq, forall_eq']
    exact imp_congr_right fun hok => (ApiServer.perform_result s _ task).keepsUp_iff hfresh hok

theorem TableKeepsUp.fresh {call : ApiCall} (h : TableKeepsUp inst s call) (hfresh : s.Fresh inst) :
    (s.handle inst call.request call.luck).1.Fresh inst := by
  by_cases hok : (s.handle inst call.request call.luck).2.status = 200
  · exact (h hok).1
  · simp only [ApiServer.handle] at hok ⊢
    cases htask : ApiServer.task inst call.request with
    | none => exact hfresh
    | some task =>
      rw [htask] at hok
      exact (ApiServer.perform_result s _ task).fresh hfresh hok

/-! ### All requests -/

/-- **When the table keeps up**: starting with any files, after all requests of a run that are
answered with status 200 exactly if all these requests meet the condition. -/
theorem tableKeepsUp_iff (files : FileSystem D) (order : ScanOrder) (calls : List ApiCall) :
    let api := apiServer inst (.start inst files order)
    api.Meets (fun w call => TableKeepsUp inst w.server call) api.init calls ↔
      api.Meets (fun w call => LeavesTable inst w.server call) api.init calls := by
  have hstart : (ApiServer.start inst files order).Fresh inst := ApiServer.fresh_refreshKeys order
  refine Machine.meets_iff_meets (I := fun w => w.server.Fresh inst)
    (fun w call hfresh => tableKeepsUp_step hfresh call) ?_ hstart calls
  intro w call w' hfresh hkeeps hst
  obtain rfl := Option.some.inj hst
  exact hkeeps.fresh hfresh

/-- The request `/delete` for `exampleId`. -/
def deleteCall : ApiCall := ⟨⟨.delete, some oneDirectory.secret, some exampleId, none⟩, default⟩

/-- **The table does not always keep up**: a deleted pair stays in it. -/
theorem not_tableKeepsUp : ¬ ∀ calls,
    emptyApi.Meets (fun w call => TableKeepsUp oneDirectory w.server call) emptyApi.init calls := by
  intro h
  obtain ⟨-, hrest⟩ := h [createCall, deleteCall]
  obtain ⟨hkeeps, -⟩ := hrest _ rfl
  have hperm := (hkeeps rfl).1.length_eq
  revert hperm
  decide

end MoonJamRelay
