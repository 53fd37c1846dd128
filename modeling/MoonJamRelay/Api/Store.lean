import MoonJamRelay.Api.Distinct
import MoonJamRelay.Machine.Coupled

/-!
# The key API is a store

* `KeyStore` : what the API is for, a map from ids to key pairs with their limits.
  `KeyStore.answer` : what a request means for the map, and its response.
* `KeyStore.Keeps` : what a request may change in the map, and what its response says about it.
* `KeyStore.StoredIn` : the key files are those of the map.
* `StoredIn.perform` : a handler does on the files what the request means for the map.
* `api_is_store` : so do all requests, starting without key files.
-/

namespace MoonJamRelay

/-- The id in a task. -/
def ApiServer.Task.id : ApiServer.Task → List UInt8
  | .create id _ | .get id | .delete id | .limit id _ => id

/-- A key pair, with its limit. -/
structure Binding where
  moonkey : RandomString
  playerkey : RandomString
  playerlimit : ℕ
  playerlimit_le : playerlimit ≤ intMax

namespace Binding

/-- The key file of the pair. -/
def text (b : Binding) : List UInt8 := keyText b.moonkey.bytes b.playerkey.bytes b.playerlimit

/-- The response that reports the pair. -/
def report (b : Binding) : ApiResponse :=
  ⟨200, .keys b.moonkey.bytes b.playerkey.bytes b.playerlimit⟩

/-- The key is one of the two. -/
def uses (b : Binding) (r : RandomString) : Bool :=
  decide (b.moonkey = r) || decide (b.playerkey = r)

/-- The same keys with the limit in a text. -/
def withLimit (b : Binding) (text : List UInt8) : Binding :=
  { b with playerlimit := playerLimitOf text, playerlimit_le := playerLimitOf_le text }

end Binding

/-- Ids and their key pairs. -/
abbrev KeyStore := UnorderedMap (List UInt8) Binding

namespace KeyStore

variable (m : KeyStore)

/-- New keys for a pair, player key first; none when too many draws are in use. -/
def drawKeys (draws : ℕ → RandomString) : Option (RandomString × RandomString) :=
  (drawKey (fun r => m.anyValue fun b => b.uses r) draws maxAttempts 0).bind fun (player, i) =>
    (drawKey (fun r => (m.anyValue fun b => b.uses r) || decide (r = player)) draws
      maxAttempts i).map fun (moon, _) => (player, moon)

/-- What a request means: the map after it, and the response. -/
def answer (draws : ℕ → RandomString) : ApiServer.Task → KeyStore × ApiResponse
  | .create id limit =>
    match m.drawKeys draws with
    | none => (m, ⟨500, .none⟩)
    | some (player, moon) =>
      let b : Binding := ⟨moon, player, createLimit limit, createLimit_le limit⟩
      (m.insert id b, b.report)
  | .get id =>
    match m.lookup id with
    | none => (m, ⟨200, .empty⟩)
    | some b => (m, b.report)
  | .delete id =>
    match m.lookup id with
    | none => (m, ⟨500, .none⟩)
    | some _ => (m.erase id, ⟨200, .success⟩)
  | .limit id text =>
    match m.lookup id with
    | none => (m, ⟨500, .none⟩)
    | some b => (m.insert id (b.withLimit text), (b.withLimit text).report)

/-- What a request may change, and what its response then says. -/
inductive Keeps (m m' : KeyStore) : ApiServer.Task → ApiResponse → Prop
  /-- `/create` binds the id to the pair and the limit it reports. -/
  | created (id : List UInt8) (limit : Option (List UInt8)) (b : Binding) :
      b.playerlimit = createLimit limit → m'.lookup id = some b →
      (∀ id', id' ≠ id → m'.lookup id' = m.lookup id') →
      Keeps m m' (.create id limit) b.report
  /-- `/create` gives up. -/
  | gaveUp (id : List UInt8) (limit : Option (List UInt8)) : (∀ id', m'.lookup id' = m.lookup id') →
      Keeps m m' (.create id limit) ⟨500, .none⟩
  /-- `/get` reports the current binding. -/
  | got (id : List UInt8) : (∀ id', m'.lookup id' = m.lookup id') →
      Keeps m m' (.get id) ((m.lookup id).elim ⟨200, .empty⟩ Binding.report)
  /-- `/limit` changes the limit of the id and nothing else. -/
  | limited (id text : List UInt8) (b : Binding) : m.lookup id = some b →
      m'.lookup id = some (b.withLimit text) → (∀ id', id' ≠ id → m'.lookup id' = m.lookup id') →
      Keeps m m' (.limit id text) (b.withLimit text).report
  /-- `/delete` removes the id. -/
  | deleted (id : List UInt8) (b : Binding) : m.lookup id = some b → m'.lookup id = none →
      (∀ id', id' ≠ id → m'.lookup id' = m.lookup id') → Keeps m m' (.delete id) ⟨200, .success⟩
  /-- `/limit` and `/delete` of an absent id fail. -/
  | absent (task : ApiServer.Task) : m.lookup task.id = none →
      (∀ id', m'.lookup id' = m.lookup id') → (∀ limit, task ≠ .create task.id limit) →
      task ≠ .get task.id → Keeps m m' task ⟨500, .none⟩

theorem keeps_answer (draws : ℕ → RandomString) (task : ApiServer.Task) :
    m.Keeps (m.answer draws task).1 task (m.answer draws task).2 := by
  have hinsert : ∀ (id id' : List UInt8) (b : Binding), id' ≠ id →
      (m.insert id b).lookup id' = m.lookup id' := fun id id' b hne => by
    rw [UnorderedMap.lookup_insert_eq, if_neg hne]
  cases task with
  | create id limit =>
    rw [answer]
    cases m.drawKeys draws with
    | none => exact .gaveUp id limit fun _ => rfl
    | some keys => exact .created id limit _ rfl (AList.lookup_insert m) fun id' => hinsert id id' _
  | get id =>
    rw [answer]
    have hgot := Keeps.got (m := m) id fun _ => rfl
    cases hid : m.lookup id <;> rw [hid] at hgot <;> exact hgot
  | delete id =>
    rw [answer]
    cases hid : m.lookup id with
    | none => exact .absent _ hid (fun _ => rfl) (fun _ h => by cases h) (fun h => by cases h)
    | some b =>
      refine .deleted id b hid (AList.lookup_erase _ m) fun id' hne => ?_
      rw [UnorderedMap.lookup_erase_eq, if_neg hne]
  | limit id text =>
    rw [answer]
    cases hid : m.lookup id with
    | none => exact .absent _ hid (fun _ => rfl) (fun _ h => by cases h) (fun h => by cases h)
    | some b => exact .limited id text b hid (AList.lookup_insert m) fun id' => hinsert id id' _

/-! ### The key files of a map -/

/-- The key files are those of the map, and there is nothing else in the key directory. -/
structure StoredIn {D : Type*} [DecidableEq D] (inst : Installation D) (m : KeyStore)
    (s : ApiServer D) : Prop where
  text : ∀ id, s.keyFiles inst (id ++ txt) = (m.lookup id).map Binding.text
  name : ∀ name c, s.keyFiles inst name = some c → ∃ id, name = id ++ txt
  directory : ∀ name, s.files.directory (inst.keys, name) = none

namespace StoredIn

variable {D : Type*} [DecidableEq D] {inst : Installation D} {m : KeyStore} {s : ApiServer D}
  {id : List UInt8} {b : Binding}

theorem congr (h : m.StoredIn inst s) {s' : ApiServer D} (hfiles : s'.files = s.files) :
    m.StoredIn inst s' := by
  have hkey : ∀ name, s'.keyFiles inst name = s.keyFiles inst name := fun name => by
    rw [ApiServer.keyFiles, ApiServer.keyFiles, hfiles]
  exact ⟨fun id => (hkey _).trans (h.text id), fun name c hc => h.name name c (hkey name ▸ hc),
    fun name => hfiles ▸ h.directory name⟩

theorem loads_iff (h : m.StoredIn inst s) {e : AccessKeys} :
    (∃ name, s.Loads inst name e) ↔ ∃ id b, m.lookup id = some b ∧
      e = ⟨b.moonkey.toHash, b.playerkey.toHash, b.playerlimit, b.playerlimit_le⟩ := by
  constructor
  · rintro ⟨name, c, hc, he⟩
    obtain ⟨id, rfl⟩ := h.name name c hc
    obtain ⟨b, hb, rfl⟩ := Option.map_eq_some_iff.1 ((h.text id).symm.trans hc)
    exact ⟨id, b, hb, (ApiServer.loads_iff hc b.playerlimit_le).1 ⟨_, hc, he⟩⟩
  · rintro ⟨id, b, hb, rfl⟩
    have hraw : s.keyFiles inst (id ++ txt) = some b.text := by
      rw [h.text, hb]
      rfl
    exact ⟨id ++ txt, (ApiServer.loads_iff hraw b.playerlimit_le).2 rfl⟩

theorem hasKey_eq (h : m.StoredIn inst s) (hfresh : s.Fresh inst) (r : RandomString) :
    s.hasKey r = m.anyValue fun b => b.uses r := by
  rw [ApiServer.hasKey, convertHash_bytes, Bool.eq_iff_iff, hfresh.hasKey_iff,
    UnorderedMap.anyValue_iff]
  have hex : (∃ name e, s.Loads inst name e ∧ e.Has r.toHash) ↔
      ∃ e : AccessKeys, (∃ name, s.Loads inst name e) ∧ e.Has r.toHash := by
    constructor
    · rintro ⟨name, e, he, hk⟩
      exact ⟨e, ⟨name, he⟩, hk⟩
    · rintro ⟨e, ⟨name, he⟩, hk⟩
      exact ⟨name, e, he, hk⟩
  simp only [hex, h.loads_iff]
  constructor
  · rintro ⟨e, ⟨id, b, hb, rfl⟩, hk⟩
    exact ⟨id, b, hb, by
      simpa [AccessKeys.Has, Binding.uses, RandomString.toHash_inj] using hk⟩
  · rintro ⟨id, b, hb, hk⟩
    exact ⟨_, ⟨id, b, hb, rfl⟩, by
      simpa [AccessKeys.Has, Binding.uses, RandomString.toHash_inj] using hk⟩

theorem drawKeys_eq (h : m.StoredIn inst s) (hfresh : s.Fresh inst) :
    s.drawKeys = m.drawKeys := by
  have htaken : s.hasKey = fun r => m.anyValue fun b => b.uses r := funext (h.hasKey_eq hfresh)
  funext draws
  rw [ApiServer.drawKeys, KeyStore.drawKeys, htaken]

/-- Ids whose files cannot be opened are not in the map. -/
theorem fitsName (h : m.StoredIn inst s) (hb : m.lookup id = some b) : FitsName id :=
  inst.fitsName_of_contents (c := b.text) (by
    have htext := h.text id
    rwa [hb] at htext)

theorem keyFile_eq (_ : m.StoredIn inst s) (hid : ValidId id) (hfits : FitsName id) :
    s.keyFile inst id = .entry (inst.keys, id ++ txt) := inst.keyFile_eq s.files hid.plainId hfits

theorem opens_eq (h : m.StoredIn inst s) (hid : ValidId id) (hfits : FitsName id) :
    s.files.opens (s.keyFile inst id) = some (inst.keys, id ++ txt) :=
  (inst.opens_keyFile_iff hid.plainId).2 ⟨rfl, hfits, h.directory _⟩

theorem fileExists_eq (h : m.StoredIn inst s) (hid : ValidId id) :
    s.files.fileExists (s.keyFile inst id) =
      if FitsName id then some (m.lookup id).isSome else none := by
  rw [ApiServer.keyFile, inst.fileExists_keyFile hid.plainId]
  refine if_congr Iff.rfl (congrArg some (Bool.eq_iff_iff.2 ?_)) rfl
  rw [decide_eq_true_iff, FileSystem.mem_tree_iff, h.directory, ← FileSystem.contents_isSome]
  change (s.keyFiles inst (id ++ txt)).isSome = true ∨ _ ↔ _
  rw [h.text, Option.isSome_map]
  simp

/-- The name of the file is too long. -/
theorem not_fitsName (h : m.StoredIn inst s) (hid : ValidId id)
    (hexists : s.files.fileExists (s.keyFile inst id) = none) :
    ¬ FitsName id ∧ m.lookup id = none := by
  rw [h.fileExists_eq hid] at hexists
  split_ifs at hexists with hfits
  exact ⟨hfits, Option.eq_none_iff_forall_ne_some.2 fun b hb => hfits (h.fitsName hb)⟩

theorem lookup_eq_none (h : m.StoredIn inst s) (hid : ValidId id)
    (hexists : s.files.fileExists (s.keyFile inst id) = some false) : m.lookup id = none := by
  rw [h.fileExists_eq hid] at hexists
  split_ifs at hexists
  rwa [Option.some.injEq, Option.isSome_eq_false_iff, Option.isNone_iff_eq_none] at hexists

theorem exists_lookup (h : m.StoredIn inst s) (hid : ValidId id)
    (hexists : s.files.fileExists (s.keyFile inst id) = some true) : ∃ b, m.lookup id = some b := by
  rw [h.fileExists_eq hid] at hexists
  split_ifs at hexists
  rwa [Option.some.injEq, Option.isSome_iff_exists] at hexists

theorem readFile_eq (h : m.StoredIn inst s) (hid : ValidId id) (hb : m.lookup id = some b) :
    moonHashOf (s.readFile (s.keyFile inst id)) = some b.moonkey.bytes ∧
      playerHashOf (s.readFile (s.keyFile inst id)) = some b.playerkey.bytes ∧
      reportedLimit (s.readFile (s.keyFile inst id)) = b.playerlimit := by
  have hraw : s.keyFiles inst (id ++ txt) = some b.text := by
    rw [h.text, hb]
    rfl
  rw [h.keyFile_eq hid (h.fitsName hb), ApiServer.readFile_eq hraw, Binding.text,
    stripLines_randomText]
  exact ⟨moonHashOf_keyText b.moonkey.length_bytes,
    playerHashOf_keyText b.moonkey.length_bytes b.playerkey.length_bytes,
    reportedLimit_keyText b.moonkey.length_bytes b.playerkey.length_bytes b.playerlimit_le⟩

theorem insert (h : m.StoredIn inst s) (hid : ValidId id) (hfits : FitsName id) (b : Binding) :
    KeyStore.StoredIn inst (m.insert id b) (s.writeFile (s.keyFile inst id) b.text) := by
  have hkey : ∀ name, (s.writeFile (s.keyFile inst id) b.text).keyFiles inst name =
      if id ++ txt = name then some b.text else s.keyFiles inst name := fun name => by
    rw [ApiServer.keyFiles_writeFile, h.opens_eq hid hfits]
    simp only [Option.some.injEq, Prod.mk.injEq, true_and]
  refine ⟨fun id' => ?_, fun name c hc => ?_, fun name => ?_⟩
  · rw [hkey, UnorderedMap.lookup_insert_eq]
    simp only [List.append_cancel_right_eq, eq_comm (a := id)]
    split_ifs with heq
    · rfl
    · exact h.text id'
  · rw [hkey] at hc
    split_ifs at hc with heq
    · exact ⟨id, heq.symm⟩
    · exact h.name name c hc
  · exact (congrFun (FileSystem.sameDirectories_writeFile _ _).directory _).trans
      (h.directory name)

theorem remove_eq (h : m.StoredIn inst s) (hb : m.lookup id = some b) :
    s.files.remove (.entry (inst.keys, id ++ txt)) =
      some (true, s.files.drop (inst.keys, id ++ txt)) :=
  FileSystem.remove_of_contents (c := b.text) (by
    have htext := h.text id
    rwa [hb] at htext)

theorem erase (h : m.StoredIn inst s) (id : List UInt8) :
    KeyStore.StoredIn inst (m.erase id)
      { s with files := s.files.drop (inst.keys, id ++ txt) } := by
  have hkey : ∀ name, ApiServer.keyFiles inst
      { s with files := s.files.drop (inst.keys, id ++ txt) } name =
        if id ++ txt = name then none else s.keyFiles inst name := fun name => by
    simp only [ApiServer.keyFiles, FileSystem.contents_drop, Prod.mk.injEq, true_and,
      eq_comm (a := name)]
  refine ⟨fun id' => ?_, fun name c hc => ?_, fun name => ?_⟩
  · rw [hkey, UnorderedMap.lookup_erase_eq]
    simp only [List.append_cancel_right_eq, eq_comm (a := id)]
    split_ifs with heq
    · rfl
    · exact h.text id'
  · rw [hkey] at hc
    split_ifs at hc
    exact h.name name c hc
  · rw [FileSystem.directory_drop]
    split_ifs
    · rfl
    · exact h.directory name

end StoredIn

end KeyStore

/-! ### Requests for files that can be opened -/

/-- The file of a `/get`, and of a `/create` that draws two new keys, can be opened. -/
def ApiServer.Task.Storable {D : Type*} [DecidableEq D] (inst : Installation D) (s : ApiServer D)
    (luck : Luck) : ApiServer.Task → Prop
  | .create id _ => (s.refreshKeys inst luck.first).drawKeys luck.draws = none ∨ FitsName id
  | .get id => FitsName id
  | .delete _ | .limit _ _ => True

namespace KeyStore.StoredIn

variable {D : Type*} [DecidableEq D] {inst : Installation D} {m : KeyStore} {s : ApiServer D}

/-- A handler does on the files what the request means for the map. -/
theorem perform (h : m.StoredIn inst s) (luck : Luck) {task : ApiServer.Task}
    (hid : ValidId task.id) (hok : task.Storable inst s luck) :
    (m.answer luck.draws task).1.StoredIn inst (s.perform inst luck task).1 ∧
      (s.perform inst luck task).2.getD .thrown = (m.answer luck.draws task).2 := by
  have hfirst : m.StoredIn inst (s.refreshKeys inst luck.first) := h.congr rfl
  have hdraws := hfirst.drawKeys_eq (ApiServer.fresh_refreshKeys _)
  have hr : ApiServer.TaskResult inst s luck task (s.perform inst luck task).1
    (s.perform inst luck task).2 := ApiServer.perform_result s luck task
  generalize s.perform inst luck task = r at hr
  obtain ⟨s', response⟩ := r
  cases hr with
  | noKeys id limit hdraw =>
    rw [hdraws] at hdraw
    rw [show m.answer luck.draws (.create id limit) = (m, ⟨500, .none⟩) by rw [answer, hdraw]]
    exact ⟨hfirst, rfl⟩
  | created id limit player moon hdraw =>
    have hfits : FitsName id := hok.resolve_left (by rw [hdraw]; simp)
    rw [hdraws] at hdraw
    have hanswer := answer.eq_1 m luck.draws id limit
    rw [hdraw] at hanswer
    rw [hanswer]
    exact ⟨(hfirst.insert hid hfits ⟨moon, player, _, createLimit_le limit⟩).congr rfl, rfl⟩
  | getRefused id hexists => exact absurd hok (h.not_fitsName hid hexists).1
  | getNothing id hexists =>
    have hid : ValidId id := hid
    rw [show m.answer luck.draws (.get id) = (m, ⟨200, .empty⟩) by
      rw [answer, h.lookup_eq_none hid hexists]]
    exact ⟨hfirst, rfl⟩
  | got id moon player hexists hmoon hplayer =>
    have hid : ValidId id := hid
    obtain ⟨b, hb⟩ := h.exists_lookup hid hexists
    obtain ⟨hm, hp, hl⟩ := h.readFile_eq hid hb
    obtain rfl := Option.some.inj (hm.symm.trans hmoon)
    obtain rfl := Option.some.inj (hp.symm.trans hplayer)
    rw [show m.answer luck.draws (.get id) = (m, b.report) by rw [answer, hb], hl]
    exact ⟨hfirst, rfl⟩
  | getThrows id hexists hplayer =>
    obtain ⟨b, hb⟩ := h.exists_lookup hid hexists
    exact absurd ((h.readFile_eq hid hb).2.1.symm.trans hplayer) (by simp)
  | deleteRefused id hexists =>
    have hid : ValidId id := hid
    rw [show m.answer luck.draws (.delete id) = (m, ⟨500, .none⟩) by
      rw [answer, (h.not_fitsName hid hexists).2]]
    exact ⟨h, rfl⟩
  | deleteNothing id hexists =>
    have hid : ValidId id := hid
    rw [show m.answer luck.draws (.delete id) = (m, ⟨500, .none⟩) by
      rw [answer, h.lookup_eq_none hid hexists]]
    exact ⟨h, rfl⟩
  | deleteInvalid id hexists hinvalid => exact absurd hid hinvalid
  | deleted id files _ hexists hremove =>
    have hid : ValidId id := hid
    obtain ⟨b, hb⟩ := h.exists_lookup hid hexists
    rw [h.keyFile_eq hid (h.fitsName hb), h.remove_eq hb] at hremove
    obtain ⟨-, rfl⟩ := Prod.mk.inj (Option.some.inj hremove)
    rw [show m.answer luck.draws (.delete id) = (m.erase id, ⟨200, .success⟩) by rw [answer, hb]]
    exact ⟨h.erase id, rfl⟩
  | deleteThrows id _ hexists hremove =>
    have hid : ValidId id := hid
    obtain ⟨b, hb⟩ := h.exists_lookup hid hexists
    rw [h.keyFile_eq hid (h.fitsName hb), h.remove_eq hb] at hremove
    cases hremove
  | limitRefused id text hexists =>
    have hid : ValidId id := hid
    rw [show m.answer luck.draws (.limit id text) = (m, ⟨500, .none⟩) by
      rw [answer, (h.not_fitsName hid hexists).2]]
    exact ⟨h, rfl⟩
  | limitNothing id text hexists =>
    have hid : ValidId id := hid
    rw [show m.answer luck.draws (.limit id text) = (m, ⟨500, .none⟩) by
      rw [answer, h.lookup_eq_none hid hexists]]
    exact ⟨h, rfl⟩
  | limitInvalid id text hexists hinvalid => exact absurd hid hinvalid
  | limited id text moon player _ hexists hmoon hplayer =>
    have hid : ValidId id := hid
    obtain ⟨b, hb⟩ := h.exists_lookup hid hexists
    obtain ⟨hm, hp, -⟩ := h.readFile_eq hid hb
    obtain rfl := Option.some.inj (hm.symm.trans hmoon)
    obtain rfl := Option.some.inj (hp.symm.trans hplayer)
    rw [show m.answer luck.draws (.limit id text) =
      (m.insert id (b.withLimit text), (b.withLimit text).report) by rw [answer, hb]]
    exact ⟨h.insert hid (h.fitsName hb) (b.withLimit text), rfl⟩
  | limitThrows id text _ hexists hplayer =>
    obtain ⟨b, hb⟩ := h.exists_lookup hid hexists
    exact absurd ((h.readFile_eq hid hb).2.1.symm.trans hplayer) (by simp)

/-- A handler that does on the files what the request means for the map can open the file. -/
theorem storable (h : m.StoredIn inst s) (luck : Luck) {task : ApiServer.Task}
    (hid : ValidId task.id)
    (hstored : (m.answer luck.draws task).1.StoredIn inst (s.perform inst luck task).1)
    (hanswer : (s.perform inst luck task).2.getD .thrown = (m.answer luck.draws task).2) :
    task.Storable inst s luck := by
  cases task with
  | create id limit =>
    have hfirst : m.StoredIn inst (s.refreshKeys inst luck.first) := h.congr rfl
    have hdraws := hfirst.drawKeys_eq (ApiServer.fresh_refreshKeys _)
    cases hdraw : (s.refreshKeys inst luck.first).drawKeys luck.draws with
    | none => exact .inl hdraw
    | some keys =>
      rw [hdraws] at hdraw
      have hlookup : (m.answer luck.draws (.create id limit)).1.lookup id =
          some ⟨keys.2, keys.1, createLimit limit, createLimit_le limit⟩ := by
        rw [answer, hdraw]
        exact AList.lookup_insert m
      exact .inr (hstored.fitsName hlookup)
  | get id =>
    have hid : ValidId id := hid
    by_contra hlong
    have hlong : ¬ FitsName id := hlong
    have hexists : s.files.fileExists (s.keyFile inst id) = none := by
      rw [h.fileExists_eq hid, if_neg hlong]
    have hstatus := congrArg ApiResponse.status hanswer
    simp only [ApiServer.perform, ApiServer.get, ApiServer.files_refreshKeys,
      ApiServer.keyFile_refreshKeys, hexists, answer] at hstatus
    cases hb : m.lookup id <;> simp [hb, Binding.report, ApiResponse.thrown] at hstatus
  | delete | limit => trivial

end KeyStore.StoredIn

/-! ### All requests -/

/-- The map between two requests, with the responses so far, newest first. -/
structure StoreWorld where
  store : KeyStore
  answers : List ApiResponse

/-- The map, handling one request after the other.  The requests have all fields and the secret,
and their ids are letters and digits. -/
def keyStore {D : Type*} (inst : Installation D) : Machine StoreWorld ApiCall where
  init := ⟨∅, []⟩
  next w call := (ApiServer.task inst call.request).bind fun task =>
    if ValidId task.id then
      some ⟨(w.store.answer call.luck.draws task).1,
        (w.store.answer call.luck.draws task).2 :: w.answers⟩
    else none

/-- The handlers and the map, with the same requests. -/
def besideStore {D : Type*} [DecidableEq D] (inst : Installation D) (start : ApiServer D) :
    Machine (ApiWorld D × StoreWorld) ApiCall :=
  (apiServer inst start).couple (keyStore inst) fun _ _ call => some ([call], [call])

section

variable {D : Type*} [DecidableEq D] (inst : Installation D)

/-- The responses and the key files are those of the map. -/
def IsStore (u : ApiWorld D × StoreWorld) : Prop :=
  u.1.answers = u.2.answers ∧ u.2.store.StoredIn inst u.1.server

/-- The file of a `/get`, and of a `/create` that draws two new keys, can be opened: the id has at
most 251 characters. -/
def Storable (s : ApiServer D) (call : ApiCall) : Prop :=
  ∀ task, ApiServer.task inst call.request = some task → task.Storable inst s call.luck

variable {inst} {start : ApiServer D} {files : FileSystem D} {order : ScanOrder}
  {calls : List ApiCall} {u u' : ApiWorld D × StoreWorld} {call : ApiCall}

theorem besideStore_next (h : (besideStore inst start).next u call = some u') :
    ∃ task, ApiServer.task inst call.request = some task ∧ ValidId task.id ∧
      u'.1 = ⟨(u.1.server.perform inst call.luck task).1,
        (u.1.server.perform inst call.luck task).2.getD .thrown :: u.1.answers⟩ ∧
      u'.2 = ⟨(u.2.store.answer call.luck.draws task).1,
        (u.2.store.answer call.luck.draws task).2 :: u.2.answers⟩ := by
  obtain ⟨ls, ks, hmoves, hls, hks⟩ := Machine.couple_next h
  obtain ⟨rfl, rfl⟩ := Prod.mk.inj (Option.some.inj hmoves)
  rw [Machine.run_singleton] at hls hks
  obtain ⟨task, htask, hks⟩ := Option.bind_eq_some_iff.1 hks
  split_ifs at hks with hid
  refine ⟨task, htask, hid, ?_, (Option.some.inj hks).symm⟩
  rw [← Option.some.inj hls, ApiServer.handle, htask]

/-- A request keeps the files and the map together exactly if its file can be opened. -/
theorem IsStore.next_iff (h : IsStore inst u)
    (hst : (besideStore inst start).next u call = some u') :
    IsStore inst u' ↔ Storable inst u.1.server call := by
  obtain ⟨hanswers, hstored⟩ := h
  obtain ⟨task, htask, hid, hfirst, hsecond⟩ := besideStore_next hst
  rw [IsStore, hfirst, hsecond, Storable, htask]
  simp only [Option.some.injEq, forall_eq', List.cons.injEq, hanswers, and_true]
  exact ⟨fun ⟨hanswer, hnext⟩ => hstored.storable call.luck hid hnext hanswer,
    fun hok => (hstored.perform call.luck hid hok).symm⟩

theorem isStore_init (hempty : ∀ name, (inst.keys, name) ∉ files.tree) :
    IsStore inst (besideStore inst (.start inst files order)).init := by
  have hnone : ∀ name, files.file (inst.keys, name) = none ∧
      files.directory (inst.keys, name) = none := fun name => by
    have hname := hempty name
    rw [FileSystem.mem_tree_iff, not_or] at hname
    simpa using hname
  have hkey : ∀ name, (ApiServer.start inst files order).keyFiles inst name = none := fun name => by
    rw [ApiServer.keyFiles, FileSystem.contents]
    exact congrArg (Option.map _) (hnone name).1
  exact ⟨rfl, fun id => hkey _, fun name c hc => (by cases (hkey name).symm.trans hc),
    fun name => (hnone name).2⟩

/-- **When the key API is a store.**  For all authorised requests, starting with an empty key
directory, in every state the responses and the key files are those of the map exactly if every
`/get`, and every `/create` that draws two new keys, is for a file that can be opened; and what a
request changes in the map, and what its response says, is as `KeyStore.Keeps` has it. -/
theorem isStore_iff (hempty : ∀ name, (inst.keys, name) ∉ files.tree)
    (hrun : (besideStore inst (.start inst files order)).run
      (besideStore inst (.start inst files order)).init calls = some u) :
    ((besideStore inst (.start inst files order)).Visits (IsStore inst)
        (besideStore inst (.start inst files order)).init calls ↔
      (besideStore inst (.start inst files order)).Meets
        (fun v call => Storable inst v.1.server call)
        (besideStore inst (.start inst files order)).init calls) ∧
    ∀ (m : KeyStore) draws task, m.Keeps (m.answer draws task).1 task (m.answer draws task).2 :=
  ⟨Machine.visits_iff_meets (fun _ _ _ _ h hst => h.next_iff hst) .init (isStore_init hempty) hrun,
    fun m draws task => m.keeps_answer draws task⟩

end

/-- The handlers and the map, when the program starts without files. -/
def emptyStore : Machine (ApiWorld Unit × StoreWorld) ApiCall :=
  besideStore oneDirectory (.start oneDirectory noFiles default)

/-- The request `/get` for an id. -/
def getCall (id : List UInt8) : ApiCall := ⟨getRequest oneDirectory id, default⟩

/-- `/create` and `/get` of the id "a". -/
theorem isStore_iff_createCall :
    emptyStore.Visits (IsStore oneDirectory) emptyStore.init [createCall, getCall exampleId] :=
  (@isStore_iff Unit _ oneDirectory noFiles default [createCall, getCall exampleId]
    ((emptyStore.run emptyStore.init [createCall, getCall exampleId]).get (by decide +kernel))
    (fun _ h => by cases h) (Option.some_get _).symm).1.2
    ⟨fun task htask => by cases htask; exact .inr (by decide), fun _ _ =>
      ⟨fun task htask => by cases htask; exact (show FitsName _ by decide), fun _ _ => trivial⟩⟩

/-- An id of 252 letters. -/
def longId : List UInt8 := List.replicate 252 97

/-- `/create` and `/get` of `longId`. -/
def longCalls : List ApiCall :=
  [⟨⟨.create, some oneDirectory.secret, some longId, none⟩, exampleLuck⟩, getCall longId]

/-- The state after `longCalls`. -/
def longState : ApiWorld Unit × StoreWorld :=
  (emptyStore.run emptyStore.init longCalls).get (by decide +kernel)

/-- **The key API is not always a store**: for an id of 252 letters `/create` reports a pair, but no
file was written, and a `/get` fails. -/
theorem not_isStore : emptyStore.run emptyStore.init longCalls = some longState ∧
    longState.1.answers = [.thrown, ⟨200, .keys [49, 49, 49, 49] [48, 48, 48, 48] 80⟩] ∧
    longState.1.server.files.entries () = [] ∧
    ¬ emptyStore.Visits (IsStore oneDirectory) emptyStore.init longCalls := by
  refine ⟨(Option.some_get _).symm, by decide +kernel, by decide +kernel, fun h => ?_⟩
  obtain ⟨-, h⟩ := h
  obtain ⟨-, h⟩ := h _ (Option.some_get (by decide +kernel)).symm
  obtain ⟨hanswers, -⟩ := h _ (Option.some_get (by decide +kernel)).symm
  revert hanswers
  decide +kernel

end MoonJamRelay
