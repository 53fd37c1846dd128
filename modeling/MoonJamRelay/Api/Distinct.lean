import MoonJamRelay.Api.Readers

/-!
# Keys never collide

The keys of a new pair are drawn until they are in no file that was just loaded, so the key files
never share a key.  The table is always what some earlier scan found.

* `KeyManager.Proper` : all keys of a table are different and not zeros.  `Proper.scans` : then
  `getRoom`, `getPlayerLimit`, `hasKey` and the test for a moon client agree with each other.
* `ApiServer.WellKeyed` : every key file was written by the program, and no two share a key; kept by
  every task.
* `keys_never_collide` : starting without key files, the table is proper after all requests.
-/

namespace MoonJamRelay

/-! ### Proper tables -/

/-- All keys of the table are different, and not the array of zeros. -/
structure KeyManager.Proper (K : KeyManager) : Prop where
  distinct : K.Distinct
  ne_empty : ∀ e ∈ K.keys, e.moonKey ≠ Hash.empty ∧ e.playerKey ≠ Hash.empty

namespace KeyManager.Proper

variable {K : KeyManager} {e : AccessKeys} {key : Hash}

theorem getRoom_of_has (h : K.Proper) (he : e ∈ K.keys) (hk : e.Has key) :
    K.getRoom key = e.moonKey := by
  rw [getRoom, h.distinct.find_eq he hk]
  rfl

theorem getPlayerLimit_of_has (h : K.Proper) (he : e ∈ K.keys) (hk : e.Has key) :
    K.getPlayerLimit key = e.playerLimit := by
  rw [getPlayerLimit, h.distinct.find_eq he hk]
  rfl

/-- A key that is found belongs to a pair of the table. -/
theorem exists_of_hasKey (hk : K.hasKey key = true) : ∃ e ∈ K.keys, e.Has key := by
  obtain ⟨e, he⟩ := Option.isSome_iff_exists.1 hk
  exact ⟨e, find_spec he⟩

theorem getRoom_eq_empty_iff (h : K.Proper) :
    K.getRoom key = Hash.empty ↔ K.hasKey key = false := by
  constructor
  · intro hr
    by_contra hk
    obtain ⟨e, he, hk⟩ := exists_of_hasKey (by simpa using hk)
    exact (h.ne_empty e he).1 (h.getRoom_of_has he hk ▸ hr)
  · intro hk
    rw [hasKey, Option.isSome_eq_false_iff, Option.isNone_iff_eq_none] at hk
    rw [getRoom, hk]
    rfl

theorem getRoom_eq_iff (h : K.Proper) (he : e ∈ K.keys) :
    K.getRoom key = e.moonKey ↔ e.Has key := by
  refine ⟨fun hr => ?_, h.getRoom_of_has he⟩
  have hk : K.hasKey key = true := by
    by_contra hk
    rw [h.getRoom_eq_empty_iff.2 (by simpa using hk)] at hr
    exact (h.ne_empty e he).1 hr.symm
  obtain ⟨e', he', hk'⟩ := exists_of_hasKey hk
  rw [h.getRoom_of_has he' hk'] at hr
  rwa [h.distinct.eq_of_key he he' (.inl rfl) (.inl hr)]

/-- Behind the test for the zeros, the test `room == hash` finds the moon keys. -/
theorem moonClient_iff (h : K.Proper) (hroom : K.getRoom key ≠ Hash.empty) :
    K.getRoom key = key ↔ ∃ e ∈ K.keys, e.moonKey = key := by
  constructor
  · intro hr
    have hk : K.hasKey key = true := by
      by_contra hk
      exact hroom (h.getRoom_eq_empty_iff.2 (by simpa using hk))
    obtain ⟨e, he, hk⟩ := exists_of_hasKey hk
    exact ⟨e, he, (h.getRoom_of_has he hk).symm.trans hr⟩
  · rintro ⟨e, he, rfl⟩
    exact h.getRoom_of_has he (.inl rfl)

end KeyManager.Proper

/-! ### Well-keyed files -/

namespace ApiServer

variable {D : Type*} [DecidableEq D] {inst : Installation D} {s s' : ApiServer D} {name : Name}
  {e : AccessKeys} {t : Target D} {moon player : RandomString} {limit : ℕ}

/-- The key files were written by the program, and no two of them share a key. -/
structure WellKeyed (inst : Installation D) (s : ApiServer D) : Prop where
  written : ∀ name c, s.keyFiles inst name = some c → ∃ (moon player : RandomString) (limit : ℕ),
    moon ≠ player ∧ limit ≤ intMax ∧ c = keyText moon.bytes player.bytes limit
  unique : ∀ name name' e e' key, s.Loads inst name e → s.Loads inst name' e' → e.Has key →
    e'.Has key → name = name'

theorem loads_iff (h : s.keyFiles inst name = some (keyText moon.bytes player.bytes limit))
    (hlimit : limit ≤ intMax) :
    s.Loads inst name e ↔ e = ⟨moon.toHash, player.toHash, limit, hlimit⟩ := by
  have hload : AccessKeys.ofContents (stripLines (keyText moon.bytes player.bytes limit)) =
      some ⟨moon.toHash, player.toHash, limit, hlimit⟩ := by
    rw [stripLines_randomText]
    exact ofContents_keyText moon.toHash player.toHash hlimit
  constructor
  · rintro ⟨c, hc, he⟩
    obtain rfl := Option.some.inj (h.symm.trans hc)
    exact Option.some.inj (he.symm.trans hload)
  · rintro rfl
    exact ⟨_, h, hload⟩

theorem Loads.congr (h : s'.keyFiles inst name = s.keyFiles inst name) :
    s'.Loads inst name e ↔ s.Loads inst name e := by
  rw [Loads, Loads, h]

namespace WellKeyed

theorem congr (h : s.WellKeyed inst) (hfiles : s'.files = s.files) : s'.WellKeyed inst := by
  have hkey : ∀ name, s'.keyFiles inst name = s.keyFiles inst name := fun name => by
    rw [keyFiles, keyFiles, hfiles]
  refine ⟨fun name c hc => h.written name c (by rwa [← hkey]), ?_⟩
  intro name name' e e' key he he'
  exact h.unique name name' e e' key ((Loads.congr (hkey name)).1 he)
    ((Loads.congr (hkey name')).1 he')

theorem loads (h : s.WellKeyed inst) (he : s.Loads inst name e) :
    ∃ moon player : RandomString, moon ≠ player ∧ e.moonKey = moon.toHash ∧
      e.playerKey = player.toHash := by
  obtain ⟨c, hc, -⟩ := id he
  obtain ⟨moon, player, limit, hne, hlimit, rfl⟩ := h.written name c hc
  obtain rfl := (loads_iff hc hlimit).1 he
  exact ⟨moon, player, hne, rfl, rfl⟩

theorem proper (h : s.WellKeyed inst) (hfresh : s.Fresh inst) : s.keyManager.Proper := by
  refine ⟨?_, fun e he => ?_⟩
  · have hsymm : Std.Symm
        (Function.onFun List.Disjoint fun e : AccessKeys => [e.moonKey, e.playerKey]) :=
      ⟨fun _ _ h _ hy hx => h hx hy⟩
    refine List.nodup_flatMap.2 ⟨fun e he => ?_, ?_⟩
    · obtain ⟨name, hl⟩ := hfresh.mem_keys.1 he
      obtain ⟨moon, player, hne, hm, hp⟩ := h.loads hl
      rw [hm, hp]
      refine List.nodup_cons.2 ⟨fun hmem => ?_, List.nodup_singleton _⟩
      rw [List.mem_singleton, RandomString.toHash_inj] at hmem
      exact hne hmem
    · rw [List.Perm.pairwise_iff (fun hd => hsymm.symm _ _ hd) hfresh, scan,
        List.pairwise_filterMap]
      have hnames : (s.files.entries inst.keys).Nodup := FileSystem.nodup_entries _
      refine hnames.imp_of_mem ?_
      intro a b _ _ hab e he e' he' key hmem hmem'
      -- two files with different names
      refine hab (h.unique a b e e' key (loads_of_readFile he) (loads_of_readFile he') ?_ ?_)
      · simpa [AccessKeys.Has, eq_comm] using hmem
      · simpa [AccessKeys.Has, eq_comm] using hmem'
  · obtain ⟨name, hl⟩ := hfresh.mem_keys.1 he
    obtain ⟨moon, player, -, hm, hp⟩ := h.loads hl
    exact ⟨hm ▸ moon.ne_empty, hp ▸ player.ne_empty⟩

theorem writeFile (h : s.WellKeyed inst) (hne : moon ≠ player) (hlimit : limit ≤ intMax)
    (hnew : ∀ name e, s.files.opens t ≠ some (inst.keys, name) → s.Loads inst name e →
      ¬ e.Has moon.toHash ∧ ¬ e.Has player.toHash) :
    (s.writeFile t (keyText moon.bytes player.bytes limit)).WellKeyed inst := by
  have hwritten : ∀ name, s.files.opens t = some (inst.keys, name) →
      (s.writeFile t (keyText moon.bytes player.bytes limit)).keyFiles inst name =
        some (keyText moon.bytes player.bytes limit) := fun name ht => by
    rw [keyFiles_writeFile, if_pos ht]
  have hother : ∀ name, s.files.opens t ≠ some (inst.keys, name) →
      (s.writeFile t (keyText moon.bytes player.bytes limit)).keyFiles inst name =
        s.keyFiles inst name := fun name ht => by
    rw [keyFiles_writeFile, if_neg ht]
  -- a key of the new pair is not in another file
  have hdisjoint : ∀ name name' e e' key, s.files.opens t = some (inst.keys, name) →
      s.files.opens t ≠ some (inst.keys, name') →
      (s.writeFile t (keyText moon.bytes player.bytes limit)).Loads inst name e →
      (s.writeFile t (keyText moon.bytes player.bytes limit)).Loads inst name' e' →
      e.Has key → ¬ e'.Has key := by
    intro name name' e e' key ht ht' he he' hk
    obtain rfl := (loads_iff (hwritten name ht) hlimit).1 he
    obtain ⟨hm, hp⟩ := hnew name' e' ht' ((Loads.congr (hother name' ht')).1 he')
    rcases hk with rfl | rfl
    · exact hm
    · exact hp
  refine ⟨fun name c hc => ?_, fun name name' e e' key he he' hk hk' => ?_⟩
  · by_cases ht : s.files.opens t = some (inst.keys, name)
    · rw [hwritten name ht, Option.some.injEq] at hc
      exact ⟨moon, player, limit, hne, hlimit, hc.symm⟩
    · rw [hother name ht] at hc
      exact h.written name c hc
  · by_cases ht : s.files.opens t = some (inst.keys, name) <;>
      by_cases ht' : s.files.opens t = some (inst.keys, name')
    · exact (Prod.mk.inj (Option.some.inj (ht.symm.trans ht'))).2
    · exact absurd hk' (hdisjoint name name' e e' key ht ht' he he' hk)
    · exact absurd hk (hdisjoint name' name e' e key ht' ht he' he hk')
    · exact h.unique name name' e e' key ((Loads.congr (hother name ht)).1 he)
        ((Loads.congr (hother name' ht')).1 he') hk hk'

theorem remove (h : s.WellKeyed inst) {b : Bool} {files : FileSystem D}
    (hremove : s.files.remove t = some (b, files)) :
    { s with files := files : ApiServer D }.WellKeyed inst := by
  have hkeep : ∀ name c, { s with files := files : ApiServer D }.keyFiles inst name = some c →
      s.keyFiles inst name = some c := by
    intro name c hc
    rw [keyFiles, FileSystem.contents_remove hremove] at hc
    split_ifs at hc
    exact hc
  refine ⟨fun name c hc => h.written name c (hkeep name c hc), ?_⟩
  rintro name name' e e' key ⟨c, hc, he⟩ ⟨c', hc', he'⟩
  exact h.unique name name' e e' key ⟨c, hkeep name c hc, he⟩ ⟨c', hkeep name' c' hc', he'⟩

theorem rewrite (h : s.WellKeyed inst) {c moonHash playerHash : List UInt8}
    (hc : s.keyFiles inst name = some c) (hmoon : moonHashOf (stripLines c) = some moonHash)
    (hplayer : playerHashOf (stripLines c) = some playerHash) (hlimit : limit ≤ intMax) :
    (s.writeFile (.entry (inst.keys, name))
      (keyText moonHash playerHash limit)).WellKeyed inst := by
  obtain ⟨moon, player, limit', hne, hlimit', rfl⟩ := h.written name c hc
  rw [stripLines_randomText] at hmoon hplayer
  rw [moonHashOf_keyText moon.length_bytes, Option.some.injEq] at hmoon
  rw [playerHashOf_keyText moon.length_bytes player.length_bytes, Option.some.injEq] at hplayer
  subst hmoon hplayer
  have hself : s.Loads inst name ⟨moon.toHash, player.toHash, limit', hlimit'⟩ :=
    (loads_iff hc hlimit').2 rfl
  refine h.writeFile hne hlimit fun name' e ht he => ?_
  have hname : ∀ key, e.Has key →
      ¬ AccessKeys.Has ⟨moon.toHash, player.toHash, limit', hlimit'⟩ key := by
    intro key hk hk'
    exact ht (h.unique name name' _ e key hself he hk' hk ▸ FileSystem.opens_of_contents hc)
  exact ⟨fun hk => hname _ hk (.inl rfl), fun hk => hname _ hk (.inr rfl)⟩

end WellKeyed

theorem not_has_of_hasKey {r : RandomString} (hfresh : s.Fresh inst) (hr : s.hasKey r = false)
    (he : s.Loads inst name e) : ¬ e.Has r.toHash := by
  intro hk
  have hhas := hfresh.hasKey_iff.2 ⟨name, e, he, hk⟩
  rw [hasKey, convertHash_bytes] at hr
  rw [hr] at hhas
  cases hhas

theorem TaskResult.wellKeyed {luck : Luck} {task : Task} {response : Option ApiResponse}
    (h : s.WellKeyed inst) (hK : s.keyManager.Proper)
    (hr : TaskResult inst s luck task s' response) :
    s'.WellKeyed inst ∧ s'.keyManager.Proper := by
  have hfirst : (s.refreshKeys inst luck.first).WellKeyed inst := h.congr rfl
  have hproper : (s.refreshKeys inst luck.first).keyManager.Proper :=
    hfirst.proper (fresh_refreshKeys _)
  cases hr with
  | noKeys | getRefused | getNothing | got | getThrows => exact ⟨hfirst, hproper⟩
  | deleteRefused | deleteNothing | deleteInvalid | deleteThrows | limitRefused | limitNothing
  | limitInvalid | limitThrows => exact ⟨h, hK⟩
  | created id limit player moon hdraw =>
    obtain ⟨hp, hm, hne⟩ := drawKeys_spec hdraw
    have hwrite := hfirst.writeFile (t := s.keyFile inst id) hne (createLimit_le limit)
      fun name e _ he => ⟨not_has_of_hasKey (fresh_refreshKeys _) hm he,
        not_has_of_hasKey (fresh_refreshKeys _) hp he⟩
    exact ⟨hwrite.congr rfl, WellKeyed.proper (hwrite.congr rfl) (fresh_refreshKeys _)⟩
  | deleted id files hid hexists hremove => exact ⟨h.remove hremove, hK⟩
  | limited id text moon player hid hexists hmoon hplayer =>
    obtain ⟨c, hc⟩ := keyFiles_of_playerHashOf hid.plainId hplayer
    rw [keyFile_of_keyFiles hid.plainId hc] at hmoon hplayer ⊢
    rw [readFile_eq hc] at hmoon hplayer
    exact ⟨h.rewrite hc hmoon hplayer (playerLimitOf_le text), hK⟩

end ApiServer

/-! ### All requests -/

variable {D : Type*} [DecidableEq D] {inst : Installation D} {files : FileSystem D}
  {order : ScanOrder} {w : ApiWorld D}

/-- **Keys never collide.**  Starting without key files, after any requests all keys of the table
are different and not zeros; so the scans of the table agree with each other. -/
theorem keys_never_collide (hempty : ∀ name, files.contents (inst.keys, name) = none)
    (h : (apiServer inst (.start inst files order)).Reachable w) :
    let K := w.server.keyManager
    K.Distinct ∧ (∀ e ∈ K.keys, e.moonKey ≠ Hash.empty ∧ e.playerKey ≠ Hash.empty) ∧
    (∀ e ∈ K.keys, ∀ key, (K.getRoom key = e.moonKey ↔ key = e.moonKey ∨ key = e.playerKey) ∧
      (key = e.moonKey ∨ key = e.playerKey → K.getPlayerLimit key = e.playerLimit ∧
        K.getPlayerLimit (K.getRoom key) = e.playerLimit)) ∧
    (∀ key, K.getRoom key = Hash.empty ↔ K.hasKey key = false) ∧
    ∀ key, K.getRoom key ≠ Hash.empty → (K.getRoom key = key ↔ ∃ e ∈ K.keys, e.moonKey = key) := by
  have hinv : w.server.WellKeyed inst ∧ w.server.keyManager.Proper := by
    refine h.invariant (I := fun w => w.server.WellKeyed inst ∧ w.server.keyManager.Proper) ?_ ?_
    · have hstart : (ApiServer.start inst files order).WellKeyed inst := by
        refine ⟨fun name c hc => ?_, ?_⟩
        · exact absurd ((hempty name).symm.trans hc) (by simp)
        · rintro name - - - - ⟨c, hc, -⟩
          exact absurd ((hempty name).symm.trans hc) (by simp)
      exact ⟨hstart, hstart.proper (ApiServer.fresh_refreshKeys _)⟩
    · rintro u call u' - ⟨hwell, hproper⟩ hst
      obtain rfl := Option.some.inj hst
      simp only [ApiServer.handle]
      cases ApiServer.task inst call.request with
      | none => exact ⟨hwell, hproper⟩
      | some task =>
        exact (ApiServer.perform_result u.server call.luck task).wellKeyed hwell hproper
  obtain ⟨-, hK⟩ := hinv
  have hhas : ∀ (e : AccessKeys) (key : Hash),
      key = e.moonKey ∨ key = e.playerKey ↔ e.Has key := fun e key => by
    simp [AccessKeys.Has, eq_comm]
  refine ⟨hK.distinct, hK.ne_empty, fun e he key => ?_, fun key => hK.getRoom_eq_empty_iff,
    fun key hroom => hK.moonClient_iff hroom⟩
  rw [hhas]
  refine ⟨hK.getRoom_eq_iff he, fun hk => ⟨hK.getPlayerLimit_of_has he hk, ?_⟩⟩
  rw [hK.getRoom_of_has he hk]
  exact hK.getPlayerLimit_of_has he (.inl rfl)

/-- After `createCall` the table has one pair, with two different keys. -/
theorem keys_never_collide_createdWorld : createdWorld.server.keyManager.keys.length = 1 ∧
    createdWorld.server.keyManager.Distinct :=
  ⟨by decide +kernel, (keys_never_collide (fun _ => rfl) createdWorld_reachable).1⟩

end MoonJamRelay
