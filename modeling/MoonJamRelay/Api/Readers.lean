import MoonJamRelay.Api.Server

/-!
# The readers of a key file

`refreshKeys`, `/get` and `/limit` decode a key file on their own.

* `keyFile_roundtrip` : what `/create` writes is decoded to the keys and the limit it reports.
* `ReadersAgree` : all three reject the file of an id, or all three find the same keys.
* `readersAgree_iff` : they agree exactly when the file, without its line ends, does not have 5, 6,
  7 or 8 characters.  In these files `refreshKeys` finds too little, but the handlers cut out two
  keys.
-/

namespace MoonJamRelay

/-! ### What `/create` writes -/

theorem RandomString.not_line_end (r : RandomString) : ∀ c ∈ r.bytes, c ≠ 13 ∧ c ≠ 10 := by
  intro c hc
  have ha := r.alphanumeric c hc
  refine ⟨?_, ?_⟩ <;> rintro rfl <;> revert ha <;> decide

/-- Reading the text of random keys gives the text. -/
theorem stripLines_randomText (moon player : RandomString) (limit : ℕ) :
    stripLines (keyText moon.bytes player.bytes limit) = keyText moon.bytes player.bytes limit :=
  stripLines_keyText moon.not_line_end player.not_line_end limit

namespace ApiServer

variable {D : Type*} [DecidableEq D] {inst : Installation D} {s : ApiServer D}

/-- What `/create` does once it has drawn two keys. -/
theorem create_of_drawKeys {luck : Luck} {player moon : RandomString}
    (hdraw : (s.refreshKeys inst luck.first).drawKeys luck.draws = some (player, moon))
    (id : List UInt8) (limit : Option (List UInt8)) :
    (s.create inst id limit luck).2 =
      some ⟨200, .keys moon.bytes player.bytes (createLimit limit)⟩ ∧
    (s.create inst id limit luck).1.Fresh inst ∧
    (s.create inst id limit luck).1.files = s.files.writeFile (s.keyFile inst id)
      (keyText moon.bytes player.bytes (createLimit limit)) := by
  simp only [create, hdraw]
  exact ⟨trivial, fresh_refreshKeys _, rfl⟩

theorem get_of_file (luck : Luck) {id raw : List UInt8} {name : Name}
    (hfile : s.keyFile inst id = .entry (inst.keys, name))
    (hraw : s.keyFiles inst name = some raw) :
    (s.get inst id luck).2 = (playerHashOf (stripLines raw)).map fun player =>
      ⟨200, .keys ((stripLines raw).take hashLength) player (reportedLimit (stripLines raw))⟩ := by
  simp only [get, files_refreshKeys, keyFile_refreshKeys, readFile_refreshKeys, hfile,
    FileSystem.fileExists_of_contents hraw, readFile_eq hraw]
  rw [moonHashOf_eq, Option.bind_some]

end ApiServer

/-- **The text `/create` writes is read back**, for all keys that can be drawn and all limits that
can be sent: `refreshKeys` and `/get` find the keys and the limit that `/create` reports, the limit
fits an `int`, and the text of what was found is the text that was written. -/
theorem keyFile_roundtrip {D : Type*} [DecidableEq D] (inst : Installation D) (s : ApiServer D)
    (id : List UInt8) (luck : Luck) (moon player : RandomString)
    (limitString : Option (List UInt8)) :
    let limit := createLimit limitString
    let text := keyText moon.bytes player.bytes limit
    let created := s.create inst id limitString luck
    ((s.refreshKeys inst luck.first).drawKeys luck.draws = some (player, moon) →
      created.2 = some ⟨200, .keys moon.bytes player.bytes limit⟩ ∧
      ∀ name, s.files.opens (s.keyFile inst id) = some (inst.keys, name) →
        created.1.keyFiles inst name = some text ∧
        (∃ e ∈ created.1.keyManager.keys, e.moonKey = moon.toHash ∧
          e.playerKey = player.toHash ∧ e.playerLimit = limit) ∧
        ∀ luck', (created.1.get inst id luck').2 =
          some ⟨200, .keys moon.bytes player.bytes limit⟩) ∧
    limit ≤ intMax ∧
    (∃ e, AccessKeys.ofContents (stripLines text) = some e ∧ e.moonKey = moon.toHash ∧
      e.playerKey = player.toHash ∧ e.playerLimit = limit ∧
      keyText e.moonKey.bytes e.playerKey.bytes e.playerLimit = text) ∧
    moonHashOf (stripLines text) = some moon.bytes ∧
    playerHashOf (stripLines text) = some player.bytes ∧
    reportedLimit (stripLines text) = limit := by
  intro limit text created
  have hlimit : limit ≤ intMax := createLimit_le limitString
  have hload := ofContents_keyText moon.toHash player.toHash hlimit
  have hstrip : stripLines text = text := stripLines_randomText moon player limit
  obtain ⟨hmoon, hplayer, hreported⟩ := ofContents_spec hload
  rw [hstrip]
  refine ⟨fun hdraw => ?_, hlimit, ⟨_, hload, rfl, rfl, rfl, rfl⟩, hmoon, hplayer, hreported⟩
  obtain ⟨hresponse, hfresh, hfiles⟩ := ApiServer.create_of_drawKeys hdraw id limitString
  refine ⟨hresponse, fun name hopens => ?_⟩
  have hraw : created.1.keyFiles inst name = some text := by
    rw [ApiServer.keyFiles, hfiles, FileSystem.contents_writeFile, if_pos hopens]
  have hfile : created.1.keyFile inst id = .entry (inst.keys, name) := by
    rw [ApiServer.keyFile, hfiles,
      inst.keyFile_congr (FileSystem.sameDirectories_writeFile _ _)]
    exact (FileSystem.opens_eq_some.1 hopens).1
  refine ⟨hraw, ⟨_, hfresh.mem_keys.2 ⟨name, text, hraw, by rw [hstrip, hload]⟩, rfl, rfl, rfl⟩,
    fun luck' => ?_⟩
  rw [ApiServer.get_of_file luck' hfile hraw, hstrip, hplayer, hreported, Option.map_some]
  rw [moonHashOf_eq, Option.some.injEq] at hmoon
  rw [hmoon]

/-- `/create` for the id "a" and 5 players. -/
theorem keyFile_roundtrip_exampleId :
    let created := (ApiServer.start oneDirectory noFiles default).create oneDirectory exampleId
      (some [53]) exampleLuck
    created.2 = some ⟨200, .keys [49, 49, 49, 49] [48, 48, 48, 48] 5⟩ ∧
      ∀ luck, (created.1.get oneDirectory exampleId luck).2 =
        some ⟨200, .keys [49, 49, 49, 49] [48, 48, 48, 48] 5⟩ := by
  have hkeys : Content.keys (exampleLuck.draws 1).bytes (exampleLuck.draws 0).bytes
      (createLimit (some [53])) = .keys [49, 49, 49, 49] [48, 48, 48, 48] 5 := by decide +kernel
  obtain ⟨hresponse, hfile⟩ := (keyFile_roundtrip oneDirectory (.start oneDirectory noFiles default)
    exampleId exampleLuck (exampleLuck.draws 1) (exampleLuck.draws 0) (some [53])).1
    (by decide +kernel)
  obtain ⟨-, -, hget⟩ := hfile (exampleId ++ txt) (by decide +kernel)
  rw [hkeys] at hresponse hget
  exact ⟨hresponse, hget⟩

/-! ### Files of any contents -/

section

variable {D : Type*} [DecidableEq D] (inst : Installation D) (s : ApiServer D) (id : List UInt8)

/-- The request `/get` for an id, with the secret. -/
def getRequest : ApiRequest := ⟨.get, some inst.secret, some id, none⟩

/-- The request `/limit` for an id, with the secret. -/
def limitRequest (limit : List UInt8) : ApiRequest :=
  ⟨.limit, some inst.secret, some id, some limit⟩

/-- The readers agree on the file of the id.  Either `refreshKeys` skips it, `/get` and `/limit`
answer with an error, and `/limit` changes nothing.  Or `refreshKeys` loads keys and a limit, `/get`
reports them, and `/limit` reports and writes the same keys with its limit, so that `refreshKeys`
loads these. -/
def ReadersAgree : Prop :=
  (AccessKeys.ofContents (s.readFile (s.keyFile inst id)) = none ∧
    (∀ luck, (s.handle inst (getRequest inst id) luck).2.status ≠ 200) ∧
    ∀ limit luck, (s.handle inst (limitRequest inst id limit) luck).2.status ≠ 200 ∧
      (s.handle inst (limitRequest inst id limit) luck).1.files = s.files) ∨
  ∃ e, AccessKeys.ofContents (s.readFile (s.keyFile inst id)) = some e ∧
    (∀ luck, (s.handle inst (getRequest inst id) luck).2 =
      ⟨200, .keys e.moonKey.bytes e.playerKey.bytes e.playerLimit⟩) ∧
    ∀ limit luck, (s.handle inst (limitRequest inst id limit) luck).2 =
        ⟨200, .keys e.moonKey.bytes e.playerKey.bytes (playerLimitOf limit)⟩ ∧
      AccessKeys.ofContents
        ((s.handle inst (limitRequest inst id limit) luck).1.readFile (s.keyFile inst id)) =
        some { e with playerLimit := playerLimitOf limit, playerLimit_le := playerLimitOf_le limit }

variable {inst s id}

theorem handle_getRequest (luck : Luck) : s.handle inst (getRequest inst id) luck =
    ((s.get inst id luck).1, (s.get inst id luck).2.getD .thrown) := by
  simp [ApiServer.handle, ApiServer.task, getRequest, ApiServer.perform]

theorem handle_limitRequest (limit : List UInt8) (luck : Luck) :
    s.handle inst (limitRequest inst id limit) luck =
    ((s.limit inst id limit).1, (s.limit inst id limit).2.getD .thrown) := by
  simp [ApiServer.handle, ApiServer.task, limitRequest, ApiServer.perform]

theorem not_line_end_of_mem_strip {contents : List UInt8} {c : UInt8}
    (h : c ∈ stripLines contents) : c ≠ 13 ∧ c ≠ 10 := by
  simp only [stripLines, List.mem_filter, decide_eq_true_eq] at h
  exact ⟨h.1.2, h.2⟩

theorem not_line_end_of_substr {contents part : List UInt8} {position count : ℕ}
    (h : substr (stripLines contents) position count = some part) :
    ∀ c ∈ part, c ≠ 13 ∧ c ≠ 10 := by
  unfold substr at h
  split_ifs at h
  obtain rfl := Option.some.inj h
  exact fun c hc => not_line_end_of_mem_strip (List.mem_of_mem_drop (List.mem_of_mem_take hc))

theorem limit_of_file (limit : List UInt8) {raw : List UInt8} (hid : ValidId id)
    (hraw : s.keyFiles inst (id ++ txt) = some raw) :
    s.limit inst id limit = (playerHashOf (stripLines raw)).elim (s, none) fun player =>
      (s.writeFile (.entry (inst.keys, id ++ txt))
        (keyText ((stripLines raw).take hashLength) player (playerLimitOf limit)),
        some ⟨200, .keys ((stripLines raw).take hashLength) player (playerLimitOf limit)⟩) := by
  simp only [ApiServer.limit, ApiServer.keyFile_of_keyFiles hid.plainId hraw,
    FileSystem.fileExists_of_contents hraw, hid, not_true_eq_false, if_false,
    ApiServer.readFile_eq hraw]
  rw [moonHashOf_eq]
  cases playerHashOf (stripLines raw) <;> rfl

/-- **When the readers agree**: on the file of a valid id exactly when, without its line ends, it is
too short for the position of the player key or long enough for both keys. -/
theorem readersAgree_iff (hid : ValidId id) {raw : List UInt8}
    (hraw : s.keyFiles inst (id ++ txt) = some raw) :
    ReadersAgree inst s id ↔ (stripLines raw).length < 5 ∨ 9 ≤ (stripLines raw).length := by
  have hfile := ApiServer.keyFile_of_keyFiles hid.plainId hraw
  simp only [ReadersAgree, handle_getRequest, handle_limitRequest, hfile,
    ApiServer.readFile_eq hraw, ApiServer.get_of_file _ hfile hraw, limit_of_file _ hid hraw]
  by_cases hlen : (stripLines raw).length < 9
  · -- `refreshKeys` skips the file
    have hnone : AccessKeys.ofContents (stripLines raw) = none := if_pos hlen
    by_cases hshort : (stripLines raw).length < 5
    · have hplayer : playerHashOf (stripLines raw) = none := if_neg (Nat.not_le.2 hshort)
      simp [hnone, hplayer, hshort, ApiResponse.thrown]
    · have hplayer : playerHashOf (stripLines raw) =
          some (((stripLines raw).drop (hashLength + 1)).take hashLength) :=
        if_pos (Nat.le_of_not_lt hshort)
      refine iff_of_false ?_ fun h => h.elim hshort (Nat.not_le.2 hlen)
      rintro (⟨-, hget, -⟩ | ⟨e, he, -⟩)
      · exact hget default (by rw [hplayer]; rfl)
      · rw [hnone] at he
        cases he
  · obtain ⟨e, he⟩ : ∃ e, AccessKeys.ofContents (stripLines raw) = some e := ⟨_, if_neg hlen⟩
    obtain ⟨hmoon, hplayer, hlimit⟩ := ofContents_spec he
    have hend : ∀ c, c ∈ e.moonKey.bytes ∨ c ∈ e.playerKey.bytes → c ≠ 13 ∧ c ≠ 10 := fun c hc =>
      hc.elim (not_line_end_of_substr hmoon c) (not_line_end_of_substr hplayer c)
    rw [moonHashOf_eq, Option.some.injEq] at hmoon
    simp only [hmoon, hplayer, hlimit, Option.map_some, Option.getD_some, Option.elim_some]
    refine iff_of_true (.inr ⟨e, he, fun _ => rfl, fun limit _ => ⟨rfl, ?_⟩⟩)
      (.inr (Nat.le_of_not_lt hlen))
    have hwritten : (s.writeFile (.entry (inst.keys, id ++ txt)) (keyText e.moonKey.bytes
        e.playerKey.bytes (playerLimitOf limit))).keyFiles inst (id ++ txt) =
        some (keyText e.moonKey.bytes e.playerKey.bytes (playerLimitOf limit)) := by
      rw [ApiServer.keyFiles_writeFile, if_pos (FileSystem.opens_of_contents hraw)]
    rw [ApiServer.readFile_eq hwritten,
      stripLines_keyText (fun c hc => hend c (.inl hc)) fun c hc => hend c (.inr hc)]
    exact ofContents_keyText _ _ (playerLimitOf_le limit)

end

/-- The file "abcd efgh 5" of a valid id has 11 characters. -/
theorem readersAgree_iff_oneFile :
    ReadersAgree oneDirectory (oneFile [97, 98, 99, 100, 32, 101, 102, 103, 104, 32, 53])
      exampleId :=
  (readersAgree_iff (by decide) (keyFiles_oneFile _)).2 (.inr (by decide))

/-- **The readers do not agree on all files**: on "abcd ef" they do not. -/
theorem not_readersAgree : ¬ ∀ (inst : Installation Unit) (s : ApiServer Unit) (id : List UInt8)
    (raw : List UInt8), ValidId id → s.keyFiles inst (id ++ txt) = some raw →
    ReadersAgree inst s id := by
  intro h
  have hraw := keyFiles_oneFile [97, 98, 99, 100, 32, 101, 102]
  have hfile := ApiServer.keyFile_of_keyFiles (by decide) hraw
  rcases h oneDirectory _ exampleId _ (by decide) hraw with ⟨-, hget, -⟩ | ⟨e, he, -⟩
  · refine hget default ?_
    rw [handle_getRequest, ApiServer.get_of_file _ hfile hraw]
    decide
  · rw [hfile, ApiServer.readFile_eq hraw] at he
    cases he

end MoonJamRelay
