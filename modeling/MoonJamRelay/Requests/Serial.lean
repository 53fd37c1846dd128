import MoonJamRelay.Api.Readers
import MoonJamRelay.Requests.Writers

/-!
# Concurrent requests and serial orders

No lock keeps the file operations of a handler together.  A handler that has looked at a file can
find it changed when it goes on.  As long as that does not happen, all handlers together do what
they would have done one after the other, in the order in which their responses became known.

* `Undisturbed` : the next file operation of a handler meets the file that it counts on.
* `Serialisable` : the responses and the files are those of handling the requests one at a time.
* `Linearised` : the serial order so far; `Linearised.stutter` and `Linearised.commit` are the two
  ways in which a step keeps it.
* `serialisable_of_undisturbed` : a run without disturbed steps is serialisable.
* `not_serialisable` : a `/limit` beside a `/delete` can bring the file back.
-/

namespace MoonJamRelay

namespace ApiSystem

variable {D : Type*} [DecidableEq D]

section

variable (inst : Installation D) (start : ApiServer D) (s : ApiSystem D)

/-- The responses and the files are those of handling the requests one at a time, in some order. -/
def Serialisable : Prop :=
  ∃ (calls : List (ℕ × Luck)) (w : ApiWorld D),
    (calls.map Prod.fst).Perm (List.range s.begun) ∧
    (apiServer inst start).run ⟨start, []⟩
      (calls.map fun call => ⟨(s.handlers call.1).request, call.2⟩) = some w ∧
    (∀ loc, s.files.contents loc = w.server.files.contents loc) ∧
    calls.map (fun call => s.pc call.1) = w.answers.reverse.map HandlerPc.answered

/-- The next file operation of a handler meets the file that it counts on.
* `/get` reads a file that still exists, and that nobody is writing.
* `/delete` removes a file that still exists.
* `/limit` reads a file that nobody is writing, and replaces it when it still has the same keys.
* `/create` opens a file that nobody is writing, with keys that are in no key file. -/
def UndisturbedPc : HandlerPc D → Prop
  | .getRead id => s.files.fileExists (s.keyFile inst id) = some true ∧ s.Settled inst id
  | .deleteRemove id => s.files.fileExists (s.keyFile inst id.id) = some true
  | .limitRead id _ => s.Settled inst id.id
  | .limitOpen id _ moonHash playerHash => s.Settled inst id.id ∧
    moonHashOf (s.server.readFile (s.keyFile inst id.id)) = some moonHash ∧
    playerHashOf (s.server.readFile (s.keyFile inst id.id)) = some playerHash
  | .createOpen id _ keys => s.Settled inst id ∧ ∀ name c e, s.Holds (inst.keys, name) c →
    AccessKeys.ofContents (stripLines c) = some e →
    ¬ e.Has keys.moonHash.toHash ∧ ¬ e.Has keys.playerHash.toHash
  | _ => True

/-- No step acts on a file that others have changed since its handler looked at it. -/
def Undisturbed : RequestLabel → Prop
  | .step n => s.UndisturbedPc inst (s.pc n)
  | _ => True

/-- The requests whose response is known, in the order in which it became known, give these
responses when they are handled one at a time, and the files that will be there once all files that
were emptied are written. -/
structure Linearised (calls : List (ℕ × Luck)) (w : ApiWorld D) : Prop where
  run : (apiServer inst start).run ⟨start, []⟩
    (calls.map fun call => ⟨(s.handlers call.1).request, call.2⟩) = some w
  nodup : (calls.map Prod.fst).Nodup
  mem_iff : ∀ n, n ∈ calls.map Prod.fst ↔ (s.pc n).outcome.isSome = true
  outcomes : calls.map (fun call => (s.pc call.1).outcome) = w.answers.reverse.map some
  holds : ∀ loc c, s.Holds loc c ↔ w.server.files.contents loc = some c
  directories : FileSystem.SameDirectories w.server.files s.files

end

variable {inst : Installation D} {start : ApiServer D} {s s' : ApiSystem D}
  {calls : List (ℕ × Luck)} {w : ApiWorld D} {n : ℕ} {l : RequestLabel}

theorem Undisturbed.freeToOpen (h : s.Undisturbed inst l) (hst : HandlerStep inst s n l s') :
    FreeToOpen inst s n := by
  intro id hid
  obtain rfl := hst.label_of_opening hid
  simp only [Undisturbed] at h
  cases hpc : s.pc n <;> rw [hpc] at h hid <;> cases hid
  · exact h.1
  · exact h.1

/-! ### Luck -/

/-- The luck that always draws the same string. -/
def sameLuck (r : RandomString) : Luck := ⟨fun _ => r, default, default⟩

/-- The luck that draws one string, then another. -/
def keyLuck (player moon : RandomString) : Luck :=
  ⟨fun i => if i = 0 then player else moon, default, default⟩

theorem drawKey_of_not_taken {taken : RandomString → Bool} {draws : ℕ → RandomString} {k i : ℕ}
    (h : taken (draws i) = false) : drawKey taken draws (k + 1) i = some (draws i, i + 1) := by
  rw [drawKey, if_neg (by simp [h])]

theorem drawKey_same {taken : RandomString → Bool} {r : RandomString} (h : taken r = true)
    (k i : ℕ) : drawKey taken (fun _ => r) k i = none := by
  induction k generalizing i with
  | zero => rfl
  | succ k ih => rw [drawKey, if_pos h, ih]

/-- `/create` gives up when it always draws the same string: the two keys have to differ. -/
theorem drawKeys_sameLuck (server : ApiServer D) (r : RandomString) :
    server.drawKeys (sameLuck r).draws = none := by
  rw [ApiServer.drawKeys, Option.bind_eq_none_iff]
  rintro ⟨player, i⟩ hplayer
  cases htaken : server.hasKey r with
  | true =>
    rw [sameLuck, drawKey_same htaken] at hplayer
    cases hplayer
  | false =>
    rw [show maxAttempts = 1023 + 1 from rfl, drawKey_of_not_taken htaken] at hplayer
    obtain ⟨rfl, rfl⟩ := Prod.mk.inj (Option.some.inj hplayer)
    rw [Option.map_eq_none_iff]
    exact drawKey_same (by simp [sameLuck]) _ _

theorem drawKeys_keyLuck {server : ApiServer D} {player moon : RandomString}
    (hplayer : server.hasKey player = false) (hmoon : server.hasKey moon = false)
    (hne : moon ≠ player) :
    server.drawKeys (keyLuck player moon).draws = some (player, moon) := by
  have hattempts : maxAttempts = 1023 + 1 := rfl
  have hsecond : (fun r => server.hasKey r || decide (r = player)) ((keyLuck player moon).draws 1) =
      false := by simp [keyLuck, hmoon, hne]
  rw [ApiServer.drawKeys, hattempts, drawKey_of_not_taken hplayer]
  change Option.map _ (drawKey (fun r => server.hasKey r || decide (r = player)) _ (1023 + 1) 1) = _
  rw [drawKey_of_not_taken hsecond]
  rfl

namespace Linearised

theorem init (start : ApiServer D) :
    Linearised inst start (.init start) [] ⟨start, []⟩ where
  run := rfl
  nodup := List.nodup_nil
  mem_iff n := by simp [ApiSystem.init, ApiSystem.pc, Handler.none, HandlerPc.outcome]
  outcomes := rfl
  holds loc c := by
    refine holds_iff_of_not_halfWritten ?_
    rintro ⟨n, content, fd, hfd, -⟩
    cases hfd
  directories := ⟨rfl, rfl⟩

/-- A step that makes no response known and leaves the files as they will be. -/
theorem stutter (h : Linearised inst start s calls w)
    (hrequest : ∀ m, (s.pc m).outcome.isSome = true →
      (s'.handlers m).request = (s.handlers m).request)
    (houtcome : ∀ m, (s'.pc m).outcome = (s.pc m).outcome)
    (hholds : ∀ loc c, s'.Holds loc c ↔ s.Holds loc c)
    (hdirs : FileSystem.SameDirectories s.files s'.files) :
    Linearised inst start s' calls w := by
  refine ⟨?_, h.nodup, fun m => ?_, ?_, fun loc c => (hholds loc c).trans (h.holds loc c),
    h.directories.trans hdirs⟩
  · rw [← h.run]
    refine congrArg _ (List.map_congr_left fun call hcall => ?_)
    rw [hrequest call.1 ((h.mem_iff _).1 (List.mem_map_of_mem hcall))]
  · rw [houtcome]
    exact h.mem_iff m
  · rw [← h.outcomes]
    exact List.map_congr_left fun call _ => houtcome call.1

/-- A step that makes the response of one handler known. -/
theorem commit (h : Linearised inst start s calls w)
    (hrequest : ∀ m, m ≠ n → (s'.handlers m).request = (s.handlers m).request)
    (houtcome : ∀ m, m ≠ n → (s'.pc m).outcome = (s.pc m).outcome)
    (hbefore : (s.pc n).outcome = none) (luck : Luck)
    (hafter : (s'.pc n).outcome = some (w.server.handle inst (s'.handlers n).request luck).2)
    (hholds : ∀ loc c, s'.Holds loc c ↔
      (w.server.handle inst (s'.handlers n).request luck).1.files.contents loc = some c)
    (hdirs : FileSystem.SameDirectories
      (w.server.handle inst (s'.handlers n).request luck).1.files s'.files) :
    ∃ calls' w', Linearised inst start s' calls' w' := by
  have hnot : n ∉ calls.map Prod.fst := fun hmem => by
    have hsome := (h.mem_iff n).1 hmem
    rw [hbefore] at hsome
    cases hsome
  have hne : ∀ call ∈ calls, call.1 ≠ n := fun call hcall he =>
    hnot (he ▸ List.mem_map_of_mem hcall)
  have hrun : (apiServer inst start).run ⟨start, []⟩
      (calls.map fun call => ⟨(s'.handlers call.1).request, call.2⟩) = some w := by
    rw [← h.run]
    refine congrArg _ (List.map_congr_left fun call hcall => ?_)
    rw [hrequest call.1 (hne call hcall)]
  refine ⟨calls ++ [(n, luck)], ⟨_, (w.server.handle inst (s'.handlers n).request luck).2 ::
    w.answers⟩, ?_, ?_, fun m => ?_, ?_, hholds, hdirs⟩
  · rw [List.map_append, Machine.run_append, hrun]
    rfl
  · rw [List.map_append]
    exact List.nodup_append'.2 ⟨h.nodup, List.nodup_singleton _,
      List.disjoint_singleton.2 hnot⟩
  · rw [List.map_append, List.mem_append, List.map_singleton, List.mem_singleton]
    by_cases hm : m = n
    · subst hm
      rw [hafter]
      exact iff_of_true (.inr rfl) rfl
    · rw [or_iff_left hm, houtcome m hm]
      exact h.mem_iff m
  · rw [List.map_append, List.map_singleton, hafter, List.reverse_cons, List.map_append,
      ← h.outcomes]
    refine congrArg (· ++ _) (List.map_congr_left fun call hcall => ?_)
    exact houtcome call.1 (hne call hcall)

omit [DecidableEq D] in
theorem not_deleteRemove {pc : HandlerPc D} (heffect : pc.effect = none) (id : SafeId) :
    pc ≠ .deleteRemove id := by
  rintro rfl
  cases heffect

theorem stutter_step (h : Linearised inst start s calls w) (hone : s.OneWriter)
    (hfree : FreeToOpen inst s n) (hst : HandlerStep inst s n l s')
    (houtcome : (s'.pc n).outcome = (s.pc n).outcome) (heffect : (s.pc n).effect = none) :
    ∃ calls' w', Linearised inst start s' calls' w' := by
  refine ⟨calls, w, h.stutter (fun m _ => hst.frame.2.1 m) (fun m => ?_) (fun loc c => ?_)
    (hst.sameDirectories (not_deleteRemove heffect))⟩
  · by_cases hm : m = n
    · rw [hm, houtcome]
    · rw [hst.pc_of_ne hm]
  · rw [(hst.files hone hfree).2, heffect]
    rfl

theorem commit_step (h : Linearised inst start s calls w) (hst : HandlerStep inst s n l s')
    (hd : Dispatched inst s) {task : ApiServer.Task} (htask : (s.pc n).task = some task)
    (luck : Luck) {server : ApiServer D} {response : Option ApiResponse}
    (hresult : ApiServer.TaskResult inst w.server luck task server response)
    (hafter : (s'.pc n).outcome = some (response.getD .thrown))
    (hholds : ∀ loc c, s'.Holds loc c ↔ server.files.contents loc = some c)
    (hdirs : FileSystem.SameDirectories server.files s'.files) :
    ∃ calls' w', Linearised inst start s' calls' w' := by
  have hhandle : w.server.handle inst (s'.handlers n).request luck =
      (server, response.getD .thrown) := by
    simp only [hst.frame.2.1, ApiServer.handle, hd.task n task htask, hresult.perform_eq]
  refine h.commit (fun m _ => hst.frame.2.1 m) (fun m hm => ?_) (HandlerPc.outcome_of_task htask)
    luck (hhandle ▸ hafter) (hhandle ▸ hholds) (hhandle ▸ hdirs)
  rw [hst.pc_of_ne hm]

theorem commit_quiet (h : Linearised inst start s calls w) (hone : s.OneWriter)
    (hfree : FreeToOpen inst s n) (hst : HandlerStep inst s n l s') (hd : Dispatched inst s)
    {task : ApiServer.Task} (htask : (s.pc n).task = some task) (luck : Luck)
    {server : ApiServer D} {response : Option ApiResponse}
    (hresult : ApiServer.TaskResult inst w.server luck task server response)
    (hafter : s'.pc n = .answered (response.getD .thrown)) (heffect : (s.pc n).effect = none)
    (hserver : server.files = w.server.files) :
    ∃ calls' w', Linearised inst start s' calls' w' := by
  refine h.commit_step hst hd htask luck hresult (by rw [hafter]; rfl) (fun loc c => ?_) ?_
  · rw [(hst.files hone hfree).2, heffect, hserver, ← h.holds]
    rfl
  · rw [hserver]
    exact h.directories.trans (hst.sameDirectories (not_deleteRemove heffect))

/-! ### The files of the serial order -/

theorem contents_isSome (h : Linearised inst start s calls w) (hone : s.OneWriter)
    (loc : D × Name) :
    (s.files.contents loc).isSome = (w.server.files.contents loc).isSome := by
  rw [Bool.eq_iff_iff, Option.isSome_iff_exists, Option.isSome_iff_exists, ← hone.exists_holds]
  exact exists_congr fun c => h.holds loc c

theorem keyFile_eq (h : Linearised inst start s calls w) (id : List UInt8) :
    w.server.keyFile inst id = s.keyFile inst id :=
  (inst.keyFile_congr h.directories id).symm

theorem fileExists_eq (h : Linearised inst start s calls w) (hone : s.OneWriter)
    {id : List UInt8} {found : Option Bool}
    (hexists : s.files.fileExists (s.keyFile inst id) = found) :
    w.server.files.fileExists (w.server.keyFile inst id) = found := by
  rw [h.keyFile_eq, ← h.directories.fileExists_eq (h.contents_isSome hone), hexists]

theorem readFile_eq (h : Linearised inst start s calls w) {id : List UInt8}
    (hsettled : s.Settled inst id) :
    w.server.readFile (w.server.keyFile inst id) = s.server.readFile (s.keyFile inst id) := by
  rw [h.keyFile_eq, ApiServer.readFile, ApiServer.readFile]
  cases ht : s.keyFile inst id with
  | directory | missing | tooLong => rfl
  | entry loc =>
    have hcontents : w.server.files.contents loc = s.files.contents loc := by
      refine Option.ext fun c => ?_
      rw [← h.holds, holds_iff_of_not_halfWritten (hsettled loc ht)]
    rw [FileSystem.read, FileSystem.read, hcontents]
    rfl

/-- Opening a file, and writing the whole file in the serial order. -/
theorem holds_writeFile (h : Linearised inst start s calls w) (hone : s.OneWriter)
    (hfree : FreeToOpen inst s n) (hst : HandlerStep inst s n l s') {id content : List UInt8}
    (heffect : (s.pc n).effect = some (id, some content)) :
    (∀ loc c, s'.Holds loc c ↔
      (w.server.files.writeFile (w.server.keyFile inst id) content).contents loc = some c) ∧
    FileSystem.SameDirectories (w.server.files.writeFile (w.server.keyFile inst id) content)
      s'.files := by
  refine ⟨fun loc c => ?_, ?_⟩
  · have hholds := (hst.files hone hfree).2 loc c
    simp only [heffect, Option.elim_some] at hholds
    rw [hholds, FileSystem.contents_writeFile, h.keyFile_eq, h.directories.opens_eq]
    split_ifs
    · rfl
    · exact h.holds loc c
  · refine (FileSystem.sameDirectories_writeFile _ _).symm.trans (h.directories.trans
      (hst.sameDirectories fun id' hpc => ?_))
    rw [hpc] at heffect
    cases heffect

theorem drawKeys_eq (h : Linearised inst start s calls w) (keys : KeyPair)
    (hnew : ∀ name c e, s.Holds (inst.keys, name) c →
      AccessKeys.ofContents (stripLines c) = some e →
      ¬ e.Has keys.moonHash.toHash ∧ ¬ e.Has keys.playerHash.toHash) (order : ScanOrder) :
    (w.server.refreshKeys inst order).drawKeys (keyLuck keys.playerHash keys.moonHash).draws =
      some (keys.playerHash, keys.moonHash) := by
  have hfree : ∀ r : RandomString, (∀ name c e, s.Holds (inst.keys, name) c →
      AccessKeys.ofContents (stripLines c) = some e → ¬ e.Has r.toHash) →
      (w.server.refreshKeys inst order).hasKey r = false := by
    intro r hr
    rw [ApiServer.hasKey, convertHash_bytes]
    by_contra hhas
    obtain ⟨name, e, ⟨c, hc, he⟩, hk⟩ :=
      (ApiServer.fresh_refreshKeys order).hasKey_iff.1 (by simpa using hhas)
    exact hr name c e ((h.holds _ c).2 hc) he hk
  exact drawKeys_keyLuck (hfree _ fun name c e hc he => (hnew name c e hc he).2)
    (hfree _ fun name c e hc he => (hnew name c e hc he).1) keys.ne

/-! ### Every step -/

theorem arrive (h : Linearised inst start s calls w) (hd : Dispatched inst s)
    (request : ApiRequest) :
    ∃ calls' w', Linearised inst start (s.arrive inst request) calls' w' := by
  have habsent : s.pc s.begun = .absent := hd.absent _ (Nat.le_refl _)
  have hpc : (s.arrive inst request).pc s.begun = .start (ApiServer.task inst request) :=
    pc_arrive request
  cases htask : ApiServer.task inst request with
  | none =>
    rw [htask] at hpc
    have hhandle : w.server.handle inst ((s.arrive inst request).handlers s.begun).request
        default = (w.server, ⟨511, .none⟩) := by
      rw [handlers_arrive]
      simp only [ApiServer.handle, htask]
    refine h.commit (n := s.begun) (fun m hm => ?_) (fun m hm => ?_) (by rw [habsent]; rfl)
      default (by rw [hhandle, hpc]; rfl) (fun loc c => ?_) (by rw [hhandle]; exact h.directories)
    · rw [handlers_arrive_of_ne request hm]
    · rw [pc_arrive_of_ne request hm]
    · rw [hhandle, holds_arrive hd request]
      exact h.holds loc c
  | some task =>
    refine ⟨calls, w, h.stutter (fun m hm => ?_) (fun m => ?_)
      (fun _ _ => holds_arrive hd request) ⟨rfl, rfl⟩⟩
    · rw [handlers_arrive_of_ne]
      rintro rfl
      rw [habsent] at hm
      cases hm
    · by_cases hm : m = s.begun
      · have htask' : ((s.arrive inst request).pc s.begun).task = some task := by
          rw [hpc, htask, task_start]
        rw [hm, habsent, HandlerPc.outcome_of_task htask']
        rfl
      · rw [pc_arrive_of_ne request hm]

section

variable (h : Linearised inst start s calls w) (hone : s.OneWriter)
  (hfree : FreeToOpen inst s n) (hd : Dispatched inst s) (hst : HandlerStep inst s n l s')

include h hone hfree hd hst

theorem step_createOpen {id : List UInt8} {limit : Option (List UInt8)} {keys : KeyPair}
    (hpc : s.pc n = .createOpen id limit keys)
    (hok : s.UndisturbedPc inst (.createOpen id limit keys))
    (hafter : (s'.pc n).outcome = some (keys.report limit)) :
    ∃ calls' w', Linearised inst start s' calls' w' := by
  obtain ⟨hholds, hdirs⟩ := h.holds_writeFile hone hfree hst (by rw [hpc]; rfl)
  exact h.commit_step hst hd (by rw [hpc]; rfl) (keyLuck keys.playerHash keys.moonHash)
    (.created id limit keys.playerHash keys.moonHash (h.drawKeys_eq keys hok.2 _)) hafter hholds
    hdirs

theorem step_limitOpen {id : SafeId} {text moonHash playerHash : List UInt8}
    (hpc : s.pc n = .limitOpen id text moonHash playerHash)
    (hok : s.UndisturbedPc inst (.limitOpen id text moonHash playerHash))
    (hafter : (s'.pc n).outcome = some ⟨200, .keys moonHash playerHash (playerLimitOf text)⟩) :
    ∃ calls' w', Linearised inst start s' calls' w' := by
  obtain ⟨hsettled, hmoon, hplayer⟩ := hok
  rw [← h.readFile_eq hsettled] at hmoon hplayer
  obtain ⟨hholds, hdirs⟩ := h.holds_writeFile hone hfree hst (by rw [hpc]; rfl)
  exact h.commit_step hst hd (by rw [hpc]; rfl) default
    (.limited id.id text moonHash playerHash id.valid
      (ApiServer.fileExists_of_playerHashOf hplayer) hmoon hplayer) hafter hholds hdirs

theorem step_deleteRemove {id : SafeId} {removed : Bool}
    (hpc : s.pc n = .deleteRemove id) (hok : s.UndisturbedPc inst (.deleteRemove id))
    (hremove : s.files.remove (s.keyFile inst id.id) = some (removed, s'.files))
    (hafter : s'.pc n = .answered (if removed then ⟨200, .success⟩ else ⟨400, .none⟩)) :
    ∃ calls' w', Linearised inst start s' calls' w' := by
  have heffect : (s.pc n).effect = some (id.id, none) := by rw [hpc]; rfl
  obtain rfl := FileSystem.remove_of_exists hremove hok
  obtain ⟨-, hthrows⟩ | ⟨removed, files, files', hserial, hremove', hdirs⟩ :=
    h.directories.remove (h.contents_isSome hone) (s.keyFile inst id.id)
  · cases hthrows.symm.trans hremove
  · obtain ⟨rfl, rfl⟩ := Prod.mk.inj (Option.some.inj (hremove.symm.trans hremove'))
    rw [← h.keyFile_eq] at hserial
    refine h.commit_step hst hd (by rw [hpc]; rfl) default
      (.deleted id.id files id.valid (h.fileExists_eq hone hok) hserial)
      (by rw [hafter]; rfl) (fun loc c => ?_) hdirs
    have hholds := (hst.files hone hfree).2 loc c
    simp only [heffect, Option.elim_some] at hholds
    rw [hholds, FileSystem.contents_remove hserial, h.keyFile_eq, h.directories.opens_eq]
    split_ifs
    · rfl
    · exact h.holds loc c

theorem step_deleteThrows {id : SafeId} (hpc : s.pc n = .deleteRemove id)
    (hok : s.UndisturbedPc inst (.deleteRemove id))
    (hremove : s.files.remove (s.keyFile inst id.id) = none) (hfiles : s'.files = s.files)
    (hafter : s'.pc n = .answered .thrown) :
    ∃ calls' w', Linearised inst start s' calls' w' := by
  have heffect : (s.pc n).effect = some (id.id, none) := by rw [hpc]; rfl
  obtain ⟨hserial, -⟩ | ⟨_, _, _, -, hremove', -⟩ :=
    h.directories.remove (h.contents_isSome hone) (s.keyFile inst id.id)
  · rw [← h.keyFile_eq] at hserial
    refine h.commit_step hst hd (by rw [hpc]; rfl) default
      (.deleteThrows id.id id.valid (h.fileExists_eq hone hok) hserial) (by rw [hafter]; rfl)
      (fun loc c => ?_) (hfiles ▸ h.directories)
    have hholds := (hst.files hone hfree).2 loc c
    simp only [heffect, Option.elim_some, FileSystem.opens_of_remove_throws hremove, reduceCtorEq,
      if_false] at hholds
    exact hholds.trans (h.holds loc c)
  · cases hremove.symm.trans hremove'

theorem step_limitThrows {id : SafeId} {text : List UInt8} (hpc : s.pc n = .limitRead id text)
    (hok : s.UndisturbedPc inst (.limitRead id text))
    (hplayer : playerHashOf (s.server.readFile (s.keyFile inst id.id)) = none)
    (hafter : s'.pc n = .answered .thrown) :
    ∃ calls' w', Linearised inst start s' calls' w' := by
  rw [← h.readFile_eq hok] at hplayer
  -- when the file was deleted the answer is the same
  rcases hexists : w.server.files.fileExists (w.server.keyFile inst id.id) with _ | _ | _
  · exact h.commit_quiet hone hfree hst hd (by rw [hpc]; rfl) default
      (.limitRefused id.id text hexists) hafter (by rw [hpc]; rfl) rfl
  · exact h.commit_quiet hone hfree hst hd (by rw [hpc]; rfl) default
      (.limitNothing id.id text hexists) hafter (by rw [hpc]; rfl) rfl
  · exact h.commit_quiet hone hfree hst hd (by rw [hpc]; rfl) default
      (.limitThrows id.id text id.valid hexists hplayer) hafter (by rw [hpc]; rfl) rfl

end

/-- An undisturbed step of a handler keeps the serial order, or adds the request to its end. -/
theorem step (h : Linearised inst start s calls w) (hone : s.OneWriter) (hd : Dispatched inst s)
    (hok : s.Undisturbed inst l) (hst : HandlerStep inst s n l s') :
    ∃ calls' w', Linearised inst start s' calls' w' := by
  have hst' := hst
  have hfree := hok.freeToOpen hst
  have hpcok : l = .step n → s.UndisturbedPc inst (s.pc n) := by
    rintro rfl
    exact hok
  cases hst with
  | refresh next hpc | entry _ next _ hpc | complete _ next hpc =>
    refine h.stutter_step hone hfree hst' ?_ (by rw [hpc]; rfl)
    rw [hpc, pc_goto]
    cases next <;> rfl
  | swap _ next hpc hlast =>
    cases next with
    | draw | get =>
      exact h.stutter_step hone hfree hst' (by rw [hpc, pc_goto]; rfl) (by rw [hpc]; rfl)
    | answer response written => exact absurd rfl (hlast response written)
  | lastSwap _ _ _ hpc | takenPlayer _ _ _ _ hpc | player _ _ _ _ hpc
  | takenMoon _ _ _ _ _ hpc | moon _ _ _ _ hpc | getFile _ hpc | deleteFile _ hpc
  | limitFile _ _ hpc | limitRead _ _ _ _ hpc | writeCreate _ _ _ hpc | writeLimit _ _ _ hpc =>
    exact h.stutter_step hone hfree hst' (by rw [hpc, pc_goto]; rfl) (by rw [hpc]; rfl)
  | noPlayer id limit r hpc | noMoon id limit _ r hpc =>
    exact h.commit_quiet hone hfree hst' hd (by rw [hpc]; rfl) (sameLuck r)
      (.noKeys id limit (drawKeys_sameLuck _ r)) (pc_goto _) (by rw [hpc]; rfl) rfl
  | createOpen id limit keys hpc =>
    exact h.step_createOpen hone hfree hd hst' hpc (hpc ▸ hpcok rfl)
      (by rw [openWrite, pc_goto]; rfl)
  | getRefused id hpc hexists =>
    exact h.commit_quiet hone hfree hst' hd (by rw [hpc]; rfl) default
      (.getRefused id (h.fileExists_eq hone hexists)) (pc_goto _) (by rw [hpc]; rfl) rfl
  | getNothing id hpc hexists =>
    exact h.commit_quiet hone hfree hst' hd (by rw [hpc]; rfl) default
      (.getNothing id (h.fileExists_eq hone hexists)) (pc_goto _) (by rw [hpc]; rfl) rfl
  | got id moonHash playerHash hpc hmoon hplayer =>
    obtain ⟨hexists, hsettled⟩ : s.UndisturbedPc inst (.getRead id) := hpc ▸ hpcok rfl
    rw [← h.readFile_eq hsettled] at hmoon hplayer
    refine h.commit_quiet hone hfree hst' hd (by rw [hpc]; rfl) default
      (.got id moonHash playerHash (h.fileExists_eq hone hexists) hmoon hplayer) ?_
      (by rw [hpc]; rfl) rfl
    rw [pc_goto, h.readFile_eq hsettled]
    rfl
  | getThrows id hpc hplayer =>
    obtain ⟨hexists, hsettled⟩ : s.UndisturbedPc inst (.getRead id) := hpc ▸ hpcok rfl
    rw [← h.readFile_eq hsettled] at hplayer
    exact h.commit_quiet hone hfree hst' hd (by rw [hpc]; rfl) default
      (.getThrows id (h.fileExists_eq hone hexists) hplayer) (pc_goto _) (by rw [hpc]; rfl) rfl
  | deleteRefused id hpc hexists =>
    exact h.commit_quiet hone hfree hst' hd (by rw [hpc]; rfl) default
      (.deleteRefused id (h.fileExists_eq hone hexists)) (pc_goto _) (by rw [hpc]; rfl) rfl
  | deleteNothing id hpc hexists =>
    exact h.commit_quiet hone hfree hst' hd (by rw [hpc]; rfl) default
      (.deleteNothing id (h.fileExists_eq hone hexists)) (pc_goto _) (by rw [hpc]; rfl) rfl
  | deleteInvalid id hpc hexists hid =>
    exact h.commit_quiet hone hfree hst' hd (by rw [hpc]; rfl) default
      (.deleteInvalid id (h.fileExists_eq hone hexists) hid) (pc_goto _) (by rw [hpc]; rfl) rfl
  | deleteRemove id removed files hpc hremove =>
    exact h.step_deleteRemove hone hfree hd hst' hpc (hpc ▸ hpcok rfl) hremove (pc_goto _)
  | deleteThrows id hpc hremove =>
    exact h.step_deleteThrows hone hfree hd hst' hpc (hpc ▸ hpcok rfl) hremove rfl (pc_goto _)
  | limitRefused id text hpc hexists =>
    exact h.commit_quiet hone hfree hst' hd (by rw [hpc]; rfl) default
      (.limitRefused id text (h.fileExists_eq hone hexists)) (pc_goto _) (by rw [hpc]; rfl) rfl
  | limitNothing id text hpc hexists =>
    exact h.commit_quiet hone hfree hst' hd (by rw [hpc]; rfl) default
      (.limitNothing id text (h.fileExists_eq hone hexists)) (pc_goto _) (by rw [hpc]; rfl) rfl
  | limitInvalid id text hpc hexists hid =>
    exact h.commit_quiet hone hfree hst' hd (by rw [hpc]; rfl) default
      (.limitInvalid id text (h.fileExists_eq hone hexists) hid) (pc_goto _) (by rw [hpc]; rfl) rfl
  | limitThrows id text hpc hplayer =>
    exact h.step_limitThrows hone hfree hd hst' hpc (hpc ▸ hpcok rfl) hplayer (pc_goto _)
  | limitOpen id text moonHash playerHash hpc =>
    exact h.step_limitOpen hone hfree hd hst' hpc (hpc ▸ hpcok rfl)
      (by rw [openWrite, pc_goto]; rfl)

end Linearised

/-- Once all handlers have answered, the serial order is one of all requests. -/
theorem Linearised.serialisable (h : Linearised inst start s calls w) (hd : Dispatched inst s)
    (hall : ∀ n, n < s.begun → ∃ response, s.pc n = .answered response) :
    s.Serialisable inst start := by
  have hwriting : ∀ n, (s.pc n).writing = none ∧
      ((s.pc n).outcome.isSome = true ↔ n < s.begun) := by
    intro n
    by_cases hn : n < s.begun
    · obtain ⟨response, hpc⟩ := hall n hn
      rw [hpc]
      exact ⟨rfl, iff_of_true rfl hn⟩
    · rw [hd.absent n (Nat.le_of_not_lt hn)]
      exact ⟨rfl, iff_of_false (by simp [HandlerPc.outcome]) hn⟩
  refine ⟨calls, w, ?_, h.run, fun loc => ?_, ?_⟩
  · refine (List.perm_ext_iff_of_nodup h.nodup List.nodup_range).2 fun n => ?_
    rw [h.mem_iff, (hwriting n).2, List.mem_range]
  · have hsettled : ¬ s.HalfWritten loc := by
      rintro ⟨n, c, hn⟩
      exact not_writes (hwriting n).1 hn
    refine Option.ext fun c => ?_
    rw [← h.holds, holds_iff_of_not_halfWritten hsettled]
  · have houtcomes := congrArg (List.map fun r => r.elim HandlerPc.absent
      (HandlerPc.answered (D := D))) h.outcomes
    simp only [List.map_map, Function.comp_def, Option.elim_some] at houtcomes
    refine (List.map_congr_left fun call hcall => ?_).trans houtcomes
    have hlt := (hwriting call.1).2.1 ((h.mem_iff _).1 (List.mem_map_of_mem hcall))
    obtain ⟨response, hpc⟩ := hall call.1 hlt
    rw [hpc]
    rfl

end ApiSystem

/-- What a run without disturbed steps keeps. -/
structure SerialSoFar {D : Type*} [DecidableEq D] (inst : Installation D) (start : ApiServer D)
    (s : ApiSystem D) : Prop where
  oneWriter : s.OneWriter
  dispatched : s.Dispatched inst
  linearised : ∃ calls w, s.Linearised inst start calls w

section

variable {D : Type*} [DecidableEq D] {inst : Installation D} {start : ApiServer D}
  {s s' : ApiSystem D} {ls : List RequestLabel} {l : RequestLabel}

theorem SerialSoFar.next (h : SerialSoFar inst start s) (hok : s.Undisturbed inst l)
    (hst : s.next inst l = some s') : SerialSoFar inst start s' := by
  obtain ⟨calls, w, hlin⟩ := h.linearised
  obtain ⟨request, -, rfl⟩ | ⟨n, hstep⟩ := ApiSystem.handlerStep_of_next hst
  · exact ⟨h.oneWriter.arrive h.dispatched request, h.dispatched.next hst,
      hlin.arrive h.dispatched request⟩
  · exact ⟨(hstep.files h.oneWriter (hok.freeToOpen hstep)).1, h.dispatched.next hst,
      hlin.step h.oneWriter h.dispatched hok hstep⟩

/-- **Undisturbed requests are serialisable.**  In every run of any number of requests in which no
step is disturbed, once all requests are answered, the responses and the files are those of handling
the same requests one at a time in some order. -/
theorem serialisable_of_undisturbed
    (hrun : (apiSystem inst start).run (.init start) ls = some s)
    (hok : (apiSystem inst start).Meets (ApiSystem.Undisturbed inst) (.init start) ls)
    (hall : ∀ n, n < s.begun → ∃ response, s.pc n = .answered response) :
    s.Serialisable inst start := by
  have hinit : SerialSoFar inst start (.init start) :=
    ⟨.init start, .init start, [], _, .init start⟩
  have h : SerialSoFar inst start s :=
    hok.invariant (fun u l u' hu hl hst => hu.next hl hst) hinit hrun
  obtain ⟨calls, w, hlin⟩ := h.linearised
  exact hlin.serialisable h.dispatched hall

end

/-! ### Two handlers of one id -/

/-- The file "abcd efgh 5" of `exampleId`. -/
def exampleStart : ApiServer Unit := oneFile [97, 98, 99, 100, 32, 101, 102, 103, 104, 32, 53]

/-- The request `/delete` for an id, with the secret. -/
def deleteRequest {D : Type*} (inst : Installation D) (id : List UInt8) : ApiRequest :=
  ⟨.delete, some inst.secret, some id, none⟩

/-- A `/get` that scans the directory while a `/delete` removes the file. -/
def besideLabels : List RequestLabel :=
  [.begin (deleteRequest oneDirectory exampleId), .begin (getRequest oneDirectory exampleId),
    .step 0, .step 1, .entry 1 (exampleId ++ txt), .step 0, .step 1, .step 1, .step 1]

/-- The state after `besideLabels`. -/
def besideState : ApiSystem Unit :=
  ((apiSystem oneDirectory exampleStart).run (.init exampleStart) besideLabels).get (by rfl)

/-- `/delete`, then `/get`. -/
theorem serialisable_besideState : besideState.Serialisable oneDirectory exampleStart :=
  @serialisable_of_undisturbed Unit _ oneDirectory exampleStart besideState besideLabels
    (Option.some_get _).symm
    (.cons trivial rfl <| .cons trivial rfl <| .cons trivial rfl <| .cons trivial rfl <|
      .cons trivial rfl <| .cons (show _ = some true by decide +kernel) rfl <| .cons trivial rfl <|
      .cons trivial rfl <| .cons trivial rfl trivial)
    (fun n hn => match n, hn with
      | 0, _ => ⟨⟨200, .success⟩, by decide +kernel⟩
      | 1, _ => ⟨⟨200, .empty⟩, by decide +kernel⟩)

/-- A `/limit` that has read the file before a `/delete` removes it. -/
def restoreLabels : List RequestLabel :=
  [.begin (limitRequest oneDirectory exampleId [55]),
    .begin (deleteRequest oneDirectory exampleId), .step 0, .step 0, .step 1, .step 1, .step 0,
    .step 0]

/-- The state after `restoreLabels`. -/
def restoreState : ApiSystem Unit :=
  ((apiSystem oneDirectory exampleStart).run (.init exampleStart) restoreLabels).get (by rfl)

theorem handle_deleteRequest {D : Type*} [DecidableEq D] {inst : Installation D}
    {server : ApiServer D} {id : List UInt8} (luck : Luck) :
    server.handle inst (deleteRequest inst id) luck =
      ((server.delete inst id).1, (server.delete inst id).2.getD .thrown) := by
  simp [ApiServer.handle, ApiServer.task, deleteRequest, ApiServer.perform]

/-- Two requests have two orders. -/
theorem orders_of_perm {calls : List (ℕ × Luck)}
    (h : (calls.map Prod.fst).Perm (List.range 2)) :
    ∃ a b, calls = [(0, a), (1, b)] ∨ calls = [(1, a), (0, b)] := by
  have hlen : calls.length = 2 := by simpa using h.length_eq
  obtain ⟨⟨i, a⟩, ⟨j, b⟩, rfl⟩ := List.length_eq_two.1 hlen
  have hnodup : i ≠ j := by simpa using h.nodup_iff.2 List.nodup_range
  have hi : i < 2 := List.mem_range.1 (h.mem_iff.1 (by simp))
  have hj : j < 2 := List.mem_range.1 (h.mem_iff.1 (by simp))
  refine ⟨a, b, ?_⟩
  obtain ⟨rfl, rfl⟩ | ⟨rfl, rfl⟩ : i = 0 ∧ j = 1 ∨ i = 1 ∧ j = 0 := by omega
  · exact .inl rfl
  · exact .inr rfl

/-- **Concurrent requests are not serialisable.**  Both requests succeed, but the file is there. -/
theorem not_serialisable :
    (apiSystem oneDirectory exampleStart).run (.init exampleStart) restoreLabels =
      some restoreState ∧
    (∀ n, n < restoreState.begun → ∃ response, restoreState.pc n = .answered response) ∧
    restoreState.pc 1 = .answered ⟨200, .success⟩ ∧
    restoreState.files.contents ((), exampleId ++ txt) =
      some [97, 98, 99, 100, 32, 101, 102, 103, 104, 32, 55] ∧
    ¬ restoreState.Serialisable oneDirectory exampleStart := by
  refine ⟨(Option.some_get _).symm, fun n hn => ?_, by decide +kernel, by decide +kernel, ?_⟩
  · match n, hn with
    | 0, _ =>
      exact ⟨⟨200, .keys [97, 98, 99, 100] [101, 102, 103, 104] 7⟩, by decide +kernel⟩
    | 1, _ => exact ⟨⟨200, .success⟩, by decide +kernel⟩
  · rintro ⟨calls, w, hperm, hrun, hfiles, hanswers⟩
    have hlimit : (restoreState.handlers 0).request =
      limitRequest oneDirectory exampleId [55] := rfl
    have hdelete : (restoreState.handlers 1).request = deleteRequest oneDirectory exampleId := rfl
    obtain ⟨a, b, rfl | rfl⟩ := orders_of_perm hperm
    · -- `/delete` comes last, so the file is gone
      simp only [List.map_cons, List.map_nil, Machine.run, apiServer, Option.bind_some,
        Option.some.injEq, hlimit, hdelete, handle_limitRequest, handle_deleteRequest] at hrun
      subst hrun
      have hfile := hfiles ((), exampleId ++ txt)
      revert hfile
      decide +kernel
    · -- `/limit` comes last, so it fails
      simp only [List.map_cons, List.map_nil, Machine.run, apiServer, Option.bind_some,
        Option.some.injEq, hlimit, hdelete, handle_limitRequest, handle_deleteRequest] at hrun
      subst hrun
      have hresponse := HandlerPc.answered.inj (List.cons.inj (List.cons.inj hanswers).2).1
      revert hresponse
      decide +kernel

end MoonJamRelay
