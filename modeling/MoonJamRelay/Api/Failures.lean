import MoonJamRelay.Api.Server

/-!
# Requests that fail

The handlers have about twenty ways to end; `ApiServer.TaskResult` lists them.

* `ApiServer.TaskResult.files_of_failed` : an exit that is not answered with status 200 leaves all
  files as they are; a handler that throws is such an exit.
* `ApiServer.task_of_key` : without the secret no handler gets to its task.
* `failed_keep_files` : both results for the handlers of the server, the second one for two
  directories at once.
* `run_drop_refused` : requests without the secret can be left out of every run.
-/

namespace MoonJamRelay

namespace ApiServer

variable {D : Type*} [DecidableEq D] {inst : Installation D} {s s' : ApiServer D}
  {request : ApiRequest}

theorem TaskResult.files_of_failed {luck : Luck} {t : Task} {response : Option ApiResponse}
    (h : TaskResult inst s luck t s' response) (hfail : (response.getD .thrown).status ≠ 200) :
    s'.files = s.files := by
  cases h with
  | noKeys | getRefused | getThrows => rfl
  | deleteRefused | deleteNothing | deleteInvalid | deleteThrows => rfl
  | limitRefused | limitNothing | limitInvalid | limitThrows => rfl
  | created | getNothing | got | deleted | limited => exact absurd rfl hfail

omit [DecidableEq D] in
theorem task_of_key (hkey : request.key ≠ some inst.secret) : task inst request = none := by
  unfold task
  split
  · rename_i key id hk hid
    rw [if_pos fun he => hkey (by rw [hk, he])]
  · rfl

theorem handle_of_key (hkey : request.key ≠ some inst.secret) (luck : Luck) :
    s.handle inst request luck = (s, ⟨511, .none⟩) := by
  rw [handle, task_of_key hkey]

theorem files_handle_of_failed {luck : Luck}
    (hfail : (s.handle inst request luck).2.status ≠ 200) :
    (s.handle inst request luck).1.files = s.files := by
  unfold handle at hfail ⊢
  cases htask : task inst request with
  | none => rfl
  | some t =>
    rw [htask] at hfail
    exact (perform_result s luck t).files_of_failed hfail

end ApiServer

variable {D : Type*} [DecidableEq D]

/-- **Failed requests leave the files, and refused ones learn nothing.**  A request that is not
answered with status 200 changes no file.  A request without the secret gets the same response
whatever the directory and the table hold, and changes neither. -/
theorem failed_keep_files (inst : Installation D) (request : ApiRequest) :
    (∀ (s : ApiServer D) luck, (s.handle inst request luck).2.status ≠ 200 →
      (s.handle inst request luck).1.files = s.files) ∧
    (request.key ≠ some inst.secret → ∀ inst' : Installation D, inst'.secret = inst.secret →
      ∀ (s s' : ApiServer D) luck luck',
        (s.handle inst request luck).2 = (s'.handle inst' request luck').2 ∧
          (s.handle inst request luck).1 = s) := by
  refine ⟨fun s luck hfail => ApiServer.files_handle_of_failed hfail, ?_⟩
  intro hkey inst' hsecret s s' luck luck'
  have hkey' : request.key ≠ some inst'.secret := by rwa [hsecret]
  rw [ApiServer.handle_of_key hkey, ApiServer.handle_of_key hkey']
  exact ⟨rfl, rfl⟩

/-- A `/get` of a file that is too short throws; a `/delete` with another key is refused. -/
theorem failed_keep_files_oneFile :
    let short := oneFile [97, 98]
    let get : ApiRequest := ⟨.get, some oneDirectory.secret, some exampleId, none⟩
    let delete : ApiRequest := ⟨.delete, some [], some exampleId, none⟩
    (short.handle oneDirectory get default).1.files = short.files ∧
      (short.handle oneDirectory delete default).2 =
        ((oneFile []).handle oneDirectory delete default).2 ∧
      (short.handle oneDirectory delete default).1 = short := by
  intro short get delete
  have hget : (short.handle oneDirectory get default).2.status ≠ 200 := by decide
  exact ⟨(failed_keep_files oneDirectory get).1 short default hget,
    (failed_keep_files oneDirectory delete).2 (by decide) oneDirectory rfl short (oneFile [])
      default default⟩

/-- Requests without the secret can be left out of a run: the others find the same state, and the
run ends in the same state. -/
theorem run_drop_refused {inst : Installation D} {start : ApiServer D} {w w' v : ApiWorld D}
    {calls : List ApiCall} (hw : v.server = w.server)
    (hrun : (apiServer inst start).run w calls = some w') :
    ∃ v', (apiServer inst start).run v
      (calls.filter fun call => call.request.key = some inst.secret) = some v' ∧
      v'.server = w'.server := by
  induction calls generalizing w v with
  | nil =>
    obtain rfl := Option.some.inj hrun
    exact ⟨v, rfl, hw⟩
  | cons call calls ih =>
    obtain ⟨u, hu, hrest⟩ := Option.bind_eq_some_iff.1 hrun
    obtain rfl := Option.some.inj hu
    by_cases hkey : call.request.key = some inst.secret
    · rw [List.filter_cons_of_pos (by simpa using hkey)]
      refine ih (v := ⟨(v.server.handle inst call.request call.luck).1,
        (v.server.handle inst call.request call.luck).2 :: v.answers⟩) ?_ hrest
      rw [hw]
    · rw [List.filter_cons_of_neg (by simpa using hkey)]
      refine ih ?_ hrest
      rw [hw, ApiServer.handle_of_key hkey]

end MoonJamRelay
