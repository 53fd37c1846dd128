import MoonJamRelay.Pool.History
import MoonJamRelay.Threads.Jobs

/-!
# The hand-off of jobs to the workers

What happens to the jobs in a run of the threads is a history of the pool (`JobEvent`).

* `System.jobEvent` : the event of a step: a room thread starts a worker, or the worker calls the
  function of its job, returns from it, or returns from its callback.
* `RoomThread.Posted`, `System.Handoff` : the invariant.  A thread posts the jobs of its tick in
  order, and the history agrees with the workers.
* `handoff` : every job runs its course on one worker, no worker is handed a job while it has one,
  and a thread starts its next tick when all its jobs are done.
-/

namespace MoonJamRelay

/-- The events of the pool. -/
abbrev PoolEvent := JobEvent Job (Fin threadCount)

/-- What the step with this label does to a job. -/
def System.jobEvent (s : System) : Label → Option PoolEvent
  | .room t =>
    match (s.threads t).pc with
    | .run i k => some ⟨.posted, s.job t i, k⟩
    | _ => none
  | .worker k =>
    match (s.workers k).pc with
    | .awaitRun => (s.workers k).job.map fun j => ⟨.called, j, k⟩
    | .call (some _) => (s.workers k).job.map fun j => ⟨.returned, j, k⟩
    | .done => (s.workers k).job.map fun j => ⟨.done, j, k⟩
    | _ => none
  | _ => none

open JobEvent

/-! ### The jobs a thread has posted -/

/-- The jobs of the thread `t`, whose variables are `th`: it posts them in order. -/
structure RoomThread.Posted (th : RoomThread) (t : ℕ) (es : List PoolEvent) : Prop where
  started : ∀ j : Job, j.thread = t → ofJob es j ≠ [] → j.tick < th.tick ∨
    j.tick = th.tick ∧ j.index < th.pc.started th.connections.length
  posted : th.pc.InTick → ∀ i < th.pc.started th.connections.length, ofJob es ⟨t, th.tick, i⟩ ≠ []
  joining : ∀ i, th.pc = .joinAcquire i ∨ th.pc = .joinRelease i → i < th.connections.length

namespace RoomThread.Posted

variable {th th' : RoomThread} {t : ℕ} {es es' : List PoolEvent} {pc : RoomPc}

theorem init (hout : ¬ th.pc.InTick) (h : ∀ j : Job, j.thread = t → ofJob es j = []) :
    th.Posted t es where
  started j hj hne := absurd (h j hj) hne
  posted hin := absurd hin hout
  joining i hi := by
    refine absurd ?_ hout
    rcases hi with hi | hi <;> rw [hi] <;> trivial

theorem congr (h : th.Posted t es)
    (hes : ∀ j : Job, j.thread = t → (ofJob es' j = [] ↔ ofJob es j = [])) : th.Posted t es' := by
  refine ⟨fun j hj hne => h.started j hj fun he => hne ((hes j hj).2 he), fun hin i hi he => ?_,
    h.joining⟩
  exact h.posted hin i hi ((hes _ rfl).1 he)

theorem goto (h : th.Posted t es) (hroom : ∀ n, pc.started n = th.pc.started n)
    (hin : pc.InTick → th.pc.InTick) (hjoining : ∀ i, pc = .joinAcquire i ∨ pc = .joinRelease i →
      i < th.connections.length) : { th with pc := pc : RoomThread }.Posted t es where
  started j hj hne := by
    dsimp only
    rw [hroom]
    exact h.started j hj hne
  posted hin' := by
    dsimp only
    rw [hroom]
    exact h.posted (hin hin')
  joining := hjoining

theorem outside (h : th.Posted t es) (hout : ¬ th.pc.InTick) (hout' : ¬ th'.pc.InTick)
    (htick : th'.tick = th.tick) (hconnections : th'.connections = th.connections) :
    th'.Posted t es := by
  refine ⟨fun j hj hne => ?_, fun hin => absurd hin hout', fun i hi => absurd ?_ hout'⟩
  · have hs := h.started j hj hne
    rw [(RoomPc.outside hout _).2.2.1] at hs
    rwa [(RoomPc.outside hout' _).2.2.1, htick, hconnections]
  · rcases hi with hi | hi <;> rw [hi] <;> trivial

theorem getPackets (h : th.Posted t es) (batch : List Packet) :
    { th with packets := batch, tick := th.tick + 1, pc := .getConnections : RoomThread }.Posted t
      es where
  started j hj hne := .inl ((h.started j hj hne).elim Nat.lt_succ_of_lt fun h =>
    h.1 ▸ Nat.lt_succ_self _)
  posted _ i hi := absurd hi (Nat.not_lt_zero i)
  joining _ h := by rcases h with h | h <;> cases h

theorem getConnections (h : th.Posted t es) (hpc : th.pc = .getConnections)
    (connections : List ReceivedConnection) :
    { th with
      connections := connections
      pc := if connections.isEmpty then .sleep else .lock 0 0 : RoomThread }.Posted t es := by
  have hbefore : ∀ j : Job, j.thread = t → ofJob es j ≠ [] → j.tick < th.tick := by
    intro j hj hne
    refine (h.started j hj hne).resolve_right fun hs => ?_
    rw [hpc] at hs
    exact Nat.not_lt_zero _ hs.2
  refine ⟨fun j hj hne => .inl (hbefore j hj hne), fun hin i hi => ?_, fun i hi => ?_⟩
  · dsimp only at hin hi
    split_ifs at hin hi
    · exact hin.elim
    · exact absurd hi (Nat.not_lt_zero i)
  · dsimp only at hi
    split_ifs at hi <;> rcases hi with hi | hi <;> cases hi

theorem run (h : th.Posted t es) {i : ℕ} {k : Fin threadCount} (hpc : th.pc = .run i k)
    (hi : i < th.connections.length)
    (hes : ∀ j : Job, ofJob es' j = [] ↔ ofJob es j = [] ∧ j ≠ ⟨t, th.tick, i⟩) :
    { th with pc := if i + 1 < th.connections.length then .lock (i + 1) 0
              else .joinAcquire 0 : RoomThread }.Posted t es' := by
  have hin : th.pc.InTick := by rw [hpc]; trivial
  obtain ⟨pc, he, hstarted, hjoining⟩ : ∃ pc : RoomPc,
      pc = (if i + 1 < th.connections.length then .lock (i + 1) 0 else .joinAcquire 0) ∧
      pc.started th.connections.length = i + 1 ∧
      ∀ i', pc = .joinAcquire i' ∨ pc = .joinRelease i' → i' < th.connections.length := by
    refine ⟨_, rfl, ?_⟩
    split_ifs with hlt
    · exact ⟨rfl, fun i' hi' => by rcases hi' with hi' | hi' <;> cases hi'⟩
    · refine ⟨Nat.le_antisymm (Nat.not_lt.1 hlt) hi, fun i' hi' => ?_⟩
      rcases hi' with hi' | hi' <;> cases hi'
      exact Nat.lt_of_le_of_lt (Nat.zero_le i) hi
  rw [← he]
  refine ⟨fun j hj hne => ?_, fun _ i' hi' he' => ?_, hjoining⟩
  · dsimp only
    rw [hstarted]
    by_cases hself : j = ⟨t, th.tick, i⟩
    · subst hself
      exact .inr ⟨rfl, Nat.lt_succ_self i⟩
    · have hs := h.started j hj fun he' => hne ((hes j).2 ⟨he', hself⟩)
      rw [hpc] at hs
      exact hs.imp_right fun hs => ⟨hs.1, Nat.lt_succ_of_lt hs.2⟩
  · dsimp only at hi' he'
    rw [hstarted] at hi'
    obtain ⟨hnone, hne⟩ := (hes _).1 he'
    refine h.posted hin i' ?_ hnone
    rw [hpc]
    refine Nat.lt_of_le_of_ne (Nat.le_of_lt_succ hi') ?_
    rintro rfl
    exact hne rfl

end RoomThread.Posted

/-! ### The invariant -/

namespace System

variable {keys : KeyManager} {s s' : System} {es : List PoolEvent} {t : ℕ} {k : Fin threadCount}

/-- The history agrees with the workers and the threads. -/
structure Handoff (s : System) (es : List PoolEvent) : Prop where
  tracks : Tracks s.workers es
  posted : ∀ t, (s.threads t).Posted t es
  spawned : ∀ j, ofJob es j ≠ [] → j.thread < s.spawned

theorem handoff_init : (System.init keys).Handoff [] where
  tracks := .init fun _ => rfl
  posted _ := .init (fun h => h) fun _ _ => rfl
  spawned _ h := absurd rfl h

/-! ### Workers -/

theorem WorkerStep.jobEvent (hst : s.WorkerStep k s') : s.jobEvent (.worker k) = none ∨
    ∃ p j, s.jobEvent (.worker k) = some ⟨p, j, k⟩ ∧ (s.workers k).active = some j := by
  cases hst with
  | advance w hw =>
    rcases Worker.advance_cases hw with ⟨hpc, -⟩ | ⟨hpc, -⟩ | ⟨hpc, -⟩ | ⟨hpc, hfree, -⟩
    · exact .inl (by simp [System.jobEvent, hpc])
    · exact .inl (by simp [System.jobEvent, hpc])
    · exact .inl (by simp [System.jobEvent, hpc])
    · cases hj : (s.workers k).job with
      | none => exact .inl (by simp [System.jobEvent, hpc, hj])
      | some j =>
        exact .inr ⟨_, j, by simp [System.jobEvent, hpc, hj]; rfl, by
          simp [Worker.active, hpc, hfree, hj]⟩
  | assemble j c bytes hpc hj => exact .inl (by simp [System.jobEvent, hpc])
  | send j c a hpc hj =>
    exact .inr ⟨_, j, by simp [System.jobEvent, hpc, hj]; rfl, (Worker.active_of_call hpc).trans hj⟩
  | done j hpc hj =>
    exact .inr ⟨_, j, by simp [System.jobEvent, hpc, hj]; rfl, (Worker.active_of_done hpc).trans hj⟩

theorem WorkerStep.tracks (hjobs : s.Jobs) (h : Tracks s.workers es)
    (hst : s.WorkerStep k s') :
    Tracks s'.workers (es ++ (s.jobEvent (.worker k)).toList) := by
  have hunique : ∀ j, (s.workers k).active = some j → ∀ k', (s.workers k').active = some j →
      k' = k := fun j hj k' hk' => hjobs.unique k' k j hk' hj
  -- a step without an event
  have hquiet : ∀ w : RelayThread, s.jobEvent (.worker k) = none →
      w.active = (s.workers k).active →
      (∀ j, (s.workers k).active = some j → w.stage = (s.workers k).stage) →
      Tracks (Function.update s.workers k w) (es ++ (s.jobEvent (.worker k)).toList) := by
    intro w he hactive hstage
    rw [he, Option.toList_none, List.append_nil]
    refine h.congr (fun k' => ?_) fun k' j hj => ?_
    · by_cases hk : k' = k
      · rw [hk, Function.update_self, hactive]
      · rw [Function.update_of_ne hk]
    · by_cases hk : k' = k
      · subst hk
        rw [Function.update_self]
        exact hstage j hj
      · rw [Function.update_of_ne hk]
  cases hst with
  | advance w hw =>
    obtain ⟨-, hactive, -⟩ := (hjobs.wf k).advance hw
    rcases Worker.advance_cases hw with ⟨hpc, -⟩ | ⟨hpc, -⟩ | ⟨hpc, -⟩ | ⟨hpc, hfree, rfl⟩
    · exact hquiet w (by simp [System.jobEvent, hpc]) hactive (by simp [Worker.active, hpc])
    · exact hquiet w (by simp [System.jobEvent, hpc]) hactive (by simp [Worker.active, hpc])
    · exact hquiet w (by simp [System.jobEvent, hpc]) hactive (by simp [Worker.active, hpc])
    · have hactive' : (s.workers k).active = (s.workers k).job := by
        simp [Worker.active, hpc, hfree]
      rcases Option.eq_none_or_eq_some (s.workers k).job with hj | ⟨j, hj⟩
      · refine hquiet _ (by simp [System.jobEvent, hpc, hj]) hactive fun j hj' => ?_
        rw [hactive', hj] at hj'
        cases hj'
      · rw [hj] at hactive'
        have he : s.jobEvent (.worker k) = some ⟨.called, j, k⟩ := by
          simp [System.jobEvent, hpc, hj]
        rw [he]
        refine h.event ((h.active k j hactive').trans ?_) (hunique j hactive') (fun j' hj' => ?_)
          (.inr ⟨by decide, hactive.trans hactive', rfl⟩)
        · rw [Worker.stage, hpc]
          rfl
        · exact Option.some.inj (hj'.symm.trans hactive')
  | assemble j c bytes hpc hj =>
    exact hquiet _ (by simp [System.jobEvent, hpc]) (by simp [Worker.active, Worker.proceed, hpc])
      fun _ _ => by simp [Worker.stage, Worker.proceed, hpc]
  | send j c a hpc hj =>
    have hactive := (Worker.active_of_call hpc).trans hj
    have he : s.jobEvent (.worker k) = some ⟨.returned, j, k⟩ := by
      simp [System.jobEvent, hpc, hj]
    rw [he]
    refine h.event ((h.active k j hactive).trans ?_) (hunique j hactive) (fun j' hj' => ?_)
      (.inr ⟨by decide, hj, rfl⟩)
    · rw [Worker.stage, hpc]
      rfl
    · exact Option.some.inj (hj'.symm.trans hactive)
  | done j hpc hj =>
    have hactive := (Worker.active_of_done hpc).trans hj
    have he : s.jobEvent (.worker k) = some ⟨.done, j, k⟩ := by
      simp [System.jobEvent, hpc, hj]
    rw [he]
    refine h.event ((h.active k j hactive).trans ?_) (hunique j hactive) (fun j' hj' => ?_)
      (.inl ⟨rfl, rfl⟩)
    · rw [Worker.stage, hpc]
      rfl
    · exact Option.some.inj (hj'.symm.trans hactive)

theorem WorkerStep.handoff (hjobs : s.Jobs) (h : s.Handoff es) (hst : s.WorkerStep k s') :
    s'.Handoff (es ++ (s.jobEvent (.worker k)).toList) := by
  -- the events are about jobs that have events
  have hnil : ∀ j, ofJob (es ++ (s.jobEvent (.worker k)).toList) j = [] ↔ ofJob es j = [] := by
    intro j
    rcases hst.jobEvent with he | ⟨p, j', he, hactive⟩
    · rw [he, Option.toList_none, List.append_nil]
    · rw [he]
      refine (congrArg (· = []) (ofJob_snoc _ j)).to_iff.trans ?_
      split_ifs with hj
      · exact iff_of_false (by simp) (hj ▸ h.tracks.ne_nil hactive)
      · exact Iff.rfl
  obtain ⟨hth, hspawned, -⟩ := hst.threads
  refine ⟨hst.tracks hjobs h.tracks, fun t => ?_, fun j hj => ?_⟩
  · rw [hth]
    exact (h.posted t).congr fun j _ => hnil j
  · rw [hspawned]
    exact h.spawned j fun he => hj ((hnil j).2 he)

/-! ### Room threads -/

theorem jobEvent_of_run {i : ℕ} (hpc : (s.threads t).pc = .run i k) :
    s.jobEvent (.room t) = some ⟨.posted, s.job t i, k⟩ := by
  simp [jobEvent, hpc]

theorem jobEvent_of_not_run (hpc : ∀ i k, (s.threads t).pc ≠ .run i k) :
    s.jobEvent (.room t) = none := by
  cases h : (s.threads t).pc with
  | run i k => exact absurd h (hpc i k)
  | _ => simp [jobEvent, h]

/-- A step of a room thread gives a first event to the job it starts, and to no other. -/
theorem ofJob_room_eq_nil (j : Job) : ofJob (es ++ (s.jobEvent (.room t)).toList) j = [] ↔
    ofJob es j = [] ∧ ∀ i k, (s.threads t).pc = .run i k → j ≠ s.job t i := by
  by_cases hrun : ∃ i k, (s.threads t).pc = .run i k
  · obtain ⟨i, k, hpc⟩ := hrun
    rw [jobEvent_of_run hpc, Option.toList_some, ofJob_snoc]
    split_ifs with hj
    · exact iff_of_false (by simp) fun hn => hn.2 i k hpc hj.symm
    · refine (and_iff_left fun i' k' hpc' => ?_).symm
      obtain ⟨rfl, -⟩ := RoomPc.run.inj (hpc.symm.trans hpc')
      exact fun hj' => hj hj'.symm
  · rw [jobEvent_of_not_run fun i k hpc => hrun ⟨i, k, hpc⟩, Option.toList_none, List.append_nil]
    exact (and_iff_left fun i k hpc => absurd ⟨i, k, hpc⟩ hrun).symm

/-- The job a thread is about to start has no events yet. -/
theorem Handoff.ofJob_run (h : s.Handoff es) {i : ℕ} (hpc : (s.threads t).pc = .run i k) :
    ofJob es (s.job t i) = [] := by
  by_contra hne
  rcases (h.posted t).started _ rfl hne with hlt | ⟨-, hlt⟩
  · exact Nat.lt_irrefl _ hlt
  · rw [hpc] at hlt
    exact Nat.lt_irrefl i hlt

theorem RoomStep.tracks (hjobs : s.Jobs) (h : s.Handoff es) (hst : s.RoomStep t s') :
    Tracks s'.workers (es ++ (s.jobEvent (.room t)).toList) := by
  have hsame : (∀ i k, (s.threads t).pc ≠ .run i k) → s'.workers = s.workers →
      Tracks s'.workers (es ++ (s.jobEvent (.room t)).toList) := by
    intro hpc hworkers
    rw [jobEvent_of_not_run hpc, hworkers, Option.toList_none, List.append_nil]
    exact h.tracks
  -- a worker without a job changes
  have hidle : ∀ k w, (∀ i k, (s.threads t).pc ≠ .run i k) → (s.workers k).active = none →
      w.active = none → s'.workers = Function.update s.workers k w →
      Tracks s'.workers (es ++ (s.jobEvent (.room t)).toList) := by
    intro k w hpc hnone hnone' hworkers
    rw [jobEvent_of_not_run hpc, hworkers, Option.toList_none, List.append_nil]
    refine h.tracks.congr (fun k' => ?_) fun k' j hj => ?_
    · by_cases hk : k' = k
      · rw [hk, Function.update_self, hnone, hnone']
      · rw [Function.update_of_ne hk]
    · rw [Function.update_of_ne]
      rintro rfl
      rw [hnone] at hj
      cases hj
  cases hst with
  | stay hpc | leave hpc | noPackets hpc | getPackets _ hpc | getConnections _ hpc
  | lockNext i k hpc | acquireController i k hpc | joinAcquire i hpc | joinRelease i hpc
  | sleep hpc | complete hpc | returning hpc => exact hsame (by simp [hpc]) rfl
  | lock i k hpc hfree =>
    obtain ⟨-, -, -, hnone⟩ := (hjobs.wf k).lock hfree
    exact hidle k (s.workers k).lock (by simp [hpc]) hnone hnone rfl
  | assign i k hpc =>
    have hclaimed := hjobs.claimed t k (by rw [hpc]; rfl)
    exact hidle k _ (by simp [hpc]) hclaimed.active hclaimed.assign.active rfl
  | run i k hpc =>
    have hclaimed := hjobs.claimed t k (by rw [hpc]; rfl)
    have hnil := h.ofJob_run hpc
    rw [jobEvent_of_run hpc]
    refine h.tracks.event hnil (fun k' hk' => absurd hnil (h.tracks.ne_nil hk'))
      (fun j hj => ?_) (.inr ⟨by decide, ?_, ?_⟩)
    · rw [hclaimed.active] at hj
      cases hj
    · exact hclaimed.run.2.2.trans (hjobs.assigned t i k hpc)
    · rw [Worker.stage, Worker.run, hclaimed.1]
      rfl

theorem RoomStep.posted (hjobs : s.Jobs) (h : (s.threads t).Posted t es) (hst : s.RoomStep t s') :
    (s'.threads t).Posted t (es ++ (s.jobEvent (.room t)).toList) := by
  have hself : ∀ th, s'.threads = Function.update s.threads t th →
      (∀ i k, (s.threads t).pc ≠ .run i k) → th.Posted t es →
      (s'.threads t).Posted t (es ++ (s.jobEvent (.room t)).toList) := by
    intro th hth hpc hposted
    rwa [hth, Function.update_self, jobEvent_of_not_run hpc, Option.toList_none, List.append_nil]
  have hnojoin : ∀ {pc : RoomPc}, pc.starting ≠ none → ∀ i, pc = .joinAcquire i ∨
      pc = .joinRelease i → i < (s.threads t).connections.length := by
    rintro pc hpc i (rfl | rfl) <;> exact absurd rfl hpc
  cases hst with
  | stay hpc | leave hpc | noPackets hpc | sleep hpc | complete hpc | returning hpc =>
    refine hself _ rfl (by simp [hpc]) (h.outside ?_ ?_ rfl rfl)
    · simp [hpc, RoomPc.InTick]
    · exact fun hin => hin
  | getPackets batch hpc => exact hself _ rfl (by simp [hpc]) (h.getPackets batch)
  | getConnections connections hpc =>
    exact hself _ rfl (by simp [hpc]) (h.getConnections hpc connections)
  | lockNext i k hpc | lock i k hpc | acquireController i k hpc | assign i k hpc =>
    refine hself _ rfl (by simp [hpc])
      (h.goto (fun n => ?_) (fun _ => ?_) (hnojoin (by simp [RoomPc.starting])))
    · rw [hpc]
      rfl
    · rw [hpc]
      trivial
  | run i k hpc =>
    have hnew : ∀ j, ofJob (es ++ (s.jobEvent (.room t)).toList) j = [] ↔
        ofJob es j = [] ∧ j ≠ s.job t i := by
      refine fun j => (ofJob_room_eq_nil j).trans (and_congr_right' ⟨fun hn => hn i k hpc, ?_⟩)
      intro hn i' k' hpc'
      obtain ⟨rfl, -⟩ := RoomPc.run.inj (hpc.symm.trans hpc')
      exact hn
    have hnext := h.run hpc (hjobs.index_lt t i (by rw [hpc]; rfl)) hnew
    simpa [withWorker, threadGoto, withThread] using hnext
  | joinAcquire i hpc =>
    refine hself _ rfl (by simp [hpc]) (h.goto (fun n => ?_) (fun _ => ?_) (fun i' hi' => ?_))
    · rw [hpc]
      rfl
    · rw [hpc]
      trivial
    · rcases hi' with hi' | hi' <;> cases hi'
      exact h.joining i (.inl hpc)
  | joinRelease i hpc =>
    refine hself _ rfl (by simp [hpc]) (h.goto (fun n => ?_) (fun _ => ?_) (fun i' hi' => ?_))
    · rw [hpc]
      split_ifs <;> rfl
    · rw [hpc]
      trivial
    · split_ifs at hi' with hlt <;> rcases hi' with hi' | hi' <;> cases hi'
      exact hlt

theorem RoomStep.handoff (hjobs : s.Jobs) (hs : s.Spawned) (h : s.Handoff es)
    (hst : s.RoomStep t s') : s'.Handoff (es ++ (s.jobEvent (.room t)).toList) := by
  obtain ⟨hjoined, hspawned, -, -, -, hothers⟩ := hst.threads
  have hlt : t < s.spawned := Nat.lt_of_not_le fun hle => hjoined (hs t hle)
  refine ⟨hst.tracks hjobs h, fun t' => ?_, fun j hj => ?_⟩
  · by_cases ht : t' = t
    · subst ht
      exact hst.posted hjobs (h.posted t')
    · rw [hothers t' ht]
      refine (h.posted t').congr fun j hj => (ofJob_room_eq_nil j).trans (and_iff_left ?_)
      rintro i k - rfl
      exact ht hj.symm
  · rw [hspawned]
    by_cases hself : j.thread = t
    · rwa [hself]
    · refine h.spawned j fun hn => hj ((ofJob_room_eq_nil j).2 ⟨hn, ?_⟩)
      rintro i k - rfl
      exact hself rfl

/-! ### The other steps -/

theorem Handoff.congr (h : s.Handoff es) (hth : s'.threads = s.threads)
    (hworkers : s'.workers = s.workers) (hspawned : s'.spawned = s.spawned) : s'.Handoff es := by
  obtain ⟨h1, h2, h3⟩ := h
  exact ⟨by rwa [hworkers], by rwa [hth], by rwa [hspawned]⟩

theorem RelayStep.handoff (h : s.Handoff es) (hst : s.RelayStep s') :
    s'.Handoff es := by
  obtain ⟨hworkers, -⟩ := hst.workers
  rcases hst.threads with ⟨hth, -, hspawned⟩ | ⟨t, hfin, hspawned, hth⟩ | ⟨room, hspawned, hth⟩
  · exact h.congr hth hworkers hspawned
  · refine ⟨by rw [hworkers]; exact h.tracks, fun t' => ?_, by rw [hspawned]; exact h.spawned⟩
    rw [hth]
    by_cases ht : t' = t
    · subst ht
      rw [Function.update_self]
      exact (h.posted t').outside (by simp [hfin, RoomPc.InTick]) (fun hin => hin) rfl rfl
    · rw [Function.update_of_ne ht]
      exact h.posted t'
  · refine ⟨by rw [hworkers]; exact h.tracks, fun t' => ?_, fun j hj => ?_⟩
    · rw [hth]
      by_cases ht : t' = s.spawned
      · subst ht
        rw [Function.update_self]
        refine .init (fun hin => hin) fun j hj => ?_
        by_contra hne
        exact Nat.ne_of_lt (h.spawned j hne) hj
      · rw [Function.update_of_ne ht]
        exact h.posted t'
    · rw [hspawned]
      exact Nat.lt_succ_of_lt (h.spawned j hj)

theorem next_handoff {l : Label} (hr : (relaySystem keys).Reachable s) (h : s.Handoff es)
    (hst : s.next l = some s') : s'.Handoff (es ++ (s.jobEvent l).toList) := by
  have hjobs := jobs_of_reachable hr
  have hs := spawned_of_reachable hr
  cases l with
  | room t =>
    rcases locked_eq_some hst with ⟨m, -, hw, rfl⟩ | ⟨hexec, -⟩
    · rw [jobEvent_of_not_run (by rintro i k hpc; simp [hpc, RoomPc.wants] at hw),
        Option.toList_none, List.append_nil]
      exact h.congr rfl rfl rfl
    · obtain ⟨s₁, h₁, rfl⟩ := Option.map_eq_some_iff.1 hexec
      exact ((roomStep_of_exec h₁).handoff hjobs hs h).congr rfl rfl rfl
  | worker k => exact (workerStep_of_exec hst).handoff hjobs h
  | relay =>
    change s'.Handoff (es ++ [])
    rw [List.append_nil]
    rcases locked_eq_some hst with ⟨m, -, -, rfl⟩ | ⟨hexec, -⟩
    · exact h.congr rfl rfl rfl
    · obtain ⟨s₁, h₁, rfl⟩ := Option.map_eq_some_iff.1 hexec
      exact ((relayStep_of_exec h₁).handoff h).congr rfl rfl rfl
  | onOpen | onMessage | onClose | endSession | refreshKeys =>
    change s'.Handoff (es ++ [])
    rw [List.append_nil]
    cases next_step hst with
    | call _ hc =>
      obtain ⟨hth, hspawned, -⟩ := hc.threads
      exact h.congr hth hc.workers.1 hspawned
    | acquire => exact h.congr rfl rfl rfl

/-- A history of the pool in a run of the threads. -/
abbrev pooled (keys : KeyManager) : Machine (System × List PoolEvent) Label :=
  (relaySystem keys).observe jobEvent

theorem handoff_of_reachable (h : (pooled keys).Reachable (s, es)) :
    (relaySystem keys).Reachable s ∧ s.Handoff es :=
  Machine.Reachable.observed h handoff_init fun _ _ _ _ hr hu hst => next_handoff hr hu hst

/-! ### The protocol -/

/-- The worker is in the function of its job, whose `int` byte count overflows. -/
def Overflows (s : System) (k : Fin threadCount) : Prop :=
  (s.workers k).pc = .call none ∧ ∃ j c, (s.workers k).job = some j ∧
    s.jobConnection j = some c ∧ assemble c.identifier (s.threads j.thread).packets = none

/-- A worker with an active job has an enabled step, or its function is undefined. -/
theorem Jobs.enabled (h : s.Jobs) {j : Job} (hj : (s.workers k).active = some j) :
    (s.workers k).job = some j ∧ ((∃ s', s.next (.worker k) = some s') ∨ s.Overflows k) := by
  obtain ⟨c, hc⟩ := h.jobConnection hj
  rw [← Option.isSome_iff_exists, next]
  cases hpc : (s.workers k).pc with
  | releaseRunning | acquireRunning | releaseThread => simp [Worker.active, hpc] at hj
  | awaitRun =>
    simp only [Worker.active, hpc] at hj
    split_ifs at hj with hfree
    exact ⟨hj, .inl (by simp [workerExec, hpc, Worker.advance, hfree])⟩
  | call locals =>
    rw [Worker.active_of_call hpc] at hj
    refine ⟨hj, ?_⟩
    cases locals with
    | none =>
      cases ha : assemble c.identifier (s.threads j.thread).packets with
      | none => exact .inr ⟨hpc, j, c, hj, hc, ha⟩
      | some bytes => exact .inl (by simp [workerExec, hpc, hj, hc, jobAssemble, ha])
    | some a => exact .inl (by simp [workerExec, hpc, hj, hc])
  | done =>
    rw [Worker.active_of_done hpc] at hj
    exact ⟨hj, .inl (by simp [workerExec, hpc, hj])⟩

/-- The protocol of the hand-off, after the history `es`. -/
structure Protocol (s : System) (es : List PoolEvent) : Prop where
  /-- Every job is posted, called, returned from and done at most once, in this order, and on one
  worker. -/
  once : ∀ j, ∃ k n, ofJob es j = (course j k).take n
  /-- No job is lost: until it is done, the worker has it and can go on. -/
  not_lost : ∀ j k, ⟨.posted, j, k⟩ ∈ es → ⟨.done, j, k⟩ ∉ es →
    (s.workers k).job = some j ∧ ((∃ s', s.next (.worker k) = some s') ∨ s.Overflows k)
  /-- One caller at a time is between `lock` and `run` of a worker. -/
  one_caller : ∀ t t' k, (s.threads t).pc.claims = some k → (s.threads t').pc.claims = some k →
    t = t'
  /-- Only the caller that has locked a worker replaces its function and callback, when all jobs
  it was handed are done. -/
  kept : ∀ l s' k, s.next l = some s' → (s'.workers k).job ≠ (s.workers k).job →
    (∃ t i, l = .room t ∧ (s.threads t).pc = .assign i k) ∧
      ∀ j, ⟨.posted, j, k⟩ ∈ es → ⟨.done, j, k⟩ ∈ es
  /-- When a `join` has passed its acquire, the job is done. -/
  joined : ∀ t i, (s.threads t).pc = .joinRelease i →
    ∃ k, ofJob es (s.job t i) = course (s.job t i) k
  /-- The packets and connections of a thread change only when all its jobs are done. -/
  buffers : ∀ l s' t, s.next l = some s' → (s'.threads t).packets ≠ (s.threads t).packets ∨
      (s'.threads t).connections ≠ (s.threads t).connections →
    ∀ j k, j.thread = t → ⟨.posted, j, k⟩ ∈ es → ⟨.done, j, k⟩ ∈ es

theorem Handoff.done (h : s.Handoff es) {j : Job} (hposted : ⟨.posted, j, k⟩ ∈ es)
    (hj : ∀ k, (s.workers k).active ≠ some j) : ⟨.done, j, k⟩ ∈ es := by
  rw [← mem_ofJob, h.tracks.done_of_posted hposted hj]
  simp [course]

theorem Handoff.kept (h : s.Handoff es) (hr : (relaySystem keys).Reachable s) {l : Label}
    (hst : s.next l = some s') (hne : (s'.workers k).job ≠ (s.workers k).job) :
    (∃ t i, l = .room t ∧ (s.threads t).pc = .assign i k) ∧
      ∀ j, ⟨.posted, j, k⟩ ∈ es → ⟨.done, j, k⟩ ∈ es := by
  have hsame : ∀ k' (w : RelayThread), s'.workers = Function.update s.workers k' w →
      w.job = (s.workers k').job → False := by
    intro k' w hworkers hw
    rw [hworkers, Function.update_apply] at hne
    split_ifs at hne with hk
    · exact hne (hk ▸ hw)
    · exact hne rfl
  cases next_step hst with
  | call _ hc => exact absurd (by rw [hc.workers.1]) hne
  | acquire => exact absurd rfl hne
  | relay hc => exact absurd (congrArg (fun ws => (ws k).job) hc.workers.1) hne
  | worker k' hc =>
    cases hc with
    | advance w hw =>
      refine (hsame k' w rfl ?_).elim
      rcases Worker.advance_cases hw with ⟨-, rfl⟩ | ⟨-, -, rfl⟩ | ⟨-, rfl⟩ | ⟨-, -, rfl⟩ <;> rfl
    | assemble | send | done => exact (hsame k' _ rfl rfl).elim
  | room t hc =>
    cases hc with
    | assign i k' hpc =>
      have hk : k = k' := by
        by_contra hk
        exact hne (by simp [unlock, withWorker, threadGoto, withThread, hk])
      subst hk
      have hclaimed := (jobs_of_reachable hr).claimed t k (by rw [hpc]; rfl)
      refine ⟨⟨t, i, rfl, hpc⟩, fun j hposted => ?_⟩
      by_contra hdone
      have hactive := h.tracks.active_of_posted hposted hdone
      rw [hclaimed.active] at hactive
      cases hactive
    | lock i k' => exact (hsame k' _ rfl rfl).elim
    | run i k' => exact (hsame k' _ rfl rfl).elim
    | _ => exact absurd rfl hne

theorem Handoff.buffers (h : s.Handoff es) (hr : (relaySystem keys).Reachable s) {l : Label}
    (hst : s.next l = some s') (hne : (s'.threads t).packets ≠ (s.threads t).packets ∨
      (s'.threads t).connections ≠ (s.threads t).connections) {j : Job} (hj : j.thread = t)
    (hposted : ⟨.posted, j, k⟩ ∈ es) : ⟨.done, j, k⟩ ∈ es := by
  have hjobs := jobs_of_reachable hr
  have hsame : s'.threads t ≠ s.threads t := fun he => by simp [he] at hne
  have houtside : ¬ (s.threads t).pc.InTick → ⟨.done, j, k⟩ ∈ es := fun hout =>
    h.done hposted fun k' hk' => hjobs.not_active_of_outside hout hk' hj
  cases next_step hst with
  | call _ hc => exact absurd (by rw [hc.threads.1]) hsame
  | acquire => exact absurd rfl hsame
  | worker k' hc => exact absurd (by rw [hc.threads.1]) hsame
  | relay hc =>
    rcases hc.threads with ⟨hth, -⟩ | ⟨t', hfin, -, hth⟩ | ⟨room, -, hth⟩
    · exact absurd (congrFun hth t) hsame
    · have ht : t = t' := by
        by_contra ht
        exact hsame ((congrFun hth t).trans (Function.update_of_ne ht _ _))
      exact houtside (by simp [ht, hfin, RoomPc.InTick])
    · -- the thread is a new one, which has no jobs
      have ht : t = s.spawned := by
        by_contra ht
        exact hsame ((congrFun hth t).trans (Function.update_of_ne ht _ _))
      refine absurd (h.spawned j fun he => ?_) (by rw [hj, ht]; exact Nat.lt_irrefl _)
      rw [← mem_ofJob, he] at hposted
      cases hposted
  | room t' hc =>
    have ht : t = t' := by
      by_contra ht
      exact hsame (hc.threads.2.2.2.2.2 t ht)
    subst ht
    cases hc with
    | noPackets hpc | getPackets _ hpc => exact houtside (by simp [hpc, RoomPc.InTick])
    | getConnections connections hpc =>
      -- no job of the tick was started yet
      refine h.done hposted fun k' hk' => ?_
      have hlt := ((hjobs.running k' j hk').runs hj hpc).2.2
      exact Nat.not_lt_zero _ hlt
    | _ => simp [unlock, threadGoto, withThread, withWorker, withController] at hne

/-- **The hand-off of jobs**: in every run, with any number of room threads and jobs. -/
theorem worker_handoff (h : (pooled keys).Reachable (s, es)) : s.Protocol es := by
  obtain ⟨hr, hand⟩ := handoff_of_reachable h
  have hjobs := jobs_of_reachable hr
  refine ⟨hand.tracks.exists_course, fun j k hposted hdone => ?_, hjobs.claims_unique,
    fun l s' k hst hne => hand.kept hr hst hne, fun t i hpc => ?_,
    fun l s' t hst hne j k hj hposted => hand.buffers hr hst hne hj hposted⟩
  · exact hjobs.enabled (hand.tracks.active_of_posted hposted hdone)
  · -- the job was posted, and is not running any more
    have hposted := (hand.posted t).posted (by rw [hpc]; trivial) i (by
      rw [hpc]
      exact (hand.posted t).joining i (.inr hpc))
    refine (hand.tracks.ended (s.job t i) fun k hk => ?_).resolve_left hposted
    have hle := ((hjobs.running k _ hk).runs rfl hpc).2.1
    exact Nat.not_succ_le_self i hle

/-- The room of the moon client ticks, and the first worker runs its job. -/
def firstJobLabels : List Label :=
  startLabels ++ List.replicate 6 (.room 0) ++ List.replicate 3 (.worker 0) ++
    List.replicate 4 (.room 0) ++ List.replicate 4 (.worker 0)

/-- In `firstJobLabels` one job runs its course. -/
theorem worker_handoff_of_firstJob :
    ∃ s, (pooled moonTable).Reachable (s, course ⟨0, 1, 0⟩ 0) ∧
      s.Protocol (course ⟨0, 1, 0⟩ 0) := by
  have hrun : ((pooled moonTable).run (.init moonTable, []) firstJobLabels).any
      (fun p => decide (p.2 = course ⟨0, 1, 0⟩ 0)) = true := by
    decide +kernel
  obtain ⟨⟨s, es⟩, hs, he⟩ := (Option.any_eq_true _ _).1 hrun
  obtain rfl : es = course ⟨0, 1, 0⟩ 0 := of_decide_eq_true he
  have hreach : (pooled moonTable).Reachable (s, course ⟨0, 1, 0⟩ 0) := .of_run hs
  exact ⟨s, hreach, worker_handoff hreach⟩

end System

end MoonJamRelay
