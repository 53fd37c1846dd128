import Mathlib.Data.Nat.Notation
import Mathlib.Tactic.SplitIfs

/-!
# Worker threads behind two semaphores

A worker of a thread pool is handed one job at a time.  `threadLock` is taken by the caller that
claims the worker and released by the worker when it is ready for the next caller; `runningLock`
is released by the caller to start the job and taken by the worker that waited for it.  Both are
binary semaphores with atomic operations.  `J` are the jobs, `L` the local states of a running job.

* `Worker.lock`, `Worker.assign`, `Worker.run` : what a caller does, in this order.
* `Worker.advance` : the loop of the worker up to the call of the job; `Worker.proceed`,
  `Worker.finish`, `Worker.again` : the call, its end, and the end of the callback after it.
* `Worker.WF` : the semaphores are as the program point says; kept by all operations.
* `Worker.active` : the job that was started and whose callback has not ended; `Worker.pending` :
  the same, up to the end of the function.
* `Worker.Claimed` : a caller has locked the worker and not started a job yet.
-/

namespace MoonJamRelay

/-- Where a worker is in its loop. -/
inductive WorkerPc (L : Type*) where
  /-- At the head of the loop: release `runningLock`. -/
  | releaseRunning
  /-- Acquire `runningLock`, so that the next acquire waits for a caller. -/
  | acquireRunning
  /-- Release `threadLock`: callers may claim the worker. -/
  | releaseThread
  /-- Acquire `runningLock`: wait for a caller to start a job. -/
  | awaitRun
  /-- In the function of the job. -/
  | call (locals : L)
  /-- Before the callback of the job. -/
  | done

/-- A worker. -/
structure Worker (J L : Type*) where
  /-- `m_threadLock` is locked. -/
  threadLock : Bool
  /-- `m_runningLock` is locked. -/
  runningLock : Bool
  pc : WorkerPc L
  /-- The job assigned last: its function and its callback. -/
  job : Option J

namespace Worker

variable {J L : Type*}

/-- A worker whose thread has just been started; the constructor has locked `threadLock`. -/
def init : Worker J L := ⟨true, false, .releaseRunning, none⟩

variable (w : Worker J L)

/-- A caller claims the worker (`try_acquire` of a free `threadLock`). -/
def lock : Worker J L := { w with threadLock := true }

/-- The caller stores the function and the callback of its job. -/
def assign (j : J) : Worker J L := { w with job := some j }

/-- The caller starts the job. -/
def run : Worker J L := { w with runningLock := false }

/-- The steps of the worker up to the call of the job, which starts in the local state `start`. -/
def advance (start : L) : Option (Worker J L) :=
  match w.pc with
  | .releaseRunning => some { w with runningLock := false, pc := .acquireRunning }
  | .acquireRunning =>
    if w.runningLock then none else some { w with runningLock := true, pc := .releaseThread }
  | .releaseThread => some { w with threadLock := false, pc := .awaitRun }
  | .awaitRun =>
    if w.runningLock then none else some { w with runningLock := true, pc := .call start }
  | .call _ | .done => none

/-- The function of the job goes on. -/
def proceed (locals : L) : Worker J L := { w with pc := .call locals }

/-- The function of the job returns. -/
def finish : Worker J L := { w with pc := .done }

/-- The callback of the job returns. -/
def again : Worker J L := { w with pc := .releaseRunning }

/-- The job that was started and whose callback has not returned. -/
def active : Option J :=
  match w.pc with
  | .awaitRun => if w.runningLock then none else w.job
  | .call _ | .done => w.job
  | .releaseRunning | .acquireRunning | .releaseThread => none

/-- The job that was started and whose function has not returned. -/
def pending : Option J :=
  match w.pc with
  | .awaitRun => if w.runningLock then none else w.job
  | .call _ => w.job
  | .done | .releaseRunning | .acquireRunning | .releaseThread => none

/-- A caller has locked the worker and not started a job yet. -/
def Claimed : Prop := w.pc = .awaitRun ∧ w.threadLock = true ∧ w.runningLock = true

/-- The semaphores are as the program point says. -/
def WF : Prop :=
  match w.pc with
  | .releaseRunning => w.threadLock = true
  | .acquireRunning => w.threadLock = true ∧ w.runningLock = false
  | .releaseThread => w.threadLock = true ∧ w.runningLock = true
  | .awaitRun => w.threadLock = true ∨ w.runningLock = true
  | .call _ | .done => w.threadLock = true ∧ w.runningLock = true

variable {w} {w' : Worker J L} {start locals : L} {j : J}

theorem wf_init : (init : Worker J L).WF := rfl

/-- Only a worker that waits for a caller can be locked; then it is claimed. -/
theorem WF.lock (h : w.WF) (hfree : w.threadLock = false) :
    w.lock.WF ∧ w.lock.Claimed ∧ ¬ w.Claimed ∧ w.active = none := by
  obtain ⟨t, r, pc, job⟩ := w
  obtain rfl : t = false := hfree
  cases pc <;> simp_all [WF, Worker.lock, Claimed, active]

theorem active_lock : w.lock.active = w.active := rfl

theorem Claimed.active (h : w.Claimed) : w.active = none := by
  simp [Worker.active, h.1, h.2.2]

theorem active_of_pending (h : w.pending = some j) : w.active = some j := by
  unfold pending at h
  unfold Worker.active
  split at h <;> simp_all

theorem pending_lock : w.lock.pending = w.pending := rfl

theorem Claimed.pending (h : w.Claimed) : w.pending = none := by
  simp [Worker.pending, h.1, h.2.2]

theorem Claimed.wf (h : w.Claimed) : w.WF := by
  simp [WF, h.1, h.2.2]

theorem Claimed.assign (h : w.Claimed) : (w.assign j).Claimed := h

theorem Claimed.run (h : w.Claimed) : w.run.WF ∧ ¬ w.run.Claimed ∧ w.run.active = w.job := by
  simp [WF, Worker.run, Worker.active, Claimed, h.1, h.2.1]

theorem Claimed.pending_run (h : w.Claimed) : w.run.pending = w.job := by
  simp [Worker.run, Worker.pending, h.1]

/-- The four steps of the worker up to the call of the job. -/
theorem advance_cases (hst : w.advance start = some w') :
    (w.pc = .releaseRunning ∧ w' = { w with runningLock := false, pc := .acquireRunning }) ∨
    (w.pc = .acquireRunning ∧ w.runningLock = false ∧
      w' = { w with runningLock := true, pc := .releaseThread }) ∨
    (w.pc = .releaseThread ∧ w' = { w with threadLock := false, pc := .awaitRun }) ∨
    (w.pc = .awaitRun ∧ w.runningLock = false ∧
      w' = { w with runningLock := true, pc := .call start }) := by
  unfold advance at hst
  split at hst <;> rename_i hpc
  · exact .inl ⟨hpc, (Option.some.inj hst).symm⟩
  · split_ifs at hst with hr
    exact .inr (.inl ⟨hpc, by simpa using hr, (Option.some.inj hst).symm⟩)
  · exact .inr (.inr (.inl ⟨hpc, (Option.some.inj hst).symm⟩))
  · split_ifs at hst with hr
    exact .inr (.inr (.inr ⟨hpc, by simpa using hr, (Option.some.inj hst).symm⟩))
  · cases hst
  · cases hst

/-- The worker's own steps keep the semaphores in order, and change neither the active job nor who
has claimed the worker. -/
theorem WF.advance (h : w.WF) (hst : w.advance start = some w') :
    w'.WF ∧ w'.active = w.active ∧ ¬ w.Claimed ∧ ¬ w'.Claimed := by
  rcases advance_cases hst with ⟨hpc, rfl⟩ | ⟨hpc, hr, rfl⟩ | ⟨hpc, rfl⟩ | ⟨hpc, hr, rfl⟩ <;>
    simp_all [WF, Claimed, Worker.active]

theorem WF.pending_advance (h : w.WF) (hst : w.advance start = some w') :
    w'.pending = w.pending := by
  rcases advance_cases hst with ⟨hpc, rfl⟩ | ⟨hpc, -, rfl⟩ | ⟨hpc, rfl⟩ | ⟨hpc, hr, rfl⟩ <;>
    simp_all [WF, Worker.pending]

/-- When the worker's own step ends in the function of a job, the function has just been called. -/
theorem locals_advance (hst : w.advance start = some w') (hpc : w'.pc = .call locals) :
    locals = start := by
  rcases advance_cases hst with ⟨-, rfl⟩ | ⟨-, -, rfl⟩ | ⟨-, rfl⟩ | ⟨-, -, rfl⟩ <;> simp_all

theorem active_of_call (hpc : w.pc = .call locals) : w.active = w.job := by simp [active, hpc]

theorem pending_of_call (hpc : w.pc = .call locals) : w.pending = w.job := by simp [pending, hpc]

theorem pending_of_done (hpc : w.pc = .done) : w.pending = none := by simp [pending, hpc]

theorem active_of_done (hpc : w.pc = .done) : w.active = w.job := by simp [active, hpc]

theorem not_claimed_of_call (hpc : w.pc = .call locals) : ¬ w.Claimed := by simp [Claimed, hpc]

theorem not_claimed_of_done (hpc : w.pc = .done) : ¬ w.Claimed := by simp [Claimed, hpc]

theorem WF.proceed (h : w.WF) (hpc : w.pc = .call locals) {locals' : L} :
    (w.proceed locals').WF ∧ (w.proceed locals').active = w.job := by
  simp only [WF, hpc] at h
  exact ⟨h, rfl⟩

theorem WF.finish (h : w.WF) (hpc : w.pc = .call locals) :
    w.finish.WF ∧ w.finish.active = w.job := by
  simp only [WF, hpc] at h
  exact ⟨h, rfl⟩

theorem WF.again (h : w.WF) (hpc : w.pc = .done) :
    w.again.WF ∧ w.again.active = none ∧ ¬ w.again.Claimed := by
  simp only [WF, hpc] at h
  exact ⟨h.1, rfl, fun hc => nomatch hc.1⟩

end Worker

end MoonJamRelay
