import MoonJamRelay.Machine.Basic
import MoonJamRelay.Monitors.Basic

/-!
# The semaphore

`Semaphore` is a flag `m_locked` in a monitor: `acquire` waits until the flag is not set and sets
it, `try_acquire` sets it if it is not set, `release` clears it and notifies one waiting thread.
Any thread of `T` may call any of them when it is not waiting in `acquire`; a waiting thread may
wake up for no reason.

* `semaphore` : the machine.  `SemaphoreEvent` : what the callers see of it.
* `flag` : the abstract semaphore, an atomic flag; a worker of the pool has two of them.
  `flag_of_observed` : what the callers see is a run of it.
* `semaphore_sound` : between two grants there is a release; no wake-up is lost; and when every
  woken thread gets to run, no thread waits forever beside a free semaphore.
-/

namespace MoonJamRelay

/-- The state of a semaphore: `m_locked`, and the threads in `acquire`. -/
abbrev Semaphore (T : Type*) := Monitor Bool T

/-- What happens next. -/
inductive SemaphoreLabel (T : Type*) where
  /-- The thread calls `acquire`. -/
  | acquire (t : T)
  /-- A woken thread evaluates the condition of the loop in `acquire`. -/
  | recheck (t : T)
  /-- The thread calls `try_acquire`. -/
  | tryAcquire (t : T)
  /-- The thread calls `release`, which wakes the thread `woken` if one waits. -/
  | release (t : T) (woken : Option T)
  /-- A thread that waits in `acquire` wakes up for no reason. -/
  | spurious (t : T)
  deriving DecidableEq

/-- What the callers see. -/
inductive SemaphoreEvent (T : Type*) where
  /-- `acquire` returned to the thread, or `try_acquire` returned `true`. -/
  | granted (t : T)
  /-- The thread called `release`. -/
  | released (t : T)
  deriving DecidableEq

namespace Semaphore

variable {T : Type*} [DecidableEq T] (s : Semaphore T)

/-- The condition that ends the loop in `acquire`. -/
def free (locked : Bool) : Bool := !locked

/-- `m_locked = true`. -/
def lock (_ : Bool) : Bool := true

/-- `m_locked = false`. -/
def unlock (_ : Bool) : Bool := false

/-- `acquire`, up to a wait. -/
def acquire (t : T) : Semaphore T := s.check free lock t

/-- `acquire`, after a wait. -/
def reacquire (t : T) : Option (Semaphore T) := s.recheck free lock t

/-- `try_acquire`. -/
def tryAcquire : Semaphore T × Bool := if ¬ s.shared then (s.update lock, true) else (s, false)

/-- `release`. -/
def release (woken : Option T) : Option (Semaphore T) := (s.update unlock).notifyOne woken

/-- The state after a step. -/
def next : SemaphoreLabel T → Option (Semaphore T)
  | .acquire t => if s.Outside t then some (s.acquire t) else none
  | .recheck t => s.reacquire t
  | .tryAcquire t => if s.Outside t then some s.tryAcquire.1 else none
  | .release t woken => if s.Outside t then s.release woken else none
  | .spurious t => s.wake t

/-- What the callers see of a step. -/
def event : SemaphoreLabel T → Option (SemaphoreEvent T)
  | .acquire t | .recheck t => if free s.shared then some (.granted t) else none
  | .tryAcquire t => if s.tryAcquire.2 then some (.granted t) else none
  | .release t _ => some (.released t)
  | .spurious _ => none

end Semaphore

/-- A semaphore, which is unlocked at first. -/
def semaphore (T : Type*) [DecidableEq T] : Machine (Semaphore T) (SemaphoreLabel T) where
  init := .init false
  next s := Semaphore.next s

/-- The abstract semaphore: an atomic flag. -/
def flag (T : Type*) : Machine Bool (SemaphoreEvent T) where
  init := false
  next
    | false, .granted _ => some true
    | true, .granted _ => none
    | _, .released _ => some false

/-! ### The abstract semaphore -/

section

variable {T : Type*} {b b' : Bool} {es : List (SemaphoreEvent T)}

theorem exists_released_of_run (h : (flag T).run b es = some false) (hb : b = true) :
    ∃ t, .released t ∈ es := by
  induction es generalizing b with
  | nil =>
    obtain rfl := Option.some.inj h
    cases hb
  | cons e es ih =>
    subst hb
    cases e with
    | granted t => cases h
    | released t => exact ⟨t, List.mem_cons_self⟩

theorem released_between {pre mid post : List (SemaphoreEvent T)} {t u : T}
    (h : (flag T).run b (pre ++ .granted t :: (mid ++ .granted u :: post)) = some b') :
    ∃ v, .released v ∈ mid := by
  obtain ⟨c, -, h⟩ := Option.bind_eq_some_iff.1 ((Machine.run_append _ _ _).symm.trans h)
  obtain ⟨c', hc', h⟩ := Option.bind_eq_some_iff.1 h
  obtain ⟨d, hmid, h⟩ := Option.bind_eq_some_iff.1 ((Machine.run_append _ _ _).symm.trans h)
  obtain ⟨d', hd', -⟩ := Option.bind_eq_some_iff.1 h
  have hset : c' = true := by
    cases c <;> cases hc'
    rfl
  have hclear : d = false := by
    cases d
    · rfl
    · cases hd'
  subst hclear
  exact exists_released_of_run hmid hset

end

/-! ### The semaphore refines it -/

namespace Semaphore

variable {T : Type*} [DecidableEq T] {s s' : Semaphore T} {l : SemaphoreLabel T}
  {es : List (SemaphoreEvent T)}

/-- A step changes the flag as the abstract semaphore does. -/
theorem flag_of_next (h : s.next l = some s') :
    (flag T).run s.shared (s.event l).toList = some s'.shared := by
  cases l with
  | acquire t =>
    simp only [next] at h
    split_ifs at h
    obtain rfl := Option.some.inj h
    rw [acquire, Monitor.shared_check]
    cases hs : s.shared <;> simp [event, free, hs, flag, Machine.run, lock]
  | recheck t =>
    rw [Monitor.shared_recheck h]
    cases hs : s.shared <;> simp [event, free, hs, flag, Machine.run, lock]
  | tryAcquire t =>
    simp only [next] at h
    split_ifs at h
    obtain rfl := Option.some.inj h
    cases hs : s.shared <;> simp [event, tryAcquire, hs, flag, Machine.run, Monitor.update, lock]
  | release t woken =>
    simp only [next] at h
    split_ifs at h
    rw [Monitor.shared_notifyOne h]
    cases s.shared <;> rfl
  | spurious t =>
    rw [Monitor.shared_wake h]
    rfl

/-- What the callers see is a run of the abstract semaphore. -/
theorem flag_of_observed (h : ((semaphore T).observe event).Reachable (s, es)) :
    (flag T).run (flag T).init es = some s.shared := by
  refine (Machine.Reachable.observed h (I := fun s es =>
    (flag T).run (flag T).init es = some s.shared) rfl ?_).2
  intro u es l u' _ hI hst
  rw [Machine.run_append, hI]
  exact flag_of_next hst

/-- No wake-up is lost by a step. -/
theorem noLostWakeup_of_next (hm : s.NoLostWakeup free) (h : s.next l = some s') :
    s'.NoLostWakeup free := by
  have hlock : ∀ b, free (lock b) = false := fun _ => rfl
  cases l with
  | acquire t =>
    simp only [next] at h
    split_ifs at h
    obtain rfl := Option.some.inj h
    exact Monitor.noLostWakeup_check hlock t
  | recheck t => exact Monitor.noLostWakeup_recheck hlock h
  | tryAcquire t =>
    simp only [next] at h
    split_ifs at h
    obtain rfl := Option.some.inj h
    cases hs : s.shared with
    | false =>
      simp only [tryAcquire, hs]
      exact hm.update fun hfree => by rw [hlock] at hfree; cases hfree
    | true =>
      simp only [tryAcquire, hs]
      exact hm
  | release t woken =>
    simp only [next] at h
    split_ifs at h
    exact Monitor.noLostWakeup_notifyOne h
  | spurious t => exact Monitor.noLostWakeup_wake h

theorem noLostWakeup_of_reachable (h : (semaphore T).Reachable s) : s.NoLostWakeup free :=
  h.invariant (Monitor.noLostWakeup_init false) fun _ _ _ _ hI hst => noLostWakeup_of_next hI hst

/-- When the woken threads get to run, the semaphore is locked again whenever a thread waits. -/
theorem locked_of_waiting (r : (semaphore T).InfiniteRun)
    (hfair : ∀ n, ∀ t ∈ (r.state n).woken, ∃ m, n ≤ m ∧ r.label m = .recheck t) {n : ℕ}
    (hwaiting : (r.state n).waiting ≠ []) : ∃ m, n ≤ m ∧ (r.state m).shared = true := by
  by_cases hlocked : (r.state n).shared = true
  · exact ⟨n, Nat.le_refl n, hlocked⟩
  · -- some woken thread evaluates the condition, and takes the semaphore if it is free then
    have hfree : free (r.state n).shared = true := by simpa [free] using hlocked
    obtain ⟨t, ht⟩ := List.exists_mem_of_ne_nil _
      (noLostWakeup_of_reachable (r.reachable n) hfree hwaiting)
    obtain ⟨m, hm, hlabel⟩ := hfair n t ht
    by_cases hlater : (r.state m).shared = true
    · exact ⟨m, hm, hlater⟩
    · refine ⟨m + 1, Nat.le_succ_of_le hm, ?_⟩
      have hstep := r.step m
      rw [hlabel] at hstep
      rw [Monitor.shared_recheck hstep, if_pos (by simpa [free] using hlater)]
      rfl

end Semaphore

/-- **The semaphore**, for any threads and any order of their calls.  Between two grants there is a
release.  In every reachable state, if the semaphore is not locked and a thread waits, some woken
thread has still to evaluate the condition.  So, when woken threads get to run, no thread waits
forever beside a semaphore that stays free. -/
theorem semaphore_sound (T : Type*) [DecidableEq T] :
    (∀ s es, ((semaphore T).observe Semaphore.event).Reachable (s, es) → ∀ pre mid post t u,
      es = pre ++ .granted t :: (mid ++ .granted u :: post) → ∃ v, .released v ∈ mid) ∧
    (∀ s : Semaphore T, (semaphore T).Reachable s → s.shared = false → s.waiting ≠ [] →
      s.woken ≠ []) ∧
    ∀ r : (semaphore T).InfiniteRun,
      (∀ n, ∀ t ∈ (r.state n).woken, ∃ m, n ≤ m ∧ r.label m = .recheck t) →
      ∀ n, (r.state n).waiting ≠ [] → ∃ m, n ≤ m ∧ (r.state m).shared = true := by
  refine ⟨?_, fun s hs hfree => ?_, fun r hfair n => Semaphore.locked_of_waiting r hfair⟩
  · rintro s es h pre mid post t u rfl
    exact released_between (Semaphore.flag_of_observed h)
  · exact Semaphore.noLostWakeup_of_reachable hs (by rw [hfree]; rfl)

/-- Thread 0 hands the semaphore to thread 1, and from then on tries in vain to take it back. -/
def handOver : (semaphore ℕ).InfiniteRun where
  state
    | 0 => .init false
    | 1 => ⟨true, [], []⟩
    | 2 => ⟨true, [1], []⟩
    | 3 => ⟨false, [], [1]⟩
    | _ + 4 => ⟨true, [], []⟩
  label
    | 0 => .acquire 0
    | 1 => .acquire 1
    | 2 => .release 0 (some 1)
    | 3 => .recheck 1
    | _ + 4 => .tryAcquire 0
  init := rfl
  step
    | 0 | 1 | 2 | 3 => by decide
    | _ + 4 => rfl

/-- While thread 0 hands the semaphore over: to thread 1, which was woken, and not to thread 2. -/
theorem semaphore_sound_handOver :
    (∃ v, SemaphoreEvent.released v ∈ [SemaphoreEvent.released 0]) ∧
    [(1 : ℕ)] ≠ [] ∧ ∃ m, 2 ≤ m ∧ (handOver.state m).shared = true := by
  obtain ⟨hgrants, hwoken, hfair⟩ := semaphore_sound ℕ
  refine ⟨?_, ?_, hfair handOver ?_ 2 (by decide)⟩
  · refine hgrants ⟨true, [], []⟩ [.granted 0, .released 0, .granted 1] ?_ [] [.released 0] [] 0 1
      rfl
    exact .of_run (show Machine.run _ _ [.acquire 0, .acquire 1, .release 0 (some 1), .recheck 1] =
      some _ by decide)
  · refine hwoken ⟨false, [2], [1]⟩ ?_ rfl (by decide)
    exact .of_run (show Machine.run _ _ [.acquire 0, .acquire 1, .acquire 2, .release 0 (some 1)] =
      some _ by decide)
  · rintro (_ | _ | _ | _ | n) t ht
    · cases ht
    · cases ht
    · cases ht
    · obtain rfl := List.mem_singleton.1 ht
      exact ⟨3, Nat.le_refl 3, rfl⟩
    · cases ht

end MoonJamRelay
