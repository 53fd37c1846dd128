import Mathlib.Data.List.Basic
import Mathlib.Tactic.SplitIfs

/-!
# Monitors

A monitor is a shared state behind a mutex with one condition variable.  Every section of code that
holds the mutex is one step.  A thread that finds a condition `free` false waits, which releases
the mutex; once it has been woken it takes the mutex again and evaluates the condition anew, since
others may have come first and since it may have been woken for no reason.

* `Monitor.check` : evaluate the condition; `take` the state when it holds, wait otherwise.
* `Monitor.wake` : a waiting thread is woken; `Monitor.recheck` : a woken thread goes on.
* `Monitor.notifyOne` : wake one waiting thread, if there is one.
* `Monitor.NoLostWakeup` : while the condition holds and a thread waits, some woken thread has still
  to evaluate it.  It is kept by all of these, if the condition never holds after `take`.
-/

namespace MoonJamRelay

/-- A monitor with the shared state `S`; its threads are `T`. -/
structure Monitor (S T : Type*) where
  shared : S
  /-- The threads that wait. -/
  waiting : List T
  /-- The threads that were woken and have not evaluated the condition again. -/
  woken : List T
  deriving DecidableEq

namespace Monitor

variable {S T : Type*}

/-- No thread waits. -/
def init (shared : S) : Monitor S T := ⟨shared, [], []⟩

variable (free : S → Bool) (take : S → S) (m : Monitor S T)

/-- The thread is not in a wait of the monitor. -/
def Outside (t : T) : Prop := t ∉ m.waiting ∧ t ∉ m.woken

instance [DecidableEq T] (t : T) : Decidable (m.Outside t) :=
  inferInstanceAs (Decidable (_ ∧ _))

/-- A section that changes the shared state. -/
def update (f : S → S) : Monitor S T := { m with shared := f m.shared }

/-- `while (!free) wait; take`, up to the wait. -/
def check (t : T) : Monitor S T :=
  if free m.shared then m.update take else { m with waiting := t :: m.waiting }

variable [DecidableEq T]

/-- A waiting thread is woken. -/
def wake (t : T) : Option (Monitor S T) :=
  if t ∈ m.waiting then some { m with waiting := m.waiting.erase t, woken := t :: m.woken }
  else none

/-- A woken thread evaluates the condition again. -/
def recheck (t : T) : Option (Monitor S T) :=
  if t ∈ m.woken then some ({ m with woken := m.woken.erase t }.check free take t) else none

/-- `notify_one`, which wakes the thread `t`, or none when no thread waits. -/
def notifyOne : Option T → Option (Monitor S T)
  | some t => m.wake t
  | none => if m.waiting = [] then some m else none

/-- No thread waits for a condition that holds, unless a woken thread is going to evaluate it. -/
def NoLostWakeup : Prop := free m.shared = true → m.waiting ≠ [] → m.woken ≠ []

variable {free take m} {m' : Monitor S T} {t : T}

omit [DecidableEq T] in
theorem noLostWakeup_init (shared : S) : (init shared : Monitor S T).NoLostWakeup free :=
  fun _ h => absurd rfl h

omit [DecidableEq T] in
/-- After the condition was evaluated it does not hold: it did not before, or the state was
taken. -/
theorem free_check (htake : ∀ s, free (take s) = false) (t : T) :
    free (m.check free take t).shared = false := by
  unfold check
  split_ifs with h
  · exact htake m.shared
  · simpa using h

omit [DecidableEq T] in
theorem noLostWakeup_check (htake : ∀ s, free (take s) = false) (t : T) :
    (m.check free take t).NoLostWakeup free := by
  intro h
  rw [free_check htake] at h
  cases h

theorem noLostWakeup_recheck (htake : ∀ s, free (take s) = false)
    (h : m.recheck free take t = some m') : m'.NoLostWakeup free := by
  unfold recheck at h
  split_ifs at h
  obtain rfl := Option.some.inj h
  exact noLostWakeup_check htake t

/-- Whoever is woken has still to evaluate the condition. -/
theorem noLostWakeup_wake (h : m.wake t = some m') : m'.NoLostWakeup free := by
  unfold wake at h
  split_ifs at h
  obtain rfl := Option.some.inj h
  exact fun _ _ => List.cons_ne_nil _ _

theorem noLostWakeup_notifyOne {w : Option T} (h : m.notifyOne w = some m') :
    m'.NoLostWakeup free := by
  cases w with
  | some t => exact noLostWakeup_wake h
  | none =>
    rw [notifyOne] at h
    split_ifs at h with hwaiting
    obtain rfl := Option.some.inj h
    exact fun _ hne => absurd hwaiting hne

omit [DecidableEq T] in
/-- A section that does not make the condition true need not notify. -/
theorem NoLostWakeup.update (h : m.NoLostWakeup free) {f : S → S}
    (hf : free (f m.shared) = true → free m.shared = true) :
    (m.update f).NoLostWakeup free := fun hfree => h (hf hfree)

theorem shared_wake (h : m.wake t = some m') : m'.shared = m.shared := by
  unfold wake at h
  split_ifs at h
  obtain rfl := Option.some.inj h
  rfl

theorem shared_notifyOne {w : Option T} (h : m.notifyOne w = some m') :
    m'.shared = m.shared := by
  cases w with
  | some t => exact shared_wake h
  | none =>
    rw [notifyOne] at h
    split_ifs at h
    obtain rfl := Option.some.inj h
    rfl

omit [DecidableEq T] in
/-- The state is taken exactly when the condition holds. -/
theorem shared_check (t : T) : (m.check free take t).shared =
    if free m.shared = true then take m.shared else m.shared := by
  unfold check
  split_ifs <;> rfl

theorem shared_recheck (h : m.recheck free take t = some m') : m'.shared =
    if free m.shared = true then take m.shared else m.shared := by
  unfold recheck at h
  split_ifs at h
  obtain rfl := Option.some.inj h
  exact shared_check t

end Monitor

end MoonJamRelay
