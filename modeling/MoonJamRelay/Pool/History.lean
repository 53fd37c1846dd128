import Mathlib.Data.List.Basic
import MoonJamRelay.Pool.Basic

/-!
# The history of a pool of workers

What happens to the jobs of a pool, as a list of events, oldest first.  `J` are the jobs, `K` the
workers.

* `JobEvent` : a job was posted to a worker, its function was called, returned, or its callback
  returned.
* `JobEvent.course` : all that happens to one job on one worker, in order.
* `JobEvent.Tracks` : the history agrees with the workers: the events of a job are a part of its
  course, up to where the worker is that has it.
* `Tracks.event` : the rule for the next event of a job; `Tracks.congr` : the rule for a step
  without an event.
* `Tracks.exists_course` : the events of every job are the first ones of its course on one worker.
-/

namespace MoonJamRelay

/-- What happens to a job. -/
inductive JobPhase where
  /-- It was handed to a worker. -/
  | posted
  /-- The worker has called its function. -/
  | called
  /-- Its function has returned. -/
  | returned
  /-- Its callback has returned. -/
  | done
  deriving DecidableEq

/-- The number of phases before this one. -/
def JobPhase.index : JobPhase → ℕ
  | posted => 0
  | called => 1
  | returned => 2
  | done => 3

/-- An event of a job on a worker. -/
structure JobEvent (J K : Type*) where
  phase : JobPhase
  job : J
  worker : K
  deriving DecidableEq

/-- The number of events of the active job so far. -/
def Worker.stage {J L : Type*} (w : Worker J L) : ℕ :=
  match w.pc with
  | .awaitRun => 1
  | .call _ => 2
  | .done => 3
  | .releaseRunning | .acquireRunning | .releaseThread => 0

theorem Worker.stage_pos {J L : Type*} {w : Worker J L} {j : J} (h : w.active = some j) :
    0 < w.stage := by
  unfold active at h
  unfold stage
  split at h <;> simp_all

namespace JobEvent

variable {J K L : Type*}

/-- All events of a job on a worker. -/
def course (j : J) (k : K) : List (JobEvent J K) :=
  [⟨.posted, j, k⟩, ⟨.called, j, k⟩, ⟨.returned, j, k⟩, ⟨.done, j, k⟩]

theorem take_course (j : J) (k : K) (p : JobPhase) :
    (course j k).take (p.index + 1) = (course j k).take p.index ++ [⟨p, j, k⟩] := by
  cases p <;> rfl

variable [DecidableEq J] {es : List (JobEvent J K)} {j : J} {k : K} {p : JobPhase}

/-- The events of a job. -/
def ofJob (es : List (JobEvent J K)) (j : J) : List (JobEvent J K) :=
  es.filter fun e => e.job = j

theorem mem_ofJob : (⟨p, j, k⟩ : JobEvent J K) ∈ ofJob es j ↔ ⟨p, j, k⟩ ∈ es := by
  simp [ofJob]

theorem ofJob_snoc (e : JobEvent J K) (j : J) :
    ofJob (es ++ [e]) j = if e.job = j then ofJob es j ++ [e] else ofJob es j := by
  rw [ofJob, List.filter_append]
  by_cases h : e.job = j <;> simp [h, ofJob]

/-- The history agrees with the workers. -/
structure Tracks (workers : K → Worker J L) (es : List (JobEvent J K)) : Prop where
  active : ∀ k j, (workers k).active = some j →
    ofJob es j = (course j k).take (workers k).stage
  ended : ∀ j, (∀ k, (workers k).active ≠ some j) → ofJob es j = [] ∨ ∃ k, ofJob es j = course j k

namespace Tracks

variable {workers workers' : K → Worker J L} {w : Worker J L}

theorem init (h : ∀ k, (workers k).active = none) : Tracks workers [] where
  active k j hj := by
    rw [h k] at hj
    cases hj
  ended _ _ := .inl rfl

theorem ne_nil (h : Tracks workers es) (hj : (workers k).active = some j) : ofJob es j ≠ [] := by
  obtain ⟨n, hn⟩ := Nat.exists_eq_succ_of_ne_zero
    (Nat.ne_of_gt (Worker.stage_pos hj))
  rw [h.active k j hj, hn]
  exact List.cons_ne_nil _ _

/-- A step without an event: the jobs stay where they are. -/
theorem congr (h : Tracks workers es) (hactive : ∀ k, (workers' k).active = (workers k).active)
    (hstage : ∀ k j, (workers k).active = some j → (workers' k).stage = (workers k).stage) :
    Tracks workers' es := by
  refine ⟨fun k j hj => ?_, fun j hj => h.ended j fun k => hactive k ▸ hj k⟩
  rw [hactive] at hj
  rw [hstage k j hj]
  exact h.active k j hj

/-- The next event of a job, on a worker that has no other job. -/
theorem event [DecidableEq K] (h : Tracks workers es)
    (hpast : ofJob es j = (course j k).take p.index)
    (hunique : ∀ k', (workers k').active = some j → k' = k)
    (hbefore : ∀ j', (workers k).active = some j' → j' = j)
    (hafter : p = .done ∧ w.active = none ∨
      p ≠ .done ∧ w.active = some j ∧ w.stage = p.index + 1) :
    Tracks (Function.update workers k w) (es ++ [⟨p, j, k⟩]) := by
  have hself : ofJob (es ++ [⟨p, j, k⟩]) j = (course j k).take (p.index + 1) := by
    rw [ofJob_snoc, if_pos rfl, hpast, take_course]
  have hother : ∀ j', j' ≠ j → ofJob (es ++ [⟨p, j, k⟩]) j' = ofJob es j' := fun j' hj' => by
    rw [ofJob_snoc, if_neg fun he => hj' he.symm]
  refine ⟨fun k' j' hj' => ?_, fun j' hj' => ?_⟩
  · by_cases hk : k' = k
    · subst hk
      rw [Function.update_self] at hj' ⊢
      rcases hafter with ⟨-, hnone⟩ | ⟨-, hsome, hstage⟩
      · rw [hnone] at hj'
        cases hj'
      · obtain rfl := Option.some.inj (hsome.symm.trans hj')
        rw [hself, hstage]
    · rw [Function.update_of_ne hk] at hj' ⊢
      have hne : j' ≠ j := by
        rintro rfl
        exact hk (hunique k' hj')
      rw [hother j' hne]
      exact h.active k' j' hj'
  · by_cases hj : j' = j
    · subst hj
      rcases hafter with ⟨rfl, -⟩ | ⟨-, hsome, -⟩
      · exact .inr ⟨k, hself⟩
      · exact absurd hsome (by simpa using hj' k)
    · rw [hother j' hj]
      refine h.ended j' fun k' hk' => ?_
      have hne : k' ≠ k := by
        rintro rfl
        exact hj (hbefore j' hk')
      exact hj' k' (by rwa [Function.update_of_ne hne])

/-- **Every job runs its course**: its events are the first ones of its course on one worker. -/
theorem exists_course [Nonempty K] (h : Tracks workers es) (j : J) :
    ∃ k n, ofJob es j = (course j k).take n := by
  by_cases hj : ∃ k, (workers k).active = some j
  · obtain ⟨k, hk⟩ := hj
    exact ⟨k, _, h.active k j hk⟩
  · rcases h.ended j fun k hk => hj ⟨k, hk⟩ with hnone | ⟨k, hk⟩
    · exact ⟨Classical.arbitrary K, 0, hnone⟩
    · exact ⟨k, 4, hk⟩

/-- A job that was posted and is not active any more is done. -/
theorem done_of_posted (h : Tracks workers es) (hposted : ⟨.posted, j, k⟩ ∈ es)
    (hj : ∀ k, (workers k).active ≠ some j) : ofJob es j = course j k := by
  rcases h.ended j hj with hnone | ⟨k', hk'⟩
  · rw [← mem_ofJob, hnone] at hposted
    cases hposted
  · rw [← mem_ofJob, hk'] at hposted
    obtain rfl : k' = k := by simpa [course, eq_comm] using hposted
    exact hk'

/-- The worker of a job that was posted and is not done. -/
theorem active_of_posted (h : Tracks workers es) (hposted : ⟨.posted, j, k⟩ ∈ es)
    (hdone : ⟨.done, j, k⟩ ∉ es) : (workers k).active = some j := by
  by_cases hj : ∃ k, (workers k).active = some j
  · obtain ⟨k', hk'⟩ := hj
    have hmem := mem_ofJob.2 hposted
    rw [h.active k' j hk'] at hmem
    have hcourse := List.mem_of_mem_take hmem
    obtain rfl : k' = k := by simpa [course, eq_comm] using hcourse
    exact hk'
  · refine absurd ?_ hdone
    rw [← mem_ofJob, h.done_of_posted hposted fun k' hk' => hj ⟨k', hk'⟩]
    simp [course]

end Tracks

end JobEvent

end MoonJamRelay
