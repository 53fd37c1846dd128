import MoonJamRelay.Threads.Mutexes

/-!
# The jobs of the room threads

A room thread locks a worker for every connection of its tick, hands it a job under a new
controller, and then joins the controllers in order.

* `System.Running` : the thread has started the job and not joined it.
* `System.Jobs` : the invariant.  A worker that a thread has locked waits for that thread; an active
  job is running, one worker has it, and its controller is locked, so no join passes it.
* `jobs_of_reachable` : the invariant holds in every reachable state.
-/

namespace MoonJamRelay

/-- The index of the connection whose job the thread is starting. -/
def RoomPc.starting : RoomPc → Option ℕ
  | lock i _ | acquireController i _ | assign i _ | run i _ => some i
  | _ => none

theorem RoomPc.outside {pc : RoomPc} (h : ¬ pc.InTick) (n : ℕ) :
    pc.starting = none ∧ pc.claims = none ∧ pc.started n = n ∧ pc.ended n = n := by
  cases pc <;> simp_all [InTick, starting, claims, started, ended]

theorem RoomPc.started_of_starting {pc : RoomPc} {i : ℕ} (h : pc.starting = some i) (n : ℕ) :
    pc.started n = i ∧ pc.ended n = 0 := by
  cases pc <;> simp_all [starting, started, ended]

/-- The thread, at `pc`, has started the job in its tick and not joined it. -/
def RoomThread.Runs (th : RoomThread) (pc : RoomPc) (j : Job) : Prop :=
  j.tick = th.tick ∧ pc.ended th.connections.length ≤ j.index ∧
    j.index < pc.started th.connections.length

namespace System

variable {keys : KeyManager} {s s' : System} {t : ℕ}

/-- The thread of the job has started it in its tick, and not joined it. -/
def Running (s : System) (j : Job) : Prop :=
  (s.threads j.thread).Runs (s.threads j.thread).pc j

theorem Running.runs {j : Job} {pc : RoomPc} (h : s.Running j) (hj : j.thread = t)
    (hpc : (s.threads t).pc = pc) : (s.threads t).Runs pc j := by
  subst hj hpc
  exact h

theorem job_of_goto {pc : RoomPc}
    (hth : s'.threads = Function.update s.threads t { s.threads t with pc := pc }) (t' i : ℕ) :
    s'.job t' i = s.job t' i := by
  rw [job, hth, job]
  by_cases ht : t' = t
  · rw [ht, Function.update_self]
  · rw [Function.update_of_ne ht]

theorem not_running_of_outside {j : Job} (h : ¬ (s.threads j.thread).pc.InTick) :
    ¬ s.Running j := by
  rintro ⟨-, h1, h2⟩
  obtain ⟨-, -, hs, he⟩ := RoomPc.outside h (s.threads j.thread).connections.length
  omega

/-- Room threads, workers and controllers. -/
structure Jobs (s : System) : Prop where
  wf : ∀ k, (s.workers k).WF
  claimed : ∀ t k, (s.threads t).pc.claims = some k → (s.workers k).Claimed
  claims_unique : ∀ t t' k, (s.threads t).pc.claims = some k → (s.threads t').pc.claims = some k →
    t = t'
  assigned : ∀ t i k, (s.threads t).pc = .run i k → (s.workers k).job = some (s.job t i)
  acquired : ∀ t i k, (s.threads t).pc = .assign i k ∨ (s.threads t).pc = .run i k →
    s.controllers (s.job t i) = true
  index_lt : ∀ t i, (s.threads t).pc.starting = some i → i < (s.threads t).connections.length
  running : ∀ k j, (s.workers k).active = some j → s.Running j
  locked : ∀ k j, (s.workers k).active = some j → s.controllers j = true
  unique : ∀ k k' j, (s.workers k).active = some j → (s.workers k').active = some j → k = k'

theorem jobs_init : (System.init keys).Jobs where
  wf _ := Worker.wf_init
  claimed _ _ h := nomatch h
  claims_unique _ _ _ h := nomatch h
  assigned _ _ _ h := nomatch h
  acquired _ _ _ h := by rcases h with h | h <;> cases h
  index_lt _ _ h := nomatch h
  running _ _ h := nomatch h
  locked _ _ h := nomatch h
  unique _ _ _ h := nomatch h

namespace Jobs

theorem not_active (h : s.Jobs) {j : Job} (hj : ¬ s.Running j) (k : Fin threadCount) :
    (s.workers k).active ≠ some j := fun ha => hj (h.running k j ha)

theorem not_active_of_outside (h : s.Jobs) (ht : ¬ (s.threads t).pc.InTick) {k : Fin threadCount}
    {j : Job} (ha : (s.workers k).active = some j) : j.thread ≠ t := by
  rintro rfl
  exact not_running_of_outside ht (h.running k j ha)

theorem jobConnection (h : s.Jobs) {k : Fin threadCount} {j : Job}
    (ha : (s.workers k).active = some j) : ∃ c, s.jobConnection j = some c := by
  have hindex : j.index < (s.threads j.thread).connections.length := by
    refine Nat.lt_of_lt_of_le (h.running k j ha).2.2 ?_
    by_cases hstart : ∃ i, (s.threads j.thread).pc.starting = some i
    · obtain ⟨i, hi⟩ := hstart
      rw [(RoomPc.started_of_starting hi _).1]
      exact Nat.le_of_lt (h.index_lt _ i hi)
    · cases he : (s.threads j.thread).pc <;> simp_all [RoomPc.starting, RoomPc.started]
  exact ⟨_, List.getElem?_eq_getElem hindex⟩

theorem thread (h : s.Jobs) {th : RoomThread} (hth : s'.threads = Function.update s.threads t th)
    (hworkers : s'.workers = s.workers) (hcontrollers : s'.controllers = s.controllers)
    (hclaims : th.pc.claims = none)
    (hstart : ∀ i, th.pc.starting = some i → i < th.connections.length)
    (hrunning : ∀ k j, (s.workers k).active = some j → j.thread = t → th.Runs th.pc j) :
    s'.Jobs := by
  have hclaim : ∀ t' k, (s'.threads t').pc.claims = some k →
      s'.threads t' = s.threads t' ∧ (s.threads t').pc.claims = some k := by
    intro t' k hc
    rw [hth] at hc ⊢
    by_cases ht : t' = t
    · subst ht
      simp [hclaims] at hc
    · rw [Function.update_of_ne ht] at hc ⊢
      exact ⟨rfl, hc⟩
  have hpc : ∀ t' i k pc, (s'.threads t').pc = pc → pc = .assign i k ∨ pc = .run i k →
      (s.threads t').pc = pc ∧ s'.job t' i = s.job t' i := by
    intro t' i k pc he hcase
    have hc : (s'.threads t').pc.claims = some k := by
      rcases hcase with rfl | rfl <;> rw [he] <;> rfl
    obtain ⟨hsame, -⟩ := hclaim t' k hc
    exact ⟨hsame ▸ he, by simp [job, hsame]⟩
  refine ⟨fun k => ?_, fun t' k hc => ?_, fun t₁ t₂ k h1 h2 => ?_, fun t' i k he => ?_,
    fun t' i k he => ?_, fun t' i he => ?_, fun k j ha => ?_, fun k j ha => ?_,
    fun k k' j h1 h2 => ?_⟩
  · rw [hworkers]
    exact h.wf k
  · rw [hworkers]
    exact h.claimed t' k (hclaim t' k hc).2
  · exact h.claims_unique t₁ t₂ k (hclaim t₁ k h1).2 (hclaim t₂ k h2).2
  · obtain ⟨he', hjob⟩ := hpc t' i k _ he (.inr rfl)
    rw [hworkers, hjob]
    exact h.assigned t' i k he'
  · rw [hcontrollers]
    rcases he with he | he
    · obtain ⟨he', hjob⟩ := hpc t' i k _ he (.inl rfl)
      exact hjob ▸ h.acquired t' i k (.inl he')
    · obtain ⟨he', hjob⟩ := hpc t' i k _ he (.inr rfl)
      exact hjob ▸ h.acquired t' i k (.inr he')
  · rw [hth] at he ⊢
    by_cases ht : t' = t
    · subst ht
      simp only [Function.update_self] at he ⊢
      exact hstart i he
    · rw [Function.update_of_ne ht] at he ⊢
      exact h.index_lt t' i he
  · rw [hworkers] at ha
    unfold Running
    rw [hth]
    by_cases ht : j.thread = t
    · rw [ht, Function.update_self]
      exact hrunning k j ha ht
    · rw [Function.update_of_ne ht]
      exact h.running k j ha
  · rw [hworkers] at ha
    rw [hcontrollers]
    exact h.locked k j ha
  · rw [hworkers] at h1 h2
    exact h.unique k k' j h1 h2

theorem congr (h : s.Jobs) (hth : s'.threads = s.threads) (hworkers : s'.workers = s.workers)
    (hcontrollers : s'.controllers = s.controllers) : s'.Jobs := by
  obtain ⟨h1, h2, h3, h4, h5, h6, h7, h8, h9⟩ := h
  have hjob : ∀ t i, s'.job t i = s.job t i := fun t i => by simp [job, hth]
  refine ⟨by rwa [hworkers], by rwa [hth, hworkers], by rwa [hth], ?_, ?_, by rwa [hth], ?_,
    by rwa [hworkers, hcontrollers], by rwa [hworkers]⟩
  · simpa only [hth, hworkers, hjob] using h4
  · simpa only [hth, hcontrollers, hjob] using h5
  · simpa only [hworkers, Running, hth] using h7

/-- A thread goes on after it has changed a worker that no other thread has locked. -/
theorem worker (h : s.Jobs) {pc : RoomPc} {k : Fin threadCount} {w : RelayThread}
    (hth : s'.threads = Function.update s.threads t { s.threads t with pc := pc })
    (hworkers : s'.workers = Function.update s.workers k w)
    (hcontrollers : s'.controllers = s.controllers) (hwf : w.WF)
    (hother : ∀ t', t' ≠ t → (s.threads t').pc.claims ≠ some k)
    (hclaims : ∀ k', pc.claims = some k' → k' = k ∧ w.Claimed)
    (hassigned : ∀ i k', pc = .run i k' → w.job = some (s.job t i))
    (hacquired : ∀ i k', pc = .assign i k' ∨ pc = .run i k' → s.controllers (s.job t i) = true)
    (hstart : ∀ i, pc.starting = some i → i < (s.threads t).connections.length)
    (hrunning : ∀ k' j, (s.workers k').active = some j → j.thread = t → (s.threads t).Runs pc j)
    (hactive : ∀ j, w.active = some j → j.thread = t ∧ (s.threads t).Runs pc j ∧
      s.controllers j = true ∧ ∀ k', (s.workers k').active ≠ some j) : s'.Jobs := by
  have hself : s'.threads t = { s.threads t with pc := pc } := by rw [hth, Function.update_self]
  have hne : ∀ t', t' ≠ t → s'.threads t' = s.threads t' := fun t' ht => by
    rw [hth, Function.update_of_ne ht]
  have hjob := job_of_goto hth
  have hwself : s'.workers k = w := by rw [hworkers, Function.update_self]
  have hwne : ∀ k', k' ≠ k → s'.workers k' = s.workers k' := fun k' hk => by
    rw [hworkers, Function.update_of_ne hk]
  -- the job of a worker after the step
  have hcases : ∀ k' j, (s'.workers k').active = some j →
      k' = k ∧ w.active = some j ∨ k' ≠ k ∧ (s.workers k').active = some j := by
    intro k' j ha
    by_cases hk : k' = k
    · exact .inl ⟨hk, by rw [← hwself, ← hk]; exact ha⟩
    · exact .inr ⟨hk, hwne k' hk ▸ ha⟩
  refine ⟨fun k' => ?_, fun t' k' hc => ?_, fun t₁ t₂ k' h1 h2 => ?_, fun t' i k' he => ?_,
    fun t' i k' he => ?_, fun t' i he => ?_, fun k' j ha => ?_, fun k' j ha => ?_,
    fun k₁ k₂ j h1 h2 => ?_⟩
  · by_cases hk : k' = k
    · rw [hk, hwself]
      exact hwf
    · rw [hwne k' hk]
      exact h.wf k'
  · by_cases ht : t' = t
    · rw [ht, hself] at hc
      obtain ⟨rfl, hw⟩ := hclaims k' hc
      rwa [hwself]
    · rw [hne t' ht] at hc
      rw [hwne k' fun hk => hother t' ht (hk ▸ hc)]
      exact h.claimed t' k' hc
  · by_cases ht₁ : t₁ = t <;> by_cases ht₂ : t₂ = t
    · rw [ht₁, ht₂]
    · rw [ht₁, hself] at h1
      rw [hne t₂ ht₂, (hclaims k' h1).1] at h2
      exact absurd h2 (hother t₂ ht₂)
    · rw [ht₂, hself] at h2
      rw [hne t₁ ht₁, (hclaims k' h2).1] at h1
      exact absurd h1 (hother t₁ ht₁)
    · rw [hne t₁ ht₁] at h1
      rw [hne t₂ ht₂] at h2
      exact h.claims_unique t₁ t₂ k' h1 h2
  · rw [hjob]
    by_cases ht : t' = t
    · rw [ht, hself] at he
      obtain ⟨rfl, -⟩ := hclaims k' (by rw [show pc = _ from he]; rfl)
      rw [hwself, ht]
      exact hassigned i k' he
    · rw [hne t' ht] at he
      have hc : (s.threads t').pc.claims = some k' := by rw [he]; rfl
      rw [hwne k' fun hk => hother t' ht (hk ▸ hc)]
      exact h.assigned t' i k' he
  · rw [hcontrollers, hjob]
    by_cases ht : t' = t
    · rw [ht, hself] at he
      rw [ht]
      exact hacquired i k' he
    · rw [hne t' ht] at he
      exact h.acquired t' i k' he
  · by_cases ht : t' = t
    · rw [ht, hself] at he ⊢
      exact hstart i he
    · rw [hne t' ht] at he ⊢
      exact h.index_lt t' i he
  · unfold Running
    rcases hcases k' j ha with ⟨-, ha⟩ | ⟨-, ha⟩
    · rw [(hactive j ha).1, hself]
      exact (hactive j ha).2.1
    · by_cases ht : j.thread = t
      · rw [ht, hself]
        exact hrunning k' j ha ht
      · rw [hne _ ht]
        exact h.running k' j ha
  · rw [hcontrollers]
    rcases hcases k' j ha with ⟨-, ha⟩ | ⟨-, ha⟩
    · exact (hactive j ha).2.2.1
    · exact h.locked k' j ha
  · rcases hcases k₁ j h1 with ⟨hk₁, ha⟩ | ⟨-, ha⟩ <;>
      rcases hcases k₂ j h2 with ⟨hk₂, hb⟩ | ⟨-, hb⟩
    · rw [hk₁, hk₂]
    · exact absurd hb ((hactive j ha).2.2.2 k₂)
    · exact absurd ha ((hactive j hb).2.2.2 k₁)
    · exact h.unique k₁ k₂ j ha hb

/-- A thread goes on after it has locked or unlocked the controller of one of its jobs. -/
theorem controller (h : s.Jobs) {pc : RoomPc} {i₀ : ℕ} {b : Bool}
    (hth : s'.threads = Function.update s.threads t { s.threads t with pc := pc })
    (hworkers : s'.workers = s.workers)
    (hcontrollers : s'.controllers = Function.update s.controllers (s.job t i₀) b)
    (hclaims : ∀ k, pc.claims = some k → (s.threads t).pc.claims = some k)
    (hrun : ∀ i k, pc ≠ .run i k) (hassign : ∀ i k, pc = .assign i k → i = i₀ ∧ b = true)
    (hstart : ∀ i, pc.starting = some i → i < (s.threads t).connections.length)
    (hrunning : ∀ k j, (s.workers k).active = some j → j.thread = t → (s.threads t).Runs pc j)
    (hlocked : b = false → ∀ k, (s.workers k).active ≠ some (s.job t i₀)) : s'.Jobs := by
  have hself : s'.threads t = { s.threads t with pc := pc } := by rw [hth, Function.update_self]
  have hne : ∀ t', t' ≠ t → s'.threads t' = s.threads t' := fun t' ht => by
    rw [hth, Function.update_of_ne ht]
  have hjob := job_of_goto hth
  have hclaim : ∀ t' k, (s'.threads t').pc.claims = some k → (s.threads t').pc.claims = some k := by
    intro t' k hc
    by_cases ht : t' = t
    · rw [ht, hself] at hc
      exact ht ▸ hclaims k hc
    · rwa [hne t' ht] at hc
  refine ⟨fun k => hworkers ▸ h.wf k, fun t' k hc => hworkers ▸ h.claimed t' k (hclaim t' k hc),
    fun t₁ t₂ k h1 h2 => h.claims_unique t₁ t₂ k (hclaim t₁ k h1) (hclaim t₂ k h2),
    fun t' i k he => ?_, fun t' i k he => ?_, fun t' i he => ?_, fun k j ha => ?_,
    fun k j ha => ?_, fun k k' j h1 h2 => ?_⟩
  · rw [hworkers, hjob]
    by_cases ht : t' = t
    · rw [ht, hself] at he
      exact absurd he (hrun i k)
    · rw [hne t' ht] at he
      exact h.assigned t' i k he
  · rw [hcontrollers, hjob]
    by_cases ht : t' = t
    · rw [ht, hself] at he
      rcases he with he | he
      · obtain ⟨rfl, rfl⟩ := hassign i k he
        rw [ht, Function.update_self]
      · exact absurd he (hrun i k)
    · rw [hne t' ht] at he
      rw [Function.update_of_ne fun hj => ht (congrArg Job.thread hj)]
      exact h.acquired t' i k he
  · by_cases ht : t' = t
    · rw [ht, hself] at he ⊢
      exact hstart i he
    · rw [hne t' ht] at he ⊢
      exact h.index_lt t' i he
  · rw [hworkers] at ha
    unfold Running
    by_cases ht : j.thread = t
    · rw [ht, hself]
      exact hrunning k j ha ht
    · rw [hne _ ht]
      exact h.running k j ha
  · rw [hworkers] at ha
    rw [hcontrollers, Function.update_apply]
    split_ifs with hj
    · cases b with
      | true => rfl
      | false => exact absurd (hj ▸ ha) (hlocked rfl k)
    · exact h.locked k j ha
  · rw [hworkers] at h1 h2
    exact h.unique k k' j h1 h2

theorem step (h : s.Jobs) {k : Fin threadCount} {w : RelayThread} (hth : s'.threads = s.threads)
    (hworkers : s'.workers = Function.update s.workers k w)
    (hcontrollers : s'.controllers = s.controllers) (hwf : w.WF)
    (hclaimed : ¬ (s.workers k).Claimed) (hactive : w.active = (s.workers k).active) : s'.Jobs := by
  have hsame : ∀ k', (s'.workers k').active = (s.workers k').active := by
    intro k'
    rw [hworkers]
    by_cases hk : k' = k
    · rw [hk, Function.update_self, hactive]
    · rw [Function.update_of_ne hk]
  have hclaim : ∀ t' k', (s.threads t').pc.claims = some k' → s'.workers k' = s.workers k' := by
    intro t' k' hc
    rw [hworkers, Function.update_of_ne]
    rintro rfl
    exact hclaimed (h.claimed t' k' hc)
  refine ⟨fun k' => ?_, fun t' k' hc => ?_, hth ▸ h.claims_unique, fun t' i k' he => ?_,
    fun t' i k' he => ?_, hth ▸ h.index_lt, fun k' j ha => ?_, fun k' j ha => ?_,
    fun k₁ k₂ j h1 h2 => ?_⟩
  · rw [hworkers]
    by_cases hk : k' = k
    · rw [hk, Function.update_self]
      exact hwf
    · rw [Function.update_of_ne hk]
      exact h.wf k'
  · rw [hth] at hc
    rw [hclaim t' k' hc]
    exact h.claimed t' k' hc
  · rw [hth] at he
    rw [hclaim t' k' (by rw [he]; rfl), job, hth]
    exact h.assigned t' i k' he
  · rw [hth] at he
    rw [hcontrollers, job, hth]
    exact h.acquired t' i k' he
  · rw [hsame] at ha
    rw [Running, hth]
    exact h.running k' j ha
  · rw [hsame] at ha
    rw [hcontrollers]
    exact h.locked k' j ha
  · rw [hsame] at h1 h2
    exact h.unique k₁ k₂ j h1 h2

theorem done (h : s.Jobs) {k : Fin threadCount} {j₀ : Job} (hth : s'.threads = s.threads)
    (hworkers : s'.workers = Function.update s.workers k (s.workers k).again)
    (hcontrollers : s'.controllers = Function.update s.controllers j₀ false)
    (hpc : (s.workers k).pc = .done) (hj : (s.workers k).job = some j₀) : s'.Jobs := by
  obtain ⟨hwf, hnone, -⟩ := (h.wf k).again hpc
  have hj₀ : (s.workers k).active = some j₀ := (Worker.active_of_done hpc).trans hj
  have hcases : ∀ k' j, (s'.workers k').active = some j →
      k' ≠ k ∧ (s.workers k').active = some j := by
    intro k' j ha
    rw [hworkers] at ha
    by_cases hk : k' = k
    · rw [hk, Function.update_self, hnone] at ha
      cases ha
    · rw [Function.update_of_ne hk] at ha
      exact ⟨hk, ha⟩
  have hclaim : ∀ t' k', (s.threads t').pc.claims = some k' → s'.workers k' = s.workers k' := by
    intro t' k' hc
    rw [hworkers, Function.update_of_ne]
    rintro rfl
    exact Worker.not_claimed_of_done hpc (h.claimed t' k' hc)
  refine ⟨fun k' => ?_, fun t' k' hc => ?_, hth ▸ h.claims_unique, fun t' i k' he => ?_,
    fun t' i k' he => ?_, hth ▸ h.index_lt, fun k' j ha => ?_, fun k' j ha => ?_,
    fun k₁ k₂ j h1 h2 => h.unique k₁ k₂ j (hcases k₁ j h1).2 (hcases k₂ j h2).2⟩
  · rw [hworkers]
    by_cases hk : k' = k
    · rw [hk, Function.update_self]
      exact hwf
    · rw [Function.update_of_ne hk]
      exact h.wf k'
  · rw [hth] at hc
    rw [hclaim t' k' hc]
    exact h.claimed t' k' hc
  · rw [hth] at he
    rw [hclaim t' k' (by rw [he]; rfl), job, hth]
    exact h.assigned t' i k' he
  · -- a job that is being started is not active yet
    rw [hth] at he
    rw [hcontrollers, job, hth, Function.update_of_ne]
    · exact h.acquired t' i k' he
    · rintro rfl
      obtain ⟨-, -, hlt⟩ := h.running k _ hj₀
      have hstart : (s.threads t').pc.starting = some i := by
        rcases he with he | he <;> rw [he] <;> rfl
      rw [(RoomPc.started_of_starting hstart _).1] at hlt
      exact Nat.lt_irrefl i hlt
  · rw [Running, hth]
    exact h.running k' j (hcases k' j ha).2
  · obtain ⟨hk, ha⟩ := hcases k' j ha
    rw [hcontrollers, Function.update_of_ne]
    · exact h.locked k' j ha
    · rintro rfl
      exact hk (h.unique k' k j ha hj₀)

theorem run (h : s.Jobs) {i : ℕ} {k : Fin threadCount} (hpc : (s.threads t).pc = .run i k) :
    ((s.withWorker k (s.workers k).run).threadGoto t
      (if i + 1 < (s.threads t).connections.length then .lock (i + 1) 0
      else .joinAcquire 0)).Jobs := by
  have hc : (s.threads t).pc.claims = some k := by rw [hpc]; rfl
  have hclaimed := h.claimed t k hc
  obtain ⟨hwf, hnot, hactive⟩ := hclaimed.run
  have hlt := h.index_lt t i (by rw [hpc]; rfl)
  have hnew : (s.workers k).run.active = some (s.job t i) := hactive.trans (h.assigned t i k hpc)
  -- the job was not running before
  have hnotrun : ¬ s.Running (s.job t i) := by
    rintro ⟨-, -, hr⟩
    rw [job, hpc] at hr
    exact Nat.lt_irrefl i hr
  have hnext : ∀ {pc}, pc = (if i + 1 < (s.threads t).connections.length then .lock (i + 1) 0
        else .joinAcquire 0) → pc.claims = none ∧
      (∀ i' k', pc ≠ .assign i' k' ∧ pc ≠ .run i' k') ∧
      (∀ i', pc.starting = some i' → i' < (s.threads t).connections.length) ∧
      ∀ j : Job, j.tick = (s.threads t).tick → j.index < i + 1 → (s.threads t).Runs pc j := by
    intro pc he
    split_ifs at he with hi <;> subst he
    · refine ⟨rfl, by simp, fun i' hi' => ?_, fun j hj hlt' => ⟨hj, Nat.zero_le _, hlt'⟩⟩
      cases hi'
      exact hi
    · exact ⟨rfl, by simp, fun i' hi' => (by cases hi'),
        fun j hj hlt' => ⟨hj, Nat.zero_le _, Nat.lt_of_lt_of_le hlt' hlt⟩⟩
  obtain ⟨hnoclaim, hnopc, hstart, hruns⟩ := hnext rfl
  refine h.worker (k := k) rfl rfl rfl hwf (fun t' ht hc' => ht (h.claims_unique t' t k hc' hc))
    (fun k' hc' => ?_) (fun i' k' he => absurd he (hnopc i' k').2) (fun i' k' he => ?_) hstart
    (fun k' j ha hj => ?_) (fun j ha => ?_)
  · rw [hnoclaim] at hc'
    cases hc'
  · exact he.elim (fun he => absurd he (hnopc i' k').1) fun he => absurd he (hnopc i' k').2
  · obtain ⟨htick, -, hlt'⟩ := (h.running k' j ha).runs hj hpc
    exact hruns j htick (Nat.lt_succ_of_lt hlt')
  · rw [hnew] at ha
    cases ha
    exact ⟨rfl, hruns _ rfl (Nat.lt_succ_self i), h.acquired t i k (.inr hpc),
      fun k' => h.not_active hnotrun k'⟩

theorem joinRelease (h : s.Jobs) {i : ℕ} (hpc : (s.threads t).pc = .joinRelease i) :
    ((s.withController (s.job t i) false).threadGoto t
      (if i + 1 < (s.threads t).connections.length then .joinAcquire (i + 1)
        else .sleep)).Jobs := by
  have hended : ∀ k j, (s.workers k).active = some j → j.thread = t →
      j.tick = (s.threads t).tick ∧ i + 1 ≤ j.index ∧
        j.index < (s.threads t).connections.length :=
    fun k j ha hj => (h.running k j ha).runs hj hpc
  have hnext : ∀ {pc},
      pc = (if i + 1 < (s.threads t).connections.length then .joinAcquire (i + 1)
        else .sleep) → pc.claims = none ∧ pc.starting = none ∧
      (∀ i' k', pc ≠ .assign i' k' ∧ pc ≠ .run i' k') ∧ ∀ j : Job, j.tick = (s.threads t).tick →
        i + 1 ≤ j.index → j.index < (s.threads t).connections.length →
        (s.threads t).Runs pc j := by
    intro pc he
    split_ifs at he with hi <;> subst he
    · exact ⟨rfl, rfl, by simp, fun j hj hge hlt => ⟨hj, hge, hlt⟩⟩
    · exact ⟨rfl, rfl, by simp, fun j _ hge hlt => absurd (Nat.lt_of_le_of_lt hge hlt) hi⟩
  obtain ⟨hnoclaim, hnostart, hnopc, hruns⟩ := hnext rfl
  refine h.controller (t := t) rfl rfl rfl (fun k hc => ?_)
    (fun i' k' => (hnopc i' k').2) (fun i' k' he => absurd he (hnopc i' k').1)
    (fun i' hi => ?_) (fun k j ha hj => ?_) (fun _ k ha => ?_)
  · rw [hnoclaim] at hc
    cases hc
  · rw [hnostart] at hi
    cases hi
  · obtain ⟨htick, hge, hlt⟩ := hended k j ha hj
    exact hruns j htick hge hlt
  · exact Nat.lt_irrefl i (hended k _ ha rfl).2.1

end Jobs

theorem RoomStep.jobs (h : s.Jobs) (hst : s.RoomStep t s') : s'.Jobs := by
  cases hst with
  | stay hpc | leave hpc | noPackets hpc | getPackets _ hpc | sleep hpc | complete hpc
  | returning hpc =>
    refine h.thread rfl rfl rfl rfl (fun i hi => by cases hi) fun k j ha hj => ?_
    exact absurd hj (h.not_active_of_outside (by simp [hpc, RoomPc.InTick]) ha)
  | getConnections connections hpc =>
    -- no job of the tick was started yet
    have hnone : ∀ k j, (s.workers k).active = some j → j.thread ≠ t := by
      rintro k j ha rfl
      obtain ⟨-, -, hlt⟩ := h.running k j ha
      rw [hpc] at hlt
      exact Nat.not_lt_zero _ hlt
    refine h.thread rfl rfl rfl ?_ (fun i hi => ?_) fun k j ha hj => absurd hj (hnone k j ha)
    · split_ifs <;> rfl
    · cases connections with
      | nil => cases hi
      | cons c connections =>
        cases hi
        exact Nat.succ_pos _
  | lockNext i k hpc =>
    refine h.thread rfl rfl rfl rfl (fun i' hi => ?_) ?_
    · cases hi
      exact h.index_lt t i (by rw [hpc]; rfl)
    · intro k' j ha hj
      have hr := (h.running k' j ha).runs hj hpc
      exact hr
  | lock i k hpc hfree =>
    obtain ⟨hwf, hclaimed, hnot, hnone⟩ := (h.wf k).lock hfree
    refine h.worker (k := k) rfl rfl rfl hwf (fun t' _ hc => hnot (h.claimed t' k hc))
      (fun k' hc => ?_) (fun i k' he => by cases he) ?_ (fun i' hi => ?_) ?_ ?_
    · cases hc
      exact ⟨rfl, hclaimed⟩
    · rintro i' k' (he | he) <;> cases he
    · cases hi
      exact h.index_lt t i (by rw [hpc]; rfl)
    · intro k' j ha hj
      have hr := (h.running k' j ha).runs hj hpc
      exact hr
    · intro j ha
      rw [Worker.active_lock, hnone] at ha
      cases ha
  | acquireController i k hpc hfree =>
    refine h.controller (t := t) rfl rfl rfl (fun k' hc => ?_) (fun i k he => by cases he)
      (fun i' k' he => ?_) (fun i' hi => ?_) ?_ (fun hb => by cases hb)
    · rw [hpc]
      exact hc
    · cases he
      exact ⟨rfl, rfl⟩
    · cases hi
      exact h.index_lt t i (by rw [hpc]; rfl)
    · intro k' j ha hj
      have hr := (h.running k' j ha).runs hj hpc
      exact hr
  | assign i k hpc =>
    have hc : (s.threads t).pc.claims = some k := by rw [hpc]; rfl
    have hclaimed := h.claimed t k hc
    refine h.worker (k := k) rfl rfl rfl hclaimed.assign.wf
      (fun t' ht hc' => ht (h.claims_unique t' t k hc' hc)) (fun k' hc' => ?_)
      (fun i' k' he => ?_) ?_ (fun i' hi => ?_) ?_ ?_
    · cases hc'
      exact ⟨rfl, hclaimed.assign⟩
    · cases he
      rfl
    · rintro i' k' (he | he)
      · cases he
      · cases he
        exact h.acquired t i k (.inl hpc)
    · cases hi
      exact h.index_lt t i (by rw [hpc]; rfl)
    · intro k' j ha hj
      have hr := (h.running k' j ha).runs hj hpc
      exact hr
    · intro j ha
      rw [hclaimed.assign.active] at ha
      cases ha
  | run i k hpc => exact h.run hpc
  | joinAcquire i hpc hfree =>
    refine h.controller (t := t) rfl rfl rfl (fun k hc => by cases hc) (fun i k he => by cases he)
      (fun i k he => by cases he) (fun i' hi => by cases hi) ?_ (fun hb => by cases hb)
    rintro k j ha rfl
    obtain ⟨htick, hge, hlt⟩ := (h.running k j ha).runs rfl hpc
    refine ⟨htick, Nat.lt_of_le_of_ne hge ?_, hlt⟩
    -- the controller of an active job is locked
    rintro rfl
    have hlocked := h.locked k j ha
    rw [show j = s.job j.thread j.index by simp [job, ← htick], hfree] at hlocked
    cases hlocked
  | joinRelease i hpc => exact h.joinRelease hpc

theorem WorkerStep.jobs {k : Fin threadCount} (h : s.Jobs) (hst : s.WorkerStep k s') :
    s'.Jobs := by
  cases hst with
  | advance w hw =>
    obtain ⟨hwf, hactive, hnot, -⟩ := (h.wf k).advance hw
    exact h.step rfl rfl rfl hwf hnot hactive
  | assemble j c bytes hpc hj =>
    obtain ⟨hwf, hactive⟩ := (h.wf k).proceed hpc
    exact h.step rfl rfl rfl hwf (Worker.not_claimed_of_call hpc)
      (hactive.trans (Worker.active_of_call hpc).symm)
  | send j c a hpc hj =>
    obtain ⟨hwf, hactive⟩ := (h.wf k).finish hpc
    exact h.step rfl rfl rfl hwf (Worker.not_claimed_of_call hpc)
      (hactive.trans (Worker.active_of_call hpc).symm)
  | done j hpc hj => exact h.done rfl rfl rfl hpc hj

theorem RelayStep.workers (hst : s.RelayStep s') :
    s'.workers = s.workers ∧ s'.controllers = s.controllers := by
  cases hst <;> exact ⟨rfl, rfl⟩

theorem CallStep.workers (hst : s.CallStep s') :
    s'.workers = s.workers ∧ s'.controllers = s.controllers ∧ s'.log = s.log := by
  cases hst <;> exact ⟨rfl, rfl, rfl⟩

theorem RelayStep.jobs (h : s.Jobs) (hs : s.Spawned) (hst : s.RelayStep s') : s'.Jobs := by
  obtain ⟨hworkers, hcontrollers⟩ := hst.workers
  have houtside : ∀ t th, ¬ (s.threads t).pc.InTick → th.pc.claims = none → th.pc.starting = none →
      s'.threads = Function.update s.threads t th → s'.Jobs := by
    intro t th ht hclaims hstart hth
    refine h.thread hth hworkers hcontrollers hclaims (fun i hi => ?_) fun k j ha hj => ?_
    · rw [hstart] at hi
      cases hi
    · exact absurd hj (h.not_active_of_outside ht ha)
  rcases hst.threads with ⟨hth, -⟩ | ⟨t, hfin, -, hth⟩ | ⟨room, -, hth⟩
  · exact h.congr hth hworkers hcontrollers
  · exact houtside t _ (by simp [hfin, RoomPc.InTick]) rfl rfl hth
  · exact houtside s.spawned _ (by simp [hs _ le_rfl, RoomPc.InTick]) rfl rfl hth

theorem jobs_of_reachable (h : (relaySystem keys).Reachable s) : s.Jobs := by
  refine System.invariant h jobs_init (fun u o hu => hu.congr rfl rfl rfl) ?_
    (fun u u' hr hu hst => hst.jobs hu (spawned_of_reachable hr))
    (fun u t u' _ hu _ hst => hst.jobs hu) (fun u k u' _ hu hst => hst.jobs hu)
  intro u u' _ hu hst
  obtain ⟨hworkers, hcontrollers, -⟩ := hst.workers
  exact hu.congr hst.threads.1 hworkers hcontrollers

end System

end MoonJamRelay
