import MoonJamRelay.Threads.Connections
import MoonJamRelay.Threads.Jobs

/-!
# Ticks and the log

What the log says about the ticks of a thread agrees with where the thread is.

* `RoomThread.Logged` : the invariant for one thread.  A tick is in the log once it has taken its
  packets; the jobs of the last tick that were started have sent unless they are still unsent; all
  other ticks are finished.
* `System.Ticks` : the invariant for all threads, and what a job has assembled.
* `ticks_of_reachable` : the invariant holds in every reachable state.
-/

namespace MoonJamRelay

open Log

/-- The thread whose tick the entry is about. -/
def LogEntry.thread : LogEntry → Option ℕ
  | .took t _ _ _ | .listed t _ _ => some t
  | .sent j .. => some j.thread
  | _ => none

/-- What the log says about the ticks of the thread `t`, whose variables are `th`. -/
structure RoomThread.Logged (th : RoomThread) (t : ℕ) (log : List LogEntry) (unsent : Job → Prop) :
    Prop where
  took_le : ∀ n room batch, .took t n room batch ∈ log → th.room = room ∧ n ≤ th.tick
  listed_le : ∀ n connections, .listed t n connections ∈ log →
    n ≤ th.tick ∧ (n = th.tick → th.pc ≠ .getConnections)
  sent_le : ∀ j : Job, Sent log j → j.thread = t → j.tick ≤ th.tick ∧
    (j.tick = th.tick → j.index < th.pc.started th.connections.length ∧ ¬ unsent j)
  took : th.pc.InTick → .took t th.tick th.room th.packets ∈ log
  listed : th.pc.InTick → th.pc ≠ .getConnections → .listed t th.tick th.connections ∈ log
  sent : th.pc.InTick → ∀ i < th.pc.started th.connections.length,
    ¬ unsent ⟨t, th.tick, i⟩ → Sent log ⟨t, th.tick, i⟩
  finished : ∀ n room batch, .took t n room batch ∈ log →
    n = th.tick ∧ th.pc.InTick ∨ Finished log t n

namespace RoomThread.Logged

variable {th : RoomThread} {t : ℕ} {log : List LogEntry} {unsent unsent' : Job → Prop}
  {e : LogEntry} {pc : RoomPc}

theorem start (room : Hash) (hnone : ∀ e ∈ log, e.thread ≠ some t) :
    (RoomThread.start room).Logged t log unsent where
  took_le _ _ _ h := absurd rfl (hnone _ h)
  listed_le _ _ h := absurd rfl (hnone _ h)
  sent_le j h hj := by
    obtain ⟨c, room, bytes, parts, delivered, hm⟩ := h
    exact absurd (congrArg some hj) (hnone _ hm)
  took h := h.elim
  listed h := h.elim
  sent h := h.elim
  finished _ _ _ h := absurd rfl (hnone _ h)

theorem congr_unsent (h : th.Logged t log unsent)
    (hun : ∀ j : Job, j.thread = t → (unsent' j ↔ unsent j)) :
    th.Logged t log unsent' := by
  refine ⟨h.took_le, h.listed_le, fun j hs hj => ?_, h.took, h.listed, fun hin i hi hn => ?_,
    h.finished⟩
  · rw [hun j hj]
    exact h.sent_le j hs hj
  · rw [hun _ rfl] at hn
    exact h.sent hin i hi hn

theorem mem_snoc_iff (he : e.thread ≠ some t) {e' : LogEntry} (he' : e'.thread = some t) :
    e' ∈ log ++ [e] ↔ e' ∈ log := by
  rw [List.mem_append, List.mem_singleton]
  exact ⟨fun h => h.resolve_right fun heq => he (heq ▸ he'), Or.inl⟩

/-- The log grows by an entry about another thread, or about none. -/
theorem other (h : th.Logged t log unsent) (he : e.thread ≠ some t) :
    th.Logged t (log ++ [e]) unsent := by
  have hsub : log ⊆ log ++ [e] := List.subset_append_left _ _
  refine ⟨fun n room batch hm => h.took_le n room batch ((mem_snoc_iff he rfl).1 hm),
    fun n connections hm => h.listed_le n connections ((mem_snoc_iff he rfl).1 hm),
    fun j hs hj => h.sent_le j ?_ hj, fun hin => hsub (h.took hin),
    fun hin hpc => hsub (h.listed hin hpc), fun hin i hi hn => (h.sent hin i hi hn).mono hsub,
    fun n room batch hm => ?_⟩
  · obtain ⟨c, room, bytes, parts, delivered, hm⟩ := hs
    have ht : LogEntry.thread (.sent j c room bytes parts delivered) = some t := congrArg some hj
    exact ⟨c, room, bytes, parts, delivered, (mem_snoc_iff he ht).1 hm⟩
  · exact (h.finished n room batch ((mem_snoc_iff he rfl).1 hm)).imp_right (·.mono hsub)

theorem outside (h : th.Logged t log unsent) {th' : RoomThread} (hout : ¬ th.pc.InTick)
    (hout' : ¬ th'.pc.InTick) (hroom : th'.room = th.room) (htick : th'.tick = th.tick)
    (hconnections : th'.connections = th.connections) : th'.Logged t log unsent := by
  have hpc : th'.pc ≠ .getConnections := fun he => hout' (by rw [he]; trivial)
  refine ⟨by rw [hroom, htick]; exact h.took_le, fun n connections hm => ?_, fun j hs hj => ?_,
    fun hin => absurd hin hout', fun hin => absurd hin hout', fun hin => absurd hin hout',
    fun n room batch hm => ?_⟩
  · rw [htick]
    exact ⟨(h.listed_le n connections hm).1, fun _ => hpc⟩
  · have hle := h.sent_le j hs hj
    rw [(RoomPc.outside hout _).2.2.1] at hle
    rwa [(RoomPc.outside hout' _).2.2.1, htick, hconnections]
  · exact .inr ((h.finished n room batch hm).resolve_left fun hf => hout hf.2)

theorem getPackets (h : th.Logged t log unsent) (hout : ¬ th.pc.InTick) (batch : List Packet) :
    { th with packets := batch, tick := th.tick + 1, pc := .getConnections : RoomThread }.Logged t
      (log ++ [.took t (th.tick + 1) th.room batch]) unsent := by
  have hsub : log ⊆ log ++ [.took t (th.tick + 1) th.room batch] := List.subset_append_left _ _
  refine ⟨fun n room batch' hm => ?_, fun n connections hm => ?_, fun j hs hj => ?_,
    fun _ => List.mem_append_right _ (List.mem_singleton_self _), fun _ hpc => absurd rfl hpc,
    fun _ i hi => absurd hi (Nat.not_lt_zero i), fun n room batch' hm => ?_⟩
  · rw [List.mem_append, List.mem_singleton] at hm
    rcases hm with hm | hm
    · obtain ⟨hroom, hn⟩ := h.took_le n room batch' hm
      exact ⟨hroom, Nat.le_succ_of_le hn⟩
    · cases hm
      exact ⟨rfl, Nat.le_refl _⟩
  · have hn := (h.listed_le n connections (by simpa using hm)).1
    exact ⟨Nat.le_succ_of_le hn, fun he => absurd he (Nat.ne_of_lt (Nat.lt_succ_of_le hn))⟩
  · obtain ⟨c, room, bytes, parts, delivered, hm⟩ := hs
    have hn := (h.sent_le j ⟨c, room, bytes, parts, delivered, by simpa using hm⟩ hj).1
    exact ⟨Nat.le_succ_of_le hn, fun he => absurd he (Nat.ne_of_lt (Nat.lt_succ_of_le hn))⟩
  · rw [List.mem_append, List.mem_singleton] at hm
    rcases hm with hm | hm
    · refine .inr (((h.finished n room batch' hm).resolve_left fun hf => hout hf.2).mono hsub)
    · cases hm
      exact .inl ⟨rfl, trivial⟩

theorem getConnections (h : th.Logged t log unsent) (hpc : th.pc = .getConnections)
    (connections : List ReceivedConnection) :
    { th with
      connections := connections
      pc := if connections.isEmpty then .sleep else .lock 0 0 : RoomThread }.Logged t
      (log ++ [.listed t th.tick connections]) unsent := by
  have hsub : log ⊆ log ++ [.listed t th.tick connections] := List.subset_append_left _ _
  have hlisted : .listed t th.tick connections ∈ log ++ [.listed t th.tick connections] :=
    List.mem_append_right _ (List.mem_singleton_self _)
  have hin : th.pc.InTick := by rw [hpc]; trivial
  have hnot : ∀ j : Job, Sent (log ++ [.listed t th.tick connections]) j → j.thread = t →
      j.tick ≤ th.tick ∧ j.tick ≠ th.tick := by
    rintro j ⟨c, room, bytes, parts, delivered, hm⟩ hj
    obtain ⟨hle, hlt⟩ := h.sent_le j ⟨c, room, bytes, parts, delivered, by simpa using hm⟩ hj
    refine ⟨hle, fun he => ?_⟩
    have := (hlt he).1
    rw [hpc] at this
    exact Nat.not_lt_zero _ this
  refine ⟨fun n room batch hm => h.took_le n room batch (by simpa using hm),
    fun n connections' hm => ?_, fun j hs hj => ?_, fun _ => hsub (h.took hin), fun _ _ => hlisted,
    fun hin' i hi => ?_, fun n room batch hm => ?_⟩
  · rw [List.mem_append, List.mem_singleton] at hm
    refine ⟨?_, fun _ => ?_⟩
    · rcases hm with hm | hm
      · exact (h.listed_le n connections' hm).1
      · cases hm
        exact Nat.le_refl _
    · dsimp only
      split_ifs <;> simp
  · obtain ⟨hle, hne⟩ := hnot j hs hj
    exact ⟨hle, fun he => absurd he hne⟩
  · dsimp only at hi hin'
    split_ifs at hi hin'
    · exact hin'.elim
    · exact absurd hi (Nat.not_lt_zero i)
  · have hfin := h.finished n room batch (by simpa using hm)
    rcases hfin with ⟨rfl, -⟩ | hfin
    · cases connections with
      | nil => exact .inr ⟨[], hlisted, fun i hi => absurd hi (Nat.not_lt_zero i)⟩
      | cons c connections => exact .inl ⟨rfl, trivial⟩
    · exact .inr (hfin.mono hsub)

theorem inside (h : th.Logged t log unsent) (hin : th.pc.InTick) (hin' : pc.InTick)
    (hne : th.pc ≠ .getConnections) (hne' : pc ≠ .getConnections)
    (hstarted : ∀ n, pc.started n = th.pc.started n) :
    { th with pc := pc : RoomThread }.Logged t log unsent where
  took_le := h.took_le
  listed_le n connections hm := ⟨(h.listed_le n connections hm).1, fun _ => hne'⟩
  sent_le j hs hj := by
    dsimp only
    rw [hstarted]
    exact h.sent_le j hs hj
  took _ := h.took hin
  listed _ _ := h.listed hin hne
  sent _ := by
    dsimp only
    rw [hstarted]
    exact h.sent hin
  finished n room batch hm := (h.finished n room batch hm).imp_left fun hf => ⟨hf.1, hin'⟩

theorem run (h : th.Logged t log unsent) {i : ℕ} {k : Fin threadCount} (hpc : th.pc = .run i k)
    (hi : i < th.connections.length)
    (hun : ∀ j, unsent' j ↔ unsent j ∨ j = ⟨t, th.tick, i⟩) :
    { th with pc := if i + 1 < th.connections.length then .lock (i + 1) 0
              else .joinAcquire 0 : RoomThread }.Logged t log unsent' := by
  have hin : th.pc.InTick := by rw [hpc]; trivial
  obtain ⟨pc, he, hin', hne', hstarted⟩ : ∃ pc : RoomPc,
      pc = (if i + 1 < th.connections.length then .lock (i + 1) 0 else .joinAcquire 0) ∧
      pc.InTick ∧ pc ≠ .getConnections ∧ pc.started th.connections.length = i + 1 := by
    refine ⟨_, rfl, ?_⟩
    split_ifs with hlt
    · exact ⟨trivial, by simp, rfl⟩
    · exact ⟨trivial, by simp, Nat.le_antisymm (Nat.not_lt.1 hlt) hi⟩
  rw [← he]
  refine ⟨h.took_le, fun n connections hm => ⟨(h.listed_le n connections hm).1, fun _ => hne'⟩,
    fun j hs hj => ?_, fun _ => h.took hin, fun _ _ => h.listed hin (by simp [hpc]),
    fun _ i' hi' hn => ?_, fun n room batch hm => ?_⟩
  · obtain ⟨hle, hlt⟩ := h.sent_le j hs hj
    refine ⟨hle, fun he => ?_⟩
    obtain ⟨hi', hn⟩ := hlt he
    rw [hpc] at hi'
    refine ⟨hstarted ▸ Nat.lt_succ_of_lt hi', fun hu => ?_⟩
    rcases (hun j).1 hu with hu | rfl
    · exact hn hu
    · exact Nat.lt_irrefl _ hi'
  · rw [hun] at hn
    rw [hstarted] at hi'
    have hne : i' ≠ i := by
      rintro rfl
      exact hn (.inr rfl)
    refine h.sent hin i' ?_ fun hu => hn (.inl hu)
    rw [hpc]
    exact Nat.lt_of_le_of_ne (Nat.le_of_lt_succ hi') hne
  · exact (h.finished n room batch hm).imp_left fun hf => ⟨hf.1, hin'⟩

theorem endTick (h : th.Logged t log unsent) {i : ℕ} (hpc : th.pc = .joinRelease i)
    (hout : ¬ pc.InTick) (hun : ∀ j : Job, j.thread = t → j.tick = th.tick → ¬ unsent j) :
    { th with pc := pc : RoomThread }.Logged t log unsent := by
  have hin : th.pc.InTick := by rw [hpc]; trivial
  have hne : pc ≠ .getConnections := fun he => hout (by rw [he]; trivial)
  refine ⟨h.took_le, fun n connections hm => ⟨(h.listed_le n connections hm).1, fun _ => hne⟩,
    fun j hs hj => ?_, fun hin' => absurd hin' hout, fun hin' => absurd hin' hout,
    fun hin' => absurd hin' hout, fun n room batch hm => .inr ?_⟩
  · have hle := h.sent_le j hs hj
    rw [hpc] at hle
    dsimp only
    rwa [(RoomPc.outside hout _).2.2.1]
  · rcases h.finished n room batch hm with ⟨rfl, -⟩ | hfin
    · refine ⟨th.connections, h.listed hin (by simp [hpc]), fun i' hi' => ?_⟩
      exact h.sent hin i' (by rw [hpc]; exact hi') (hun _ rfl rfl)
    · exact hfin

theorem send (h : th.Logged t log unsent) {j : Job} {c : ReceivedConnection} {room : Hash}
    {bytes : List UInt8} {parts : List Packet} {delivered : Bool}
    (htick : j.tick = th.tick) (hindex : j.index < th.pc.started th.connections.length)
    (hun : ∀ j', unsent' j' ↔ unsent j' ∧ j' ≠ j) :
    th.Logged t (log ++ [.sent j c room bytes parts delivered]) unsent' := by
  have hsub : log ⊆ log ++ [.sent j c room bytes parts delivered] := List.subset_append_left _ _
  refine ⟨fun n room' batch hm => h.took_le n room' batch (by simpa using hm),
    fun n connections hm => h.listed_le n connections (by simpa using hm), fun j' hs hj' => ?_,
    fun hin => hsub (h.took hin), fun hin hne => hsub (h.listed hin hne), fun hin i hi hn => ?_,
    fun n room' batch hm => ?_⟩
  · obtain ⟨c', room', bytes', parts', delivered', hm⟩ := hs
    rw [List.mem_append, List.mem_singleton] at hm
    rcases hm with hm | hm
    · obtain ⟨hle, hlt⟩ := h.sent_le j' ⟨c', room', bytes', parts', delivered', hm⟩ hj'
      exact ⟨hle, fun he => ⟨(hlt he).1, fun hu => (hlt he).2 ((hun j').1 hu).1⟩⟩
    · cases hm
      exact ⟨Nat.le_of_eq htick, fun _ => ⟨hindex, fun hu => ((hun j).1 hu).2 rfl⟩⟩
  · by_cases he : (⟨t, th.tick, i⟩ : Job) = j
    · exact ⟨c, room, bytes, parts, delivered,
        List.mem_append_right _ (by rw [he]; exact List.mem_singleton_self _)⟩
    · exact (h.sent hin i hi fun hu => hn ((hun _).2 ⟨hu, he⟩)).mono hsub
  · exact (h.finished n room' batch (by simpa using hm)).imp_right (·.mono hsub)

end RoomThread.Logged

namespace System

variable {keys : KeyManager} {s s' : System} {t : ℕ}

/-- Some worker has the job and has not called `send` for it. -/
def Unsent (s : System) (j : Job) : Prop := ∃ k, (s.workers k).pending = some j

/-- The ticks of all threads, and what the jobs have assembled. -/
structure Ticks (s : System) : Prop where
  logged : ∀ t, (s.threads t).Logged t s.log s.Unsent
  spawned : ∀ e ∈ s.log, ∀ t, e.thread = some t → t < s.spawned
  assembled : ∀ k a j, (s.workers k).pc = .call (some a) → (s.workers k).job = some j →
    ∃ c, s.jobConnection j = some c ∧ s.jobAssemble j c = some a

theorem ticks_init : (System.init keys).Ticks where
  logged _ :=
    ⟨fun _ _ _ h => (nomatch h), fun _ _ h => (nomatch h),
      fun _ ⟨_, _, _, _, _, h⟩ => (nomatch h), fun h => h.elim, fun h => h.elim, fun h => h.elim,
      fun _ _ _ h => (nomatch h)⟩
  spawned _ h := nomatch h
  assembled _ _ _ h := nomatch h

theorem Jobs.running_of_unsent (h : s.Jobs) {j : Job} (hj : s.Unsent j) : s.Running j := by
  obtain ⟨k, hk⟩ := hj
  exact h.running k j (Worker.active_of_pending hk)

/-! ### Room threads -/

theorem RoomStep.log (hst : s.RoomStep t s') :
    s'.log = s.log ∨ ∃ e, s'.log = s.log ++ [e] ∧ e.thread = some t := by
  cases hst with
  | getPackets => exact .inr ⟨_, rfl, rfl⟩
  | getConnections => exact .inr ⟨_, rfl, rfl⟩
  | _ => exact .inl rfl

/-- A section of a room thread leaves the workers as they are, or changes one that has no job to
send; only the start of a job gives it one. -/
theorem RoomStep.unsent (h : s.Jobs) (hst : s.RoomStep t s') (j : Job) :
    s'.Unsent j ↔ s.Unsent j ∨ ∃ i k, (s.threads t).pc = .run i k ∧ j = s.job t i := by
  have hupdate : ∀ k w, w.pending = (s.workers k).pending →
      s'.workers = Function.update s.workers k w → (s'.Unsent j ↔ s.Unsent j) := by
    intro k w hw hworkers
    refine exists_congr fun k' => ?_
    rw [hworkers]
    by_cases hk : k' = k
    · rw [hk, Function.update_self, hw]
    · rw [Function.update_of_ne hk]
  have hnotrun : (∀ i k, (s.threads t).pc ≠ .run i k) → (s'.Unsent j ↔ s.Unsent j) →
      (s'.Unsent j ↔ s.Unsent j ∨ ∃ i k, (s.threads t).pc = .run i k ∧ j = s.job t i) := by
    intro hpc hun
    rw [hun]
    refine ⟨Or.inl, fun hor => hor.resolve_right ?_⟩
    rintro ⟨i, k, he, -⟩
    exact hpc i k he
  cases hst with
  | lock i k hpc => exact hnotrun (by simp [hpc]) (hupdate k _ Worker.pending_lock rfl)
  | assign i k hpc =>
    have hclaimed := h.claimed t k (by rw [hpc]; rfl)
    exact hnotrun (by simp [hpc])
      (hupdate k _ (hclaimed.assign.pending.trans hclaimed.pending.symm) rfl)
  | run i k hpc =>
    have hclaimed := h.claimed t k (by rw [hpc]; rfl)
    have hnew := hclaimed.pending_run.trans (h.assigned t i k hpc)
    constructor
    · rintro ⟨k', hk'⟩
      by_cases hk : k' = k
      · subst hk
        refine .inr ⟨i, k', hpc, ?_⟩
        have hp : (Function.update s.workers k' (s.workers k').run k').pending = some j := hk'
        rw [Function.update_self, hnew] at hp
        exact (Option.some.inj hp).symm
      · have hp : (Function.update s.workers k (s.workers k).run k').pending = some j := hk'
        rw [Function.update_of_ne hk] at hp
        exact .inl ⟨k', hp⟩
    · rintro (⟨k', hk'⟩ | ⟨i', k', hpc', rfl⟩)
      · have hk : k' ≠ k := by
          rintro rfl
          rw [hclaimed.pending] at hk'
          cases hk'
        refine ⟨k', ?_⟩
        change (Function.update s.workers k (s.workers k).run k').pending = some j
        rwa [Function.update_of_ne hk]
      · rw [hpc] at hpc'
        cases hpc'
        refine ⟨k, ?_⟩
        change (Function.update s.workers k (s.workers k).run k).pending = _
        rwa [Function.update_self]
  | stay hpc | leave hpc | noPackets hpc | getPackets _ hpc | getConnections _ hpc
  | lockNext _ _ hpc | acquireController _ _ hpc | joinAcquire _ hpc | joinRelease _ hpc
  | sleep hpc | complete hpc | returning hpc => exact hnotrun (by simp [hpc]) Iff.rfl

/-- The section keeps what the log says about its own thread. -/
theorem RoomStep.logged_self (hj : s.Jobs) (h : (s.threads t).Logged t s.log s.Unsent)
    (hst : s.RoomStep t s') : (s'.threads t).Logged t s'.log s'.Unsent := by
  have hun := hst.unsent hj
  have hsame : (∀ i k, (s.threads t).pc ≠ .run i k) → ∀ j : Job, j.thread = t →
      (s'.Unsent j ↔ s.Unsent j) := by
    intro hpc j _
    rw [hun]
    refine ⟨fun hor => hor.resolve_right ?_, Or.inl⟩
    rintro ⟨i, k, he, -⟩
    exact hpc i k he
  have hself : ∀ th : RoomThread, s'.threads = Function.update s.threads t th →
      th.Logged t s'.log s'.Unsent → (s'.threads t).Logged t s'.log s'.Unsent := by
    intro th hth hl
    rwa [hth, Function.update_self]
  cases hst with
  | stay hpc | leave hpc | sleep hpc | complete hpc | returning hpc =>
    refine hself _ rfl (RoomThread.Logged.congr_unsent ?_ (hsame (by simp [hpc])))
    refine h.outside ?_ ?_ rfl rfl rfl <;> simp [hpc, RoomPc.InTick]
  | noPackets hpc =>
    refine hself _ rfl (RoomThread.Logged.congr_unsent ?_ (hsame (by simp [hpc])))
    refine h.outside ?_ ?_ rfl rfl rfl <;> simp [hpc, RoomPc.InTick]
  | getPackets batch hpc =>
    exact hself _ rfl ((h.getPackets (by simp [hpc, RoomPc.InTick]) batch).congr_unsent
      (hsame (by simp [hpc])))
  | getConnections connections hpc =>
    exact hself _ rfl ((h.getConnections hpc connections).congr_unsent (hsame (by simp [hpc])))
  | lockNext i k hpc | lock i k hpc | acquireController i k hpc | assign i k hpc
  | joinAcquire i hpc =>
    refine hself _ rfl ((h.inside ?_ ?_ ?_ ?_ ?_).congr_unsent (hsame (by simp [hpc]))) <;>
      simp [hpc, RoomPc.InTick, RoomPc.started]
  | run i k hpc =>
    refine hself _ rfl (h.run hpc (hj.index_lt t i (by rw [hpc]; rfl)) fun j => ?_)
    rw [hun]
    refine or_congr_right ⟨?_, fun he => ⟨i, k, hpc, he⟩⟩
    rintro ⟨i', k', hpc', rfl⟩
    rw [hpc] at hpc'
    cases hpc'
    rfl
  | joinRelease i hpc =>
    have hcongr := hsame (by simp [hpc])
    refine hself _ rfl (RoomThread.Logged.congr_unsent ?_ hcongr)
    split_ifs with hi
    · refine h.inside ?_ ?_ ?_ ?_ ?_ <;> simp [hpc, RoomPc.InTick, RoomPc.started]
    · refine h.endTick hpc (fun hin => hin) fun j hjt _ hu => ?_
      -- a job that is still running would have a larger index than the last one
      obtain ⟨-, hge, hlt⟩ := (hj.running_of_unsent hu).runs hjt hpc
      exact hi (Nat.lt_of_le_of_lt hge hlt)

theorem RoomStep.logged (hj : s.Jobs) (h : ∀ t, (s.threads t).Logged t s.log s.Unsent)
    (hst : s.RoomStep t s') (t' : ℕ) : (s'.threads t').Logged t' s'.log s'.Unsent := by
  by_cases ht : t' = t
  · subst ht
    exact hst.logged_self hj (h t')
  · obtain ⟨-, -, -, -, -, hth⟩ := hst.threads
    rw [hth t' ht]
    have hun : ∀ j : Job, j.thread = t' → (s'.Unsent j ↔ s.Unsent j) := by
      intro j hjt
      rw [hst.unsent hj]
      refine ⟨fun hor => hor.resolve_right ?_, Or.inl⟩
      rintro ⟨i, k, -, rfl⟩
      exact ht hjt.symm
    refine RoomThread.Logged.congr_unsent ?_ hun
    rcases hst.log with hlog | ⟨e, hlog, he⟩
    · rw [hlog]
      exact h t'
    · rw [hlog]
      exact (h t').other (by rw [he]; exact fun heq => ht (Option.some.inj heq).symm)

/-- A section of a room thread leaves the variables the running jobs read as they are. -/
theorem RoomStep.buffers (hst : s.RoomStep t s') {j : Job} (hj : s.Running j) :
    s'.jobConnection j = s.jobConnection j ∧ ∀ c, s'.jobAssemble j c = s.jobAssemble j c := by
  have hsame : (s'.threads j.thread).connections = (s.threads j.thread).connections →
      (s'.threads j.thread).packets = (s.threads j.thread).packets →
      s'.jobConnection j = s.jobConnection j ∧ ∀ c, s'.jobAssemble j c = s.jobAssemble j c := by
    intro hc hp
    exact ⟨by rw [jobConnection, hc, jobConnection], fun c => by rw [jobAssemble, hp, jobAssemble]⟩
  by_cases ht : j.thread = t
  · subst ht
    cases hst with
    | noPackets hpc | getPackets _ hpc =>
      exact absurd hj (not_running_of_outside (by simp [hpc, RoomPc.InTick]))
    | getConnections _ hpc =>
      have hlt := hj.2.2
      rw [hpc] at hlt
      exact absurd hlt (Nat.not_lt_zero _)
    | _ => apply hsame <;> simp [threadGoto, withThread, withWorker, withController]
  · obtain ⟨-, -, -, -, -, hth⟩ := hst.threads
    rw [hth _ ht] at hsame
    exact hsame rfl rfl

theorem RoomStep.workers (h : s.Jobs) (hst : s.RoomStep t s') {k : Fin threadCount}
    (hpc : (s'.workers k).pc ≠ .awaitRun) : s'.workers k = s.workers k := by
  have hupdate : ∀ k' w, s'.workers = Function.update s.workers k' w → w.pc = .awaitRun →
      s'.workers k = s.workers k := by
    intro k' w hworkers hw
    rw [hworkers, Function.update_of_ne]
    rintro rfl
    rw [hworkers, Function.update_self] at hpc
    exact hpc hw
  cases hst with
  | lock i k' _ hfree => exact hupdate k' _ rfl ((h.wf k').lock hfree).2.1.1
  | assign i k' he => exact hupdate k' _ rfl (h.claimed t k' (by rw [he]; rfl)).1
  | run i k' he => exact hupdate k' _ rfl (h.claimed t k' (by rw [he]; rfl)).1
  | _ => rfl

theorem RoomStep.ticks (hj : s.Jobs) (hs : s.Spawned) (h : s.Ticks) (hst : s.RoomStep t s') :
    s'.Ticks := by
  obtain ⟨hlive, hspawned, -⟩ := hst.threads
  refine ⟨hst.logged hj h.logged, fun e he t' ht' => ?_, fun k a j hpc hjob => ?_⟩
  · rw [hspawned]
    rcases hst.log with hlog | ⟨e', hlog, he'⟩
    · exact h.spawned e (hlog ▸ he) t' ht'
    · rw [hlog, List.mem_append, List.mem_singleton] at he
      rcases he with he | rfl
      · exact h.spawned e he t' ht'
      · obtain rfl : t = t' := Option.some.inj (he'.symm.trans ht')
        by_contra hge
        exact hlive (hs t (Nat.not_lt.1 hge))
  · have hsame : s'.workers k = s.workers k := hst.workers hj (by simp [hpc])
    rw [hsame] at hpc hjob
    obtain ⟨c, hc, ha⟩ := h.assembled k a j hpc hjob
    have hrunning := hj.running k j ((Worker.active_of_call hpc).trans hjob)
    obtain ⟨hconnection, hassemble⟩ := hst.buffers hrunning
    exact ⟨c, hconnection.trans hc, (hassemble c).trans ha⟩

/-! ### Workers -/

/-- A worker's step does not change which jobs are unsent, unless it sends. -/
theorem unsent_of_worker {k : Fin threadCount} {w : RelayThread}
    (hworkers : s'.workers = Function.update s.workers k w)
    (hw : w.pending = (s.workers k).pending) (j : Job) : s'.Unsent j ↔ s.Unsent j := by
  refine exists_congr fun k' => ?_
  rw [hworkers]
  by_cases hk : k' = k
  · rw [hk, Function.update_self, hw]
  · rw [Function.update_of_ne hk]

theorem unsent_of_send (h : s.Jobs) {k : Fin threadCount} {j : Job} {a : Option Assembled}
    (hworkers : s'.workers = Function.update s.workers k (s.workers k).finish)
    (hpc : (s.workers k).pc = .call a) (hjob : (s.workers k).job = some j) (j' : Job) :
    s'.Unsent j' ↔ s.Unsent j' ∧ j' ≠ j := by
  have hpending : (s.workers k).pending = some j := (Worker.pending_of_call hpc).trans hjob
  have hfinish : (s.workers k).finish.pending = none := rfl
  constructor
  · rintro ⟨k', hk'⟩
    rw [hworkers] at hk'
    by_cases hk : k' = k
    · rw [hk, Function.update_self, hfinish] at hk'
      cases hk'
    · rw [Function.update_of_ne hk] at hk'
      refine ⟨⟨k', hk'⟩, ?_⟩
      rintro rfl
      exact hk (h.unique k' k j' (Worker.active_of_pending hk') (Worker.active_of_pending hpending))
  · rintro ⟨⟨k', hk'⟩, hne⟩
    refine ⟨k', ?_⟩
    rw [hworkers, Function.update_of_ne]
    · exact hk'
    · rintro rfl
      rw [hpending] at hk'
      exact hne (Option.some.inj hk').symm

theorem WorkerStep.ticks {k : Fin threadCount} (hj : s.Jobs) (h : s.Ticks)
    (hst : s.WorkerStep k s') : s'.Ticks := by
  -- what the other workers have assembled stays as it is
  have hother : ∀ w : RelayThread, s'.workers = Function.update s.workers k w →
      s'.threads = s.threads → (∀ a j, w.pc = .call (some a) → w.job = some j →
        ∃ c, s.jobConnection j = some c ∧ s.jobAssemble j c = some a) →
      ∀ k' a j, (s'.workers k').pc = .call (some a) → (s'.workers k').job = some j →
        ∃ c, s'.jobConnection j = some c ∧ s'.jobAssemble j c = some a := by
    intro w hworkers hth hw k' a j hpc hjob
    simp only [jobConnection, jobAssemble, hth]
    rw [hworkers] at hpc hjob
    by_cases hk : k' = k
    · rw [hk, Function.update_self] at hpc hjob
      exact hw a j hpc hjob
    · rw [Function.update_of_ne hk] at hpc hjob
      exact h.assembled k' a j hpc hjob
  have hkeep : s'.threads = s.threads → s'.log = s.log → (∀ j, s'.Unsent j ↔ s.Unsent j) →
      ∀ t, (s'.threads t).Logged t s'.log s'.Unsent := by
    intro hth hlog hun t
    rw [hth, hlog]
    exact (h.logged t).congr_unsent fun j _ => hun j
  cases hst with
  | advance w hw =>
    refine ⟨hkeep rfl rfl (unsent_of_worker rfl ((hj.wf k).pending_advance hw)), h.spawned,
      hother w rfl rfl fun a j hpc _ => ?_⟩
    cases Worker.locals_advance hw hpc
  | assemble j c bytes hpc hjob hc hbytes =>
    refine ⟨hkeep rfl rfl (unsent_of_worker rfl (Worker.pending_of_call hpc).symm), h.spawned,
      hother _ rfl rfl fun a j' hpc' hjob' => ?_⟩
    cases hpc'
    obtain rfl : j = j' := Option.some.inj (hjob.symm.trans hjob')
    exact ⟨c, hc, by simp [jobAssemble, hbytes]⟩
  | send j c a hpc hjob hc =>
    obtain ⟨htick, -, hindex⟩ := hj.running k j ((Worker.active_of_call hpc).trans hjob)
    have hun : ∀ j', ((s.jobSend j c a).withWorker k (s.workers k).finish).Unsent j' ↔
        s.Unsent j' ∧ j' ≠ j := unsent_of_send hj rfl hpc hjob
    have hthread : (LogEntry.sent j c (s.threads j.thread).room a.bytes a.parts
        (decide (c.handle ∈ s.sessions))).thread = some j.thread := rfl
    refine ⟨fun t => ?_, fun e he t ht => ?_, hother _ rfl rfl fun a j' hpc' _ => by cases hpc'⟩
    · by_cases hjt : j.thread = t
      · subst hjt
        exact (h.logged j.thread).send htick hindex hun
      · refine ((h.logged t).other ?_).congr_unsent fun j' hj' => ?_
        · rw [hthread]
          exact fun he => hjt (Option.some.inj he)
        · rw [hun]
          exact and_iff_left fun he => hjt (he ▸ hj')
    · rcases List.mem_append.1 he with he | he
      · exact h.spawned e he t ht
      · obtain rfl := List.mem_singleton.1 he
        obtain rfl : j.thread = t := Option.some.inj ht
        obtain ⟨room, batch, hm⟩ : ∃ room batch, .took j.thread (s.threads j.thread).tick room batch
            ∈ s.log := by
          refine ⟨_, _, (h.logged j.thread).took ?_⟩
          by_contra hout
          exact not_running_of_outside hout
            (hj.running k j ((Worker.active_of_call hpc).trans hjob))
        exact h.spawned _ hm _ rfl
  | done j hpc hjob =>
    refine ⟨hkeep rfl rfl (unsent_of_worker rfl ?_), h.spawned,
      hother _ rfl rfl fun a j' hpc' _ => by cases hpc'⟩
    rw [Worker.pending_of_done hpc]
    rfl

/-! ### The relay thread -/

theorem RelayStep.log (hst : s.RelayStep s') :
    s'.log = s.log ∨ ∃ e, s'.log = s.log ++ [e] ∧ e.thread = none := by
  cases hst with
  | claimIdentifier | erasePackets | unknownKey | getRoom | appendPacket => exact .inr ⟨_, rfl, rfl⟩
  | _ => exact .inl rfl

theorem RelayStep.ticks (hj : s.Jobs) (hs : s.Spawned) (h : s.Ticks) (hst : s.RelayStep s') :
    s'.Ticks := by
  obtain ⟨hworkers, -⟩ := hst.workers
  have hun : s'.Unsent = s.Unsent := by
    funext j
    rw [Unsent, hworkers, Unsent]
  -- the log says the same about all threads
  have hlogged : ∀ (t : ℕ) (th : RoomThread), th.Logged t s.log s.Unsent →
      th.Logged t s'.log s'.Unsent := by
    intro t th hl
    rw [hun]
    rcases hst.log with hlog | ⟨e, hlog, he⟩
    · rwa [hlog]
    · rw [hlog]
      exact hl.other (by simp [he])
  have hspawned : ∀ e ∈ s'.log, ∀ t, e.thread = some t → t < s.spawned := by
    intro e he t ht
    rcases hst.log with hlog | ⟨e', hlog, he'⟩
    · exact h.spawned e (hlog ▸ he) t ht
    · rw [hlog, List.mem_append, List.mem_singleton] at he
      rcases he with he | rfl
      · exact h.spawned e he t ht
      · rw [he'] at ht
        cases ht
  -- a thread that has jobs stays as it is
  have hassembled : (∀ t, (s.threads t).pc.InTick → s'.threads t = s.threads t) →
      ∀ k a j, (s'.workers k).pc = .call (some a) → (s'.workers k).job = some j →
        ∃ c, s'.jobConnection j = some c ∧ s'.jobAssemble j c = some a := by
    intro hth k a j hpc hjob
    rw [hworkers] at hpc hjob
    have hin : (s.threads j.thread).pc.InTick := by
      by_contra hout
      exact not_running_of_outside hout (hj.running k j ((Worker.active_of_call hpc).trans hjob))
    simp only [jobConnection, jobAssemble, hth _ hin]
    exact h.assembled k a j hpc hjob
  rcases hst.threads with ⟨hth, -, hsp⟩ | ⟨t, hfin, hsp, hth⟩ | ⟨room, hsp, hth⟩
  · exact ⟨fun t => hth ▸ hlogged t _ (h.logged t), hsp ▸ hspawned,
      hassembled fun t _ => by rw [hth]⟩
  · refine ⟨fun t' => ?_, hsp ▸ hspawned, hassembled fun t' hin => ?_⟩
    · rw [hth]
      by_cases ht : t' = t
      · subst ht
        rw [Function.update_self]
        exact hlogged _ _ ((h.logged t').outside (by simp [hfin, RoomPc.InTick]) (fun hin => hin)
          rfl rfl rfl)
      · rw [Function.update_of_ne ht]
        exact hlogged _ _ (h.logged t')
    · rw [hth, Function.update_of_ne]
      rintro rfl
      simp [hfin, RoomPc.InTick] at hin
  · refine ⟨fun t' => ?_, fun e he t' ht' => ?_, hassembled fun t' hin => ?_⟩
    · rw [hth]
      by_cases ht : t' = s.spawned
      · subst ht
        rw [Function.update_self]
        refine hlogged _ _ (.start room fun e he heq => ?_)
        exact Nat.lt_irrefl _ (h.spawned e he _ heq)
      · rw [Function.update_of_ne ht]
        exact hlogged _ _ (h.logged t')
    · rw [hsp]
      exact Nat.lt_succ_of_lt (hspawned e he t' ht')
    · rw [hth, Function.update_of_ne]
      rintro rfl
      simp [hs _ le_rfl, RoomPc.InTick] at hin

theorem Ticks.congr (h : s.Ticks) (hth : s'.threads = s.threads) (hworkers : s'.workers = s.workers)
    (hlog : s'.log = s.log) (hspawned : s'.spawned = s.spawned) : s'.Ticks := by
  have hun : s'.Unsent = s.Unsent := by
    funext j
    rw [Unsent, hworkers, Unsent]
  obtain ⟨h1, h2, h3⟩ := h
  refine ⟨by rwa [hth, hlog, hun], by rwa [hlog, hspawned], ?_⟩
  simpa only [hworkers, jobConnection, jobAssemble, hth] using h3

theorem ticks_of_reachable (h : (relaySystem keys).Reachable s) : s.Ticks := by
  refine System.invariant h ticks_init (fun u o hu => hu.congr rfl rfl rfl rfl) ?_
    (fun u u' hr hu hst => hst.ticks (jobs_of_reachable hr) (spawned_of_reachable hr) hu)
    (fun u t u' hr hu _ hst => hst.ticks (jobs_of_reachable hr) (spawned_of_reachable hr) hu)
    (fun u k u' hr hu hst => hst.ticks (jobs_of_reachable hr) hu)
  intro u u' _ hu hst
  obtain ⟨hworkers, -, hlog⟩ := hst.workers
  exact hu.congr hst.threads.1 hworkers hlog hst.threads.2.1

end System

end MoonJamRelay
