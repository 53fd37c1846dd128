import MoonJamRelay.Threads.RoomTable

/-!
# Deadlocks, and the safety of the thread table

The relay thread is the only one that locks a mutex inside the scope of another one, and the only
one that joins room threads; it joins a room thread only after the thread has reported, and then the
thread locks nothing any more.  So no threads wait for each other in a cycle.

* `System.Joins` : the joins that wait, of room threads and of jobs.
* `System.WaitsFor` : a thread waits for the owner of a mutex or in a join.
* `roomThreads_safe` : the table of room threads is safe, and there is no deadlock.
-/

namespace MoonJamRelay

namespace System

variable {keys : KeyManager} {s s' : System}

/-- The joins that wait: the clean-up joins a thread that has not finished, a room thread joins a
job whose controller is locked. -/
def Joins (s : System) : ThreadId → ThreadId → Prop
  | .relay, .room t => ∃ r room rest, s.relayPc = .join r (room :: rest) ∧
      s.roomThreads.lookup room = some t ∧ (s.threads t).pc ≠ .finished
  | .room t, .worker k => ∃ i, (s.threads t).pc = .joinAcquire i ∧
      s.controllers (s.job t i) = true ∧ (s.workers k).active = some (s.job t i)
  | _, _ => False

/-- A thread waits for the owner of the mutex it wants, or in a join. -/
def WaitsFor (s : System) : ThreadId → ThreadId → Prop := s.owner.WaitsFor s.wants s.Joins

/-- A completed room that the clean-up has not passed. -/
theorem mem_uncleaned {room : Hash} (hr : room ∈ s.completedThreads)
    (hpassed : ∀ r rest, s.relayPc = .join r rest → room ∈ rest) : room ∈ s.uncleaned := by
  unfold uncleaned RelayPc.uncleaned
  split
  · rename_i r rest hpc
    exact hpassed r rest hpc
  · exact hr

/-- How far a thread is from one that waits for nothing. -/
def waitRank (s : System) : ThreadId → ℕ
  | .relay => 1
  | .room t =>
    match (s.threads t).pc with
    | .hasRoom | .getPackets | .getConnections | .complete => 2
    | .joinAcquire _ => 1
    | _ => 0
  | .worker _ => 0

theorem waitRank_of_wants {t : ℕ} {m : Mutex} (h : s.wants (.room t) = some m) :
    s.waitRank (.room t) = 2 := by
  simp only [wants] at h
  unfold waitRank
  cases hpc : (s.threads t).pc <;> simp_all [RoomPc.wants]

theorem wants_of_joins {t t' : ThreadId} (h : s.Joins t t') : s.wants t = none := by
  cases t <;> cases t' <;> simp only [Joins] at h
  · obtain ⟨r, room, rest, hpc, -⟩ := h
    simp [wants, hpc, RelayPc.wants]
  · obtain ⟨i, hpc, -⟩ := h
    simp [wants, hpc, RoomPc.wants]

theorem not_mem_held_of_wants {t : ThreadId} {m : Mutex} (h : s.wants t = some m) :
    m ∉ s.held t := by
  cases t with
  | relay =>
    simp only [wants] at h
    simp only [held]
    cases hpc : s.relayPc <;> simp_all [RelayPc.wants, RelayPc.held] <;> simp [← h]
  | room t | worker k => exact List.not_mem_nil

/-- A join ends at a thread that waits for nothing. -/
theorem waitRank_joins (h : s.RoomTable) {t t' : ThreadId} (hj : s.Joins t t') :
    s.waitRank t' < s.waitRank t := by
  cases t <;> cases t' <;> simp only [Joins] at hj
  · obtain ⟨r, room, rest, hpc, hl, hne⟩ := hj
    -- the thread has reported, so it is at its very end
    have hmem : room ∈ s.uncleaned := by simp [uncleaned, hpc, RelayPc.uncleaned]
    obtain ⟨t', hl', -, hrep⟩ := h.lookup hmem
    obtain rfl := Option.some.inj (hl.symm.trans hl')
    simp [waitRank, hrep.resolve_right hne]
  · obtain ⟨i, hpc, -⟩ := hj
    simp [waitRank, hpc]

/-- **No deadlock.** -/
theorem not_waitsFor_cycle (hd : s.Described) (h : s.RoomTable) (t : ThreadId) :
    ¬ Relation.TransGen s.WaitsFor t t := by
  refine hd.acyclic (fun _ _ hj => wants_of_joins hj) s.waitRank ?_
    (fun _ _ hj => waitRank_joins h hj) t
  -- only the relay thread is ever in a scope
  intro t t' m hne hw hm
  cases t' with
  | relay =>
    cases t with
    | relay => exact absurd rfl hne
    | room t => rw [waitRank_of_wants hw]; exact Nat.lt_succ_self 1
    | worker k => cases hw
  | room t' | worker k => cases hm

/-- A step keeps every entry of the table, unless it joins the thread, which has finished. -/
theorem lookup_next {l : Label} (hst : s.Step l s') {room : Hash} {t : ℕ}
    (hl : s.roomThreads.lookup room = some t) :
    s'.roomThreads.lookup room = some t ∨
      (s.threads t).pc = .finished ∧ (s'.threads t).pc = .joined := by
  cases hst with
  | call l hst => exact .inl (hst.threads.2.2.1 ▸ hl)
  | acquire => exact .inl hl
  | room t' hst => exact .inl (hst.threads.2.2.1 ▸ hl)
  | worker k hst => exact .inl (hst.threads.2.2.1 ▸ hl)
  | relay hst =>
    cases hst with
    | join r room' rest t' hpc hl' hfin =>
      by_cases hr : room = room'
      · subst hr
        obtain rfl := Option.some.inj (hl.symm.trans hl')
        exact .inr ⟨hfin, by simp [unlock]⟩
      · refine .inl ((UnorderedMap.lookup_erase_eq _ _ _).trans ?_)
        rw [if_neg hr, hl]
    | startThread r hpc hr =>
      refine .inl ((UnorderedMap.lookup_insert_eq _ _ _ _).trans ?_)
      rw [if_neg, hl]
      rintro rfl
      exact hr (UnorderedMap.mem_of_lookup hl)
    | _ => exact .inl hl

end System

/-- **The table of room threads is safe**, in every reachable state: no room has two threads that
were started and not joined; no completed room is listed twice, and unless the clean-up has passed
it its thread is in the table and has reported; so the clean-up always finds a thread that has
reported; a step removes or replaces a thread object only by joining the finished thread.  No thread
locks a mutex of a scope it is in, and the threads do not wait for each other in a cycle. -/
theorem roomThreads_safe {keys : KeyManager} {s : System} (h : (relaySystem keys).Reachable s) :
    (∀ t t', (s.threads t).pc ≠ .joined → (s.threads t').pc ≠ .joined →
      (s.threads t).room = (s.threads t').room → t = t') ∧
    s.completedThreads.Nodup ∧
    (∀ room ∈ s.completedThreads, (∀ r rest, s.relayPc = .join r rest → room ∈ rest) →
      ∃ t, s.roomThreads.lookup room = some t ∧ (s.threads t).room = room ∧ s.Reported t) ∧
    (∀ r room rest, s.relayPc = .join r (room :: rest) →
      ∃ t, s.roomThreads.lookup room = some t ∧ (s.threads t).room = room ∧ s.Reported t) ∧
    (∀ l s', (relaySystem keys).next s l = some s' → ∀ room t,
      s.roomThreads.lookup room = some t → s'.roomThreads.lookup room = some t ∨
        (s.threads t).pc = .finished ∧ (s'.threads t).pc = .joined) ∧
    (∀ t m, s.wants t = some m → m ∉ s.held t) ∧
    ∀ t, ¬ Relation.TransGen s.WaitsFor t t := by
  have htable := System.roomTable_of_reachable h
  refine ⟨fun t t' ht ht' hr => htable.unique ht ht' hr, htable.nodup,
    fun room hr hpassed => htable.lookup (System.mem_uncleaned hr hpassed),
    fun r room rest hpc => htable.lookup ?_,
    fun l s' hst room t hl => System.lookup_next (System.next_step hst) hl,
    fun t m hw => System.not_mem_held_of_wants hw,
    System.not_waitsFor_cycle (System.described_of_reachable h) htable⟩
  simp [System.uncleaned, hpc, RelayPc.uncleaned]

/-- The thread of the room of the first moon client, after its first message. -/
theorem roomThreads_safe_of_start : ∃ s, (relaySystem moonTable).Reachable s ∧
    s.roomThreads.lookup moonKey = some 0 ∧ s.wants (.room 0) = some .packet ∧
    ∀ t, ¬ Relation.TransGen s.WaitsFor t t := by
  have hrun : ((relaySystem moonTable).run (.init moonTable) startLabels).any
      (fun s => decide (s.roomThreads.lookup moonKey = some 0 ∧
        s.wants (.room 0) = some .packet)) = true := by decide +kernel
  obtain ⟨s, hs, hp⟩ := (Option.any_eq_true _ _).1 hrun
  have hreach : (relaySystem moonTable).Reachable s := .of_run hs
  obtain ⟨hl, hw⟩ := of_decide_eq_true hp
  exact ⟨s, hreach, hl, hw, (roomThreads_safe hreach).2.2.2.2.2.2⟩

end MoonJamRelay
