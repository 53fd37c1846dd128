import MoonJamRelay.Threads.Mutexes

/-!
# The table of room threads

`m_roomThreads` holds the threads that were started and not joined, one for each room, and
`m_completedThreads` the rooms whose threads have reported that they are done.

* `System.RoomTable` : the invariant.  While the clean-up runs, the rooms it has passed are still in
  `m_completedThreads`, without a thread; `RelayPc.uncleaned` leaves them out.
* `roomTable_of_reachable` : the main result.  Which thread may wait for which is read off it in the
  deadlock module.
-/

namespace MoonJamRelay

/-- Outside the scope of `m_completedMutex` the clean-up has passed no room. -/
theorem RelayPc.uncleaned_of_free {pc : RelayPc} (h : Mutex.completed ∉ pc.held) (l : List Hash) :
    pc.uncleaned l = l := by
  cases pc with
  | join r rest => exact absurd (List.mem_cons_of_mem _ List.mem_cons_self) h
  | _ => rfl

namespace System

variable {keys : KeyManager} {s s' : System}

/-- The thread has reported that it is done, and was not joined. -/
def Reported (s : System) (t : ℕ) : Prop :=
  (s.threads t).pc = .returning ∨ (s.threads t).pc = .finished

/-- The completed rooms whose threads were not joined. -/
def uncleaned (s : System) : List Hash := s.relayPc.uncleaned s.completedThreads

/-- The table holds the threads that were not joined, and the completed rooms are those of the
threads that have reported. -/
structure RoomTable (s : System) : Prop where
  entry : ∀ room t, s.roomThreads.lookup room = some t →
    (s.threads t).room = room ∧ (s.threads t).pc ≠ .joined
  listed : ∀ room t, (s.threads t).room = room → (s.threads t).pc ≠ .joined →
    s.roomThreads.lookup room = some t
  nodup : s.completedThreads.Nodup
  sublist : s.uncleaned.Sublist s.completedThreads
  reported : ∀ room, room ∈ s.uncleaned ↔ ∃ t, (s.threads t).room = room ∧ s.Reported t

/-- A section of the relay thread other than an iteration of the clean-up. -/
theorem RelayStep.uncleaned (h : s.RelayStep s') :
    (s'.uncleaned = s.uncleaned ∧ (s'.completedThreads = s.completedThreads ∨
      s'.completedThreads = [] ∧ s.uncleaned = [])) ∨
    ∃ r room rest t, s.relayPc = .join r (room :: rest) ∧ s.roomThreads.lookup room = some t ∧
      (s.threads t).pc = .finished ∧ s' = { s with
        threads := Function.update s.threads t { s.threads t with pc := .joined }
        roomThreads := s.roomThreads.erase room
        relayPc := .join r rest } := by
  have hcheck : ∀ (r : Request) l, r.checkSize.uncleaned l = l := by
    intro r l
    unfold Request.checkSize
    split_ifs <;> rfl
  have hother : (∀ l, s.relayPc.uncleaned l = l) → (∀ l, s'.relayPc.uncleaned l = l) →
      s'.completedThreads = s.completedThreads → s'.uncleaned = s.uncleaned ∧
        (s'.completedThreads = s.completedThreads ∨ s'.completedThreads = [] ∧ s.uncleaned = []) :=
    fun h1 h2 hc => ⟨by rw [System.uncleaned, System.uncleaned, h1, h2, hc], .inl hc⟩
  cases h with
  | join r room rest t hpc hl hfin => exact .inr ⟨r, room, rest, t, hpc, hl, hfin, rfl⟩
  | endJoin r hpc =>
    have hnil : s.uncleaned = [] := by rw [System.uncleaned, hpc]; rfl
    exact .inl ⟨hnil.symm ▸ rfl, .inr ⟨rfl, hnil⟩⟩
  | goto pc hg =>
    cases hg with
    | hasRoom r hpc | oldRoom r hpc | oldThread r hpc =>
      exact .inl (hother (fun _ => by rw [hpc]; rfl) (hcheck r) rfl)
    | cleanUp r hpc =>
      refine .inl ⟨?_, .inl rfl⟩
      show s.completedThreads = s.relayPc.uncleaned s.completedThreads
      rw [hpc]
      rfl
    | closeIdentifier _ hpc | destroyNothing _ _ _ hpc | closePlayerCount _ _ hpc
    | noIdentifier _ _ hpc | getIdentifier _ _ hpc | newRoom _ hpc | createRoom _ hpc
    | getPlayerLimit _ hpc | playerCount _ _ hpc | countConnections _ _ hpc | noPacket _ hpc =>
      exact .inl (hother (fun _ => by rw [hpc]; rfl) (fun _ => rfl) rfl)
  | startThread r hpc => exact .inl (hother (fun _ => by rw [hpc]; rfl) (hcheck r) rfl)
  | getRoom handle message identifier r pc hpc hr hne hcase =>
    refine .inl (hother (fun _ => by rw [hpc]; rfl) (fun l => ?_) rfl)
    rcases hcase with ⟨rfl, -⟩ | ⟨rfl, -⟩ <;> rfl
  | claimIdentifier _ hpc | eraseMoon _ _ hpc | eraseLastMoon _ _ _ hpc | erasePackets _ _ _ hpc
  | eraseHandles _ _ _ hpc | removeConnection _ _ hpc | releaseIdentifier _ _ hpc
  | tooShort _ _ hpc | unknownKey _ _ _ hpc | addMoon _ hpc | noRoom _ hpc | insertPackets _ hpc
  | insertHandles _ hpc | full _ _ hpc | appendPacket _ hpc | registerHandle _ hpc =>
    exact .inl (hother (fun _ => by rw [hpc]; rfl) (fun _ => rfl) rfl)

/-- What a section of a room thread does to the thread: it keeps its room, and either reports that
it is done, or neither its report nor the completed rooms change. -/
theorem RoomStep.reported {t : ℕ} (h : s.RoomStep t s') :
    (s'.threads t).room = (s.threads t).room ∧ (s'.threads t).pc ≠ .joined ∧
    ((s'.completedThreads = s.completedThreads ∧ (s'.Reported t ↔ s.Reported t)) ∨
      (s.threads t).pc = .complete ∧ (s'.threads t).pc = .returning ∧
        s'.completedThreads = s.completedThreads ++ [(s.threads t).room]) := by
  have hkeep : ∀ th : RoomThread, s'.threads t = th → th.room = (s.threads t).room →
      th.pc ≠ .joined → s'.completedThreads = s.completedThreads →
      (th.pc = .returning ∨ th.pc = .finished ↔ s.Reported t) →
      (s'.threads t).room = (s.threads t).room ∧ (s'.threads t).pc ≠ .joined ∧
        s'.completedThreads = s.completedThreads ∧ (s'.Reported t ↔ s.Reported t) :=
    fun th hth hroom hpc hc hr => ⟨hth ▸ hroom, hth ▸ hpc, hc, by rw [System.Reported, hth, hr]⟩
  cases h with
  | complete hpc =>
    refine ⟨?_, ?_, .inr ⟨hpc, ?_, rfl⟩⟩ <;> simp [threadGoto, withThread]
  | getConnections connections hpc | run i k hpc | joinRelease i hpc =>
    obtain ⟨h1, h2, h3⟩ := hkeep _ (Function.update_self t _ _) rfl
      (by dsimp; split_ifs <;> simp) rfl (by rw [System.Reported, hpc]; dsimp; split_ifs <;> simp)
    exact ⟨h1, h2, .inl h3⟩
  | stay hpc | leave hpc | noPackets hpc | getPackets _ hpc | lockNext _ _ hpc | lock _ _ hpc
  | acquireController _ _ hpc | assign _ _ hpc | joinAcquire _ hpc | sleep hpc | returning hpc =>
    obtain ⟨h1, h2, h3⟩ := hkeep _ (Function.update_self t _ _) rfl (by simp) rfl
      (by simp [System.Reported, hpc])
    exact ⟨h1, h2, .inl h3⟩

namespace RoomTable

theorem congr (h : s.RoomTable) (hth : s'.threads = s.threads)
    (hrt : s'.roomThreads = s.roomThreads) (hun : s'.uncleaned = s.uncleaned)
    (hc : s'.completedThreads = s.completedThreads) : s'.RoomTable := by
  obtain ⟨h1, h2, h3, h4, h5⟩ := h
  refine ⟨by rwa [hth, hrt], by rwa [hth, hrt], by rwa [hc], by rwa [hun, hc], fun room => ?_⟩
  rw [hun, h5]
  simp [Reported, hth]

theorem init : (System.init keys).RoomTable := by
  refine ⟨fun _ _ h => (by cases h), fun _ t _ h => absurd rfl h, List.nodup_nil,
    List.Sublist.refl _, fun room => ⟨fun h => (by cases h), ?_⟩⟩
  rintro ⟨t, -, h | h⟩ <;> cases h

theorem unique (h : s.RoomTable) {t t' : ℕ} (ht : (s.threads t).pc ≠ .joined)
    (ht' : (s.threads t').pc ≠ .joined) (hr : (s.threads t).room = (s.threads t').room) :
    t = t' := by
  have hl := h.listed _ t hr ht
  rw [h.listed _ t' rfl ht'] at hl
  exact (Option.some.inj hl).symm

theorem ne_joined_of_reported {t : ℕ} (h : s.Reported t) : (s.threads t).pc ≠ .joined := by
  rcases h with h | h <;> simp [h]

/-- A completed room that was not cleaned up has a thread in the table, and it has reported. -/
theorem lookup (h : s.RoomTable) {room : Hash} (hr : room ∈ s.uncleaned) :
    ∃ t, s.roomThreads.lookup room = some t ∧ (s.threads t).room = room ∧ s.Reported t := by
  obtain ⟨t, rfl, ht⟩ := (h.reported room).1 hr
  exact ⟨t, h.listed _ t rfl (ne_joined_of_reported ht), rfl, ht⟩

theorem join (h : s.RoomTable) {r : Request} {room : Hash} {rest : List Hash} {t : ℕ}
    (hpc : s.relayPc = .join r (room :: rest)) (hl : s.roomThreads.lookup room = some t) :
    RoomTable { s with
      threads := Function.update s.threads t { s.threads t with pc := .joined }
      roomThreads := s.roomThreads.erase room
      relayPc := .join r rest } := by
  have hun : s.uncleaned = room :: rest := by simp [uncleaned, hpc, RelayPc.uncleaned]
  have hsub := hun ▸ h.sublist
  obtain ⟨hroom, hlive⟩ := h.entry room t hl
  have hnot : room ∉ rest := (List.nodup_cons.1 (h.nodup.sublist hsub)).1
  refine ⟨fun room' t' hl' => ?_, fun room' t' hr' ht' => ?_, h.nodup,
    (List.sublist_cons_self _ _).trans hsub, fun room' => ?_⟩
  · simp only [UnorderedMap.lookup_erase_eq] at hl'
    split_ifs at hl' with hne
    obtain ⟨hr', hlive'⟩ := h.entry room' t' hl'
    have ht : t' ≠ t := by
      rintro rfl
      exact hne (hr'.symm.trans hroom)
    simpa [Function.update_of_ne ht] using ⟨hr', hlive'⟩
  · by_cases ht : t' = t
    · subst ht
      simp at ht'
    · simp only [Function.update_of_ne ht] at hr' ht'
      rw [UnorderedMap.lookup_erase_eq, if_neg]
      · exact h.listed room' t' hr' ht'
      · exact fun he => ht (h.unique ht' hlive (hr'.trans (he.trans hroom.symm)))
  · have hrep : ∀ t', System.Reported { s with
        threads := Function.update s.threads t { s.threads t with pc := .joined }
        roomThreads := s.roomThreads.erase room
        relayPc := .join r rest } t' ↔ t' ≠ t ∧ s.Reported t' := by
      intro t'
      by_cases ht : t' = t
      · subst ht; simp [Reported]
      · simp [Reported, ht]
    have hmem : room' ∈ rest ↔ room' ∈ s.uncleaned ∧ room' ≠ room := by
      rw [hun, List.mem_cons]
      exact ⟨fun hm => ⟨.inr hm, fun he => hnot (he ▸ hm)⟩, fun hm => hm.1.resolve_left hm.2⟩
    change room' ∈ rest ↔ _
    simp only [hrep, hmem, h.reported]
    constructor
    · rintro ⟨⟨t', rfl, ht'⟩, hne⟩
      have ht : t' ≠ t := by
        rintro rfl
        exact hne hroom
      exact ⟨t', by rw [Function.update_of_ne ht], ht, ht'⟩
    · rintro ⟨t', hr', ht, ht'⟩
      rw [Function.update_of_ne ht] at hr'
      exact ⟨⟨t', hr', ht'⟩, fun he => ht (h.unique (ne_joined_of_reported ht') hlive
        (hr'.trans (he.trans hroom.symm)))⟩

theorem startThread (h : s.RoomTable) (hs : s.Spawned) {r : Request}
    (hpc : s.relayPc = .startThread r) (hr : r.room ∉ s.roomThreads) : RoomTable { s with
      threads := Function.update s.threads s.spawned (.start r.room)
      roomThreads := s.roomThreads.insert r.room s.spawned
      spawned := s.spawned + 1
      relayPc := r.checkSize } := by
  have hun : r.checkSize.uncleaned s.completedThreads = s.uncleaned := by
    rw [uncleaned, hpc]
    unfold Request.checkSize
    split_ifs <;> rfl
  have hnew : ∀ t, (s.threads t).pc ≠ .joined → t ≠ s.spawned := by
    rintro t ht rfl
    exact ht (hs _ le_rfl)
  refine ⟨fun room t hl => ?_, fun room t hroom ht => ?_, h.nodup, ?_, fun room => ?_⟩
  · simp only [UnorderedMap.lookup_insert_eq] at hl
    split_ifs at hl with hroom
    · obtain rfl := Option.some.inj hl
      simp [RoomThread.start, hroom]
    · have he := h.entry room t hl
      simpa [Function.update_of_ne (hnew t he.2)] using he
  · by_cases hts : t = s.spawned
    · subst hts
      simp only [Function.update_self, RoomThread.start] at hroom
      rw [UnorderedMap.lookup_insert_eq, if_pos hroom.symm]
    · simp only [Function.update_of_ne hts] at hroom ht
      have hl := h.listed room t hroom ht
      rw [UnorderedMap.lookup_insert_eq, if_neg]
      · exact hl
      · exact fun he => hr (he ▸ UnorderedMap.mem_of_lookup hl)
  · change (r.checkSize.uncleaned s.completedThreads).Sublist s.completedThreads
    rw [hun]
    exact h.sublist
  · refine Iff.trans (by rw [uncleaned, hun]) ((h.reported room).trans ?_)
    constructor
    · rintro ⟨t, hroom, ht⟩
      have hts := hnew t (ne_joined_of_reported ht)
      exact ⟨t, by simpa [Function.update_of_ne hts] using hroom,
        by simpa [Reported, Function.update_of_ne hts] using ht⟩
    · rintro ⟨t, hroom, ht⟩
      by_cases hts : t = s.spawned
      · subst hts
        simp [Reported, RoomThread.start] at ht
      · exact ⟨t, by simpa [Function.update_of_ne hts] using hroom,
          by simpa [Reported, Function.update_of_ne hts] using ht⟩

theorem room (h : s.RoomTable) {t : ℕ} (hst : s.RoomStep t s')
    (hlock : ∀ m, (s.threads t).pc.wants = some m → m ∉ s.relayPc.held) : s'.RoomTable := by
  obtain ⟨hlive, -, hrt, hrelay, -, hth⟩ := hst.threads
  obtain ⟨hroom, hlive', hrep⟩ := hst.reported
  have hother : ∀ t', t' ≠ t → (s'.Reported t' ↔ s.Reported t') := fun t' ht => by
    simp [Reported, hth t' ht]
  have hrooms : ∀ t', (s'.threads t').room = (s.threads t').room ∧
      ((s'.threads t').pc ≠ .joined ↔ (s.threads t').pc ≠ .joined) := by
    intro t'
    by_cases ht : t' = t
    · subst ht; exact ⟨hroom, iff_of_true hlive' hlive⟩
    · rw [hth t' ht]; exact ⟨rfl, Iff.rfl⟩
  have hentry : ∀ room t', s'.roomThreads.lookup room = some t' →
      (s'.threads t').room = room ∧ (s'.threads t').pc ≠ .joined := by
    intro room t' hl
    rw [(hrooms t').1, (hrooms t').2]
    exact h.entry room t' (hrt ▸ hl)
  have hlisted : ∀ room t', (s'.threads t').room = room → (s'.threads t').pc ≠ .joined →
      s'.roomThreads.lookup room = some t' := by
    intro room t' hr ht
    rw [hrt]
    exact h.listed room t' ((hrooms t').1 ▸ hr) ((hrooms t').2.1 ht)
  rcases hrep with ⟨hc, hrep⟩ | ⟨hpc, hpc', hc⟩
  · have hun : s'.uncleaned = s.uncleaned := by rw [uncleaned, hrelay, hc, uncleaned]
    refine ⟨hentry, hlisted, hc ▸ h.nodup, hun ▸ hc ▸ h.sublist, fun room => ?_⟩
    rw [hun, h.reported]
    refine exists_congr fun t' => ?_
    rw [(hrooms t').1]
    by_cases ht : t' = t
    · subst ht; rw [hrep]
    · rw [hother t' ht]
  · -- the thread reports: the relay thread is not cleaning up
    have hfree := hlock .completed (by rw [hpc]; rfl)
    have hun : s.uncleaned = s.completedThreads := RelayPc.uncleaned_of_free hfree _
    have hun' : s'.uncleaned = s.completedThreads ++ [(s.threads t).room] := by
      rw [uncleaned, hrelay, hc]
      exact RelayPc.uncleaned_of_free hfree _
    have hnew : (s.threads t).room ∉ s.completedThreads := by
      rw [← hun, h.reported]
      rintro ⟨t', hr, ht'⟩
      obtain rfl := h.unique (ne_joined_of_reported ht') hlive hr
      rcases ht' with ht' | ht' <;> simp [hpc] at ht'
    refine ⟨hentry, hlisted, ?_, by rw [hun', hc], fun room => ?_⟩
    · rw [hc]
      exact List.nodup_append.2 ⟨h.nodup, List.nodup_singleton _, fun a ha b hb he =>
        hnew (List.mem_singleton.1 hb ▸ he ▸ ha)⟩
    · rw [hun', List.mem_append, List.mem_singleton, ← hun, h.reported]
      constructor
      · rintro (⟨t', hr, ht'⟩ | rfl)
        · have ht : t' ≠ t := by
            rintro rfl
            rcases ht' with ht' | ht' <;> simp [hpc] at ht'
          exact ⟨t', (hrooms t').1.trans hr, (hother t' ht).2 ht'⟩
        · exact ⟨t, hroom, .inl hpc'⟩
      · rintro ⟨t', hr, ht'⟩
        by_cases ht : t' = t
        · subst ht
          exact .inr (hr.symm.trans hroom)
        · exact .inl ⟨t', (hrooms t').1 ▸ hr, (hother t' ht).1 ht'⟩

theorem relay (h : s.RoomTable) (hs : s.Spawned) (hst : s.RelayStep s') : s'.RoomTable := by
  rcases hst.uncleaned with ⟨hun, hc⟩ | ⟨r, room, rest, t, hpc, hl, -, rfl⟩
  · have hrest : s'.threads = s.threads → s'.roomThreads = s.roomThreads → s'.RoomTable := by
      intro hth hrt
      rcases hc with hc | ⟨hc, hnil⟩
      · exact h.congr hth hrt hun hc
      · obtain ⟨h1, h2, -, -, h5⟩ := h
        refine ⟨by rwa [hth, hrt], by rwa [hth, hrt], by simp [hc], by simp [hun, hnil],
          fun room => ?_⟩
        rw [hun, h5]
        simp [Reported, hth]
    cases hst with
    | join r room rest t hpc hl => exact h.join hpc hl
    | startThread r hpc hr => exact h.startThread hs hpc hr
    | _ => exact hrest rfl rfl
  · exact h.join hpc hl

end RoomTable

theorem roomTable_of_reachable (h : (relaySystem keys).Reachable s) : s.RoomTable := by
  refine System.invariant h .init (fun u o hu => hu.congr rfl rfl rfl rfl) ?_ ?_ ?_ ?_
  · intro u u' _ hu hst
    obtain ⟨hth, -, hrt, -, hc, -⟩ := hst.threads
    refine hu.congr hth hrt ?_ hc
    cases hst <;> simp_all [uncleaned, RelayPc.uncleaned, goto]
  · exact fun u u' hr hu hst => hu.relay (spawned_of_reachable hr) hst
  · exact fun u t u' _ hu hlock hst => hu.room hst hlock
  · intro u k u' _ hu hst
    obtain ⟨hth, -, hrt, hpc, -, hc, -⟩ := hst.threads
    exact hu.congr hth hrt (by rw [uncleaned, hpc, hc, uncleaned]) hc

end System

end MoonJamRelay
