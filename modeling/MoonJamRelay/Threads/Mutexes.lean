import MoonJamRelay.Threads.Inversion

/-!
# The mutexes of the relay

The owners of the mutexes are as the program points say, in every reachable state.  With that,
invariants need not look at the owners: `System.invariant` is the induction rule all later results
use.  In its case for a room thread the relay thread is known not to be in a scope of the mutex
that the section of the room thread is under.

* `System.Spawned` : a thread that was not started is at `joined`.
* `described_of_reachable` : the owners agree with the program points.
* `System.invariant` : the induction rule.
-/

namespace MoonJamRelay

variable {keys : KeyManager} {s s' : System}

@[simp] theorem Request.held_checkSize (r : Request) : r.checkSize.held = [] := by
  unfold checkSize
  split_ifs <;> rfl

namespace System

/-- Threads that were not started yet are no threads. -/
def Spawned (s : System) : Prop := ∀ t, s.spawned ≤ t → (s.threads t).pc = .joined

/-- What the sections of the relay thread do to the room threads: nothing, join one that has
finished, or start a new one. -/
theorem RelayStep.threads (h : s.RelayStep s') :
    (s'.threads = s.threads ∧ s'.roomThreads = s.roomThreads ∧ s'.spawned = s.spawned) ∨
    (∃ t, (s.threads t).pc = .finished ∧ s'.spawned = s.spawned ∧
      s'.threads = Function.update s.threads t { s.threads t with pc := .joined }) ∨
    (∃ room, s'.spawned = s.spawned + 1 ∧
      s'.threads = Function.update s.threads s.spawned (.start room)) := by
  cases h with
  | join r room rest t hpc hl hfin => exact .inr (.inl ⟨t, hfin, rfl, rfl⟩)
  | startThread r => exact .inr (.inr ⟨r.room, rfl, rfl⟩)
  | _ => exact .inl ⟨rfl, rfl, rfl⟩

theorem RelayStep.owner (h : s.RelayStep s') : s'.owner = s.owner := by cases h <;> rfl

/-- A section of a room thread changes only its own thread object, which is one. -/
theorem RoomStep.threads {t : ℕ} (h : s.RoomStep t s') :
    (s.threads t).pc ≠ .joined ∧ s'.spawned = s.spawned ∧ s'.roomThreads = s.roomThreads ∧
      s'.relayPc = s.relayPc ∧ s'.owner = s.owner ∧
      ∀ t', t' ≠ t → s'.threads t' = s.threads t' := by
  refine ⟨fun hj => ?_, ?_⟩
  · cases h <;> simp_all
  · cases h <;> exact ⟨rfl, rfl, rfl, rfl, fun t' ht => Function.update_of_ne ht _ _⟩

theorem WorkerStep.threads {k : Fin threadCount} (h : s.WorkerStep k s') :
    s'.threads = s.threads ∧ s'.spawned = s.spawned ∧ s'.roomThreads = s.roomThreads ∧
      s'.relayPc = s.relayPc ∧ s'.owner = s.owner ∧ s'.completedThreads = s.completedThreads ∧
      s'.server = s.server := by
  cases h <;> exact ⟨rfl, rfl, rfl, rfl, rfl, rfl, rfl⟩

theorem CallStep.threads (h : s.CallStep s') :
    s'.threads = s.threads ∧ s'.spawned = s.spawned ∧ s'.roomThreads = s.roomThreads ∧
      s'.owner = s.owner ∧ s'.completedThreads = s.completedThreads ∧ s'.server = s.server := by
  cases h <;> exact ⟨rfl, rfl, rfl, rfl, rfl, rfl⟩

/-! ### Threads that were not started -/

theorem RelayStep.spawned (h : s.RelayStep s') (hs : s.Spawned) : s'.Spawned := by
  intro t ht
  rcases h.threads with ⟨hth, -, hsp⟩ | ⟨t', -, hsp, hth⟩ | ⟨room, hsp, hth⟩
  · rw [hth]
    exact hs t (hsp ▸ ht)
  · rw [hth, Function.update_apply]
    split_ifs
    · rfl
    · exact hs t (hsp ▸ ht)
  · rw [hth, Function.update_of_ne (by omega)]
    exact hs t (by omega)

theorem Step.spawned {l : Label} (h : s.Step l s') (hs : s.Spawned) : s'.Spawned := by
  cases h with
  | call _ h =>
    obtain ⟨hth, hsp, -⟩ := h.threads
    intro t ht
    rw [hth]
    exact hs t (hsp ▸ ht)
  | acquire => exact hs
  | relay h => exact h.spawned hs
  | room t h =>
    obtain ⟨hne, hsp, -, -, -, hth⟩ := h.threads
    intro t' ht'
    have hlive : t' ≠ t := by
      rintro rfl
      exact hne (hs _ (hsp ▸ ht'))
    exact (congrArg RoomThread.pc (hth t' hlive)).trans (hs t' (hsp ▸ ht'))
  | worker k h =>
    obtain ⟨hth, hsp, -⟩ := h.threads
    intro t ht
    rw [hth]
    exact hs t (hsp ▸ ht)

theorem spawned_of_reachable (h : (relaySystem keys).Reachable s) : s.Spawned :=
  h.invariant (fun _ _ => rfl) fun _ _ _ _ hs hst => (next_step hst).spawned hs

/-! ### The owners -/

/-- The relay thread enters a scope only with the mutex of the section it runs. -/
theorem RelayStep.held (h : s.RelayStep s') {m : Mutex} (hm : m ∈ s'.relayPc.held) :
    m ∈ s.relayPc.held ∨ s.relayPc.wants = some m := by
  cases h with
  | goto pc hg =>
    change m ∈ pc.held at hm
    cases hg with
    | hasRoom r | oldRoom r | oldThread r => simp at hm
    | cleanUp r hpc =>
      simp only [RelayPc.held, List.mem_cons, List.not_mem_nil, or_false] at hm
      rw [hpc]
      rcases hm with rfl | rfl
      · exact .inl List.mem_cons_self
      · exact .inr rfl
    | _ _ => simp_all [RelayPc.held, RelayPc.wants]
  | getRoom handle message identifier r pc hpc hr hne hcase =>
    rcases hcase with ⟨rfl, -⟩ | ⟨rfl, -⟩ <;> simp [System.goto, RelayPc.held] at hm
  | startThread r => simp at hm
  | _ => simp_all [System.goto, System.refuse, RelayPc.held, RelayPc.wants]

theorem RelayStep.wants (h : s.RelayStep s') (hs : s.Spawned) {t : ℕ} {m : Mutex}
    (hm : (s.threads t).pc.wants = some m) : (s'.threads t).pc.wants = some m := by
  rcases h.threads with ⟨hth, -⟩ | ⟨t', hfin, -, hth⟩ | ⟨room, -, hth⟩
  · rwa [hth]
  · rw [hth, Function.update_of_ne]
    · exact hm
    · rintro rfl
      simp [hfin, RoomPc.wants] at hm
  · rw [hth, Function.update_of_ne]
    · exact hm
    · rintro rfl
      simp [hs _ le_rfl, RoomPc.wants] at hm

/-- A call starts from a program point where the relay thread has no mutex. -/
theorem CallStep.held (h : s.CallStep s') :
    s'.held = s.held ∧ ∀ t m, s.wants t = some m → s'.wants t = some m := by
  have hfrom : ∀ pc : RelayPc, s.relayPc = .idle → pc.held = [] →
      (s.goto pc).held = s.held ∧ ∀ t m, s.wants t = some m → (s.goto pc).wants t = some m := by
    intro pc hidle hheld
    refine ⟨funext fun t => ?_, fun t m hm => ?_⟩
    · cases t with
      | relay =>
        change pc.held = s.relayPc.held
        rw [hheld, hidle]
        rfl
      | room t | worker k => rfl
    · cases t with
      | relay => simp [System.wants, hidle, RelayPc.wants] at hm
      | room t => exact hm
      | worker k => cases hm
  cases h with
  | onOpen handle hidle => exact hfrom (.claimIdentifier handle) hidle rfl
  | onMessage handle message hidle => exact hfrom _ hidle rfl
  | onClose handle hidle => exact hfrom _ hidle rfl
  | endSession | refreshKeys => exact ⟨rfl, fun _ _ hm => hm⟩

/-- The owners are as the program points say. -/
def Described (s : System) : Prop := s.owner.Describes s.held s.wants

theorem Step.described {l : Label} (h : s.Step l s') (hs : s.Spawned) (hd : s.Described) :
    s'.Described := by
  cases h with
  | call _ h =>
    obtain ⟨hheld, hwants⟩ := h.held
    unfold Described
    rw [h.threads.2.2.2.1, hheld]
    exact hd.mono hwants
  | acquire l t m hfree hw => exact Locks.Describes.acquire hd hfree hw
  | relay h howner =>
    rename_i s₁
    change (s₁.owner.keep .relay (s₁.held .relay)).Describes s₁.held s₁.wants
    rw [h.owner]
    refine hd.keep ?_ ?_
    · intro m hm
      rcases h.held hm with hm | hm
      · exact hd.scope .relay m hm
      · exact howner m hm
    · intro t ht
      cases t with
      | relay => exact absurd rfl ht
      | room t => exact ⟨rfl, fun m hm => h.wants hs hm⟩
      | worker k => exact ⟨rfl, fun m hm => by cases hm⟩
  | room t h howner =>
    rename_i s₁
    obtain ⟨-, -, -, hpc, hown, hth⟩ := h.threads
    have hheld : s₁.held = s.held := funext fun t' => by
      cases t' with
      | relay => exact congrArg RelayPc.held hpc
      | room t' | worker k => rfl
    change (s₁.owner.keep (.room t) (s.held (.room t))).Describes s₁.held s₁.wants
    rw [hown, hheld]
    refine hd.keep ?_ ?_
    · exact fun m hm => absurd hm List.not_mem_nil
    · intro t' ht
      refine ⟨rfl, fun m hm => ?_⟩
      cases t' with
      | relay => exact (congrArg RelayPc.wants hpc).trans hm
      | room t' =>
        have hne : t' ≠ t := fun he => ht (he ▸ rfl)
        exact (congrArg (fun thread => thread.pc.wants) (hth t' hne)).trans hm
      | worker k => cases hm
  | worker k h =>
    obtain ⟨hth, -, -, hpc, hown, -⟩ := h.threads
    have hheld : s'.held = s.held := funext fun t' => by
      cases t' with
      | relay => exact congrArg RelayPc.held hpc
      | room t' | worker k => rfl
    unfold Described
    rw [hown, hheld]
    refine hd.mono fun t m hm => ?_
    cases t with
    | relay => exact (congrArg RelayPc.wants hpc).trans hm
    | room t => exact (congrArg (fun threads => (threads t).pc.wants) hth).trans hm
    | worker k => cases hm

theorem described_init : (System.init keys).Described := by
  refine ⟨fun t m hm => ?_, fun m t ho => by cases ho⟩
  cases t <;> cases hm

theorem described_of_reachable (h : (relaySystem keys).Reachable s) : s.Described :=
  h.invariant described_init fun _ _ _ hr hd hst =>
    (next_step hst).described (spawned_of_reachable hr) hd

/-- While the relay thread is in a scope of a mutex, no room thread runs a section under it. -/
theorem Described.not_mem_held (hd : s.Described) {t : ℕ} {m : Mutex}
    (howner : s.owner m = some (.room t)) : m ∉ s.relayPc.held := fun hm => by
  have hrelay := hd.scope .relay m hm
  rw [howner] at hrelay
  cases hrelay

/-! ### The induction rule -/

/-- The induction rule for invariants that do not read the owners of the mutexes. -/
theorem invariant {I : System → Prop} (hs : (relaySystem keys).Reachable s)
    (hinit : I (.init keys)) (howner : ∀ u o, I u → I { u with owner := o })
    (hcall : ∀ u u', (relaySystem keys).Reachable u → I u → u.CallStep u' → I u')
    (hrelay : ∀ u u', (relaySystem keys).Reachable u → I u → u.RelayStep u' → I u')
    (hroom : ∀ u t u', (relaySystem keys).Reachable u → I u →
      (∀ m, (u.threads t).pc.wants = some m → m ∉ u.relayPc.held) → u.RoomStep t u' → I u')
    (hworker : ∀ u k u', (relaySystem keys).Reachable u → I u → u.WorkerStep k u' → I u') :
    I s := by
  refine hs.invariant hinit fun u l u' hu hI hst => ?_
  cases next_step hst with
  | call l h => exact hcall u u' hu hI h
  | acquire l t m => exact howner u _ hI
  | relay h => exact howner _ _ (hrelay u _ hu hI h)
  | room t h hown =>
    refine howner _ _ (hroom u t _ hu hI (fun m hm => ?_) h)
    exact (described_of_reachable hu).not_mem_held (hown m hm)
  | worker k h => exact hworker u k u' hu hI h

end System

end MoonJamRelay
