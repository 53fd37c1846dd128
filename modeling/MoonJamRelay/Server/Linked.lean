import MoonJamRelay.Server.Step
import MoonJamRelay.Threads.Broadcast

/-!
# The relay and its connections agree

Each half was modelled with assumptions about the other: the relay is called only for connections
that it knows, and a connection is closed by the relay only in its message handler. Together they
meet them.

* `Server.Linked` : what relates the two states.
* `senders_eq_none` : between the ticks of the rooms no worker is in a `send` of a connection.
* `halves_fit` : the sessions of the relay are the connections whose state is open, and neither half
  ever makes the other wait.
-/

namespace MoonJamRelay

open Websocket (Connection Callback)

namespace System

variable {s s' : System} {t : ℕ}

theorem RoomStep.busy (hjobs : s.Jobs) (hst : s.RoomStep t s') {w : Fin threadCount}
    (hpc : (s.workers w).pc ≠ .awaitRun) : s'.workers w = s.workers w := by
  have hupdate : ∀ w' x, (s.workers w').pc = .awaitRun →
      Function.update s.workers w' x w = s.workers w := by
    intro w' x hw'
    rw [Function.update_of_ne]
    rintro rfl
    exact hpc hw'
  cases hst with
  | lock i w' _ hfree => exact hupdate w' _ ((hjobs.wf w').lock hfree).2.1.1
  | assign i w' he => exact hupdate w' _ (hjobs.claimed t w' (by rw [he]; rfl)).1
  | run i w' he => exact hupdate w' _ (hjobs.claimed t w' (by rw [he]; rfl)).1
  | _ => rfl

end System

namespace Server

variable {keys : KeyManager} {s s' : System} {cs cs' : Connections} {handle : ConnectionHdl}
  {c c' : Connection}

/-- What relates the relay to its connections. -/
structure Linked (s : System) (cs : Connections) : Prop where
  /-- Nothing has happened at the other handles. -/
  fresh : ∀ h, h ∉ s.opened → cs h = .new
  connected : ∀ h ∈ s.connected, h ∈ s.opened
  entering : ∀ h, s.relayPc = .claimIdentifier h → h ∈ s.sessions
  sessions : ∀ h ∈ s.opened, (h ∈ s.sessions ↔ (cs h).state = .opened)
  /-- The relay has not forgotten a connection whose close handler was not called. -/
  left : ∀ h ∈ s.opened, h ∉ s.connected → .closed ∈ (cs h).callbacks
  ending : ∀ h, s.relayPc.ending = some h → .closed ∈ (cs h).callbacks
  /-- A message is handled in the message handler of its connection. -/
  handler : ∀ x, s.relayPc.message = some x →
    (cs x.1).state = .opened ∧ (cs x.1).io.head? = some .handler

namespace Linked

theorem init : Linked (.init keys) fun _ => .new where
  fresh _ _ := rfl
  connected _ h := nomatch h
  entering _ h := nomatch h
  sessions _ h := nomatch h
  left _ h := nomatch h
  ending _ h := nomatch h
  handler _ h := nomatch h

theorem update (h : Linked s cs) (hopened' : s'.opened = s.opened)
    (hconnected : s'.connected = s.connected) (hopened : handle ∈ s.opened)
    (hcalls : ∀ x ∈ (cs handle).callbacks, x ∈ c.callbacks)
    (hentering : ∀ g, s'.relayPc = .claimIdentifier g → g ∈ s'.sessions)
    (hself : handle ∈ s'.sessions ↔ c.state = .opened)
    (hother : ∀ g ≠ handle, (g ∈ s'.sessions ↔ g ∈ s.sessions))
    (hending : ∀ g, s'.relayPc.ending = some g → s.relayPc.ending = some g ∨
      g = handle ∧ .closed ∈ c.callbacks)
    (hmessage : ∀ x, s'.relayPc.message = some x → s.relayPc.message = some x ∧
        (x.1 = handle → (c.state = .opened ↔ (cs handle).state = .opened) ∧
          c.io = (cs handle).io) ∨
      x.1 = handle ∧ c.state = .opened ∧ c.io.head? = some .handler) :
    Linked s' (Function.update cs handle c) where
  fresh g hg := by
    rw [hopened'] at hg
    have hne : g ≠ handle := fun he => hg (he ▸ hopened)
    rw [Function.update_of_ne hne]
    exact h.fresh g hg
  connected g hg := by
    rw [hopened']
    exact h.connected g (hconnected ▸ hg)
  entering := hentering
  sessions g hg := by
    rw [hopened'] at hg
    by_cases he : g = handle
    · rw [he, Function.update_self]
      exact hself
    · rw [Function.update_of_ne he, hother g he]
      exact h.sessions g hg
  left g hg hno := by
    rw [hopened'] at hg
    rw [hconnected] at hno
    by_cases he : g = handle
    · rw [he, Function.update_self]
      exact hcalls _ (he ▸ h.left g hg hno)
    · rw [Function.update_of_ne he]
      exact h.left g hg hno
  ending g hg := by
    rcases hending g hg with hold | ⟨rfl, hclosed⟩
    · by_cases he : g = handle
      · rw [he, Function.update_self]
        exact hcalls _ (he ▸ h.ending g hold)
      · rw [Function.update_of_ne he]
        exact h.ending g hold
    · rw [Function.update_self]
      exact hclosed
  handler x hx := by
    rcases hmessage x hx with ⟨hold, hsame⟩ | ⟨he, hs, hio⟩
    · by_cases he : x.1 = handle
      · obtain ⟨hs, hio⟩ := hsame he
        have hx' := h.handler x hold
        rw [he] at hx'
        rw [he, Function.update_self, hs, hio]
        exact hx'
      · rw [Function.update_of_ne he]
        exact h.handler x hold
    · rw [he, Function.update_self]
      exact ⟨hs, hio⟩

/-- The connections and what the relay knows about them are as before. -/
theorem frame (h : Linked s cs) (hopened : s'.opened = s.opened)
    (hconnected : s'.connected = s.connected) (hsessions : s'.sessions = s.sessions)
    (hpc : s'.relayPc = s.relayPc) : Linked s' cs where
  fresh g hg := h.fresh g (hopened ▸ hg)
  connected g hg := hopened ▸ h.connected g (hconnected ▸ hg)
  entering g hg := hsessions ▸ h.entering g (hpc ▸ hg)
  sessions g hg := by
    rw [hsessions]
    exact h.sessions g (hopened ▸ hg)
  left g hg hno := h.left g (hopened ▸ hg) (hconnected ▸ hno)
  ending g hg := h.ending g (hpc ▸ hg)
  handler x hx := h.handler x (hpc ▸ hx)

theorem relay (h : Linked s cs) (hhandling : s.Handling) (hst : s.RelayStep s')
    (hsessions : s'.sessions = s.sessions) : Linked s' cs := by
  rcases hst.stays with ⟨g₀, hpc, hopened, hconnected, hidle⟩ |
    ⟨g₀, hpc, hopened, hconnected, hidle⟩ | ⟨hopened, hconnected, hstays⟩
  · have hnew : cs g₀ = .new := h.fresh g₀ (hhandling.fresh g₀ hpc).1
    refine ⟨fun g hg => ?_, fun g hg => ?_, fun g hg => ?_, fun g hg => ?_, fun g hg hno => ?_,
      fun g hg => ?_, fun x hx => ?_⟩
    · rw [hopened] at hg
      exact h.fresh g fun hm => hg (List.mem_cons_of_mem _ hm)
    · rw [hconnected] at hg
      rw [hopened]
      rcases List.mem_cons.1 hg with rfl | hg
      · exact List.mem_cons_self
      · exact List.mem_cons_of_mem _ (h.connected g hg)
    · rw [hidle] at hg
      cases hg
    · rw [hsessions]
      rw [hopened] at hg
      rcases List.mem_cons.1 hg with rfl | hg
      · rw [hnew]
        exact iff_of_true (h.entering g hpc) rfl
      · exact h.sessions g hg
    · rw [hopened] at hg
      rw [hconnected] at hno
      rcases List.mem_cons.1 hg with rfl | hg
      · exact absurd List.mem_cons_self hno
      · exact h.left g hg fun hm => hno (List.mem_cons_of_mem _ hm)
    · rw [hidle] at hg
      cases hg
    · rw [hidle] at hx
      cases hx
  · refine ⟨fun g hg => h.fresh g (hopened ▸ hg), fun g hg => ?_, fun g hg => ?_, fun g hg => ?_,
      fun g hg hno => ?_, fun g hg => ?_, fun x hx => ?_⟩
    · rw [hconnected] at hg
      rw [hopened]
      exact h.connected g (List.mem_filter.1 hg).1
    · rw [hidle] at hg
      cases hg
    · rw [hsessions]
      exact h.sessions g (hopened ▸ hg)
    · by_cases he : g = g₀
      · rw [he]
        exact h.ending g₀ hpc
      · refine h.left g (hopened ▸ hg) fun hm => hno ?_
        rw [hconnected]
        exact List.mem_filter.2 ⟨hm, by simpa using he⟩
    · rw [hidle] at hg
      cases hg
    · rw [hidle] at hx
      cases hx
  · refine ⟨fun g hg => h.fresh g (hopened ▸ hg), fun g hg => ?_,
      fun g hg => absurd hg (hstays.entering g), fun g hg => ?_, fun g hg hno => ?_,
      fun g hg => h.ending g (hstays.ending g hg), fun x hx => h.handler x (hstays.message x hx)⟩
    · exact hopened ▸ h.connected g (hconnected ▸ hg)
    · rw [hsessions]
      exact h.sessions g (hopened ▸ hg)
    · exact h.left g (hopened ▸ hg) (hconnected ▸ hno)

end Linked

theorem mem_opened_of_send (hr : (relaySystem keys).Reachable s) {k : Fin threadCount} {j : Job}
    {rc : ReceivedConnection} {a : Assembled} (hpc : (s.workers k).pc = .call (some a))
    (hjob : (s.workers k).job = some j) (hc : s.jobConnection j = some rc) :
    rc.handle ∈ s.opened := by
  have hrecorded := System.recorded_of_reachable hr
  obtain ⟨-, hl, -⟩ := System.job_of_call (System.jobs_of_reachable hr)
    (System.ticks_of_reachable hr) hpc hjob
  exact hrecorded.opened _ _ ((hrecorded.valid.listed_spec hl).2 rc (List.mem_of_getElem? hc))

theorem Step.linked (hst : Step s cs s' cs') (h : Linked s cs)
    (hr : (relaySystem keys).Reachable s) : Linked s' cs' := by
  cases hst with
  | onOpen handle hpc hfresh =>
    refine ⟨h.fresh, h.connected, fun g hg => ?_, fun g hg => ?_, h.left, fun g hg => (by cases hg),
      fun x hx => (by cases hx)⟩
    · obtain rfl := RelayPc.claimIdentifier.inj hg
      exact List.mem_cons_self
    · have hne : g ≠ handle := fun he => hfresh.1 (he ▸ hg)
      rw [← h.sessions g hg]
      exact List.mem_cons.trans (or_iff_right hne)
  | refreshKeys table => exact h.frame rfl rfl rfl rfl
  | relay hst hnone =>
    rcases hst.refusal with ⟨_, _, _, hsome, -⟩ | ⟨-, hsessions⟩
    · rw [hnone] at hsome
      cases hsome
    · exact h.relay (System.handling_of_reachable hr) hst hsessions
  | close handle reply c₁ c₂ c₃ hst hclose h₁ h₂ h₃ =>
    rcases hst.refusal with ⟨handle', message, reply', hsome, hmessage, hidle, hopened, hconnected,
      hsessions⟩ | ⟨hnone, -⟩
    · obtain ⟨rfl, rfl⟩ := Prod.mk.inj (Option.some.inj (hsome.symm.trans hclose))
      have hrunning := (System.handling_of_reachable hr).running _
        (RelayPc.handler_of_message hmessage)
      obtain ⟨hs, hcalls, -⟩ := Websocket.relayClose_run (h.handler _ hmessage).1 h₁ h₂ h₃
      refine h.update hopened hconnected (h.connected _ hrunning) (fun x hx => hcalls ▸ hx)
        (fun g hg => ?_) ?_ (fun g hne => ?_) (fun g hg => ?_) fun x hx => ?_
      · rw [hidle] at hg
        cases hg
      · rw [hsessions, hs]
        simp
      · rw [hsessions]
        simp [hne]
      · rw [hidle] at hg
        cases hg
      · rw [hidle] at hx
        cases hx
    · rw [hnone] at hclose
      cases hclose
  | room t hst =>
    obtain ⟨hconnected, hopened, -⟩ := hst.connections
    obtain ⟨-, -, -, hpc, -⟩ := hst.threads
    exact h.frame hopened hconnected hst.sessions hpc
  | worker k hst hfree hnone =>
    obtain ⟨hconnected, hopened, -⟩ := hst.connections
    obtain ⟨-, -, -, hpc, -⟩ := hst.threads
    exact h.frame hopened hconnected hst.sessions hpc
  | send k j rc a c₁ c₂ hpc hjob hc hfree h₁ h₂ =>
    have hopened := mem_opened_of_send hr hpc hjob hc
    have hsame : c₂.callbacks = (cs rc.handle).callbacks ∧ c₂.state = (cs rc.handle).state ∧
        c₂.io = (cs rc.handle).io := by
      obtain ⟨-, ⟨-, rfl⟩ | ⟨-, rfl⟩⟩ := Websocket.relaySend_run h₁ h₂ <;> exact ⟨rfl, rfl, rfl⟩
    obtain ⟨hcalls, hs, hio⟩ := hsame
    exact h.update rfl rfl hopened (fun x hx => hcalls ▸ hx) h.entering
      (hs ▸ h.sessions _ hopened) (fun _ _ => Iff.rfl) (fun _ hg => .inl hg)
      fun _ hx => .inl ⟨hx, fun _ => ⟨by rw [hs], hio⟩⟩
  | quiet handle e c hopened hnext hsent hcalls hs hio =>
    refine h.update rfl rfl hopened (fun x hx => hcalls ▸ hx) h.entering
      ((h.sessions _ hopened).trans hs.symm) (fun _ _ => Iff.rfl) (fun _ hg => .inl hg)
      fun x hx => .inl ⟨hx, fun _ => ⟨hs, ?_⟩⟩
    rcases hio with hidle | hio
    · rw [hidle] at hx
      cases hx
    · exact hio
  | endSession handle e c hopened hnext hsent hcalls hs hpc =>
    refine h.update rfl rfl hopened (fun x hx => hcalls ▸ hx) (fun g hg => ?_) (by simp [hs])
      (fun g hne => by simp [hne]) (fun g hg => .inl hg) fun x hx => ?_
    · cases hpc.symm.trans hg
    · have hx' : s.relayPc.message = some x := hx
      rw [hpc] at hx'
      cases hx'
  | message handle e c m hopened hnext hsent hcalls hs hs' hio hpc hconnected =>
    refine h.update rfl rfl hopened (fun x hx => hcalls ▸ List.mem_append_left _ hx)
      (fun g hg => (by cases hg)) (iff_of_true ((h.sessions _ hopened).2 hs) hs')
      (fun _ _ => Iff.rfl) (fun g hg => (by cases hg)) fun x hx => .inr ?_
    obtain rfl := Option.some.inj hx
    exact ⟨rfl, hs', hio⟩
  | onClose handle e c hopened hnext hsent hcalls hs hs' hpc hconnected =>
    refine h.update rfl rfl hopened (fun x hx => hcalls ▸ List.mem_append_left _ hx)
      (fun g hg => (by cases hg)) ((h.sessions _ hopened).trans (iff_of_false hs hs'))
      (fun _ _ => Iff.rfl) (fun g hg => .inr ?_) fun x hx => (by cases hx)
    obtain rfl := Option.some.inj hg
    exact ⟨rfl, hcalls ▸ List.mem_append_right _ (List.mem_singleton_self _)⟩

theorem linked_of_reachable {u : System × Connections} (h : (relayServer keys).Reachable u) :
    Linked u.1 u.2 :=
  invariant h Linked.init (fun _ _ _ h => h.frame rfl rfl rfl rfl)
    fun _ _ _ _ hr _ h hst => hst.linked h hr

/-! ### Who is in a send -/

/-- A thread that is in a `send` of the connection is a worker that has called it and has not ended
its job. -/
def Serving (s : System) (c : Connection) : Prop :=
  ∀ k, c.senders k ≠ none → ∃ (w : Fin threadCount) (j : Job), w.val = k ∧
    (s.workers w).pc = .done ∧ (s.workers w).job = some j

theorem Serving.frame (h : Serving s c) (hworkers : ∀ w : Fin threadCount, c.senders w ≠ none →
    (s.workers w).pc = .done → s'.workers w = s.workers w) : Serving s' c := by
  intro k hk
  obtain ⟨w, j, rfl, hpc, hjob⟩ := h k hk
  have hw := hworkers w hk hpc
  exact ⟨w, j, rfl, hw.symm ▸ hpc, hw.symm ▸ hjob⟩

theorem Serving.event (h : Serving s c) {ev : Websocket.Event} (hsent : ev.sent = none)
    (hnext : c.next ev = some c') : Serving s c' := fun k hk =>
  h k fun hnone => hk ((Websocket.next_step hnext).senders_eq_none hsent hnone)

theorem Serving.send (h : Serving s c) {w : Fin threadCount} {j : Job} {t : Option Websocket.Task}
    (hpc : (s.workers w).pc = .done) (hjob : (s.workers w).job = some j) :
    Serving s { c with senders := Function.update c.senders w.val t } := by
  intro k hk
  by_cases hkw : k = w.val
  · exact ⟨w, j, hkw.symm, hpc, hjob⟩
  · exact h k fun hnone => hk ((Function.update_of_ne hkw ..).trans hnone)

theorem Step.serving (hst : Step s cs s' cs') (h : ∀ g, Serving s (cs g)) (hlinked : Linked s cs)
    (hjobs : s.Jobs) : ∀ g, Serving s' (cs' g) := by
  have hsame : ∀ {cs₁ : Connections}, (∀ g, Serving s (cs₁ g)) → s'.workers = s.workers →
      ∀ g, Serving s' (cs₁ g) := fun h hworkers g => (h g).frame fun w _ _ => by rw [hworkers]
  have hupdate : ∀ {s₁ : System} {c : Connection} (handle : ConnectionHdl),
      (∀ g, Serving s₁ (cs g)) → Serving s₁ c → ∀ g, Serving s₁ (Function.update cs handle c g) :=
    fun handle h hc => (Function.forall_update_iff cs fun _ c => Serving _ c).2 ⟨hc, fun g _ => h g⟩
  cases hst with
  | onOpen | refreshKeys => exact hsame h rfl
  | relay hst => exact hsame h hst.workers.1
  | close handle reply c₁ c₂ c₃ hst hclose h₁ h₂ h₃ =>
    have hc₁ : Serving s c₁ := (h handle).event rfl h₁
    exact hsame (hupdate handle h ((hc₁.event rfl h₂).event rfl h₃)) hst.workers.1
  | room t hst =>
    exact fun g => (h g).frame fun w _ hdone => hst.busy hjobs (by simp [hdone])
  | worker w hst hfree hnone =>
    have hne : ∀ g (w' : Fin threadCount), (cs g).senders w' ≠ none → w' ≠ w := by
      rintro g w' hk rfl
      refine hfree ⟨g, ?_, hk⟩
      by_contra hno
      rw [hlinked.fresh g hno] at hk
      exact hk rfl
    cases hst with
    | send j rc a hpc hjob hcon => simp [System.sendOf, hpc, hjob, hcon] at hnone
    | _ => exact fun g => (h g).frame fun w' hk _ => Function.update_of_ne (hne g w' hk) _ _
  | send w j rc a c₁ c₂ hpc hjob hcon hfree h₁ h₂ =>
    have hold : ∀ g, Serving ((s.jobSend j rc a).withWorker w (s.workers w).finish) (cs g) := by
      refine fun g => (h g).frame fun w' _ hdone => Function.update_of_ne ?_ _ _
      rintro rfl
      cases hpc.symm.trans hdone
    obtain ⟨-, ⟨-, rfl⟩ | ⟨-, rfl⟩⟩ := Websocket.relaySend_run h₁ h₂
    · refine hupdate rc.handle hold ((hold rc.handle).send (j := j) ?_ ?_)
      · exact congrArg Worker.pc (Function.update_self w _ s.workers)
      · exact (congrArg Worker.job (Function.update_self w _ s.workers)).trans hjob
    · exact hupdate rc.handle hold (hold rc.handle)
  | quiet handle e c hopened hnext hsent => exact hupdate handle h ((h handle).event hsent hnext)
  | endSession handle e c hopened hnext hsent | message handle e c m hopened hnext hsent
  | onClose handle e c hopened hnext hsent =>
    exact hsame (hupdate handle h ((h handle).event hsent hnext)) rfl

theorem serving_of_reachable {u : System × Connections} (h : (relayServer keys).Reachable u) :
    Serving u.1 (u.2 handle) := by
  refine (invariant (I := fun s cs => Linked s cs ∧ ∀ g, Serving s (cs g)) h
    ⟨Linked.init, fun g k hk => absurd rfl hk⟩ (fun s cs o h => ⟨h.1.frame rfl rfl rfl rfl, h.2⟩)
    fun s cs s' cs' hr hc h hst => ?_).2 handle
  exact ⟨hst.linked h.1 hr, hst.serving h.2 h.1 (System.jobs_of_reachable hr)⟩

/-- Between the ticks of the rooms no thread is in a `send`. -/
theorem senders_eq_none {u : System × Connections} (h : (relayServer keys).Reachable u)
    (hrest : ∀ t, ¬ (u.1.threads t).pc.InTick) (k : ℕ) : (u.2 handle).senders k = none := by
  by_contra hk
  obtain ⟨w, j, -, hpc, hjob⟩ := serving_of_reachable h k hk
  have hactive : (u.1.workers w).active = some j := (Worker.active_of_done hpc).trans hjob
  exact (System.jobs_of_reachable h.coupled.1).not_active_of_outside (hrest j.thread) hactive rfl

/-! ### Nobody waits for the other half -/

/-- When the asio thread is free, an event of a connection can happen, and the relay accepts the
listener that is called for it. -/
theorem Linked.exists_event (h : Linked s cs) {e : Websocket.Event}
    (hc : Websocket.connection.Reachable (cs handle)) (hopened : handle ∈ s.opened)
    (hfree : Free s cs handle) (hsent : e.sent = none) (hclose : ∀ reason, e ≠ .handlerClose reason)
    (hnext : (cs handle).next e = some c) :
    ∃ s', (relayServer keys).next (s, cs) (.connection handle e) =
      some (s', Function.update cs handle c) := by
  have hrun : (Websocket.connection.family ConnectionHdl).run cs [(handle, e)] =
      some (Function.update cs handle c) := by
    rw [Machine.run_singleton]
    exact congrArg (Option.map _) hnext
  have hcouple : ∀ ls s', moves s cs (.connection handle e) = some (ls, [(handle, e)]) →
      (relaySystem keys).run s ls = some s' →
      (relayServer keys).next (s, cs) (.connection handle e) =
        some (s', Function.update cs handle c) := by
    intro ls s' hmoves hls
    simp only [relayServer, Machine.couple, hmoves, hls, hrun, Option.bind_some, Option.map_some]
  have haside : moves s cs (.connection handle e) = some ([], [(handle, e)]) → ∃ s',
      (relayServer keys).next (s, cs) (.connection handle e) =
        some (s', Function.update cs handle c) := fun hmoves => ⟨s, hcouple [] s hmoves rfl⟩
  have hasio : moves s cs (.connection handle e) =
      some (reports handle (cs handle) c, [(handle, e)]) → ∃ s',
      (relayServer keys).next (s, cs) (.connection handle e) =
        some (s', Function.update cs handle c) := by
    intro hmoves
    obtain ⟨ms, hinv, -⟩ := Websocket.readInv_of_reachable hc
    rcases reports_of_seen handle ((Websocket.next_step hnext).seen hc) with
      ⟨-, -, hreports⟩ | ⟨-, -, -, hreports⟩ | ⟨m, -, hs, -, -, hreports⟩ |
      ⟨hcalls, hs, -, hreports⟩ <;> rw [hreports] at hmoves
    · exact ⟨s, hcouple _ s hmoves rfl⟩
    · exact ⟨_, hcouple _ _ hmoves (Machine.run_singleton _ _ _)⟩
    · -- a connection that is open has not been forgotten
      have hconnected : handle ∈ s.connected := by
        by_contra hno
        have hclosed := h.left handle hopened hno
        rw [(hinv.callbacks (by simp [hs])).1] at hclosed
        simp at hclosed
      refine ⟨s.goto (.getIdentifier handle m.payload), hcouple _ _ hmoves ?_⟩
      exact (Machine.run_singleton _ _ _).trans (if_pos ⟨hfree.1, hconnected⟩)
    · -- the close handler is called once
      have hconnected : handle ∈ s.connected := by
        by_contra hno
        obtain ⟨ms', hinv', -⟩ := Websocket.readInv_of_reachable (hc.step hnext)
        have hcount := hinv'.count_closed
        have hclosed := List.count_pos_iff.2 (h.left handle hopened hno)
        rw [hcalls, List.count_append, List.count_singleton_self] at hcount
        split_ifs at hcount
        omega
      refine ⟨s.goto (.closeIdentifier handle), hcouple _ _ hmoves ?_⟩
      refine (Machine.run_singleton _ _ _).trans (if_pos ⟨hfree.1, hconnected, fun hm => hs ?_⟩)
      exact (h.sessions handle hopened).1 hm
  cases e with
  | call | handlerSend => cases hsent
  | handlerClose reason => exact absurd rfl (hclose reason)
  | sender | transmit => exact haside (if_neg (by simp [hopened]))
  | _ => exact hasio (by simp [moves, hopened, hfree, hnext])

/-- A section of the relay thread finds its connection open, in its message handler, when it calls
`close`. -/
theorem Linked.exists_relay (h : Linked s cs) (hnext : (relaySystem keys).next s .relay = some s') :
    ∃ cs', (relayServer keys).next (s, cs) (.relay .relay) = some (s', cs') ∧
      ∀ x, s.closing = some x → (cs' x.1).state = .closing := by
  have hrun : (relaySystem keys).run s [.relay] = some s' :=
    (Machine.run_singleton _ _ _).trans hnext
  cases hclosing : s.closing with
  | none =>
    refine ⟨cs, ?_, fun x hx => (by cases hx)⟩
    simp only [relayServer, Machine.couple, moves, hclosing, hrun, Option.bind_some]
    rfl
  | some x =>
    obtain ⟨handle, reply⟩ := x
    rcases relay_step hnext with ⟨hnone, -⟩ | ⟨hrefusal, s₁, o, hst, rfl⟩
    · rw [hnone] at hclosing
      cases hclosing
    · rcases hst.refusal with ⟨handle', message, reply', hsome, hmessage, -⟩ | ⟨hnone, -⟩
      · obtain ⟨rfl, rfl⟩ := Prod.mk.inj
          (Option.some.inj (hsome.symm.trans (hrefusal.symm.trans hclosing)))
        obtain ⟨hs, hio⟩ := h.handler _ hmessage
        obtain ⟨c₁, c₂, c₃, h₁, h₂, h₃⟩ := Websocket.exists_relayClose reply'.reason hs hio
        have hevents : (Websocket.connection.family ConnectionHdl).run cs
            ([.handlerClose reply'.reason, .io, .io].map fun e => (handle', e)) =
              some (Function.update cs handle' c₃) := by
          rw [Machine.family_run]
          simp only [Machine.run, Websocket.connection, h₁, h₂, h₃, Option.bind_some,
            Option.map_some]
        refine ⟨Function.update cs handle' c₃, ?_, fun x hx => ?_⟩
        · simp only [relayServer, Machine.couple, moves, hclosing, hrun, hevents, Option.bind_some,
            Option.map_some]
        · obtain rfl := Option.some.inj hx
          rw [Function.update_self]
          exact (Websocket.relayClose_run hs h₁ h₂ h₃).1
      · rw [hrefusal, hnone] at hclosing
        cases hclosing

theorem exists_worker {k : Fin threadCount} (hr : (relaySystem keys).Reachable s)
    (hfree : ¬ Sending s cs k) (hnext : (relaySystem keys).next s (.worker k) = some s') :
    ∃ cs', (relayServer keys).next (s, cs) (.relay (.worker k)) = some (s', cs') := by
  have hrun : (relaySystem keys).run s [.worker k] = some s' :=
    (Machine.run_singleton _ _ _).trans hnext
  cases hsend : s.sendOf k with
  | none =>
    refine ⟨cs, ?_⟩
    simp only [relayServer, Machine.couple, moves, hfree, if_false, hsend, hrun, Option.bind_some]
    rfl
  | some x =>
    obtain ⟨a, j, c, hpc, hj, hcon, rfl⟩ := sendOf_eq_some hsend
    have hk : (cs c.handle).senders k = none := by
      by_contra hno
      exact hfree ⟨c.handle, mem_opened_of_send hr hpc hj hcon, hno⟩
    obtain ⟨c₁, c₂, h₁, h₂⟩ := Websocket.exists_relaySend a.bytes hk
    have hevents : (Websocket.connection.family ConnectionHdl).run cs
        ([.call k a.bytes, .sender k].map fun e => (c.handle, e)) =
          some (Function.update cs c.handle c₂) := by
      rw [Machine.family_run]
      simp only [Machine.run, Websocket.connection, h₁, h₂, Option.bind_some, Option.map_some]
    refine ⟨Function.update cs c.handle c₂, ?_⟩
    simp only [relayServer, Machine.couple, moves, hfree, if_false, hsend, hrun, hevents,
      Option.bind_some, Option.map_some]

/-- What each half can rely on. -/
structure Fits (keys : KeyManager) (u : System × Connections) : Prop where
  /-- The sessions of the relay are the connections whose state is open. -/
  sessions : ∀ handle ∈ u.1.opened, (handle ∈ u.1.sessions ↔ (u.2 handle).state = .opened)
  /-- Whatever can happen at a connection can happen when the asio thread is free. -/
  connection : ∀ handle ∈ u.1.opened, Free u.1 u.2 handle → ∀ e c, e.sent = none →
    (∀ reason, e ≠ .handlerClose reason) → (u.2 handle).next e = some c →
      ∃ s', (relayServer keys).next u (.connection handle e) =
        some (s', Function.update u.2 handle c)
  /-- Whatever the relay thread can do, it can do with the connections; what it closes is
  closing. -/
  relay : ∀ s', (relaySystem keys).next u.1 .relay = some s' →
    ∃ cs', (relayServer keys).next u (.relay .relay) = some (s', cs') ∧
      ∀ x, u.1.closing = some x → (cs' x.1).state = .closing
  /-- A worker that is not in a `send` can go on, also with a `send`; a connection is not destroyed
  while the worker uses it. -/
  worker : ∀ (k : Fin threadCount) s', ¬ Sending u.1 u.2 k →
    (relaySystem keys).next u.1 (.worker k) = some s' →
      ∃ cs', (relayServer keys).next u (.relay (.worker k)) = some (s', cs')

/-- **The relay and its connections fit**: the sessions of the relay are the connections whose state
is open, and no half waits for the other. The relay knows the connection of every message, and is
told of the end of every connection once and after its session; a `close` always finds its
connection open and in its message handler, and a worker enters every `send`; a connection is not
destroyed while a worker uses it. -/
theorem halves_fit (keys : KeyManager) (u : System × Connections)
    (h : (relayServer keys).Reachable u) : Fits keys u := by
  have hlinked := linked_of_reachable h
  refine ⟨hlinked.sessions, fun handle hopened hfree e c hsent hclose hnext => ?_,
    fun s' hnext => hlinked.exists_relay hnext,
    fun k s' hfree hnext => exists_worker h.coupled.1 hfree hnext⟩
  exact hlinked.exists_event (h.coupled.2.member handle) hopened hfree hsent hclose hnext

/-- The moon client opens its connection and sends its key. -/
def keyLabels : List ServerLabel :=
  [.relay (.onOpen moonHandle), .relay .relay, .relay .relay,
    .connection moonHandle (.read ([0x82, 0x84, 0, 0, 0, 0] ++ moonKey.bytes)),
    .connection moonHandle .io]

/-- The key of the moon client has come. -/
theorem halves_fit_of_key : ∃ u,
    (relayServer moonTable).run (relayServer moonTable).init keyLabels = some u ∧
      Fits moonTable u := by
  have hsome : ((relayServer moonTable).run (relayServer moonTable).init keyLabels).isSome := by
    decide +kernel
  obtain ⟨u, hu⟩ := Option.isSome_iff_exists.1 hsome
  exact ⟨u, hu, halves_fit moonTable u (.of_run hu)⟩

end Server

end MoonJamRelay
