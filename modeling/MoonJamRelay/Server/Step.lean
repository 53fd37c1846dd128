import MoonJamRelay.Server.Basic
import MoonJamRelay.Threads.Handlers
import MoonJamRelay.Websocket.Received

/-!
# What the steps of the relay with its connections can do

* `Websocket.Seen` : what the relay sees of an event of a connection.
* `System.RelayStep.refusal` : the sections of the relay thread that call `close`.
* `Server.Step` : the steps, with their conditions and the states after them; `step_of_next` is the
  inversion.
* `Server.invariant` : the induction rule.
-/

namespace MoonJamRelay

/-! ### What a connection shows -/

namespace Websocket

variable {c c' : Connection} {e : Event} {t : Task} {t' : Option Task}

/-- What the relay sees of an event: nothing, the end of the session, or the call of a listener. -/
inductive Seen (c c' : Connection) : Prop
  | nothing (hcalls : c'.callbacks = c.callbacks) (hs : c'.state = .opened ↔ c.state = .opened)
  | ended (hcalls : c'.callbacks = c.callbacks) (hs : c.state = .opened) (hs' : c'.state ≠ .opened)
  | message (m : Message) (hcalls : c'.callbacks = c.callbacks ++ [.message m])
      (hs : c.state = .opened) (hs' : c'.state = .opened) (hio : c'.io.head? = some .handler)
  | closed (hcalls : c'.callbacks = c.callbacks ++ [.closed]) (hs : c.state ≠ .opened)
      (hs' : c'.state ≠ .opened)

theorem callbacks_terminate (c : Connection) : c.terminate.callbacks = c.callbacks := by
  rw [Connection.terminate]
  split_ifs <;> rfl

theorem seen_of_calls (hcalls : c'.callbacks = c.callbacks)
    (hs : c'.state = .opened → c.state = .opened) : Seen c c' := by
  by_cases hopened : c.state = .opened
  · by_cases hopened' : c'.state = .opened
    · exact .nothing hcalls (by simp [hopened, hopened'])
    · exact .ended hcalls hopened hopened'
  · exact .nothing hcalls ⟨hs, fun h => absurd h hopened⟩

theorem Effect.seen {rest : List Task} (h : Effect c t c' t') :
    Seen c { c' with io := t'.toList ++ rest } := by
  have hs := h.state.2
  cases h with
  | @deliver m hop hs' => exact .message m rfl hs' hs' rfl
  | terminate ht hs' code reason clean => exact seen_of_calls (callbacks_terminate _) hs
  | _ => exact seen_of_calls rfl hs

/-- What the relay sees of an event. -/
theorem Step.seen (hstep : Step c e c') (hc : connection.Reachable c) : Seen c c' := by
  obtain ⟨ms, hcalls, -⟩ := readInv_of_reachable hc
  have hs := hstep.state.2
  cases hstep with
  | io hio heff => exact heff.seen
  | @sender k t c₁ t' hk heff =>
    obtain ⟨ht, hfine⟩ := (disciplined_of_reachable hc).senders k t hk
    rcases (heff.ofSender ht hfine).1 with ⟨rfl, -⟩ | rfl | ⟨m, -, -, rfl, -⟩ <;>
      exact seen_of_calls rfl hs
  | read hreading hio bytes =>
    exact seen_of_calls (handleReadFrame_frame c bytes).2.2.2.2.2.2.1 hs
  | readFailed hreading hio => exact seen_of_calls (callbacks_terminate _) hs
  | timeout htimer hio => exact seen_of_calls (callbacks_terminate _) hs
  | @endWrite i failed w hio hw =>
    rcases handleWriteFrame_cases { c with writer := w } failed with ⟨-, heq⟩ | ⟨-, heq⟩
    · rw [heq] at hs ⊢
      exact seen_of_calls (callbacks_terminate _) hs
    · rw [heq]
      exact seen_of_calls rfl id
  | shutdown hshutdown =>
    have hclosed := hcalls.shutdown hshutdown
    exact .closed rfl (by simp [hclosed]) (by simp [hclosed])
  | _ => exact seen_of_calls rfl hs

theorem Step.aside (hstep : Step c e c') (hc : connection.Reachable c)
    (he : (∃ k, e = .sender k) ∨ ∃ i n, e = .transmit i n) :
    c'.io = c.io ∧ c'.state = c.state ∧ c'.callbacks = c.callbacks := by
  rcases he with ⟨k, rfl⟩ | ⟨i, n, rfl⟩
  · cases hstep with
    | @sender _ t c₁ t' hk heff =>
      obtain ⟨ht, hfine⟩ := (disciplined_of_reachable hc).senders k t hk
      rcases (heff.ofSender ht hfine).1 with ⟨rfl, -⟩ | rfl | ⟨m, -, -, rfl, -⟩ <;>
        exact ⟨rfl, rfl, rfl⟩
    | handler hio ht => rcases ht with ⟨data, ht, -⟩ | ⟨reason, ht, -⟩ <;> cases ht
  · cases hstep with
    | transmit hw => exact ⟨rfl, rfl, rfl⟩
    | handler hio ht => rcases ht with ⟨data, ht, -⟩ | ⟨reason, ht, -⟩ <;> cases ht

/-- Only a call brings a thread into `send`. -/
theorem Step.senders_eq_none (hstep : Step c e c') (hsent : e.sent = none) {k : ℕ}
    (hk : c.senders k = none) : c'.senders k = none := by
  cases hstep with
  | io hio heff => exact (congrFun heff.sameThreads.senders k).trans hk
  | @sender k' t c₁ t' hk' heff =>
    have hne : k ≠ k' := by
      rintro rfl
      cases hk.symm.trans hk'
    exact (Function.update_of_ne hne ..).trans hk
  | call => cases hsent
  | read hreading hio bytes => rw [(handleReadFrame_frame c bytes).2.2.1, hk]
  | readFailed | timeout => rw [(sameThreads_terminate _).senders, hk]
  | @endWrite i failed w hio hw =>
    rcases handleWriteFrame_cases { c with writer := w } failed with ⟨-, heq⟩ | ⟨-, heq⟩
    · rw [heq, (sameThreads_terminate _).senders, hk]
    · rw [heq, hk]
  | _ => exact hk

theorem relayClose_run {reason : List UInt8} {c₁ c₂ c₃ : Connection} (hs : c.state = .opened)
    (h₁ : c.next (.handlerClose reason) = some c₁) (h₂ : c₁.next .io = some c₂)
    (h₃ : c₂.next .io = some c₃) :
    c₃.state = .closing ∧ c₃.callbacks = c.callbacks ∧ c₃.senders = c.senders ∧
      c₃.writer = c.writer ∧ ∃ m : Message, m.Outgoing ∧ m.opcode = .close ∧
        c₃.io = .push m :: c.io := by
  rw [Connection.next] at h₁
  split_ifs at h₁
  obtain rfl := Option.some.inj h₁
  have hexec : c₂ = { c with io := .close reason :: c.io } := by
    refine (Option.some.inj h₂).symm.trans ?_
    simp [Connection.exec, hs]
  subst hexec
  obtain ⟨m, hm, hop, hclose⟩ := close_isSome (c := { c with io := .close reason :: c.io })
    reason hs (show CloseStatus.internalEndpointError ≠ CloseStatus.blank by decide) (by decide)
    (by decide) (by decide)
  have hlast := Option.some.inj h₃
  simp only [Connection.exec, hclose, Option.getD_some] at hlast
  subst hlast
  exact ⟨rfl, rfl, rfl, rfl, m, hm, hop, rfl⟩

theorem exists_relayClose (reason : List UInt8) (hs : c.state = .opened)
    (hio : c.io.head? = some .handler) : ∃ c₁ c₂ c₃, c.next (.handlerClose reason) = some c₁ ∧
      c₁.next .io = some c₂ ∧ c₂.next .io = some c₃ := by
  refine ⟨{ c with io := .relayClose reason :: c.io }, { c with io := .close reason :: c.io }, _,
    if_pos hio, ?_, rfl⟩
  simp [Connection.next, Connection.exec, hs]

theorem relaySend_run {k : ℕ} {data : List UInt8} {c₁ c₂ : Connection}
    (h₁ : c.next (.call k data) = some c₁) (h₂ : c₁.next (.sender k) = some c₂) :
    c.senders k = none ∧ (c.state = .opened ∧
        c₂ = { c with senders := Function.update c.senders k (some (.send data)) } ∨
      c.state ≠ .opened ∧ c₂ = c) := by
  rw [Connection.next] at h₁
  split_ifs at h₁ with hk
  obtain rfl := Option.some.inj h₁
  refine ⟨hk, ?_⟩
  simp only [Connection.next, Function.update_self, Option.map_some, Option.some.injEq,
    Connection.exec] at h₂
  by_cases hs : c.state = .opened
  · rw [if_neg (by simp [hs])] at h₂
    exact .inl ⟨hs, by rw [← h₂]; simp⟩
  · rw [if_pos hs] at h₂
    refine .inr ⟨hs, ?_⟩
    rw [← h₂]
    simp [← hk]

theorem exists_relaySend {k : ℕ} (data : List UInt8) (hk : c.senders k = none) :
    ∃ c₁ c₂, c.next (.call k data) = some c₁ ∧ c₁.next (.sender k) = some c₂ := by
  obtain ⟨c₂, h₂⟩ : ∃ c₂, Connection.next
      { c with senders := Function.update c.senders k (some (.relaySend data)) } (.sender k) =
        some c₂ := by
    simp only [Connection.next, Function.update_self, Option.map_some]
    exact ⟨_, rfl⟩
  exact ⟨_, c₂, if_pos hk, h₂⟩

end Websocket

/-! ### What the threads of the relay call -/

namespace System

variable {keys : KeyManager} {s s' : System}

/-- A section of the relay thread calls `close` for the connection of its message and returns, or it
leaves the sessions alone. -/
theorem RelayStep.refusal (hst : s.RelayStep s') :
    (∃ handle message reply, s.refusal = some (handle, reply) ∧
      s.relayPc.message = some (handle, message) ∧ s'.relayPc = .idle ∧
      s'.opened = s.opened ∧ s'.connected = s.connected ∧
      s'.sessions = s.sessions.filter fun c => c ≠ handle) ∨
    s.refusal = none ∧ s'.sessions = s.sessions := by
  cases hst with
  | goto pc hg =>
    refine .inr ⟨?_, rfl⟩
    cases hg with
    | noIdentifier handle message hpc hid => simp [System.refusal, hpc, hid]
    | getIdentifier handle message hpc hid hlen =>
      simp [System.refusal, hpc, Nat.not_lt.2 hlen]
    | hasRoom r hpc hr =>
      simp [System.refusal, hpc, RelayServer.hasRoom, PacketAccumulator.hasRoom_iff, hr]
    | newRoom r hpc hr hm => simp [System.refusal, hpc, hm]
    | countConnections r limit hpc h =>
      rcases h with hm | hlt
      · simp [System.refusal, hpc, hm]
      · simp [System.refusal, hpc, Nat.not_le.2 hlt]
    | _ hpc => simp only [System.refusal, *]
  | tooShort handle message hpc hid hlen =>
    exact .inl ⟨handle, message, .tooShort, by simp [System.refusal, hpc, hid, hlen],
      by rw [hpc]; rfl, rfl, rfl, rfl, rfl⟩
  | unknownKey handle message identifier hpc hroom =>
    exact .inl ⟨handle, message, .unknownKey, by simp [System.refusal, hpc, hroom],
      by rw [hpc]; rfl, rfl, rfl, rfl, rfl⟩
  | noRoom r hpc hr hm =>
    refine .inl ⟨r.handle, r.message, .noRoom r.room, ?_, by rw [hpc]; rfl, rfl, rfl, rfl, rfl⟩
    simp [System.refusal, hpc, RelayServer.hasRoom, PacketAccumulator.hasRoom_iff, hr, hm]
  | full r limit hpc hm hle =>
    exact .inl ⟨r.handle, r.message, .full r.room, by simp [System.refusal, hpc, hm, hle],
      by rw [hpc]; rfl, rfl, rfl, rfl, rfl⟩
  | getRoom handle message identifier r pc hpc hr hne hcase =>
    subst hr
    exact .inr ⟨by simp [System.refusal, hpc, hne], rfl⟩
  | _ => exact .inr ⟨by simp only [System.refusal, *], rfl⟩

end System

/-! ### The steps -/

open Websocket (Connection Callback)

namespace Server

variable {keys : KeyManager} {s s' : System} {cs cs' : Connections} {handle : ConnectionHdl}

/-- A step of the relay with its connections, without the mutexes. -/
inductive Step (s : System) (cs : Connections) : System → Connections → Prop
  | onOpen (handle : ConnectionHdl) (hpc : s.relayPc = .idle) (hfresh : s.Fresh handle) :
      Step s cs { s with sessions := handle :: s.sessions, relayPc := .claimIdentifier handle } cs
  | refreshKeys (table : KeyManager) : Step s cs { s with keys := table } cs
  | relay {s' : System} (hst : s.RelayStep s') (hnone : s.refusal = none) : Step s cs s' cs
  | close {s' : System} (handle : ConnectionHdl) (reply : Reply) (c₁ c₂ c₃ : Connection)
      (hst : s.RelayStep s') (hclose : s.refusal = some (handle, reply))
      (h₁ : (cs handle).next (.handlerClose reply.reason) = some c₁) (h₂ : c₁.next .io = some c₂)
      (h₃ : c₂.next .io = some c₃) : Step s cs s' (Function.update cs handle c₃)
  | room {s' : System} (t : ℕ) (hst : s.RoomStep t s') : Step s cs s' cs
  | worker {s' : System} (k : Fin threadCount) (hst : s.WorkerStep k s')
      (hfree : ¬ Sending s cs k) (hnone : s.sendOf k = none) : Step s cs s' cs
  | send (k : Fin threadCount) (j : Job) (c : ReceivedConnection) (a : Assembled)
      (c₁ c₂ : Connection) (hpc : (s.workers k).pc = .call (some a))
      (hjob : (s.workers k).job = some j) (hc : s.jobConnection j = some c)
      (hfree : ¬ Sending s cs k) (h₁ : (cs c.handle).next (.call k a.bytes) = some c₁)
      (h₂ : c₁.next (.sender k) = some c₂) :
      Step s cs ((s.jobSend j c a).withWorker k (s.workers k).finish)
        (Function.update cs c.handle c₂)
  | quiet (handle : ConnectionHdl) (e : Websocket.Event) (c : Connection)
      (hopened : handle ∈ s.opened) (hnext : (cs handle).next e = some c) (hsent : e.sent = none)
      (hcalls : c.callbacks = (cs handle).callbacks)
      (hs : c.state = .opened ↔ (cs handle).state = .opened)
      (hio : s.relayPc = .idle ∨ c.io = (cs handle).io) :
      Step s cs s (Function.update cs handle c)
  | endSession (handle : ConnectionHdl) (e : Websocket.Event) (c : Connection)
      (hopened : handle ∈ s.opened) (hnext : (cs handle).next e = some c) (hsent : e.sent = none)
      (hcalls : c.callbacks = (cs handle).callbacks) (hs : c.state ≠ .opened)
      (hpc : s.relayPc = .idle) :
      Step s cs { s with sessions := s.sessions.filter fun h => h ≠ handle }
        (Function.update cs handle c)
  | message (handle : ConnectionHdl) (e : Websocket.Event) (c : Connection) (m : Websocket.Message)
      (hopened : handle ∈ s.opened) (hnext : (cs handle).next e = some c) (hsent : e.sent = none)
      (hcalls : c.callbacks = (cs handle).callbacks ++ [.message m])
      (hs : (cs handle).state = .opened) (hs' : c.state = .opened)
      (hio : c.io.head? = some .handler) (hpc : s.relayPc = .idle)
      (hconnected : handle ∈ s.connected) :
      Step s cs (s.goto (.getIdentifier handle m.payload)) (Function.update cs handle c)
  | onClose (handle : ConnectionHdl) (e : Websocket.Event) (c : Connection)
      (hopened : handle ∈ s.opened) (hnext : (cs handle).next e = some c) (hsent : e.sent = none)
      (hcalls : c.callbacks = (cs handle).callbacks ++ [.closed])
      (hs : (cs handle).state ≠ .opened) (hs' : c.state ≠ .opened) (hpc : s.relayPc = .idle)
      (hconnected : handle ∈ s.connected) :
      Step s cs (s.goto (.closeIdentifier handle)) (Function.update cs handle c)

/-! ### The inversion -/

theorem run_events {es : List Websocket.Event}
    (h : (Websocket.connection.family ConnectionHdl).run cs (es.map fun e => (handle, e)) =
      some cs') :
    ∃ c, Websocket.connection.run (cs handle) es = some c ∧
      cs' = Function.update cs handle c := by
  rw [Machine.family_run] at h
  obtain ⟨c, hc, rfl⟩ := Option.map_eq_some_iff.1 h
  exact ⟨c, hc, rfl⟩

theorem run_event {e : Websocket.Event}
    (h : (Websocket.connection.family ConnectionHdl).run cs [(handle, e)] = some cs') :
    ∃ c, (cs handle).next e = some c ∧ cs' = Function.update cs handle c := by
  have hrun : (Websocket.connection.family ConnectionHdl).run cs ([e].map fun e => (handle, e)) =
      some cs' := h
  obtain ⟨c, hc, rfl⟩ := run_events hrun
  exact ⟨c, (Machine.run_singleton _ _ _).symm.trans hc, rfl⟩

/-- What a connection reports, from what is seen of it. -/
theorem reports_of_seen (handle : ConnectionHdl) {c c' : Connection} (h : Websocket.Seen c c') :
    c'.callbacks = c.callbacks ∧ (c'.state = .opened ↔ c.state = .opened) ∧
        reports handle c c' = [] ∨
      c'.callbacks = c.callbacks ∧ c.state = .opened ∧ c'.state ≠ .opened ∧
        reports handle c c' = [.endSession handle] ∨
      (∃ m, c'.callbacks = c.callbacks ++ [.message m] ∧ c.state = .opened ∧ c'.state = .opened ∧
        c'.io.head? = some .handler ∧ reports handle c c' = [.onMessage handle m.payload]) ∨
      c'.callbacks = c.callbacks ++ [.closed] ∧ c.state ≠ .opened ∧ c'.state ≠ .opened ∧
        reports handle c c' = [.onClose handle] := by
  cases h with
  | nothing hcalls hs =>
    refine .inl ⟨hcalls, hs, ?_⟩
    rw [reports, hcalls, List.drop_length, List.filterMap_nil, List.nil_append]
    exact if_neg fun h => h.2 (hs.2 h.1)
  | ended hcalls hs hs' =>
    refine .inr (.inl ⟨hcalls, hs, hs', ?_⟩)
    rw [reports, hcalls, List.drop_length, List.filterMap_nil, List.nil_append]
    exact if_pos ⟨hs, hs'⟩
  | message m hcalls hs hs' hio =>
    refine .inr (.inr (.inl ⟨m, hcalls, hs, hs', hio, ?_⟩))
    rw [reports, hcalls, List.drop_left, if_neg fun h => h.2 hs']
    rfl
  | closed hcalls hs hs' =>
    refine .inr (.inr (.inr ⟨hcalls, hs, hs', ?_⟩))
    rw [reports, hcalls, List.drop_left, if_neg fun h => hs h.1]
    rfl

theorem step_of_event {e : Websocket.Event} {ls : List Label} {ks} (hopened : handle ∈ s.opened)
    (hc : Websocket.connection.Reachable (cs handle))
    (hmoves : moves s cs (.connection handle e) = some (ls, ks))
    (hls : (relaySystem keys).run s ls = some s')
    (hks : (Websocket.connection.family ConnectionHdl).run cs ks = some cs') :
    Step s cs s' cs' := by
  -- events of the workers and the network
  have haside : (∃ k, e = .sender k) ∨ (∃ i n, e = .transmit i n) → e.sent = none →
      moves s cs (.connection handle e) = some ([], [(handle, e)]) → Step s cs s' cs' := by
    intro he hsent heq
    obtain ⟨rfl, rfl⟩ := Prod.mk.inj (Option.some.inj (hmoves.symm.trans heq))
    obtain rfl := Option.some.inj hls
    obtain ⟨c, hnext, rfl⟩ := run_event hks
    obtain ⟨hio, hs, hcalls⟩ := (Websocket.next_step hnext).aside hc he
    exact .quiet handle e c hopened hnext hsent hcalls (by rw [hs]) (.inr hio)
  -- events of the asio thread
  have hasio : e.sent = none →
      moves s cs (.connection handle e) = (if Free s cs handle then
        ((cs handle).next e).map fun c => (reports handle (cs handle) c, [(handle, e)])
        else none) → Step s cs s' cs' := by
    intro hsent heq
    rw [heq] at hmoves
    split_ifs at hmoves with hfree
    obtain ⟨c, hnext, heq⟩ := Option.map_eq_some_iff.1 hmoves
    obtain ⟨rfl, rfl⟩ := Prod.mk.inj heq
    obtain ⟨c', hnext', rfl⟩ := run_event hks
    obtain rfl := Option.some.inj (hnext.symm.trans hnext')
    rcases reports_of_seen handle ((Websocket.next_step hnext).seen hc) with
      ⟨hcalls, hs, hreports⟩ | ⟨hcalls, hs, hs', hreports⟩ |
      ⟨m, hcalls, hs, hs', hio, hreports⟩ | ⟨hcalls, hs, hs', hreports⟩ <;> rw [hreports] at hls
    · obtain rfl := Option.some.inj hls
      exact .quiet handle e c hopened hnext hsent hcalls hs (.inl hfree.1)
    · rw [Machine.run_singleton] at hls
      obtain rfl := Option.some.inj hls
      exact .endSession handle e c hopened hnext hsent hcalls hs' hfree.1
    · rw [Machine.run_singleton] at hls
      simp only [relaySystem, System.next] at hls
      split_ifs at hls with hcond
      obtain rfl := Option.some.inj hls
      exact .message handle e c m hopened hnext hsent hcalls hs hs' hio hfree.1 hcond.2
    · rw [Machine.run_singleton] at hls
      simp only [relaySystem, System.next] at hls
      split_ifs at hls with hcond
      obtain rfl := Option.some.inj hls
      exact .onClose handle e c hopened hnext hsent hcalls hs hs' hfree.1 hcond.2.1
  cases e with
  | call | handlerSend | handlerClose => simp [moves, hopened] at hmoves
  | sender k => exact haside (.inl ⟨k, rfl⟩) rfl (if_neg (by simp [hopened]))
  | transmit i n => exact haside (.inr ⟨i, n, rfl⟩) rfl (if_neg (by simp [hopened]))
  | _ => exact hasio rfl (if_neg (by simp [hopened]))

theorem sendOf_eq_some {k : Fin threadCount} {x : ConnectionHdl × List UInt8}
    (h : s.sendOf k = some x) : ∃ a j c, (s.workers k).pc = .call (some a) ∧
      (s.workers k).job = some j ∧ s.jobConnection j = some c ∧ x = (c.handle, a.bytes) := by
  rw [System.sendOf] at h
  split at h
  · rename_i a hpc
    obtain ⟨j, hj, h⟩ := Option.bind_eq_some_iff.1 h
    obtain ⟨c, hc, rfl⟩ := Option.map_eq_some_iff.1 h
    exact ⟨a, j, c, hpc, hj, hc, rfl⟩
  · cases h

/-- A section of the relay thread: it locks its mutex, or has locked it. -/
theorem relay_step (h : (relaySystem keys).next s .relay = some s') :
    s.closing = none ∧ (∃ o, s' = { s with owner := o }) ∨
      s.closing = s.refusal ∧ ∃ s₁ o, s.RelayStep s₁ ∧ s' = { s₁ with owner := o } := by
  rcases System.locked_eq_some h with ⟨m, hfree, hw, rfl⟩ | ⟨hexec, howner⟩
  · refine .inl ⟨?_, _, rfl⟩
    rw [System.closing, hw]
    exact if_neg (by simp [hfree])
  · obtain ⟨s₁, h₁, rfl⟩ := Option.map_eq_some_iff.1 hexec
    refine .inr ⟨?_, s₁, _, System.relayStep_of_exec h₁, rfl⟩
    rw [System.closing]
    refine if_pos ?_
    cases hw : s.relayPc.wants with
    | none => rfl
    | some m => simpa using howner m hw

/-- Every step is one of those, up to the mutexes. -/
theorem step_of_next {l : ServerLabel} {u u' : System × Connections}
    (hc : ∀ handle, Websocket.connection.Reachable (u.2 handle))
    (h : (relayServer keys).next u l = some u') :
    ∃ s o, (s = u.1 ∧ u'.2 = u.2 ∨ Step u.1 u.2 s u'.2) ∧ u'.1 = { s with owner := o } := by
  obtain ⟨s, cs⟩ := u
  obtain ⟨s', cs'⟩ := u'
  obtain ⟨ls, ks, hmoves, hls, hks⟩ := Machine.couple_next h
  have hstep : Step s cs s' cs' → ∃ s₁ o, (s₁ = s ∧ cs' = cs ∨ Step s cs s₁ cs') ∧
      s' = { s₁ with owner := o } := fun hst => ⟨s', s'.owner, .inr hst, rfl⟩
  cases l with
  | connection handle e =>
    have hopened : handle ∈ s.opened := by
      by_contra hno
      cases e <;> simp [moves, hno] at hmoves
    exact hstep (step_of_event hopened (hc handle) hmoves hls hks)
  | relay l =>
    cases l with
    | onOpen handle =>
      simp only [moves] at hmoves
      split_ifs at hmoves with hfree
      obtain ⟨rfl, rfl⟩ := Prod.mk.inj (Option.some.inj hmoves)
      obtain rfl := Option.some.inj hks
      rw [Machine.run_singleton] at hls
      simp only [relaySystem, System.next] at hls
      split_ifs at hls with hcond
      obtain rfl := Option.some.inj hls
      exact hstep (.onOpen handle hcond.1 hcond.2)
    | onMessage | onClose | endSession => cases hmoves
    | refreshKeys table =>
      obtain ⟨rfl, rfl⟩ := Prod.mk.inj (Option.some.inj hmoves)
      obtain rfl := Option.some.inj hks
      rw [Machine.run_singleton] at hls
      simp only [relaySystem, System.next] at hls
      split_ifs at hls with hcond
      obtain rfl := Option.some.inj hls
      exact hstep (.refreshKeys table)
    | relay =>
      simp only [moves] at hmoves
      cases hclosing : s.closing with
      | none =>
        rw [hclosing] at hmoves
        obtain ⟨rfl, rfl⟩ := Prod.mk.inj (Option.some.inj hmoves)
        obtain rfl := Option.some.inj hks
        rw [Machine.run_singleton] at hls
        rcases relay_step hls with ⟨-, o, rfl⟩ | ⟨hrefusal, s₁, o, hst, rfl⟩
        · exact ⟨s, o, .inl ⟨rfl, rfl⟩, rfl⟩
        · exact ⟨s₁, o, .inr (.relay hst (hrefusal ▸ hclosing)), rfl⟩
      | some x =>
        obtain ⟨handle, reply⟩ := x
        rw [hclosing] at hmoves
        obtain ⟨rfl, rfl⟩ := Prod.mk.inj (Option.some.inj hmoves)
        rw [Machine.run_singleton] at hls
        obtain ⟨c₃, hrun, rfl⟩ := run_events hks
        obtain ⟨c₁, h₁, hrun⟩ := Option.bind_eq_some_iff.1 hrun
        obtain ⟨c₂, h₂, hrun⟩ := Option.bind_eq_some_iff.1 hrun
        obtain ⟨c₃', h₃, hrun⟩ := Option.bind_eq_some_iff.1 hrun
        obtain rfl := Option.some.inj hrun
        rcases relay_step hls with ⟨hnone, -⟩ | ⟨hrefusal, s₁, o, hst, rfl⟩
        · rw [hnone] at hclosing
          cases hclosing
        · exact ⟨s₁, o, .inr (.close handle reply c₁ c₂ c₃' hst (hrefusal ▸ hclosing) h₁ h₂ h₃),
            rfl⟩
    | room t =>
      obtain ⟨rfl, rfl⟩ := Prod.mk.inj (Option.some.inj hmoves)
      obtain rfl := Option.some.inj hks
      rw [Machine.run_singleton] at hls
      rcases System.locked_eq_some hls with ⟨m, hfree, hw, rfl⟩ | ⟨hexec, -⟩
      · exact ⟨s, _, .inl ⟨rfl, rfl⟩, rfl⟩
      · obtain ⟨s₁, h₁, rfl⟩ := Option.map_eq_some_iff.1 hexec
        exact ⟨s₁, _, .inr (.room t (System.roomStep_of_exec h₁)), rfl⟩
    | worker k =>
      simp only [moves] at hmoves
      split_ifs at hmoves with hfree
      cases hsend : s.sendOf k with
      | none =>
        rw [hsend] at hmoves
        obtain ⟨rfl, rfl⟩ := Prod.mk.inj (Option.some.inj hmoves)
        obtain rfl := Option.some.inj hks
        rw [Machine.run_singleton] at hls
        exact hstep (.worker k (System.workerStep_of_exec hls) hfree hsend)
      | some x =>
        rw [hsend] at hmoves
        obtain ⟨a, j, c, hpc, hj, hcon, rfl⟩ := sendOf_eq_some hsend
        obtain ⟨rfl, rfl⟩ := Prod.mk.inj (Option.some.inj hmoves)
        rw [Machine.run_singleton] at hls
        have hexec : s.workerExec k = some s' := hls
        simp only [System.workerExec, hpc, hj, hcon, Option.bind_some, Option.map_some,
          Option.some.injEq] at hexec
        obtain rfl := hexec
        obtain ⟨c₂, hrun, rfl⟩ := run_events hks
        obtain ⟨c₁, h₁, hrun⟩ := Option.bind_eq_some_iff.1 hrun
        obtain ⟨c₂', h₂, hrun⟩ := Option.bind_eq_some_iff.1 hrun
        obtain rfl := Option.some.inj hrun
        exact hstep (.send k j c a c₁ c₂' hpc hj hcon hfree h₁ h₂)

/-- The induction rule: the mutexes do not matter. -/
theorem invariant {I : System → Connections → Prop} {u : System × Connections}
    (h : (relayServer keys).Reachable u) (h₀ : I (.init keys) fun _ => .new)
    (howner : ∀ s cs o, I s cs → I { s with owner := o } cs)
    (hstep : ∀ s cs s' cs', (relaySystem keys).Reachable s →
      (∀ handle, Websocket.connection.Reachable (cs handle)) → I s cs → Step s cs s' cs' →
      I s' cs') : I u.1 u.2 := by
  refine Machine.Reachable.invariant (I := fun u => I u.1 u.2) h h₀ fun u l u' hu hI hnext => ?_
  have hc := fun handle => hu.coupled.2.member handle
  obtain ⟨s, o, ⟨rfl, hcs⟩ | hst, hs⟩ := step_of_next hc hnext
  · rw [hs, hcs]
    exact howner _ _ _ hI
  · rw [hs]
    exact howner _ _ _ (hstep _ _ _ _ hu.coupled.1 hc hI hst)

end Server

end MoonJamRelay
