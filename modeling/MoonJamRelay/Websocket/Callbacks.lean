import MoonJamRelay.Websocket.Writes

/-!
# The handlers that a connection calls

The relay relies on the order in which a connection calls its handlers: the open handler, then the
message handler for each data message that was read, and at last the close handler, once.

* `callbacks_in_order` : the calls, and the messages they are for.
* `connection_ends` : a connection that is closing ends, and no exception leaves a handler.
* `close_answered` : the answer to a close frame.
-/

namespace MoonJamRelay

namespace Websocket

variable {c c' : Connection} {e : Event} {t : Task} {t' : Option Task} {m : Message}
  {ms : List Message} {payload : List UInt8}

/-! ### Calls of the close handler -/

/-- The calls of the handlers, and the timer that ends the connection. -/
structure Connection.CallsInv (c : Connection) (ms : List Message) : Prop where
  calls : c.callbacks = .opened :: ms.map Callback.message ++
    if c.state = .closed ∧ c.shutdown = false then [.closed] else []
  shutdown : c.shutdown = true → c.state = .closed
  timer : c.state = .closing → c.handshakeTimer = true
  crashed : c.crashed = false

theorem Connection.CallsInv.of_same (h : c.CallsInv ms) (hstate : c'.state = c.state)
    (hshutdown : c'.shutdown = c.shutdown) (hcalls : c'.callbacks = c.callbacks)
    (htimer : c'.handshakeTimer = c.handshakeTimer) (hcrashed : c'.crashed = c.crashed) :
    c'.CallsInv ms where
  calls := by rw [hcalls, hstate, hshutdown, h.calls]
  shutdown := by rw [hshutdown, hstate]; exact h.shutdown
  timer := by rw [hstate, htimer]; exact h.timer
  crashed := by rw [hcrashed, h.crashed]

theorem Connection.CallsInv.terminate (h : c.CallsInv ms) : c.terminate.CallsInv ms := by
  rw [Connection.terminate]
  split_ifs with hs
  · exact ⟨h.calls, h.shutdown, fun hc => absurd (hs.symm.trans hc) (by decide), h.crashed⟩
  · refine ⟨?_, fun _ => rfl, fun hc => (by cases hc), h.crashed⟩
    have hcalls := h.calls
    rw [if_neg fun hc => hs hc.1] at hcalls
    change c.callbacks = _
    rw [hcalls, if_neg fun hc => by cases hc.2]

theorem Connection.CallsInv.callbacks (h : c.CallsInv ms) (hs : c.state ≠ .closed) :
    c.callbacks = .opened :: ms.map Callback.message ∧ c.shutdown = false := by
  have hcalls := h.calls
  rw [if_neg fun hc => hs hc.1, List.append_nil] at hcalls
  refine ⟨hcalls, ?_⟩
  by_contra hne
  exact hs (h.shutdown (by simpa using hne))

theorem Connection.CallsInv.count_closed (h : c.CallsInv ms) :
    c.callbacks.count .closed = if c.state = .closed ∧ c.shutdown = false then 1 else 0 := by
  have hnone : (ms.map Callback.message).count .closed = 0 := by
    refine List.count_eq_zero.2 fun h => ?_
    obtain ⟨m, -, hm⟩ := List.mem_map.1 h
    exact nomatch hm
  rw [h.calls, List.cons_append, List.count_cons, List.count_append, hnone]
  by_cases hclosed : c.state = .closed ∧ c.shutdown = false
  · rw [if_pos hclosed, if_pos hclosed]
    rfl
  · rw [if_neg hclosed, if_neg hclosed]
    rfl

theorem Effect.callsInv (heff : Effect c t c' t') (h : c.CallsInv ms)
    (hclose : ∀ r, t = .close r → c.state = .opened) :
    (c'.CallsInv ms ∧ ¬ (∃ m, t = .message m ∧ m.opcode.isControl = false ∧ c.state = .opened)) ∨
      ∃ m, t = .message m ∧ m.opcode.isControl = false ∧ c.state = .opened ∧
        c'.CallsInv (ms ++ [m]) := by
  cases heff with
  | ends ht => exact .inl ⟨h, by rintro ⟨m, rfl, -⟩; exact ht⟩
  | calls ht hs =>
    refine .inl ⟨h, ?_⟩
    rintro ⟨m, rfl, hm, -⟩
    cases ht with
    | pong hm' hout hop => exact nomatch hm.symm.trans hm'
  | push m ht =>
    refine .inl ⟨h.of_same rfl rfl rfl rfl rfl, ?_⟩
    rintro ⟨m', rfl, -⟩
    rcases ht with ht | ⟨m₀, ht, -⟩ <;> exact nomatch ht
  | dispatch => exact .inl ⟨h.of_same rfl rfl rfl rfl rfl, nofun⟩
  | releaseWrite => exact .inl ⟨h.of_same rfl rfl rfl rfl rfl, nofun⟩
  | readFrame => exact .inl ⟨h.of_same rfl rfl rfl rfl rfl, nofun⟩
  | ignore hs =>
    refine .inl ⟨h, ?_⟩
    rintro ⟨m', heq, hm', hs'⟩
    obtain rfl := Task.message.inj heq
    exact hs hm' hs'
  | @deliver m hop hs =>
    refine .inr ⟨m, rfl, hop, hs, ?_⟩
    have hne : c.state ≠ .closed := by
      rw [hs]
      exact nofun
    obtain ⟨hcalls, hshutdown⟩ := h.callbacks hne
    refine ⟨?_, h.shutdown, h.timer, h.crashed⟩
    change c.callbacks ++ [.message m] = _
    rw [hcalls, if_neg fun hc => hne hc.1]
    simp
  | record hop code reason =>
    refine .inl ⟨h.of_same rfl rfl rfl rfl rfl, ?_⟩
    rintro ⟨m', heq, hm', -⟩
    obtain rfl := Task.message.inj heq
    exact nomatch hop.symm.trans hm'
  | closing ht hs code reason clean m hm hop =>
    refine .inl ⟨⟨?_, fun hsh => absurd (h.shutdown hsh) hs, fun _ => rfl, h.crashed⟩, ?_⟩
    · rw [if_neg (by rintro ⟨hc, -⟩; exact nomatch hc), List.append_nil]
      exact (h.callbacks hs).1
    · rintro ⟨m', rfl, hm', -⟩
      exact nomatch hm'.symm.trans ht
  | terminate ht hs code reason clean =>
    have hsame : (c.record code reason clean).CallsInv ms := h.of_same rfl rfl rfl rfl rfl
    refine .inl ⟨hsame.terminate, ?_⟩
    rintro ⟨m', rfl, hm', -⟩
    exact nomatch hm'.symm.trans ht
  | crash reason hs => exact absurd (hclose reason rfl) hs

/-! ### The close of the relay -/

/-- When `close` is called, the connection is still open. -/
def Connection.CloseInv (c : Connection) : Prop := ∀ r, .close r ∈ c.io → c.state = .opened

theorem Effect.left (h : Effect c t c' t') : (∀ m, .message m ∉ t') ∧ .readFrame ∉ t' ∧
    ∀ r, .close r ∈ t' → c'.state = .opened := by
  have hdispatch : ∀ (b : Bool), (∀ m, Task.message m ∉ if b then some Task.dispatch else none) ∧
      (Task.readFrame ∉ if b then some Task.dispatch else none) ∧
      ∀ r, (Task.close r ∈ if b then some Task.dispatch else none) → c'.state = .opened := by
    intro b
    cases b with
    | true => exact ⟨nofun, nofun, nofun⟩
    | false => exact ⟨nofun, nofun, nofun⟩
  cases h with
  | calls ht hs =>
    cases ht with
    | relaySend data => exact ⟨nofun, nofun, nofun⟩
    | send data => exact ⟨nofun, nofun, nofun⟩
    | relayClose reason => exact ⟨nofun, nofun, fun _ _ => hs⟩
    | pong hm hout hop => exact ⟨nofun, nofun, nofun⟩
  | push m ht => exact hdispatch _
  | releaseWrite => exact hdispatch _
  | _ => exact ⟨nofun, nofun, nofun⟩

theorem Step.closeInv (hstep : Step c e c') (hd : c.Disciplined) (h : c.CloseInv) :
    c'.CloseInv := by
  have hempty : c'.io = [] → c'.CloseInv := fun hio r hr => by
    rw [hio] at hr
    exact nomatch hr
  cases hstep with
  | @io t rest c₁ t' hio heff =>
    intro r hr
    rcases List.mem_append.1 hr with hr | hr
    · exact heff.left.2.2 r (Option.mem_toList.1 hr)
    · exact (hd.later (.close r) (by rw [hio]; exact hr)).elim
  | @sender k t c₁ t' hk heff =>
    obtain ⟨ht, hfine⟩ := hd.senders k t hk
    have hstate : c₁.state = c.state := by
      rcases (heff.ofSender ht hfine).1 with ⟨rfl, -⟩ | rfl | ⟨m, -, -, rfl, -⟩ <;> rfl
    intro r hr
    have hio : c₁.io = c.io := heff.sameThreads.io
    exact hstate.trans (h r (hio ▸ hr))
  | read hreading hio bytes =>
    intro r hr
    exact (handleReadFrame_later c bytes _ hr).elim
  | readFailed hreading hio => exact hempty ((sameThreads_terminate _).io.trans hio)
  | timeout htimer hio => exact hempty ((sameThreads_terminate _).io.trans hio)
  | @endWrite i failed w hio hw =>
    rcases handleWriteFrame_cases { c with writer := w } failed with ⟨-, heq⟩ | ⟨-, heq⟩
    · exact hempty (by rw [heq]; exact (sameThreads_terminate _).io.trans hio)
    · intro r hr
      rw [heq] at hr
      exact nomatch List.mem_singleton.1 hr
  | @handler _ t rest hio ht =>
    intro r hr
    rcases List.mem_cons.1 hr with rfl | hr
    · rcases ht with ⟨data, -, hdata⟩ | ⟨reason, -, hreason⟩
      · exact nomatch hdata
      · exact nomatch hreason
    · exact h r hr
  | _ => exact h

theorem closeInv_of_reachable (hc : connection.Reachable c) : c.CloseInv :=
  reachable_invariant hc nofun fun _ _ _ hu h hstep =>
    hstep.closeInv (disciplined_of_reachable hu) h

/-! ### The messages -/

/-- The message is not a control frame. -/
def Message.isData (m : Message) : Bool := !m.opcode.isControl

/-- The message that a task is about to handle. -/
def Task.message? : Task → Option Message
  | .message m => some m
  | _ => none

/-- The message handler was called for the data messages that were read and handled, in their order;
for all of them while the connection is open. -/
structure Connection.ReadInv (c : Connection) (ms : List Message) : Prop where
  read : ∃ handled,
    (readAll serverConfig .new c.reads).1 = handled ++ c.io.filterMap Task.message? ∧
    ms <+: handled.filter Message.isData ∧
    (c.state = .opened → ms = handled.filter Message.isData)
  processor : c.reading = true ∨ .readFrame ∈ c.io →
    (readAll serverConfig .new c.reads).2 = .ok c.processor

theorem Connection.ReadInv.of_same (h : c.ReadInv ms) (hreads : c'.reads = c.reads)
    (hio : c'.io.filterMap Task.message? = c.io.filterMap Task.message?)
    (hstate : c'.state = .opened → c.state = .opened)
    (hreading : c'.reading = true ∨ .readFrame ∈ c'.io → c.reading = true ∨ .readFrame ∈ c.io)
    (hprocessor : c'.processor = c.processor) : c'.ReadInv ms := by
  obtain ⟨handled, hread, hbegin, hall⟩ := h.read
  refine ⟨⟨handled, ?_, hbegin, fun hs => hall (hstate hs)⟩, fun hr => ?_⟩
  · rw [hreads, hio, hread]
  · rw [hreads, hprocessor]
    exact h.processor (hreading hr)

theorem readAll_snoc {cfg : Config} {p p' : Processor} {bufs : List (List UInt8)}
    (h : readAll cfg p bufs = (ms, .ok p')) (buf : List UInt8) :
    readAll cfg p (bufs ++ [buf]) =
      (ms ++ (p'.readMessages cfg buf).1, (p'.readMessages cfg buf).2) := by
  induction bufs generalizing p ms with
  | nil =>
    obtain ⟨rfl, hp⟩ := Prod.mk.inj h
    obtain rfl := Except.ok.inj hp
    rw [List.nil_append, readAll]
    rcases p.readMessages cfg buf with ⟨msgs, e | p'⟩
    · rfl
    · simp [readAll]
  | cons b bufs ih =>
    rw [List.cons_append, readAll]
    rw [readAll] at h
    rcases hread : p.readMessages cfg b with ⟨msgs, e | p₁⟩
    · rw [hread] at h
      cases (Prod.mk.inj h).2
    · rw [hread] at h
      simp only at h ⊢
      obtain ⟨rfl, hp⟩ := Prod.mk.inj h
      rw [ih (Prod.ext rfl hp), List.append_assoc]

theorem Effect.reading (h : Effect c t c' t') (hr : c'.reading = true) :
    c.reading = true ∨ t = .readFrame := by
  cases h with
  | readFrame => exact .inr rfl
  | terminate ht hs code reason clean =>
    rw [Connection.terminate] at hr
    split_ifs at hr
    · exact .inl hr
    · exact .inl hr
  | _ => exact .inl hr

theorem filterMap_message (ms : List Message) :
    (ms.map Task.message).filterMap Task.message? = ms := by
  simp [List.filterMap_map, Function.comp_def, Task.message?]

theorem message?_eq_some (h : t.message? = some m) : t = .message m := by
  cases t with
  | message m' => rw [Option.some.inj h]
  | _ => exact nomatch h

theorem Effect.readInv {rest : List Task} (heff : Effect c t c' t') (hio : c.io = t :: rest)
    (h : c.CallsInv ms ∧ c.ReadInv ms) (hclose : c.CloseInv) :
    ∃ ms', { c' with io := t'.toList ++ rest }.CallsInv ms' ∧
      { c' with io := t'.toList ++ rest }.ReadInv ms' := by
  obtain ⟨hcalls, hreadInv⟩ := h
  obtain ⟨hmessage, hframe, -⟩ := heff.left
  obtain ⟨-, -, hprocessor, hreads⟩ := heff.sameThreads
  have hpending : (t'.toList ++ rest).filterMap Task.message? = rest.filterMap Task.message? := by
    cases t' with
    | none => rfl
    | some x =>
      cases hx : x.message? with
      | none => simp [hx]
      | some m => exact absurd (message?_eq_some hx ▸ rfl) (hmessage m)
  have hproc : c'.reading = true ∨ .readFrame ∈ t'.toList ++ rest →
      (readAll serverConfig .new c'.reads).2 = .ok c'.processor := by
    intro hr
    rw [hreads, hprocessor]
    refine hreadInv.processor ?_
    rw [hio]
    rcases hr with hr | hr
    · refine (heff.reading hr).imp_right fun ht => ?_
      rw [ht]
      exact List.mem_cons_self
    · rcases List.mem_append.1 hr with hr | hr
      · exact absurd (Option.mem_toList.1 hr) hframe
      · exact .inr (List.mem_cons_of_mem _ hr)
  obtain ⟨handled, hread, hbegin, hall⟩ := hreadInv.read
  rw [hio] at hread
  have hmore : (readAll serverConfig .new c'.reads).1 =
      (handled ++ t.message?.toList) ++ (t'.toList ++ rest).filterMap Task.message? := by
    rw [hreads, hread, hpending, List.append_assoc]
    cases hm : t.message? <;> simp [hm]
  rcases heff.callsInv hcalls (fun r ht => hclose r (by rw [hio, ht]; exact List.mem_cons_self))
    with ⟨hcalls', hnot⟩ | ⟨m, rfl, hop, hs, hcalls'⟩
  · refine ⟨ms, hcalls'.of_same rfl rfl rfl rfl rfl, ⟨_, hmore, ?_, fun hs => ?_⟩, hproc⟩
    · rw [List.filter_append]
      exact hbegin.trans (List.prefix_append _ _)
    · -- a data message of an open connection would have been handed over
      have hs' := heff.state.2 hs
      have hnone : t.message?.toList.filter Message.isData = [] := by
        cases hm : t.message? with
        | none => rfl
        | some m =>
          have hcontrol : m.opcode.isControl = true := by
            by_contra hdata
            exact hnot ⟨m, message?_eq_some hm, by simpa using hdata, hs'⟩
          simp [Message.isData, hcontrol]
      rw [List.filter_append, hnone, List.append_nil]
      exact hall hs'
  · have hfilter : (handled ++ [m]).filter Message.isData = ms ++ [m] := by
      rw [List.filter_append, hall hs]
      simp [Message.isData, hop]
    refine ⟨ms ++ [m], hcalls'.of_same rfl rfl rfl rfl rfl,
      ⟨handled ++ [m], hmore, hfilter ▸ List.prefix_rfl, fun _ => hfilter.symm⟩, hproc⟩

theorem Step.readInv (hstep : Step c e c') (hd : c.Disciplined) (hclose : c.CloseInv)
    (h : ∃ ms, c.CallsInv ms ∧ c.ReadInv ms) : ∃ ms, c'.CallsInv ms ∧ c'.ReadInv ms := by
  obtain ⟨ms, hcalls, hread⟩ := h
  have hterminate : ∀ u : Connection, u.CallsInv ms → u.io = c.io → u.reads = c.reads →
      (u.reading = true → c.reading = true) → u.processor = c.processor →
      ∃ ms, u.terminate.CallsInv ms ∧ u.terminate.ReadInv ms := by
    intro u hu hio hreads hreading hprocessor
    obtain ⟨hio', -, hprocessor', hreads'⟩ := sameThreads_terminate u
    have hreading' : u.terminate.reading = u.reading := by
      rw [Connection.terminate]
      split_ifs <;> rfl
    refine ⟨ms, hu.terminate, hread.of_same (hreads'.trans hreads) (by rw [hio', hio])
      (fun hs => absurd ((state_terminate u).symm.trans hs) (by decide)) ?_
      (hprocessor'.trans hprocessor)⟩
    rw [hreading', hio', hio]
    exact Or.imp_left hreading
  cases hstep with
  | io hio heff => exact heff.readInv hio ⟨hcalls, hread⟩ hclose
  | @sender k t c₁ t' hk heff =>
    obtain ⟨ht, hfine⟩ := hd.senders k t hk
    rcases (heff.ofSender ht hfine).1 with ⟨rfl, -⟩ | rfl | ⟨m, -, -, rfl, -⟩ <;>
      exact ⟨ms, hcalls.of_same rfl rfl rfl rfl rfl, hread.of_same rfl rfl id id rfl⟩
  | call hk data => exact ⟨ms, hcalls.of_same rfl rfl rfl rfl rfl, hread.of_same rfl rfl id id rfl⟩
  | read hreading hio bytes =>
    obtain ⟨hstate, -, -, htimer, hshutdown, hcrashed, hcallbacks, hreads, hfalse⟩ :=
      handleReadFrame_frame c bytes
    obtain ⟨handled, hmsgs, hbegin, hall⟩ := hread.read
    obtain ⟨last, hio', hlast⟩ := handleReadFrame_io c bytes
    rw [hio, List.filterMap_nil, List.append_nil] at hmsgs
    have hsnoc := readAll_snoc (Prod.ext hmsgs (hread.processor (.inl hreading))) bytes
    have hnone : last.message? = none := by
      rcases hlast with ⟨e, rfl, -⟩ | ⟨rfl, -⟩ <;> rfl
    refine ⟨ms, hcalls.of_same hstate hshutdown hcallbacks htimer hcrashed,
      ⟨handled, ?_, hbegin, fun hs => hall (hstate ▸ hs)⟩, fun hr => ?_⟩
    · rw [hreads, hsnoc, hio', List.filterMap_append, filterMap_message]
      simp [hnone]
    · rw [hreads, hsnoc]
      rcases hlast with ⟨e, rfl, -⟩ | ⟨rfl, hok⟩
      · rw [hfalse, hio'] at hr
        simp at hr
      · exact hok
  | readFailed hreading hio =>
    exact hterminate { c with reading := false } (hcalls.of_same rfl rfl rfl rfl rfl) rfl rfl
      (by simp)
      rfl
  | timeout htimer hio => exact hterminate c hcalls rfl rfl id rfl
  | writeFrame hposted hio =>
    exact ⟨ms, hcalls.of_same rfl rfl rfl rfl rfl, hread.of_same rfl rfl id id rfl⟩
  | transmit hw => exact ⟨ms, hcalls.of_same rfl rfl rfl rfl rfl, hread.of_same rfl rfl id id rfl⟩
  | @endWrite i failed w hio hw =>
    rcases handleWriteFrame_cases { c with writer := w } failed with ⟨-, heq⟩ | ⟨-, heq⟩
    · rw [heq]
      exact hterminate _ (hcalls.of_same rfl rfl rfl rfl rfl) rfl rfl id rfl
    · rw [heq]
      refine ⟨ms, hcalls.of_same rfl rfl rfl rfl rfl, hread.of_same rfl ?_ id ?_ rfl⟩
      · rw [hio]
        rfl
      · rintro (hr | hr)
        · exact .inl hr
        · cases List.mem_singleton.1 hr
  | shutdown hs =>
    refine ⟨ms, ⟨?_, fun h => (by cases h), hcalls.timer, hcalls.crashed⟩,
      hread.of_same rfl rfl id id rfl⟩
    have hclosed := hcalls.shutdown hs
    have hold := hcalls.calls
    rw [if_neg (by simp [hs]), List.append_nil] at hold
    change c.callbacks ++ [.closed] = _
    rw [if_pos ⟨hclosed, rfl⟩, hold]
  | @handler _ t rest hio ht =>
    refine ⟨ms, hcalls.of_same rfl rfl rfl rfl rfl, hread.of_same rfl ?_ id ?_ rfl⟩
    · rcases ht with ⟨data, -, rfl⟩ | ⟨reason, -, rfl⟩ <;> rfl
    · rintro (hr | hr)
      · exact .inl hr
      · rcases List.mem_cons.1 hr with rfl | hr
        · rcases ht with ⟨data, -, hdata⟩ | ⟨reason, -, hreason⟩
          · cases hdata
          · cases hreason
        · exact .inr hr

theorem readInv_of_reachable (hc : connection.Reachable c) :
    ∃ ms, c.CallsInv ms ∧ c.ReadInv ms := by
  refine reachable_invariant (I := fun c => ∃ ms, c.CallsInv ms ∧ c.ReadInv ms) hc ?_
    fun u _ u' hu h hstep =>
      hstep.readInv (disciplined_of_reachable hu) (closeInv_of_reachable hu) h
  exact ⟨[], ⟨rfl, nofun, nofun, rfl⟩, ⟨[], rfl, List.prefix_rfl, fun _ => rfl⟩, fun _ => rfl⟩

/-! ### The results -/

/-- **The order of the calls**: the open handler, then the message handler for the first data
messages of those that were read, in their order, and the close handler when the connection has
ended. While the connection is open, the message handler was called for every data message that was
read, unless the asio thread has still to handle it. -/
theorem callbacks_in_order (c : Connection) (hc : connection.Reachable c) :
    ∃ ms, c.callbacks = .opened :: ms.map Callback.message ++
        (if c.state = .closed ∧ c.shutdown = false then [.closed] else []) ∧
      ms <+: (readAll serverConfig .new c.reads).1.filter Message.isData ∧
      (c.state = .opened → c.io = [] →
        ms = (readAll serverConfig .new c.reads).1.filter Message.isData) := by
  obtain ⟨ms, hcalls, hread⟩ := readInv_of_reachable hc
  obtain ⟨handled, hmsgs, hbegin, hall⟩ := hread.read
  refine ⟨ms, hcalls.calls, ?_, fun hs hio => ?_⟩
  · rw [hmsgs, List.filter_append]
    exact hbegin.trans (List.prefix_append _ _)
  · rw [hmsgs, hio, List.filterMap_nil, List.append_nil]
    exact hall hs

/-- After `answeredClose` the write and the connection end. -/
def endedConnection : List Event := answeredClose ++ [.endWrite 0 false, .shutdown]

/-- A message was handled, and the connection has ended. -/
theorem callbacks_in_order_ended : ∃ c, connection.run .new endedConnection = some c ∧
    c.callbacks = [.opened, .message { opcode := .binary, payload := [7] }, .closed] ∧
    ∃ ms, c.callbacks = .opened :: ms.map Callback.message ++
        (if c.state = .closed ∧ c.shutdown = false then [.closed] else []) ∧
      ms <+: (readAll serverConfig .new c.reads).1.filter Message.isData ∧
      (c.state = .opened → c.io = [] →
        ms = (readAll serverConfig .new c.reads).1.filter Message.isData) := by
  have hrun : (connection.run .new endedConnection).any (fun c => decide (c.callbacks =
      [.opened, .message { opcode := .binary, payload := [7] }, .closed])) = true := by
    decide +kernel
  obtain ⟨c, hc, hp⟩ := (Option.any_eq_true _ _).1 hrun
  exact ⟨c, hc, of_decide_eq_true hp, callbacks_in_order c (.of_run hc)⟩

/-- The message of a call. -/
def Callback.message? : Callback → Option Message
  | .message m => some m
  | _ => none

/-- A connection that is not open does not call the message handler. -/
theorem Step.silent (hstep : Step c e c') (hs : c.state ≠ .opened) :
    c'.callbacks.filterMap Callback.message? = c.callbacks.filterMap Callback.message? := by
  have hterminate : ∀ u : Connection, u.terminate.callbacks = u.callbacks := by
    intro u
    rw [Connection.terminate]
    split_ifs <;> rfl
  have htask : ∀ {t : Task} {c₁ : Connection} {t' : Option Task}, Effect c t c₁ t' →
      c₁.callbacks = c.callbacks := by
    intro t c₁ t' heff
    cases heff with
    | deliver hop hs' => exact absurd hs' hs
    | terminate ht hs' code reason clean => exact hterminate _
    | _ => rfl
  cases hstep with
  | @io t rest c₁ t' hio heff =>
    change c₁.callbacks.filterMap Callback.message? = _
    rw [htask heff]
  | @sender k t c₁ t' hk heff =>
    change c₁.callbacks.filterMap Callback.message? = _
    rw [htask heff]
  | read hreading hio bytes => rw [(handleReadFrame_frame c bytes).2.2.2.2.2.2.1]
  | readFailed hreading hio => rw [hterminate]
  | timeout htimer hio => rw [hterminate]
  | @endWrite i failed w hio hw =>
    rcases handleWriteFrame_cases { c with writer := w } failed with ⟨-, heq⟩ | ⟨-, heq⟩
    · rw [heq, hterminate]
    · rw [heq]
  | shutdown hs' =>
    change (c.callbacks ++ [Callback.closed]).filterMap Callback.message? = _
    rw [List.filterMap_append]
    exact List.append_nil _
  | _ => rfl

/-- **How a connection ends**: no exception leaves a handler; a connection that is closing has its
timer running; the close handler is called when the connection is closed, and once. A connection
that is not open any more is not opened again, and hands over no message whatever is read. -/
theorem connection_ends (c : Connection) (hc : connection.Reachable c) :
    c.crashed = false ∧ (c.state = .closing → c.handshakeTimer = true) ∧
      c.callbacks.count .closed = (if c.state = .closed ∧ c.shutdown = false then 1 else 0) ∧
      ∀ c', connection.Reaches c c' → c.state ≠ .opened → c'.state ≠ .opened ∧
        c'.callbacks.filterMap Callback.message? = c.callbacks.filterMap Callback.message? := by
  obtain ⟨ms, hcalls, -⟩ := readInv_of_reachable hc
  refine ⟨hcalls.crashed, hcalls.timer, hcalls.count_closed, fun c' hreach hs => ?_⟩
  · refine hreach.invariant (I := fun u => u.state ≠ .opened ∧
      u.callbacks.filterMap Callback.message? = c.callbacks.filterMap Callback.message?)
      ⟨hs, rfl⟩ ?_
    rintro u e u' - ⟨hu, hsame⟩ hnext
    have hstep := next_step hnext
    exact ⟨fun ho => hu (hstep.state.2 ho), (hstep.silent hu).trans hsame⟩

/-- A connection that is closing, and the same one when it has ended. -/
theorem connection_ends_ended : ∃ c c', connection.run .new answeredClose = some c ∧
    connection.run c [.endWrite 0 false, .shutdown] = some c' ∧
    c.state = .closing ∧ c.crashed = false ∧ c.handshakeTimer = true ∧
    c.callbacks.count .closed = 0 ∧ c'.state = .closed ∧ c'.callbacks.count .closed = 1 ∧
    c'.callbacks.filterMap Callback.message? = c.callbacks.filterMap Callback.message? := by
  have hrun : (connection.run .new answeredClose).any (fun c =>
      (connection.run c [.endWrite 0 false, .shutdown]).any fun c' => decide
        (c.state = .closing ∧ c'.state = .closed ∧ c'.shutdown = false)) = true := by
    decide +kernel
  obtain ⟨c, hc, hp⟩ := (Option.any_eq_true _ _).1 hrun
  obtain ⟨c', hc', hp⟩ := (Option.any_eq_true _ _).1 hp
  obtain ⟨hstate, hstate', hshutdown⟩ := of_decide_eq_true hp
  obtain ⟨hcrashed, htimer, hcount, hrest⟩ := connection_ends c (.of_run hc)
  have hreach : connection.Reaches c c' := Machine.reaches_of_run hc'
  obtain ⟨-, -, hcount', -⟩ := connection_ends c' ((Machine.reaches_of_run hc).trans hreach)
  rw [if_neg (by simp [hstate])] at hcount
  rw [if_pos ⟨hstate', hshutdown⟩] at hcount'
  exact ⟨c, c', hc, hc', hstate, hcrashed, htimer hstate, hcount, hstate', hcount',
    (hrest c' hreach (by simp [hstate])).2⟩

/-! ### The answer to a close -/

/-- What a close frame is answered with. -/
def closeAnswer (payload : List UInt8) : List UInt8 :=
  if payload = [] then closePayload CloseStatus.normal []
  else if (extractCode payload).2.isSome then
    closePayload CloseStatus.protocolError (utf8 "Invalid close code".toList)
  else if (extractReason payload).2.isSome then
    closePayload CloseStatus.protocolError (utf8 "Invalid close reason".toList)
  else payload

/-- The connection is closing and about to send a close frame with this payload. -/
structure Answers (r : Connection × Option Task) (payload : List UInt8) : Prop where
  state : r.1.state = .closing
  push : ∃ out : Message, r.2 = some (.push out) ∧ out.terminal = true ∧
    out.bytes = (⟨.close, true, none, payload⟩ : Frame).encode

theorem sendCloseAck_answers {code code' : UInt16} {reason reason' : List UInt8}
    (hinfo : c.closeInfo code reason true = (code', reason')) (h : Closable code' reason') :
    Answers (c.sendCloseAck code reason) (closePayload code' reason') := by
  obtain ⟨out, hout⟩ := prepareClose_server h
  have hsend : c.sendCloseAck code reason =
      ({ c with state := .closing, wasClean := c.wasClean || true, handshakeTimer := true },
        some (.push { out with terminal := true })) := by
    rw [Connection.sendCloseAck, Connection.sendCloseFrame, hinfo, hout]
    rfl
  rw [prepareClose_eq h] at hout
  obtain ⟨hheader, hpayload, -, -, -⟩ := prepareControl_server hout
  rw [hsend]
  refine ⟨rfl, _, rfl, rfl, ?_⟩
  change out.header ++ out.payload = _
  rw [hheader, hpayload]
  rfl

theorem closable_protocolError (h : reason.length ≤ closeReasonSize) :
    Closable CloseStatus.protocolError reason :=
  ⟨by decide, fun h => absurd h (by decide), fun h => absurd h (by decide), h⟩

theorem processClose_answers (hs : c.state = .opened) (hlen : payload.length ≤ payloadSizeBasic) :
    Answers (c.processClose payload) (closeAnswer payload) := by
  by_cases hcode : (extractCode payload).2.isSome
  · have hne : payload ≠ [] := by
      rintro rfl
      exact absurd hcode (by decide)
    have hprocess : c.processClose payload =
        (c.record (extractCode payload).1 c.remoteCloseReason c.wasClean).sendCloseAck
          CloseStatus.protocolError (utf8 "Invalid close code".toList) := if_pos hcode
    rw [hprocess, closeAnswer, if_neg hne, if_pos hcode]
    exact sendCloseAck_answers rfl (closable_protocolError (by decide))
  by_cases hreason : (extractReason payload).2.isSome
  · have hne : payload ≠ [] := by
      rintro rfl
      exact absurd hreason (by decide)
    have hprocess : c.processClose payload =
        (c.record (extractCode payload).1 (extractReason payload).1 c.wasClean).sendCloseAck
          CloseStatus.protocolError (utf8 "Invalid close reason".toList) :=
      (if_neg hcode).trans (if_pos hreason)
    rw [hprocess, closeAnswer, if_neg hne, if_neg hcode, if_pos hreason]
    exact sendCloseAck_answers rfl (closable_protocolError (by decide))
  obtain ⟨hclosable, -, hpayload⟩ := closable_of_extracted hlen
    (Prod.ext rfl (by simpa using hcode)) (Prod.ext rfl (by simpa using hreason))
  have hprocess : c.processClose payload =
      (c.record (extractCode payload).1 (extractReason payload).1 c.wasClean).sendCloseAck
        CloseStatus.blank [] :=
    (if_neg hcode).trans ((if_neg hreason).trans (if_pos hs))
  rw [hprocess, closeAnswer, if_neg hcode, if_neg hreason]
  by_cases hno : (extractCode payload).1 = CloseStatus.noStatus
  · -- a payload without a code is answered with one
    rw [closePayload, if_pos hno] at hpayload
    rw [if_pos hpayload]
    exact sendCloseAck_answers (if_pos hno)
      ⟨by decide, fun h => absurd h (by decide), fun _ => rfl, Nat.zero_le _⟩
  · have hne : payload ≠ [] := by
      intro hnil
      rw [hnil] at hno
      exact hno rfl
    rw [if_neg hne]
    nth_rewrite 3 [hpayload]
    exact sendCloseAck_answers (if_neg hno) hclosable

theorem length_control {cfg : Config} {pending : Option Message} {fs : List Frame}
    (hfs : LegalFrames cfg pending fs) (hpending : ∀ out ∈ pending, out.opcode.isControl = false) :
    ∀ m ∈ (received pending fs).2, m.opcode.isControl = true →
      m.payload.length ≤ payloadSizeBasic := by
  induction fs generalizing pending with
  | nil => intro m hm; cases hm
  | cons f fs ih =>
    obtain ⟨hf, hrest⟩ := hfs
    by_cases hop : f.opcode.isControl = true
    · rw [received, Frame.after, if_pos hop]
      rw [Frame.after, if_pos hop] at hrest
      refine List.forall_mem_cons.2 ⟨fun _ => (hf.control hop).2, ih hrest hpending⟩
    · have hjoined : (joined pending f.opcode f.payload).opcode.isControl = false := by
        cases pending with
        | none => exact Bool.eq_false_iff.2 hop
        | some out => exact hpending out rfl
      rw [received, Frame.after, if_neg hop]
      rw [Frame.after, if_neg hop] at hrest
      split_ifs at hrest ⊢ with hfin
      · refine List.forall_mem_cons.2 ⟨fun h => ?_, ih hrest fun out hout => by cases hout⟩
        rw [hjoined] at h
        cases h
      · exact ih hrest fun out hout => Option.mem_some_iff.1 hout ▸ hjoined

/-- **The answer to a close**: when an open connection handles a close frame that was read, it is
closing after that, and its next step pushes a close frame, the last that is written: with the same
payload if that is a code and a reason, with the code `normal` if it is empty, else with a protocol
error. Nothing that was read makes the answer fail. -/
theorem close_answered (c : Connection) (hc : connection.Reachable c) (m : Message)
    (rest : List Task) (hio : c.io = .message m :: rest) (hop : m.opcode = .close)
    (hs : c.state = .opened) :
    ∃ c' out, connection.next c .io = some c' ∧ c'.state = .closing ∧
      c'.io = .push out :: rest ∧ out.terminal = true ∧
      out.bytes = (⟨.close, true, none, closeAnswer m.payload⟩ : Frame).encode := by
  obtain ⟨ms, -, hread⟩ := readInv_of_reachable hc
  obtain ⟨handled, hmsgs, -⟩ := hread.read
  obtain ⟨fs, part, hdiv, hreceived, -⟩ := readAll_divides serverConfig c.reads
  have hmem : m ∈ (received none fs).2 := by
    rw [← hreceived, hmsgs, hio]
    exact List.mem_append_right _ List.mem_cons_self
  have hlen := length_control hdiv.legal nofun m hmem (by rw [hop]; rfl)
  obtain ⟨hstate, out, hpush, hterminal, hbytes⟩ := processClose_answers hs hlen
  have hexec : c.exec (.message m) = c.processClose m.payload := by
    rw [Connection.exec, Connection.handleMessage, if_pos (by rw [hop]; rfl),
      Connection.processControlFrame, if_neg (by simp [hs]), if_neg fun h => h.1 hop,
      if_neg (by simp [hop]), if_pos hop]
  refine ⟨{ (c.exec (.message m)).1 with io := (c.exec (.message m)).2.toList ++ rest }, out,
    ?_, ?_, ?_, hterminal, hbytes⟩
  · change c.next .io = _
    rw [Connection.next, hio]
  · exact (congrArg (·.1.state) hexec).trans hstate
  · change (c.exec (.message m)).2.toList ++ rest = _
    rw [hexec, hpush]
    rfl

theorem io_handleReadFrame {bytes : List UInt8} {p : Processor}
    (h : c.processor.readMessages serverConfig bytes = (ms, .ok p)) :
    (c.handleReadFrame bytes).io = ms.map Task.message ++ [.readFrame] := by
  simp only [Connection.handleReadFrame, h]

/-- A close frame of a client. -/
def closeFrame : Frame := ⟨.close, true, some .zero, []⟩

theorem whole_closeFrame : ∀ g ∈ [closeFrame], g.Whole serverConfig :=
  List.forall_mem_singleton.2
    ⟨rfl, rfl, by decide, rfl, fun _ => ⟨rfl, Nat.zero_le _⟩, nofun, nofun, nofun, nofun⟩

/-- A close frame without a payload is read. -/
theorem close_answered_empty : ∃ c m rest,
    connection.run .new [.read [0x88, 0x80, 0, 0, 0, 0]] = some c ∧ c.io = .message m :: rest ∧
      ∃ c' out, connection.next c .io = some c' ∧ c'.state = .closing ∧
        c'.io = .push out :: rest ∧ out.terminal = true ∧
        out.bytes = (⟨.close, true, none, closeAnswer m.payload⟩ : Frame).encode := by
  have hbytes : [[(0x88 : UInt8), 0x80, 0, 0, 0, 0]].flatten = encodes [closeFrame] := rfl
  have hbegin : [[(0x88 : UInt8), 0x80, 0, 0, 0, 0]].flatten <+: encodes [closeFrame] := ⟨[], rfl⟩
  obtain ⟨n, p, hall, hn⟩ := readAll_whole whole_closeFrame hbegin
  obtain rfl := hn hbytes
  have hread : Processor.new.readMessages serverConfig [0x88, 0x80, 0, 0, 0, 0] =
      ([closeFrame.message], .ok p) := by
    rw [readAll] at hall
    rcases h : Processor.new.readMessages serverConfig [0x88, 0x80, 0, 0, 0, 0] with ⟨msgs, e | p'⟩
    · rw [h] at hall
      cases (Prod.mk.inj hall).2
    · rw [h] at hall
      simpa [readAll] using hall
  have hrun : connection.run .new [.read [0x88, 0x80, 0, 0, 0, 0]] =
      some (Connection.new.handleReadFrame [0x88, 0x80, 0, 0, 0, 0]) := rfl
  have hio : (Connection.new.handleReadFrame [0x88, 0x80, 0, 0, 0, 0]).io =
      .message closeFrame.message :: [.readFrame] :=
    io_handleReadFrame (c := .new) hread
  refine ⟨_, closeFrame.message, [.readFrame], hrun, hio, ?_⟩
  exact close_answered _ (.of_run hrun) _ _ hio rfl (handleReadFrame_frame .new _).1

end Websocket

end MoonJamRelay
