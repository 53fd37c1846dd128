import MoonJamRelay.Websocket.Connection

/-!
# What the tasks of a connection do

`Effect` lists what a task can do to a connection and which task it leaves; `exec_effect` says that
the list is complete. The invariants of a connection follow from it case by case.

* `Message.Outgoing` : the messages that a server sends.
* `Task.Later`, `Connection.Disciplined` : which tasks the threads can have.
-/

namespace MoonJamRelay

namespace Websocket

/-! ### What a server sends -/

/-- A message as the servers send it: a binary message, an answer to a ping, or a close. Only a
close is terminal. -/
structure Message.Outgoing (m : Message) : Prop where
  header : m.header = headerBytes m.opcode true m.payload.length none
  kind : m.opcode = .binary ∨
    (m.opcode = .pong ∨ m.opcode = .close) ∧ m.payload.length ≤ payloadSizeBasic
  terminal : m.terminal = true ↔ m.opcode = .close

variable {c c' : Connection} {e : Event} {t : Task} {t' : Option Task} {m out : Message}
  {code : UInt16} {reason payload : List UInt8}

theorem prepareControl_server {op : Opcode}
    (h : prepareControl serverConfig .zero op payload = .ok out) :
    out.header = headerBytes op true payload.length none ∧ out.payload = payload ∧
      out.opcode = op ∧ out.terminal = false ∧ payload.length ≤ payloadSizeBasic := by
  rw [prepareControl] at h
  split_ifs at h with hop hlen
  obtain rfl := Except.ok.inj h
  exact ⟨rfl, rfl, rfl, rfl, Nat.le_of_not_lt hlen⟩

theorem preparePong_outgoing (h : preparePong serverConfig .zero payload = .ok out) :
    out.Outgoing ∧ out.opcode = .pong := by
  obtain ⟨hheader, hpayload, hop, hterminal, hlen⟩ := prepareControl_server h
  refine ⟨⟨by rw [hheader, hop, hpayload], .inr ⟨.inl hop, by rwa [hpayload]⟩, ?_⟩, hop⟩
  simp [hterminal, hop]

theorem prepareClose_outgoing (h : prepareClose serverConfig .zero code reason = .ok out) :
    ({ out with terminal := true } : Message).Outgoing ∧ out.opcode = .close := by
  rw [prepareClose_eq (prepareClose_ok.1 ⟨out, h⟩)] at h
  obtain ⟨hheader, hpayload, hop, -, hlen⟩ := prepareControl_server h
  refine ⟨⟨?_, .inr ⟨.inr hop, ?_⟩, by simp [hop]⟩, hop⟩
  · change out.header = headerBytes out.opcode true out.payload.length none
    rw [hheader, hop, hpayload]
  · change out.payload.length ≤ _
    rwa [hpayload]

theorem prepareData_outgoing (data : List UInt8) :
    ∃ out, prepareDataFrame serverConfig .zero { opcode := .binary, payload := data } = .ok out ∧
      out.Outgoing ∧ out.opcode = .binary ∧ out.payload = data :=
  ⟨_, rfl, ⟨rfl, .inl rfl, ⟨nofun, nofun⟩⟩, rfl, rfl⟩

/-! ### Closing -/

/-- What the connection keeps from a close frame. -/
def Connection.record (c : Connection) (code : UInt16) (reason : List UInt8) (clean : Bool) :
    Connection :=
  { c with remoteCloseCode := code, remoteCloseReason := reason, wasClean := clean }

/-- A close frame is about to be sent. -/
def Connection.closing (c : Connection) : Connection :=
  { c with state := .closing, handshakeTimer := true }

theorem sendCloseFrame_eq_some {ack : Bool} {r : Connection × Option Task}
    (h : c.sendCloseFrame code reason ack true = some r) :
    ∃ m : Message, m.Outgoing ∧ m.opcode = .close ∧
      r = ((c.record c.remoteCloseCode c.remoteCloseReason (c.wasClean || ack)).closing,
        some (.push m)) := by
  rw [Connection.sendCloseFrame] at h
  split at h
  · exact nomatch h
  · rename_i out hout
    obtain ⟨hm, hop⟩ := prepareClose_outgoing hout
    exact ⟨_, hm, hop, (Option.some.inj h).symm⟩

theorem prepareClose_server (h : Closable code reason) :
    ∃ out, prepareClose serverConfig .zero code reason = .ok out := prepareClose_ok.2 h

/-- Closing an open connection with a code that has a meaning does not fail: the reason is cut. -/
theorem close_isSome (reason : List UInt8) (hs : c.state = .opened)
    (hblank : code ≠ CloseStatus.blank) (hreserved : CloseStatus.reserved code = false)
    (hinvalid : CloseStatus.invalid code = false)
    (hterminal : CloseStatus.terminal code = true) :
    ∃ m : Message, m.Outgoing ∧ m.opcode = .close ∧ c.close code reason = some
      ((c.record c.remoteCloseCode c.remoteCloseReason c.wasClean).closing, some (.push m)) := by
  have hno : code ≠ CloseStatus.noStatus := by
    rintro rfl
    exact absurd hinvalid (by decide)
  have hclosable : Closable code (reason.take closeReasonSize) :=
    ⟨hreserved, fun h => by simp [hinvalid] at h, fun h => absurd h hno, List.length_take_le _ _⟩
  obtain ⟨out, hout⟩ := prepareClose_server hclosable
  have hclose : c.close code reason =
      c.sendCloseFrame code (reason.take closeReasonSize) false true := by
    rw [Connection.close, if_neg (by simp [hs]), hterminal]
  have hsome : ∃ r, c.close code reason = some r := by
    rw [hclose, Connection.sendCloseFrame, Connection.closeInfo, if_pos hblank, hout]
    exact ⟨_, rfl⟩
  obtain ⟨r, hr⟩ := hsome
  obtain ⟨m, hm, hop, rfl⟩ := sendCloseFrame_eq_some (hclose.symm.trans hr)
  exact ⟨m, hm, hop, by rw [hr, Bool.or_false]⟩

/-- The codes that are sent when bytes are refused. -/
theorem toWs_spec (e : ProcessorError) : e.toWs ≠ CloseStatus.blank ∧
    CloseStatus.reserved e.toWs = false ∧ CloseStatus.invalid e.toWs = false ∧
      CloseStatus.terminal e.toWs = true := by
  cases e <;> decide

/-! ### What a task does -/

/-- An open connection leaves this task for the other one. -/
inductive Task.Calls : Task → Task → Prop
  | relaySend (data : List UInt8) : Calls (.relaySend data) (.send data)
  | send (data : List UInt8) :
      Calls (.send data) (.prepareData { opcode := .binary, payload := data })
  | relayClose (reason : List UInt8) : Calls (.relayClose reason) (.close reason)
  | pong {m out : Message} (hm : m.opcode.isControl = true) (hout : out.Outgoing)
      (hop : out.opcode = .pong) : Calls (.message m) (.push out)

/-- The task ends without an effect. -/
def Connection.Ends (c : Connection) : Task → Prop
  | .relaySend _ | .send _ | .relayClose _ => c.state ≠ .opened
  | .prepareData m => ∃ e, prepareDataFrame serverConfig .zero m = .error e
  | .handler => True
  | _ => False

/-- The task can close the connection. -/
def Task.MayClose : Task → Prop
  | .message m => m.opcode.isControl = true
  | .close _ | .protocolError _ => True
  | _ => False

/-- What the tasks do. -/
inductive Effect (c : Connection) : Task → Connection → Option Task → Prop
  /-- Nothing is done. -/
  | ends {t : Task} (ht : c.Ends t) : Effect c t c none
  /-- The state is looked at, and the connection is open. -/
  | calls {t t' : Task} (ht : t.Calls t') (hs : c.state = .opened) : Effect c t c (some t')
  /-- A message is pushed. -/
  | push {t : Task} (m : Message) (ht : t = .push m ∨
      ∃ m₀, t = .prepareData m₀ ∧ prepareDataFrame serverConfig .zero m₀ = .ok m) :
      Effect c t (c.push m).1 (c.push m).2
  | dispatch : Effect c .dispatch { c with writer := c.writer.post } none
  | releaseWrite : Effect c .releaseWrite c.releaseWrite.1 c.releaseWrite.2
  | readFrame : Effect c .readFrame { c with reading := true } none
  /-- A message is ignored; a data message only if the connection is not open. -/
  | ignore {m : Message} (hs : m.opcode.isControl = false → c.state ≠ .opened) :
      Effect c (.message m) c none
  /-- The message handler is called. -/
  | deliver {m : Message} (hop : m.opcode.isControl = false) (hs : c.state = .opened) :
      Effect c (.message m) { c with callbacks := c.callbacks ++ [.message m] } (some .handler)
  /-- A close frame is recorded, and nothing else is done. -/
  | record {m : Message} (hop : m.opcode.isControl = true) (code : UInt16) (reason : List UInt8) :
      Effect c (.message m) (c.record code reason c.wasClean) none
  /-- A close frame is sent. -/
  | closing {t : Task} (ht : t.MayClose) (hs : c.state ≠ .closed) (code : UInt16)
      (reason : List UInt8) (clean : Bool) (m : Message) (hm : m.Outgoing)
      (hop : m.opcode = .close) : Effect c t (c.record code reason clean).closing (some (.push m))
  /-- The connection ends. -/
  | terminate {t : Task} (ht : t.MayClose) (hs : c.state ≠ .opened) (code : UInt16)
      (reason : List UInt8) (clean : Bool) : Effect c t (c.record code reason clean).terminate none
  /-- `close` throws. -/
  | crash (reason : List UInt8) (hs : c.state ≠ .opened) :
      Effect c (.close reason) { c with crashed := true } none

/-- An answer to a close frame. -/
theorem sendCloseAck_effect (hop : m.opcode.isControl = true) (hs : c.state ≠ .closed)
    (code : UInt16) (reason : List UInt8) (code' : UInt16) (reason' : List UInt8) :
    Effect c (.message m) ((c.record code' reason' c.wasClean).sendCloseAck code reason).1
      ((c.record code' reason' c.wasClean).sendCloseAck code reason).2 := by
  rw [Connection.sendCloseAck]
  cases h : (c.record code' reason' c.wasClean).sendCloseFrame code reason true
      serverConfig.server with
  | none => exact .record hop code' reason'
  | some r =>
    obtain ⟨m', hm', hop', rfl⟩ := sendCloseFrame_eq_some h
    exact .closing (t := .message m) hop hs code' reason' (c.wasClean || true) m' hm' hop'

theorem processClose_effect (hop : m.opcode.isControl = true) (hs : c.state ≠ .closed)
    (payload : List UInt8) :
    Effect c (.message m) (c.processClose payload).1 (c.processClose payload).2 := by
  rw [Connection.processClose]
  simp only
  split_ifs with hcode hreason hopened hclosing hserver
  · exact sendCloseAck_effect hop hs _ _ (extractCode payload).1 c.remoteCloseReason
  · exact sendCloseAck_effect hop hs _ _ (extractCode payload).1 (extractReason payload).1
  · exact sendCloseAck_effect hop hs _ _ (extractCode payload).1 (extractReason payload).1
  · refine .terminate (t := .message m) hop ?_ (extractCode payload).1 (extractReason payload).1
      true
    rw [hclosing.1]
    decide
  · exact absurd rfl hserver
  · exact .record hop (extractCode payload).1 (extractReason payload).1

theorem handleMessage_effect (c : Connection) (m : Message) :
    Effect c (.message m) (c.handleMessage m).1 (c.handleMessage m).2 := by
  rw [Connection.handleMessage]
  split_ifs with hop hs
  · have hignore : Effect c (.message m) c none := .ignore fun h => by simp [hop] at h
    rw [Connection.processControlFrame]
    split_ifs with hclosed hother hping hclose
    · exact hignore
    · exact hignore
    · rw [Connection.pong]
      split_ifs with hs
      · exact hignore
      · cases hout : preparePong serverConfig .zero m.payload with
        | error e => exact hignore
        | ok out =>
          obtain ⟨hout', hop'⟩ := preparePong_outgoing hout
          exact .calls (.pong hop hout' hop') (by simpa using hs)
    · exact processClose_effect hop hclosed m.payload
    · exact hignore
  · exact .ignore fun _ => hs
  · exact .deliver (by simpa using hop) (by simpa using hs)

theorem exec_effect (c : Connection) (t : Task) : Effect c t (c.exec t).1 (c.exec t).2 := by
  cases t with
  | relaySend data =>
    rw [Connection.exec]
    split_ifs with hs
    · exact .ends (t := .relaySend data) hs
    · exact .calls (.relaySend data) (by simpa using hs)
  | send data =>
    rw [Connection.exec]
    split_ifs with hs
    · exact .ends (t := .send data) hs
    · exact .calls (.send data) (by simpa using hs)
  | prepareData m =>
    rw [Connection.exec]
    cases hout : prepareDataFrame serverConfig .zero m with
    | error e => exact .ends (t := .prepareData m) ⟨e, hout⟩
    | ok out => exact .push out (.inr ⟨m, rfl, hout⟩)
  | push m => exact .push m (.inl rfl)
  | dispatch => exact .dispatch
  | releaseWrite => exact .releaseWrite
  | message m => exact handleMessage_effect c m
  | handler => exact .ends (t := .handler) trivial
  | relayClose reason =>
    rw [Connection.exec]
    split_ifs with hs
    · exact .ends (t := .relayClose reason) hs
    · exact .calls (.relayClose reason) (by simpa using hs)
  | close reason =>
    rw [Connection.exec]
    by_cases hs : c.state = .opened
    · have hblank : CloseStatus.internalEndpointError ≠ CloseStatus.blank := by decide
      obtain ⟨m, hm, hop, hclose⟩ :=
        close_isSome reason hs hblank (by decide) (by decide) (by decide)
      rw [hclose]
      exact .closing (t := .close reason) trivial (by simp [hs]) _ _ _ m hm hop
    · rw [Connection.close, if_pos hs]
      exact .crash reason hs
  | protocolError e =>
    rw [Connection.exec, Connection.protocolError]
    by_cases hs : c.state = .opened
    · obtain ⟨hblank, hreserved, hinvalid, hterminal⟩ := toWs_spec e
      obtain ⟨m, hm, hop, hclose⟩ := close_isSome (utf8 e.message.toList) hs hblank hreserved
        hinvalid hterminal
      rw [hclose]
      exact .closing (t := .protocolError e) trivial (by simp [hs]) _ _ _ m hm hop
    · rw [Connection.close, if_pos hs]
      exact .terminate (t := .protocolError e) trivial hs c.remoteCloseCode c.remoteCloseReason
        c.wasClean
  | readFrame => exact .readFrame

/-- What a task leaves alone. -/
structure SameThreads (c c' : Connection) : Prop where
  io : c'.io = c.io
  senders : c'.senders = c.senders
  processor : c'.processor = c.processor
  reads : c'.reads = c.reads

theorem sameThreads_terminate (c : Connection) : SameThreads c c.terminate := by
  rw [Connection.terminate]
  split_ifs <;> exact ⟨rfl, rfl, rfl, rfl⟩

theorem Effect.sameThreads (h : Effect c t c' t') : SameThreads c c' := by
  cases h with
  | terminate ht hs code reason clean =>
    obtain ⟨hio, hsenders, hprocessor, hreads⟩ :=
      sameThreads_terminate (c.record code reason clean)
    exact ⟨hio, hsenders, hprocessor, hreads⟩
  | _ => exact ⟨rfl, rfl, rfl, rfl⟩

/-! ### The tasks of the threads -/

/-- The tasks that stand after the one that is being done. -/
def Task.Later : Task → Prop
  | .message _ | .handler | .protocolError _ | .readFrame => True
  | _ => False

/-- The tasks of a thread that only sends. -/
def Task.OfSender : Task → Prop
  | .relaySend _ | .send _ | .prepareData _ | .dispatch => True
  | _ => False

/-- The messages of a task are those that a server sends; a binary message is prepared and pushed
at once. -/
def Task.Fine : Task → Prop
  | .prepareData m => ∃ data, m = { opcode := .binary, payload := data }
  | .push m => m.Outgoing ∧ m.opcode ≠ .binary
  | _ => True

/-- Which tasks the threads can have. -/
structure Connection.Disciplined (c : Connection) : Prop where
  later : ∀ t ∈ c.io.tail, t.Later
  fine : ∀ t ∈ c.io, t.Fine
  senders : ∀ k t, c.senders k = some t → t.OfSender ∧ t.Fine

theorem Task.Later.fine (h : t.Later) : t.Fine := by
  cases t with
  | prepareData m => exact h.elim
  | push m => exact h.elim
  | _ => trivial

theorem Task.MayClose.not_ofSender (h : t.MayClose) : ¬ t.OfSender := by
  cases t with
  | message m => exact id
  | close reason => exact id
  | protocolError e => exact id
  | _ => exact h.elim

theorem Effect.fine (h : Effect c t c' t') : ∀ x ∈ t', x.Fine := by
  cases h with
  | calls ht hs =>
    intro x hx
    obtain rfl := Option.mem_some_iff.1 hx
    cases ht with
    | relaySend data => trivial
    | send data => exact ⟨data, rfl⟩
    | relayClose reason => trivial
    | pong hm hout hop => exact ⟨hout, by simp [hop]⟩
  | closing ht hs code reason clean m hm hop =>
    intro x hx
    obtain rfl := Option.mem_some_iff.1 hx
    exact ⟨hm, by simp [hop]⟩
  | deliver hop hs =>
    intro x hx
    obtain rfl := Option.mem_some_iff.1 hx
    trivial
  | push m ht =>
    intro x hx
    rw [Connection.push] at hx
    split_ifs at hx
    · obtain rfl := Option.mem_some_iff.1 hx
      trivial
    · exact nomatch hx
  | releaseWrite =>
    intro x hx
    rw [Connection.releaseWrite] at hx
    split_ifs at hx
    · obtain rfl := Option.mem_some_iff.1 hx
      trivial
    · exact nomatch hx
  | _ => exact nofun

theorem Effect.ofSender (h : Effect c t c' t') (ht : t.OfSender) (hfine : t.Fine) :
    (c' = c ∧ t ≠ .dispatch ∨ c' = { c with writer := c.writer.post } ∨
      ∃ m : Message, m.Outgoing ∧ m.opcode = .binary ∧ c' = (c.push m).1 ∧ t' = (c.push m).2) ∧
      ∀ x ∈ t', x.OfSender := by
  cases h with
  | ends hend => exact ⟨.inl ⟨rfl, by rintro rfl; exact hend⟩, nofun⟩
  | calls hcalls hs =>
    refine ⟨.inl ⟨rfl, by rintro rfl; exact nomatch hcalls⟩, fun x hx => ?_⟩
    obtain rfl := Option.mem_some_iff.1 hx
    cases hcalls with
    | relaySend data => trivial
    | send data => trivial
    | relayClose reason => exact ht.elim
    | pong hm hout hop => exact ht.elim
  | dispatch => exact ⟨.inr (.inl rfl), nofun⟩
  | push m hm =>
    rcases hm with rfl | ⟨m₀, rfl, hout⟩
    · exact ht.elim
    · obtain ⟨data, rfl⟩ := hfine
      obtain ⟨out, hout', hm, hop, -⟩ := prepareData_outgoing data
      obtain rfl := Except.ok.inj (hout'.symm.trans hout)
      refine ⟨.inr (.inr ⟨_, hm, hop, rfl, rfl⟩), fun x hx => ?_⟩
      rw [Connection.push] at hx
      split_ifs at hx
      · obtain rfl := Option.mem_some_iff.1 hx
        trivial
      · exact nomatch hx
  | releaseWrite => exact ht.elim
  | readFrame => exact ht.elim
  | ignore hs => exact ht.elim
  | deliver hop hs => exact ht.elim
  | record hop code reason => exact ht.elim
  | closing hclose hs code reason clean m hm hop => exact absurd ht hclose.not_ofSender
  | terminate hclose hs code reason clean => exact absurd ht hclose.not_ofSender
  | crash reason hs => exact ht.elim

/-! ### The steps -/

/-- What an event does. -/
inductive Step (c : Connection) : Event → Connection → Prop
  | io {t : Task} {rest : List Task} {c' : Connection} {t' : Option Task} (hio : c.io = t :: rest)
      (h : Effect c t c' t') : Step c .io { c' with io := t'.toList ++ rest }
  | sender {k : ℕ} {t : Task} {c' : Connection} {t' : Option Task} (hk : c.senders k = some t)
      (h : Effect c t c' t') :
      Step c (.sender k) { c' with senders := Function.update c.senders k t' }
  | call {k : ℕ} (hk : c.senders k = none) (data : List UInt8) :
      Step c (.call k data)
        { c with senders := Function.update c.senders k (some (.relaySend data)) }
  | read (hreading : c.reading = true) (hio : c.io = []) (bytes : List UInt8) :
      Step c (.read bytes) (c.handleReadFrame bytes)
  | readFailed (hreading : c.reading = true) (hio : c.io = []) :
      Step c .readFailed { c with reading := false }.terminate
  | timeout (htimer : c.handshakeTimer = true) (hio : c.io = []) :
      Step c .timeout c.terminate
  | writeFrame (hposted : 0 < c.writer.posted) (hio : c.io = []) :
      Step c .writeFrame { c with writer := c.writer.unpost.writeFrame }
  | transmit {i n : ℕ} {w : Writer} (hw : c.writer.transmit i n = some w) :
      Step c (.transmit i n) { c with writer := w }
  | endWrite {i : ℕ} {failed : Bool} {w : Writer} (hio : c.io = [])
      (hw : c.writer.endWrite i failed = some w) :
      Step c (.endWrite i failed) ({ c with writer := w }.handleWriteFrame failed)
  | shutdown (hs : c.shutdown = true) :
      Step c .shutdown { c with shutdown := false, callbacks := c.callbacks ++ [.closed] }
  | handler {e : Event} {t : Task} {rest : List Task} (hio : c.io = .handler :: rest)
      (ht : (∃ data, e = .handlerSend data ∧ t = .send data) ∨
        ∃ reason, e = .handlerClose reason ∧ t = .relayClose reason) :
      Step c e { c with io := t :: c.io }

theorem next_step (h : c.next e = some c') : Step c e c' := by
  have hhead : c.io.head? = some .handler → ∃ rest, c.io = .handler :: rest := by
    intro hio
    obtain ⟨rest, hrest⟩ := List.head?_eq_some_iff.1 hio
    exact ⟨rest, hrest⟩
  cases e with
  | io =>
    rw [Connection.next] at h
    cases hio : c.io with
    | nil => rw [hio] at h; exact nomatch h
    | cons t rest =>
      rw [hio] at h
      obtain rfl := Option.some.inj h
      exact .io hio (exec_effect c t)
  | sender k =>
    obtain ⟨t, hk, rfl⟩ := Option.map_eq_some_iff.1 h
    exact .sender hk (exec_effect c t)
  | call k data =>
    rw [Connection.next] at h
    split_ifs at h with hk
    obtain rfl := Option.some.inj h
    exact .call hk data
  | read bytes =>
    rw [Connection.next] at h
    split_ifs at h with hr
    obtain rfl := Option.some.inj h
    exact .read hr.1 hr.2 bytes
  | readFailed =>
    rw [Connection.next] at h
    split_ifs at h with hr
    obtain rfl := Option.some.inj h
    exact .readFailed hr.1 hr.2
  | timeout =>
    rw [Connection.next] at h
    split_ifs at h with ht
    obtain rfl := Option.some.inj h
    exact .timeout ht.1 ht.2
  | writeFrame =>
    rw [Connection.next] at h
    split_ifs at h with hp
    obtain rfl := Option.some.inj h
    exact .writeFrame hp.1 hp.2
  | transmit i n =>
    obtain ⟨w, hw, rfl⟩ := Option.map_eq_some_iff.1 h
    exact .transmit hw
  | endWrite i failed =>
    rw [Connection.next] at h
    split_ifs at h with hio
    obtain ⟨w, hw, rfl⟩ := Option.map_eq_some_iff.1 h
    exact .endWrite hio hw
  | shutdown =>
    rw [Connection.next] at h
    split_ifs at h with hs
    obtain rfl := Option.some.inj h
    exact .shutdown hs
  | handlerSend data =>
    rw [Connection.next] at h
    split_ifs at h with hio
    obtain rfl := Option.some.inj h
    obtain ⟨rest, hrest⟩ := hhead hio
    exact .handler hrest (.inl ⟨data, rfl, rfl⟩)
  | handlerClose reason =>
    rw [Connection.next] at h
    split_ifs at h with hio
    obtain rfl := Option.some.inj h
    obtain ⟨rest, hrest⟩ := hhead hio
    exact .handler hrest (.inr ⟨reason, rfl, rfl⟩)

/-- The tasks of a read: its messages, and then an error or the next read. -/
theorem handleReadFrame_io (c : Connection) (bytes : List UInt8) :
    ∃ t : Task, (c.handleReadFrame bytes).io =
        (c.processor.readMessages serverConfig bytes).1.map Task.message ++ [t] ∧
      ((∃ e, t = .protocolError e ∧
          (c.processor.readMessages serverConfig bytes).2 = .error e) ∨
        t = .readFrame ∧ (c.processor.readMessages serverConfig bytes).2 =
          .ok (c.handleReadFrame bytes).processor) := by
  rw [Connection.handleReadFrame]
  cases hread : (c.processor.readMessages serverConfig bytes).2 with
  | error e => exact ⟨_, rfl, .inl ⟨e, rfl, rfl⟩⟩
  | ok p => exact ⟨_, rfl, .inr ⟨rfl, rfl⟩⟩

theorem handleReadFrame_frame (c : Connection) (bytes : List UInt8) :
    (c.handleReadFrame bytes).state = c.state ∧ (c.handleReadFrame bytes).writer = c.writer ∧
      (c.handleReadFrame bytes).senders = c.senders ∧
      (c.handleReadFrame bytes).handshakeTimer = c.handshakeTimer ∧
      (c.handleReadFrame bytes).shutdown = c.shutdown ∧
      (c.handleReadFrame bytes).crashed = c.crashed ∧
      (c.handleReadFrame bytes).callbacks = c.callbacks ∧
      (c.handleReadFrame bytes).reads = c.reads ++ [bytes] ∧
      (c.handleReadFrame bytes).reading = false := by
  rw [Connection.handleReadFrame]
  cases (c.processor.readMessages serverConfig bytes).2 <;>
    exact ⟨rfl, rfl, rfl, rfl, rfl, rfl, rfl, rfl, rfl⟩

theorem handleReadFrame_later (c : Connection) (bytes : List UInt8) :
    ∀ t ∈ (c.handleReadFrame bytes).io, t.Later := by
  obtain ⟨t, hio, ht⟩ := handleReadFrame_io c bytes
  rw [hio]
  intro x hx
  rcases List.mem_append.1 hx with hx | hx
  · obtain ⟨m, -, rfl⟩ := List.mem_map.1 hx
    trivial
  · obtain rfl := List.mem_singleton.1 hx
    rcases ht with ⟨e, rfl, -⟩ | ⟨rfl, -⟩ <;> trivial

/-- What the asio thread does after a write has ended. -/
theorem handleWriteFrame_cases (c : Connection) (failed : Bool) :
    (failed = true ∨ c.writer.terminal = true) ∧ c.handleWriteFrame failed =
        { c with writer := c.writer.clearCurrent }.terminate ∨
      ¬ (failed = true ∨ c.writer.terminal = true) ∧ c.handleWriteFrame failed =
        { c with writer := c.writer.clearCurrent, io := [.releaseWrite] } := by
  rw [Connection.handleWriteFrame]
  split_ifs with hfailed hterminal
  · exact .inl ⟨.inl hfailed, rfl⟩
  · exact .inl ⟨.inr hterminal, rfl⟩
  · exact .inr ⟨by tauto, rfl⟩

theorem update_eq_some {f : ℕ → Option Task} {k k' : ℕ} {x : Task}
    (hx : Function.update f k t' k' = some x) : t' = some x ∨ f k' = some x := by
  by_cases hk : k' = k
  · rw [hk, Function.update_self] at hx
    exact .inl hx
  · rw [Function.update_of_ne hk] at hx
    exact .inr hx

theorem Connection.Disciplined.of_io (h : c.Disciplined) (hsenders : c'.senders = c.senders)
    (hio : c'.io = c.io) : c'.Disciplined :=
  ⟨hio ▸ h.later, hio ▸ h.fine, hsenders ▸ h.senders⟩

theorem Connection.Disciplined.terminate (h : c.Disciplined) (hsenders : c'.senders = c.senders)
    (hio : c'.io = c.io) : c'.terminate.Disciplined :=
  h.of_io ((sameThreads_terminate c').senders.trans hsenders)
    ((sameThreads_terminate c').io.trans hio)

theorem Step.disciplined (hstep : Step c e c') (h : c.Disciplined) : c'.Disciplined := by
  cases hstep with
  | @io t rest c₁ t' hio heff =>
    have hrest : ∀ x ∈ rest, x.Later := fun x hx => h.later x (by rw [hio]; exact hx)
    have hsenders : c₁.senders = c.senders := heff.sameThreads.senders
    refine ⟨fun x hx => ?_, fun x hx => ?_, fun k x hx => h.senders k x (hsenders ▸ hx)⟩
    · cases t' with
      | none => exact hrest x (List.mem_of_mem_tail hx)
      | some y => exact hrest x hx
    · rcases List.mem_append.1 hx with hx | hx
      · exact heff.fine x (Option.mem_toList.1 hx)
      · exact (hrest x hx).fine
  | @sender k t c₁ t' hk heff =>
    have hio : c₁.io = c.io := heff.sameThreads.io
    obtain ⟨ht, hfine⟩ := h.senders k t hk
    refine ⟨fun x hx => h.later x (hio ▸ hx), fun x hx => h.fine x (hio ▸ hx), fun k' x hx => ?_⟩
    rcases update_eq_some hx with hx | hx
    · exact ⟨(heff.ofSender ht hfine).2 x hx, heff.fine x hx⟩
    · exact h.senders k' x hx
  | call hk data =>
    refine ⟨h.later, h.fine, fun k' x hx => ?_⟩
    rcases update_eq_some hx with hx | hx
    · obtain rfl := Option.some.inj hx
      exact ⟨trivial, trivial⟩
    · exact h.senders k' x hx
  | read hreading hio bytes =>
    have hlater := handleReadFrame_later c bytes
    exact ⟨fun x hx => hlater x (List.mem_of_mem_tail hx), fun x hx => (hlater x hx).fine,
      (handleReadFrame_frame c bytes).2.2.1 ▸ h.senders⟩
  | readFailed hreading hio => exact h.terminate rfl rfl
  | timeout htimer hio => exact h.terminate rfl rfl
  | writeFrame hposted hio => exact h.of_io rfl rfl
  | transmit hw => exact h.of_io rfl rfl
  | @endWrite i failed w hio hw =>
    rcases handleWriteFrame_cases { c with writer := w } failed with ⟨-, heq⟩ | ⟨-, heq⟩
    · rw [heq]
      exact h.terminate rfl rfl
    · rw [heq]
      refine ⟨nofun, fun x hx => ?_, h.senders⟩
      obtain rfl := List.mem_singleton.1 hx
      trivial
  | shutdown hs => exact h.of_io rfl rfl
  | handler hio ht =>
    refine ⟨fun x hx => ?_, fun x hx => ?_, h.senders⟩
    · rw [hio] at hx
      rcases List.mem_cons.1 hx with rfl | hx
      · trivial
      · exact h.later x (by rw [hio]; exact hx)
    · rcases List.mem_cons.1 hx with rfl | hx
      · rcases ht with ⟨data, -, rfl⟩ | ⟨reason, -, rfl⟩ <;> trivial
      · exact h.fine x hx

/-- The induction rule for the invariants of a connection. -/
theorem reachable_invariant {I : Connection → Prop} (hc : connection.Reachable c) (h₀ : I .new)
    (hstep : ∀ u e u', connection.Reachable u → I u → Step u e u' → I u') : I c :=
  hc.invariant h₀ fun u e u' hu hI hnext => hstep u e u' hu hI (next_step hnext)

theorem disciplined_of_reachable (hc : connection.Reachable c) : c.Disciplined :=
  reachable_invariant hc ⟨nofun, nofun, nofun⟩ fun _ _ _ _ h hstep => hstep.disciplined h

end Websocket

end MoonJamRelay
