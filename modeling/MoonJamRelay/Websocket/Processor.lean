import MoonJamRelay.Websocket.Masking
import MoonJamRelay.Websocket.Validator

/-!
# The processor

The processor of a connection reads frames from the bytes that arrive, in whatever pieces they
arrive, and puts together messages.

* `Processor` : its fields. The part of the extended header that is still to be copied fits the
  array, in every state that can be built.
* `Processor.turn` : one turn of the loop of `consume`; `Processor.consume` : the loop, which always
  ends (`turn_weight`).
* `readMessages` : the loop of `handle_read_frame` over one read, with the messages it gets.
-/

namespace MoonJamRelay

namespace Websocket

/-! ### Errors and messages -/

/-- The errors of `processor::error` that the modelled functions make. -/
inductive ProcessorError where
  | messageTooBig | invalidPayload | invalidOpcode | controlTooBig | invalidRsvBit
  | fragmentedControl | invalidContinuation | maskingRequired | maskingForbidden
  | nonMinimalEncoding | invalidUtf8 | reservedCloseCode | invalidCloseCode | reasonRequiresCode
  deriving DecidableEq

/-- `message_buffer::message`: a message while it is received or sent. -/
structure Message where
  header : List UInt8 := []
  payload : List UInt8 := []
  opcode : Opcode
  prepared : Bool := false
  fin : Bool := true
  terminal : Bool := false
  deriving DecidableEq

/-- The configuration of an endpoint: its role and the bound of a message. -/
structure Config where
  server : Bool
  maxMessageSize : ℕ

/-! ### The state -/

/-- The states of the processor that it is ever in. -/
inductive ProcessorState where
  | headerBasic | headerExtended | application | ready
  deriving DecidableEq

/-- `msg_metadata`: the message that is put together, its prepared key and its validator. -/
structure MsgMetadata where
  msg : Option Message := none
  preparedKey : Word := 0
  validator : Validator := {}

/-- Where `m_current_msg` points. -/
inductive Current where
  | data | control
  deriving DecidableEq

/-- `hybi13`. -/
structure Processor where
  state : ProcessorState
  basicHeader : BasicHeader
  extendedHeader : ExtendedHeader
  bytesNeeded : ℕ
  cursor : ℕ
  dataMsg : MsgMetadata
  controlMsg : MsgMetadata
  current : Current
  inBounds : state = .headerExtended → cursor + bytesNeeded ≤ maxExtendedHeaderLength

theorem BasicHeader.headerLen_le (h : BasicHeader) :
    h.headerLen - basicHeaderLength ≤ maxExtendedHeaderLength := by
  rw [headerLen, maskingKeyOffset]
  split_ifs <;> decide

namespace Processor

/-- `reset_headers`. -/
def resetHeaders (p : Processor) : Processor :=
  { p with
    state := .headerBasic
    bytesNeeded := basicHeaderLength
    basicHeader := ⟨0, 0⟩
    extendedHeader := .zero
    inBounds := nofun }

/-- The processor of a new connection. -/
def new : Processor where
  state := .headerBasic
  basicHeader := ⟨0, 0⟩
  extendedHeader := .zero
  bytesNeeded := basicHeaderLength
  cursor := 0
  dataMsg := {}
  controlMsg := {}
  current := .data
  inBounds := nofun

/-- The message that `m_current_msg` points to. -/
def currentMsg (p : Processor) : MsgMetadata :=
  match p.current with
  | .data => p.dataMsg
  | .control => p.controlMsg

theorem currentMsg_data {p : Processor} (h : p.current = .data) : p.currentMsg = p.dataMsg := by
  rw [currentMsg, h]

theorem currentMsg_control {p : Processor} (h : p.current = .control) :
    p.currentMsg = p.controlMsg := by
  rw [currentMsg, h]

/-- Write the message that `m_current_msg` points to. -/
def setCurrentMsg (p : Processor) (m : MsgMetadata) : Processor :=
  match p.current with
  | .data => { p with dataMsg := m }
  | .control => { p with controlMsg := m }

/-- `ready`. -/
def ready (p : Processor) : Bool := p.state == .ready

/-! ### Headers -/

/-- Write the basic header and count the bytes that were read for it. -/
def readBasicHeader (p : Processor) (h : BasicHeader) (count : ℕ) : Processor :=
  { p with
    basicHeader := h
    bytesNeeded := p.bytesNeeded - count
    inBounds := fun hs => by have := p.inBounds hs; omega }

/-- `copy_basic_header_bytes`; what is left of the buffer. -/
def copyBasicHeaderBytes (p : Processor) (buf : List UInt8) : Processor × List UInt8 :=
  if p.bytesNeeded = 0 then (p, buf)
  else
    match buf with
    | [] => (p, [])
    | [b] =>
      if p.bytesNeeded = 2 then (p.readBasicHeader ⟨b, p.basicHeader.b1⟩ 1, [])
      else (p.readBasicHeader ⟨p.basicHeader.b0, b⟩ 1, [])
    | b :: c :: rest =>
      if p.bytesNeeded = 2 then (p.readBasicHeader ⟨b, c⟩ 2, rest)
      else (p.readBasicHeader ⟨p.basicHeader.b0, b⟩ 1, c :: rest)

/-- `copy_extended_header_bytes`; what is left of the buffer. It is called in one state only, and
there the bytes fit the array. -/
def copyExtendedHeaderBytes (p : Processor) (buf : List UInt8) : Processor × List UInt8 :=
  if h : p.state = .headerExtended then
    let bytesToRead := min p.bytesNeeded buf.length
    ({ p with
        extendedHeader := p.extendedHeader.copy p.cursor (buf.take bytesToRead)
          (by have := p.inBounds h; rw [List.length_take]; omega)
        cursor := p.cursor + bytesToRead
        bytesNeeded := p.bytesNeeded - bytesToRead
        inBounds := fun _ => by have := p.inBounds h; omega },
      buf.drop bytesToRead)
  else (p, buf)

/-- `validate_incoming_basic_header`: the error, if there is one. -/
def validateIncomingBasicHeader (h : BasicHeader) (isServer newMsg : Bool) :
    Option ProcessorError :=
  if h.opcode.isControl ∧ payloadSizeBasic < h.basicSize then some .controlTooBig
  else if h.rsv1 then some .invalidRsvBit
  else if h.rsv2 ∨ h.rsv3 then some .invalidRsvBit
  else if h.opcode.reserved then some .invalidOpcode
  else if h.opcode.isControl ∧ ¬ h.fin then some .fragmentedControl
  else if newMsg ∧ h.opcode = .continuation then some .invalidContinuation
  else if ¬ newMsg ∧ ¬ h.opcode.isControl ∧ h.opcode ≠ .continuation then some .invalidContinuation
  else if isServer ∧ ¬ h.masked then some .maskingRequired
  else if ¬ isServer ∧ h.masked then some .maskingForbidden
  else none

/-- `validate_incoming_extended_header`: the error, if there is one. -/
def validateIncomingExtendedHeader (h : BasicHeader) (e : ExtendedHeader) : Option ProcessorError :=
  if h.basicSize = payloadSizeCode16 ∧ e.payloadSize h ≤ payloadSizeBasic then
    some .nonMinimalEncoding
  else if h.basicSize = payloadSizeCode64 ∧ e.payloadSize h ≤ payloadSizeExtended then
    some .nonMinimalEncoding
  else none

/-! ### Payloads -/

/-- What `consume` does with a data frame once its header is complete: a message for a frame that
begins one, or the key of a further frame. The sum of the sizes is one of 64 bits. -/
def startData (cfg : Config) (p : Processor) (key : Word) : Except ProcessorError Processor :=
  match p.dataMsg.msg with
  | none =>
    if cfg.maxMessageSize < p.bytesNeeded then .error .messageTooBig
    else
      .ok { p with
        dataMsg := { msg := some { opcode := p.basicHeader.opcode }, preparedKey := key }
        current := .data }
  | some out =>
    if cfg.maxMessageSize < (out.payload.length + p.bytesNeeded) % 2 ^ 64 then
      .error .messageTooBig
    else .ok { p with dataMsg := { p.dataMsg with preparedKey := key }, current := .data }

/-- What `consume` does once a header is complete. -/
def startPayload (cfg : Config) (p : Processor) : Except ProcessorError Processor :=
  let key := prepareMaskingKey (p.extendedHeader.maskingKey p.basicHeader)
  let p := { p with
    state := .application
    bytesNeeded := p.extendedHeader.payloadSize p.basicHeader
    inBounds := nofun }
  if p.basicHeader.opcode.isControl then
    .ok { p with
      controlMsg := { msg := some { opcode := p.basicHeader.opcode }, preparedKey := key }
      current := .control }
  else p.startData cfg key

/-- Unmask bytes of the payload if they are masked; the prepared key for the rest of it. -/
def unmask (p : Processor) (buf : List UInt8) : List UInt8 × Word :=
  if p.basicHeader.masked then byteMaskCirc buf p.currentMsg.preparedKey
  else (buf, p.currentMsg.preparedKey)

/-- Write the message after bytes of its payload. -/
def appendPayload (p : Processor) (out : Message) (bytes : List UInt8) (key : Word)
    (validator : Validator) : Processor :=
  setCurrentMsg
    { p with
      bytesNeeded := p.bytesNeeded - bytes.length
      inBounds := fun h => by have := p.inBounds h; omega }
    { msg := some { out with payload := out.payload ++ bytes }
      preparedKey := key
      validator := validator }

/-- `process_payload_bytes`. The message that is put together is there whenever it is called. -/
def processPayloadBytes (p : Processor) (buf : List UInt8) : Except ProcessorError Processor :=
  match p.currentMsg.msg with
  | none => .ok p
  | some out =>
    let bytes := (p.unmask buf).1
    let key := (p.unmask buf).2
    if out.opcode = .text then
      let decoded := p.currentMsg.validator.decode bytes
      if ¬ decoded.2 then .error .invalidUtf8
      else .ok (p.appendPayload out bytes key decoded.1)
    else .ok (p.appendPayload out bytes key p.currentMsg.validator)

/-- `finalize_message`. -/
def finalizeMessage (p : Processor) : Except ProcessorError Processor :=
  if p.basicHeader.opcode = .text ∧ ¬ p.currentMsg.validator.complete then .error .invalidUtf8
  else .ok { p with state := .ready, inBounds := nofun }

/-- `get_message`. The message is there whenever the processor is ready. -/
def getMessage (p : Processor) : Option Message × Processor :=
  if ¬ p.ready then (none, p)
  else
    match p.currentMsg.msg with
    | none => (none, p.resetHeaders)
    | some ret =>
      let p := p.setCurrentMsg { p.currentMsg with msg := none }
      let p := if ret.opcode.isControl then
          { p with controlMsg := { p.controlMsg with msg := none } }
        else { p with dataMsg := { p.dataMsg with msg := none } }
      (some ret, p.resetHeaders)

/-! ### The loop of `consume` -/

/-- What `consume` does once a basic header is complete. -/
def startExtendedHeader (p : Processor) : Processor :=
  { p with
    state := .headerExtended
    cursor := 0
    bytesNeeded := p.basicHeader.headerLen - basicHeaderLength
    inBounds := fun _ => by
      rw [Nat.zero_add]
      exact p.basicHeader.headerLen_le }

/-- What `consume` does with the bytes of a payload. -/
def readPayload (p : Processor) (buf : List UInt8) : Except ProcessorError Processor :=
  if 0 < min p.bytesNeeded buf.length then
    p.processPayloadBytes (buf.take (min p.bytesNeeded buf.length))
  else .ok p

/-- What `consume` does at the end of a frame. -/
def endFrame (p : Processor) : Except ProcessorError Processor :=
  if p.basicHeader.fin then p.finalizeMessage else .ok p.resetHeaders

/-- One turn of the loop: the processor and what is left of the buffer. -/
def turn (cfg : Config) (p : Processor) (buf : List UInt8) :
    Except ProcessorError (Processor × List UInt8) :=
  match p.state with
  | .headerBasic =>
    let (p, rest) := p.copyBasicHeaderBytes buf
    if 0 < p.bytesNeeded then .ok (p, rest)
    else
      match validateIncomingBasicHeader p.basicHeader cfg.server p.dataMsg.msg.isNone with
      | some e => .error e
      | none => .ok (p.startExtendedHeader, rest)
  | .headerExtended =>
    let (p, rest) := p.copyExtendedHeaderBytes buf
    if 0 < p.bytesNeeded then .ok (p, rest)
    else
      match validateIncomingExtendedHeader p.basicHeader p.extendedHeader with
      | some e => .error e
      | none => (p.startPayload cfg).map fun p => (p, rest)
  | .application =>
    match p.readPayload buf with
    | .error e => .error e
    | .ok p₁ =>
      let rest := buf.drop (min p.bytesNeeded buf.length)
      if 0 < p₁.bytesNeeded then .ok (p₁, rest) else p₁.endFrame.map fun p => (p, rest)
  | .ready => .ok (p, buf)

/-- The condition of the loop. -/
def Reads (p : Processor) (buf : List UInt8) : Prop :=
  p.state ≠ .ready ∧ (buf ≠ [] ∨ p.bytesNeeded = 0)

instance (p : Processor) (buf : List UInt8) : Decidable (p.Reads buf) := instDecidableAnd

variable {cfg : Config} {p p' p₁ : Processor} {buf rest : List UInt8} {e : ProcessorError}

/-! ### What a turn does -/

theorem turn_headerBasic (hs : p.state = .headerBasic)
    (hcopy : p.copyBasicHeaderBytes buf = (p₁, rest)) : p.turn cfg buf =
      if 0 < p₁.bytesNeeded then .ok (p₁, rest)
      else
        match validateIncomingBasicHeader p₁.basicHeader cfg.server p₁.dataMsg.msg.isNone with
        | some e => .error e
        | none => .ok (p₁.startExtendedHeader, rest) := by
  rw [turn, hs, hcopy]

theorem turn_headerExtended (hs : p.state = .headerExtended)
    (hcopy : p.copyExtendedHeaderBytes buf = (p₁, rest)) : p.turn cfg buf =
      if 0 < p₁.bytesNeeded then .ok (p₁, rest)
      else
        match validateIncomingExtendedHeader p₁.basicHeader p₁.extendedHeader with
        | some e => .error e
        | none => (p₁.startPayload cfg).map fun p => (p, rest) := by
  rw [turn, hs, hcopy]

theorem turn_application (hs : p.state = .application) : p.turn cfg buf =
    match p.readPayload buf with
    | .error e => .error e
    | .ok p₁ =>
      if 0 < p₁.bytesNeeded then .ok (p₁, buf.drop (min p.bytesNeeded buf.length))
      else p₁.endFrame.map fun p₂ => (p₂, buf.drop (min p.bytesNeeded buf.length)) := by
  rw [turn, hs]

theorem copyBasicHeaderBytes_cases (hcopy : p.copyBasicHeaderBytes buf = (p₁, rest)) :
    (p.bytesNeeded = 0 ∨ buf = []) ∧ p₁ = p ∧ rest = buf ∨
    (p.bytesNeeded = 2 ∧ ∃ b c, buf = b :: c :: rest ∧ p₁ = p.readBasicHeader ⟨b, c⟩ 2) ∨
    (p.bytesNeeded = 2 ∧ ∃ b, buf = [b] ∧ rest = [] ∧
      p₁ = p.readBasicHeader ⟨b, p.basicHeader.b1⟩ 1) ∨
    (p.bytesNeeded ≠ 0 ∧ p.bytesNeeded ≠ 2 ∧ ∃ b, buf = b :: rest ∧
      p₁ = p.readBasicHeader ⟨p.basicHeader.b0, b⟩ 1) := by
  by_cases h0 : p.bytesNeeded = 0
  · rw [copyBasicHeaderBytes.eq_def, if_pos h0] at hcopy
    obtain ⟨rfl, rfl⟩ := Prod.mk.inj hcopy
    exact .inl ⟨.inl h0, rfl, rfl⟩
  rw [copyBasicHeaderBytes.eq_def, if_neg h0] at hcopy
  rcases buf with _ | ⟨b, _ | ⟨c, buf⟩⟩
  · obtain ⟨rfl, rfl⟩ := Prod.mk.inj hcopy
    exact .inl ⟨.inr rfl, rfl, rfl⟩
  · simp only at hcopy
    split_ifs at hcopy with h2 <;> obtain ⟨rfl, rfl⟩ := Prod.mk.inj hcopy
    · exact .inr (.inr (.inl ⟨h2, _, rfl, rfl, rfl⟩))
    · exact .inr (.inr (.inr ⟨h0, h2, _, rfl, rfl⟩))
  · simp only at hcopy
    split_ifs at hcopy with h2 <;> obtain ⟨rfl, rfl⟩ := Prod.mk.inj hcopy
    · exact .inr (.inl ⟨h2, _, _, rfl, rfl⟩)
    · exact .inr (.inr (.inr ⟨h0, h2, _, rfl, rfl⟩))

theorem copyBasicHeaderBytes_state (hcopy : p.copyBasicHeaderBytes buf = (p₁, rest)) :
    p₁.state = p.state := by
  rcases copyBasicHeaderBytes_cases hcopy with ⟨-, rfl, -⟩ | ⟨-, b, c, -, rfl⟩ |
    ⟨-, b, -, -, rfl⟩ | ⟨-, -, b, -, rfl⟩ <;> rfl

/-- What appending bytes of a payload changes. -/
theorem appendPayload_spec (out : Message) (bytes : List UInt8) (key : Word) (v : Validator) :
    (p.appendPayload out bytes key v).state = p.state ∧
      (p.appendPayload out bytes key v).basicHeader = p.basicHeader ∧
      (p.appendPayload out bytes key v).extendedHeader = p.extendedHeader ∧
      (p.appendPayload out bytes key v).bytesNeeded = p.bytesNeeded - bytes.length ∧
      (p.appendPayload out bytes key v).current = p.current ∧
      (p.appendPayload out bytes key v).currentMsg =
        { msg := some { out with payload := out.payload ++ bytes }
          preparedKey := key
          validator := v } ∧
      (p.current = .control → (p.appendPayload out bytes key v).dataMsg = p.dataMsg) := by
  rw [appendPayload, setCurrentMsg]
  cases hc : p.current with
  | data => exact ⟨rfl, rfl, rfl, rfl, rfl, rfl, nofun⟩
  | control => exact ⟨rfl, rfl, rfl, rfl, rfl, rfl, fun _ => rfl⟩

theorem processPayloadBytes_state (h : p.processPayloadBytes buf = .ok p₁) :
    p₁.state = p.state := by
  unfold processPayloadBytes at h
  split at h
  · cases h
    rfl
  · simp only at h
    split_ifs at h <;> cases h <;> exact (appendPayload_spec _ _ _ _).1

theorem readPayload_state (h : p.readPayload buf = .ok p₁) : p₁.state = p.state := by
  rw [readPayload] at h
  split_ifs at h
  · exact processPayloadBytes_state h
  · cases h
    rfl

theorem startData_state {key : Word} (h : p.startData cfg key = .ok p₁) : p₁.state = p.state := by
  unfold startData at h
  split at h <;> split_ifs at h <;> cases h <;> rfl

theorem startPayload_state (h : p.startPayload cfg = .ok p₁) : p₁.state = .application := by
  unfold startPayload at h
  simp only at h
  split_ifs at h
  · cases h
    rfl
  · exact startData_state h

theorem copyExtendedHeaderBytes_spec (hs : p.state = .headerExtended)
    (hcopy : p.copyExtendedHeaderBytes buf = (p₁, rest)) :
    p₁.state = .headerExtended ∧
      p₁.bytesNeeded = p.bytesNeeded - min p.bytesNeeded buf.length ∧
      rest = buf.drop (min p.bytesNeeded buf.length) := by
  rw [copyExtendedHeaderBytes, dif_pos hs] at hcopy
  obtain ⟨rfl, rfl⟩ := Prod.mk.inj hcopy
  exact ⟨hs, rfl, rfl⟩

theorem endFrame_state (h : p.endFrame = .ok p₁) :
    p₁.state = .ready ∨ p₁ = p.resetHeaders := by
  unfold endFrame finalizeMessage at h
  split_ifs at h
  · cases h
    exact .inl rfl
  · cases h
    exact .inr rfl

/-! ### The loop ends -/

/-- The order of the states within a frame, from the last one on. -/
def rank (p : Processor) : ℕ :=
  match p.state with
  | .headerBasic => if p.bytesNeeded = 0 then 4 else 0
  | .headerExtended => 3
  | .application => 2
  | .ready => 1

/-- What a turn makes smaller. -/
def weight (p : Processor) (buf : List UInt8) : ℕ := 5 * buf.length + p.rank

theorem map_eq_ok {α β : Type} {x : Except ProcessorError α} {f : α → β} {b : β}
    (h : x.map f = .ok b) : ∃ a, x = .ok a ∧ f a = b := by
  cases x with
  | error e => exact nomatch h
  | ok a => exact ⟨a, rfl, Except.ok.inj h⟩

theorem pos_of_read {n : ℕ} (hread : buf ≠ [] ∨ n = 0) (h : 0 < n - min n buf.length) :
    0 < min n buf.length := by
  have hbuf : 0 < buf.length := by
    rcases hread with hbuf | rfl
    · exact List.length_pos_of_ne_nil hbuf
    · simp at h
  omega

theorem turn_weight (hr : p.Reads buf) (h : p.turn cfg buf = .ok (p', rest)) :
    p'.weight rest < p.weight buf := by
  obtain ⟨hs, hread⟩ := hr
  rw [weight, weight]
  cases hstate : p.state with
  | headerBasic =>
    rcases hcopy : p.copyBasicHeaderBytes buf with ⟨p₁, rest₁⟩
    rw [turn_headerBasic hstate hcopy] at h
    have hstate₁ := (copyBasicHeaderBytes_state hcopy).trans hstate
    -- nothing is read only if the header is complete, and then the state changes
    have hlt : rest₁.length < buf.length ∨ p₁.bytesNeeded = 0 ∧ rest₁ = buf ∧ p₁ = p := by
      rcases copyBasicHeaderBytes_cases hcopy with ⟨h0, rfl, rfl⟩ | ⟨-, b, c, rfl, -⟩ |
        ⟨-, b, rfl, rfl, -⟩ | ⟨-, -, b, rfl, -⟩
      · exact .inr ⟨by tauto, rfl, rfl⟩
      all_goals
        left
        simp
    split_ifs at h with hneeded
    · obtain ⟨rfl, rfl⟩ := Prod.mk.inj (Except.ok.inj h)
      have hrank : p₁.rank = 0 := by simp [rank, hstate₁, Nat.ne_of_gt hneeded]
      omega
    · split at h
      · exact nomatch h
      · obtain ⟨rfl, rfl⟩ := Prod.mk.inj (Except.ok.inj h)
        have hrank : p₁.startExtendedHeader.rank = 3 := rfl
        rcases hlt with hlt | ⟨h0, rfl, rfl⟩
        · omega
        · have hrank' : p₁.rank = 4 := by simp [rank, hstate₁, h0]
          omega
  | headerExtended =>
    rcases hcopy : p.copyExtendedHeaderBytes buf with ⟨p₁, rest₁⟩
    rw [turn_headerExtended hstate hcopy] at h
    have hrank : p.rank = 3 := by simp [rank, hstate]
    obtain ⟨hstate₁, hneeded₁, rfl⟩ := copyExtendedHeaderBytes_spec hstate hcopy
    have hdrop := List.length_drop (i := min p.bytesNeeded buf.length) (l := buf)
    split_ifs at h with hneeded
    · obtain ⟨rfl, rfl⟩ := Prod.mk.inj (Except.ok.inj h)
      have hpos := pos_of_read hread (hneeded₁ ▸ hneeded)
      have hrank₁ : p₁.rank = 3 := by simp [rank, hstate₁]
      omega
    · split at h
      · exact nomatch h
      · obtain ⟨p₂, hp₂, heq⟩ := map_eq_ok h
        obtain ⟨rfl, rfl⟩ := Prod.mk.inj heq
        have hrank₂ : p₂.rank = 2 := by simp [rank, startPayload_state hp₂]
        omega
  | application =>
    rw [turn_application hstate] at h
    have hrank : p.rank = 2 := by simp [rank, hstate]
    have hdrop := List.length_drop (i := min p.bytesNeeded buf.length) (l := buf)
    cases hp₁ : p.readPayload buf with
    | error e =>
      rw [hp₁] at h
      exact nomatch h
    | ok p₁ =>
      rw [hp₁] at h
      simp only at h
      split_ifs at h with hneeded
      · obtain ⟨rfl, rfl⟩ := Prod.mk.inj (Except.ok.inj h)
        have hrank₁ : p₁.rank = 2 := by simp [rank, readPayload_state hp₁, hstate]
        have hpos : 0 < min p.bytesNeeded buf.length := by
          by_contra hzero
          rw [readPayload, if_neg hzero] at hp₁
          cases hp₁
          exact hzero (pos_of_read hread (by omega))
        omega
      · obtain ⟨p₂, hp₂, heq⟩ := map_eq_ok h
        obtain ⟨rfl, rfl⟩ := Prod.mk.inj heq
        have hrank₂ : p₂.rank ≤ 1 := by
          rcases endFrame_state hp₂ with h | rfl
          · simp [rank, h]
          · simp [rank, resetHeaders, basicHeaderLength]
        omega
  | ready => exact absurd hstate hs

/-- The loop of `consume`: the processor and what is left of the buffer. -/
def consume (cfg : Config) (p : Processor) (buf : List UInt8) :
    Except ProcessorError (Processor × List UInt8) :=
  if _ : p.Reads buf then
    match _ : p.turn cfg buf with
    | .error e => .error e
    | .ok (p', rest) => consume cfg p' rest
  else .ok (p, buf)
termination_by p.weight buf
decreasing_by exact turn_weight ‹_› ‹_›

theorem consume_of_reads (hr : p.Reads buf) : p.consume cfg buf =
    match p.turn cfg buf with
    | .error e => .error e
    | .ok (p', rest) => p'.consume cfg rest := by
  rw [consume, dif_pos hr]
  cases h : p.turn cfg buf <;> rfl

theorem consume_of_not (hr : ¬ p.Reads buf) : p.consume cfg buf = .ok (p, buf) := by
  rw [consume, dif_neg hr]

theorem consume_weight (h : p.consume cfg buf = .ok (p', rest)) :
    p'.weight rest ≤ p.weight buf ∧ (p.Reads buf → p'.weight rest < p.weight buf) := by
  induction p, buf using consume.induct cfg with
  | case1 p buf hr e hturn =>
    rw [consume_of_reads hr, hturn] at h
    exact nomatch h
  | case2 p buf hr p₁ rest₁ hturn ih =>
    rw [consume_of_reads hr, hturn] at h
    have hlt := turn_weight hr hturn
    have hle := (ih h).1
    exact ⟨by omega, fun _ => by omega⟩
  | case3 p buf hr =>
    rw [consume_of_not hr] at h
    obtain ⟨rfl, rfl⟩ := Prod.mk.inj (Except.ok.inj h)
    exact ⟨Nat.le_refl _, fun hr' => absurd hr' hr⟩

/-- The loop ends with a message or without bytes. -/
theorem not_reads_of_consume (h : p.consume cfg buf = .ok (p', rest)) : ¬ p'.Reads rest := by
  induction p, buf using consume.induct cfg with
  | case1 p buf hr e hturn =>
    rw [consume_of_reads hr, hturn] at h
    exact nomatch h
  | case2 p buf hr p₁ rest₁ hturn ih =>
    rw [consume_of_reads hr, hturn] at h
    exact ih h
  | case3 p buf hr =>
    rw [consume_of_not hr] at h
    obtain ⟨rfl, rfl⟩ := Prod.mk.inj (Except.ok.inj h)
    exact hr

theorem rank_getMessage (hr : p.ready = true) : p.rank = 1 ∧ (p.getMessage.2).rank = 0 := by
  have hs : p.state = .ready := by simpa [ready] using hr
  have hreset : ∀ q : Processor, q.resetHeaders.rank = 0 := fun q => rfl
  refine ⟨by simp [rank, hs], ?_⟩
  rw [getMessage, if_neg (by simp [hr])]
  split <;> exact hreset _

/-- What taking the message leaves: headers to be read, and the data message under way unless it was
taken. -/
theorem getMessage_spec {m : Message} (hr : p.ready = true) (hmsg : p.currentMsg.msg = some m) :
    p.getMessage.1 = some m ∧ p.getMessage.2.state = .headerBasic ∧
      p.getMessage.2.bytesNeeded = basicHeaderLength ∧ p.getMessage.2.extendedHeader = .zero ∧
      (p.current = .control → m.opcode.isControl = true →
        p.getMessage.2.dataMsg = p.dataMsg) ∧
      (m.opcode.isControl = false → p.getMessage.2.dataMsg.msg = none) := by
  rw [getMessage, if_neg (by simp [hr]), hmsg]
  refine ⟨rfl, rfl, rfl, rfl, fun hc hop => ?_, fun hop => ?_⟩
  · simp only [hop, if_true, resetHeaders, setCurrentMsg, hc]
  · simp only [hop, Bool.false_eq_true, if_false, resetHeaders]

/-! ### One read -/

/-- The loop of `handle_read_frame` over the bytes of one read: the messages it gets, and the
processor after it unless there is an error. -/
def readMessages (cfg : Config) (p : Processor) (buf : List UInt8) :
    List Message × Except ProcessorError Processor :=
  if _hbuf : buf = [] then ([], .ok p)
  else
    match _h : p.consume cfg buf with
    | .error e => ([], .error e)
    | .ok (p₁, rest) =>
      if _hready : p₁.ready then
        (p₁.getMessage.1.toList ++ (readMessages cfg p₁.getMessage.2 rest).1,
          (readMessages cfg p₁.getMessage.2 rest).2)
      else readMessages cfg p₁ rest
termination_by p.weight buf
decreasing_by
  · have hle := (consume_weight _h).1
    have hrank := rank_getMessage _hready
    simp only [weight] at *
    omega
  · refine (consume_weight _h).2 ⟨fun hs => _hready ?_, .inl _hbuf⟩
    have hno : ¬ p.Reads buf := fun hr => hr.1 hs
    rw [consume_of_not hno] at _h
    obtain ⟨rfl, rfl⟩ := Prod.mk.inj (Except.ok.inj _h)
    simp [ready, hs]

theorem readMessages_nil : p.readMessages cfg [] = ([], .ok p) := by
  rw [readMessages, dif_pos rfl]

theorem readMessages_of_ne (hbuf : buf ≠ []) : p.readMessages cfg buf =
    match p.consume cfg buf with
    | .error e => ([], .error e)
    | .ok (p₁, rest) =>
      if p₁.ready then
        (p₁.getMessage.1.toList ++ (p₁.getMessage.2.readMessages cfg rest).1,
          (p₁.getMessage.2.readMessages cfg rest).2)
      else p₁.readMessages cfg rest := by
  rw [readMessages, dif_neg hbuf]
  cases h : p.consume cfg buf with
  | error e => rfl
  | ok result => rfl

end Processor

end Websocket

end MoonJamRelay
