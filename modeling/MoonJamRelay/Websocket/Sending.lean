import MoonJamRelay.Websocket.Reading

/-!
# Sending messages

What an endpoint writes: `prepare_data_frame` makes a frame of a message, and `prepare_control` one
of a ping, a pong or a close, whose payload is a code and a reason.

* `prepareDataFrame_spec`, `prepareControl_spec` : what is prepared is a frame, or an error.
* `messages_read` : the other endpoint reads the messages whose frames were written, in their order,
  in whatever pieces the bytes come.
* `close_payloads` : the payloads of closes that are accepted are those that `prepare_close` makes.
-/

namespace MoonJamRelay

namespace Websocket

/-! ### Close codes -/

namespace CloseStatus

/-- `status::blank`. -/
def blank : UInt16 := 0

/-- `status::normal`. -/
def normal : UInt16 := 1000

/-- `status::protocol_error`. -/
def protocolError : UInt16 := 1002

/-- `status::no_status`. -/
def noStatus : UInt16 := 1005

/-- `status::abnormal_close`. -/
def abnormalClose : UInt16 := 1006

/-- `status::invalid_payload`. -/
def invalidPayload : UInt16 := 1007

/-- `status::policy_violation`. -/
def policyViolation : UInt16 := 1008

/-- `status::message_too_big`. -/
def messageTooBig : UInt16 := 1009

/-- `status::internal_endpoint_error`. -/
def internalEndpointError : UInt16 := 1011

/-- `status::tls_handshake`. -/
def tlsHandshake : UInt16 := 1015

/-- `status::rsv_start`. -/
def rsvStart : UInt16 := 1016

/-- `status::rsv_end`. -/
def rsvEnd : UInt16 := 2999

/-- `status::invalid_low`. -/
def invalidLow : UInt16 := 999

/-- `status::invalid_high`. -/
def invalidHigh : UInt16 := 5000

/-- `status::reserved`. -/
def reserved (code : UInt16) : Bool :=
  decide (rsvStart ≤ code) && decide (code ≤ rsvEnd) || code == 1004

/-- `status::invalid`. -/
def invalid (code : UInt16) : Bool :=
  decide (code ≤ invalidLow) || decide (invalidHigh ≤ code) || code == noStatus ||
    code == abnormalClose || code == tlsHandshake

/-- `status::terminal`. -/
def terminal (code : UInt16) : Bool :=
  code == protocolError || code == invalidPayload || code == policyViolation ||
    code == messageTooBig || code == internalEndpointError

end CloseStatus

/-- The errors that a close payload can have. -/
inductive CloseError where
  | badCloseCode | reservedCloseCode | invalidCloseCode | invalidUtf8
  deriving DecidableEq

/-- `extract_code`: the code, and the error if there is one. -/
def extractCode (payload : List UInt8) : UInt16 × Option CloseError :=
  match payload with
  | [] => (CloseStatus.noStatus, none)
  | [_] => (CloseStatus.protocolError, some .badCloseCode)
  | b0 :: b1 :: _ =>
    let code := UInt16.ofNat (ofBigEndian [b0, b1])
    (code,
      if CloseStatus.reserved code then some .reservedCloseCode
      else if CloseStatus.invalid code then some .invalidCloseCode
      else none)

/-- `extract_reason`: the reason, and the error if there is one. -/
def extractReason (payload : List UInt8) : List UInt8 × Option CloseError :=
  let reason := if 2 < payload.length then payload.drop 2 else []
  (reason, if validate reason then none else some .invalidUtf8)

/-! ### Preparing frames -/

/-- The key of a frame that is written: none for a server, else the next random number. -/
def Config.frameKey (cfg : Config) (rng : MaskingKey) : Option MaskingKey :=
  if cfg.server then none else some rng

/-- The payload that is written: masked by `masked_copy`, or a copy. -/
def copyPayload (payload : List UInt8) : Option MaskingKey → List UInt8
  | none => payload
  | some key => byteMask payload key 0

/-- `prepare_data_frame`, with the next random number. -/
def prepareDataFrame (cfg : Config) (rng : MaskingKey) (m : Message) :
    Except ProcessorError Message :=
  if m.opcode.isControl then .error .invalidOpcode
  else if m.opcode = .text ∧ ¬ validate m.payload then .error .invalidPayload
  else
    let key := cfg.frameKey rng
    .ok
      { header := headerBytes m.opcode m.fin m.payload.length key
        payload := copyPayload m.payload key
        opcode := m.opcode
        prepared := true }

/-- `prepare_control`, with the next random number. -/
def prepareControl (cfg : Config) (rng : MaskingKey) (op : Opcode) (payload : List UInt8) :
    Except ProcessorError Message :=
  if ¬ op.isControl then .error .invalidOpcode
  else if payloadSizeBasic < payload.length then .error .controlTooBig
  else
    let key := cfg.frameKey rng
    .ok
      { header := headerBytes op true payload.length key
        payload := copyPayload payload key
        opcode := op
        prepared := true }

/-- `prepare_pong`. -/
def preparePong (cfg : Config) (rng : MaskingKey) (payload : List UInt8) :
    Except ProcessorError Message :=
  prepareControl cfg rng .pong payload

/-- The payload of a close. -/
def closePayload (code : UInt16) (reason : List UInt8) : List UInt8 :=
  if code = CloseStatus.noStatus then [] else bigEndian 2 code.toNat ++ reason

/-- `prepare_close`. -/
def prepareClose (cfg : Config) (rng : MaskingKey) (code : UInt16) (reason : List UInt8) :
    Except ProcessorError Message :=
  if CloseStatus.reserved code then .error .reservedCloseCode
  else if CloseStatus.invalid code ∧ code ≠ CloseStatus.noStatus then .error .invalidCloseCode
  else if code = CloseStatus.noStatus ∧ 0 < reason.length then .error .reasonRequiresCode
  else if payloadSizeBasic - 2 < reason.length then .error .controlTooBig
  else prepareControl cfg rng .close (closePayload code reason)

/-- The bytes of a prepared message, in the order in which they are written. -/
def Message.bytes (m : Message) : List UInt8 := m.header ++ m.payload

variable {cfg peer : Config} {rng : MaskingKey} {m out : Message} {op : Opcode}
  {payload reason : List UInt8} {code : UInt16} {f : Frame} {fs gs : List Frame}
  {bufs : List (List UInt8)} {pending : Option Message}

theorem copyPayload_eq (payload : List UInt8) (key : Option MaskingKey) :
    copyPayload payload key = maskWith key payload := by
  cases key with
  | none => rfl
  | some key => exact byteMask_eq payload

theorem isSome_frameKey (cfg : Config) (rng : MaskingKey) :
    (cfg.frameKey rng).isSome = !cfg.server := by
  rw [Config.frameKey]
  split_ifs with h <;> simp [h]

/-- The prepared message is this frame. -/
structure Message.Is (out : Message) (f : Frame) : Prop where
  bytes : out.bytes = f.encode
  opcode : out.opcode = f.opcode
  terminal : out.terminal = false

theorem prepareDataFrame_spec (h : prepareDataFrame cfg rng m = .ok out) :
    m.opcode.isControl = false ∧ (m.opcode = .text → IsText m.payload) ∧
      out.Is ⟨m.opcode, m.fin, cfg.frameKey rng, m.payload⟩ := by
  rw [prepareDataFrame] at h
  split_ifs at h with hop htext
  obtain rfl := Except.ok.inj h
  refine ⟨by simpa using hop, fun hm => ?_, ?_, rfl, rfl⟩
  · rw [← validate_iff]
    by_contra hbad
    exact htext ⟨hm, hbad⟩
  · rw [Message.bytes, copyPayload_eq, Frame.encode]

theorem prepareControl_spec (h : prepareControl cfg rng op payload = .ok out) :
    op.isControl = true ∧ payload.length ≤ payloadSizeBasic ∧
      out.Is ⟨op, true, cfg.frameKey rng, payload⟩ := by
  rw [prepareControl] at h
  split_ifs at h with hop hlen
  obtain rfl := Except.ok.inj h
  refine ⟨by simpa using hop, Nat.le_of_not_lt hlen, ?_, rfl, rfl⟩
  rw [Message.bytes, copyPayload_eq, Frame.encode]

/-! ### Frames that are whole messages -/

/-- The message that a frame is. -/
def Frame.message (f : Frame) : Message := { opcode := f.opcode, payload := f.payload }

/-- The frame is a whole message, which an endpoint accepts between two messages. -/
structure Frame.Whole (cfg : Config) (f : Frame) : Prop where
  fin : f.fin = true
  legal : f.Legal cfg none

theorem Frame.Whole.after (hf : f.Whole cfg) : f.after none = (none, [f.message]) := by
  rw [Frame.after, if_pos hf.fin]
  split_ifs <;> rfl

theorem legalFrames_of_whole (hfs : ∀ f ∈ fs, f.Whole cfg) : LegalFrames cfg none fs := by
  induction fs with
  | nil => trivial
  | cons f fs ih =>
    have hf := hfs f List.mem_cons_self
    refine ⟨hf.legal, ?_⟩
    rw [hf.after]
    exact ih fun g hg => hfs g (List.mem_cons_of_mem f hg)

theorem received_of_whole (hfs : ∀ f ∈ fs, f.Whole cfg) :
    received none fs = (none, fs.map Frame.message) := by
  induction fs with
  | nil => rfl
  | cons f fs ih =>
    have ih := ih fun g hg => hfs g (List.mem_cons_of_mem f hg)
    rw [received, (hfs f List.mem_cons_self).after, ih]
    rfl

/-- The beginning of some whole messages is read as the first ones of them. -/
theorem readAll_whole (hgs : ∀ g ∈ gs, g.Whole cfg) (hbytes : bufs.flatten <+: encodes gs) :
    ∃ n p, readAll cfg .new bufs = ((gs.take n).map Frame.message, .ok p) ∧
      (bufs.flatten = encodes gs → n = gs.length) := by
  have hlegal := legalFrames_of_whole hgs
  by_cases hall : bufs.flatten = encodes gs
  · obtain ⟨hok, hmsgs⟩ := readAll_encodes hall fun g hg => (hgs g hg).legal.size_lt
    obtain ⟨p, hp⟩ := hok.2 hlegal
    refine ⟨gs.length, p, Prod.ext ?_ hp, fun _ => rfl⟩
    rw [hmsgs hlegal, received_of_whole hgs, List.take_length]
  · obtain ⟨fs, p, hfs, hread⟩ := readAll_of_begin hlegal hbytes
    refine ⟨fs.length, p, ?_, fun h => absurd h hall⟩
    rw [hread, ← List.prefix_iff_eq_take.1 hfs,
      received_of_whole fun f hf => hgs f (hfs.subset hf)]

/-! ### What the other endpoint reads -/

/-- Prepare a message: a data frame, or a control frame with its payload. -/
def Config.prepare (cfg : Config) (rng : MaskingKey) (m : Message) :
    Except ProcessorError Message :=
  if m.opcode.isControl then prepareControl cfg rng m.opcode m.payload
  else prepareDataFrame cfg rng m

/-- The message can be sent to an endpoint: it is not a part of one, its opcode has a meaning, and
its size is allowed there. -/
structure Message.Sendable (peer : Config) (m : Message) : Prop where
  fin : m.fin = true
  opcode : m.opcode.reserved = false ∧ m.opcode ≠ .continuation
  size : m.opcode.isControl = false → m.payload.length ≤ peer.maxMessageSize ∧
    m.payload.length < 2 ^ 64

theorem whole_frame (hrole : peer.server = !cfg.server) (hm : m.Sendable peer)
    (hcontrol : m.opcode.isControl = true → m.payload.length ≤ payloadSizeBasic)
    (htext : m.opcode = .text → IsText m.payload) :
    (⟨m.opcode, true, cfg.frameKey rng, m.payload⟩ : Frame).Whole peer := by
  refine ⟨rfl, ?_⟩
  constructor
  · exact (isSome_frameKey cfg rng).trans hrole.symm
  · cases hop : m.opcode.isControl with
    | true => exact Nat.lt_of_le_of_lt (hcontrol hop) (by decide)
    | false => exact (hm.size hop).2
  · exact hm.opcode.1
  · exact fun hop => ⟨rfl, hcontrol hop⟩
  · exact fun _ => ⟨fun h => absurd h hm.opcode.2, nofun⟩
  · intro hop
    have hsize := hm.size (by simpa using hop)
    change (0 + m.payload.length) % 2 ^ 64 ≤ _
    rw [Nat.zero_add, Nat.mod_eq_of_lt hsize.2]
    exact hsize.1
  · exact fun _ hop => (htext hop).textPrefix
  · exact fun hop _ => htext hop

theorem prepare_spec (hrole : peer.server = !cfg.server) (hm : m.Sendable peer)
    (h : cfg.prepare rng m = .ok out) :
    ∃ f : Frame, out.Is f ∧ f.Whole peer ∧
      f.message = { opcode := m.opcode, payload := m.payload } := by
  rw [Config.prepare] at h
  split_ifs at h with hop
  · obtain ⟨-, hlen, his⟩ := prepareControl_spec h
    refine ⟨_, his, whole_frame hrole hm (fun _ => hlen) fun htext => ?_, rfl⟩
    rw [htext] at hop
    exact absurd hop (by decide)
  · obtain ⟨hnot, htext, his⟩ := prepareDataFrame_spec h
    rw [hm.fin] at his
    exact ⟨_, his, whole_frame hrole hm (fun hc => absurd hc hop) htext, rfl⟩

theorem frames_of_messages {ms outs : List Message}
    (h : List.Forall₂ (fun m out => ∃ f : Frame, out.bytes = f.encode ∧ f.Whole peer ∧
      f.message = { opcode := m.opcode, payload := m.payload }) ms outs) :
    ∃ gs : List Frame, outs.flatMap Message.bytes = encodes gs ∧ (∀ g ∈ gs, g.Whole peer) ∧
      gs.map Frame.message = ms.map fun m => { opcode := m.opcode, payload := m.payload } := by
  induction h with
  | nil => exact ⟨[], rfl, nofun, rfl⟩
  | @cons m out ms outs hout _ ih =>
    obtain ⟨f, hencode, hf, hmessage⟩ := hout
    obtain ⟨gs, hbytes, hgs, hmessages⟩ := ih
    refine ⟨f :: gs, ?_, List.forall_mem_cons.2 ⟨hf, hgs⟩, ?_⟩
    · rw [List.flatMap_cons, hencode, hbytes, encodes_cons]
    · rw [List.map_cons, List.map_cons, hmessage, hmessages]

theorem prepared_frames (hrole : peer.server = !cfg.server) {ms outs : List Message}
    (hprep : List.Forall₂ (fun m out => ∃ rng, cfg.prepare rng m = .ok out) ms outs)
    (hms : ∀ m ∈ ms, m.Sendable peer) :
    ∃ gs : List Frame, outs.flatMap Message.bytes = encodes gs ∧ (∀ g ∈ gs, g.Whole peer) ∧
      gs.map Frame.message = ms.map fun m => { opcode := m.opcode, payload := m.payload } := by
  refine frames_of_messages (List.forall₂_iff_get.2 ⟨hprep.length_eq, fun i hi hi' => ?_⟩)
  obtain ⟨rng, hout⟩ := hprep.get hi hi'
  obtain ⟨f, his, hf, hmessage⟩ := prepare_spec hrole (hms _ (List.get_mem _ _)) hout
  exact ⟨f, his.bytes, hf, hmessage⟩

/-- **Sending and reading**: of the messages that an endpoint prepares and writes, an endpoint of
the other role reads the first ones, in their order and each as it is, in whatever pieces the bytes
come, and all of them when all bytes have come; nothing is refused. -/
theorem messages_read (cfg peer : Config) (hrole : peer.server = !cfg.server)
    (ms outs : List Message)
    (hprep : List.Forall₂ (fun m out => ∃ rng, cfg.prepare rng m = .ok out) ms outs)
    (hms : ∀ m ∈ ms, m.Sendable peer) (bufs : List (List UInt8))
    (hbufs : bufs.flatten <+: outs.flatMap Message.bytes) :
    ∃ n p, readAll peer .new bufs =
        ((ms.take n).map fun m => { opcode := m.opcode, payload := m.payload }, .ok p) ∧
      (bufs.flatten = outs.flatMap Message.bytes → n = ms.length) := by
  obtain ⟨gs, hbytes, hgs, hmessages⟩ := prepared_frames hrole hprep hms
  rw [hbytes] at hbufs ⊢
  obtain ⟨n, p, hread, hall⟩ := readAll_whole hgs hbufs
  have hlen : gs.length = ms.length := by
    simpa using congrArg List.length hmessages
  refine ⟨n, p, ?_, fun h => (hall h).trans hlen⟩
  rw [hread, List.map_take, hmessages, ← List.map_take]

/-- A binary message of three bytes, read in two pieces. -/
theorem messages_read_three : ∃ n p, readAll ⟨false, 32000000⟩ .new [[0x82, 3, 1], [2, 3]] =
      (([{ opcode := .binary, payload := [1, 2, 3] }].take n).map fun m : Message =>
        { opcode := m.opcode, payload := m.payload }, .ok p) ∧
    ([[(0x82 : UInt8), 3, 1], [2, 3]].flatten = [0x82, 3, 1, 2, 3] → n = 1) :=
  messages_read ⟨true, 32000000⟩ ⟨false, 32000000⟩ rfl [{ opcode := .binary, payload := [1, 2, 3] }]
    [{ header := [0x82, 3], payload := [1, 2, 3], opcode := .binary, prepared := true }]
    (.cons ⟨.zero, rfl⟩ .nil)
    (List.forall_mem_singleton.2 ⟨rfl, ⟨rfl, nofun⟩, fun _ => by decide⟩)
    [[0x82, 3, 1], [2, 3]] ⟨[], rfl⟩

/-! ### Payloads of closes -/

/-- A code and a reason that `prepare_close` accepts. -/
structure Closable (code : UInt16) (reason : List UInt8) : Prop where
  reserved : CloseStatus.reserved code = false
  invalid : CloseStatus.invalid code = true → code = CloseStatus.noStatus
  noReason : code = CloseStatus.noStatus → reason = []
  size : reason.length ≤ closeReasonSize

theorem length_closePayload (hsize : reason.length ≤ closeReasonSize) :
    (closePayload code reason).length ≤ payloadSizeBasic := by
  rw [closePayload]
  split_ifs
  · exact Nat.zero_le _
  · rw [List.length_append, length_bigEndian]
    simp only [closeReasonSize, payloadSizeBasic] at *
    omega

theorem prepareClose_eq (h : Closable code reason) : prepareClose cfg rng code reason =
    prepareControl cfg rng .close (closePayload code reason) := by
  have hreason : ¬ (code = CloseStatus.noStatus ∧ 0 < reason.length) := by
    rintro ⟨hcode, hlen⟩
    rw [h.noReason hcode] at hlen
    exact Nat.lt_irrefl _ hlen
  have hsize : ¬ payloadSizeBasic - 2 < reason.length := Nat.not_lt.2 h.size
  rw [prepareClose, if_neg (by simp [h.reserved]), if_neg fun hc => hc.2 (h.invalid hc.1),
    if_neg hreason, if_neg hsize]

theorem prepareClose_ok : (∃ out, prepareClose cfg rng code reason = .ok out) ↔
    Closable code reason := by
  constructor
  · rintro ⟨out, h⟩
    rw [prepareClose] at h
    split_ifs at h with hres hinv hreason hsize
    refine ⟨by simpa using hres, fun hi => ?_, fun hc => ?_, Nat.le_of_not_lt hsize⟩
    · by_contra hne
      exact hinv ⟨hi, hne⟩
    · by_contra hne
      exact hreason ⟨hc, List.length_pos_of_ne_nil hne⟩
  · intro h
    rw [prepareClose_eq h, prepareControl, if_neg (by decide),
      if_neg (Nat.not_lt.2 (length_closePayload h.size))]
    exact ⟨_, rfl⟩

theorem extractReason_ok : extractReason payload = (reason, none) ↔
    payload.drop 2 = reason ∧ IsText reason := by
  have hdrop : (if 2 < payload.length then payload.drop 2 else []) = payload.drop 2 := by
    split_ifs with h
    · rfl
    · exact (List.drop_eq_nil_of_le (Nat.le_of_not_lt h)).symm
  rw [extractReason, hdrop, Prod.mk.injEq, ← validate_iff]
  refine and_congr_right fun h => ?_
  rw [h]
  split_ifs with hvalid <;> simp [hvalid]

theorem bigEndian_code (b0 b1 : UInt8) :
    bigEndian 2 (UInt16.ofNat (ofBigEndian [b0, b1])).toNat = [b0, b1] := by
  have hlt : ofBigEndian [b0, b1] < 256 ^ 2 := ofBigEndian_lt [b0, b1]
  have hmod : (UInt16.ofNat (ofBigEndian [b0, b1])).toNat = ofBigEndian [b0, b1] := by
    rw [UInt16.toNat_ofNat']
    exact Nat.mod_eq_of_lt hlt
  rw [hmod]
  exact bigEndian_ofBigEndian [b0, b1]

theorem code_bigEndian (code : UInt16) : ∃ b0 b1, bigEndian 2 code.toNat = [b0, b1] ∧
    UInt16.ofNat (ofBigEndian [b0, b1]) = code := by
  obtain ⟨b0, b1, hbytes⟩ := List.length_eq_two.1 (length_bigEndian 2 code.toNat)
  refine ⟨b0, b1, hbytes, ?_⟩
  have hlt : code.toNat < 256 ^ 2 := UInt16.toNat_lt code
  rw [← hbytes, ofBigEndian_bigEndian, Nat.mod_eq_of_lt hlt]
  exact UInt16.ofNat_toNat

theorem extractCode_ok {b0 b1 : UInt8} {rest : List UInt8} :
    extractCode (b0 :: b1 :: rest) = (code, none) ↔
      UInt16.ofNat (ofBigEndian [b0, b1]) = code ∧ CloseStatus.reserved code = false ∧
        CloseStatus.invalid code = false := by
  rw [extractCode, Prod.ext_iff]
  simp only
  constructor
  · rintro ⟨rfl, h⟩
    split_ifs at h with hres hinv
    exact ⟨rfl, by simpa using hres, by simpa using hinv⟩
  · rintro ⟨rfl, hres, hinv⟩
    simp [hres, hinv]

theorem code_ne_noStatus (h : CloseStatus.invalid code = false) : code ≠ CloseStatus.noStatus := by
  rintro rfl
  exact absurd h (by decide)

/-- A payload from which a code and a reason are read is the one that `prepare_close` makes of
them. -/
theorem closable_of_extracted (hlen : payload.length ≤ payloadSizeBasic)
    (hcode : extractCode payload = (code, none))
    (hreason : extractReason payload = (reason, none)) :
    Closable code reason ∧ IsText reason ∧ payload = closePayload code reason := by
  obtain ⟨rfl, htext⟩ := extractReason_ok.1 hreason
  rcases payload with _ | ⟨b0, _ | ⟨b1, rest⟩⟩
  · obtain rfl := congrArg Prod.fst hcode
    exact ⟨⟨by decide, fun _ => rfl, fun _ => rfl, by decide⟩, htext, rfl⟩
  · exact nomatch congrArg Prod.snd hcode
  · obtain ⟨rfl, hres, hinv⟩ := extractCode_ok.1 hcode
    have hne := code_ne_noStatus hinv
    refine ⟨⟨hres, fun h => ?_, fun h => absurd h hne, ?_⟩, htext, ?_⟩
    · rw [hinv] at h
      exact nomatch h
    · simp only [List.length_cons, payloadSizeBasic, closeReasonSize, List.drop_succ_cons,
        List.drop_zero] at hlen ⊢
      omega
    · rw [closePayload, if_neg hne, bigEndian_code]
      rfl

/-- **Payloads of closes**: the code and the reason that are read from a payload without an error
are those from which `prepare_close` makes it, so a close can be answered with its own payload. -/
theorem close_payloads (cfg : Config) (rng : MaskingKey) (code : UInt16)
    (reason payload : List UInt8) :
    (payload.length ≤ payloadSizeBasic ∧ extractCode payload = (code, none) ∧
        extractReason payload = (reason, none)) ↔
      (∃ out, prepareClose cfg rng code reason = .ok out) ∧ IsText reason ∧
        payload = closePayload code reason := by
  rw [prepareClose_ok]
  constructor
  · rintro ⟨hlen, hcode, hreason⟩
    exact closable_of_extracted hlen hcode hreason
  · rintro ⟨h, htext, rfl⟩
    rw [extractReason_ok]
    refine ⟨length_closePayload h.size, ?_⟩
    rw [closePayload]
    split_ifs with hcode
    · rw [h.noReason hcode] at htext ⊢
      exact ⟨Prod.ext hcode.symm rfl, rfl, htext⟩
    · obtain ⟨b0, b1, hbytes, hback⟩ := code_bigEndian code
      have hinv : CloseStatus.invalid code = false := by
        by_contra hinv
        exact hcode (h.invalid (by simpa using hinv))
      rw [hbytes]
      exact ⟨extractCode_ok.2 ⟨hback, h.reserved, hinv⟩, rfl, htext⟩

end Websocket

end MoonJamRelay
