import MoonJamRelay.Websocket.Parsing

/-!
# The processor reads frames

The processor sees the bytes of a connection in pieces, as they arrive, and keeps what it has read
of a frame in its fields. `Represents` says what its fields mean: the fragments of the message under
way and the bytes of the frame under way.

* `Represents.turn_ok`, `Represents.turn_error` : a turn of the loop goes on reading the same frame,
  ends it, or refuses what the whole bytes would have been refused for.
* `Represents.more` : between two reads the frame under way is not complete.
-/

namespace MoonJamRelay

namespace Websocket

variable {cfg : Config} {pending : Option Message} {part buf rest : List UInt8}
  {p p' p₁ : Processor} {err : ProcessorError}

/-! ### What the fields mean -/

/-- The data message that is put together is `pending`. -/
structure DataRep (pending : Option Message) (m : MsgMetadata) : Prop where
  msg : m.msg = pending
  data : ∀ out ∈ pending, ¬ out.opcode.isControl
  validator : ∀ out ∈ pending, out.opcode = .text →
    Validator.decode {} out.payload = (m.validator, true)

/-- The message that is put together has got this payload from the frame under way. -/
structure PayloadRep (pending : Option Message) (p : Processor) (payload : List UInt8) : Prop where
  key : p.basicHeader.masked = true →
    PreparedFor (p.extendedHeader.maskingKey p.basicHeader) payload.length p.currentMsg.preparedKey
  text : checkText pending p.basicHeader.opcode payload = none
  control : p.basicHeader.opcode.isControl = true → p.current = .control ∧
    p.controlMsg.msg = some { opcode := p.basicHeader.opcode, payload := payload } ∧
    DataRep pending p.dataMsg
  data : p.basicHeader.opcode.isControl = false → p.current = .data ∧
    DataRep (some (joined pending p.basicHeader.opcode payload)) p.dataMsg

/-- The header of the frame under way is complete and has passed the checks. -/
structure HeaderRep (cfg : Config) (pending : Option Message) (p : Processor) (ext : List UInt8) :
    Prop where
  basic : Processor.validateIncomingBasicHeader p.basicHeader cfg.server pending.isNone = none
  bytes : p.extendedHeader = .ofBytes ext
  length : ext.length = p.basicHeader.headerLen - basicHeaderLength
  extended : Processor.validateIncomingExtendedHeader p.basicHeader p.extendedHeader = none
  size : checkSize cfg pending p.basicHeader.opcode (p.extendedHeader.payloadSize p.basicHeader) =
    none

/-- The processor has the fragments of `pending` and has read `part` of a frame. -/
inductive Represents (cfg : Config) (pending : Option Message) : List UInt8 → Processor → Prop where
  | start {p : Processor} (state : p.state = .headerBasic) (needed : p.bytesNeeded = 2)
    (zero : p.extendedHeader = .ofBytes []) (data : DataRep pending p.dataMsg) :
    Represents cfg pending [] p
  | first {p : Processor} (state : p.state = .headerBasic) (needed : p.bytesNeeded = 1)
    (zero : p.extendedHeader = .ofBytes []) (data : DataRep pending p.dataMsg) :
    Represents cfg pending [p.basicHeader.b0] p
  | header {p : Processor} {ext : List UInt8} (state : p.state = .headerExtended)
    (basic : Processor.validateIncomingBasicHeader p.basicHeader cfg.server pending.isNone = none)
    (bytes : p.extendedHeader = .ofBytes ext) (cursor : p.cursor = ext.length)
    (needed : ext.length + p.bytesNeeded = p.basicHeader.headerLen - basicHeaderLength)
    (data : DataRep pending p.dataMsg) :
    Represents cfg pending (p.basicHeader.b0 :: p.basicHeader.b1 :: ext) p
  | payload {p : Processor} {ext body : List UInt8} (state : p.state = .application)
    (header : HeaderRep cfg pending p ext)
    (needed : body.length + p.bytesNeeded = p.extendedHeader.payloadSize p.basicHeader)
    (payload : PayloadRep pending p (maskWith (p.extendedHeader.key p.basicHeader) body)) :
    Represents cfg pending (p.basicHeader.b0 :: p.basicHeader.b1 :: (ext ++ body)) p
  | message {p : Processor} {part : List UInt8} {f : Frame} (state : p.state = .ready)
    (frame : parseFrame cfg pending part = .frame f []) (fin : f.fin = true)
    (opcode : p.basicHeader.opcode = f.opcode) (payload : PayloadRep pending p f.payload) :
    Represents cfg pending part p

/-! ### Whole frames -/

theorem parseFrame_header {h : BasicHeader} {ext : List UInt8}
    (hbasic : Processor.validateIncomingBasicHeader h cfg.server pending.isNone = none)
    (hlen : ext.length < h.headerLen - basicHeaderLength) :
    parseFrame cfg pending (h.b0 :: h.b1 :: ext) = .more := by
  rw [parseFrame, hbasic]
  simp only
  rw [if_pos hlen]

theorem parseFrame_extended {h : BasicHeader} {ext body : List UInt8}
    (hbasic : Processor.validateIncomingBasicHeader h cfg.server pending.isNone = none)
    (hlen : ext.length = h.headerLen - basicHeaderLength) :
    parseFrame cfg pending (h.b0 :: h.b1 :: (ext ++ body)) =
      parseExtended cfg pending h (.ofBytes ext) body := by
  rw [parseFrame, hbasic]
  simp only
  rw [← hlen, if_neg (by simp), List.take_left, List.drop_left]

theorem HeaderRep.parse {ext : List UInt8} (hrep : HeaderRep cfg pending p ext)
    (body : List UInt8) :
    parseFrame cfg pending (p.basicHeader.b0 :: p.basicHeader.b1 :: (ext ++ body)) =
      parsePayload pending p.basicHeader (p.extendedHeader.key p.basicHeader)
        (p.extendedHeader.payloadSize p.basicHeader) body := by
  rw [parseFrame_extended hrep.basic hrep.length, ← hrep.bytes, parseExtended, hrep.extended]
  simp only
  rw [hrep.size]

/-- Between two reads the frame under way is not complete. -/
theorem Represents.more (hrep : Represents cfg pending part p) (hstate : p.state ≠ .ready)
    (hneeded : p.bytesNeeded ≠ 0) : parseFrame cfg pending part = .more := by
  cases hrep with
  | start => rfl
  | first => rfl
  | header _ basic _ _ needed => exact parseFrame_header basic (by omega)
  | payload _ header needed payload =>
    rw [header.parse, parsePayload, List.take_of_length_le (by omega), payload.text]
    simp only
    rw [if_pos (by omega)]
  | message state => exact absurd state hstate

/-! ### The basic header -/

theorem parseFrame_basic_error {h : BasicHeader} {bytes : List UInt8}
    (hbasic : Processor.validateIncomingBasicHeader h cfg.server pending.isNone = some err) :
    parseFrame cfg pending (h.b0 :: h.b1 :: bytes) = .error err := by
  rw [parseFrame, hbasic]

theorem Represents.copyBasic (hrep : Represents cfg pending part p)
    (hstate : p.state = .headerBasic) (hr : p.Reads buf)
    (hcopy : p.copyBasicHeaderBytes buf = (p₁, rest)) :
    p₁.state = .headerBasic ∧ p₁.extendedHeader = .ofBytes [] ∧ DataRep pending p₁.dataMsg ∧
      ∃ taken, buf = taken ++ rest ∧
        (p₁.bytesNeeded = 1 ∧ part ++ taken = [p₁.basicHeader.b0] ∨
          p₁.bytesNeeded = 0 ∧ part ++ taken = [p₁.basicHeader.b0, p₁.basicHeader.b1]) := by
  have hcases := Processor.copyBasicHeaderBytes_cases hcopy
  have hbuf : p.bytesNeeded ≠ 0 → buf ≠ [] := fun h0 => hr.2.resolve_right h0
  cases hrep with
  | start _ needed zero data =>
    rcases hcases with ⟨h0 | rfl, -⟩ | ⟨-, b, c, rfl, rfl⟩ | ⟨-, b, rfl, rfl, rfl⟩ | ⟨-, h2, -⟩
    · omega
    · exact absurd rfl (hbuf (by omega))
    · refine ⟨hstate, zero, data, [b, c], rfl, .inr ⟨?_, rfl⟩⟩
      simp [Processor.readBasicHeader, needed]
    · exact ⟨hstate, zero, data, [b], rfl, .inl ⟨by simp [Processor.readBasicHeader, needed], rfl⟩⟩
    · exact absurd needed h2
  | first _ needed zero data =>
    rcases hcases with ⟨h0 | rfl, -⟩ | ⟨h2, -⟩ | ⟨h2, -⟩ | ⟨-, -, b, rfl, rfl⟩
    · omega
    · exact absurd rfl (hbuf (by omega))
    · omega
    · omega
    · exact ⟨hstate, zero, data, [b], rfl, .inr ⟨by simp [Processor.readBasicHeader, needed], rfl⟩⟩
  | header state => rw [state] at hstate; cases hstate
  | payload state => rw [state] at hstate; cases hstate
  | message state => rw [state] at hstate; cases hstate

/-! ### The extended header -/

theorem copy_ofBytes {ext bytes : List UInt8}
    (hlen : ext.length + bytes.length ≤ maxExtendedHeaderLength) :
    (ExtendedHeader.ofBytes ext).copy ext.length bytes hlen = .ofBytes (ext ++ bytes) := by
  simp only [ExtendedHeader.copy, ExtendedHeader.ofBytes, ExtendedHeader.mk.injEq, overwrite]
  have hleft : ((ext ++ List.replicate maxExtendedHeaderLength (0 : UInt8)).take
      maxExtendedHeaderLength).take ext.length = ext := by
    rw [List.take_take, Nat.min_eq_left (by omega), List.take_left]
  have hright : ((ext ++ List.replicate maxExtendedHeaderLength (0 : UInt8)).take
      maxExtendedHeaderLength).drop (ext.length + bytes.length) =
        List.replicate (maxExtendedHeaderLength - (ext.length + bytes.length)) 0 := by
    rw [List.drop_take, ← List.drop_drop, List.drop_left, List.drop_replicate, List.take_replicate]
    congr 1
    omega
  rw [hleft, hright, List.take_append, List.take_of_length_le (by simpa using hlen),
    List.take_replicate, List.length_append]
  congr 2
  omega

theorem copy_eq_ofBytes {e : ExtendedHeader} {ext bytes : List UInt8} {offset : ℕ}
    (he : e = .ofBytes ext) (hoffset : offset = ext.length)
    (hlen : offset + bytes.length ≤ maxExtendedHeaderLength) :
    e.copy offset bytes hlen = .ofBytes (ext ++ bytes) := by
  subst he hoffset
  exact copy_ofBytes hlen

theorem payloadSize_lt (h : BasicHeader) (e : ExtendedHeader) : e.payloadSize h < 2 ^ 64 := by
  rw [ExtendedHeader.payloadSize, ExtendedHeader.extendedSize, ExtendedHeader.jumboSize]
  split_ifs
  · exact Nat.lt_trans h.basicSize_lt (by decide)
  · exact Nat.lt_trans (e.bigEndian_take (k := 2) (by decide)).1 (by decide)
  · exact (e.bigEndian_take (k := 8) (by decide)).1

theorem joined_nil {op : Opcode} (out : Message) : joined (some out) op [] = out := by
  simp [joined]

theorem DataRep.checkText_nil {m : MsgMetadata} (hdata : DataRep pending m) (op : Opcode) :
    checkText pending op [] = none := by
  rw [checkText_eq_none]
  intro _ htext
  rw [← decode_iff]
  cases pending with
  | none => rfl
  | some out =>
    rw [joined_nil] at htext ⊢
    rw [hdata.validator out rfl htext]

theorem startData_spec (cfg : Config) (key : Word) (hdata : DataRep pending p.dataMsg)
    (hop : p.basicHeader.opcode.isControl = false) (hsize : p.bytesNeeded < 2 ^ 64) :
    match checkSize cfg pending p.basicHeader.opcode p.bytesNeeded with
    | some err => p.startData cfg key = .error err
    | none => ∃ m, p.startData cfg key = .ok { p with dataMsg := m, current := .data } ∧
        DataRep (some (joined pending p.basicHeader.opcode [])) m ∧ m.preparedKey = key := by
  have hnot : ¬ p.basicHeader.opcode.isControl = true := by simp [hop]
  rw [checkSize, Processor.startData, hdata.msg]
  cases pending with
  | none =>
    have hmod : (pendingSize none + p.bytesNeeded) % 2 ^ 64 = p.bytesNeeded := by
      rw [pendingSize, Option.elim_none, Nat.zero_add, Nat.mod_eq_of_lt hsize]
    rw [hmod]
    simp only
    split_ifs with hbad hbig hbig
    · rfl
    · exact absurd hbad.2 hbig
    · exact absurd ⟨hnot, hbig⟩ hbad
    · refine ⟨_, rfl, ⟨rfl, ?_, ?_⟩, rfl⟩
      · rintro out ⟨⟩
        exact hnot
      · rintro out ⟨⟩ -
        rfl
  | some out =>
    simp only [joined_nil]
    split_ifs with hbad hbig hbig
    · rfl
    · exact absurd hbad.2 hbig
    · exact absurd ⟨hnot, hbig⟩ hbad
    · exact ⟨_, rfl, ⟨hdata.msg, hdata.data, hdata.validator⟩, rfl⟩

theorem startPayload_spec (cfg : Config) (hdata : DataRep pending p.dataMsg) :
    match checkSize cfg pending p.basicHeader.opcode
      (p.extendedHeader.payloadSize p.basicHeader) with
    | some err => p.startPayload cfg = .error err
    | none => ∃ p₂, p.startPayload cfg = .ok p₂ ∧ p₂.state = .application ∧
        p₂.basicHeader = p.basicHeader ∧ p₂.extendedHeader = p.extendedHeader ∧
        p₂.bytesNeeded = p.extendedHeader.payloadSize p.basicHeader ∧ PayloadRep pending p₂ [] := by
  rw [Processor.startPayload]
  simp only
  by_cases hop : p.basicHeader.opcode.isControl = true
  · rw [checkSize, if_neg (fun h => h.1 hop), if_pos hop]
    simp only
    refine ⟨_, rfl, rfl, rfl, rfl, rfl, ?_, hdata.checkText_nil _, fun _ => ⟨rfl, rfl, hdata⟩, ?_⟩
    · exact fun _ => preparedFor_prepare _
    · exact fun hdata => absurd (hop.symm.trans hdata) (by decide)
  · have hstart := startData_spec cfg
      (prepareMaskingKey (p.extendedHeader.maskingKey p.basicHeader))
      (p := { p with
        state := .application
        bytesNeeded := p.extendedHeader.payloadSize p.basicHeader
        inBounds := fun h => by cases h }) hdata (by simpa using hop) (payloadSize_lt _ _)
    rw [if_neg hop]
    simp only at hstart
    split at hstart
    · simp_all only
    · rename_i hsize
      obtain ⟨m, hm, hrep, hkey⟩ := hstart
      refine ⟨_, hm, rfl, rfl, rfl, rfl, fun _ => ?_, hdata.checkText_nil _, ?_,
        fun _ => ⟨rfl, hrep⟩⟩
      · change PreparedFor _ 0 m.preparedKey
        rw [hkey]
        exact preparedFor_prepare _
      · exact fun hctl => absurd hctl hop

theorem Represents.turn_basic (hrep : Represents cfg pending part p)
    (hstate : p.state = .headerBasic) (hr : p.Reads buf) :
    match p.turn cfg buf with
    | .error err => parseFrame cfg pending (part ++ buf) = .error err
    | .ok (p', rest) =>
      ∃ taken, buf = taken ++ rest ∧ Represents cfg pending (part ++ taken) p' := by
  rcases hcopy : p.copyBasicHeaderBytes buf with ⟨p₁, rest⟩
  obtain ⟨hstate₁, hzero, hdata, taken, rfl, hneeded⟩ := hrep.copyBasic hstate hr hcopy
  rw [Processor.turn_headerBasic hstate hcopy]
  rcases hneeded with ⟨hneeded, hpart⟩ | ⟨hneeded, hpart⟩
  · rw [if_pos (by omega)]
    simp only
    exact ⟨taken, rfl, hpart ▸ .first hstate₁ hneeded hzero hdata⟩
  · rw [if_neg (by omega), ← List.append_assoc, hpart, hdata.msg]
    cases hbasic : Processor.validateIncomingBasicHeader p₁.basicHeader cfg.server
      pending.isNone with
    | some err => exact parseFrame_basic_error hbasic
    | none =>
      refine ⟨taken, rfl, hpart ▸ ?_⟩
      exact @Represents.header cfg pending p₁.startExtendedHeader [] rfl hbasic hzero rfl
        (Nat.zero_add _) hdata

theorem copyExtended_rep {ext : List UInt8} (hstate : p.state = .headerExtended)
    (hbytes : p.extendedHeader = .ofBytes ext) (hcursor : p.cursor = ext.length)
    (hcopy : p.copyExtendedHeaderBytes buf = (p₁, rest)) :
    p₁.state = .headerExtended ∧ p₁.basicHeader = p.basicHeader ∧ p₁.dataMsg = p.dataMsg ∧
      ∃ taken, buf = taken ++ rest ∧ taken.length = min p.bytesNeeded buf.length ∧
        p₁.extendedHeader = .ofBytes (ext ++ taken) ∧ p₁.cursor = (ext ++ taken).length ∧
        p₁.bytesNeeded = p.bytesNeeded - taken.length := by
  have hlen : (buf.take (min p.bytesNeeded buf.length)).length = min p.bytesNeeded buf.length := by
    rw [List.length_take]
    omega
  have hle := p.inBounds hstate
  rw [Processor.copyExtendedHeaderBytes, dif_pos hstate] at hcopy
  obtain ⟨rfl, rfl⟩ := Prod.mk.inj hcopy
  refine ⟨hstate, rfl, rfl, _, (List.take_append_drop _ _).symm, hlen,
    copy_eq_ofBytes hbytes hcursor (by omega), ?_, ?_⟩
  · rw [List.length_append, hlen, ← hcursor]
  · rw [hlen]

theorem Represents.turn_extended (hrep : Represents cfg pending part p)
    (hstate : p.state = .headerExtended) (buf : List UInt8) :
    match p.turn cfg buf with
    | .error err => parseFrame cfg pending (part ++ buf) = .error err
    | .ok (p', rest) =>
      ∃ taken, buf = taken ++ rest ∧ Represents cfg pending (part ++ taken) p' := by
  cases hrep with
  | start state => rw [state] at hstate; cases hstate
  | first state => rw [state] at hstate; cases hstate
  | payload state => rw [state] at hstate; cases hstate
  | message state => rw [state] at hstate; cases hstate
  | @header p ext _ basic bytes cursor needed data =>
    rcases hcopy : p.copyExtendedHeaderBytes buf with ⟨p₁, rest⟩
    rw [Processor.turn_headerExtended hstate hcopy]
    obtain ⟨hstate₁, hbasic₁, hdata₁, taken, hbuf, hlen, hext₁, hcursor₁, hneeded₁⟩ :=
      copyExtended_rep hstate bytes cursor hcopy
    rw [← hbasic₁] at basic needed ⊢
    rw [← hdata₁] at data
    have htotal : (ext ++ taken).length + p₁.bytesNeeded =
        p₁.basicHeader.headerLen - basicHeaderLength := by
      rw [List.length_append]
      omega
    split_ifs with hmore
    · exact ⟨taken, hbuf, .header hstate₁ basic hext₁ hcursor₁ htotal data⟩
    · have hcomplete : (ext ++ taken).length =
          p₁.basicHeader.headerLen - basicHeaderLength := by
        omega
      have hparse : parseFrame cfg pending
          (p₁.basicHeader.b0 :: p₁.basicHeader.b1 :: ext ++ buf) =
            parseExtended cfg pending p₁.basicHeader p₁.extendedHeader rest := by
        rw [hext₁, ← parseFrame_extended basic hcomplete, hbuf]
        simp
      cases hextended : Processor.validateIncomingExtendedHeader p₁.basicHeader
        p₁.extendedHeader with
      | some err =>
        simp only
        rw [hparse, parseExtended, hextended]
      | none =>
        have hstart := startPayload_spec cfg data
        cases hsize : checkSize cfg pending p₁.basicHeader.opcode
          (p₁.extendedHeader.payloadSize p₁.basicHeader) with
        | some err =>
          rw [hsize] at hstart
          simp only at hstart ⊢
          rw [hstart]
          simp only [Except.map]
          rw [hparse, parseExtended, hextended, hsize]
        | none =>
          rw [hsize] at hstart
          obtain ⟨p₂, hp₂, hstate₂, hbasic₂, hext₂, hneeded₂, hrep₂⟩ := hstart
          simp only
          rw [hp₂]
          refine ⟨taken, hbuf, ?_⟩
          have hheader : HeaderRep cfg pending p₂ (ext ++ taken) := by
            constructor
            · rwa [hbasic₂]
            · rw [hext₂, hext₁]
            · rw [hbasic₂, hcomplete]
            · rwa [hbasic₂, hext₂]
            · rwa [hbasic₂, hext₂]
          have hpart := @Represents.payload cfg pending p₂ (ext ++ taken) [] hstate₂ hheader
            (by rw [hbasic₂, hext₂, hneeded₂]; exact Nat.zero_add _) (by rwa [maskWith_nil])
          rwa [List.append_nil, hbasic₂] at hpart

/-! ### The payload -/

theorem joined_append {op : Opcode} (payload bytes : List UInt8) :
    joined pending op (payload ++ bytes) =
      { joined pending op payload with
        payload := (joined pending op payload).payload ++ bytes } := by
  cases pending with
  | none => rfl
  | some out => simp [joined]

theorem unmask_spec {body : List UInt8} (taken : List UInt8)
    (hkey : p.basicHeader.masked = true → PreparedFor
      (p.extendedHeader.maskingKey p.basicHeader) body.length p.currentMsg.preparedKey) :
    maskWith (p.extendedHeader.key p.basicHeader) (body ++ taken) =
        maskWith (p.extendedHeader.key p.basicHeader) body ++ (p.unmask taken).1 ∧
      (p.basicHeader.masked = true → PreparedFor (p.extendedHeader.maskingKey p.basicHeader)
        (body ++ taken).length (p.unmask taken).2) ∧ (p.unmask taken).1.length = taken.length := by
  rw [Processor.unmask, ExtendedHeader.key]
  split_ifs with hm
  · obtain ⟨hbytes, hnext⟩ := byteMaskCirc_spec (hkey hm) taken
    rw [List.length_append, hbytes]
    simp only [maskWith, Option.elim_some, mask_append, Nat.zero_add, length_mask]
    exact ⟨trivial, fun _ => hnext, trivial⟩
  · exact ⟨rfl, fun h => absurd h hm, rfl⟩

theorem processPayloadBytes_spec {body : List UInt8} (taken : List UInt8)
    (hrep : PayloadRep pending p (maskWith (p.extendedHeader.key p.basicHeader) body)) :
    match checkText pending p.basicHeader.opcode
      (maskWith (p.extendedHeader.key p.basicHeader) (body ++ taken)) with
    | some err => p.processPayloadBytes taken = .error err
    | none => ∃ p₁, p.processPayloadBytes taken = .ok p₁ ∧ p₁.state = p.state ∧
        p₁.basicHeader = p.basicHeader ∧ p₁.extendedHeader = p.extendedHeader ∧
        p₁.bytesNeeded = p.bytesNeeded - taken.length ∧
        PayloadRep pending p₁ (maskWith (p.extendedHeader.key p.basicHeader) (body ++ taken)) := by
  have hkey := hrep.key
  rw [length_maskWith] at hkey
  obtain ⟨hbytes, hnext, hlen⟩ := unmask_spec taken hkey
  have hlength : (maskWith (p.extendedHeader.key p.basicHeader) (body ++ taken)).length =
      (body ++ taken).length := length_maskWith
  rw [← hlength] at hnext
  rw [hbytes] at hnext ⊢
  generalize maskWith (p.extendedHeader.key p.basicHeader) body = payload at *
  generalize hu : (p.unmask taken).1 = u at *
  by_cases hop : p.basicHeader.opcode.isControl = true
  · obtain ⟨hcurrent, hmsg, hdata⟩ := hrep.control hop
    have htext : p.basicHeader.opcode ≠ .text := fun h => by rw [h] at hop; exact nomatch hop
    have hcheck : checkText pending p.basicHeader.opcode (payload ++ u) = none :=
      checkText_eq_none.2 fun h => absurd hop h
    obtain ⟨hs, hb, he, hn, hc, hm, hd⟩ := p.appendPayload_spec
      { opcode := p.basicHeader.opcode, payload := payload } u (p.unmask taken).2
      p.controlMsg.validator
    rw [hcheck, Processor.processPayloadBytes, Processor.currentMsg_control hcurrent, hmsg]
    simp only [if_neg htext, hu]
    refine ⟨_, rfl, hs, hb, he, by rw [hn, hlen], ?_, by rwa [hb],
      fun _ => ⟨hc.trans hcurrent, ?_, ?_⟩, ?_⟩
    · rwa [hb, he, hm]
    · rw [← Processor.currentMsg_control (hc.trans hcurrent), hm, hb]
    · rwa [hd hcurrent]
    · rw [hb]
      exact fun h => absurd (hop.symm.trans h) (by decide)
  · have hop' : p.basicHeader.opcode.isControl = false := by simpa using hop
    obtain ⟨hcurrent, hdata⟩ := hrep.data hop'
    have hnot := hdata.data _ rfl
    -- what holds of the processor after the bytes, with a validator that has seen them
    have hok : ∀ v, checkText pending p.basicHeader.opcode (payload ++ u) = none →
        ((joined pending p.basicHeader.opcode payload).opcode = .text → Validator.decode {}
          ((joined pending p.basicHeader.opcode payload).payload ++ u) = (v, true)) →
        ∃ p₁, p.appendPayload (joined pending p.basicHeader.opcode payload) u (p.unmask taken).2 v =
          p₁ ∧ p₁.state = p.state ∧ p₁.basicHeader = p.basicHeader ∧
          p₁.extendedHeader = p.extendedHeader ∧
          p₁.bytesNeeded = p.bytesNeeded - taken.length ∧ PayloadRep pending p₁ (payload ++ u) := by
      intro v hcheck hv
      obtain ⟨hs, hb, he, hn, hc, hm, -⟩ := p.appendPayload_spec
        (joined pending p.basicHeader.opcode payload) u (p.unmask taken).2 v
      refine ⟨_, rfl, hs, hb, he, by rw [hn, hlen], ?_, by rwa [hb], ?_, ?_⟩
      · rwa [hb, he, hm]
      · rw [hb]
        exact fun h => absurd h hop
      · rw [hb, ← Processor.currentMsg_data (hc.trans hcurrent), hm, joined_append]
        refine fun _ => ⟨hc.trans hcurrent, rfl, ?_, ?_⟩
        · rintro out ⟨⟩
          exact hnot
        · rintro out ⟨⟩
          exact hv
    rw [Processor.processPayloadBytes, Processor.currentMsg_data hcurrent, hdata.msg]
    simp only [hu]
    by_cases htext : (joined pending p.basicHeader.opcode payload).opcode = .text
    · have hdecode : Validator.decode {}
          ((joined pending p.basicHeader.opcode payload).payload ++ u) =
            p.dataMsg.validator.decode u := by
        rw [Validator.decode_append, hdata.validator _ rfl htext, if_pos rfl]
      by_cases hu : (p.dataMsg.validator.decode u).2 = true
      · have hcheck : checkText pending p.basicHeader.opcode (payload ++ u) = none := by
          rw [checkText_eq_none, ← decode_iff, joined_append]
          exact fun _ _ => by rw [hdecode, hu]
        obtain ⟨p₁, rfl, hp₁⟩ := hok (p.dataMsg.validator.decode u).1 hcheck fun _ => by
          rw [hdecode, ← hu]
        rw [hcheck, if_pos htext, if_neg (not_not.2 hu)]
        exact ⟨_, rfl, hp₁⟩
      · have hcheck : checkText pending p.basicHeader.opcode (payload ++ u) =
            some .invalidUtf8 := by
          simp only [checkText, joined_append]
          rw [if_pos ⟨hop, htext, by rwa [hdecode]⟩]
        rw [hcheck, if_pos htext, if_pos hu]
    · have hcheck : checkText pending p.basicHeader.opcode (payload ++ u) = none := by
        rw [checkText_eq_none, joined_append]
        exact fun _ h => absurd h htext
      obtain ⟨p₁, rfl, hp₁⟩ := hok p.dataMsg.validator hcheck fun h => absurd h htext
      rw [hcheck, if_neg htext]
      exact ⟨_, rfl, hp₁⟩

theorem readPayload_spec {body : List UInt8} (buf : List UInt8)
    (hrep : PayloadRep pending p (maskWith (p.extendedHeader.key p.basicHeader) body)) :
    match checkText pending p.basicHeader.opcode (maskWith (p.extendedHeader.key p.basicHeader)
      (body ++ buf.take (min p.bytesNeeded buf.length))) with
    | some err => p.readPayload buf = .error err
    | none => ∃ p₁, p.readPayload buf = .ok p₁ ∧ p₁.state = p.state ∧
        p₁.basicHeader = p.basicHeader ∧ p₁.extendedHeader = p.extendedHeader ∧
        p₁.bytesNeeded = p.bytesNeeded - min p.bytesNeeded buf.length ∧
        PayloadRep pending p₁ (maskWith (p.extendedHeader.key p.basicHeader)
          (body ++ buf.take (min p.bytesNeeded buf.length))) := by
  rw [Processor.readPayload]
  split_ifs with hpos
  · have hspec := processPayloadBytes_spec (buf.take (min p.bytesNeeded buf.length)) hrep
    rwa [List.length_take, Nat.min_eq_left (Nat.min_le_right _ _)] at hspec
  · have hzero : min p.bytesNeeded buf.length = 0 := by omega
    rw [hzero, List.take_zero, List.append_nil, hrep.text]
    exact ⟨p, rfl, rfl, rfl, rfl, rfl, hrep⟩

theorem endFrame_spec {ext body : List UInt8} (hheader : HeaderRep cfg pending p ext)
    (hneeded : body.length = p.extendedHeader.payloadSize p.basicHeader)
    (hrep : PayloadRep pending p (maskWith (p.extendedHeader.key p.basicHeader) body)) :
    match p.endFrame with
    | .error err => parseFrame cfg pending
        (p.basicHeader.b0 :: p.basicHeader.b1 :: (ext ++ body)) = .error err
    | .ok p' =>
      Represents cfg pending (p.basicHeader.b0 :: p.basicHeader.b1 :: (ext ++ body)) p' ∨
        ∃ f, parseFrame cfg pending (p.basicHeader.b0 :: p.basicHeader.b1 :: (ext ++ body)) =
            .frame f [] ∧ (f.after pending).2 = [] ∧
          Represents cfg (f.after pending).1 [] p' := by
  have hparse := hheader.parse body
  rw [parsePayload, List.take_of_length_le (Nat.le_of_eq hneeded), hrep.text] at hparse
  simp only at hparse
  rw [if_neg (by omega), List.drop_eq_nil_of_le (Nat.le_of_eq hneeded)] at hparse
  generalize hpayload : maskWith (p.extendedHeader.key p.basicHeader) body = payload at *
  rw [hparse, Processor.endFrame]
  obtain ⟨hcontrol, -, -, -, -, horder, -⟩ := validateBasic_eq_none.1 hheader.basic
  by_cases hfin : p.basicHeader.fin = true
  · -- the validator has seen the payload of a text that is one frame
    have hcomplete : p.basicHeader.opcode = .text →
        (validate payload = true ↔ p.currentMsg.validator.complete = true) := by
      intro htext
      have hop : p.basicHeader.opcode.isControl = false := by rw [htext]; rfl
      obtain ⟨hcurrent, hdata⟩ := hrep.data hop
      have hnone : pending = none := by
        have hnew := (horder (by simp [hop])).not.1 (by rw [htext]; decide)
        simpa using hnew
      subst hnone
      have hdecode := hdata.validator _ rfl htext
      rw [Processor.currentMsg_data hcurrent, validate]
      simp only [joined] at hdecode
      simp [hdecode]
    rw [if_pos hfin, Processor.finalizeMessage]
    by_cases hbad : p.basicHeader.opcode = .text ∧ ¬ validate payload = true
    · rw [if_pos ⟨hbad.1, fun h => hbad.2 ((hcomplete hbad.1).2 h)⟩, if_pos ⟨hbad.1, hfin, hbad.2⟩]
    · rw [if_neg fun h => hbad ⟨h.1, fun hv => h.2 ((hcomplete h.1).1 hv)⟩,
        if_neg fun h => hbad ⟨h.1, h.2.2⟩]
      have hframe := hparse.trans (if_neg fun h => hbad ⟨h.1, h.2.2⟩)
      exact .inl (.message rfl hframe hfin rfl ⟨hrep.key, hrep.text, hrep.control, hrep.data⟩)
  · have hop : p.basicHeader.opcode.isControl = false := by
      by_contra hop
      exact hfin (hcontrol (by simpa using hop)).1
    rw [if_neg hfin, if_neg fun h => hfin h.2.1]
    refine .inr ⟨_, rfl, ?_, ?_⟩
    · simp [Frame.after, hop, hfin]
    · have hafter : (Frame.after pending ⟨p.basicHeader.opcode, p.basicHeader.fin,
          p.extendedHeader.key p.basicHeader, payload⟩).1 =
            some (joined pending p.basicHeader.opcode payload) := by
        simp [Frame.after, hop, hfin]
      rw [hafter]
      exact .start rfl rfl rfl (hrep.data hop).2

theorem Represents.turn_application (hrep : Represents cfg pending part p)
    (hstate : p.state = .application) :
    match p.turn cfg buf with
    | .error err => parseFrame cfg pending (part ++ buf) = .error err
    | .ok (p', rest) =>
      ∃ taken, buf = taken ++ rest ∧ (Represents cfg pending (part ++ taken) p' ∨
        ∃ f, parseFrame cfg pending (part ++ taken) = .frame f [] ∧ (f.after pending).2 = [] ∧
          Represents cfg (f.after pending).1 [] p') := by
  cases hrep with
  | start state => rw [state] at hstate; cases hstate
  | first state => rw [state] at hstate; cases hstate
  | header state => rw [state] at hstate; cases hstate
  | message state => rw [state] at hstate; cases hstate
  | @payload p ext body _ header needed payload =>
    rw [Processor.turn_application hstate]
    have hread := readPayload_spec buf payload
    generalize hn : min p.bytesNeeded buf.length = n at *
    have hbuf : buf = buf.take n ++ buf.drop n := (List.take_append_drop n buf).symm
    have htaken : (buf.take n).length = n := by
      rw [List.length_take]
      omega
    cases hcheck : checkText pending p.basicHeader.opcode
      (maskWith (p.extendedHeader.key p.basicHeader) (body ++ buf.take n)) with
    | some err =>
      rw [hcheck] at hread
      simp only at hread
      rw [hread]
      have hbegin : body ++ buf.take n <+:
          (body ++ buf).take (p.extendedHeader.payloadSize p.basicHeader) := by
        have hle : body.length ≤ p.extendedHeader.payloadSize p.basicHeader := by omega
        have hn' : n ≤ p.extendedHeader.payloadSize p.basicHeader - body.length := by omega
        rw [List.take_append, List.take_of_length_le hle]
        exact (List.prefix_append_right_inj _).2 (List.take_prefix_take_left hn')
      simp only
      rw [List.cons_append, List.cons_append, List.append_assoc, header.parse, parsePayload,
        checkText_of_begin (maskWith_begin hbegin) hcheck]
    | none =>
      rw [hcheck] at hread
      obtain ⟨p₁, hp₁, hstate₁, hbasic₁, hext₁, hneeded₁, hrep₁⟩ := hread
      rw [hp₁]
      rw [← hbasic₁, ← hext₁] at hrep₁
      have hheader₁ : HeaderRep cfg pending p₁ ext := by
        obtain ⟨h1, h2, h3, h4, h5⟩ := header
        constructor <;> simp only [hbasic₁, hext₁] <;> assumption
      have hpart : p.basicHeader.b0 :: p.basicHeader.b1 :: (ext ++ body) ++ buf.take n =
          p₁.basicHeader.b0 :: p₁.basicHeader.b1 :: (ext ++ (body ++ buf.take n)) := by
        rw [hbasic₁, List.cons_append, List.cons_append, List.append_assoc]
      simp only
      split_ifs with hmore
      · refine ⟨buf.take n, hbuf, .inl ?_⟩
        rw [hpart]
        refine .payload (hstate₁.trans hstate) hheader₁ ?_ hrep₁
        rw [hbasic₁, hext₁, List.length_append, htaken]
        omega
      · have hend := endFrame_spec hheader₁ (by
          rw [hbasic₁, hext₁, List.length_append, htaken]
          omega) hrep₁
        rw [← hpart] at hend
        cases hp₂ : p₁.endFrame with
        | error err =>
          rw [hp₂] at hend
          simp only [Except.map] at hend ⊢
          have happ := parseFrame_append (buf.drop n) (by rw [hend]; intro h; cases h)
          rwa [List.append_assoc, ← hbuf, hend] at happ
        | ok p₂ =>
          rw [hp₂] at hend
          exact ⟨buf.take n, hbuf, hend⟩

/-- **A turn of the loop** goes on reading the same frame or ends it, and refuses what the whole
bytes would have been refused for. -/
theorem Represents.turn (hrep : Represents cfg pending part p) (hr : p.Reads buf) :
    match p.turn cfg buf with
    | .error err => parseFrame cfg pending (part ++ buf) = .error err
    | .ok (p', rest) =>
      ∃ taken, buf = taken ++ rest ∧ (Represents cfg pending (part ++ taken) p' ∨
        ∃ f, parseFrame cfg pending (part ++ taken) = .frame f [] ∧ (f.after pending).2 = [] ∧
          Represents cfg (f.after pending).1 [] p') := by
  cases hstate : p.state with
  | headerBasic =>
    have hturn := hrep.turn_basic hstate hr
    revert hturn
    cases p.turn cfg buf with
    | error err => exact id
    | ok result => exact fun ⟨taken, hbuf, h⟩ => ⟨taken, hbuf, .inl h⟩
  | headerExtended =>
    have hturn := hrep.turn_extended hstate buf
    revert hturn
    cases p.turn cfg buf with
    | error err => exact id
    | ok result => exact fun ⟨taken, hbuf, h⟩ => ⟨taken, hbuf, .inl h⟩
  | application => exact hrep.turn_application hstate
  | ready => exact absurd hstate hr.1

end Websocket

end MoonJamRelay
