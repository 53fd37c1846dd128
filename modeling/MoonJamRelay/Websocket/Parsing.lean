import MoonJamRelay.Websocket.Grammar

/-!
# Reading whole frames

`parseFrame` reads a frame from bytes that are all there. It finds exactly the legal frames
(`parseFrame_encode`, `parseFrame_eq_frame`), what it refuses is not the beginning of a legal frame
(`parseFrame_error`), and more bytes do not change what it has found (`parseFrame_append`).
-/

namespace MoonJamRelay

namespace Websocket

variable {cfg : Config} {pending : Option Message} {h : BasicHeader} {e : ExtendedHeader}
  {key : Option MaskingKey} {size : ℕ} {bytes bytes' tail rest : List UInt8} {f : Frame}
  {err : ProcessorError}

/-! ### More bytes -/

/-- The same, with more bytes after what was read. -/
def Parsed.withTail (tail : List UInt8) : Parsed → Parsed
  | .more => .more
  | .error e => .error e
  | .frame f rest => .frame f (rest ++ tail)

theorem maskWith_begin (hp : bytes <+: bytes') : maskWith key bytes <+: maskWith key bytes' := by
  obtain ⟨n, rfl⟩ : ∃ n, bytes = bytes'.take n := ⟨_, List.prefix_iff_eq_take.1 hp⟩
  rw [take_maskWith]
  exact List.take_prefix _ _

/-- A beginning of what is not rejected is not rejected. -/
theorem decode_of_begin (hp : bytes <+: bytes') (hok : (Validator.decode {} bytes').2 = true) :
    (Validator.decode {} bytes).2 = true := by
  obtain ⟨tail, rfl⟩ := hp
  rw [Validator.decode_append] at hok
  by_contra hbytes
  rw [if_neg hbytes] at hok
  exact hbytes hok

theorem joined_begin (pending : Option Message) (op : Opcode) (hp : bytes <+: bytes') :
    (joined pending op bytes).opcode = (joined pending op bytes').opcode ∧
      (joined pending op bytes).payload <+: (joined pending op bytes').payload := by
  cases pending with
  | none => exact ⟨rfl, hp⟩
  | some out => exact ⟨rfl, (List.prefix_append_right_inj _).2 hp⟩

theorem checkText_of_begin {op : Opcode} (hp : bytes <+: bytes')
    (hcheck : checkText pending op bytes = some err) :
    checkText pending op bytes' = some err := by
  obtain ⟨hop, hpayload⟩ := joined_begin pending op hp
  simp only [checkText] at hcheck ⊢
  split_ifs at hcheck with hbad
  rw [if_pos ⟨hbad.1, hop ▸ hbad.2.1, fun hok => hbad.2.2 (decode_of_begin hpayload hok)⟩]
  exact hcheck

theorem parsePayload_append (hmore : parsePayload pending h key size bytes ≠ .more) :
    parsePayload pending h key size (bytes ++ tail) =
      (parsePayload pending h key size bytes).withTail tail := by
  unfold parsePayload at hmore ⊢
  simp only at hmore ⊢
  cases hcheck : checkText pending h.opcode (maskWith key (bytes.take size)) with
  | some err =>
    have hbegin := (List.prefix_append bytes tail).take size
    rw [checkText_of_begin (maskWith_begin hbegin) hcheck]
    rfl
  | none =>
    simp only [hcheck] at hmore
    have hlen : size ≤ bytes.length := by
      by_contra hlen
      rw [if_pos (Nat.lt_of_not_le hlen)] at hmore
      exact hmore rfl
    rw [List.take_append_of_le_length hlen, List.drop_append_of_le_length hlen, hcheck]
    simp only [List.length_append]
    rw [if_neg (Nat.not_lt.2 hlen), if_neg (by omega)]
    split_ifs <;> rfl

theorem parseExtended_append (hmore : parseExtended cfg pending h e bytes ≠ .more) :
    parseExtended cfg pending h e (bytes ++ tail) =
      (parseExtended cfg pending h e bytes).withTail tail := by
  unfold parseExtended at hmore ⊢
  split
  · rfl
  · split
    · rfl
    · simp_all only
      exact parsePayload_append hmore

/-- More bytes do not change what was found. -/
theorem parseFrame_append (tail : List UInt8) (hmore : parseFrame cfg pending bytes ≠ .more) :
    parseFrame cfg pending (bytes ++ tail) = (parseFrame cfg pending bytes).withTail tail := by
  rcases bytes with _ | ⟨b0, _ | ⟨b1, bytes⟩⟩
  · exact absurd rfl hmore
  · exact absurd rfl hmore
  · rw [List.cons_append, List.cons_append]
    simp only [parseFrame] at hmore ⊢
    split
    · rfl
    · rename_i hvalid
      rw [hvalid] at hmore
      simp only at hmore
      have hlen : (⟨b0, b1⟩ : BasicHeader).headerLen - basicHeaderLength ≤ bytes.length := by
        by_contra hlen
        rw [if_pos (Nat.lt_of_not_le hlen)] at hmore
        exact hmore rfl
      rw [if_neg (Nat.not_lt.2 hlen)] at hmore ⊢
      rw [if_neg (by rw [List.length_append]; omega), List.take_append_of_le_length hlen,
        List.drop_append_of_le_length hlen]
      exact parseExtended_append hmore

/-! ### What is found is legal -/

theorem ite_some_eq_none {α : Type} {c : Prop} [Decidable c] {a : α} {x : Option α} :
    (if c then some a else x) = none ↔ ¬ c ∧ x = none := by
  split_ifs with hc <;> simp [hc]

theorem checkText_eq_none {op : Opcode} : checkText pending op bytes = none ↔
    (¬ op.isControl → (joined pending op bytes).opcode = .text →
      TextPrefix (joined pending op bytes).payload) := by
  rw [← decode_iff]
  simp only [checkText, ite_some_eq_none]
  tauto

theorem checkSize_eq_none {op : Opcode} : checkSize cfg pending op size = none ↔
    (¬ op.isControl → (pendingSize pending + size) % 2 ^ 64 ≤ cfg.maxMessageSize) := by
  rw [checkSize, ite_some_eq_none, not_and, Nat.not_lt]
  exact and_iff_left rfl

theorem validateBasic_eq_none {server newMsg : Bool} :
    Processor.validateIncomingBasicHeader h server newMsg = none ↔
      (h.opcode.isControl → h.fin = true ∧ h.basicSize ≤ payloadSizeBasic) ∧
        h.rsv1 = false ∧ h.rsv2 = false ∧ h.rsv3 = false ∧ h.opcode.reserved = false ∧
        (¬ h.opcode.isControl → (h.opcode = .continuation ↔ newMsg = false)) ∧
        h.masked = server := by
  have hcont : h.opcode = .continuation → h.opcode.isControl = false := fun hop => by
    rw [hop]
    rfl
  simp only [Processor.validateIncomingBasicHeader, ite_some_eq_none]
  grind

theorem validateExtended_eq_none :
    Processor.validateIncomingExtendedHeader h e = none ↔ Minimal h e := by
  simp only [Processor.validateIncomingExtendedHeader, ite_some_eq_none, Minimal]
  grind

theorem ofBytes_begin (hlen : bytes.length ≤ maxExtendedHeaderLength) :
    bytes <+: (ExtendedHeader.ofBytes bytes).bytes := by
  change bytes <+: (bytes ++ List.replicate maxExtendedHeaderLength 0).take maxExtendedHeaderLength
  rw [List.take_append, List.take_of_length_le hlen]
  exact List.prefix_append _ _

/-- A header that was made is in the shortest form. -/
theorem minimal_make (op : Opcode) (fin mask : Bool) (hsize : e.payloadSize (.make op size fin mask)
    = size) : Minimal (.make op size fin mask) e := by
  rw [Minimal, hsize, BasicHeader.basicSize_make]
  rcases size_cases size with ⟨hle, hv, -⟩ | ⟨hlt, hle, hv, -⟩ | ⟨hlt, hv, -⟩ <;> rw [hv]
  · constructor <;> rintro rfl <;> revert hle <;> decide
  · exact ⟨fun _ => hlt, fun hcode => absurd hcode (by decide)⟩
  · exact ⟨fun hcode => absurd hcode (by decide), fun _ => hlt⟩

theorem Frame.Legal.validateBasic (hf : f.Legal cfg pending) :
    Processor.validateIncomingBasicHeader
      (.make f.opcode f.payload.length f.fin f.key.isSome) cfg.server pending.isNone = none := by
  have hrsv := BasicHeader.rsv_make f.opcode f.payload.length f.fin f.key.isSome
  rw [validateBasic_eq_none, BasicHeader.opcode_make, BasicHeader.fin_make,
    BasicHeader.masked_make, BasicHeader.basicSize_make]
  refine ⟨fun hop => ?_, hrsv.1, hrsv.2.1, hrsv.2.2, hf.opcode, fun hop => ?_, hf.masked⟩
  · obtain ⟨hfin, hle⟩ := hf.control hop
    rw [basicValue_toNat, if_pos hle]
    exact ⟨hfin, hle⟩
  · rw [hf.order hop]
    cases pending <;> simp

/-- The bytes of a frame's header after the first two. -/
def Frame.extendedBytes (f : Frame) : List UInt8 :=
  ExtendedHeader.sizeBytes f.payload.length ++ keyBytes f.key

/-- The basic header of a frame. -/
def Frame.basicHeader (f : Frame) : BasicHeader :=
  .make f.opcode f.payload.length f.fin f.key.isSome

theorem Frame.length_extendedBytes (f : Frame) :
    f.extendedBytes.length = f.basicHeader.headerLen - basicHeaderLength :=
  (headerLen_make f.opcode f.fin f.payload.length f.key).symm

theorem Frame.headerBytes_eq (f : Frame) : headerBytes f.opcode f.fin f.payload.length f.key =
    f.basicHeader.b0 :: f.basicHeader.b1 :: f.extendedBytes :=
  Websocket.headerBytes_eq f.opcode f.fin f.payload.length f.key

theorem Frame.read_extendedBytes (f : Frame) (hsize : f.payload.length < 2 ^ 64) :
    (ExtendedHeader.ofBytes f.extendedBytes).payloadSize f.basicHeader = f.payload.length ∧
      (ExtendedHeader.ofBytes f.extendedBytes).key f.basicHeader = f.key := by
  have hlen : f.extendedBytes.length ≤ maxExtendedHeaderLength :=
    f.length_extendedBytes ▸ f.basicHeader.headerLen_le
  obtain ⟨hread, hkey⟩ := read_headerBytes f.opcode f.fin hsize f.key (.ofBytes f.extendedBytes)
    (ofBytes_begin hlen)
  refine ⟨hread, ?_⟩
  rw [ExtendedHeader.key, Frame.basicHeader, hkey, BasicHeader.masked_make]
  cases f.key <;> rfl

/-- What is found in the bytes of a frame, legal or not. -/
theorem parseFrame_encode_eq (f : Frame) (hlt : f.payload.length < 2 ^ 64) (rest : List UInt8) :
    parseFrame cfg pending (f.encode ++ rest) =
      match Processor.validateIncomingBasicHeader f.basicHeader cfg.server pending.isNone with
      | some e => .error e
      | none =>
        match checkSize cfg pending f.opcode f.payload.length with
        | some e => .error e
        | none =>
          match checkText pending f.opcode f.payload with
          | some e => .error e
          | none =>
            if f.opcode = .text ∧ f.fin ∧ ¬ validate f.payload then .error .invalidUtf8
            else .frame f rest := by
  obtain ⟨hsize, hkey⟩ := f.read_extendedBytes hlt
  have hop : f.basicHeader.opcode = f.opcode := BasicHeader.opcode_make ..
  have hfin : f.basicHeader.fin = f.fin := BasicHeader.fin_make ..
  have hminimal : Processor.validateIncomingExtendedHeader f.basicHeader
      (.ofBytes f.extendedBytes) = none :=
    validateExtended_eq_none.2 (minimal_make f.opcode f.fin f.key.isSome hsize)
  have hencode : f.encode ++ rest =
      f.basicHeader.b0 :: f.basicHeader.b1 :: (f.extendedBytes ++
        (maskWith f.key f.payload ++ rest)) := by
    rw [Frame.encode, f.headerBytes_eq]
    simp
  rw [hencode, parseFrame]
  cases Processor.validateIncomingBasicHeader f.basicHeader cfg.server pending.isNone with
  | some e => rfl
  | none =>
    simp only
    rw [← f.length_extendedBytes, if_neg (by simp), List.take_left, List.drop_left, parseExtended,
      hminimal]
    simp only
    rewrite [hsize, hkey, hop, parsePayload, List.take_left' length_maskWith, maskWith_maskWith,
      hop, hfin, if_neg (by simp), List.drop_left' length_maskWith]
    cases checkSize cfg pending f.opcode f.payload.length with
    | some e => rfl
    | none => cases checkText pending f.opcode f.payload <;> rfl

theorem parseFrame_encode (hf : f.Legal cfg pending) (rest : List UInt8) :
    parseFrame cfg pending (f.encode ++ rest) = .frame f rest := by
  have hbasic : Processor.validateIncomingBasicHeader f.basicHeader cfg.server pending.isNone =
    none := hf.validateBasic
  rw [parseFrame_encode_eq f hf.size_lt, hbasic, checkSize_eq_none.2 hf.bound,
    checkText_eq_none.2 hf.textPrefix]
  simp only
  rw [if_neg]
  rintro ⟨htext, hfin, hbad⟩
  exact hbad ((validate_iff f.payload).2 (hf.text htext hfin))

/-- In the bytes of a frame that frame is found, or they are refused. -/
theorem parseFrame_encode_cases (f : Frame) (hlt : f.payload.length < 2 ^ 64) (rest : List UInt8) :
    parseFrame cfg pending (f.encode ++ rest) = .frame f rest ∨
      ∃ err, parseFrame cfg pending (f.encode ++ rest) = .error err := by
  rw [parseFrame_encode_eq f hlt]
  split
  · exact .inr ⟨_, rfl⟩
  · split
    · exact .inr ⟨_, rfl⟩
    · split
      · exact .inr ⟨_, rfl⟩
      · split_ifs
        · exact .inr ⟨_, rfl⟩
        · exact .inl rfl

theorem isSome_key (h : BasicHeader) (e : ExtendedHeader) : (e.key h).isSome = h.masked := by
  rw [ExtendedHeader.key]
  split_ifs with hm <;> simp [hm]

/-- What is found is legal. -/
theorem parseFrame_eq_frame (hparse : parseFrame cfg pending bytes = .frame f rest) :
    f.Legal cfg pending ∧ bytes = f.encode ++ rest := by
  rcases bytes with _ | ⟨b0, _ | ⟨b1, bytes⟩⟩
  · exact nomatch hparse
  · exact nomatch hparse
  generalize hh : (⟨b0, b1⟩ : BasicHeader) = h
  rw [parseFrame, hh] at hparse
  simp only at hparse
  split at hparse
  · exact nomatch hparse
  rename_i hbasic
  split_ifs at hparse with hlen
  generalize hext : bytes.take (h.headerLen - basicHeaderLength) = ext at hparse
  generalize he : ExtendedHeader.ofBytes ext = e at hparse
  generalize hbody : bytes.drop (h.headerLen - basicHeaderLength) = body at hparse
  rw [parseExtended] at hparse
  split at hparse
  · exact nomatch hparse
  rename_i hext'
  split at hparse
  · exact nomatch hparse
  rename_i hcheckSize
  rw [parsePayload] at hparse
  split at hparse
  · exact nomatch hparse
  rename_i hcheckText
  split_ifs at hparse with hmore htext
  obtain ⟨rfl, rfl⟩ := Parsed.frame.inj hparse
  obtain ⟨hcontrol, h1, h2, h3, hop, horder, hmasked⟩ := validateBasic_eq_none.1 hbasic
  have hmin := validateExtended_eq_none.1 hext'
  obtain ⟨hlt, hheader⟩ := headerBytes_of_read h e h1 h2 h3 hmin
  have hsize : (maskWith (e.key h) (body.take (e.payloadSize h))).length = e.payloadSize h := by
    rw [length_maskWith, List.length_take]
    omega
  constructor
  · constructor
    · rw [isSome_key, hmasked]
    · rwa [hsize]
    · exact hop
    · intro hctl
      obtain ⟨hfin, hle⟩ := hcontrol hctl
      rw [hsize, ExtendedHeader.payloadSize, if_pos hle]
      exact ⟨hfin, hle⟩
    · intro hctl
      rw [horder hctl]
      cases pending <;> simp
    · rw [hsize]
      exact checkSize_eq_none.1 hcheckSize
    · exact checkText_eq_none.1 hcheckText
    · intro hop hfin
      rw [← validate_iff]
      by_contra hbad
      exact htext ⟨hop, hfin, hbad⟩
  · have hbytes : b0 :: b1 :: bytes = prepareHeader h e ++ body := by
      have hlen' : ext.length = h.headerLen - basicHeaderLength := by
        rw [← hext, List.length_take]
        omega
      have htake : e.bytes.take (h.headerLen - basicHeaderLength) = ext := by
        rw [← hlen', ← he]
        exact (List.prefix_iff_eq_take.1 (ofBytes_begin (hlen' ▸ h.headerLen_le))).symm
      rw [prepareHeader, htake, ← hext, ← hbody, List.append_assoc, List.take_append_drop, ← hh]
      rfl
    rw [Frame.encode, hsize, maskWith_maskWith, ← hheader, hbytes, List.append_assoc,
      List.take_append_drop]

/-- What is refused is not the beginning of a legal frame. -/
theorem parseFrame_error (hparse : parseFrame cfg pending bytes = .error err)
    (hf : f.Legal cfg pending) : ¬ bytes <+: f.encode ∧ ¬ f.encode <+: bytes := by
  constructor
  · rintro ⟨tail, htail⟩
    have hmore := parseFrame_append tail (by rw [hparse]; exact nofun)
    have hfound := parseFrame_encode hf []
    rw [List.append_nil, ← htail, hmore, hparse] at hfound
    exact nomatch hfound
  · rintro ⟨rest, rfl⟩
    rw [parseFrame_encode hf] at hparse
    exact nomatch hparse

end Websocket

end MoonJamRelay
