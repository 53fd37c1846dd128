import MoonJamRelay.Bytes.Basic

/-!
# Frame headers

The websocket library reads and writes frames: a header of two bytes, an extended header with the
payload size when it does not fit the first two bytes and with the masking key, and the payload.

* `Opcode`, `BasicHeader`, `ExtendedHeader`, `MaskingKey` : the parts of a header, with the fields
  the library reads from them and the constructors it writes them with.
* `headerBytes` : the header the library writes; `read_headerBytes` : the library reads back what it
  has written, and `headerBytes_of_read` : a header it accepts is the one it would have written.
-/

namespace MoonJamRelay

namespace Websocket

/-! ### Constants -/

/-- `BASIC_HEADER_LENGTH`. -/
def basicHeaderLength : ℕ := 2

/-- `MAX_EXTENDED_HEADER_LENGTH`. -/
def maxExtendedHeaderLength : ℕ := 12

/-- `limits::payload_size_basic`. -/
def payloadSizeBasic : ℕ := 125

/-- `limits::payload_size_extended`. -/
def payloadSizeExtended : ℕ := 65535

/-- `limits::close_reason_size`. -/
def closeReasonSize : ℕ := 123

/-- `payload_size_code_16bit`. -/
def payloadSizeCode16 : ℕ := 126

/-- `payload_size_code_64bit`. -/
def payloadSizeCode64 : ℕ := 127

/-! ### Opcodes -/

/-- `opcode::value`. -/
inductive Opcode where
  | continuation | text | binary | rsv3 | rsv4 | rsv5 | rsv6 | rsv7
  | close | ping | pong | controlRsvb | controlRsvc | controlRsvd | controlRsve | controlRsvf
  deriving DecidableEq

namespace Opcode

/-- The value of an opcode. -/
def value : Opcode → UInt8
  | continuation => 0 | text => 1 | binary => 2 | rsv3 => 3 | rsv4 => 4 | rsv5 => 5 | rsv6 => 6
  | rsv7 => 7 | close => 8 | ping => 9 | pong => 10 | controlRsvb => 11 | controlRsvc => 12
  | controlRsvd => 13 | controlRsve => 14 | controlRsvf => 15

/-- The opcode with a value of four bits. -/
def ofValue (v : UInt8) : Opcode :=
  match v.toNat with
  | 0 => continuation | 1 => text | 2 => binary | 3 => rsv3 | 4 => rsv4 | 5 => rsv5 | 6 => rsv6
  | 7 => rsv7 | 8 => close | 9 => ping | 10 => pong | 11 => controlRsvb | 12 => controlRsvc
  | 13 => controlRsvd | 14 => controlRsve | _ => controlRsvf

/-- `opcode::reserved`. -/
def reserved : Opcode → Bool
  | rsv3 | rsv4 | rsv5 | rsv6 | rsv7 => true
  | controlRsvb | controlRsvc | controlRsvd | controlRsve | controlRsvf => true
  | _ => false

/-- `opcode::is_control`. -/
def isControl (op : Opcode) : Bool := decide (8 ≤ op.value)

end Opcode

/-! ### The basic header -/

/-- `basic_header`. -/
structure BasicHeader where
  b0 : UInt8
  b1 : UInt8
  deriving DecidableEq

/-- The payload size in the basic header. -/
def basicValue (size : ℕ) : UInt8 :=
  if size ≤ payloadSizeBasic then .ofNat size
  else if size ≤ payloadSizeExtended then .ofNat payloadSizeCode16
  else .ofNat payloadSizeCode64

namespace BasicHeader

/-- The header with these fields; the reserved bits are not set. -/
def make (op : Opcode) (size : ℕ) (fin mask : Bool) : BasicHeader where
  b0 := (if fin then 0x80 else 0) ||| (op.value &&& 0x0F)
  b1 := (if mask then 0x80 else 0) ||| basicValue size

variable (h : BasicHeader)

/-- `get_fin`. -/
def fin : Bool := h.b0 &&& 0x80 == 0x80

/-- `get_rsv1`. -/
def rsv1 : Bool := h.b0 &&& 0x40 == 0x40

/-- `get_rsv2`. -/
def rsv2 : Bool := h.b0 &&& 0x20 == 0x20

/-- `get_rsv3`. -/
def rsv3 : Bool := h.b0 &&& 0x10 == 0x10

/-- `get_opcode`. -/
def opcode : Opcode := .ofValue (h.b0 &&& 0x0F)

/-- `get_masked`. -/
def masked : Bool := h.b1 &&& 0x80 == 0x80

/-- `get_basic_size`. -/
def basicSize : ℕ := (h.b1 &&& 0x7F).toNat

/-- `get_masking_key_offset`. -/
def maskingKeyOffset : ℕ :=
  if h.basicSize = payloadSizeCode16 then 2
  else if h.basicSize = payloadSizeCode64 then 8
  else 0

/-- `get_header_len`. -/
def headerLen : ℕ := basicHeaderLength + h.maskingKeyOffset + if h.masked then 4 else 0

end BasicHeader

/-! ### The extended header -/

/-- `masking_key_type`: four bytes in memory. -/
structure MaskingKey where
  c : List UInt8
  length_c : c.length = 4
  deriving DecidableEq

/-- A byte of the key, which is repeated over the payload. -/
def MaskingKey.byte (key : MaskingKey) (i : ℕ) : UInt8 := key.c.getD (i % 4) 0

/-- The key whose bytes are zeros. -/
def MaskingKey.zero : MaskingKey := ⟨List.replicate 4 0, rfl⟩

/-- `extended_header`: an array of `MAX_EXTENDED_HEADER_LENGTH` bytes. -/
structure ExtendedHeader where
  bytes : List UInt8
  length_bytes : bytes.length = maxExtendedHeaderLength
  deriving DecidableEq

namespace ExtendedHeader

/-- The header of zeros. -/
def zero : ExtendedHeader := ⟨List.replicate maxExtendedHeaderLength 0, rfl⟩

/-- Copy bytes into the header, from an offset on. -/
def copy (e : ExtendedHeader) (offset : ℕ) (bytes : List UInt8)
    (h : offset + bytes.length ≤ maxExtendedHeaderLength) : ExtendedHeader where
  bytes := overwrite e.bytes offset bytes
  length_bytes := by
    simp only [overwrite, List.length_append, List.length_take, List.length_drop, e.length_bytes]
    omega

/-- `payload_offset` in `copy_payload`. -/
def payloadOffset (size : ℕ) : ℕ :=
  if size ≤ payloadSizeBasic then 8 else if size ≤ payloadSizeExtended then 6 else 0

/-- The bytes of the payload size that `copy_payload` copies. -/
def sizeBytes (size : ℕ) : List UInt8 := (bigEndian 8 size).drop (payloadOffset size)

theorem length_sizeBytes (size : ℕ) : (sizeBytes size).length = 8 - payloadOffset size := by
  simp [sizeBytes]

/-- `extended_header(payload_size)`. -/
def ofSize (size : ℕ) : ExtendedHeader :=
  zero.copy 0 (sizeBytes size) (by rw [length_sizeBytes, maxExtendedHeaderLength]; omega)

/-- `extended_header(payload_size, masking_key)`. -/
def ofSizeKey (size : ℕ) (key : MaskingKey) : ExtendedHeader :=
  (ofSize size).copy (8 - payloadOffset size) key.c
    (by rw [key.length_c, maxExtendedHeaderLength]; omega)

variable (h : BasicHeader) (e : ExtendedHeader)

/-- `get_masking_key`. -/
def maskingKey : MaskingKey :=
  if ¬ h.masked then .zero
  else
    { c := ((e.bytes.drop h.maskingKeyOffset).take 4)
      length_c := by
        rw [List.length_take, List.length_drop, e.length_bytes, BasicHeader.maskingKeyOffset,
          maxExtendedHeaderLength]
        split_ifs <;> rfl }

/-- `get_extended_size`. -/
def extendedSize : ℕ := ofBigEndian (e.bytes.take 2)

/-- `get_jumbo_size`. -/
def jumboSize : ℕ := ofBigEndian (e.bytes.take 8)

/-- `get_payload_size`. -/
def payloadSize : ℕ :=
  if h.basicSize ≤ payloadSizeBasic then h.basicSize
  else if h.basicSize = payloadSizeCode16 then e.extendedSize
  else e.jumboSize

end ExtendedHeader

/-- `prepare_header`. -/
def prepareHeader (h : BasicHeader) (e : ExtendedHeader) : List UInt8 :=
  [h.b0, h.b1] ++ e.bytes.take (h.headerLen - basicHeaderLength)

/-- The header of a frame as the library writes it; a frame without a key is not masked. -/
def headerBytes (op : Opcode) (fin : Bool) (size : ℕ) : Option MaskingKey → List UInt8
  | none => prepareHeader (.make op size fin false) (.ofSize size)
  | some key => prepareHeader (.make op size fin true) (.ofSizeKey size key)

/-! ### The basic header that is written -/

/-- What the payload size in the basic header says. -/
theorem basicValue_toNat (size : ℕ) : (basicValue size).toNat =
    if size ≤ payloadSizeBasic then size
    else if size ≤ payloadSizeExtended then payloadSizeCode16 else payloadSizeCode64 := by
  unfold basicValue
  split_ifs with h
  · simp only [payloadSizeBasic] at h
    simp
    omega
  · rfl
  · rfl

theorem basicValue_lt (size : ℕ) : (basicValue size).toNat < 128 := by
  rw [basicValue_toNat]
  split_ifs with h
  · exact Nat.lt_of_le_of_lt h (by decide)
  · decide
  · decide

/-- The mask bit and the payload size do not disturb each other. -/
theorem mask_or_size (mask : Bool) {v : UInt8} (hv : v.toNat < 128) :
    (((if mask then 0x80 else 0) ||| v) &&& 0x80 == 0x80) = mask ∧
      ((if mask then 0x80 else 0) ||| v) &&& 0x7F = v := by
  have hall : ∀ n < 128, ∀ mask : Bool,
      (((if mask then 0x80 else 0) ||| UInt8.ofNat n) &&& 0x80 == 0x80) = mask ∧
        ((if mask then 0x80 else 0) ||| UInt8.ofNat n) &&& 0x7F = UInt8.ofNat n := by decide
  simpa using hall v.toNat hv mask

namespace BasicHeader

variable (op : Opcode) (size : ℕ) (fin mask : Bool)

@[simp] theorem fin_make : (make op size fin mask).fin = fin := by
  simp only [make, BasicHeader.fin]
  cases op <;> cases fin <;> decide

@[simp] theorem rsv_make : (make op size fin mask).rsv1 = false ∧
    (make op size fin mask).rsv2 = false ∧ (make op size fin mask).rsv3 = false := by
  simp only [make, rsv1, rsv2, rsv3]
  cases op <;> cases fin <;> decide

@[simp] theorem opcode_make : (make op size fin mask).opcode = op := by
  simp only [make, opcode]
  cases op <;> cases fin <;> decide

@[simp] theorem masked_make : (make op size fin mask).masked = mask :=
  (mask_or_size mask (basicValue_lt size)).1

@[simp] theorem basicSize_make : (make op size fin mask).basicSize = (basicValue size).toNat :=
  congrArg UInt8.toNat (mask_or_size mask (basicValue_lt size)).2

theorem maskingKeyOffset_make :
    (make op size fin mask).maskingKeyOffset = (ExtendedHeader.sizeBytes size).length := by
  rw [maskingKeyOffset, basicSize_make, basicValue_toNat, ExtendedHeader.length_sizeBytes,
    ExtendedHeader.payloadOffset]
  split_ifs <;> simp_all [payloadSizeBasic, payloadSizeExtended, payloadSizeCode16,
    payloadSizeCode64]

theorem b0_eq (h : BasicHeader) (h1 : h.rsv1 = false) (h2 : h.rsv2 = false)
    (h3 : h.rsv3 = false) : h.b0 = (if h.fin then 0x80 else 0) ||| (h.opcode.value &&& 0x0F) := by
  have hall : ∀ n < 256, (UInt8.ofNat n &&& 0x40 == 0x40) = false →
      (UInt8.ofNat n &&& 0x20 == 0x20) = false → (UInt8.ofNat n &&& 0x10 == 0x10) = false →
      UInt8.ofNat n = (if UInt8.ofNat n &&& 0x80 == 0x80 then 0x80 else 0) |||
        ((Opcode.ofValue (UInt8.ofNat n &&& 0x0F)).value &&& 0x0F) := by decide +kernel
  have hb := hall h.b0.toNat (UInt8.toNat_lt _)
  rw [UInt8.ofNat_toNat] at hb
  exact hb h1 h2 h3

theorem b1_eq (h : BasicHeader) :
    h.b1 = (if h.masked then 0x80 else 0) ||| UInt8.ofNat h.basicSize := by
  have hall : ∀ n < 256, UInt8.ofNat n = (if UInt8.ofNat n &&& 0x80 == 0x80 then 0x80 else 0) |||
      UInt8.ofNat (UInt8.ofNat n &&& 0x7F).toNat := by decide +kernel
  have hb := hall h.b1.toNat (UInt8.toNat_lt _)
  rwa [UInt8.ofNat_toNat] at hb

/-- A header whose reserved bits are not set is made from its fields. -/
theorem eq_make (h : BasicHeader) (h1 : h.rsv1 = false) (h2 : h.rsv2 = false)
    (h3 : h.rsv3 = false) (hsize : (basicValue size).toNat = h.basicSize) :
    h = make h.opcode size h.fin h.masked := by
  have hvalue : basicValue size = .ofNat h.basicSize := by
    rw [← hsize, UInt8.ofNat_toNat]
  calc h = ⟨h.b0, h.b1⟩ := rfl
    _ = _ := by rw [b0_eq h h1 h2 h3, b1_eq h, make, hvalue]

end BasicHeader

/-! ### The header that is written -/

/-- The bytes of a key; none if the frame is not masked. -/
def keyBytes (key : Option MaskingKey) : List UInt8 := key.elim [] MaskingKey.c

theorem length_keyBytes (key : Option MaskingKey) :
    (keyBytes key).length = if key.isSome then 4 else 0 := by
  cases key with
  | none => rfl
  | some key => exact key.length_c

/-- The length of the rest of a header that is written. -/
theorem headerLen_make (op : Opcode) (fin : Bool) (size : ℕ) (key : Option MaskingKey) :
    (BasicHeader.make op size fin key.isSome).headerLen - basicHeaderLength =
      (ExtendedHeader.sizeBytes size ++ keyBytes key).length := by
  rw [BasicHeader.headerLen, BasicHeader.maskingKeyOffset_make, BasicHeader.masked_make,
    List.length_append, length_keyBytes]
  omega

/-- The header that is written: the basic header, the payload size and the key. -/
theorem headerBytes_eq (op : Opcode) (fin : Bool) (size : ℕ) (key : Option MaskingKey) :
    headerBytes op fin size key =
      [(BasicHeader.make op size fin key.isSome).b0,
          (BasicHeader.make op size fin key.isSome).b1] ++
        (ExtendedHeader.sizeBytes size ++ keyBytes key) := by
  have hlen := headerLen_make op fin size key
  have hsize := ExtendedHeader.length_sizeBytes size
  have hsize8 : (ExtendedHeader.sizeBytes size).length ≤ 8 := by omega
  cases key with
  | none =>
    rw [headerBytes, prepareHeader]
    simp only [Option.isSome_none] at hlen ⊢
    rw [hlen]
    simp [ExtendedHeader.ofSize, ExtendedHeader.copy, overwrite, keyBytes]
  | some key =>
    rw [headerBytes, prepareHeader]
    simp only [Option.isSome_some] at hlen ⊢
    rw [hlen]
    simp only [ExtendedHeader.ofSizeKey, ExtendedHeader.ofSize, ExtendedHeader.copy, overwrite,
      keyBytes, Option.elim_some, ← hsize]
    simp [← List.append_assoc]

theorem size_cases (size : ℕ) :
    (size ≤ payloadSizeBasic ∧ (basicValue size).toNat = size ∧
      ExtendedHeader.sizeBytes size = []) ∨
    (payloadSizeBasic < size ∧ size ≤ payloadSizeExtended ∧
      (basicValue size).toNat = payloadSizeCode16 ∧
      ExtendedHeader.sizeBytes size = bigEndian 2 size) ∨
    (payloadSizeExtended < size ∧ (basicValue size).toNat = payloadSizeCode64 ∧
      ExtendedHeader.sizeBytes size = bigEndian 8 size) := by
  rw [basicValue_toNat, ExtendedHeader.sizeBytes, ExtendedHeader.payloadOffset]
  rcases Nat.lt_or_ge payloadSizeBasic size with h | h
  · rcases Nat.lt_or_ge payloadSizeExtended size with h' | h'
    · rw [if_neg (Nat.not_le.2 h), if_neg (Nat.not_le.2 h'), if_neg (Nat.not_le.2 h),
        if_neg (Nat.not_le.2 h')]
      exact .inr (.inr ⟨h', rfl, rfl⟩)
    · rw [if_neg (Nat.not_le.2 h), if_pos h', if_neg (Nat.not_le.2 h), if_pos h',
        drop_bigEndian 6 2]
      exact .inr (.inl ⟨h, h', rfl, rfl⟩)
  · rw [if_pos h, if_pos h, drop_bigEndian 8 0]
    exact .inl ⟨h, rfl, rfl⟩

/-- **Reading back a header**: the library reads the payload size and the key that it has
written. -/
theorem read_headerBytes (op : Opcode) (fin : Bool) {size : ℕ} (hsize : size < 2 ^ 64)
    (key : Option MaskingKey) (e : ExtendedHeader)
    (he : ExtendedHeader.sizeBytes size ++ keyBytes key <+: e.bytes) :
    e.payloadSize (.make op size fin key.isSome) = size ∧
      e.maskingKey (.make op size fin key.isSome) = key.getD .zero := by
  obtain ⟨rest, he⟩ := he
  constructor
  · rw [ExtendedHeader.payloadSize, BasicHeader.basicSize_make]
    rcases size_cases size with ⟨h, hv, -⟩ | ⟨h, h', hv, hs⟩ | ⟨h, hv, hs⟩
    · rw [hv, if_pos h]
    · rw [hv, if_neg (by decide), if_pos rfl, ExtendedHeader.extendedSize, ← he, List.append_assoc,
        hs, List.take_left' (length_bigEndian 2 size), ofBigEndian_bigEndian]
      exact Nat.mod_eq_of_lt (Nat.lt_of_le_of_lt h' (by decide))
    · rw [hv, if_neg (by decide), if_neg (by decide), ExtendedHeader.jumboSize, ← he,
        List.append_assoc, hs, List.take_left' (length_bigEndian 8 size), ofBigEndian_bigEndian]
      exact Nat.mod_eq_of_lt hsize
  · cases key with
    | none => simp [ExtendedHeader.maskingKey]
    | some key =>
      have hkey : (e.bytes.drop (ExtendedHeader.sizeBytes size).length).take 4 = key.c := by
        rw [← he, List.append_assoc, List.drop_left, keyBytes, Option.elim_some,
          List.take_left' key.length_c]
      simp [ExtendedHeader.maskingKey, BasicHeader.maskingKeyOffset_make, hkey]

/-- The reader insists on the shortest form of a payload size. -/
def Minimal (h : BasicHeader) (e : ExtendedHeader) : Prop :=
  (h.basicSize = payloadSizeCode16 → payloadSizeBasic < e.payloadSize h) ∧
    (h.basicSize = payloadSizeCode64 → payloadSizeExtended < e.payloadSize h)

/-- The key of a header that is read. -/
def ExtendedHeader.key (h : BasicHeader) (e : ExtendedHeader) : Option MaskingKey :=
  if h.masked then some (e.maskingKey h) else none

theorem BasicHeader.basicSize_lt (h : BasicHeader) : h.basicSize < 128 := by
  have hall : ∀ n < 256, (UInt8.ofNat n &&& 0x7F).toNat < 128 := by decide +kernel
  have hb := hall h.b1.toNat (UInt8.toNat_lt _)
  rwa [UInt8.ofNat_toNat] at hb

theorem ExtendedHeader.bigEndian_take (e : ExtendedHeader) {k : ℕ}
    (hk : k ≤ maxExtendedHeaderLength) :
    ofBigEndian (e.bytes.take k) < 256 ^ k ∧
      bigEndian k (ofBigEndian (e.bytes.take k)) = e.bytes.take k := by
  have hlen : (e.bytes.take k).length = k := by
    rw [List.length_take, e.length_bytes]
    exact Nat.min_eq_left hk
  have hlt := ofBigEndian_lt (e.bytes.take k)
  have hbytes := bigEndian_ofBigEndian (e.bytes.take k)
  rw [hlen] at hlt hbytes
  exact ⟨hlt, hbytes⟩

theorem sizeBytes_payloadSize {h : BasicHeader} {e : ExtendedHeader} (hmin : Minimal h e) :
    e.payloadSize h < 2 ^ 64 ∧ (basicValue (e.payloadSize h)).toNat = h.basicSize ∧
      ExtendedHeader.sizeBytes (e.payloadSize h) = e.bytes.take h.maskingKeyOffset := by
  have hform : h.basicSize ≤ payloadSizeBasic ∨ h.basicSize = payloadSizeCode16 ∨
      h.basicSize = payloadSizeCode64 := by
    have := h.basicSize_lt
    simp only [payloadSizeBasic, payloadSizeCode16, payloadSizeCode64]
    omega
  have hsize := size_cases (e.payloadSize h)
  rcases hform with hb | hb | hb
  · have hval : e.payloadSize h = h.basicSize := by rw [ExtendedHeader.payloadSize, if_pos hb]
    have hoff : h.maskingKeyOffset = 0 := by
      rw [BasicHeader.maskingKeyOffset, if_neg, if_neg] <;> rintro he <;> rw [he] at hb <;>
        revert hb <;> decide
    rcases hsize with ⟨-, hv, hs⟩ | ⟨hlt, -⟩ | ⟨hlt, -⟩
    · refine ⟨?_, hv.trans hval, by rw [hs, hoff, List.take_zero]⟩
      rw [hval]
      exact Nat.lt_trans h.basicSize_lt (by decide)
    · exact absurd (hval ▸ hb) (Nat.not_le.2 hlt)
    · exact absurd (hval ▸ hb) (Nat.not_le.2 (Nat.lt_trans (by decide) hlt))
  · have hval : e.payloadSize h = ofBigEndian (e.bytes.take 2) := by
      rw [ExtendedHeader.payloadSize, hb, if_neg (by decide), if_pos rfl,
        ExtendedHeader.extendedSize]
    have hoff : h.maskingKeyOffset = 2 := by rw [BasicHeader.maskingKeyOffset, if_pos hb]
    obtain ⟨hlt, hbytes⟩ := e.bigEndian_take (k := 2) (by decide)
    have hmin16 := hmin.1 hb
    rcases hsize with ⟨hle, -⟩ | ⟨-, -, hv, hs⟩ | ⟨hgt, -⟩
    · exact absurd hle (Nat.not_le.2 hmin16)
    · refine ⟨?_, hv.trans hb.symm, by rw [hs, hoff, hval, hbytes]⟩
      rw [hval]
      exact Nat.lt_trans hlt (by decide)
    · rw [hval] at hgt
      exact absurd (Nat.lt_of_lt_of_le hlt (by decide)) (Nat.not_lt.2 hgt)
  · have hval : e.payloadSize h = ofBigEndian (e.bytes.take 8) := by
      rw [ExtendedHeader.payloadSize, hb, if_neg (by decide), if_neg (by decide),
        ExtendedHeader.jumboSize]
    have hoff : h.maskingKeyOffset = 8 := by
      rw [BasicHeader.maskingKeyOffset, hb, if_neg (by decide), if_pos rfl]
    obtain ⟨hlt, hbytes⟩ := e.bigEndian_take (k := 8) (by decide)
    have hmin64 := hmin.2 hb
    rcases hsize with ⟨hle, -⟩ | ⟨-, hle, -⟩ | ⟨-, hv, hs⟩
    · exact absurd hle (Nat.not_le.2 (Nat.lt_trans (by decide) hmin64))
    · exact absurd hle (Nat.not_le.2 hmin64)
    · refine ⟨?_, hv.trans hb.symm, by rw [hs, hoff, hval, hbytes]⟩
      rw [hval]
      exact Nat.lt_of_lt_of_le hlt (by decide)

/-- **A header that is accepted** is the one that would have been written for what is read from
it. -/
theorem headerBytes_of_read (h : BasicHeader) (e : ExtendedHeader) (h1 : h.rsv1 = false)
    (h2 : h.rsv2 = false) (h3 : h.rsv3 = false) (hmin : Minimal h e) :
    e.payloadSize h < 2 ^ 64 ∧
      prepareHeader h e = headerBytes h.opcode h.fin (e.payloadSize h) (e.key h) := by
  obtain ⟨hlt, hvalue, hsize⟩ := sizeBytes_payloadSize hmin
  refine ⟨hlt, ?_⟩
  have hmake := h.eq_make _ h1 h2 h3 hvalue
  have hsome : (e.key h).isSome = h.masked := by
    unfold ExtendedHeader.key
    split_ifs with hm <;> simp [hm]
  have hkey : e.bytes.take (h.headerLen - basicHeaderLength) =
      e.bytes.take h.maskingKeyOffset ++ keyBytes (e.key h) := by
    rw [BasicHeader.headerLen, Nat.add_assoc, Nat.add_sub_cancel_left, ExtendedHeader.key]
    split_ifs with hm
    · simp [List.take_add, keyBytes, ExtendedHeader.maskingKey, hm]
    · simp [keyBytes]
  rw [prepareHeader, headerBytes_eq, hkey, hsize, hsome, ← hmake]

end Websocket

end MoonJamRelay
