import Mathlib.Data.Nat.Digits.Lemmas

/-!
# Numbers as bytes, and bytes under a key stream

* `bigEndian`, `ofBigEndian` : a number in a fixed number of bytes, most significant byte first;
  `ofBigEndian_bigEndian` and `bigEndian_ofBigEndian` are the round trips.
* `Word.load`, `Word.store` : a machine word and its bytes in memory, least significant byte first.
* `overwrite` : copy bytes into an array.
* `mask` : the exclusive or with a key stream, which is its own inverse (`mask_mask`) and can be
  applied in pieces (`mask_append`).
-/

namespace MoonJamRelay

/-! ### Big-endian numbers -/

/-- The last `w` bytes of a number, most significant byte first. -/
def bigEndian : ℕ → ℕ → List UInt8
  | 0, _ => []
  | w + 1, n => bigEndian w (n / 256) ++ [UInt8.ofNat n]

/-- The number that the bytes stand for, most significant byte first. -/
def ofBigEndian (bytes : List UInt8) : ℕ := Nat.ofDigits 256 (bytes.reverse.map UInt8.toNat)

variable {w n : ℕ} {bytes bytes' : List UInt8}

@[simp] theorem length_bigEndian (w n : ℕ) : (bigEndian w n).length = w := by
  induction w generalizing n with
  | zero => rfl
  | succ w ih => simp [bigEndian, ih]

@[simp] theorem ofBigEndian_nil : ofBigEndian [] = 0 := rfl

theorem ofBigEndian_snoc (b : UInt8) :
    ofBigEndian (bytes ++ [b]) = ofBigEndian bytes * 256 + b.toNat := by
  simp [ofBigEndian, Nat.ofDigits_cons]
  ring

theorem ofBigEndian_lt (bytes : List UInt8) : ofBigEndian bytes < 256 ^ bytes.length := by
  induction bytes using List.reverseRecOn with
  | nil => decide
  | append_singleton bytes b ih =>
    have hb : b.toNat < 256 := UInt8.toNat_lt b
    rw [ofBigEndian_snoc, List.length_append, List.length_singleton, pow_succ]
    omega

theorem ofBigEndian_bigEndian (w n : ℕ) : ofBigEndian (bigEndian w n) = n % 256 ^ w := by
  induction w generalizing n with
  | zero => simp [bigEndian, Nat.mod_one]
  | succ w ih =>
    rw [bigEndian, ofBigEndian_snoc, ih, pow_succ, mul_comm (256 ^ w), Nat.mod_mul]
    simp
    ring

theorem bigEndian_ofBigEndian (bytes : List UInt8) :
    bigEndian bytes.length (ofBigEndian bytes) = bytes := by
  induction bytes using List.reverseRecOn with
  | nil => rfl
  | append_singleton bytes b ih =>
    have hb : b.toNat < 256 := UInt8.toNat_lt b
    rw [List.length_append, List.length_singleton, bigEndian, ofBigEndian_snoc,
      show (ofBigEndian bytes * 256 + b.toNat) / 256 = ofBigEndian bytes by omega, ih]
    congr 2
    apply UInt8.toNat_inj.1
    simp

/-- The first bytes of a small number are zeros, so leaving them out changes nothing. -/
theorem drop_bigEndian (v w n : ℕ) : (bigEndian (v + w) n).drop v = bigEndian w n := by
  induction w generalizing n with
  | zero => simp [bigEndian]
  | succ w ih =>
    rw [← Nat.add_assoc, bigEndian, bigEndian, List.drop_append_of_le_length (by simp), ih]

/-! ### Words in memory -/

/-- A machine word. -/
abbrev Word := BitVec 64

namespace Word

/-- The byte of a word at an offset in memory. -/
def byte (k : Word) (j : ℕ) : UInt8 := .ofBitVec (k.extractLsb' (8 * j) 8)

/-- The word that some bytes in memory are. -/
def load : List UInt8 → Word
  | [] => 0
  | b :: bytes => load bytes <<< 8 ||| b.toBitVec.setWidth 64

/-- The bytes of a word in memory. -/
def store (k : Word) : List UInt8 := (List.range 8).map k.byte

theorem getLsbD_byte (k : Word) (j : ℕ) {i : ℕ} (hi : i < 8) :
    (k.byte j).toBitVec.getLsbD i = k.getLsbD (8 * j + i) := by
  simp [byte, hi]

theorem byte_ext {b c : UInt8} (h : ∀ i < 8, b.toBitVec.getLsbD i = c.toBitVec.getLsbD i) : b = c :=
  UInt8.toBitVec_inj.1 (BitVec.eq_of_getLsbD_eq h)

@[simp] theorem byte_xor (k k' : Word) (j : ℕ) :
    byte (k ^^^ k') j = k.byte j ^^^ k'.byte j := by
  refine byte_ext fun i hi => ?_
  rw [UInt8.toBitVec_xor, BitVec.getLsbD_xor, getLsbD_byte _ _ hi, getLsbD_byte _ _ hi,
    getLsbD_byte _ _ hi, BitVec.getLsbD_xor]

theorem byte_load {j : ℕ} (hj : j < 8) (bytes : List UInt8) :
    (load bytes).byte j = bytes.getD j 0 := by
  induction bytes generalizing j with
  | nil => exact byte_ext fun i hi => by simp [getLsbD_byte _ _ hi, load]
  | cons b bytes ih =>
    refine byte_ext fun i hi => ?_
    rw [getLsbD_byte _ _ hi, load, BitVec.getLsbD_or, BitVec.getLsbD_shiftLeft,
      BitVec.getLsbD_setWidth]
    cases j with
    | zero => simp [hi, show i < 64 by omega]
    | succ j =>
      have hrest : b.toBitVec.getLsbD (8 * (j + 1) + i) = false :=
        BitVec.getLsbD_of_ge _ _ (by omega)
      rw [List.getD_cons_succ, ← ih (by omega), getLsbD_byte _ _ hi, hrest,
        show 8 * (j + 1) + i - 8 = 8 * j + i by omega]
      simp [show 8 * (j + 1) + i < 64 by omega, show 8 ≤ 8 * (j + 1) + i by omega]

theorem length_store (k : Word) : k.store.length = 8 := by simp [store]

theorem store_xor_load {bytes : List UInt8} (h : bytes.length = 8) (k : Word) :
    (load bytes ^^^ k).store = bytes.mapIdx fun j b => b ^^^ k.byte j := by
  refine List.ext_getElem (by simp [store, h]) fun j hj _ => ?_
  rw [length_store] at hj
  simp [store, byte_load hj, List.getElem?_eq_getElem (h ▸ hj : j < bytes.length)]

/-- The bytes of a word that was rotated by some bytes. -/
theorem byte_rotate (k : Word) {r j : ℕ} (hr : 0 < r) (hr8 : r < 8) (hj : j < 8) :
    byte (k >>> (r * 8) ||| k <<< ((8 - r) * 8)) j = k.byte ((j + r) % 8) := by
  refine byte_ext fun i hi => ?_
  rw [getLsbD_byte _ _ hi, getLsbD_byte _ _ hi, BitVec.getLsbD_or, BitVec.getLsbD_ushiftRight,
    BitVec.getLsbD_shiftLeft]
  rcases Nat.lt_or_ge (j + r) 8 with h | h
  · rw [Nat.mod_eq_of_lt h, show r * 8 + (8 * j + i) = 8 * (j + r) + i by omega]
    simp [show 8 * j + i < (8 - r) * 8 by omega]
  · rw [Nat.mod_eq_sub_mod h, Nat.mod_eq_of_lt (by omega),
      BitVec.getLsbD_of_ge _ (r * 8 + (8 * j + i)) (by omega),
      show 8 * j + i - (8 - r) * 8 = 8 * (j + r - 8) + i by omega]
    simp [show 8 * j + i < 64 by omega, show ¬ 8 * j + i < (8 - r) * 8 by omega]

end Word

/-! ### Copying -/

/-- Copy bytes into an array, from an offset on. -/
def overwrite (array : List UInt8) (offset : ℕ) (bytes : List UInt8) : List UInt8 :=
  array.take offset ++ bytes ++ array.drop (offset + bytes.length)

/-! ### Key streams -/

/-- The exclusive or of the bytes with a key stream, from an offset of the stream on. -/
def mask (key : ℕ → UInt8) (offset : ℕ) (bytes : List UInt8) : List UInt8 :=
  bytes.mapIdx fun i b => b ^^^ key (offset + i)

variable {key : ℕ → UInt8} {offset : ℕ}

@[simp] theorem mask_nil : mask key offset [] = [] := rfl

@[simp] theorem length_mask : (mask key offset bytes).length = bytes.length := by simp [mask]

theorem mask_cons (b : UInt8) :
    mask key offset (b :: bytes) = (b ^^^ key offset) :: mask key (offset + 1) bytes := by
  simp only [mask, List.mapIdx_cons, Nat.add_zero, Nat.add_right_comm offset]
  rfl

theorem mask_append : mask key offset (bytes ++ bytes') =
    mask key offset bytes ++ mask key (offset + bytes.length) bytes' := by
  simp only [mask, List.mapIdx_append, Nat.add_right_comm offset, Nat.add_assoc]

@[simp] theorem mask_mask : mask key offset (mask key offset bytes) = bytes := by
  apply List.ext_getElem
  · simp
  · intro i _ _
    simp only [mask, List.getElem_mapIdx, UInt8.xor_assoc, UInt8.xor_self, UInt8.xor_zero]

end MoonJamRelay
