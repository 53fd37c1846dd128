import MoonJamRelay.Websocket.Frame

/-!
# Masking

A frame's payload is masked byte by byte with a key of four bytes. The library has the plain loop
`byteMask` and three faster or resumable ones, on a machine whose words have eight bytes, least
significant byte first. They all compute `mask`, also when a payload comes in pieces.

* `PreparedFor` : what a prepared key says about the key and the offset in the payload; every
  resumable function keeps it (`byteMaskCirc_spec`, `wordMaskCirc_spec`).
* `masking_agrees` : all the functions agree, over any division of a payload into pieces.
-/

namespace MoonJamRelay

namespace Websocket

variable {key : MaskingKey} {offset : ℕ} {k : Word}

/-! ### The functions -/

/-- The loop of `byte_mask`, from a key index on. -/
def byteMaskLoop (key : MaskingKey) : ℕ → List UInt8 → List UInt8
  | _, [] => []
  | keyIndex, b :: rest =>
    (b ^^^ key.c.getD keyIndex 0) :: byteMaskLoop key ((keyIndex + 1) % 4) rest

/-- `byte_mask`. -/
def byteMask (input : List UInt8) (key : MaskingKey) (keyOffset : ℕ) : List UInt8 :=
  byteMaskLoop key (keyOffset % 4) input

/-- `prepare_masking_key`. -/
def prepareMaskingKey (key : MaskingKey) : Word :=
  let lowBits := Word.load key.c
  let highBits := Word.load key.c
  highBits <<< 32 ||| lowBits

/-- `circshift_prepared_key`. -/
def circshiftPreparedKey (preparedKey : Word) (offset : ℕ) : Word :=
  if offset = 0 then preparedKey
  else
    let temp := preparedKey <<< ((8 - offset) * 8)
    preparedKey >>> (offset * 8) ||| temp

/-- A word of the input of the word by word loops. -/
def inputWord (input : List UInt8) (i : ℕ) : Word := Word.load ((input.drop (i * 8)).take 8)

/-- The word by word loop: its output for the first `n` words. -/
def maskWords (input : List UInt8) (n : ℕ) (preparedKey : Word) : List UInt8 :=
  (List.range n).flatMap fun i => (inputWord input i ^^^ preparedKey).store

/-- `word_mask_exact`. -/
def wordMaskExact (input : List UInt8) (key : MaskingKey) : List UInt8 :=
  let preparedKey := prepareMaskingKey key
  let n := input.length / 8
  maskWords input n preparedKey ++
    (input.drop (n * 8)).mapIdx fun i b => b ^^^ key.c.getD ((n * 8 + i) % 4) 0

/-- `word_mask_circ`: the output and the shifted key. -/
def wordMaskCirc (input : List UInt8) (preparedKey : Word) : List UInt8 × Word :=
  let n := input.length / 8
  let l := input.length - n * 8
  (maskWords input n preparedKey ++
      (input.drop (n * 8)).mapIdx fun i b => b ^^^ preparedKey.byte i,
    circshiftPreparedKey preparedKey l)

/-- `byte_mask_circ`: the output and the shifted key; `key.i` keeps the low half of the word. -/
def byteMaskCirc (input : List UInt8) (preparedKey : Word) : List UInt8 × Word :=
  (input.mapIdx fun i b => b ^^^ preparedKey.byte (i % 4),
    circshiftPreparedKey preparedKey (input.length % 4))

/-! ### The plain loop -/

theorem byteMaskLoop_eq (input : List UInt8) :
    byteMaskLoop key (offset % 4) input = mask key.byte offset input := by
  induction input generalizing offset with
  | nil => rfl
  | cons b rest ih =>
    rw [byteMaskLoop, mask_cons, show (offset % 4 + 1) % 4 = (offset + 1) % 4 by omega, ih,
      MaskingKey.byte]

theorem byteMask_eq (input : List UInt8) : byteMask input key offset = mask key.byte offset input :=
  byteMaskLoop_eq input

/-! ### Prepared keys -/

/-- The prepared key has the key's bytes from an offset of the payload on. -/
def PreparedFor (key : MaskingKey) (offset : ℕ) (k : Word) : Prop :=
  ∀ j < 8, k.byte j = key.byte (offset + j)

theorem MaskingKey.byte_congr (key : MaskingKey) {i j : ℕ} (h : i % 4 = j % 4) :
    key.byte i = key.byte j := by
  rw [byte, byte, h]

theorem preparedFor_prepare (key : MaskingKey) : PreparedFor key 0 (prepareMaskingKey key) := by
  intro j hj
  have hbytes : ∀ j < 8, (Word.load key.c).byte j = key.c.getD j 0 := fun j hj =>
    Word.byte_load hj key.c
  have hzero : ∀ j, 4 ≤ j → key.c.getD j 0 = 0 := fun j hj => by
    simp [key.length_c, hj]
  rw [Nat.zero_add, MaskingKey.byte]
  refine Word.byte_ext fun i hi => ?_
  have hlow : (Word.load key.c).getLsbD (8 * j + i) = (key.c.getD j 0).toBitVec.getLsbD i := by
    rw [← hbytes j hj, Word.getLsbD_byte _ _ hi]
  rw [Word.getLsbD_byte _ _ hi, prepareMaskingKey, BitVec.getLsbD_or, BitVec.getLsbD_shiftLeft,
    hlow]
  rcases Nat.lt_or_ge j 4 with h | h
  · simp [Nat.mod_eq_of_lt h, show 8 * j + i < 32 by omega]
  · have hhigh : (Word.load key.c).getLsbD (8 * j + i - 32) =
        (key.c.getD (j - 4) 0).toBitVec.getLsbD i := by
      rw [← hbytes (j - 4) (by omega), Word.getLsbD_byte _ _ hi,
        show 8 * (j - 4) + i = 8 * j + i - 32 by omega]
    rw [hhigh, hzero j h, show j % 4 = j - 4 by omega]
    simp [show 8 * j + i < 64 by omega, show ¬ 8 * j + i < 32 by omega]

theorem PreparedFor.congr {offset' : ℕ} (h : PreparedFor key offset k)
    (he : offset % 4 = offset' % 4) : PreparedFor key offset' k := fun j hj =>
  (h j hj).trans (key.byte_congr (by omega))

theorem PreparedFor.circshift (h : PreparedFor key offset k) {r : ℕ} (hr : r < 8) :
    PreparedFor key (offset + r) (circshiftPreparedKey k r) := by
  intro j hj
  rw [circshiftPreparedKey]
  split_ifs with h0
  · rw [h0, Nat.add_zero]
    exact h j hj
  · rw [Word.byte_rotate k (Nat.pos_of_ne_zero h0) hr hj, h _ (Nat.mod_lt _ (by decide))]
    exact key.byte_congr (by omega)

/-! ### Words -/

/-- One word of the payload is masked like its bytes. -/
theorem PreparedFor.store_xor (h : PreparedFor key offset k) {bytes : List UInt8}
    (hlen : bytes.length = 8) :
    (Word.load bytes ^^^ k).store = mask key.byte offset bytes := by
  rw [Word.store_xor_load hlen]
  refine List.ext_getElem (by simp) fun j hj _ => ?_
  have hj8 : j < 8 := by simpa [hlen] using hj
  simp [mask, h j hj8]

theorem PreparedFor.maskWords (h : PreparedFor key offset k) {input : List UInt8} {n : ℕ}
    (hn : n * 8 ≤ input.length) :
    maskWords input n k = mask key.byte offset (input.take (n * 8)) := by
  induction n with
  | zero => simp [Websocket.maskWords]
  | succ n ih =>
    have hlen : ((input.drop (n * 8)).take 8).length = 8 := by
      rw [List.length_take, List.length_drop]
      omega
    have hword : PreparedFor key (offset + n * 8) k := h.congr (by omega)
    have htake : (input.take (n * 8)).length = n * 8 := by
      rw [List.length_take]
      omega
    rw [Websocket.maskWords, List.range_succ, List.flatMap_append, ← Websocket.maskWords,
      ih (by omega), Nat.add_one_mul, List.take_add, mask_append, htake, List.flatMap_singleton,
      inputWord, hword.store_xor hlen]

/-- The whole payload: the words of it, then the bytes after the last word. -/
theorem PreparedFor.maskWords_append (h : PreparedFor key offset k) (input : List UInt8)
    {f : ℕ → UInt8} (hf : ∀ i < input.length - input.length / 8 * 8,
      f i = key.byte (offset + input.length / 8 * 8 + i)) :
    Websocket.maskWords input (input.length / 8) k ++
        (input.drop (input.length / 8 * 8)).mapIdx (fun i b => b ^^^ f i) =
      mask key.byte offset input := by
  have hn : input.length / 8 * 8 ≤ input.length := Nat.div_mul_le_self _ _
  have hrest : (input.drop (input.length / 8 * 8)).mapIdx (fun i b => b ^^^ f i) =
      mask key.byte (offset + input.length / 8 * 8) (input.drop (input.length / 8 * 8)) := by
    refine List.ext_getElem (by simp) fun i hi _ => ?_
    have hi' : i < input.length - input.length / 8 * 8 := by simpa using hi
    simp [mask, hf i hi']
  calc Websocket.maskWords input (input.length / 8) k ++ _
      = mask key.byte offset (input.take (input.length / 8 * 8)) ++
          mask key.byte (offset + input.length / 8 * 8) (input.drop (input.length / 8 * 8)) := by
        rw [h.maskWords hn, hrest]
    _ = mask key.byte offset
          (input.take (input.length / 8 * 8) ++ input.drop (input.length / 8 * 8)) := by
        rw [mask_append, List.length_take_of_le hn]
    _ = mask key.byte offset input := by rw [List.take_append_drop]

theorem wordMaskExact_eq (input : List UInt8) (key : MaskingKey) :
    wordMaskExact input key = mask key.byte 0 input :=
  (preparedFor_prepare key).maskWords_append input fun i _ => by
    rw [Nat.zero_add, MaskingKey.byte]

theorem wordMaskCirc_spec (h : PreparedFor key offset k) (input : List UInt8) :
    (wordMaskCirc input k).1 = mask key.byte offset input ∧
      PreparedFor key (offset + input.length) (wordMaskCirc input k).2 := by
  have hl : input.length - input.length / 8 * 8 < 8 := by omega
  constructor
  · refine h.maskWords_append input fun i hi => ?_
    rw [h i (by omega)]
    exact key.byte_congr (by omega)
  · exact (h.circshift hl).congr (by omega)

theorem byteMaskCirc_spec (h : PreparedFor key offset k) (input : List UInt8) :
    (byteMaskCirc input k).1 = mask key.byte offset input ∧
      PreparedFor key (offset + input.length) (byteMaskCirc input k).2 := by
  constructor
  · refine List.ext_getElem (by simp [byteMaskCirc]) fun i _ _ => ?_
    have hi : i % 4 < 8 := by omega
    have hbyte : key.byte (offset + i % 4) = key.byte (offset + i) := key.byte_congr (by omega)
    simp [byteMaskCirc, mask, h _ hi, hbyte]
  · exact (h.circshift (r := input.length % 4) (by omega)).congr (by omega)

/-! ### Pieces -/

/-- Mask a payload that comes in pieces, each by words or by bytes. -/
def maskPieces : Word → List (Bool × List UInt8) → List UInt8
  | _, [] => []
  | k, (byWords, piece) :: rest =>
    let (out, k) := if byWords then wordMaskCirc piece k else byteMaskCirc piece k
    out ++ maskPieces k rest

theorem maskPieces_eq (h : PreparedFor key offset k) (pieces : List (Bool × List UInt8)) :
    maskPieces k pieces = mask key.byte offset (pieces.flatMap Prod.snd) := by
  induction pieces generalizing offset k with
  | nil => rfl
  | cons piece rest ih =>
    obtain ⟨byWords, piece⟩ := piece
    have hpiece : ∃ out k', (if byWords then wordMaskCirc piece k else byteMaskCirc piece k) =
        (out, k') ∧ out = mask key.byte offset piece ∧
          PreparedFor key (offset + piece.length) k' := by
      cases byWords with
      | true => exact ⟨_, _, rfl, wordMaskCirc_spec h piece⟩
      | false => exact ⟨_, _, rfl, byteMaskCirc_spec h piece⟩
    obtain ⟨out, k', heq, rfl, hk'⟩ := hpiece
    rw [maskPieces, heq, List.flatMap_cons, mask_append]
    exact congrArg _ (ih hk')

/-- **Masking**: the word by word and the resumable functions, the latter over any division of a
payload and chosen anew for every piece, compute what the plain loop computes; and masking again
restores the payload. -/
theorem masking_agrees (key : MaskingKey) (payload : List UInt8) :
    (∀ pieces : List (Bool × List UInt8), pieces.flatMap Prod.snd = payload →
      maskPieces (prepareMaskingKey key) pieces = byteMask payload key 0) ∧
    wordMaskExact payload key = byteMask payload key 0 ∧
    byteMask (byteMask payload key 0) key 0 = payload := by
  refine ⟨fun pieces hpieces => ?_, ?_, ?_⟩
  · rw [maskPieces_eq (preparedFor_prepare key), byteMask_eq, hpieces]
  · rw [wordMaskExact_eq, byteMask_eq]
  · rw [byteMask_eq, byteMask_eq, mask_mask]

end Websocket

end MoonJamRelay
