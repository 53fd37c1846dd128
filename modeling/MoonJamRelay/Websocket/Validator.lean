import MoonJamRelay.Text.Utf8
import Mathlib.Algebra.Group.Nat.Defs
import Mathlib.Tactic.ByContra

/-!
# The validator of texts

The payload of a text message is checked byte by byte, while it arrives, by an automaton given as a
table.

* `utf8d`, `Validator.decodeByte`, `Validator.decode`, `validate` : the table and the functions.
* `next_start`, `next_owed` : what the table says, by the values of the bytes.
* `validate_iff_text` : exactly the texts pass, and the automaton rejects at the first byte that no
  text can have there.
-/

namespace MoonJamRelay

namespace Websocket

/-! ### The functions -/

/-- `utf8_accept`. -/
def utf8Accept : ℕ := 0

/-- `utf8_reject`. -/
def utf8Reject : ℕ := 1

/-- `utf8d`: the types of the bytes, then a row of 16 for each state. -/
def utf8d : List ℕ := [
  0,0,0,0,0,0,0,0,0,0,0,0,0,0,0,0,0,0,0,0,0,0,0,0,0,0,0,0,0,0,0,0,
  0,0,0,0,0,0,0,0,0,0,0,0,0,0,0,0,0,0,0,0,0,0,0,0,0,0,0,0,0,0,0,0,
  0,0,0,0,0,0,0,0,0,0,0,0,0,0,0,0,0,0,0,0,0,0,0,0,0,0,0,0,0,0,0,0,
  0,0,0,0,0,0,0,0,0,0,0,0,0,0,0,0,0,0,0,0,0,0,0,0,0,0,0,0,0,0,0,0,
  1,1,1,1,1,1,1,1,1,1,1,1,1,1,1,1,9,9,9,9,9,9,9,9,9,9,9,9,9,9,9,9,
  7,7,7,7,7,7,7,7,7,7,7,7,7,7,7,7,7,7,7,7,7,7,7,7,7,7,7,7,7,7,7,7,
  8,8,2,2,2,2,2,2,2,2,2,2,2,2,2,2,2,2,2,2,2,2,2,2,2,2,2,2,2,2,2,2,
  0xa,0x3,0x3,0x3,0x3,0x3,0x3,0x3,0x3,0x3,0x3,0x3,0x3,0x4,0x3,0x3,
  0xb,0x6,0x6,0x6,0x5,0x8,0x8,0x8,0x8,0x8,0x8,0x8,0x8,0x8,0x8,0x8,
  0x0,0x1,0x2,0x3,0x5,0x8,0x7,0x1,0x1,0x1,0x4,0x6,0x1,0x1,0x1,0x1,
  1,1,1,1,1,1,1,1,1,1,1,1,1,1,1,1,1,0,1,1,1,1,1,0,1,0,1,1,1,1,1,1,
  1,2,1,1,1,1,1,2,1,2,1,1,1,1,1,1,1,1,1,1,1,1,1,2,1,1,1,1,1,1,1,1,
  1,2,1,1,1,1,1,1,1,2,1,1,1,1,1,1,1,1,1,1,1,1,1,3,1,3,1,1,1,1,1,1,
  1,3,1,1,1,1,1,3,1,3,1,1,1,1,1,1,1,3,1,1,1,1,1,1,1,1,1,1,1,1,1,1]

/-- `validator`: the state of the automaton and the number of the character that is read. -/
structure Validator where
  state : ℕ := utf8Accept
  codepoint : ℕ := 0
  deriving DecidableEq

/-- The state after a byte. -/
def next (state : ℕ) (byte : UInt8) : ℕ :=
  utf8d.getD (256 + state * 16 + utf8d.getD byte.toNat 0) 0

namespace Validator

/-- `utf8_validator::decode`. -/
def decodeByte (v : Validator) (byte : UInt8) : Validator where
  codepoint :=
    if v.state ≠ utf8Accept then (byte.toNat &&& 0x3F ||| v.codepoint <<< 6) % 2 ^ 32
    else 0xFF >>> utf8d.getD byte.toNat 0 &&& byte.toNat
  state := next v.state byte

/-- `validator::decode`: it stops at a byte that is rejected. -/
def decode (v : Validator) : List UInt8 → Validator × Bool
  | [] => (v, true)
  | b :: rest =>
    if (v.decodeByte b).state = utf8Reject then (v.decodeByte b, false)
    else decode (v.decodeByte b) rest

/-- `validator::complete`. -/
def complete (v : Validator) : Bool := v.state == utf8Accept

end Validator

/-- `utf8_validator::validate`. -/
def validate (s : List UInt8) : Bool :=
  let (v, ok) := Validator.decode {} s
  if ¬ ok then false else v.complete

/-! ### What the table says -/

/-- The type of a byte. -/
def byteType (b : ℕ) : ℕ :=
  if b ≤ 0x7F then 0 else if b ≤ 0x8F then 1 else if b ≤ 0x9F then 9 else if b ≤ 0xBF then 7
  else if b < 0xC2 then 8 else if b ≤ 0xDF then 2 else if b = 0xE0 then 10 else if b = 0xED then 4
  else if b ≤ 0xEF then 3 else if b = 0xF0 then 11 else if b < 0xF4 then 6 else if b = 0xF4 then 5
  else 8

theorem getD_utf8d (b : UInt8) : utf8d.getD b.toNat 0 = byteType b.toNat := by
  have hall : ∀ n < 256, utf8d.getD n 0 = byteType n := by decide +kernel
  exact hall b.toNat (UInt8.toNat_lt b)

/-- The state after the first byte of a character. -/
def firstState (b : ℕ) : ℕ :=
  if b ≤ 0x7F then 0 else if b < 0xC2 then 1 else if b ≤ 0xDF then 2 else if b = 0xE0 then 4
  else if b = 0xED then 5 else if b ≤ 0xEF then 3 else if b = 0xF0 then 6 else if b < 0xF4 then 7
  else if b = 0xF4 then 8 else 1

theorem next_start (b : UInt8) : next 0 b = firstState b.toNat := by
  have hall : ∀ n < 256, utf8d.getD (256 + byteType n) 0 = firstState n := by decide +kernel
  rw [next, getD_utf8d]
  exact hall b.toNat (UInt8.toNat_lt b)

/-- What a state waits for: the least and the greatest next byte, and the state after it. -/
def owed : ℕ → ℕ × ℕ × ℕ
  | 2 => (0x80, 0xBF, 0)
  | 3 => (0x80, 0xBF, 2)
  | 4 => (0xA0, 0xBF, 2)
  | 5 => (0x80, 0x9F, 2)
  | 6 => (0x90, 0xBF, 3)
  | 7 => (0x80, 0xBF, 3)
  | _ => (0x80, 0x8F, 3)

/-- The types of the bytes that a state waits for. -/
def owedTypes : ℕ → List ℕ
  | 4 => [7]
  | 5 => [1, 9]
  | 6 => [7, 9]
  | 8 => [1]
  | _ => [1, 7, 9]

theorem next_owed {q : ℕ} (hq : 2 ≤ q) (hq' : q ≤ 8) (b : UInt8) : next q b =
    if (owed q).1 ≤ b.toNat ∧ b.toNat ≤ (owed q).2.1 then (owed q).2.2 else utf8Reject := by
  have hrow : ∀ q ≤ 8, 2 ≤ q → ∀ t < 12, utf8d.getD (256 + q * 16 + t) 0 =
      if t ∈ owedTypes q then (owed q).2.2 else utf8Reject := by decide +kernel
  have htypes : ∀ n < 256, byteType n < 12 ∧ ∀ q ≤ 8, 2 ≤ q →
      (byteType n ∈ owedTypes q ↔ (owed q).1 ≤ n ∧ n ≤ (owed q).2.1) := by decide +kernel
  obtain ⟨htype, hmem⟩ := htypes b.toNat (UInt8.toNat_lt b)
  rw [next, getD_utf8d, hrow q hq' hq _ htype]
  simp only [hmem q hq' hq]

/-- A state that waits can get a byte it waits for, and gets closer to the end. -/
theorem owed_spec {q : ℕ} (hq : 2 ≤ q) (hq' : q ≤ 8) :
    (owed q).2.2 < q ∧ ((owed q).2.2 = 0 ∨ 2 ≤ (owed q).2.2 ∧ (owed q).2.2 ≤ 8) ∧
      (owed q).1 ≤ (owed q).2.1 ∧ (owed q).1 < 256 := by
  have hall : ∀ q ≤ 8, 2 ≤ q → (owed q).2.2 < q ∧
      ((owed q).2.2 = 0 ∨ 2 ≤ (owed q).2.2 ∧ (owed q).2.2 ≤ 8) ∧
      (owed q).1 ≤ (owed q).2.1 ∧ (owed q).1 < 256 := by decide
  exact hall q hq' hq

/-- The bits of the first byte that belong to the number of the character. -/
def firstNumber (b : ℕ) : ℕ :=
  if b ≤ 0x7F then b else if b ≤ 0xDF then b - 0xC0 else if b ≤ 0xEF then b - 0xE0 else b - 0xF0

theorem first_codepoint (b : UInt8) (h : firstState b.toNat ≠ utf8Reject) :
    0xFF >>> utf8d.getD b.toNat 0 &&& b.toNat = firstNumber b.toNat := by
  have hall : ∀ n < 256, firstState n ≠ utf8Reject →
      0xFF >>> byteType n &&& n = firstNumber n := by decide +kernel
  rw [getD_utf8d]
  exact hall b.toNat (UInt8.toNat_lt b) h

theorem first_cases {b : ℕ} (hb : b < 256) (h : firstState b ≠ utf8Reject) :
    b ≤ 0x7F ∨ (0xC2 ≤ b ∧ b ≤ 0xDF) ∨ (0xE0 ≤ b ∧ b ≤ 0xEF) ∨ (0xF0 ≤ b ∧ b ≤ 0xF4) := by
  have hall : ∀ b < 256, firstState b ≠ utf8Reject → b ≤ 0x7F ∨ (0xC2 ≤ b ∧ b ≤ 0xDF) ∨
      (0xE0 ≤ b ∧ b ≤ 0xEF) ∨ (0xF0 ≤ b ∧ b ≤ 0xF4) := by decide +kernel
  exact hall b hb h

theorem first_one {b : ℕ} (hb : b ≤ 0x7F) : firstState b = 0 ∧ firstNumber b = b :=
  ⟨if_pos hb, if_pos hb⟩

theorem first_two {b : ℕ} (hb : 0xC2 ≤ b) (hb' : b ≤ 0xDF) :
    firstState b = 2 ∧ firstNumber b = b - 0xC0 := by
  have hall : ∀ b ≤ 0xDF, 0xC2 ≤ b → firstState b = 2 ∧ firstNumber b = b - 0xC0 := by
    decide +kernel
  exact hall b hb' hb

/-- The first byte of three: what the second one can be. -/
theorem first_three {b : ℕ} (hb : 0xE0 ≤ b) (hb' : b ≤ 0xEF) :
    2 ≤ firstState b ∧ firstState b ≤ 8 ∧ (owed (firstState b)).2.2 = 2 ∧
      firstNumber b = b - 0xE0 ∧
      ∀ t, (owed (firstState b)).1 ≤ t ∧ t ≤ (owed (firstState b)).2.1 ↔
        (0x80 ≤ t ∧ t ≤ 0xBF) ∧ (b = 0xE0 → 0xA0 ≤ t) ∧ (b = 0xED → t ≤ 0x9F) := by
  have hall : ∀ b ≤ 0xEF, 0xE0 ≤ b → 2 ≤ firstState b ∧ firstState b ≤ 8 ∧
      owed (firstState b) = (if b = 0xE0 then 0xA0 else 0x80, if b = 0xED then 0x9F else 0xBF, 2) ∧
      firstNumber b = b - 0xE0 := by decide +kernel
  obtain ⟨hq, hq', howed, hn⟩ := hall b hb' hb
  refine ⟨hq, hq', by rw [howed], hn, fun t => ?_⟩
  simp only [howed]
  split_ifs <;> omega

/-- The first byte of four: what the second one can be. -/
theorem first_four {b : ℕ} (hb : 0xF0 ≤ b) (hb' : b ≤ 0xF4) :
    2 ≤ firstState b ∧ firstState b ≤ 8 ∧ (owed (firstState b)).2.2 = 3 ∧
      firstNumber b = b - 0xF0 ∧
      ∀ t, (owed (firstState b)).1 ≤ t ∧ t ≤ (owed (firstState b)).2.1 ↔
        (0x80 ≤ t ∧ t ≤ 0xBF) ∧ (b = 0xF0 → 0x90 ≤ t) ∧ (b = 0xF4 → t ≤ 0x8F) := by
  have hall : ∀ b ≤ 0xF4, 0xF0 ≤ b → 2 ≤ firstState b ∧ firstState b ≤ 8 ∧
      owed (firstState b) = (if b = 0xF0 then 0x90 else 0x80, if b = 0xF4 then 0x8F else 0xBF, 3) ∧
      firstNumber b = b - 0xF0 := by decide +kernel
  obtain ⟨hq, hq', howed, hn⟩ := hall b hb' hb
  refine ⟨hq, hq', by rw [howed], hn, fun t => ?_⟩
  simp only [howed]
  split_ifs <;> omega

theorem firstState_range {b : ℕ} (hb : b < 256) (h : firstState b ≠ utf8Reject) :
    firstState b = 0 ∨ 2 ≤ firstState b ∧ firstState b ≤ 8 := by
  rcases first_cases hb h with h1 | ⟨h2, h2'⟩ | ⟨h3, h3'⟩ | ⟨h4, h4'⟩
  · exact .inl (first_one h1).1
  · rw [(first_two h2 h2').1]
    decide
  · exact .inr ⟨(first_three h3 h3').1, (first_three h3 h3').2.1⟩
  · exact .inr ⟨(first_four h4 h4').1, (first_four h4 h4').2.1⟩

/-- A tail byte adds six bits to the number. -/
theorem tail_codepoint {b v : ℕ} (hb : 0x80 ≤ b) (hb' : b ≤ 0xBF) (hv : v < 2 ^ 26) :
    (b &&& 0x3F ||| v <<< 6) % 2 ^ 32 = v * 64 + (b - 0x80) := by
  have hlow : b &&& 0x3F = b - 0x80 := by
    rw [Nat.and_two_pow_sub_one_eq_mod b 6]
    omega
  have hor : v <<< 6 + (b - 0x80) = v <<< 6 ||| (b - 0x80) :=
    Nat.shiftLeft_add_eq_or_of_lt (by omega) v
  rw [hlow, Nat.or_comm, ← hor, Nat.shiftLeft_eq]
  omega

namespace Validator

variable {v v' : Validator} {bytes bytes' : List UInt8}

theorem decode_append : v.decode (bytes ++ bytes') =
    if (v.decode bytes).2 then (v.decode bytes).1.decode bytes' else v.decode bytes := by
  induction bytes generalizing v with
  | nil => simp [decode]
  | cons b rest ih =>
    rw [List.cons_append, decode, decode]
    split_ifs with h h' h'
    · simp at h'
    · rfl
    · rw [ih, if_pos h']
    · rw [ih, if_neg h']

/-- A byte that is accepted does not stop the loop. -/
theorem decode_cons {b : UInt8} (h : (v.decodeByte b).state ≠ utf8Reject) :
    v.decode (b :: bytes) = (v.decodeByte b).decode bytes := by
  rw [decode, if_neg h]

/-- The bytes pass: none is rejected, and they end between two characters. -/
def Passes (v : Validator) (bytes : List UInt8) : Prop :=
  (v.decode bytes).2 = true ∧ (v.decode bytes).1.state = utf8Accept

theorem Passes.decodeByte {b : UInt8} (h : v.Passes (b :: bytes)) :
    next v.state b ≠ utf8Reject ∧ (v.decodeByte b).Passes bytes := by
  have hb : (v.decodeByte b).state ≠ utf8Reject := by
    intro hb
    have hok := h.1
    rw [decode, if_pos hb] at hok
    exact Bool.noConfusion hok
  rw [Passes, decode_cons hb] at h
  exact ⟨hb, h⟩

/-- Further bytes of a character: a state that waits gets a byte it waits for. -/
theorem Passes.owed {q n : ℕ} (hq : 2 ≤ q) (hq' : q ≤ 8) (h : Passes ⟨q, n⟩ bytes) :
    ∃ t rest n', bytes = t :: rest ∧ (owed q).1 ≤ t.toNat ∧ t.toNat ≤ (owed q).2.1 ∧
      Passes ⟨(Websocket.owed q).2.2, n'⟩ rest := by
  cases bytes with
  | nil =>
    have hend : q = 0 := h.2
    omega
  | cons t rest =>
    obtain ⟨ht, hrest⟩ := h.decodeByte
    rw [next_owed hq hq'] at ht
    split_ifs at ht with hrange
    · rw [Validator.decodeByte, next_owed hq hq', if_pos hrange] at hrest
      exact ⟨t, rest, _, rfl, hrange.1, hrange.2, hrest⟩
    · exact absurd rfl ht

/-! ### One character -/

theorem decode_start (p : ℕ) {b : UInt8} (h : firstState b.toNat ≠ utf8Reject) :
    decode ⟨0, p⟩ (b :: bytes) = decode ⟨firstState b.toNat, firstNumber b.toNat⟩ bytes := by
  have hbyte : Validator.decodeByte ⟨0, p⟩ b = ⟨firstState b.toNat, firstNumber b.toNat⟩ := by
    rw [Validator.decodeByte, next_start, first_codepoint b h,
      if_neg (by simp [utf8Accept])]
  rw [decode_cons (by rwa [hbyte]), hbyte]

theorem decode_owed {q n : ℕ} {t : UInt8} (hq : 2 ≤ q) (hq' : q ≤ 8) (ht : IsTail t)
    (hlo : (Websocket.owed q).1 ≤ t.toNat) (hhi : t.toNat ≤ (Websocket.owed q).2.1)
    (hn : n < 2 ^ 26) : decode ⟨q, n⟩ (t :: bytes) =
      decode ⟨(Websocket.owed q).2.2, n * 64 + (t.toNat - 0x80)⟩ bytes := by
  have hbyte : Validator.decodeByte ⟨q, n⟩ t =
      ⟨(Websocket.owed q).2.2, n * 64 + (t.toNat - 0x80)⟩ := by
    have hq0 : q ≠ utf8Accept := Nat.ne_of_gt (Nat.lt_of_lt_of_le (by decide) hq)
    rw [Validator.decodeByte, next_owed hq hq', if_pos ⟨hlo, hhi⟩, if_pos hq0,
      tail_codepoint ht.1 ht.2 hn]
  have hnext : (Websocket.owed q).2.2 ≠ utf8Reject := by
    have := (owed_spec hq hq').2.1
    rw [utf8Reject]
    omega
  rw [decode_cons (by rwa [hbyte]), hbyte]

theorem decode_tail {q q' n : ℕ} {t : UInt8} (hq : q = 2 ∧ q' = 0 ∨ q = 3 ∧ q' = 2) (ht : IsTail t)
    (hn : n < 2 ^ 26) :
    decode ⟨q, n⟩ (t :: bytes) = decode ⟨q', n * 64 + (t.toNat - 0x80)⟩ bytes := by
  rcases hq with ⟨rfl, rfl⟩ | ⟨rfl, rfl⟩
  · exact decode_owed (by decide) (by decide) ht ht.1 ht.2 hn
  · exact decode_owed (by decide) (by decide) ht ht.1 ht.2 hn

/-- The bytes of a character take the automaton from a character to the next. -/
theorem decode_sequence {seq : List UInt8} {n : ℕ} (h : Sequence seq n) (p : ℕ) :
    decode ⟨0, p⟩ seq = (⟨0, n⟩, true) := by
  cases h with
  | one hb =>
    obtain ⟨hq, hn⟩ := first_one hb
    rw [decode_start p (by rw [hq]; decide), hq, hn, decode]
  | two hb hb' ht =>
    obtain ⟨hq, hn⟩ := first_two hb hb'
    rw [decode_start p (by rw [hq]; decide), hq, hn, decode_tail (.inl ⟨rfl, rfl⟩) ht (by omega),
      decode]
  | @three b t u hb hb' ht h0 hD hu =>
    obtain ⟨hq, hq', hnext, hn, hrange⟩ := first_three hb hb'
    obtain ⟨hlo, hhi⟩ := (hrange t.toNat).2 ⟨ht, h0, hD⟩
    have ht' : t.toNat ≤ 0xBF := ht.2
    rw [decode_start p (Nat.ne_of_gt hq), hn, decode_owed hq hq' ht hlo hhi (by omega), hnext,
      decode_tail (.inl ⟨rfl, rfl⟩) hu (by omega), decode]
  | @four b t u w hb hb' ht h0 h4 hu hw =>
    obtain ⟨hq, hq', hnext, hn, hrange⟩ := first_four hb hb'
    obtain ⟨hlo, hhi⟩ := (hrange t.toNat).2 ⟨ht, h0, h4⟩
    have ht' : t.toNat ≤ 0xBF := ht.2
    have hu' : u.toNat ≤ 0xBF := hu.2
    rw [decode_start p (Nat.ne_of_gt hq), hn, decode_owed hq hq' ht hlo hhi (by omega), hnext,
      decode_tail (.inr ⟨rfl, rfl⟩) hu (by omega), decode_tail (.inl ⟨rfl, rfl⟩) hw (by omega),
      decode]

/-- What passes from between two characters has first a character. -/
theorem Passes.sequence {p : ℕ} {b : UInt8} (h : Passes ⟨0, p⟩ (b :: bytes)) :
    ∃ seq n rest p', Sequence seq n ∧ b :: bytes = seq ++ rest ∧ Passes ⟨0, p'⟩ rest := by
  obtain ⟨hb, hrest⟩ := h.decodeByte
  rw [next_start] at hb
  rw [Validator.decodeByte, next_start] at hrest
  rcases first_cases (UInt8.toNat_lt b) hb with h1 | ⟨h2, h2'⟩ | ⟨h3, h3'⟩ | ⟨h4, h4'⟩
  · rw [(first_one h1).1] at hrest
    exact ⟨[b], _, bytes, _, .one h1, rfl, hrest⟩
  · rw [(first_two h2 h2').1] at hrest
    obtain ⟨t, rest, n', rfl, ht, ht', hrest⟩ := hrest.owed (by decide) (by decide)
    exact ⟨[b, t], _, rest, _, .two h2 h2' ⟨ht, ht'⟩, rfl, hrest⟩
  · obtain ⟨hq, hq', hnext, -, hrange⟩ := first_three h3 h3'
    obtain ⟨t, rest, n', rfl, hlo, hhi, hrest⟩ := hrest.owed hq hq'
    obtain ⟨ht, h0, hD⟩ := (hrange t.toNat).1 ⟨hlo, hhi⟩
    rw [hnext] at hrest
    obtain ⟨u, rest, n', rfl, hu, hu', hrest⟩ := hrest.owed (by decide) (by decide)
    exact ⟨[b, t, u], _, rest, _, .three h3 h3' ht h0 hD ⟨hu, hu'⟩, rfl, hrest⟩
  · obtain ⟨hq, hq', hnext, -, hrange⟩ := first_four h4 h4'
    obtain ⟨t, rest, n', rfl, hlo, hhi, hrest⟩ := hrest.owed hq hq'
    obtain ⟨ht, h0, hD⟩ := (hrange t.toNat).1 ⟨hlo, hhi⟩
    rw [hnext] at hrest
    obtain ⟨u, rest, n', rfl, hu, hu', hrest⟩ := hrest.owed (by decide) (by decide)
    obtain ⟨w, rest, n', rfl, hw, hw', hrest⟩ := hrest.owed (by decide) (by decide)
    exact ⟨[b, t, u, w], _, rest, _, .four h4 h4' ht h0 hD ⟨hu, hu'⟩ ⟨hw, hw'⟩, rfl, hrest⟩

/-! ### Texts -/

/-- A text passes; the number left over is that of its last character. -/
theorem decode_utf8 (text : List Char) (p : ℕ) : decode ⟨0, p⟩ (utf8 text) =
    (⟨0, (text.getLast?.map fun c => c.val.toNat).getD p⟩, true) := by
  induction text generalizing p with
  | nil => rfl
  | cons c text ih =>
    rw [utf8_cons, decode_append, decode_sequence (sequence_utf8EncodeChar c), if_pos rfl, ih,
      List.getLast?_cons]
    cases text.getLast? <;> rfl

/-- What passes from between two characters is a text. -/
theorem Passes.text {p : ℕ} (h : Passes ⟨0, p⟩ bytes) : ∃ text, utf8 text = bytes := by
  induction hlen : bytes.length using Nat.strongRecOn generalizing bytes p with
  | ind len ih =>
    cases bytes with
    | nil => exact ⟨[], rfl⟩
    | cons b bytes =>
      obtain ⟨seq, n, rest, p', hseq, heq, hrest⟩ := h.sequence
      obtain ⟨c, hc, -⟩ := hseq.exists_char
      have hpos : 0 < seq.length := by cases hseq <;> simp
      have hlt : rest.length < len := by
        rw [← hlen, heq, List.length_append]
        omega
      obtain ⟨text, rfl⟩ := ih _ hlt hrest rfl
      exact ⟨c :: text, by rw [utf8_cons, hc, heq]⟩

/-- The states of a run without rejection. -/
theorem state_of_decode {q : ℕ} (hq : q = 0 ∨ 2 ≤ q ∧ q ≤ 8) {n : ℕ}
    (h : (decode ⟨q, n⟩ bytes).2 = true) : (decode ⟨q, n⟩ bytes).1.state = 0 ∨
      2 ≤ (decode ⟨q, n⟩ bytes).1.state ∧ (decode ⟨q, n⟩ bytes).1.state ≤ 8 := by
  induction bytes generalizing q n with
  | nil => exact hq
  | cons b rest ih =>
    rw [decode] at h ⊢
    split_ifs at h ⊢ with hb
    refine ih ?_ h
    change next q b ≠ utf8Reject at hb
    change next q b = 0 ∨ 2 ≤ next q b ∧ next q b ≤ 8
    rcases hq with rfl | ⟨hq, hq'⟩
    · rw [next_start] at hb ⊢
      exact firstState_range (UInt8.toNat_lt b) hb
    · rw [next_owed hq hq'] at hb ⊢
      split_ifs at hb ⊢
      · exact (owed_spec hq hq').2.1
      · exact absurd rfl hb

theorem Passes.cons {q n : ℕ} {b : UInt8} (hb : next q b ≠ utf8Reject)
    (h : ∀ n', Passes ⟨next q b, n'⟩ bytes) : Passes ⟨q, n⟩ (b :: bytes) := by
  rw [Passes, decode_cons (v := ⟨q, n⟩) hb]
  exact h _

/-- The character that a state is in can be completed. -/
theorem exists_completion {q : ℕ} (hq : q = 0 ∨ 2 ≤ q ∧ q ≤ 8) :
    ∃ rest, ∀ n, Passes ⟨q, n⟩ rest := by
  induction q using Nat.strongRecOn with
  | ind q ih =>
    rcases hq with rfl | ⟨hq, hq'⟩
    · exact ⟨[], fun n => ⟨rfl, rfl⟩⟩
    · obtain ⟨hlt, hnext, hlo, hbyte⟩ := owed_spec hq hq'
      obtain ⟨rest, hrest⟩ := ih _ hlt hnext
      have hstep : next q (.ofNat (Websocket.owed q).1) = (Websocket.owed q).2.2 := by
        rw [next_owed hq hq', toNat_ofNat hbyte, if_pos ⟨Nat.le_refl _, hlo⟩]
      refine ⟨.ofNat (Websocket.owed q).1 :: rest, fun n => .cons ?_ ?_⟩
      · rw [hstep, utf8Reject]
        omega
      · rwa [hstep]

/-- A beginning of what passes is not rejected. -/
theorem Passes.left (h : v.Passes (bytes ++ bytes')) : (v.decode bytes).2 = true := by
  have hok := h.1
  rw [decode_append] at hok
  by_contra hleft
  rw [if_neg hleft] at hok
  exact hleft hok

/-- What was not rejected can be completed. -/
theorem exists_passes {n : ℕ} (h : (decode ⟨0, n⟩ bytes).2 = true) :
    ∃ rest, Passes ⟨0, n⟩ (bytes ++ rest) := by
  obtain ⟨rest, hrest⟩ := exists_completion (state_of_decode (.inl rfl) h)
  refine ⟨rest, ?_⟩
  rw [Passes, decode_append, if_pos h]
  exact hrest _

end Validator

theorem passes_iff (bytes : List UInt8) : Validator.Passes {} bytes ↔ IsText bytes := by
  refine ⟨Validator.Passes.text, ?_⟩
  rintro ⟨text, rfl⟩
  have hrun := Validator.decode_utf8 text 0
  exact ⟨congrArg Prod.snd hrun, congrArg (Validator.state ∘ Prod.fst) hrun⟩

/-- A whole text is accepted. -/
theorem validate_iff (bytes : List UInt8) : validate bytes = true ↔ IsText bytes := by
  rw [← passes_iff, validate, Validator.Passes]
  cases hok : (Validator.decode {} bytes).2 <;> simp [hok, Validator.complete]

/-- The beginning of a text is not rejected. -/
theorem decode_iff (bytes : List UInt8) :
    (Validator.decode {} bytes).2 = true ↔ TextPrefix bytes := by
  constructor
  · intro h
    obtain ⟨rest, hrest⟩ := Validator.exists_passes h
    exact ⟨rest, (passes_iff _).1 hrest⟩
  · rintro ⟨rest, htext⟩
    exact ((passes_iff _).2 htext).left

/-- **The validator**: it accepts exactly the bytes of texts, and while bytes arrive it rejects as
soon as no text has them at its beginning. -/
theorem texts_validated (bytes : List UInt8) :
    (validate bytes = true ↔ ∃ text, utf8 text = bytes) ∧
      ((Validator.decode {} bytes).2 = true ↔ ∃ rest text, utf8 text = bytes ++ rest) :=
  ⟨validate_iff bytes, decode_iff bytes⟩

end Websocket

end MoonJamRelay
