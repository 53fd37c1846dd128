import Mathlib.Data.Nat.Notation
import Mathlib.Tactic.Convert
import Mathlib.Tactic.SplitIfs

/-!
# UTF-8

The bytes of a text are those of its characters (`String.utf8EncodeChar`).

* `Sequence` : the sequences of bytes that stand for one character, with the character's number.
* `sequence_utf8EncodeChar`, `Sequence.exists_char` : they are the bytes of the characters.
-/

namespace MoonJamRelay

/-- The bytes of a text. -/
def utf8 (text : List Char) : List UInt8 := text.flatMap String.utf8EncodeChar

@[simp] theorem utf8_nil : utf8 [] = [] := rfl

theorem utf8_cons (c : Char) (text : List Char) :
    utf8 (c :: text) = String.utf8EncodeChar c ++ utf8 text := rfl

/-- The bytes are a text. -/
def IsText (bytes : List UInt8) : Prop := ∃ text, utf8 text = bytes

/-- The bytes are the beginning of a text. -/
def TextPrefix (bytes : List UInt8) : Prop := ∃ rest, IsText (bytes ++ rest)

theorem IsText.textPrefix {bytes : List UInt8} (h : IsText bytes) : TextPrefix bytes :=
  ⟨[], by rwa [List.append_nil]⟩

theorem TextPrefix.left {bytes bytes' : List UInt8} (h : TextPrefix (bytes ++ bytes')) :
    TextPrefix bytes := by
  obtain ⟨rest, hrest⟩ := h
  exact ⟨bytes' ++ rest, by rwa [← List.append_assoc]⟩

/-- A byte that is not the first one of a character. -/
def IsTail (b : UInt8) : Prop := 0x80 ≤ b.toNat ∧ b.toNat ≤ 0xBF

/-- The sequences of bytes that stand for one character, and its number. -/
inductive Sequence : List UInt8 → ℕ → Prop where
  | one {b : UInt8} : b.toNat ≤ 0x7F → Sequence [b] b.toNat
  | two {b t : UInt8} : 0xC2 ≤ b.toNat → b.toNat ≤ 0xDF → IsTail t →
      Sequence [b, t] ((b.toNat - 0xC0) * 64 + (t.toNat - 0x80))
  | three {b t u : UInt8} : 0xE0 ≤ b.toNat → b.toNat ≤ 0xEF → IsTail t →
      (b.toNat = 0xE0 → 0xA0 ≤ t.toNat) → (b.toNat = 0xED → t.toNat ≤ 0x9F) → IsTail u →
      Sequence [b, t, u] (((b.toNat - 0xE0) * 64 + (t.toNat - 0x80)) * 64 + (u.toNat - 0x80))
  | four {b t u w : UInt8} : 0xF0 ≤ b.toNat → b.toNat ≤ 0xF4 → IsTail t →
      (b.toNat = 0xF0 → 0x90 ≤ t.toNat) → (b.toNat = 0xF4 → t.toNat ≤ 0x8F) → IsTail u →
      IsTail w → Sequence [b, t, u, w]
        ((((b.toNat - 0xF0) * 64 + (t.toNat - 0x80)) * 64 + (u.toNat - 0x80)) * 64 +
          (w.toNat - 0x80))

theorem toNat_ofNat {n : ℕ} (h : n < 256) : (UInt8.ofNat n).toNat = n := by
  simp [Nat.mod_eq_of_lt h]

/-- The bytes of a character are a sequence for its number. -/
theorem sequence_utf8EncodeChar (c : Char) : Sequence (String.utf8EncodeChar c) c.val.toNat := by
  have hvalid : c.val.toNat < 0xD800 ∨ 0xDFFF < c.val.toNat ∧ c.val.toNat < 0x110000 := c.valid
  generalize hv : c.val.toNat = v at hvalid
  simp only [String.utf8EncodeChar, hv]
  split_ifs with h1 h2 h3
  · have hb := toNat_ofNat (n := v) (by omega)
    have hs := Sequence.one (b := .ofNat v)
    rw [hb] at hs
    exact hs h1
  · have hb := toNat_ofNat (n := v / 64 % 32 + 0xC0) (by omega)
    have ht := toNat_ofNat (n := v % 64 + 0x80) (by omega)
    have hs := Sequence.two (b := .ofNat (v / 64 % 32 + 0xC0)) (t := .ofNat (v % 64 + 0x80))
    rw [IsTail, hb, ht] at hs
    convert hs _ _ _ using 1 <;> omega
  · have hb := toNat_ofNat (n := v / 4096 % 16 + 0xE0) (by omega)
    have ht := toNat_ofNat (n := v / 64 % 64 + 0x80) (by omega)
    have hu := toNat_ofNat (n := v % 64 + 0x80) (by omega)
    have hs := Sequence.three (b := .ofNat (v / 4096 % 16 + 0xE0))
      (t := .ofNat (v / 64 % 64 + 0x80)) (u := .ofNat (v % 64 + 0x80))
    rw [IsTail, IsTail, hb, ht, hu] at hs
    convert hs _ _ _ _ _ _ using 1 <;> omega
  · have hb := toNat_ofNat (n := v / 262144 % 8 + 0xF0) (by omega)
    have ht := toNat_ofNat (n := v / 4096 % 64 + 0x80) (by omega)
    have hu := toNat_ofNat (n := v / 64 % 64 + 0x80) (by omega)
    have hw := toNat_ofNat (n := v % 64 + 0x80) (by omega)
    have hs := Sequence.four (b := .ofNat (v / 262144 % 8 + 0xF0))
      (t := .ofNat (v / 4096 % 64 + 0x80)) (u := .ofNat (v / 64 % 64 + 0x80))
      (w := .ofNat (v % 64 + 0x80))
    rw [IsTail, IsTail, IsTail, hb, ht, hu, hw] at hs
    convert hs _ _ _ _ _ _ _ using 1 <;> omega

theorem Sequence.valid {bytes : List UInt8} {v : ℕ} (h : Sequence bytes v) : v.isValidChar := by
  unfold Nat.isValidChar
  cases h with
  | one h => omega
  | two hb hb' ht =>
    obtain ⟨ht, ht'⟩ := ht
    omega
  | three hb hb' ht h0 hD hu =>
    obtain ⟨⟨ht, ht'⟩, hu, hu'⟩ := And.intro ht hu
    omega
  | four hb hb' ht h0 h4 hu hw =>
    obtain ⟨⟨ht, ht'⟩, ⟨hu, hu'⟩, hw, hw'⟩ := And.intro ht (And.intro hu hw)
    omega

theorem ofNat_eq {n : ℕ} {b : UInt8} (h : n = b.toNat) : UInt8.ofNat n = b := by
  rw [h, UInt8.ofNat_toNat]

theorem Sequence.exists_char {bytes : List UInt8} {v : ℕ} (h : Sequence bytes v) :
    ∃ c : Char, String.utf8EncodeChar c = bytes ∧ c.val.toNat = v := by
  obtain ⟨c, hc⟩ : ∃ c : Char, c.val.toNat = v := ⟨.ofNatAux v h.valid, rfl⟩
  refine ⟨c, ?_, hc⟩
  simp only [String.utf8EncodeChar, hc]
  cases h with
  | one hb =>
    rw [if_pos (by omega), ofNat_eq rfl]
  | two hb hb' ht =>
    obtain ⟨ht, ht'⟩ := ht
    rw [if_neg (by omega), if_pos (by omega)]
    simp only [List.cons.injEq, and_true]
    exact ⟨ofNat_eq (by omega), ofNat_eq (by omega)⟩
  | three hb hb' ht h0 hD hu =>
    obtain ⟨⟨ht, ht'⟩, hu, hu'⟩ := And.intro ht hu
    rw [if_neg (by omega), if_neg (by omega), if_pos (by omega)]
    simp only [List.cons.injEq, and_true]
    exact ⟨ofNat_eq (by omega), ofNat_eq (by omega), ofNat_eq (by omega)⟩
  | four hb hb' ht h0 h4 hu hw =>
    obtain ⟨⟨ht, ht'⟩, ⟨hu, hu'⟩, hw, hw'⟩ := And.intro ht (And.intro hu hw)
    rw [if_neg (by omega), if_neg (by omega), if_neg (by omega)]
    simp only [List.cons.injEq, and_true]
    exact ⟨ofNat_eq (by omega), ofNat_eq (by omega), ofNat_eq (by omega), ofNat_eq (by omega)⟩

end MoonJamRelay
