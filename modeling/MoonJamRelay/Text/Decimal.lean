import Mathlib.Data.List.Induction
import Mathlib.Data.Nat.Notation
import Mathlib.Tactic.SplitIfs

/-!
# Decimal text

A natural number as ASCII text in base ten, and the number a text of digits stands for.

* `Decimal.IsDigit`, `Decimal.Numeral` : the digits `0` to `9`; a nonempty text of digits.
* `Decimal.value` : the number a text of digits stands for; leading zeros are allowed.
* `Decimal.print` : the text of a number, without leading zeros.
* `numeral_print`, `value_print` : the text of a number is a numeral, and stands for it.
-/

namespace MoonJamRelay

namespace Decimal

/-- The characters `0` to `9`. -/
def IsDigit (c : UInt8) : Prop := 48 ≤ c.toNat ∧ c.toNat ≤ 57

instance (c : UInt8) : Decidable (IsDigit c) := inferInstanceAs (Decidable (_ ∧ _))

/-- The digits of a text are all there is in it, and there is at least one. -/
def Numeral (text : List UInt8) : Prop := text ≠ [] ∧ ∀ c ∈ text, IsDigit c

instance (text : List UInt8) : Decidable (Numeral text) := inferInstanceAs (Decidable (_ ∧ _))

/-- The number a text of digits stands for. -/
def value (text : List UInt8) : ℕ := text.foldl (fun n c => 10 * n + (c.toNat - 48)) 0

/-- The character of a digit. -/
def digit (d : ℕ) : UInt8 := UInt8.ofNat (48 + d % 10)

/-- The last `fuel` digits of a number at most, without leading zeros. -/
def printAux : ℕ → ℕ → List UInt8
  | 0, _ => []
  | fuel + 1, n => (if n < 10 then [] else printAux fuel (n / 10)) ++ [digit n]

/-- The text of a number. -/
def print (n : ℕ) : List UInt8 := printAux (n + 1) n

theorem toNat_digit (d : ℕ) : (digit d).toNat = 48 + d % 10 := by
  rw [digit, UInt8.toNat_ofNat']
  omega

theorem isDigit_digit (d : ℕ) : IsDigit (digit d) := by
  rw [IsDigit, toNat_digit]
  omega

theorem value_snoc (text : List UInt8) (c : UInt8) :
    value (text ++ [c]) = 10 * value text + (c.toNat - 48) := by
  simp [value]

theorem isDigit_of_mem_printAux {fuel n : ℕ} {c : UInt8} (h : c ∈ printAux fuel n) :
    IsDigit c := by
  induction fuel generalizing n with
  | zero => cases h
  | succ fuel ih =>
    rw [printAux, List.mem_append, List.mem_singleton] at h
    rcases h with h | rfl
    · split_ifs at h
      · cases h
      · exact ih h
    · exact isDigit_digit n

/-- When the fuel is enough all digits are there. -/
theorem value_printAux {fuel n : ℕ} (h : n < fuel) : value (printAux fuel n) = n := by
  induction fuel generalizing n with
  | zero => cases h
  | succ fuel ih =>
    rw [printAux, value_snoc, toNat_digit]
    split_ifs with hn
    · rw [show value [] = 0 from rfl]
      omega
    · rw [ih (by omega)]
      omega

theorem print_ne_nil (n : ℕ) : print n ≠ [] := by simp [print, printAux]

theorem numeral_print (n : ℕ) : Numeral (print n) :=
  ⟨print_ne_nil n, fun _ h => isDigit_of_mem_printAux h⟩

theorem value_print (n : ℕ) : value (print n) = n := value_printAux (Nat.lt_succ_self n)

example : print 80 = [56, 48] := by decide

end Decimal

end MoonJamRelay
