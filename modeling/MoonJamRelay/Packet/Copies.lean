import Mathlib.Algebra.GroupWithZero.Nat
import MoonJamRelay.Packet.Basic

/-!
# The copies of a job

The second loop of a job calls `memcpy` once for every foreign packet.

* `copies` : these calls, and the index the loop ends at; `copyBytes_eq_foldlM` : the loop makes
  exactly these calls.
* `countBytes_eq_copies` : the first loop computes the index the second one ends at.
* `inside_of_mem_copies`, `countP_covers` : the copies stay inside both arrays, and write every
  byte of the buffer once.
-/

namespace MoonJamRelay

/-- A call of `memcpy` in the second loop: the bytes of the packet go to the buffer from the index
on. -/
structure Copy where
  index : ℕ
  packet : Packet

namespace Copy

variable (c : Copy)

/-- The number of bytes. -/
def size : ℕ := c.packet.length.toNat

/-- The index after the copy. -/
def stop : ℕ := c.index + c.size

/-- The call. -/
def perform (bytes : List UInt8) : Option (List UInt8) :=
  memcpy bytes c.index c.packet.bytes c.size

/-- The copy writes the byte `i` of the buffer. -/
def covers (i : ℕ) : Bool := decide (c.index ≤ i ∧ i < c.stop)

theorem size_le : c.size ≤ c.packet.bytes.length :=
  c.packet.length_bytes ▸ c.packet.length_le

end Copy

/-- The calls of `memcpy` in the second loop, from `currentIndex` on, and the last
`currentIndex`. -/
def copies (identifier : UInt16) (currentIndex : ℕ) : List Packet → List Copy × ℕ
  | [] => ([], currentIndex)
  | packet :: packets =>
    if packet.identifier = identifier then copies identifier currentIndex packets
    else
      let rest := copies identifier (currentIndex + packet.length.toNat) packets
      (⟨currentIndex, packet⟩ :: rest.1, rest.2)

variable {identifier : UInt16} {i j : ℕ} {p : Packet} {ps : List Packet}

theorem copies_cons_self (h : p.identifier = identifier) :
    copies identifier i (p :: ps) = copies identifier i ps := by
  rw [copies, if_pos h]

theorem copies_cons_ne (h : p.identifier ≠ identifier) :
    copies identifier i (p :: ps) =
      (⟨i, p⟩ :: (copies identifier (i + p.length.toNat) ps).1,
        (copies identifier (i + p.length.toNat) ps).2) := by
  rw [copies, if_neg h]

/-- The second loop makes the calls of `copies`. -/
theorem copyBytes_eq_foldlM (bytes : List UInt8) :
    copyBytes identifier bytes i ps =
      (copies identifier i ps).1.foldlM (fun bytes c => c.perform bytes) bytes := by
  induction ps generalizing i bytes with
  | nil => rfl
  | cons p ps ih =>
    by_cases h : p.identifier = identifier
    · rw [copyBytes, if_pos h, copies_cons_self h]
      exact ih bytes
    · rw [copyBytes, if_neg h, copies_cons_ne h, List.foldlM_cons]
      exact congrArg _ (funext fun bytes => ih bytes)

theorem copies_snd : (copies identifier i ps).2 =
    i + (payloads (foreign identifier ps)).length := by
  induction ps generalizing i with
  | nil => rfl
  | cons p ps ih =>
    by_cases h : p.identifier = identifier
    · rw [copies_cons_self h, foreign_cons_self h, ih]
    · rw [copies_cons_ne h, foreign_cons_ne h, payloads_cons, List.length_append, p.length_payload,
        ih, Nat.add_assoc]

theorem length_payloads (ps : List Packet) :
    (payloads ps).length = (ps.map fun p => p.length.toNat).sum := by
  rw [payloads, List.length_flatMap]
  simp only [ReceivedPacket.length_payload]

theorem countBytes_eq_copies
    (h : ((foreign identifier ps).map fun p => p.length.toNat).sum ≤ intMax) :
    countBytes identifier 0 ps = some (copies identifier 0 ps).2 := by
  rw [← length_payloads] at h
  rw [countBytes_eq _ _ _ (Nat.zero_le _), copies_snd, Nat.zero_add, if_pos h]

/-- A copy lies between the first and the last index, and inside the bytes of its packet. -/
theorem inside_of_mem_copies {c : Copy} (hc : c ∈ (copies identifier i ps).1) :
    i ≤ c.index ∧ c.stop ≤ (copies identifier i ps).2 ∧ c.size ≤ c.packet.bytes.length := by
  induction ps generalizing i with
  | nil => cases hc
  | cons p ps ih =>
    by_cases h : p.identifier = identifier
    · rw [copies_cons_self h] at hc ⊢
      exact ih hc
    · rw [copies_cons_ne h] at hc ⊢
      rcases List.mem_cons.1 hc with rfl | hc
      · refine ⟨Nat.le_refl _, ?_, Copy.size_le _⟩
        rw [copies_snd]
        exact Nat.le_add_right _ _
      · obtain ⟨hi, hstop, hsize⟩ := ih hc
        exact ⟨Nat.le_trans (Nat.le_add_right _ _) hi, hstop, hsize⟩

/-- Every byte from the first index to the last is written once, and no other. -/
theorem countP_covers : (copies identifier i ps).1.countP (fun c => c.covers j) =
    if i ≤ j ∧ j < (copies identifier i ps).2 then 1 else 0 := by
  induction ps generalizing i with
  | nil =>
    rw [if_neg]
    · rfl
    · rintro ⟨hle, hlt⟩
      exact Nat.not_lt.2 hle hlt
  | cons p ps ih =>
    by_cases h : p.identifier = identifier
    · rw [copies_cons_self h]
      exact ih
    · have hend : i + p.length.toNat ≤ (copies identifier (i + p.length.toNat) ps).2 := by
        rw [copies_snd]
        exact Nat.le_add_right _ _
      have hcovers : (Copy.covers ⟨i, p⟩ j = true) = (i ≤ j ∧ j < i + p.length.toNat) :=
        decide_eq_true_eq
      rw [copies_cons_ne h, List.countP_cons, ih]
      simp only [hcovers]
      -- the byte belongs to this packet, to a later one, or to none
      by_cases hthis : i ≤ j ∧ j < i + p.length.toNat
      · rw [if_neg (by omega), if_pos hthis, if_pos (by omega)]
      · rw [if_neg hthis, Nat.add_zero]
        refine if_congr ?_ rfl rfl
        omega

end MoonJamRelay
