import MoonJamRelay.Keys.Basic
import MoonJamRelay.Text.Decimal

/-!
# Key files

A key file holds the moon key, a space, the player key, a space and the player limit of a user.
Three parts of the program take such a file apart on their own, after `stripLines` has removed the
line ends:

* `AccessKeys.ofContents` : the scan of `refreshKeys`, which skips a file that is too short.
* `moonHashOf`, `playerHashOf` : the handlers of `/get` and `/limit`; `substr` throws when the file
  is too short for the position.
* `playerLimitOf` : the limit in a text, `DEFAULT_PLAYER_LIMIT` when it is not a number or does not
  fit an `int`.  `fileLimit` and `reportedLimit` apply it to a file.

`keyText` is the text `/create` and `/limit` write; all three read it back (`ofContents_keyText`,
`moonHashOf_keyText`, `playerHashOf_keyText`, `reportedLimit_keyText`).
-/

namespace MoonJamRelay

/-- A letter or digit of ASCII. -/
def Alphanumeric (c : UInt8) : Prop :=
  (48 ≤ c.toNat ∧ c.toNat ≤ 57) ∨ (97 ≤ c.toNat ∧ c.toNat ≤ 122) ∨ (65 ≤ c.toNat ∧ c.toNat ≤ 90)

instance (c : UInt8) : Decidable (Alphanumeric c) := inferInstanceAs (Decidable (_ ∨ _))

theorem alphanumeric_of_all {text : List UInt8}
    (h : text.all (fun c => decide (Alphanumeric c)) = true) : ∀ c ∈ text, Alphanumeric c := by
  simpa [List.all_eq_true] using h

/-- What `randomString(HASH_LENGTH)` can return. -/
structure RandomString extends Hash where
  alphanumeric : ∀ c ∈ bytes, Alphanumeric c
  deriving DecidableEq

theorem RandomString.toHash_inj {r r' : RandomString} : r.toHash = r'.toHash ↔ r = r' := by
  cases r
  cases r'
  simp

/-- `convertHash`. -/
def convertHash (hash : List UInt8) : Hash :=
  if hash.length ≠ hashLength then Hash.empty else Hash.ofBytes hash

theorem convertHash_bytes (hash : Hash) : convertHash hash.bytes = hash := by
  rw [convertHash, if_neg (not_not.2 hash.length_bytes), Hash.ofBytes_bytes]

theorem RandomString.ne_empty (r : RandomString) : r.toHash ≠ Hash.empty := by
  intro h
  have h0 : (0 : UInt8) ∈ r.bytes := by
    rw [show r.bytes = Hash.empty.bytes from congrArg Hash.bytes h]
    exact List.mem_replicate.2 ⟨by decide, rfl⟩
  exact absurd (r.alphanumeric 0 h0) (by decide)

/-! ### Texts -/

/-- `readFile` removes the line ends. -/
def stripLines (contents : List UInt8) : List UInt8 :=
  (contents.filter fun c => c ≠ 13).filter fun c => c ≠ 10

theorem stripLines_eq_self {contents : List UInt8} (h : ∀ c ∈ contents, c ≠ 13 ∧ c ≠ 10) :
    stripLines contents = contents := by
  have h13 : contents.filter (fun c => c ≠ 13) = contents :=
    List.filter_eq_self.2 fun c hc => by simpa using (h c hc).1
  rw [stripLines, h13]
  exact List.filter_eq_self.2 fun c hc => by simpa using (h c hc).2

/-- `std::string::substr`, which throws when the position is after the end. -/
def substr (text : List UInt8) (position count : ℕ) : Option (List UInt8) :=
  if position ≤ text.length then some ((text.drop position).take count) else none

/-- `std::stoi` of a text of digits, which throws when the number does not fit an `int`. -/
def stoi (text : List UInt8) : Option ℕ :=
  if Decimal.value text ≤ intMax then some (Decimal.value text) else none

/-- The player limit in a text. -/
def playerLimitOf (text : List UInt8) : ℕ :=
  if Decimal.Numeral text then (stoi text).getD defaultPlayerLimit else defaultPlayerLimit

theorem playerLimitOf_le (text : List UInt8) : playerLimitOf text ≤ intMax := by
  unfold playerLimitOf stoi
  split_ifs with _ h
  · exact h
  · decide
  · decide

theorem playerLimitOf_print {n : ℕ} (h : n ≤ intMax) : playerLimitOf (Decimal.print n) = n := by
  rw [playerLimitOf, if_pos (Decimal.numeral_print n), stoi, Decimal.value_print, if_pos h]
  rfl

/-! ### Reading a key file -/

/-- The player limit `refreshKeys` finds in a file. -/
def fileLimit (contents : List UInt8) : ℕ :=
  if contents.length > hashLength * 2 + 1 then playerLimitOf (contents.drop (hashLength * 2 + 2))
  else defaultPlayerLimit

theorem fileLimit_le (contents : List UInt8) : fileLimit contents ≤ intMax := by
  unfold fileLimit
  split_ifs
  · exact playerLimitOf_le _
  · decide

/-- The keys `refreshKeys` loads from a file; a file that is too short is skipped. -/
def AccessKeys.ofContents (contents : List UInt8) : Option AccessKeys :=
  if contents.length < hashLength * 2 + 1 then none
  else some {
    moonKey := Hash.ofBytes contents
    playerKey := Hash.ofBytes (contents.drop (hashLength + 1))
    playerLimit := fileLimit contents
    playerLimit_le := fileLimit_le contents }

/-- The moon key the handlers of `/get` and `/limit` find in a file. -/
def moonHashOf (contents : List UInt8) : Option (List UInt8) := substr contents 0 hashLength

/-- The player key the handlers of `/get` and `/limit` find in a file. -/
def playerHashOf (contents : List UInt8) : Option (List UInt8) :=
  substr contents (hashLength + 1) hashLength

/-- The player limit the handler of `/get` finds in a file. -/
def reportedLimit (contents : List UInt8) : ℕ :=
  let playerLimitString :=
    if contents.length > hashLength * 2 + 1 then contents.drop (hashLength * 2 + 2)
    else Decimal.print defaultPlayerLimit
  playerLimitOf playerLimitString

theorem reportedLimit_eq (contents : List UInt8) :
    reportedLimit contents = fileLimit contents := by
  unfold reportedLimit fileLimit
  split_ifs
  · rfl
  · exact playerLimitOf_print (by decide)

theorem moonHashOf_eq (contents : List UInt8) :
    moonHashOf contents = some (contents.take hashLength) := by
  rw [moonHashOf, substr, if_pos (Nat.zero_le _), List.drop_zero]

theorem playerHashOf_eq {contents : List UInt8} :
    playerHashOf contents = if hashLength + 1 ≤ contents.length then
      some ((contents.drop (hashLength + 1)).take hashLength) else none := rfl

/-- A file that `refreshKeys` loads has room for both keys; the handlers find the same ones. -/
theorem ofContents_spec {contents : List UInt8} {e : AccessKeys}
    (h : AccessKeys.ofContents contents = some e) :
    moonHashOf contents = some e.moonKey.bytes ∧ playerHashOf contents = some e.playerKey.bytes ∧
      reportedLimit contents = e.playerLimit := by
  unfold AccessKeys.ofContents at h
  split_ifs at h with hlen
  obtain rfl := Option.some.inj h
  have hlen := Nat.le_of_not_lt hlen
  have hdrop : hashLength ≤ (contents.drop (hashLength + 1)).length := by
    rw [List.length_drop]
    simp only [hashLength] at hlen ⊢
    omega
  refine ⟨?_, ?_, reportedLimit_eq contents⟩
  · rw [moonHashOf_eq, Hash.bytes_ofBytes (Nat.le_trans (by decide) hlen)]
  · rw [playerHashOf_eq, if_pos (Nat.le_trans (by decide) hlen), Hash.bytes_ofBytes hdrop]

/-! ### Writing a key file -/

/-- The text of a key file. -/
def keyText (moonHash playerHash : List UInt8) (playerLimit : ℕ) : List UInt8 :=
  moonHash ++ [32] ++ playerHash ++ [32] ++ Decimal.print playerLimit

section

variable {moon player : List UInt8} {limit : ℕ}

theorem moonHashOf_keyText (hmoon : moon.length = hashLength) :
    moonHashOf (keyText moon player limit) = some moon := by
  rw [moonHashOf_eq, keyText]
  simp only [List.append_assoc]
  rw [List.take_left' hmoon]

theorem drop_keyText (hmoon : moon.length = hashLength) :
    (keyText moon player limit).drop (hashLength + 1) =
      player ++ [32] ++ Decimal.print limit := by
  have hsplit : keyText moon player limit =
      (moon ++ [32]) ++ (player ++ [32] ++ Decimal.print limit) := by
    simp [keyText]
  rw [hsplit, List.drop_left' (by simp [hmoon])]

theorem playerHashOf_keyText (hmoon : moon.length = hashLength)
    (hplayer : player.length = hashLength) :
    playerHashOf (keyText moon player limit) = some player := by
  have hlen : hashLength + 1 ≤ (keyText moon player limit).length := by
    simp only [keyText, List.length_append, List.length_singleton, hmoon]
    omega
  rw [playerHashOf_eq, if_pos hlen, drop_keyText hmoon, List.append_assoc, List.take_left' hplayer]

theorem length_keyText (hmoon : moon.length = hashLength) (hplayer : player.length = hashLength) :
    hashLength * 2 + 1 < (keyText moon player limit).length := by
  simp only [keyText, List.length_append, List.length_singleton, hmoon, hplayer]
  omega

theorem fileLimit_keyText (hmoon : moon.length = hashLength)
    (hplayer : player.length = hashLength) (hlimit : limit ≤ intMax) :
    fileLimit (keyText moon player limit) = limit := by
  have hsplit : keyText moon player limit =
      (moon ++ [32] ++ player ++ [32]) ++ Decimal.print limit := rfl
  have hdrop : (keyText moon player limit).drop (hashLength * 2 + 2) = Decimal.print limit := by
    rw [hsplit, List.drop_left' (by simp [hmoon, hplayer, hashLength])]
  rw [fileLimit, if_pos (length_keyText hmoon hplayer), hdrop, playerLimitOf_print hlimit]

end

/-- `refreshKeys` loads the keys and the limit of a text. -/
theorem ofContents_keyText (moon player : Hash) {limit : ℕ} (hlimit : limit ≤ intMax) :
    AccessKeys.ofContents (keyText moon.bytes player.bytes limit) =
      some ⟨moon, player, limit, hlimit⟩ := by
  have hmoon := moon.length_bytes
  have hplayer := player.length_bytes
  have htext : moon.bytes = (keyText moon.bytes player.bytes limit).take hashLength := by
    simp only [keyText, List.append_assoc]
    rw [List.take_left' hmoon]
  rw [AccessKeys.ofContents, if_neg (Nat.not_lt.2 (Nat.le_of_lt (length_keyText hmoon hplayer)))]
  have hm : Hash.ofBytes (keyText moon.bytes player.bytes limit) = moon := by
    rw [← Hash.ofBytes_bytes moon]
    simp only [Hash.ofBytes, keyText, List.append_assoc, Hash.mk.injEq]
    rw [List.take_left' hmoon, List.take_left' (by simp [hmoon])]
  have hp : Hash.ofBytes ((keyText moon.bytes player.bytes limit).drop (hashLength + 1)) =
      player := by
    rw [drop_keyText hmoon, ← Hash.ofBytes_bytes player]
    simp only [Hash.ofBytes, List.append_assoc, Hash.mk.injEq]
    rw [List.take_left' hplayer, List.take_left' (by simp [hplayer])]
  simp only [hm, hp, fileLimit_keyText hmoon hplayer hlimit]

theorem reportedLimit_keyText {moon player : List UInt8} {limit : ℕ}
    (hmoon : moon.length = hashLength) (hplayer : player.length = hashLength)
    (hlimit : limit ≤ intMax) : reportedLimit (keyText moon player limit) = limit := by
  rw [reportedLimit_eq, fileLimit_keyText hmoon hplayer hlimit]

theorem stripLines_keyText {moon player : List UInt8} (hmoon : ∀ c ∈ moon, c ≠ 13 ∧ c ≠ 10)
    (hplayer : ∀ c ∈ player, c ≠ 13 ∧ c ≠ 10) (limit : ℕ) :
    stripLines (keyText moon player limit) = keyText moon player limit := by
  refine stripLines_eq_self fun c hc => ?_
  simp only [keyText, List.mem_append, List.mem_singleton] at hc
  rcases hc with (((hc | rfl) | hc) | rfl) | hc
  · exact hmoon c hc
  · decide
  · exact hplayer c hc
  · decide
  · have hd := (Decimal.numeral_print limit).2 c hc
    refine ⟨?_, ?_⟩ <;> rintro rfl <;> revert hd <;> decide

end MoonJamRelay
