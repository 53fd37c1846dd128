import Mathlib.Data.List.Nodup
import Mathlib.Data.List.Pairwise

/-!
# Room keys and the key table

A client puts a key of `hashLength` bytes in front of every message.  The key table pairs the moon
key and the player key of each user; the moon key of a pair is also the name of its room.

* `Hash` : `std::array<char, HASH_LENGTH>`.
* `AccessKeys`, `KeyManager` : a key pair with its player limit, and the table of all pairs.
* `KeyManager.getRoom`, `getPlayerLimit`, `hasKey` : the three first-match scans of the table.
* `KeyManager.Distinct` : all moon and player keys of the table differ; then the scans find the
  pair a key belongs to (`find_moonKey`, `find_playerKey`).
-/

namespace MoonJamRelay

/-- `HASH_LENGTH`. -/
def hashLength : ℕ := 4

/-- `DEFAULT_PLAYER_LIMIT`. -/
def defaultPlayerLimit : ℕ := 80

/-- `INT_MAX`, the largest value of an `int`. -/
def intMax : ℕ := 2147483647

/-- A key: `std::array<char, HASH_LENGTH>`. -/
structure Hash where
  /-- The characters. -/
  bytes : List UInt8
  length_bytes : bytes.length = hashLength
  deriving DecidableEq

namespace Hash

/-- The array of zeros, which stands for "no room". -/
def empty : Hash := ⟨List.replicate hashLength 0, List.length_replicate⟩

/-- `memcpy(hash.data(), message.data(), HASH_LENGTH)` into an array of zeros. -/
def ofBytes (message : List UInt8) : Hash where
  bytes := (message ++ List.replicate hashLength 0).take hashLength
  length_bytes := by simp

theorem bytes_ofBytes {message : List UInt8} (h : hashLength ≤ message.length) :
    (ofBytes message).bytes = message.take hashLength := by
  simp [ofBytes, List.take_append_of_le_length h]

theorem ofBytes_bytes (hash : Hash) : ofBytes hash.bytes = hash := by
  obtain ⟨bytes, h⟩ := hash
  simp [ofBytes, ← h]

theorem ofBytes_append (hash : Hash) (rest : List UInt8) :
    ofBytes (hash.bytes ++ rest) = hash := by
  obtain ⟨bytes, h⟩ := hash
  simp [ofBytes, ← h]

end Hash

/-- A pair of keys with the limit that applies to its player clients.  The limit is an `int` read
from decimal digits or the default, so it is not negative. -/
structure AccessKeys where
  moonKey : Hash
  playerKey : Hash
  playerLimit : ℕ
  playerLimit_le : playerLimit ≤ intMax
  deriving DecidableEq

/-- The key table `m_keys`. -/
structure KeyManager where
  keys : List AccessKeys
  deriving DecidableEq

namespace KeyManager

variable (K : KeyManager)

/-- The pair at which a scan for `key` stops. -/
def find (key : Hash) : Option AccessKeys :=
  K.keys.find? fun keys => keys.moonKey == key || keys.playerKey == key

/-- The room a key belongs to: the moon key of its pair, zeros when there is none. -/
def getRoom (key : Hash) : Hash := ((K.find key).map AccessKeys.moonKey).getD Hash.empty

/-- The player limit of the pair of a key, `0` when there is none. -/
def getPlayerLimit (key : Hash) : ℕ := ((K.find key).map AccessKeys.playerLimit).getD 0

/-- The key belongs to some pair. -/
def hasKey (key : Hash) : Bool := (K.find key).isSome

/-- All moon keys and player keys of the table are different. -/
def Distinct : Prop := (K.keys.flatMap fun e => [e.moonKey, e.playerKey]).Nodup

instance : Decidable K.Distinct := inferInstanceAs (Decidable (List.Nodup _))

variable {K}

theorem find_spec {key : Hash} {e : AccessKeys} (h : K.find key = some e) :
    e ∈ K.keys ∧ (e.moonKey = key ∨ e.playerKey = key) := by
  refine ⟨List.mem_of_find?_eq_some h, ?_⟩
  simpa using List.find?_some h

/-- A key with a room is one of the keys of a pair in the table. -/
theorem getRoom_spec {key : Hash} (h : K.getRoom key ≠ Hash.empty) :
    ∃ e ∈ K.keys, e.moonKey = K.getRoom key ∧ (e.moonKey = key ∨ e.playerKey = key) := by
  rw [getRoom] at h ⊢
  cases hfind : K.find key with
  | none =>
    rw [hfind] at h
    exact absurd rfl h
  | some e => exact ⟨e, (find_spec hfind).1, rfl, (find_spec hfind).2⟩

/-- In a table of distinct keys a key has one pair. -/
theorem Distinct.eq_of_key {key : Hash} {e e' : AccessKeys} (hd : K.Distinct) (he : e ∈ K.keys)
    (he' : e' ∈ K.keys) (h : e.moonKey = key ∨ e.playerKey = key)
    (h' : e'.moonKey = key ∨ e'.playerKey = key) : e = e' := by
  have hmem : ∀ e : AccessKeys, e.moonKey = key ∨ e.playerKey = key →
      key ∈ [e.moonKey, e.playerKey] := by
    intro e h
    rcases h with rfl | rfl <;> simp
  have hsymm : Std.Symm
      (Function.onFun List.Disjoint fun e : AccessKeys => [e.moonKey, e.playerKey]) :=
    ⟨fun _ _ h _ hy hx => h hx hy⟩
  by_contra hne
  exact (List.nodup_flatMap.1 hd).2.forall he he' hne (hmem e h) (hmem e' h')

/-- In a table of distinct keys a scan for one of the keys of a pair stops at the pair. -/
theorem Distinct.find_eq {key : Hash} {e : AccessKeys} (hd : K.Distinct) (he : e ∈ K.keys)
    (h : e.moonKey = key ∨ e.playerKey = key) : K.find key = some e := by
  have hsome : (K.find key).isSome := List.find?_isSome.2 ⟨e, he, by simpa using h⟩
  obtain ⟨e', he'⟩ := Option.isSome_iff_exists.1 hsome
  obtain ⟨hm, hk⟩ := find_spec he'
  rw [he', hd.eq_of_key hm he hk h]

theorem Distinct.getPlayerLimit_moonKey {e : AccessKeys} (hd : K.Distinct) (he : e ∈ K.keys) :
    K.getPlayerLimit e.moonKey = e.playerLimit := by
  simp [getPlayerLimit, hd.find_eq he (.inl rfl)]

end KeyManager

end MoonJamRelay
