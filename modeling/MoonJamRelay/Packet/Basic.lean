import MoonJamRelay.Keys.Basic

/-!
# Packets and the bytes of a job

A message accepted from a connection is stored as a `ReceivedPacket`: the identifier of the sender
and a fixed array whose first `length` bytes are the payload.  In every tick a room sends to each
of its connections the payloads of the other senders, put together by the job of the connection:

* `countBytes` : the first loop of the job, which adds up the lengths in an `int`.
* `copyBytes`, `memcpy` : its second loop, which copies the payloads into the resized buffer.
* `assemble` : the whole job.  It has no value where the source has undefined behaviour: an `int`
  that overflows, or a copy outside an array.
* `assemble_eq` : the job never copies out of bounds, and if the lengths fit an `int` its buffer is
  the concatenation of the payloads not tagged with the identifier of the connection.
-/

namespace MoonJamRelay

/-- `MAX_PACKET_SIZE`. -/
def maxPacketSize : ℕ := 16384

/-- A `connection_hdl`: a weak pointer, that is a control block, which is never shared by two
connections, and the address of the connection, which may be used again after it is freed. -/
structure ConnectionHdl where
  block : ℕ
  pointer : ℕ
  deriving DecidableEq

/-- A stored packet. -/
structure ReceivedPacket where
  /-- The identifier of the sender. -/
  identifier : UInt16
  /-- `std::array<uint8_t, MAX_PACKET_SIZE>`. -/
  bytes : List UInt8
  /-- The number of bytes that count. -/
  length : UInt16
  length_bytes : bytes.length = maxPacketSize
  length_le : length.toNat ≤ maxPacketSize

/-- A connection registered in a room. -/
structure ReceivedConnection where
  identifier : UInt16
  handle : ConnectionHdl
  deriving DecidableEq

/-- A stored packet with its history, which no code reads: the connection that sent it, the message
it came in, and the number of packets accepted before it. -/
structure Packet extends ReceivedPacket where
  sender : ConnectionHdl
  message : List UInt8
  number : ℕ

/-- The bytes of the packet that count. -/
def ReceivedPacket.payload (p : ReceivedPacket) : List UInt8 := p.bytes.take p.length.toNat

theorem ReceivedPacket.length_payload (p : ReceivedPacket) :
    p.payload.length = p.length.toNat := by
  rw [payload, List.length_take, p.length_bytes, Nat.min_eq_left p.length_le]

/-! ### Storing a message -/

/-- The packet `onMessage` builds of a message that is not too long: `length` is the size of the
message less the key, converted to `uint16_t`, and so many bytes after the key are copied into an
array of zeros. -/
def receivedPacket (identifier : UInt16) (message : List UInt8)
    (h : message.length ≤ hashLength + maxPacketSize) : ReceivedPacket where
  identifier := identifier
  bytes := message.drop hashLength ++
    List.replicate (maxPacketSize - (message.length - hashLength)) 0
  length := UInt16.ofNat (message.length - hashLength)
  length_bytes := by
    simp only [List.length_append, List.length_drop, List.length_replicate]
    omega
  length_le := by
    rw [UInt16.toNat_ofNat']
    exact Nat.le_trans (Nat.mod_le _ _) (by omega)

/-- The conversion to `uint16_t` keeps the length of a message that is not too long. -/
theorem toNat_length_receivedPacket (identifier : UInt16) (message : List UInt8)
    (h : message.length ≤ hashLength + maxPacketSize) :
    (receivedPacket identifier message h).length.toNat = message.length - hashLength := by
  have hlt : message.length - hashLength < 2 ^ 16 := by
    simp only [hashLength, maxPacketSize] at h ⊢
    omega
  simp only [receivedPacket, UInt16.toNat_ofNat']
  exact Nat.mod_eq_of_lt hlt

theorem payload_receivedPacket (identifier : UInt16) (message : List UInt8)
    (h : message.length ≤ hashLength + maxPacketSize) :
    (receivedPacket identifier message h).payload = message.drop hashLength := by
  unfold ReceivedPacket.payload
  rw [toNat_length_receivedPacket]
  simp only [receivedPacket]
  rw [List.take_left' (by simp)]

/-! ### The job of a connection -/

/-- The first loop: add up the lengths of the packets that have another identifier. -/
def countBytes (identifier : UInt16) (byteCount : ℕ) : List Packet → Option ℕ
  | [] => some byteCount
  | packet :: packets =>
    if packet.identifier = identifier then countBytes identifier byteCount packets
    -- signed overflow is undefined
    else if byteCount + packet.length.toNat ≤ intMax then
      countBytes identifier (byteCount + packet.length.toNat) packets
    else none

/-- `memcpy(target + index, source, n)`, undefined when it leaves one of the arrays. -/
def memcpy (target : List UInt8) (index : ℕ) (source : List UInt8) (n : ℕ) :
    Option (List UInt8) :=
  if index + n ≤ target.length ∧ n ≤ source.length then
    some (target.take index ++ source.take n ++ target.drop (index + n))
  else none

/-- The second loop: copy the payloads of the packets that have another identifier. -/
def copyBytes (identifier : UInt16) (bytes : List UInt8) (currentIndex : ℕ) :
    List Packet → Option (List UInt8)
  | [] => some bytes
  | packet :: packets =>
    if packet.identifier = identifier then copyBytes identifier bytes currentIndex packets
    else (memcpy bytes currentIndex packet.bytes packet.length.toNat).bind fun bytes =>
      copyBytes identifier bytes (currentIndex + packet.length.toNat) packets

/-- The bytes the job of a connection with this identifier sends. -/
def assemble (identifier : UInt16) (packets : List Packet) : Option (List UInt8) :=
  (countBytes identifier 0 packets).bind fun byteCount =>
    copyBytes identifier (List.replicate byteCount 0) 0 packets

/-- The packets of a batch a connection with this identifier is sent. -/
def foreign (identifier : UInt16) (packets : List Packet) : List Packet :=
  packets.filter fun packet => packet.identifier ≠ identifier

/-- The payloads of the packets, one after the other. -/
def payloads (packets : List Packet) : List UInt8 := packets.flatMap fun packet => packet.payload

@[simp] theorem payloads_nil : payloads [] = [] := rfl

theorem payloads_cons (p : Packet) (ps : List Packet) :
    payloads (p :: ps) = p.payload ++ payloads ps := rfl

theorem foreign_cons_self {identifier : UInt16} {p : Packet} {ps : List Packet}
    (h : p.identifier = identifier) : foreign identifier (p :: ps) = foreign identifier ps := by
  simp [foreign, h]

theorem foreign_cons_ne {identifier : UInt16} {p : Packet} {ps : List Packet}
    (h : p.identifier ≠ identifier) :
    foreign identifier (p :: ps) = p :: foreign identifier ps := by
  simp [foreign, h]

/-- The first loop computes the number of foreign bytes, unless that overflows. -/
theorem countBytes_eq (identifier : UInt16) (n : ℕ) (ps : List Packet) (hn : n ≤ intMax) :
    countBytes identifier n ps =
      if n + (payloads (foreign identifier ps)).length ≤ intMax then
        some (n + (payloads (foreign identifier ps)).length)
      else none := by
  induction ps generalizing n with
  | nil => simp [countBytes, foreign, hn]
  | cons p ps ih =>
    by_cases h : p.identifier = identifier
    · rw [foreign_cons_self h, countBytes, if_pos h]
      exact ih n hn
    · rw [foreign_cons_ne h, countBytes, if_neg h, payloads_cons, List.length_append,
        p.length_payload, ← Nat.add_assoc]
      split_ifs with hc hs hs
      · rw [ih _ hc, if_pos hs]
      · rw [ih _ hc, if_neg hs]
      · omega
      · rfl

/-- The second loop writes the foreign payloads from `currentIndex` on, when so many bytes are
left, and leaves the bytes before. -/
theorem copyBytes_eq (identifier : UInt16) (ps : List Packet) (bytes done : List UInt8)
    (h : bytes.length = (payloads (foreign identifier ps)).length) :
    copyBytes identifier (done ++ bytes) done.length ps =
      some (done ++ payloads (foreign identifier ps)) := by
  induction ps generalizing bytes done with
  | nil =>
    have hb : bytes = [] := List.length_eq_zero_iff.1 h
    simp [copyBytes, foreign, hb]
  | cons p ps ih =>
    by_cases hp : p.identifier = identifier
    · rw [foreign_cons_self hp] at h ⊢
      rw [copyBytes, if_pos hp]
      exact ih bytes done h
    · rw [foreign_cons_ne hp, payloads_cons, List.length_append] at h
      rw [copyBytes, if_neg hp, foreign_cons_ne hp, payloads_cons]
      have hlen : p.length.toNat ≤ bytes.length := by rw [h, p.length_payload]; omega
      -- the copy stays inside both arrays and leaves the bytes after it
      have hcopy : memcpy (done ++ bytes) done.length p.bytes p.length.toNat =
          some (done ++ p.payload ++ bytes.drop p.length.toNat) := by
        have hb : p.length.toNat ≤ p.bytes.length := p.length_bytes ▸ p.length_le
        have hd : done.length + p.length.toNat ≤ (done ++ bytes).length := by
          rw [List.length_append]; omega
        rw [memcpy, if_pos ⟨hd, hb⟩, List.take_left, List.drop_append,
          List.drop_eq_nil_of_le (by omega)]
        simp [ReceivedPacket.payload]
      have hnext : done.length + p.length.toNat = (done ++ p.payload).length := by
        rw [List.length_append, p.length_payload]
      have hrest : (bytes.drop p.length.toNat).length =
          (payloads (foreign identifier ps)).length := by
        rw [List.length_drop, h, p.length_payload]; omega
      rw [hcopy, Option.bind_some, hnext, ih _ _ hrest, List.append_assoc]

/-- **The bytes of a job**: the foreign payloads in batch order, if their number fits an `int`;
otherwise the job is undefined. -/
theorem assemble_eq (identifier : UInt16) (ps : List Packet) :
    assemble identifier ps =
      if (payloads (foreign identifier ps)).length ≤ intMax then
        some (payloads (foreign identifier ps))
      else none := by
  rw [assemble, countBytes_eq _ _ _ (Nat.zero_le _), Nat.zero_add]
  split_ifs with h
  · simpa using copyBytes_eq identifier ps
      (List.replicate (payloads (foreign identifier ps)).length 0) [] List.length_replicate
  · rfl

/-- The message "moonhey" is stored as the payload "hey". -/
example : (receivedPacket 7 [109, 111, 111, 110, 104, 101, 121] (by decide)).payload =
    [104, 101, 121] := payload_receivedPacket _ _ _

end MoonJamRelay
