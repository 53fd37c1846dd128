import MoonJamRelay.Websocket.Sending

/-!
# The queue of a connection

Any thread can put a message into the queue of a connection. `write_frame` takes what is there, up
to a terminal message, and starts one write; the next one is started when it has ended. The write
flag keeps a second write from starting before, and says to the other threads whether somebody has
to be told that there is something to write.

* `Writer` : the queue, the messages that are being written and the buffers of the transport, with
  the writes that the transport has not ended.
* `Writer.Phase`, `Writer.Sound` : what holds in each phase of a write. A function for each step of
  the code has a lemma that says in which phase it is called and which one it leads to.
-/

namespace MoonJamRelay

namespace Websocket

/-- The writing side of a connection, with its transport. -/
structure Writer where
  /-- `m_send_queue`. -/
  sendQueue : List Message
  /-- `m_write_flag`. -/
  writeFlag : Bool
  /-- `m_current_msgs`. -/
  currentMsgs : List Message
  /-- `m_send_buffer`. -/
  sendBuffer : List (List UInt8)
  /-- `m_bufs` of the transport. -/
  bufs : List (List UInt8)
  /-- The writes that were started and have not ended: the bytes that are still to be written. -/
  writes : List (List UInt8)
  /-- The bytes that were written. -/
  wire : List UInt8
  /-- How many calls of `write_frame` were posted and have not run. -/
  posted : ℕ
  /-- The messages that were put into the queue; no code keeps them. -/
  accepted : List Message
  /-- The messages that were taken from the queue; no code keeps them. -/
  taken : List Message

/-- The bytes of some messages. -/
def messageBytes (ms : List Message) : List UInt8 := ms.flatMap Message.bytes

/-- The buffers of some messages. -/
def buffers (ms : List Message) : List (List UInt8) := ms.flatMap fun m => [m.header, m.payload]

namespace Writer

/-- The writer of a new connection. -/
def new : Writer := ⟨[], false, [], [], [], [], [], 0, [], []⟩

/-- `write_push`. -/
def writePush (w : Writer) (m : Message) : Writer :=
  { w with sendQueue := w.sendQueue ++ [m], accepted := w.accepted ++ [m] }

/-- `needs_writing`, as it is computed after a message was pushed. -/
def needsWriting (w : Writer) : Bool := !w.writeFlag && !w.sendQueue.isEmpty

/-- The loop of `write_frame` over `write_pop`: what is taken and what stays in the queue. -/
def popReady : List Message → List Message × List Message
  | [] => ([], [])
  | m :: rest =>
    if m.terminal then ([m], rest) else (m :: (popReady rest).1, (popReady rest).2)

/-- `async_write` of the transport. -/
def asyncWrite (w : Writer) (buffers : List (List UInt8)) : Writer :=
  { w with
    bufs := w.bufs ++ buffers
    writes := w.writes ++ [(w.bufs ++ buffers).flatten] }

/-- `write_frame`. -/
def writeFrame (w : Writer) : Writer :=
  if w.writeFlag then w
  else
    let ready := popReady w.sendQueue
    let w := { w with
      sendQueue := ready.2
      currentMsgs := w.currentMsgs ++ ready.1
      taken := w.taken ++ ready.1 }
    if w.currentMsgs.isEmpty then w
    else
      let w := { w with
        writeFlag := true
        sendBuffer := w.sendBuffer ++ buffers w.currentMsgs }
      w.asyncWrite w.sendBuffer

/-- The transport writes up to `n` bytes of a write. -/
def transmit (w : Writer) (i n : ℕ) : Option Writer :=
  w.writes[i]?.map fun rest =>
    { w with writes := w.writes.set i (rest.drop n), wire := w.wire ++ rest.take n }

/-- A write ends: all of its bytes were written, or it has failed. `handle_async_write` clears the
buffers of the transport. -/
def endWrite (w : Writer) (i : ℕ) (failed : Bool) : Option Writer :=
  w.writes[i]?.bind fun rest =>
    if rest = [] ∨ failed then some { w with writes := w.writes.eraseIdx i, bufs := [] } else none

/-- The last message that was written is terminal. -/
def terminal (w : Writer) : Bool := w.currentMsgs.getLast?.any Message.terminal

/-- `handle_write_frame` clears what was written. -/
def clearCurrent (w : Writer) : Writer := { w with sendBuffer := [], currentMsgs := [] }

/-- `handle_write_frame` gives back the write flag. -/
def releaseFlag (w : Writer) : Writer := { w with writeFlag := false }

/-- A call of `write_frame` is posted. -/
def post (w : Writer) : Writer := { w with posted := w.posted + 1 }

/-- A call of `write_frame` that was posted begins. -/
def unpost (w : Writer) : Writer := { w with posted := w.posted - 1 }

variable {w w' : Writer} {m : Message} {ms : List Message} {i n : ℕ} {failed : Bool}

theorem flatten_buffers (ms : List Message) : (buffers ms).flatten = messageBytes ms := by
  induction ms with
  | nil => rfl
  | cons m ms ih =>
    rw [buffers, List.flatMap_cons, List.flatten_append, ← buffers, ih, messageBytes,
      messageBytes, List.flatMap_cons]
    simp [Message.bytes]

theorem messageBytes_append (ms ms' : List Message) :
    messageBytes (ms ++ ms') = messageBytes ms ++ messageBytes ms' := List.flatMap_append

/-! ### What is taken from the queue -/

theorem popReady_append (q : List Message) : (popReady q).1 ++ (popReady q).2 = q := by
  induction q with
  | nil => rfl
  | cons m rest ih =>
    rw [popReady]
    split_ifs
    · rfl
    · rw [List.cons_append, ih]

theorem popReady_eq_nil {q : List Message} (h : (popReady q).1 = []) : q = [] := by
  cases q with
  | nil => rfl
  | cons m rest =>
    rw [popReady] at h
    split_ifs at h

/-- Only the last message that is taken can be terminal. -/
theorem popReady_dropLast (q : List Message) :
    ∀ m ∈ (popReady q).1.dropLast, m.terminal = false := by
  induction q with
  | nil => exact nofun
  | cons m rest ih =>
    rw [popReady]
    split_ifs with hm
    · exact nofun
    · intro m' hm'
      cases htaken : (popReady rest).1 with
      | nil =>
        simp only [htaken] at hm'
        exact nomatch hm'
      | cons m₁ ms =>
        simp only [htaken, List.dropLast_cons_cons, List.mem_cons] at hm'
        rcases hm' with rfl | hm'
        · simpa using hm
        · exact ih m' (by rwa [htaken])

theorem mem_dropLast_or (hm : m ∈ ms) : m ∈ ms.dropLast ∨ ms.getLast? = some m := by
  rcases List.eq_nil_or_concat ms with rfl | ⟨front, l, rfl⟩
  · exact nomatch hm
  · simpa [eq_comm] using hm

/-! ### The phases of a write -/

/-- Where the connection is with its writes. -/
inductive Phase where
  /-- Nothing is being written, and `write_frame` may start. -/
  | free
  /-- A write was started and has not ended. -/
  | writing
  /-- A write has ended, and the write flag is still set. -/
  | ending
  /-- No more is written: a write has failed, or its last message was terminal. -/
  | stopped
  deriving DecidableEq

/-- Nothing is being written. -/
structure Still (w : Writer) : Prop where
  currentMsgs : w.currentMsgs = []
  sendBuffer : w.sendBuffer = []
  bufs : w.bufs = []
  writes : w.writes = []

/-- All that was taken was written, and none of it was terminal. -/
structure Written (w : Writer) : Prop where
  still : w.Still
  wire : w.wire = messageBytes w.taken
  going : ∀ m ∈ w.taken, m.terminal = false

/-- The current messages are being written, by one write, and nothing else is. -/
structure Writing (w : Writer) : Prop where
  current : w.currentMsgs ≠ []
  sendBuffer : w.sendBuffer = buffers w.currentMsgs
  bufs : w.bufs = w.sendBuffer
  write : ∃ rest, w.writes = [rest] ∧ w.wire ++ rest = messageBytes w.taken
  taken : w.currentMsgs <:+ w.taken
  going : ∀ m ∈ w.taken.dropLast, m.terminal = false

/-- Nothing is being written, and the last write may have broken off. -/
structure Stopped (w : Writer) : Prop where
  still : w.Still
  wire : w.wire <+: messageBytes w.taken
  going : ∀ m ∈ w.taken.dropLast, m.terminal = false

/-- What holds in a phase. -/
structure Sound (w : Writer) (phase : Phase) : Prop where
  queue : w.accepted = w.taken ++ w.sendQueue
  flag : w.writeFlag = (phase != .free)
  phase : match phase with
    | .free | .ending => w.Written
    | .writing => w.Writing
    | .stopped => w.Stopped

variable {phase : Phase}

theorem sound_new : new.Sound .free :=
  ⟨rfl, rfl, ⟨rfl, rfl, rfl, rfl⟩, rfl, nofun⟩

namespace Sound

theorem of_queue {q accepted : List Message} {posted : ℕ} (h : w.Sound phase)
    (hq : accepted = w.taken ++ q) :
    Sound { w with sendQueue := q, accepted := accepted, posted := posted } phase := by
  refine ⟨hq, h.flag, ?_⟩
  have hphase := h.phase
  cases phase with
  | free => exact ⟨⟨hphase.1.1, hphase.1.2, hphase.1.3, hphase.1.4⟩, hphase.2, hphase.3⟩
  | writing => exact ⟨hphase.1, hphase.2, hphase.3, hphase.4, hphase.5, hphase.6⟩
  | ending => exact ⟨⟨hphase.1.1, hphase.1.2, hphase.1.3, hphase.1.4⟩, hphase.2, hphase.3⟩
  | stopped => exact ⟨⟨hphase.1.1, hphase.1.2, hphase.1.3, hphase.1.4⟩, hphase.2, hphase.3⟩

theorem writePush (h : w.Sound phase) (m : Message) : (w.writePush m).Sound phase :=
  h.of_queue (by rw [h.queue, List.append_assoc])

theorem post (h : w.Sound phase) : w.post.Sound phase := h.of_queue h.queue

theorem unpost (h : w.Sound phase) : w.unpost.Sound phase := h.of_queue h.queue

theorem writeFrame_of_flag (h : w.Sound phase) (hphase : phase ≠ .free) : w.writeFrame = w := by
  have hflag : w.writeFlag = true := by
    rw [h.flag]
    simpa using hphase
  rw [writeFrame, if_pos hflag]

theorem writeFrame_of_free (h : w.Sound .free) :
    w.sendQueue = [] ∧ w.writeFrame = w ∨ w.writeFrame.Sound .writing := by
  obtain ⟨hstill, hwire, hgoing⟩ : w.Written := h.phase
  have hflag : w.writeFlag = false := h.flag
  have hsplit := popReady_append w.sendQueue
  rw [writeFrame, if_neg (by simp [hflag])]
  simp only [hstill.currentMsgs, List.nil_append]
  by_cases hready : (popReady w.sendQueue).1 = []
  · have hqueue := popReady_eq_nil hready
    refine .inl ⟨hqueue, ?_⟩
    rw [hready, List.nil_append] at hsplit
    simp only [hready, hsplit, List.append_nil, List.isEmpty_nil, if_true]
    rw [← hstill.currentMsgs]
  · refine .inr ?_
    rw [if_neg (by simpa using hready), hstill.sendBuffer, List.nil_append]
    have hbytes : messageBytes (w.taken ++ (popReady w.sendQueue).1) =
        w.wire ++ (buffers (popReady w.sendQueue).1).flatten := by
      rw [messageBytes_append, hwire, flatten_buffers]
    refine ⟨?_, rfl, hready, rfl, ?_, ⟨_, ?_, hbytes.symm⟩, List.suffix_append _ _, ?_⟩
    · change w.accepted = w.taken ++ (popReady w.sendQueue).1 ++ (popReady w.sendQueue).2
      rw [List.append_assoc, hsplit, h.queue]
    · simp [asyncWrite, hstill.bufs]
    · simp [asyncWrite, hstill.bufs, hstill.writes]
    · change ∀ m ∈ (w.taken ++ (popReady w.sendQueue).1).dropLast, m.terminal = false
      rw [List.dropLast_append_of_ne_nil hready]
      intro m hm
      rcases List.mem_append.1 hm with hm | hm
      · exact hgoing m hm
      · exact popReady_dropLast w.sendQueue m hm

/-- While the flag is set, nobody else has to be told. -/
theorem needsWriting_of_flag (h : w.Sound phase) (hphase : phase ≠ .free) :
    w.needsWriting = false := by
  rw [needsWriting, h.flag]
  simp [hphase]

/-- After `write_frame` nothing needs to be written that it has not begun to write. -/
theorem needsWriting_writeFrame (h : w.Sound phase) : w.writeFrame.needsWriting = false := by
  by_cases hphase : phase = .free
  · subst hphase
    rcases h.writeFrame_of_free with ⟨hqueue, heq⟩ | hwriting
    · rw [heq, needsWriting, hqueue]
      simp
    · exact hwriting.needsWriting_of_flag nofun
  · rw [h.writeFrame_of_flag hphase]
    exact h.needsWriting_of_flag hphase

/-- The transport writes bytes of the one write there is. -/
theorem transmit (h : w.Sound phase) (hw : w.transmit i n = some w') :
    phase = .writing ∧ w'.Sound .writing := by
  obtain ⟨rest, hrest, rfl⟩ := Option.map_eq_some_iff.1 hw
  have hphase := h.phase
  cases phase with
  | writing =>
    obtain ⟨hcurrent, hbuffer, hbufs, ⟨rest', hwrites, hwire⟩, htaken, hgoing⟩ := hphase
    rw [hwrites, List.getElem?_singleton] at hrest
    split_ifs at hrest with hi
    obtain rfl := Option.some.inj hrest
    refine ⟨rfl, h.queue, h.flag, hcurrent, hbuffer, hbufs, ⟨rest'.drop n, ?_, ?_⟩, htaken, hgoing⟩
    · simp [hwrites, hi]
    · change w.wire ++ rest'.take n ++ rest'.drop n = messageBytes w.taken
      rw [List.append_assoc, List.take_append_drop, hwire]
  | free => simp [hphase.still.writes] at hrest
  | ending => simp [hphase.still.writes] at hrest
  | stopped => simp [hphase.still.writes] at hrest

/-- The write ends. If it has failed, or if its last message is terminal, no more is written. -/
theorem endWrite (h : w.Sound phase) (hw : w.endWrite i failed = some w') :
    phase = .writing ∧ w'.currentMsgs ≠ [] ∧ w'.accepted = w.accepted ∧ w'.posted = w.posted ∧
      w'.sendQueue = w.sendQueue ∧ w'.clearCurrent.Sound
        (if failed = true ∨ w'.terminal = true then .stopped else .ending) := by
  obtain ⟨rest, hrest, hw⟩ := Option.bind_eq_some_iff.1 hw
  split_ifs at hw with hend
  obtain rfl := Option.some.inj hw
  have hphase := h.phase
  cases phase with
  | writing =>
    obtain ⟨hcurrent, hbuffer, hbufs, ⟨rest', hwrites, hwire⟩, htaken, hgoing⟩ := hphase
    rw [hwrites, List.getElem?_singleton] at hrest
    split_ifs at hrest with hi
    obtain rfl := Option.some.inj hrest
    have hstill : (clearCurrent { w with writes := w.writes.eraseIdx i, bufs := [] }).Still :=
      ⟨rfl, rfl, rfl, by simp [clearCurrent, hwrites, hi]⟩
    refine ⟨rfl, hcurrent, rfl, rfl, rfl, ?_⟩
    split_ifs with hstop
    · exact ⟨h.queue, h.flag, hstill, ⟨rest', hwire⟩, hgoing⟩
    · rw [not_or] at hstop
      obtain rfl := hend.resolve_right hstop.1
      refine ⟨h.queue, h.flag, hstill, ?_, ?_⟩
      · rw [List.append_nil] at hwire
        exact hwire
      · -- the last message that was taken is the last one of the write
        change ∀ m ∈ w.taken, m.terminal = false
        obtain ⟨front, hfront⟩ := htaken
        have hlast : w.taken.getLast? = w.currentMsgs.getLast? := by
          rw [← hfront, List.getLast?_append_of_ne_nil _ hcurrent]
        intro m hm
        rcases mem_dropLast_or hm with hm | hm
        · exact hgoing m hm
        · have hnot : ¬ w.currentMsgs.getLast?.any Message.terminal = true := hstop.2
          rw [← hlast, hm] at hnot
          simpa using hnot
  | free => simp [hphase.still.writes] at hrest
  | ending => simp [hphase.still.writes] at hrest
  | stopped => simp [hphase.still.writes] at hrest

theorem releaseFlag (h : w.Sound .ending) : w.releaseFlag.Sound .free :=
  ⟨h.queue, rfl, ⟨h.phase.1.1, h.phase.1.2, h.phase.1.3, h.phase.1.4⟩, h.phase.2, h.phase.3⟩

end Sound

end Writer

end Websocket

end MoonJamRelay
