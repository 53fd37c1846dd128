import Mathlib.Data.Int.Notation
import MoonJamRelay.Keys.Basic
import MoonJamRelay.Links.Basic

/-!
# The contiguous queue

`ContiguousQueue` keeps its elements in the slots of a growing vector.  The slots form a doubly
linked list: first the active ones, from `firstIndex` to `currentIndex`, then the free ones.
`push` takes the slot behind `currentIndex`, `remove` puts a slot there.

A link of `-1` is `none`.  A call fails with a `Fault` where an assertion fails, an index outside
the vector is used, or the `int` of the loop in `resize` overflows.  What the code prints is left
out.  `moved` is what `std::move` leaves behind of an entry.

* `ContiguousQueue.nextOf`, `lastOf`, `activeAt`, `entryOf` : the slots as functions of the index.
* `ContiguousQueue.relink` : what `remove` does to the links; `remove_eq` : the rest of `remove`.
* `ContiguousQueue.activeSlots`, `values` : what the queue holds, oldest first.
-/

namespace MoonJamRelay

/-- Why a call failed. -/
inductive Fault where
  /-- An assertion does not hold. -/
  | assertion
  /-- An index is not one of a slot. -/
  | outside
  /-- The `int` that counts the slots overflows. -/
  | overflow
  deriving DecidableEq

/-- A slot. -/
structure QueuedEntry (T : Type*) where
  lastIndex : Option ℕ
  nextIndex : Option ℕ
  active : Bool
  entry : T
  deriving DecidableEq

/-- `ContiguousQueue`. -/
structure ContiguousQueue (T : Type*) where
  activeCount : ℤ
  firstIndex : ℕ
  currentIndex : ℕ
  queued : List (QueuedEntry T)
  deriving DecidableEq

/-- `INITIAL_QUEUE_SIZE`. -/
def initialQueueSize : ℕ := 10

namespace ContiguousQueue

variable {T : Type*}

/-! ### The code -/

section

variable (q : ContiguousQueue T)

/-- `m_queued[i]`, to be read. -/
def slot (i : ℕ) : Except Fault (QueuedEntry T) :=
  match q.queued[i]? with
  | some e => .ok e
  | none => .error .outside

/-- The slot `i` is changed. -/
def update (i : ℕ) (f : QueuedEntry T → QueuedEntry T) : ContiguousQueue T :=
  { q with queued := q.queued.modify i f }

/-- `m_queued[i]`, to be changed. -/
def write (i : ℕ) (f : QueuedEntry T → QueuedEntry T) : Except Fault (ContiguousQueue T) :=
  if i < q.queued.length then .ok (q.update i f) else .error .outside

/-- `reserved`. -/
def reserved : ℕ := q.queued.length

/-- `size`. -/
def size : ℤ := q.activeCount

/-- `next`. -/
def next : Except Fault T := do
  let e ← q.slot q.firstIndex
  return e.entry

/-- The slot `i`, as the loop of `resize` leaves it. -/
def fresh [Inhabited T] (startIndex size i : ℕ) : QueuedEntry T where
  lastIndex := if i = startIndex then none else some (i - 1)
  nextIndex := if i = size - 1 then none else some (i + 1)
  active := false
  entry := default

/-- The vector gets new slots, which are linked to each other. -/
def extend [Inhabited T] (size : ℕ) : ContiguousQueue T :=
  let startIndex := q.queued.length
  { q with
    queued := q.queued ++ (List.range' startIndex (size - startIndex)).map (fresh startIndex size) }

/-- The last lines of `resize`: the slots that were there are linked to the new ones. -/
def connect (startIndex : ℕ) : Except Fault (ContiguousQueue T) :=
  if 0 < startIndex then do
    let q ← q.write q.currentIndex fun e => { e with nextIndex := some startIndex }
    q.write startIndex fun e => { e with lastIndex := some q.currentIndex }
  else .ok q

/-- `resize`, after its guards. -/
def enlarge [Inhabited T] (size : ℕ) : Except Fault (ContiguousQueue T) :=
  -- the loop counts the slots in an `int`
  if size ≤ intMax then (q.extend size).connect q.queued.length else .error .overflow

/-- `resize`. -/
def resize [Inhabited T] (size : ℕ) : Except Fault (ContiguousQueue T) :=
  if size ≤ q.queued.length then .ok q
  else if q.queued.isEmpty then q.enlarge size
  else do
    let current ← q.slot q.currentIndex
    if current.nextIndex = none then q.enlarge size else .ok q

/-- The first lines of `push`. -/
def ready [Inhabited T] : Except Fault (ContiguousQueue T) :=
  if q.queued.isEmpty then q.resize initialQueueSize else .ok q

/-- `push`, when the current slot is the last one. -/
def makeRoom [Inhabited T] : Except Fault (ContiguousQueue T) := do
  let current ← q.slot q.currentIndex
  if current.nextIndex = none then q.resize (q.queued.length * 2) else .ok q

/-- `push`: the next slot becomes the current one. -/
def advance : Except Fault (ContiguousQueue T) := do
  let current ← q.slot q.currentIndex
  match current.nextIndex with
  | none => .error .assertion
  | some index =>
    let available ← q.slot index
    if available.active then .error .assertion else .ok { q with currentIndex := index }

/-- The last lines of `push`. -/
def fill (entry : T) : Except Fault (ContiguousQueue T) := do
  let q ← q.write q.currentIndex fun e => { e with active := true, entry := entry }
  return { q with activeCount := q.activeCount + 1 }

/-- `push`. -/
def push [Inhabited T] (entry : T) : Except Fault (ContiguousQueue T) := do
  let q ← q.ready
  let current ← q.slot q.currentIndex
  if current.active then
    let q ← q.makeRoom
    let q ← q.advance
    q.fill entry
  else q.fill entry

/-- The link of a slot forwards is set, if there is such a slot. -/
def setNext (index next : Option ℕ) : Except Fault (ContiguousQueue T) :=
  match index with
  | some i => q.write i fun e => { e with nextIndex := next }
  | none => .ok q

/-- The link of a slot backwards is set, if there is such a slot. -/
def setLast (index last : Option ℕ) : Except Fault (ContiguousQueue T) :=
  match index with
  | some i => q.write i fun e => { e with lastIndex := last }
  | none => .ok q

/-- The last lines of `remove`: the first slot, when the slot `index` was removed. -/
def chooseFirst (index : ℕ) (nextIndex : Option ℕ) : Except Fault (ContiguousQueue T) :=
  if index = q.firstIndex then
    if 0 < q.activeCount then
      match nextIndex with
      | none => .error .outside
      | some i => do
        let first ← q.slot i
        if first.active then .ok { q with firstIndex := i } else .error .assertion
    else .ok { q with firstIndex := q.currentIndex }
  else .ok q

/-- `remove`. -/
def remove (index : ℕ) : Except Fault (ContiguousQueue T) := do
  let e ← q.slot index
  let q ← q.setNext e.lastIndex e.nextIndex
  let q ← q.setLast e.nextIndex e.lastIndex
  let current ← q.slot q.currentIndex
  let q ← q.write q.currentIndex fun c => { c with nextIndex := some index }
  let q ← q.write index fun c =>
    { c with lastIndex := some q.currentIndex, nextIndex := current.nextIndex, active := false }
  ({ q with activeCount := q.activeCount - 1 } : ContiguousQueue T).chooseFirst index e.nextIndex

/-- `pop`. -/
def pop (moved : T → T) : Except Fault (T × ContiguousQueue T) := do
  let e ← q.slot q.firstIndex
  let q ← q.write q.firstIndex fun e => { e with entry := moved e.entry }
  let q ← q.remove q.firstIndex
  return (e.entry, q)

end

/-- The queue before the constructor calls `resize`. -/
def blank : ContiguousQueue T := ⟨0, 0, 0, []⟩

/-- The constructor. -/
def ofSize [Inhabited T] (size : ℕ) : Except Fault (ContiguousQueue T) := blank.resize size

/-! ### The slots as functions of the index -/

section

variable (q : ContiguousQueue T)

/-- The link of the slot `i` forwards. -/
def nextOf (i : ℕ) : Option ℕ := q.queued[i]?.bind (·.nextIndex)

/-- The link of the slot `i` backwards. -/
def lastOf (i : ℕ) : Option ℕ := q.queued[i]?.bind (·.lastIndex)

/-- The slot `i` is active. -/
def activeAt (i : ℕ) : Bool := q.queued[i]?.any (·.active)

/-- The entry of the slot `i`. -/
def entryOf [Inhabited T] (i : ℕ) : T := (q.queued[i]?.map (·.entry)).getD default

/-- The slot `i`, if there is one. -/
def slotAt [Inhabited T] (i : ℕ) : QueuedEntry T :=
  ⟨q.lastOf i, q.nextOf i, q.activeAt i, q.entryOf i⟩

variable {q} {i j : ℕ} {f : QueuedEntry T → QueuedEntry T}

theorem lt_of_nextOf (h : q.nextOf i = some j) : i < q.reserved := by
  by_contra hi
  rw [nextOf, List.getElem?_eq_none (Nat.le_of_not_lt hi)] at h
  cases h

theorem lt_of_lastOf (h : q.lastOf i = some j) : i < q.reserved := by
  by_contra hi
  rw [lastOf, List.getElem?_eq_none (Nat.le_of_not_lt hi)] at h
  cases h

theorem lt_of_activeAt (h : q.activeAt i = true) : i < q.reserved := by
  by_contra hi
  rw [activeAt, List.getElem?_eq_none (Nat.le_of_not_lt hi)] at h
  cases h

theorem write_eq (hi : i < q.reserved) : q.write i f = .ok (q.update i f) := if_pos hi

@[simp] theorem reserved_update : (q.update i f).reserved = q.reserved := List.length_modify ..

@[simp] theorem firstIndex_update : (q.update i f).firstIndex = q.firstIndex := rfl

@[simp] theorem currentIndex_update : (q.update i f).currentIndex = q.currentIndex := rfl

@[simp] theorem activeCount_update : (q.update i f).activeCount = q.activeCount := rfl

variable [Inhabited T]

theorem getElem?_eq (hi : i < q.reserved) : q.queued[i]? = some (q.slotAt i) := by
  simp only [slotAt, lastOf, nextOf, activeAt, entryOf]
  rw [List.getElem?_eq_getElem hi]
  rfl

theorem slot_eq (hi : i < q.reserved) : q.slot i = .ok (q.slotAt i) := by
  rw [slot, getElem?_eq hi]

theorem getElem?_update (hi : i < q.reserved) :
    (q.update i f).queued[j]? = if j = i then some (f (q.slotAt i)) else q.queued[j]? := by
  rw [update, List.getElem?_modify]
  split_ifs with h h' h'
  · rw [h', getElem?_eq hi]
    rfl
  · exact absurd h.symm h'
  · exact absurd h'.symm h
  · simp

theorem slotAt_eq : q.slotAt i = q.queued[i]?.getD ⟨none, none, false, default⟩ := by
  unfold slotAt nextOf lastOf activeAt entryOf
  cases q.queued[i]? <;> rfl

theorem slotAt_update (hi : i < q.reserved) :
    (q.update i f).slotAt j = if j = i then f (q.slotAt i) else q.slotAt j := by
  rw [slotAt_eq, getElem?_update hi]
  split_ifs
  · rfl
  · exact slotAt_eq.symm

end

/-! ### What `resize` does to the slots -/

section

variable [Inhabited T] (q : ContiguousQueue T) (size : ℕ)

/-- The queue after `resize`. -/
def joined : ContiguousQueue T :=
  if 0 < q.reserved then
    let q' := (q.extend size).update q.currentIndex fun e => { e with nextIndex := some q.reserved }
    q'.update q.reserved fun e => { e with lastIndex := some q.currentIndex }
  else q.extend size

variable {q size} {j : ℕ}

theorem reserved_extend (h : q.reserved ≤ size) : (q.extend size).reserved = size := by
  change (q.queued ++ List.map _ _).length = size
  rw [List.length_append, List.length_map, List.length_range']
  exact Nat.add_sub_cancel' h

theorem reserved_joined (h : q.reserved ≤ size) : (q.joined size).reserved = size := by
  unfold joined
  split_ifs
  · exact reserved_update.trans (reserved_update.trans (reserved_extend h))
  · exact reserved_extend h

@[simp] theorem firstIndex_joined : (q.joined size).firstIndex = q.firstIndex := by
  unfold joined
  split_ifs <;> rfl

@[simp] theorem currentIndex_joined : (q.joined size).currentIndex = q.currentIndex := by
  unfold joined
  split_ifs <;> rfl

@[simp] theorem activeCount_joined : (q.joined size).activeCount = q.activeCount := by
  unfold joined
  split_ifs <;> rfl

theorem getElem?_extend : (q.extend size).queued[j]? =
    if j < q.reserved then q.queued[j]?
    else if j < size then some (fresh q.reserved size j) else none := by
  change (q.queued ++ List.map _ (List.range' q.reserved (size - q.reserved)))[j]? = _
  by_cases hold : j < q.reserved
  · rw [if_pos hold, List.getElem?_append_left hold]
  · obtain ⟨k, rfl⟩ := Nat.exists_eq_add_of_le (Nat.le_of_not_lt hold)
    have hk : q.reserved + k - q.queued.length = k := Nat.add_sub_cancel_left ..
    rw [if_neg hold, List.getElem?_append_right (Nat.le_of_not_lt hold), hk, List.getElem?_map]
    split_ifs with hnew
    · rw [List.getElem?_range' (by omega), Nat.one_mul]
      rfl
    · rw [List.getElem?_eq_none (by rw [List.length_range']; omega)]
      rfl

theorem enlarge_eq (hcur : 0 < q.reserved → q.currentIndex < q.reserved) (h : q.reserved < size)
    (hmax : size ≤ intMax) : q.enlarge size = .ok (q.joined size) := by
  rw [enlarge, if_pos hmax, connect, joined]
  change (if 0 < q.reserved then _ else _) = _
  have hlen : (q.extend size).reserved = size := reserved_extend (Nat.le_of_lt h)
  split_ifs with hpos
  · rw [write_eq (by rw [hlen]; exact Nat.lt_trans (hcur hpos) h)]
    exact write_eq (by rw [reserved_update, hlen]; exact h)
  · rfl

theorem slotAt_extend : (q.extend size).slotAt j =
    if q.reserved ≤ j ∧ j < size then fresh q.reserved size j else q.slotAt j := by
  rw [slotAt_eq, getElem?_extend, slotAt_eq]
  have hnone := List.getElem?_eq_none (l := q.queued) (i := j)
  grind [reserved]

/-- The slots after `resize`: the new ones are behind the current one. -/
theorem slotAt_joined (hcur : 0 < q.reserved → q.currentIndex < q.reserved)
    (h : q.reserved < size) : (q.joined size).slotAt j =
      if q.reserved ≤ j ∧ j < size then
        { fresh q.reserved size j with
          lastIndex := if j ≠ q.reserved then some (j - 1)
            else if 0 < q.reserved then some q.currentIndex else none }
      else
        { q.slotAt j with
          nextIndex := if j < q.reserved ∧ j = q.currentIndex then some q.reserved
            else q.nextOf j } := by
  unfold joined
  split_ifs <;>
    grind [slotAt_update, slotAt_extend, reserved_update, reserved_extend, slotAt, fresh]

theorem nextOf_joined (hcur : 0 < q.reserved → q.currentIndex < q.reserved)
    (h : q.reserved < size) : (q.joined size).nextOf j =
      if j < q.reserved then (if j = q.currentIndex then some q.reserved else q.nextOf j)
      else if j < size then (if j = size - 1 then none else some (j + 1)) else none := by
  have hnone : ¬ j < q.reserved → q.nextOf j = none := fun hj =>
    Option.eq_none_iff_forall_ne_some.2 fun _ hk => hj (lt_of_nextOf hk)
  refine (congrArg QueuedEntry.nextIndex (slotAt_joined hcur h)).trans ?_
  grind [fresh, slotAt]

theorem lastOf_joined (hcur : 0 < q.reserved → q.currentIndex < q.reserved)
    (h : q.reserved < size) : (q.joined size).lastOf j =
      if j < q.reserved then q.lastOf j
      else if j = q.reserved then (if 0 < q.reserved then some q.currentIndex else none)
      else if j < size then some (j - 1) else none := by
  have hnone : ¬ j < q.reserved → q.lastOf j = none := fun hj =>
    Option.eq_none_iff_forall_ne_some.2 fun _ hk => hj (lt_of_lastOf hk)
  refine (congrArg QueuedEntry.lastIndex (slotAt_joined hcur h)).trans ?_
  grind [slotAt]

theorem activeAt_joined (hcur : 0 < q.reserved → q.currentIndex < q.reserved)
    (h : q.reserved < size) : (q.joined size).activeAt j = q.activeAt j := by
  have hnone : ¬ j < q.reserved → q.activeAt j = false := fun hj =>
    Bool.eq_false_iff.2 fun hk => hj (lt_of_activeAt hk)
  refine (congrArg QueuedEntry.active (slotAt_joined hcur h)).trans ?_
  grind [fresh, slotAt]

theorem entryOf_joined (hcur : 0 < q.reserved → q.currentIndex < q.reserved)
    (h : q.reserved < size) (hj : j < q.reserved) : (q.joined size).entryOf j = q.entryOf j := by
  refine (congrArg QueuedEntry.entry (slotAt_joined hcur h)).trans ?_
  grind [slotAt]

end

/-! ### What `remove` does to the links -/

section

variable (q : ContiguousQueue T) (i : ℕ)

/-- The indices `remove i` follows are those of slots. -/
structure InRange : Prop where
  removed : i < q.reserved
  current : q.currentIndex < q.reserved
  last : ∀ j, q.lastOf i = some j → j < q.reserved
  next : ∀ j, q.nextOf i = some j → j < q.reserved

/-- `remove`, up to the link of what was before the slot. -/
def unlinkNext : ContiguousQueue T :=
  match q.lastOf i with
  | some j => q.update j fun e => { e with nextIndex := q.nextOf i }
  | none => q

/-- `remove`, up to the links between what was before the slot and what was after it. -/
def unlink : ContiguousQueue T :=
  match q.nextOf i with
  | some j => (q.unlinkNext i).update j fun e => { e with lastIndex := q.lastOf i }
  | none => q.unlinkNext i

/-- `remove`, up to the choice of the first slot. -/
def relink : ContiguousQueue T :=
  let old := (q.unlink i).nextOf q.currentIndex
  let q' := (q.unlink i).update q.currentIndex fun e => { e with nextIndex := some i }
  let q' := q'.update i fun e =>
    { e with lastIndex := some q.currentIndex, nextIndex := old, active := false }
  { q' with activeCount := q.activeCount - 1 }

/-- The queue after `remove`, when `j` is the first slot then. -/
def removed (j : ℕ) : ContiguousQueue T := { q.relink i with firstIndex := j }

variable {q i} {j k : ℕ}

@[simp] theorem reserved_unlinkNext : (q.unlinkNext i).reserved = q.reserved := by
  unfold unlinkNext
  split <;> simp

@[simp] theorem reserved_unlink : (q.unlink i).reserved = q.reserved := by
  unfold unlink
  split <;> simp

@[simp] theorem firstIndex_unlink : (q.unlink i).firstIndex = q.firstIndex := by
  unfold unlink unlinkNext
  split <;> split <;> rfl

@[simp] theorem currentIndex_unlink : (q.unlink i).currentIndex = q.currentIndex := by
  unfold unlink unlinkNext
  split <;> split <;> rfl

@[simp] theorem activeCount_unlink : (q.unlink i).activeCount = q.activeCount := by
  unfold unlink unlinkNext
  split <;> split <;> rfl

@[simp] theorem firstIndex_relink : (q.relink i).firstIndex = q.firstIndex := firstIndex_unlink

@[simp] theorem currentIndex_relink : (q.relink i).currentIndex = q.currentIndex :=
  currentIndex_unlink

@[simp] theorem activeCount_relink : (q.relink i).activeCount = q.activeCount - 1 := rfl

@[simp] theorem reserved_relink : (q.relink i).reserved = q.reserved :=
  reserved_update.trans (reserved_update.trans reserved_unlink)

@[simp] theorem reserved_removed : (q.removed i j).reserved = q.reserved := reserved_relink

@[simp] theorem firstIndex_removed : (q.removed i j).firstIndex = j := rfl

@[simp] theorem currentIndex_removed : (q.removed i j).currentIndex = q.currentIndex :=
  currentIndex_relink

@[simp] theorem activeCount_removed : (q.removed i j).activeCount = q.activeCount - 1 := rfl

variable [Inhabited T]

theorem slotAt_unlinkNext (h : q.InRange i) : (q.unlinkNext i).slotAt j =
    { q.slotAt j with nextIndex := if q.lastOf i = some j then q.nextOf i else q.nextOf j } := by
  unfold unlinkNext
  split <;> grind [slotAt_update, h.last, slotAt]

theorem slotAt_unlink (h : q.InRange i) : (q.unlink i).slotAt j =
    { q.slotAt j with
      nextIndex := if q.lastOf i = some j then q.nextOf i else q.nextOf j
      lastIndex := if q.nextOf i = some j then q.lastOf i else q.lastOf j } := by
  unfold unlink
  split <;> grind [slotAt_update, slotAt_unlinkNext, reserved_unlinkNext, h.next, slotAt]

/-- The slots after `remove`: the removed one is behind the current one. -/
theorem slotAt_relink (h : q.InRange i) : (q.relink i).slotAt j =
    if j = i then
      { lastIndex := some q.currentIndex
        nextIndex := if q.lastOf i = some q.currentIndex then q.nextOf i
          else q.nextOf q.currentIndex
        active := false
        entry := q.entryOf i }
    else
      { q.slotAt j with
        nextIndex := if j = q.currentIndex then some i
          else if q.lastOf i = some j then q.nextOf i else q.nextOf j
        lastIndex := if q.nextOf i = some j then q.lastOf i else q.lastOf j } := by
  have hold : (q.unlink i).nextOf q.currentIndex =
      if q.lastOf i = some q.currentIndex then q.nextOf i else q.nextOf q.currentIndex :=
    congrArg QueuedEntry.nextIndex (slotAt_unlink h)
  refine (slotAt_update (by simpa using h.removed)).trans ?_
  rw [slotAt_update (by simpa using h.current), slotAt_update (by simpa using h.current)]
  grind [slotAt_unlink, slotAt]

theorem activeAt_relink (h : q.InRange i) :
    (q.relink i).activeAt j = if j = i then false else q.activeAt j := by
  refine (congrArg QueuedEntry.active (slotAt_relink h)).trans ?_
  split_ifs <;> rfl

theorem nextOf_removed (h : q.InRange i) : (q.removed i j).nextOf k =
    if k = i then (if q.lastOf i = some q.currentIndex then q.nextOf i else q.nextOf q.currentIndex)
    else if k = q.currentIndex then some i
    else if q.lastOf i = some k then q.nextOf i else q.nextOf k := by
  refine (congrArg QueuedEntry.nextIndex (slotAt_relink h)).trans ?_
  split_ifs <;> rfl

theorem lastOf_removed (h : q.InRange i) : (q.removed i j).lastOf k =
    if k = i then some q.currentIndex
    else if q.nextOf i = some k then q.lastOf i else q.lastOf k := by
  refine (congrArg QueuedEntry.lastIndex (slotAt_relink h)).trans ?_
  split_ifs <;> rfl

theorem activeAt_removed (h : q.InRange i) :
    (q.removed i j).activeAt k = if k = i then false else q.activeAt k := activeAt_relink h

theorem entryOf_removed (h : q.InRange i) : (q.removed i j).entryOf k = q.entryOf k := by
  refine (congrArg QueuedEntry.entry (slotAt_relink h)).trans ?_
  by_cases hk : k = i
  · rw [if_pos hk, hk]
  · rw [if_neg hk]
    rfl

/-- `remove`, when the indices it follows are those of slots. -/
theorem remove_eq (h : q.InRange i) : q.remove i = (q.relink i).chooseFirst i (q.nextOf i) := by
  have hnext : q.setNext (q.lastOf i) (q.nextOf i) = .ok (q.unlinkNext i) := by
    unfold setNext unlinkNext
    split
    · exact write_eq (h.last _ ‹_›)
    · rfl
  have hlast : (q.unlinkNext i).setLast (q.nextOf i) (q.lastOf i) = .ok (q.unlink i) := by
    unfold setLast unlink
    split
    · exact write_eq (by simpa using h.next _ ‹_›)
    · rfl
  rw [remove, slot_eq h.removed]
  simp only [bind, Except.bind, slotAt, hnext, hlast]
  rw [currentIndex_unlink, slot_eq (by simpa using h.current), write_eq (by simpa using h.current)]
  simp only [currentIndex_update, currentIndex_unlink]
  rw [write_eq (by simpa using h.removed)]
  simp only [relink, slotAt, currentIndex_update, activeCount_update, currentIndex_unlink,
    activeCount_unlink]

end

end ContiguousQueue

end MoonJamRelay
