import MoonJamRelay.Queue.Basic

/-!
# The chain of slots

Following `nextIndex` from `firstIndex` one finds every slot: first those in `used`, which are the
active ones, then those in `free`.

* `Chained` : this invariant.  It says nothing about the links backwards.
* `push_of_inactive`, `push_of_next` : what `push` does when there is a slot for the entry.
* `Chained.joined`, `Chained.filled` : the parts of `push` keep the invariant; `Chained.push_eq` :
  so `push` succeeds.
* `Chained.remove_eq` : it is kept by `remove`, of a slot before the current one, if the link
  backwards of that slot is right, or to itself.
* `Chained.drain_eq` : it is kept when the only element is removed, if the link backwards of its
  slot does not lead to another slot.
-/

namespace MoonJamRelay

namespace ContiguousQueue

variable {T : Type*} (q : ContiguousQueue T)

/-- Where the chain begins. -/
def start : Option ℕ := if q.reserved = 0 then none else some q.firstIndex

/-- The slots that are active, from the first one on. -/
def activeSlots : List ℕ := walk q.nextOf q.activeCount.toNat q.start

/-- The chain leads through the slots `used`, which are the active ones, and then through the slots
`free`. -/
structure Chained (used free : List ℕ) : Prop where
  segment : Segment q.nextOf q.start (used ++ free) none
  nodup : (used ++ free).Nodup
  mem_iff : ∀ i, i ∈ used ++ free ↔ i < q.reserved
  active_iff : ∀ i, q.activeAt i = true ↔ i ∈ used
  count : q.activeCount = used.length
  current : used.getLast? = some q.currentIndex ∨ used = [] ∧ q.currentIndex = q.firstIndex
  unallocated : q.reserved = 0 → q.firstIndex = 0

/-- The queue after `push`, when the slot `c` is filled. -/
def filled (c : ℕ) (v : T) : ContiguousQueue T :=
  { q.update c fun e => { e with active := true, entry := v } with
    activeCount := q.activeCount + 1
    currentIndex := c }

/-- `q'` is the queue in which `push` fills a slot: there are new ones if none was free. -/
def Grown [Inhabited T] (free : List ℕ) (q' : ContiguousQueue T) : Prop :=
  q' = q ∨ free = [] ∧ ∃ size, q.reserved < size ∧ q' = q.joined size

/-- `push` does not need more slots than an `int` can count. -/
def MayPush : Prop :=
  q.activeAt q.currentIndex = true → q.nextOf q.currentIndex = none → q.reserved * 2 ≤ intMax

instance : Decidable q.MayPush := inferInstanceAs (Decidable (_ → _ → _))

variable {q} {used free us vs : List ℕ} {i j c size : ℕ} {v : T}

theorem fill_eq (hc : c < q.reserved) :
    ({ q with currentIndex := c } : ContiguousQueue T).fill v = .ok (q.filled c v) := by
  rw [fill, write_eq (show c < ({ q with currentIndex := c } : ContiguousQueue T).reserved from hc)]
  rfl

@[simp] theorem firstIndex_filled : (q.filled c v).firstIndex = q.firstIndex := rfl

@[simp] theorem currentIndex_filled : (q.filled c v).currentIndex = c := rfl

@[simp] theorem reserved_filled : (q.filled c v).reserved = q.reserved := reserved_update

section

variable [Inhabited T]

theorem slotAt_filled (hc : c < q.reserved) : (q.filled c v).slotAt j =
    if j = c then { q.slotAt c with active := true, entry := v } else q.slotAt j :=
  slotAt_update hc

theorem nextOf_filled (hc : c < q.reserved) : (q.filled c v).nextOf j = q.nextOf j := by
  refine (congrArg QueuedEntry.nextIndex (slotAt_filled hc)).trans ?_
  grind [slotAt]

theorem activeAt_filled (hc : c < q.reserved) :
    (q.filled c v).activeAt j = if j = c then true else q.activeAt j := by
  refine (congrArg QueuedEntry.active (slotAt_filled hc)).trans ?_
  split_ifs <;> rfl

theorem lastOf_filled (hc : c < q.reserved) : (q.filled c v).lastOf j = q.lastOf j := by
  refine (congrArg QueuedEntry.lastIndex (slotAt_filled hc)).trans ?_
  grind [slotAt]

theorem entryOf_filled (hc : c < q.reserved) :
    (q.filled c v).entryOf j = if j = c then v else q.entryOf j := by
  refine (congrArg QueuedEntry.entry (slotAt_filled hc)).trans ?_
  split_ifs <;> rfl

/-! ### The cases of `push` -/

omit [Inhabited T] in
theorem isEmpty_eq_false (hc : c < q.reserved) : ¬ q.queued.isEmpty = true := fun hempty => by
  rw [reserved, List.isEmpty_iff.1 hempty] at hc
  exact Nat.not_lt_zero _ hc

theorem ready_eq (hc : c < q.reserved) : q.ready = .ok q := if_neg (isEmpty_eq_false hc)

/-- The current slot is used again. -/
theorem push_of_inactive {q' : ContiguousQueue T} (hready : q.ready = .ok q')
    (hcur : q'.currentIndex < q'.reserved) (hinactive : ¬ q'.activeAt q'.currentIndex = true)
    (v : T) : q.push v = .ok (q'.filled q'.currentIndex v) := by
  rw [push, hready]
  simp only [bind, Except.bind, slot_eq hcur, slotAt, hinactive]
  exact fill_eq hcur

variable (hcur : q.currentIndex < q.reserved)
include hcur

theorem push_of_active (hactive : q.activeAt q.currentIndex = true) (v : T) :
    q.push v = q.makeRoom.bind fun q => q.advance.bind fun q => q.fill v := by
  rw [push, ready_eq hcur]
  simp only [bind, Except.bind, slot_eq hcur, slotAt, hactive, if_true]

theorem makeRoom_of_none (hnone : q.nextOf q.currentIndex = none) :
    q.makeRoom = q.enlarge (q.reserved * 2) := by
  have hsize : ¬ q.queued.length * 2 ≤ q.queued.length := by
    change q.currentIndex < q.queued.length at hcur
    omega
  rw [makeRoom, slot_eq hcur]
  simp only [bind, Except.bind, slotAt, hnone, if_true]
  rw [resize, if_neg hsize, if_neg (isEmpty_eq_false hcur), slot_eq hcur]
  simp only [bind, Except.bind, slotAt, hnone, if_true]
  rfl

theorem makeRoom_of_some (hnext : q.nextOf q.currentIndex = some c) : q.makeRoom = .ok q := by
  rw [makeRoom, slot_eq hcur]
  simp only [bind, Except.bind, slotAt, hnext, reduceCtorEq, if_false]

theorem advance_of_some (hnext : q.nextOf q.currentIndex = some c) (hc : c < q.reserved) :
    q.advance =
      if q.activeAt c = true then .error .assertion else .ok { q with currentIndex := c } := by
  rw [advance, slot_eq hcur]
  simp only [bind, Except.bind, slotAt, hnext, slot_eq hc]

/-- The slot behind the current one is filled, unless it is active. -/
theorem push_of_next (hactive : q.activeAt q.currentIndex = true)
    (hnext : q.nextOf q.currentIndex = some c) (hc : c < q.reserved) (v : T) :
    q.push v = if q.activeAt c = true then .error .assertion else .ok (q.filled c v) := by
  rw [push_of_active hcur hactive, makeRoom_of_some hcur hnext, Except.bind,
    advance_of_some hcur hnext hc]
  split_ifs
  · rfl
  · exact fill_eq hc

end

namespace Chained

theorem blank : (blank : ContiguousQueue T).Chained [] [] :=
  ⟨rfl, List.nodup_nil, fun i => by simp [ContiguousQueue.blank, reserved],
    fun i => by simp [ContiguousQueue.blank, activeAt], rfl, .inr ⟨rfl, rfl⟩, fun _ => rfl⟩

theorem start_eq (h : q.Chained used free) : q.start = (used ++ free).head? := h.segment.eq_head?

theorem activeSlots_eq (h : q.Chained used free) : q.activeSlots = used := by
  rw [activeSlots, h.count]
  exact h.segment.walk_eq

theorem lt_of_mem_used (h : q.Chained used free) (hi : i ∈ used) : i < q.reserved :=
  (h.mem_iff i).1 (List.mem_append_left _ hi)

theorem lt_of_mem_free (h : q.Chained used free) (hi : i ∈ free) : i < q.reserved :=
  (h.mem_iff i).1 (List.mem_append_right _ hi)

theorem not_activeAt_free (h : q.Chained used free) (hc : c ∈ free) : ¬ q.activeAt c = true := by
  rw [h.active_iff]
  exact fun hused => (List.nodup_append.1 h.nodup).2.2 c hused c hc rfl

theorem nextOf_lt (h : q.Chained used free) (hj : q.nextOf i = some j) : j < q.reserved :=
  (h.mem_iff j).1 (h.segment.mem_of_next ((h.mem_iff i).2 (lt_of_nextOf hj)) hj)

theorem reserved_eq_zero (h : q.Chained [] []) : q.reserved = 0 := by
  by_contra hpos
  exact List.not_mem_nil ((h.mem_iff 0).2 (Nat.pos_of_ne_zero hpos))

theorem firstIndex_eq (h : q.Chained used free) (hi : (used ++ free).head? = some i) :
    q.firstIndex = i := by
  have hstart := h.start_eq
  rw [hi, start] at hstart
  split_ifs at hstart
  exact Option.some.inj hstart

theorem getLast?_used (h : q.Chained used free) (hne : used ≠ []) :
    used.getLast? = some q.currentIndex :=
  h.current.resolve_right fun hnil => hne hnil.1

/-- When no slot is in use, the current slot is the first one of the free ones. -/
theorem currentIndex_eq (h : q.Chained [] (c :: free)) : q.currentIndex = c := by
  obtain hlast | ⟨-, hfirst⟩ := h.current
  · cases hlast
  · exact hfirst.trans (h.firstIndex_eq rfl)

theorem firstIndex_lt (h : q.Chained used free) (hpos : 0 < q.reserved) :
    q.firstIndex < q.reserved := by
  have hstart := h.start_eq
  rw [start, if_neg (Nat.ne_of_gt hpos)] at hstart
  exact (h.mem_iff _).1 (List.mem_of_head? hstart.symm)

theorem currentIndex_lt (h : q.Chained used free) (hpos : 0 < q.reserved) :
    q.currentIndex < q.reserved := by
  obtain hlast | ⟨rfl, hfirst⟩ := h.current
  · exact h.lt_of_mem_used (List.mem_of_getLast? hlast)
  · cases free with
    | nil => exact absurd h.reserved_eq_zero (Nat.ne_of_gt hpos)
    | cons c free =>
      rw [h.currentIndex_eq]
      exact h.lt_of_mem_free List.mem_cons_self

theorem nextOf_currentIndex (h : q.Chained used free) (hne : used ≠ []) :
    q.nextOf q.currentIndex = free.head? := by
  obtain ⟨us, hus⟩ := List.getLast?_eq_some_iff.1 (h.getLast?_used hne)
  have hseg := h.segment
  rw [hus, List.append_assoc] at hseg
  exact (Segment.append_cons_iff.1 hseg).2.eq_head?

/-! ### The parts of `push` -/

section

variable [Inhabited T]

/-- The new slots are linked to each other. -/
theorem segment_new (h : q.Chained used []) (hsize : q.reserved < size) :
    Segment (q.joined size).nextOf (some q.reserved)
      (List.range' q.reserved (size - q.reserved)) none := by
  have hrange := segment_range' (q.joined size).nextOf (a := q.reserved)
    (n := size - q.reserved) fun i hi => by
      rw [nextOf_joined h.currentIndex_lt hsize]
      grind
  rwa [if_neg (by omega)] at hrange

theorem segment_old (h : q.Chained used []) (hsize : q.reserved < size) (hne : used ≠ []) :
    Segment (q.joined size).nextOf q.start used (some q.reserved) := by
  have hcur := h.currentIndex_lt
  have hnodup := h.nodup
  have hold := h.segment
  rw [List.append_nil] at hnodup hold
  obtain ⟨us, rfl⟩ := List.getLast?_eq_some_iff.1 (h.getLast?_used hne)
  have hlt : ∀ i ∈ us ++ [q.currentIndex], i < q.reserved := fun i hi => h.lt_of_mem_used hi
  have hlast : (q.joined size).nextOf q.currentIndex = some q.reserved := by
    rw [nextOf_joined hcur hsize, if_pos (hlt _ (by simp)), if_pos rfl]
  rw [← hlast]
  refine hold.redirect fun i hi => ?_
  have hother : i ≠ q.currentIndex := (List.nodup_append.1 hnodup).2.2 i hi _ (by simp)
  rw [nextOf_joined hcur hsize, if_pos (hlt i (by simp [hi])), if_neg hother]

theorem segment_joined (h : q.Chained used []) (hsize : q.reserved < size) :
    Segment (q.joined size).nextOf (q.joined size).start
      (used ++ List.range' q.reserved (size - q.reserved)) none := by
  have hres : (q.joined size).reserved ≠ 0 := by
    rw [reserved_joined (Nat.le_of_lt hsize)]
    exact Nat.ne_zero_of_lt hsize
  have hnew := h.segment_new hsize
  rw [start, if_neg hres, firstIndex_joined]
  by_cases hne : used = []
  · subst hne
    have hzero := h.reserved_eq_zero
    rw [h.unallocated hzero]
    rwa [hzero] at hnew ⊢
  · refine Segment.append_iff.2 ⟨some q.reserved, ?_, hnew⟩
    obtain ⟨i, hi⟩ := List.exists_mem_of_ne_nil used hne
    have hstart : q.start = some q.firstIndex :=
      if_neg (Nat.ne_zero_of_lt (h.lt_of_mem_used hi))
    exact hstart ▸ h.segment_old hsize hne

/-- The new slots are free. -/
theorem joined (h : q.Chained used []) (hsize : q.reserved < size) :
    (q.joined size).Chained used (List.range' q.reserved (size - q.reserved)) := by
  have hres : (q.joined size).reserved = size := reserved_joined (Nat.le_of_lt hsize)
  refine ⟨h.segment_joined hsize, ?_, fun i => ?_, fun i => ?_, ?_, ?_, fun hzero => by omega⟩
  · have hnodup := h.nodup
    rw [List.append_nil] at hnodup
    refine List.nodup_append.2 ⟨hnodup, List.nodup_range', fun i hi j hj => ?_⟩
    have := h.lt_of_mem_used hi
    have := (List.mem_range'_1.1 hj).1
    omega
  · have hold := h.mem_iff i
    rw [List.append_nil] at hold
    rw [List.mem_append, hold, List.mem_range'_1, hres]
    omega
  · rw [activeAt_joined h.currentIndex_lt hsize]
    exact h.active_iff i
  · rw [activeCount_joined]
    exact h.count
  · rw [currentIndex_joined, firstIndex_joined]
    exact h.current

theorem filled (h : q.Chained used (c :: free)) : (q.filled c v).Chained (used ++ [c]) free := by
  have hc : c < q.reserved := h.lt_of_mem_free List.mem_cons_self
  have hsplit : used ++ [c] ++ free = used ++ c :: free := by simp
  have hres : (q.filled c v).reserved = q.reserved := reserved_update
  have hstart : (q.filled c v).start = q.start := by
    rw [start, start, hres]
    rfl
  refine ⟨?_, hsplit ▸ h.nodup, fun i => ?_, fun i => ?_, ?_, ?_, fun hzero => ?_⟩
  · rw [hsplit, hstart]
    exact h.segment.congr fun i _ => nextOf_filled hc
  · rw [hsplit, hres]
    exact h.mem_iff i
  · rw [activeAt_filled hc, List.mem_append, List.mem_singleton, ← h.active_iff i]
    split_ifs with hi <;> simp [hi]
  · rw [List.length_append]
    simp [ContiguousQueue.filled, h.count]
  · exact .inl List.getLast?_concat
  · exact h.unallocated (hres ▸ hzero)

theorem resize_of_empty (h : q.Chained [] []) (hpos : 0 < size) (hmax : size ≤ intMax) :
    q.resize size = .ok (q.joined size) := by
  have hzero : q.reserved = 0 := h.reserved_eq_zero
  have hempty : q.queued = [] := List.length_eq_zero_iff.1 hzero
  rw [resize, if_neg (by rw [hempty]; exact Nat.not_le_of_lt hpos), if_pos (by rw [hempty]; rfl)]
  exact enlarge_eq h.currentIndex_lt (by omega) hmax

/-- When all elements have been popped, or none was ever pushed, the first slot is filled. -/
theorem push_of_unused {q' : ContiguousQueue T} (hready : q.ready = .ok q')
    (h : q'.Chained [] (c :: free)) (v : T) : q.push v = .ok (q'.filled c v) := by
  have hc : q'.currentIndex = c := h.currentIndex_eq
  rw [push_of_inactive hready (hc ▸ h.lt_of_mem_free List.mem_cons_self)
    (hc ▸ h.not_activeAt_free List.mem_cons_self), hc]

/-- `push` fills the first free slot, which is a new one if there was none. -/
theorem push_eq (h : q.Chained used free) (hroom : q.MayPush) (v : T) :
    ∃ q' c free', q'.Chained used (c :: free') ∧ q.Grown free q' ∧
      q.push v = .ok (q'.filled c v) := by
  by_cases hne : used = []
  · subst hne
    cases free with
    | nil =>
      -- the vector is empty
      have hzero : q.reserved = 0 := h.reserved_eq_zero
      have hsize : q.reserved < initialQueueSize := by rw [hzero]; decide
      have hjoined := h.joined hsize
      rw [hzero] at hjoined
      have hready : q.ready = .ok (q.joined initialQueueSize) := by
        rw [ready, if_pos (by rw [List.length_eq_zero_iff.1 hzero]; rfl)]
        exact h.resize_of_empty (by decide) (by decide)
      exact ⟨_, 0, _, hjoined, .inr ⟨rfl, _, hsize, rfl⟩, push_of_unused hready hjoined v⟩
    | cons c free =>
      have hc : c < q.reserved := h.lt_of_mem_free List.mem_cons_self
      exact ⟨q, c, free, h, .inl rfl, push_of_unused (ready_eq hc) h v⟩
  · have hmem : q.currentIndex ∈ used := List.mem_of_getLast? (h.getLast?_used hne)
    have hcur : q.currentIndex < q.reserved := h.lt_of_mem_used hmem
    have hactive : q.activeAt q.currentIndex = true := (h.active_iff _).2 hmem
    cases free with
    | nil =>
      have hnone : q.nextOf q.currentIndex = none := h.nextOf_currentIndex hne
      have hsize : q.reserved < q.reserved * 2 := by omega
      have hjoined := h.joined hsize
      obtain ⟨c, free', hfree⟩ := List.exists_cons_of_ne_nil
        (l := List.range' q.reserved (q.reserved * 2 - q.reserved)) (by simp; omega)
      rw [hfree] at hjoined
      have hc : c < (q.joined (q.reserved * 2)).reserved :=
        hjoined.lt_of_mem_free List.mem_cons_self
      refine ⟨q.joined _, c, free', hjoined, .inr ⟨rfl, _, hsize, rfl⟩, ?_⟩
      rw [push_of_active hcur hactive, makeRoom_of_none hcur hnone,
        enlarge_eq (fun _ => hcur) hsize (hroom hactive hnone), Except.bind,
        advance_of_some (hjoined.currentIndex_lt (Nat.zero_lt_of_lt hc))
          (hjoined.nextOf_currentIndex hne) hc,
        if_neg (hjoined.not_activeAt_free List.mem_cons_self)]
      exact fill_eq hc
    | cons c free =>
      have hc : c < q.reserved := h.lt_of_mem_free List.mem_cons_self
      refine ⟨q, c, free, h, .inl rfl, ?_⟩
      rw [push_of_next hcur hactive (h.nextOf_currentIndex hne) hc,
        if_neg (h.not_activeAt_free List.mem_cons_self)]

/-- The links backwards and the entries of the old slots stay, also the link of the first slot if
there were no slots. -/
theorem grown_eq (h : q.Chained used free) {q' : ContiguousQueue T} (hq' : q.Grown free q') :
    q'.firstIndex = q.firstIndex ∧ q'.lastOf q.firstIndex = q.lastOf q.firstIndex ∧
      ∀ i ∈ used, q'.entryOf i = q.entryOf i := by
  obtain rfl | ⟨rfl, size, hsize, rfl⟩ := hq'
  · exact ⟨rfl, rfl, fun _ _ => rfl⟩
  · have hcur := h.currentIndex_lt
    refine ⟨firstIndex_joined, ?_, fun i hi => entryOf_joined hcur hsize (h.lt_of_mem_used hi)⟩
    rw [lastOf_joined hcur hsize]
    by_cases hzero : q.reserved = 0
    · have hnone : q.lastOf 0 = none := Option.eq_none_iff_forall_ne_some.2 fun j hj =>
        absurd (lt_of_lastOf hj) (by omega)
      simp [hzero, h.unallocated hzero, hnone]
    · rw [if_pos (h.firstIndex_lt (Nat.pos_of_ne_zero hzero))]

theorem exists_ofSize (hsize : size ≤ intMax) : ∃ (q' : ContiguousQueue T) (free : List ℕ),
    ofSize size = .ok q' ∧ q'.Chained [] free ∧ ContiguousQueue.blank.Grown [] q' := by
  by_cases hzero : size = 0
  · subst hzero
    exact ⟨_, [], rfl, blank, .inl rfl⟩
  · have hpos : 0 < size := Nat.pos_of_ne_zero hzero
    exact ⟨_, _, blank.resize_of_empty hpos hsize, blank.joined hpos, .inr ⟨rfl, size, hpos, rfl⟩⟩

/-- After `push` the filled slot has the value, and the entries of the others stay. -/
theorem entryOf_push (h : q.Chained used free) {q' : ContiguousQueue T} (hq' : q.Grown free q')
    (hc : q'.Chained used (c :: vs)) :
    (q'.filled c v).entryOf c = v ∧ ∀ i ∈ used, (q'.filled c v).entryOf i = q.entryOf i := by
  have hlt : c < q'.reserved := hc.lt_of_mem_free List.mem_cons_self
  refine ⟨(entryOf_filled hlt).trans (if_pos rfl), fun i hi => ?_⟩
  have hne : i ≠ c := by
    rintro rfl
    exact (List.nodup_append.1 hc.nodup).2.2 i hi i List.mem_cons_self rfl
  rw [entryOf_filled hlt, if_neg hne, (h.grown_eq hq').2.2 i hi]

/-! ### `remove` -/

omit [Inhabited T] in
theorem inRange (h : q.Chained used free) (hi : i ∈ used)
    (hlast : ∀ j, q.lastOf i = some j → j < q.reserved) : q.InRange i where
  removed := h.lt_of_mem_used hi
  current := h.currentIndex_lt (Nat.zero_lt_of_lt (h.lt_of_mem_used hi))
  last := hlast
  next := fun _ => h.nextOf_lt

theorem chooseFirst_eq (h : q.Chained (us ++ i :: vs) free) (hr : q.InRange i)
    (hj : (us ++ vs).head? = some j) :
    (q.relink i).chooseFirst i (q.nextOf i) = .ok (q.removed i j) := by
  have hcells : us ++ i :: vs ++ free = us ++ i :: (vs ++ free) := by simp
  have hused : j ∈ us ++ i :: vs := by
    have := List.mem_of_head? hj
    grind
  have hnodup := h.nodup
  rw [hcells] at hnodup
  have hne : j ≠ i := by
    rintro rfl
    have := List.mem_of_head? hj
    exact (List.nodup_middle.1 hnodup).notMem (by grind)
  unfold chooseFirst
  cases us with
  | nil =>
    obtain ⟨vs, rfl⟩ : ∃ vs', vs = j :: vs' := List.head?_eq_some_iff.1 hj
    have hfirst : i = q.firstIndex := (h.firstIndex_eq rfl).symm
    have hcount : 0 < (q.relink i).activeCount := by
      rw [activeCount_relink, h.count]
      simp
    have hnext : q.nextOf i = some j := h.segment.2.1
    have hactive : (q.relink i).activeAt j = true := by
      rw [activeAt_relink hr, if_neg hne]
      exact (h.active_iff j).2 hused
    rw [if_pos (by simpa using hfirst), if_pos hcount, hnext]
    simp only
    rw [slot_eq (by simpa using h.lt_of_mem_used hused)]
    exact if_pos hactive
  | cons u us =>
    obtain rfl : u = j := by simpa using hj
    have hfirst : q.firstIndex = u := h.firstIndex_eq rfl
    rw [if_neg (by simpa [hfirst] using hne.symm), removed, ← hfirst, ← firstIndex_relink]

omit [Inhabited T] in
theorem chooseFirst_of_one (h : q.Chained [i] free) :
    (q.relink i).chooseFirst i (q.nextOf i) = .ok (q.removed i i) := by
  have hcur : q.currentIndex = i := (Option.some.inj (h.getLast?_used (by simp))).symm
  have hfirst : q.firstIndex = i := h.firstIndex_eq rfl
  have hcount : ¬ 0 < (q.relink i).activeCount := by simp [h.count]
  unfold chooseFirst
  rw [if_pos (by simpa using hfirst.symm), if_neg hcount]
  exact congrArg (fun j => Except.ok (q.removed i j)) (currentIndex_relink.trans hcur)

/-- The links after `remove`: the slot is behind the current one. -/
theorem segment_removed (h : q.Chained (us ++ i :: vs) free) (hr : q.InRange i) (hvs : vs ≠ [])
    (hlast : ∀ k, k ≠ i → (q.lastOf i = some k ↔ us.getLast? = some k)) :
    Segment (q.removed i j).nextOf (us ++ vs).head? (us ++ vs ++ i :: free) none := by
  have hcur : (us ++ i :: vs).getLast? = some q.currentIndex := h.getLast?_used (by simp)
  obtain ⟨ws, rfl⟩ : ∃ ws, vs = ws ++ [q.currentIndex] := by
    refine List.getLast?_eq_some_iff.1 ?_
    rwa [List.getLast?_append_of_ne_nil _ (List.cons_ne_nil _ _),
      List.getLast?_cons_of_ne_nil hvs] at hcur
  have hcells : us ++ i :: (ws ++ [q.currentIndex]) ++ free =
      us ++ i :: (ws ++ q.currentIndex :: free) := by simp
  have hseg := h.segment
  have hnodup := h.nodup
  rw [hcells] at hseg hnodup
  have hne : q.currentIndex ≠ i := by
    intro heq
    exact (List.nodup_middle.1 hnodup).notMem (by simp [heq])
  have hlastne : q.lastOf i ≠ some q.currentIndex := by
    rw [Ne, hlast _ hne]
    intro heq
    have := List.mem_of_getLast? heq
    grind
  have hmoved := hseg.moveBehind (q.removed i j).nextOf hnodup ?_ ?_ ?_ ?_
  · have hcells' : us ++ (ws ++ q.currentIndex :: i :: free) =
        us ++ (ws ++ [q.currentIndex]) ++ i :: free := by simp
    rw [hcells'] at hmoved
    rw [hmoved.eq_head?] at hmoved
    rwa [List.head?_append_of_ne_nil _ (by simp)] at hmoved
  · rw [nextOf_removed hr, if_pos rfl, if_neg hlastne]
  · rw [nextOf_removed hr, if_neg hne, if_pos rfl]
  · intro p hp
    have hpi : p ≠ i := by
      rintro rfl
      have := List.mem_of_getLast? hp
      grind
    have hpc : p ≠ q.currentIndex := by
      rintro rfl
      exact hlastne ((hlast _ hne).2 hp)
    rw [nextOf_removed hr, if_neg hpi, if_neg hpc, if_pos ((hlast p hpi).2 hp)]
  · intro y hyi hyc hy
    rw [nextOf_removed hr, if_neg hyi, if_neg hyc, if_neg (mt (hlast y hyi).1 hy)]

/-- `remove` of a slot before the current one, when the link backwards of the slot is right, or to
itself. -/
theorem remove_eq (h : q.Chained (us ++ i :: vs) free) (hvs : vs ≠ [])
    (hlast : ∀ k, k ≠ i → (q.lastOf i = some k ↔ us.getLast? = some k)) :
    ∃ j, q.remove i = .ok (q.removed i j) ∧ (q.removed i j).Chained (us ++ vs) (i :: free) ∧
      (us ++ vs).head? = some j := by
  have hi : i ∈ us ++ i :: vs := List.mem_append_right _ List.mem_cons_self
  have hr : q.InRange i := h.inRange hi fun k hk => by
    by_cases hki : k = i
    · exact hki ▸ h.lt_of_mem_used hi
    · have hus := List.mem_of_getLast? ((hlast k hki).1 hk)
      exact h.lt_of_mem_used (List.mem_append_left _ hus)
  obtain ⟨j, hj⟩ : ∃ j, (us ++ vs).head? = some j := by
    cases hhead : (us ++ vs).head? with
    | none => simp_all
    | some j => exact ⟨j, rfl⟩
  refine ⟨j, (ContiguousQueue.remove_eq hr).trans (h.chooseFirst_eq hr hj), ?_, hj⟩
  have hcur : (us ++ i :: vs).getLast? = some q.currentIndex := h.getLast?_used (by simp)
  have hpos : q.reserved ≠ 0 := Nat.ne_of_gt (Nat.zero_lt_of_lt hr.removed)
  have hperm : (us ++ vs ++ i :: free).Perm (us ++ i :: vs ++ free) := by
    have hback : (us ++ i :: (vs ++ free)).Perm (i :: (us ++ (vs ++ free))) := List.perm_middle
    exact List.perm_middle.trans (by simpa using hback.symm)
  have hnodup : (us ++ vs ++ i :: free).Nodup := hperm.nodup_iff.2 h.nodup
  refine ⟨?_, hnodup, fun k => ?_, fun k => ?_, ?_, .inl ?_, fun hzero => ?_⟩
  · have hstart : (q.removed i j).start = (us ++ vs).head? := by simp [start, hpos, hj]
    rw [hstart]
    exact h.segment_removed hr hvs hlast
  · rw [hperm.mem_iff, h.mem_iff k, reserved_removed]
  · have hi : i ∉ us ++ vs := fun hi =>
      (List.nodup_append.1 hnodup).2.2 i hi i List.mem_cons_self rfl
    have hk := h.active_iff k
    rw [activeAt_removed hr]
    grind
  · rw [activeCount_removed, h.count]
    simp
    omega
  · rw [List.getLast?_append_of_ne_nil _ hvs, currentIndex_removed]
    rwa [List.getLast?_append_of_ne_nil _ (List.cons_ne_nil _ _),
      List.getLast?_cons_of_ne_nil hvs] at hcur
  · exact absurd (reserved_removed.symm.trans hzero) hpos

/-- `remove` of the only element, when the link backwards of its slot is to no other slot.  The slot
is linked to itself afterwards. -/
theorem drain_eq (h : q.Chained [i] free)
    (hlast : q.lastOf i = none ∨ q.lastOf i = some i) :
    q.remove i = .ok (q.removed i i) ∧ (q.removed i i).Chained [] (i :: free) ∧
      (q.removed i i).lastOf i = some i := by
  have hcur : q.currentIndex = i := (Option.some.inj (h.getLast?_used (by simp))).symm
  have hfirst : q.firstIndex = i := h.firstIndex_eq rfl
  have hi : i < q.reserved := h.lt_of_mem_used List.mem_cons_self
  have hr : q.InRange i := h.inRange List.mem_cons_self fun j hj => by
    obtain hnone | hself := hlast
    · cases hnone.symm.trans hj
    · exact Option.some.inj (hself.symm.trans hj) ▸ hi
  have hpos : q.reserved ≠ 0 := Nat.ne_of_gt (Nat.zero_lt_of_lt hi)
  have hfree : i ∉ free := (List.nodup_cons.1 h.nodup).1
  refine ⟨(ContiguousQueue.remove_eq hr).trans h.chooseFirst_of_one, ?_, ?_⟩
  · refine ⟨?_, h.nodup, fun k => ?_, fun k => ?_, ?_, .inr ⟨rfl, by simpa using hcur⟩,
      fun hzero => ?_⟩
    · have hstart : (q.removed i i).start = q.start := by simp [start, hpos, hfirst]
      rw [hstart]
      refine h.segment.congr fun k _ => ?_
      rw [nextOf_removed hr, hcur]
      grind
    · rw [reserved_removed]
      exact h.mem_iff k
    · have hk := h.active_iff k
      rw [activeAt_removed hr]
      grind
    · simp [h.count]
    · exact absurd (reserved_removed.symm.trans hzero) hpos
  · rw [lastOf_removed hr, if_pos rfl, hcur]

end

end Chained

end ContiguousQueue

end MoonJamRelay
