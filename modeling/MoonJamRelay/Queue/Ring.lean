import MoonJamRelay.Queue.Fifo

/-!
# Removing any element

`removing` is a `ContiguousQueue` of which any element may be removed.

* `Linked` : the chain of slots, with the links backwards the inverse of the links forwards.
* `Linked.joined`, `Linked.filled` : it is kept by `push`.
* `Linked.removed_iff` : it is kept by `remove` exactly when the slot is not the current one and
  there is no slot behind the current one; only then nothing but the removed slot had to be linked
  anew.
* `visits_isKept_iff` : so a run keeps the elements and the links exactly when every `remove` and
  `pop` in it meets this condition.
* `not_isKept` : a run in which the current slot is removed, after which an element is lost.
-/

namespace MoonJamRelay

namespace ContiguousQueue

variable {T : Type*} (q : ContiguousQueue T)

/-- The chain of slots is linked in both directions. -/
structure Linked (used free : List ℕ) : Prop extends q.Chained used free where
  inverse : ∀ i j, q.nextOf i = some j ↔ q.lastOf j = some i

/-- `remove i` has no link to repair but those next to the slot. -/
def MayRemove (i : ℕ) : Prop := i ≠ q.currentIndex ∧ q.nextOf q.currentIndex = none

instance (i : ℕ) : Decidable (q.MayRemove i) := inferInstanceAs (Decidable (_ ∧ _))

/-- What the queue holds, oldest first, with the slots. -/
def elements [Inhabited T] : List (ℕ × T) := q.activeSlots.map fun i => (i, q.entryOf i)

/-- `n` pops, and the values they return. -/
def popTimes (moved : T → T) : ℕ → ContiguousQueue T → Except Fault (List T)
  | 0, _ => .ok []
  | n + 1, q => do
    let (v, q) ← q.pop moved
    let vs ← popTimes moved n q
    return v :: vs

variable {q} {moved : T → T} {used free us vs : List ℕ} {i j k c size : ℕ} {v : T}

namespace Linked

theorem blank : (blank : ContiguousQueue T).Linked [] [] :=
  ⟨Chained.blank, fun i j => by simp [ContiguousQueue.blank, nextOf, lastOf]⟩

theorem lastOf_firstIndex (h : q.Linked used free) : q.lastOf q.firstIndex = none := by
  refine Option.eq_none_iff_forall_ne_some.2 fun k hk => ?_
  have hnext : q.nextOf k = some q.firstIndex := (h.inverse k _).2 hk
  have hlt : k < q.reserved := lt_of_nextOf hnext
  have hmem := (h.mem_iff k).2 hlt
  have hhead := h.start_eq
  rw [start, if_neg (by omega)] at hhead
  obtain ⟨cells, hcells⟩ := List.head?_eq_some_iff.1 hhead.symm
  have hseg := h.segment
  have hnodup := h.nodup
  rw [hcells] at hseg hnodup hmem
  exact hseg.next_ne_head hmem hnodup hnext

theorem lastOf_eq (h : q.Linked (us ++ i :: vs) free) : q.lastOf i = us.getLast? := by
  rcases List.eq_nil_or_concat' us with rfl | ⟨us, p, rfl⟩
  · rw [← h.firstIndex_eq (i := i) rfl]
    exact h.lastOf_firstIndex
  · have hseg := h.segment
    simp only [List.append_assoc, List.singleton_append] at hseg
    rw [List.getLast?_concat, ← h.inverse]
    exact (Segment.append_cons_iff.1 hseg).2.1

theorem nextOf_eq_none (h : q.Linked used []) (hpos : 0 < q.reserved) :
    q.nextOf q.currentIndex = none := by
  refine h.nextOf_currentIndex fun hnil => ?_
  subst hnil
  exact absurd h.reserved_eq_zero (Nat.ne_of_gt hpos)

theorem inRange (h : q.Linked used free) (hi : i ∈ used) : q.InRange i :=
  h.toChained.inRange hi fun j hj => lt_of_nextOf ((h.inverse j i).2 hj)

end Linked

section

variable [Inhabited T]

/-- `push` fails if there is no slot behind the current one and twice as many cannot be counted. -/
theorem push_eq_overflow (hroom : ¬ q.MayPush) (v : T) :
    q.push v = .error .overflow := by
  simp only [MayPush, Classical.not_imp] at hroom
  obtain ⟨hactive, hnone, hmax⟩ := hroom
  have hcur : q.currentIndex < q.reserved := lt_of_activeAt hactive
  rw [push_of_active hcur hactive, makeRoom_of_none hcur hnone, enlarge, if_neg hmax]
  rfl

/-- Whatever the links are, a `remove` that succeeds only has the choice of the first slot left. -/
theorem exists_removed (hr : q.InRange i) {q' : ContiguousQueue T} (h : q.remove i = .ok q') :
    ∃ j, q' = q.removed i j := by
  rw [remove_eq hr] at h
  unfold chooseFirst at h
  split_ifs at h
  · cases hnext : q.nextOf i with
    | none =>
      rw [hnext] at h
      cases h
    | some j =>
      rw [hnext] at h
      simp only at h
      rw [slot_eq (by simpa using hr.next j hnext)] at h
      simp only [bind, Except.bind] at h
      split_ifs at h
      exact ⟨j, (Except.ok.inj h).symm⟩
  · exact ⟨_, (Except.ok.inj h).symm⟩
  · exact ⟨q.firstIndex, (Except.ok.inj h).symm.trans (by rw [removed, ← firstIndex_relink])⟩

namespace Linked

theorem inverse_joined (h : q.Linked used []) (hsize : q.reserved < size) (i j : ℕ) :
    (q.joined size).nextOf i = some j ↔ (q.joined size).lastOf j = some i := by
  have hcur := h.currentIndex_lt
  have hinverse := h.inverse i j
  have hlt : q.nextOf i = some j → i < q.reserved ∧ j < q.reserved := fun hij =>
    ⟨lt_of_nextOf hij, h.nextOf_lt hij⟩
  have hnone := h.nextOf_eq_none
  rw [nextOf_joined hcur hsize, lastOf_joined hcur hsize]
  grind

theorem grown (h : q.Linked used free) {q' : ContiguousQueue T} (hc : q'.Chained used vs)
    (hgrown : q.Grown free q') : q'.Linked used vs := by
  refine ⟨hc, ?_⟩
  obtain rfl | ⟨rfl, size, hsize, rfl⟩ := hgrown
  · exact h.inverse
  · exact h.inverse_joined hsize

theorem filled (h : q.Linked used (c :: free)) : (q.filled c v).Linked (used ++ [c]) free where
  toChained := h.toChained.filled
  inverse := fun i j => by
    have hc : c < q.reserved := h.lt_of_mem_free List.mem_cons_self
    rw [nextOf_filled hc, lastOf_filled hc]
    exact h.inverse i j

theorem exists_push (h : q.Linked used free) (hroom : q.MayPush) (v : T) :
    ∃ q' free', q.push v = .ok q' ∧ q'.Linked (used ++ [q'.currentIndex]) free' ∧
      q'.entryOf q'.currentIndex = v ∧ ∀ i ∈ used, q'.entryOf i = q.entryOf i := by
  obtain ⟨q', c, free', hc', hgrown, hpush⟩ := h.toChained.push_eq hroom v
  have hlinked : q'.Linked used (c :: free') := h.grown hc' hgrown
  exact ⟨_, free', hpush, hlinked.filled, h.entryOf_push hgrown hc'⟩

/-- The links are again inverse to each other exactly if `remove` had only those next to the slot to
repair. -/
theorem inverse_removed_iff (h : q.Linked used free) (hi : i ∈ used) :
    (∀ j k, (q.removed i c).nextOf j = some k ↔ (q.removed i c).lastOf k = some j) ↔
      q.MayRemove i := by
  have hr := h.inRange hi
  have hself : ∀ k, q.nextOf k ≠ some k := fun k hk =>
    h.segment.next_ne_self ((h.mem_iff k).2 (lt_of_nextOf hk)) h.nodup hk
  have hne_nil : used ≠ [] := List.ne_nil_of_mem hi
  have hbehind : q.nextOf q.currentIndex ≠ some i := by
    rw [h.nextOf_currentIndex hne_nil]
    exact fun hhead => (List.nodup_append.1 h.nodup).2.2 i hi i (List.mem_of_head? hhead) rfl
  have hcur := h.inverse q.currentIndex i
  constructor
  · intro hinv
    have hne : i ≠ q.currentIndex := by
      -- the current slot would be linked to itself
      rintro rfl
      have hback := (hinv q.currentIndex q.currentIndex).2
      rw [lastOf_removed hr, nextOf_removed hr] at hback
      have := hself q.currentIndex
      grind
    refine ⟨hne, Option.eq_none_iff_forall_ne_some.2 fun o ho => ?_⟩
    -- the slot behind the current one would still be linked to it
    have hahead := (hinv i o).1
    rw [lastOf_removed hr, nextOf_removed hr] at hahead
    have hcuro := h.inverse q.currentIndex o
    have hio := h.inverse i o
    grind
  · rintro ⟨hne, hnone⟩ j k
    have hjk := h.inverse j k
    have hik := h.inverse i k
    have hji := h.inverse j i
    have hcurk := h.inverse q.currentIndex k
    have hii := hself i
    rw [lastOf_removed hr, nextOf_removed hr]
    grind

/-- `remove` of any element, when it has no other links to repair: the others stay as they were. -/
theorem exists_remove (h : q.Linked (us ++ i :: vs) free) (hmay : q.MayRemove i) :
    ∃ q', q.remove i = .ok q' ∧ q'.Linked (us ++ vs) (i :: free) ∧
      ∀ k, q'.entryOf k = q.entryOf k := by
  have hi : i ∈ us ++ i :: vs := List.mem_append_right _ List.mem_cons_self
  have hvs : vs ≠ [] := by
    rintro rfl
    have hlast := h.getLast?_used (List.ne_nil_of_mem hi)
    rw [List.getLast?_concat] at hlast
    exact hmay.1 (Option.some.inj hlast)
  obtain ⟨j, hremove, hc, -⟩ := h.toChained.remove_eq hvs fun k _ => by rw [h.lastOf_eq]
  exact ⟨_, hremove, ⟨hc, (h.inverse_removed_iff hi).2 hmay⟩,
    fun k => entryOf_removed (h.inRange hi)⟩

/-- When `remove` has other links to repair, they are wrong afterwards. -/
theorem mayRemove_of_linked (h : q.Linked used free) (hi : i ∈ used) {q' : ContiguousQueue T}
    (hremove : q.remove i = .ok q') {used' free' : List ℕ} (h' : q'.Linked used' free') :
    q.MayRemove i := by
  obtain ⟨j, rfl⟩ := exists_removed (h.inRange hi) hremove
  exact (h.inverse_removed_iff hi).1 h'.inverse

theorem movedOut (h : q.Linked used free) (hi : i < q.reserved) :
    (q.movedOut moved i).Linked used free where
  toChained := h.toChained.movedOut hi
  inverse := fun j k => by
    rw [nextOf_movedOut hi, lastOf_movedOut hi]
    exact h.inverse j k

theorem holds (h : q.Linked used free) : q.Holds (used.map q.entryOf) :=
  ⟨used, free, h.toChained, .inl h.lastOf_firstIndex, rfl⟩

end Linked

theorem ofSize_eq_overflow (hsize : intMax < size) :
    ofSize size = (.error .overflow : Except Fault (ContiguousQueue T)) := by
  have hpos : ¬ size ≤ (blank : ContiguousQueue T).queued.length :=
    Nat.not_le_of_lt (Nat.zero_lt_of_lt hsize)
  have hempty : (blank : ContiguousQueue T).queued.isEmpty = true := rfl
  rw [ofSize, resize, if_neg hpos, if_pos hempty, enlarge, if_neg (Nat.not_le_of_lt hsize)]

/-- A queue whose first slot has no link backwards can be emptied. -/
theorem Holds.popTimes_eq {vs : List T} (h : q.Holds vs)
    (hlast : vs ≠ [] → q.lastOf q.firstIndex = none) (moved : T → T) :
    popTimes moved vs.length q = .ok vs := by
  induction vs generalizing q with
  | nil => rfl
  | cons v vs ih =>
    obtain ⟨q', hpop, hholds, hlast'⟩ :=
      h.exists_pop (.inr (hlast (List.cons_ne_nil v vs))) moved
    simp only [List.length_cons, popTimes, hpop, bind, Except.bind, ih hholds hlast']
    rfl

end

end ContiguousQueue

/-! ### The machine -/

/-- What is called next. -/
inductive RemovalCall (T : Type*) where
  | push (value : T)
  | pop
  | remove (index : ℕ)

/-- A queue, and the elements it should hold, oldest first: the values that were pushed and neither
popped nor removed, and the slots they were put in. -/
structure RemovalWorld (T : Type*) where
  queue : ContiguousQueue T
  /-- Why the last call failed. -/
  fault : Option Fault
  held : List (ℕ × T)
  deriving DecidableEq

namespace RemovalWorld

variable {T : Type*} [Inhabited T] (moved : T → T) (w : RemovalWorld T)

/-- The constructor is called. -/
def ofSize (size : ℕ) : RemovalWorld T :=
  match ContiguousQueue.ofSize size with
  | .ok q => ⟨q, none, []⟩
  | .error e => ⟨.blank, some e, []⟩

/-- `push` is called. -/
def push (value : T) : RemovalWorld T :=
  match w.queue.push value with
  | .ok q => ⟨q, none, w.held ++ [(q.currentIndex, value)]⟩
  | .error e => { w with fault := some e }

/-- `pop` is called. -/
def pop : RemovalWorld T :=
  match w.queue.pop moved with
  | .ok (_, q) => ⟨q, none, w.held.tail⟩
  | .error e => { w with fault := some e }

/-- `remove` is called. -/
def remove (index : ℕ) : RemovalWorld T :=
  match w.queue.remove index with
  | .ok q => ⟨q, none, w.held.filter fun e => e.1 ≠ index⟩
  | .error e => { w with fault := some e }

/-- After a fault nothing is called; `pop` is called only if there are elements, `remove` only with
a slot that is active. -/
def next : RemovalCall T → Option (RemovalWorld T)
  | .push value => if w.fault = none then some (w.push value) else none
  | .pop => if w.fault = none ∧ w.held ≠ [] then some (w.pop moved) else none
  | .remove index =>
    if w.fault = none ∧ w.queue.activeAt index = true then some (w.remove index) else none

/-- The elements are kept: no call has failed, the slots form a chain that is linked in both
directions and begins with those that are active, these hold the elements, and popping everything
returns their values. -/
structure IsKept : Prop where
  noFault : w.fault = none
  linked : ∃ used free, w.queue.Linked used free
  elements : w.queue.elements = w.held
  drains : ContiguousQueue.popTimes moved w.held.length w.queue = .ok (w.held.map Prod.snd)

/-- The call has no links to repair but those next to the slot, and needs no more slots than an
`int` can count. -/
def Repairs : RemovalCall T → Prop
  | .push _ => w.queue.MayPush
  | .pop => w.queue.MayRemove w.queue.firstIndex
  | .remove index => w.queue.MayRemove index

instance : ∀ c, Decidable (w.Repairs c)
  | .push _ => inferInstanceAs (Decidable w.queue.MayPush)
  | .pop => inferInstanceAs (Decidable (w.queue.MayRemove _))
  | .remove _ => inferInstanceAs (Decidable (w.queue.MayRemove _))

end RemovalWorld

/-- A queue of the initial size, of which elements are pushed, popped and removed. -/
def removing {T : Type*} [Inhabited T] (moved : T → T) (size : ℕ) :
    Machine (RemovalWorld T) (RemovalCall T) where
  init := .ofSize size
  next w := w.next moved

namespace RemovalWorld

variable {T : Type*} [Inhabited T] {moved : T → T} {w w' : RemovalWorld T} {c : RemovalCall T}

/-- The slots `used` hold the elements. -/
def Uses (w : RemovalWorld T) (used free : List ℕ) : Prop :=
  w.fault = none ∧ w.queue.Linked used free ∧ used.map (fun i => (i, w.queue.entryOf i)) = w.held

theorem Uses.isKept {used free : List ℕ} (h : w.Uses used free) : w.IsKept moved := by
  obtain ⟨hfault, hlinked, hheld⟩ := h
  refine ⟨hfault, ⟨used, free, hlinked⟩, ?_, ?_⟩
  · rw [ContiguousQueue.elements, hlinked.activeSlots_eq, hheld]
  · have hvalues : w.held.map Prod.snd = used.map w.queue.entryOf := by
      rw [← hheld, List.map_map]
      rfl
    have hdrain := hlinked.holds.popTimes_eq (fun _ => hlinked.lastOf_firstIndex) moved
    rwa [← hvalues, List.length_map] at hdrain

theorem IsKept.uses (h : w.IsKept moved) : ∃ used free, w.Uses used free := by
  obtain ⟨used, free, hlinked⟩ := h.linked
  refine ⟨used, free, h.noFault, hlinked, ?_⟩
  rw [← h.elements, ContiguousQueue.elements, hlinked.activeSlots_eq]

theorem uses_ofSize {size : ℕ} (hsize : size ≤ intMax) :
    ∃ used free, (ofSize size : RemovalWorld T).Uses used free := by
  obtain ⟨q, free, hq, hc, hgrown⟩ := ContiguousQueue.Chained.exists_ofSize (T := T) hsize
  rw [ofSize, hq]
  exact ⟨[], free, rfl, ContiguousQueue.Linked.blank.grown hc hgrown, rfl⟩

omit [Inhabited T] in
theorem filter_slots {us vs : List ℕ} {i : ℕ} (hnodup : (us ++ i :: vs).Nodup) (f : ℕ → T) :
    ((us ++ i :: vs).map fun k => (k, f k)).filter (fun e => e.1 ≠ i) =
      (us ++ vs).map fun k => (k, f k) := by
  have hi : i ∉ us ++ vs := (List.nodup_middle.1 hnodup).notMem
  rw [List.filter_map, List.filter_append, List.filter_cons_of_neg (by simp), ← List.filter_append,
    List.filter_eq_self.2]
  intro k hk
  have hne : k ≠ i := by
    rintro rfl
    exact hi hk
  simpa using hne

/-- A `push`: the elements are kept unless there are too many. -/
theorem isKept_push_iff (h : w.IsKept moved) (v : T) :
    (w.push v).IsKept moved ↔ w.queue.MayPush := by
  obtain ⟨used, free, hfault, hlinked, hheld⟩ := h.uses
  constructor
  · intro h'
    by_contra hroom
    have hno := h'.noFault
    rw [push, ContiguousQueue.push_eq_overflow hroom] at hno
    cases hno
  · intro hroom
    obtain ⟨q', free', hpush, hlinked', hentry, hold⟩ := hlinked.exists_push hroom v
    rw [push, hpush]
    refine Uses.isKept ⟨rfl, hlinked', ?_⟩
    rw [List.map_append, List.map_singleton, hentry, ← hheld]
    exact congrArg (· ++ _) (List.map_congr_left fun i hi => by rw [hold i hi])

theorem isKept_remove_iff (h : w.IsKept moved) {i : ℕ} (hi : w.queue.activeAt i = true) :
    (w.remove i).IsKept moved ↔ w.queue.MayRemove i := by
  obtain ⟨used, free, hfault, hlinked, hheld⟩ := h.uses
  have hmem : i ∈ used := (hlinked.active_iff i).1 hi
  constructor
  · intro h'
    cases hremove : w.queue.remove i with
    | ok q' =>
      rw [remove, hremove] at h'
      obtain ⟨used', free', hlinked'⟩ := h'.linked
      exact hlinked.mayRemove_of_linked hmem hremove hlinked'
    | error e =>
      have hno := h'.noFault
      rw [remove, hremove] at hno
      cases hno
  · intro hmay
    obtain ⟨us, vs, rfl⟩ := List.append_of_mem hmem
    obtain ⟨q', hremove, hlinked', hentry⟩ := hlinked.exists_remove hmay
    rw [remove, hremove]
    refine Uses.isKept ⟨rfl, hlinked', ?_⟩
    have hnodup := (List.nodup_append.1 hlinked.nodup).1
    simp only [← hheld, hentry, filter_slots hnodup]

theorem isKept_pop_iff (h : w.IsKept moved) (hne : w.held ≠ []) :
    (w.pop moved).IsKept moved ↔ w.queue.MayRemove w.queue.firstIndex := by
  obtain ⟨used, free, hfault, hlinked, hheld⟩ := h.uses
  obtain ⟨i, used, rfl⟩ : ∃ i used', used = i :: used' := by
    refine List.exists_cons_of_ne_nil ?_
    rintro rfl
    exact hne hheld.symm
  have hi : i < w.queue.reserved := hlinked.lt_of_mem_used List.mem_cons_self
  have hfirst : w.queue.firstIndex = i := hlinked.firstIndex_eq rfl
  have hmoved : (w.queue.movedOut moved i).Linked ([] ++ i :: used) free := hlinked.movedOut hi
  have hmay : (w.queue.movedOut moved i).MayRemove i ↔ w.queue.MayRemove i := by
    unfold ContiguousQueue.MayRemove
    rw [ContiguousQueue.nextOf_movedOut hi]
    rfl
  have hpop : w.queue.pop moved = _ := ContiguousQueue.pop_eq hi hfirst
  rw [hfirst, ← hmay]
  constructor
  · intro h'
    cases hremove : (w.queue.movedOut moved i).remove i with
    | ok q' =>
      rw [hremove] at hpop
      rw [pop, hpop] at h'
      obtain ⟨used', free', hlinked'⟩ := h'.linked
      exact hmoved.mayRemove_of_linked List.mem_cons_self hremove hlinked'
    | error e =>
      have hno := h'.noFault
      rw [hremove] at hpop
      rw [pop, hpop] at hno
      cases hno
  · intro hmay
    obtain ⟨q', hremove, hlinked', hentry⟩ := hmoved.exists_remove hmay
    rw [hremove] at hpop
    rw [pop, hpop]
    refine Uses.isKept ⟨rfl, hlinked', ?_⟩
    rw [← hheld]
    refine List.map_congr_left fun k hk => ?_
    have hki : k ≠ i := by
      rintro rfl
      exact (List.nodup_cons.1 hlinked.nodup).1 (List.mem_append_left _ hk)
    change (k, q'.entryOf k) = _
    rw [hentry, ContiguousQueue.entryOf_movedOut hi hki]

/-- A step keeps the elements exactly if the call has no other links to repair. -/
theorem isKept_next_iff (h : w.IsKept moved) (hst : w.next moved c = some w') :
    w'.IsKept moved ↔ w.Repairs c := by
  cases c with
  | push v =>
    rw [next, if_pos h.noFault] at hst
    obtain rfl := Option.some.inj hst
    exact isKept_push_iff h v
  | pop =>
    rw [next] at hst
    split_ifs at hst with hguard
    obtain rfl := Option.some.inj hst
    exact isKept_pop_iff h hguard.2
  | remove i =>
    rw [next] at hst
    split_ifs at hst with hguard
    obtain rfl := Option.some.inj hst
    exact isKept_remove_iff h hguard.2

end RemovalWorld

/-- **Removing any element**, for every initial size and every run of pushes, pops and removes of
elements: in all its states the elements are kept exactly if every pop and every remove in it has
no links to repair but those next to the slot, and the slots can be counted by an `int`. -/
theorem visits_isKept_iff {T : Type*} [Inhabited T] (moved : T → T) (size : ℕ)
    {cs : List (RemovalCall T)} {w : RemovalWorld T}
    (hrun : (removing moved size).run (removing moved size).init cs = some w) :
    (removing moved size).Visits (RemovalWorld.IsKept moved) (removing moved size).init cs ↔
      size ≤ intMax ∧
        (removing moved size).Meets RemovalWorld.Repairs (removing moved size).init cs := by
  have hstep : ∀ s c s', (removing moved size).Reachable s → s.IsKept moved →
      (removing moved size).next s c = some s' → (s'.IsKept moved ↔ s.Repairs c) :=
    fun s c s' _ h hst => RemovalWorld.isKept_next_iff h hst
  by_cases hsize : size ≤ intMax
  · obtain ⟨used, free, huses⟩ := RemovalWorld.uses_ofSize (T := T) hsize
    rw [and_iff_right hsize]
    exact Machine.visits_iff_meets hstep .init huses.isKept hrun
  · refine iff_of_false (fun hvisits => ?_) fun h => hsize h.1
    have hno : (RemovalWorld.ofSize size : RemovalWorld T).fault = none :=
      (Machine.visits_head hvisits).noFault
    rw [RemovalWorld.ofSize, ContiguousQueue.ofSize_eq_overflow (Nat.lt_of_not_le hsize)] at hno
    cases hno

/-- Two pushes fill the storage, and the first element is removed. -/
theorem visits_isKept_of_two :
    (removing id 2).Visits (RemovalWorld.IsKept id) (removing id 2).init
      [.push 1, .push 2, .remove 0, .push 3] := by
  have hrun : ∃ w, ((removing id 2).restrict RemovalWorld.Repairs).run (removing id 2).init
      [.push 1, .push 2, .remove 0, .push 3] = some w :=
    Option.isSome_iff_exists.1 (by decide +kernel)
  obtain ⟨w, hw⟩ := hrun
  obtain ⟨hw, hmeets⟩ := Machine.run_restrict.1 hw
  exact (visits_isKept_iff id 2 hw).2 ⟨by decide, hmeets⟩

/-- The current slot is removed, and lost: a value that is pushed later is put in it. -/
theorem not_isKept :
    ¬ ∀ (size : ℕ) (w : RemovalWorld ℕ), (removing id size).Reachable w → w.IsKept id := by
  intro h
  have hrun : ((removing id 10).run (removing id 10).init [.push 1, .push 2, .push 3, .remove 2,
      .push 4, .pop, .pop]).map RemovalWorld.fault = some (some .assertion) := by
    decide +kernel
  obtain ⟨w, hw, hfault⟩ := Option.map_eq_some_iff.1 hrun
  rw [(h 10 w (.of_run hw)).noFault] at hfault
  cases hfault

end MoonJamRelay
