import MoonJamRelay.Machine.Basic
import MoonJamRelay.Queue.Chain

/-!
# First in, first out

`fifo` is a `ContiguousQueue` of which the elements are pushed and popped, in any order.

* `Holds` : the queue holds certain values, and the link backwards of its first slot is to no other
  slot.  `Holds.exists_push`, `Holds.exists_pop` : `push` and `pop` on such a queue.
* `MayPop` : after a pop has emptied the queue its first slot is linked to itself; a later pop of
  one of several elements follows this link, which `MayPop` excludes.
* `isFifo_of_reachable` : the queue is a FIFO queue in every run without such a pop.
* `not_isFifo` : a run with one, after which a push fails.
* `Stuck` : the third push fails.  `exists_fault_of_not_mayPop` : after any such pop the queue is
  stuck once another element has been popped.
-/

namespace MoonJamRelay

namespace ContiguousQueue

variable {T : Type*} [Inhabited T] (q : ContiguousQueue T)

/-- What the queue holds, oldest first. -/
def values : List T := q.activeSlots.map q.entryOf

/-- A pop follows no link backwards, or takes the only element. -/
def MayPop : Prop := q.size ≤ 1 ∨ q.lastOf q.firstIndex = none

instance : Decidable q.MayPop := inferInstanceAs (Decidable (_ ∨ _))

/-- The queue after the entry of the slot `i` has been moved out. -/
def movedOut (moved : T → T) (i : ℕ) : ContiguousQueue T :=
  q.update i fun e => { e with entry := moved e.entry }

/-- The link backwards of the first slot is to no other slot. -/
def FrontLink : Prop :=
  q.lastOf q.firstIndex = none ∨ q.lastOf q.firstIndex = some q.firstIndex

/-- The queue holds the values `vs`. -/
def Holds (vs : List T) : Prop :=
  ∃ used free, q.Chained used free ∧ q.FrontLink ∧ used.map q.entryOf = vs

variable {q} {moved : T → T} {used free : List ℕ} {i j k : ℕ} {v : T} {vs : List T}

section

variable (hi : i < q.reserved)
include hi

theorem slotAt_movedOut : (q.movedOut moved i).slotAt k =
    if k = i then { q.slotAt i with entry := moved (q.entryOf i) } else q.slotAt k :=
  slotAt_update hi

theorem nextOf_movedOut : (q.movedOut moved i).nextOf k = q.nextOf k := by
  refine (congrArg QueuedEntry.nextIndex (slotAt_movedOut hi)).trans ?_
  grind [slotAt]

theorem lastOf_movedOut : (q.movedOut moved i).lastOf k = q.lastOf k := by
  refine (congrArg QueuedEntry.lastIndex (slotAt_movedOut hi)).trans ?_
  grind [slotAt]

theorem activeAt_movedOut : (q.movedOut moved i).activeAt k = q.activeAt k := by
  refine (congrArg QueuedEntry.active (slotAt_movedOut hi)).trans ?_
  grind [slotAt]

theorem entryOf_movedOut (hk : k ≠ i) : (q.movedOut moved i).entryOf k = q.entryOf k := by
  refine (congrArg QueuedEntry.entry (slotAt_movedOut hi)).trans ?_
  rw [if_neg hk]
  rfl

theorem Chained.movedOut (h : q.Chained used free) : (q.movedOut moved i).Chained used free where
  segment := by
    have hres : (q.movedOut moved i).reserved = q.reserved := reserved_update
    have hstart : (q.movedOut moved i).start = q.start := by
      rw [start, start, hres]
      rfl
    rw [hstart]
    exact h.segment.congr fun k _ => nextOf_movedOut hi
  nodup := h.nodup
  mem_iff := fun k => (h.mem_iff k).trans (by rw [ContiguousQueue.movedOut, reserved_update])
  active_iff := fun k => by
    rw [activeAt_movedOut hi]
    exact h.active_iff k
  count := h.count
  current := h.current
  unallocated := fun hzero => h.unallocated (reserved_update.symm.trans hzero)

/-- `pop` moves the entry of the first slot out and removes it. -/
theorem pop_eq (hfirst : q.firstIndex = i) :
    q.pop moved = ((q.movedOut moved i).remove i).map fun q' => (q.entryOf i, q') := by
  subst hfirst
  rw [pop, slot_eq hi]
  simp only [bind, Except.bind]
  rw [write_eq hi]
  simp only
  cases hremove : (q.movedOut moved q.firstIndex).remove q.firstIndex <;>
  · rw [movedOut] at hremove
    rw [firstIndex_update, hremove]
    rfl

end

/-! ### The operations -/

namespace Holds

theorem values_eq (h : q.Holds vs) : q.values = vs := by
  obtain ⟨used, free, hc, -, rfl⟩ := h
  rw [values, hc.activeSlots_eq]

theorem size_eq (h : q.Holds vs) : q.size = vs.length := by
  obtain ⟨used, free, hc, -, rfl⟩ := h
  rw [List.length_map]
  exact hc.count

theorem next_eq (h : q.Holds (v :: vs)) : q.next = .ok v := by
  obtain ⟨used, free, hc, -, hvs⟩ := h
  cases used with
  | nil => cases hvs
  | cons i used =>
    have hfirst : q.firstIndex = i := hc.firstIndex_eq rfl
    rw [next, hfirst, slot_eq (hc.lt_of_mem_used List.mem_cons_self)]
    exact congrArg _ (List.cons.inj hvs).1

end Holds

theorem exists_ofSize {size : ℕ} (hsize : size ≤ intMax) :
    ∃ q, ofSize (T := T) size = .ok q ∧ q.Holds [] := by
  obtain ⟨q, free, hq, hc, hgrown⟩ := Chained.exists_ofSize (T := T) hsize
  obtain ⟨hfirst, hlast, -⟩ := Chained.blank.grown_eq hgrown
  exact ⟨q, hq, [], free, hc, .inl (by rw [hfirst, hlast]; rfl), rfl⟩

/-- `push` appends its value; it enlarges the storage only when all slots are active. -/
theorem Holds.exists_push (h : q.Holds vs) (hroom : q.MayPush) (v : T) :
    ∃ q', q.push v = .ok q' ∧ q'.Holds (vs ++ [v]) ∧
      (q.reserved < q'.reserved → ∀ i < q.reserved, q.activeAt i = true) := by
  obtain ⟨used, free, hc, hfront, rfl⟩ := h
  obtain ⟨q', c, free', hc', hgrown, hpush⟩ := hc.push_eq hroom v
  have hlt : c < q'.reserved := hc'.lt_of_mem_free List.mem_cons_self
  obtain ⟨hfirst, hlast, -⟩ := hc.grown_eq hgrown
  obtain ⟨hnew, hold⟩ := hc.entryOf_push (v := v) hgrown hc'
  refine ⟨_, hpush, ⟨used ++ [c], free', hc'.filled, ?_, ?_⟩, fun hlarger i hi => ?_⟩
  · rw [FrontLink, firstIndex_filled, lastOf_filled hlt, hfirst, hlast]
    exact hfront
  · rw [List.map_append, List.map_singleton, hnew]
    exact congrArg (· ++ [v]) (List.map_congr_left hold)
  · obtain rfl | ⟨rfl, -⟩ := hgrown
    · exact absurd reserved_filled (Nat.ne_of_gt hlarger)
    · rw [hc.active_iff, ← List.append_nil used, hc.mem_iff]
      exact hi

/-- A push enlarges the storage only when all slots are active. -/
theorem Holds.activeAt_of_push (h : q.Holds vs) {q' : ContiguousQueue T} (hpush : q.push v = .ok q')
    (hlarger : q.reserved < q'.reserved) : ∀ i < q.reserved, q.activeAt i = true := by
  by_cases hroom : q.MayPush
  · obtain ⟨q'', hpush', -, hactive⟩ := h.exists_push hroom v
    obtain rfl := Except.ok.inj (hpush'.symm.trans hpush)
    exact hactive hlarger
  · -- there is no slot behind the current one
    obtain ⟨used, free, hc, -, -⟩ := h
    simp only [MayPush, Classical.not_imp] at hroom
    obtain ⟨hactive, hnone, -⟩ := hroom
    have hfree : free = [] := by
      rw [hc.nextOf_currentIndex (List.ne_nil_of_mem ((hc.active_iff _).1 hactive))] at hnone
      exact List.head?_eq_none_iff.1 hnone
    intro i hi
    rwa [hc.active_iff, ← List.append_nil used, ← hfree, hc.mem_iff]

/-- `pop` of one of several elements.  The new first slot gets the link backwards of the old one. -/
theorem Chained.pop_eq (h : q.Chained (i :: j :: used) free) (hfront : q.FrontLink)
    (moved : T → T) : ∃ q', q.pop moved = .ok (q.entryOf i, q') ∧
      q'.Chained (j :: used) (i :: free) ∧ q'.lastOf j = q.lastOf i ∧
      ∀ k ∈ j :: used, q'.entryOf k = q.entryOf k := by
  have hi : i < q.reserved := h.lt_of_mem_used List.mem_cons_self
  have hfirst : q.firstIndex = i := h.firstIndex_eq rfl
  have hmoved : (q.movedOut moved i).Chained ([] ++ i :: j :: used) free := h.movedOut hi
  have hsame : (q.movedOut moved i).lastOf i = q.lastOf i := lastOf_movedOut hi
  rw [FrontLink, hfirst, ← hsame] at hfront
  have hother : ∀ k, k ≠ i → (q.movedOut moved i).lastOf i ≠ some k := by grind
  have hr : (q.movedOut moved i).InRange i := hmoved.inRange List.mem_cons_self fun k hk => by
    by_cases hki : k = i
    · exact hki ▸ hmoved.lt_of_mem_used List.mem_cons_self
    · exact absurd hk (hother k hki)
  obtain ⟨j', hremove, hc, hj⟩ := hmoved.remove_eq (List.cons_ne_nil j used)
    fun k hk => iff_of_false (hother k hk) (by simp)
  obtain rfl : j = j' := Option.some.inj hj
  have hne : ∀ k ∈ j :: used, k ≠ i := by
    rintro k hk rfl
    exact (List.nodup_cons.1 h.nodup).1 (List.mem_append_left _ hk)
  refine ⟨_, (ContiguousQueue.pop_eq hi hfirst).trans (congrArg _ hremove), hc, ?_, fun k hk => ?_⟩
  · rw [lastOf_removed hr, if_neg (hne j List.mem_cons_self), if_pos hmoved.segment.2.1, hsame]
  · rw [entryOf_removed hr, entryOf_movedOut hi (hne k hk)]

/-- `pop` takes the oldest value.  The first slot has no link backwards then, unless it was the only
value. -/
theorem Holds.exists_pop (h : q.Holds (v :: vs)) (hpop : q.MayPop) (moved : T → T) :
    ∃ q', q.pop moved = .ok (v, q') ∧ q'.Holds vs ∧
      (vs ≠ [] → q'.lastOf q'.firstIndex = none) := by
  obtain ⟨used, free, hc, hfront, hvs⟩ := h
  cases used with
  | nil => cases hvs
  | cons i used =>
    obtain ⟨rfl, rfl⟩ := List.cons.inj hvs
    have hfirst : q.firstIndex = i := hc.firstIndex_eq rfl
    cases used with
    | nil =>
      -- the only element
      have hi : i < q.reserved := hc.lt_of_mem_used List.mem_cons_self
      have hsame : (q.movedOut moved i).lastOf i = q.lastOf i := lastOf_movedOut hi
      rw [FrontLink, hfirst, ← hsame] at hfront
      obtain ⟨hremove, hc', hself⟩ := (hc.movedOut hi).drain_eq hfront
      have hpop : q.pop moved = _ := (pop_eq hi hfirst).trans (congrArg _ hremove)
      exact ⟨_, hpop, ⟨[], _, hc', .inr hself, rfl⟩, fun hne => absurd rfl hne⟩
    | cons j used =>
      obtain ⟨q', hpop', hc', hlast, hentry⟩ := hc.pop_eq hfront moved
      have hnone : q'.lastOf q'.firstIndex = none := by
        rw [hc'.firstIndex_eq rfl, hlast, ← hfirst]
        refine hpop.resolve_left ?_
        rw [size, hc.count, List.length_cons, List.length_cons]
        omega
      exact ⟨q', hpop', ⟨j :: used, _, hc', .inl hnone, List.map_congr_left hentry⟩, fun _ => hnone⟩

/-! ### A link that was not repaired -/

/-- The next two pushes fill the slots `a` and `b`, and the slot behind `b` will be active. -/
structure Stuck (q : ContiguousQueue T) (a b d : ℕ) : Prop where
  push : ∀ v, q.push v = .ok (q.filled a v)
  first : q.nextOf a = some b
  second : q.nextOf b = some d
  ne : b ≠ a
  lt : d < q.reserved
  inactive : ¬ q.activeAt b = true
  active : d = b ∨ q.activeAt d = true

/-- The third push fails. -/
theorem Stuck.push_push {a b d : ℕ} (h : q.Stuck a b d) (u v : T) :
    (q.filled a u).push v = .ok ((q.filled a u).filled b v) ∧
      ∀ x, ((q.filled a u).filled b v).push x = .error .assertion := by
  have ha : a < q.reserved := lt_of_nextOf h.first
  have hb : b < q.reserved := lt_of_nextOf h.second
  have hb' : b < (q.filled a u).reserved := reserved_filled.symm ▸ hb
  have hactive : (q.filled a u).activeAt a = true := (activeAt_filled ha).trans (if_pos rfl)
  have hinactive : ¬ (q.filled a u).activeAt b = true := by
    rw [activeAt_filled ha, if_neg h.ne]
    exact h.inactive
  have hactive' : ((q.filled a u).filled b v).activeAt d = true := by
    rw [activeAt_filled hb', activeAt_filled ha]
    have := h.active
    grind
  constructor
  · rw [push_of_next (q := q.filled a u) (by simpa using ha) hactive
      ((nextOf_filled ha).trans h.first) hb', if_neg hinactive]
  · intro x
    rw [push_of_next (q := (q.filled a u).filled b v) (by simpa using hb)
      ((activeAt_filled hb').trans (if_pos rfl))
      ((nextOf_filled hb').trans ((nextOf_filled ha).trans h.second)) (by simpa using h.lt),
      if_pos hactive']

section

variable (h : q.Chained (j :: used) (i :: free)) (hlast : q.lastOf j = some i)
include h

omit [Inhabited T] in
theorem Chained.ne_of_free : i ≠ j := by
  rintro rfl
  exact h.not_activeAt_free List.mem_cons_self ((h.active_iff i).2 List.mem_cons_self)

include hlast

omit [Inhabited T] in
theorem Chained.inRange_of_free : q.InRange j :=
  h.inRange List.mem_cons_self fun _ hk =>
    Option.some.inj (hlast.symm.trans hk) ▸ h.lt_of_mem_free List.mem_cons_self

/-- The removed slot is linked to the free one, and both are inactive. -/
theorem Chained.removed_of_free (d : ℕ) : (q.removed j d).nextOf j = some i ∧
    ¬ (q.removed j d).activeAt i = true ∧ ¬ (q.removed j d).activeAt j = true := by
  have hr := h.inRange_of_free hlast
  have hbehind : q.nextOf q.currentIndex = some i := h.nextOf_currentIndex (List.cons_ne_nil _ _)
  have hinactive : ¬ q.activeAt i = true := h.not_activeAt_free List.mem_cons_self
  have hcur : i ≠ q.currentIndex := by
    rintro rfl
    exact hinactive ((h.active_iff _).2 (List.mem_of_getLast? (h.getLast?_used (by simp))))
  refine ⟨?_, ?_, ?_⟩
  · rw [nextOf_removed hr, if_pos rfl, hlast, if_neg (by simpa using hcur), hbehind]
  · rwa [activeAt_removed hr, if_neg h.ne_of_free]
  · rw [activeAt_removed hr, if_pos rfl]
    exact Bool.false_ne_true

end

/-- The link backwards of the only element is to a free slot, which is then linked to itself. -/
theorem Chained.stuck_of_one (h : q.Chained [j] (i :: free)) (hlast : q.lastOf j = some i) :
    ∃ q' d, q.remove j = .ok q' ∧ q'.Stuck j i d := by
  have hr := h.inRange_of_free hlast
  obtain ⟨hnext, hinactive, hself⟩ := h.removed_of_free hlast j
  have hcur : q.currentIndex = j := (Option.some.inj (h.getLast?_used (by simp))).symm
  have hcur' : (q.removed j j).currentIndex = j := by simpa using hcur
  have hlt : (q.removed j j).currentIndex < (q.removed j j).reserved := by simpa using hr.current
  have hi : i < (q.removed j j).reserved := by simpa using h.lt_of_mem_free List.mem_cons_self
  refine ⟨_, i, (ContiguousQueue.remove_eq hr).trans h.chooseFirst_of_one, fun v => ?_, hnext, ?_,
    h.ne_of_free, hi, hinactive, .inl rfl⟩
  · rw [push_of_inactive (ready_eq hlt) hlt (hcur'.symm ▸ hself), hcur']
  · rw [nextOf_removed hr, if_neg h.ne_of_free, hcur, if_neg h.ne_of_free, if_pos hlast, ← hcur]
    exact h.nextOf_currentIndex (List.cons_ne_nil _ _)

/-- The link backwards of the first of several elements is to a free slot, which is then linked to
the new first slot. -/
theorem Chained.stuck_of_two (h : q.Chained (j :: k :: used) (i :: free))
    (hlast : q.lastOf j = some i) : ∃ q' d, q.remove j = .ok q' ∧ q'.Stuck j i d := by
  have hr := h.inRange_of_free hlast
  obtain ⟨hnext, hinactive, hself⟩ := h.removed_of_free hlast k
  have hremove : q.remove j = .ok (q.removed j k) :=
    (ContiguousQueue.remove_eq hr).trans (chooseFirst_eq (show q.Chained ([] ++ _) _ from h) hr rfl)
  have hcur : q.currentIndex ∈ k :: used := by
    have hcur := h.getLast?_used (by simp)
    rw [List.getLast?_cons_of_ne_nil (List.cons_ne_nil k used)] at hcur
    exact List.mem_of_getLast? hcur
  have hne : ∀ m ∈ k :: used, m ≠ j := by
    rintro m hm rfl
    exact (List.nodup_cons.1 h.nodup).1 (List.mem_append_left _ hm)
  have hactive : ∀ m ∈ k :: used, (q.removed j k).activeAt m = true := fun m hm => by
    rw [activeAt_removed hr, if_neg (hne m hm)]
    exact (h.active_iff m).2 (List.mem_cons_of_mem _ hm)
  have hicur : i ≠ q.currentIndex := by
    rintro rfl
    exact hinactive (hactive _ hcur)
  have hlt : (q.removed j k).currentIndex < (q.removed j k).reserved := by simpa using hr.current
  have hback : (q.removed j k).nextOf (q.removed j k).currentIndex = some j := by
    rw [nextOf_removed hr, currentIndex_removed, if_neg (hne _ hcur), if_pos rfl]
  have hk : k < (q.removed j k).reserved := lt_of_activeAt (hactive k List.mem_cons_self)
  refine ⟨_, k, hremove, fun v => ?_, hnext, ?_, h.ne_of_free, hk, hinactive,
    .inr (hactive k List.mem_cons_self)⟩
  · rw [push_of_next hlt (by simpa using hactive _ hcur) hback (by simpa using hr.removed),
      if_neg hself]
  · rw [nextOf_removed hr, if_neg h.ne_of_free, if_neg hicur, if_pos hlast]
    exact h.segment.2.1

theorem Chained.exists_stuck (h : q.Chained (j :: used) (i :: free)) (hlast : q.lastOf j = some i) :
    ∃ q' d, q.remove j = .ok q' ∧ q'.Stuck j i d := by
  cases used with
  | nil => exact h.stuck_of_one hlast
  | cons k used => exact h.stuck_of_two hlast

/-- A pop that follows the link of the first slot to itself: the next pop closes the circle. -/
theorem Holds.stuck_of_not_mayPop (h : q.Holds vs) (hpop : ¬ q.MayPop) (moved : T → T) :
    1 < vs.length ∧ ∃ u q₁ v q₂ a b d,
      q.pop moved = .ok (u, q₁) ∧ q₁.pop moved = .ok (v, q₂) ∧ q₂.Stuck a b d := by
  obtain ⟨used, free, hc, hfront, rfl⟩ := h
  simp only [MayPop, not_or, size, hc.count] at hpop
  obtain ⟨hsize, hlast⟩ := hpop
  match used with
  | [] => exact absurd (by simp) hsize
  | [_] => exact absurd (by simp) hsize
  | i :: j :: used =>
    have hself : q.lastOf i = some i := hc.firstIndex_eq rfl ▸ hfront.resolve_left hlast
    obtain ⟨q₁, hpop₁, hc₁, hlast₁, -⟩ := hc.pop_eq hfront moved
    have hj : j < q₁.reserved := hc₁.lt_of_mem_used List.mem_cons_self
    have hmoved : (q₁.movedOut moved j).Chained (j :: used) (i :: free) := hc₁.movedOut hj
    have hlast₂ : (q₁.movedOut moved j).lastOf j = some i :=
      (lastOf_movedOut hj).trans (hlast₁.trans hself)
    obtain ⟨q₂, d, hremove, hstuck⟩ := hmoved.exists_stuck hlast₂
    exact ⟨by simp, _, q₁, _, q₂, j, i, d, hpop₁,
      (pop_eq hj (hc₁.firstIndex_eq rfl)).trans (congrArg _ hremove), hstuck⟩

/-! ### The machine -/

end ContiguousQueue

/-- What is called next. -/
inductive QueueCall (T : Type*) where
  | push (value : T)
  | pop

/-- A queue and the values that were pushed and popped so far. -/
structure QueueWorld (T : Type*) where
  queue : ContiguousQueue T
  /-- Why the last call failed. -/
  fault : Option Fault
  pushed : List T
  popped : List T
  deriving DecidableEq

namespace QueueWorld

variable {T : Type*} [Inhabited T] (moved : T → T) (w : QueueWorld T)

/-- The constructor is called. -/
def ofSize (size : ℕ) : QueueWorld T :=
  match ContiguousQueue.ofSize size with
  | .ok q => ⟨q, none, [], []⟩
  | .error e => ⟨.blank, some e, [], []⟩

/-- `push` is called. -/
def push (value : T) : QueueWorld T :=
  match w.queue.push value with
  | .ok q => { w with queue := q, pushed := w.pushed ++ [value] }
  | .error e => { w with fault := some e }

/-- `pop` is called. -/
def pop : QueueWorld T :=
  match w.queue.pop moved with
  | .ok (value, q) => { w with queue := q, popped := w.popped ++ [value] }
  | .error e => { w with fault := some e }

/-- After a fault nothing is called; `pop` is called only if more was pushed than popped. -/
def next : QueueCall T → Option (QueueWorld T)
  | .push value => if w.fault = none then some (w.push value) else none
  | .pop =>
    if w.fault = none ∧ w.popped.length < w.pushed.length then some (w.pop moved) else none

/-- The queue is a FIFO queue: no call has failed, what was pushed and not popped is in the queue
in the order in which it was pushed, and a push enlarges the storage only when all slots are
active. -/
structure IsFifo : Prop where
  noFault : w.fault = none
  order : w.popped ++ w.queue.values = w.pushed
  size : w.queue.size = w.pushed.length - w.popped.length
  oldest : ∀ v, w.pushed[w.popped.length]? = some v → w.queue.next = .ok v
  enlarges : ∀ v q, w.queue.push v = .ok q → w.queue.reserved < q.reserved →
    ∀ i < w.queue.reserved, w.queue.activeAt i = true

/-- The call does not follow a link that was not repaired, or need too many slots. -/
def Keeps : QueueCall T → Prop
  | .push _ => w.queue.MayPush
  | .pop => w.queue.MayPop

instance : ∀ c, Decidable (w.Keeps c)
  | .push _ => inferInstanceAs (Decidable w.queue.MayPush)
  | .pop => inferInstanceAs (Decidable w.queue.MayPop)

end QueueWorld

/-- A queue of the initial size, of which elements are pushed and popped. -/
def fifo {T : Type*} [Inhabited T] (moved : T → T) (size : ℕ) :
    Machine (QueueWorld T) (QueueCall T) where
  init := .ofSize size
  next w := w.next moved

namespace QueueWorld

variable {T : Type*} [Inhabited T] {moved : T → T} {w w' : QueueWorld T} {c : QueueCall T}

/-- The invariant of the runs in which the calls meet `Keeps`. -/
def Good (w : QueueWorld T) : Prop :=
  w.fault = none ∧ ∃ vs, w.queue.Holds vs ∧ w.popped ++ vs = w.pushed

theorem good_ofSize {size : ℕ} (hsize : size ≤ intMax) : (ofSize size : QueueWorld T).Good := by
  obtain ⟨q, hq, hholds⟩ := ContiguousQueue.exists_ofSize (T := T) hsize
  rw [ofSize, hq]
  exact ⟨rfl, [], hholds, rfl⟩

theorem next_push (moved : T → T) {v : T} {q : ContiguousQueue T} (hfault : w.fault = none)
    (hpush : w.queue.push v = .ok q) :
    w.next moved (.push v) = some { w with queue := q, pushed := w.pushed ++ [v] } := by
  rw [QueueWorld.next, if_pos hfault, push, hpush]

theorem next_push_error (moved : T → T) {v : T} {e : Fault} (hfault : w.fault = none)
    (hpush : w.queue.push v = .error e) :
    w.next moved (.push v) = some { w with fault := some e } := by
  rw [QueueWorld.next, if_pos hfault, push, hpush]

theorem next_pop {v : T} {q : ContiguousQueue T} (hfault : w.fault = none)
    (hlt : w.popped.length < w.pushed.length) (hpop : w.queue.pop moved = .ok (v, q)) :
    w.next moved .pop = some { w with queue := q, popped := w.popped ++ [v] } := by
  rw [QueueWorld.next, if_pos ⟨hfault, hlt⟩, pop, hpop]

theorem Good.next (h : w.Good) (hc : w.Keeps c) (hst : w.next moved c = some w') : w'.Good := by
  obtain ⟨hfault, vs, hholds, horder⟩ := h
  cases c with
  | push v =>
    obtain ⟨q, hpush, hholds', -⟩ := hholds.exists_push hc v
    obtain rfl := Option.some.inj ((next_push moved hfault hpush).symm.trans hst)
    exact ⟨hfault, _, hholds', by simp [← horder]⟩
  | pop =>
    have hguard : w.popped.length < w.pushed.length := by
      rw [QueueWorld.next] at hst
      split_ifs at hst with hguard
      exact hguard.2
    obtain ⟨v, vs, rfl⟩ : ∃ v vs', vs = v :: vs' := by
      refine List.exists_cons_of_ne_nil ?_
      rintro rfl
      rw [← horder, List.append_nil] at hguard
      exact Nat.lt_irrefl _ hguard
    obtain ⟨q, hpop, hholds', -⟩ := hholds.exists_pop hc moved
    obtain rfl := Option.some.inj ((next_pop hfault hguard hpop).symm.trans hst)
    exact ⟨hfault, _, hholds', by simp [← horder]⟩

theorem Good.isFifo (h : w.Good) : w.IsFifo := by
  obtain ⟨hfault, vs, hholds, horder⟩ := h
  refine ⟨hfault, ?_, ?_, fun v hv => ?_, fun v q => hholds.activeAt_of_push⟩
  · rw [hholds.values_eq, horder]
  · rw [hholds.size_eq, ← horder, List.length_append]
    omega
  · rw [← horder, List.getElem?_append_right (Nat.le_refl _), Nat.sub_self] at hv
    cases vs with
    | nil => cases hv
    | cons u vs =>
      obtain rfl : u = v := Option.some.inj hv
      exact hholds.next_eq

/-- A pop that does not meet `MayPop` is not made good again: after one more pop the third push
fails. -/
theorem Good.exists_fault (h : w.Good) (hpop : ¬ w.queue.MayPop) (u v x : T) :
    ∃ w', (fifo moved size).run w [.pop, .pop, .push u, .push v, .push x] = some w' ∧
      w'.fault = some .assertion := by
  obtain ⟨hfault, vs, hholds, horder⟩ := h
  obtain ⟨htwo, y, q₁, z, q₂, a, b, d, hpop₁, hpop₂, hstuck⟩ :=
    hholds.stuck_of_not_mayPop hpop moved
  have hlt : w.popped.length + 1 < w.pushed.length := by
    rw [← horder, List.length_append]
    omega
  obtain ⟨hpush, hfail⟩ := hstuck.push_push u v
  have h₁ : w.next moved .pop = some { w with queue := q₁, popped := w.popped ++ [y] } :=
    next_pop hfault (by omega) hpop₁
  have h₂ := next_pop (w := { w with queue := q₁, popped := w.popped ++ [y] }) hfault
    (by simpa using hlt) hpop₂
  have h₃ := next_push moved
    (w := { w with queue := q₂, popped := w.popped ++ [y] ++ [z] }) hfault (hstuck.push u)
  have h₄ := next_push moved (w := { w with
    queue := q₂.filled a u, pushed := w.pushed ++ [u], popped := w.popped ++ [y] ++ [z] })
    hfault hpush
  have h₅ := next_push_error moved (w := { w with
    queue := (q₂.filled a u).filled b v, pushed := w.pushed ++ [u] ++ [v]
    popped := w.popped ++ [y] ++ [z] }) hfault (hfail x)
  refine ⟨⟨(q₂.filled a u).filled b v, some .assertion, w.pushed ++ [u] ++ [v],
    w.popped ++ [y] ++ [z]⟩, ?_, rfl⟩
  simp only [Machine.run, Option.bind_eq_some_iff]
  exact ⟨_, h₁, _, h₂, _, h₃, _, h₄, _, h₅, rfl⟩

theorem good_of_reachable {size : ℕ} (hsize : size ≤ intMax)
    (h : ((fifo moved size).restrict Keeps).Reachable w) : w.Good := by
  refine h.invariant (good_ofSize hsize) fun u c u' _ hu hst => ?_
  obtain ⟨hc, hst⟩ := Machine.restrict_next.1 hst
  exact hu.next hc hst

end QueueWorld

/-- **First in, first out**, for every initial size and every run of pushes and pops, if no pop
takes one of several elements once a pop has emptied the queue (`MayPop`: the link backwards of the
first slot is still `-1`), and the slots can be counted by an `int`. -/
theorem isFifo_of_reachable {T : Type*} [Inhabited T] (moved : T → T) {size : ℕ}
    (hsize : size ≤ intMax) {w : QueueWorld T}
    (h : ((fifo moved size).restrict QueueWorld.Keeps).Reachable w) : w.IsFifo :=
  (QueueWorld.good_of_reachable hsize h).isFifo

/-- Pushes and pops that empty the queue only at the end. -/
theorem isFifo_of_reachable_of_six :
    ((((fifo id 10).restrict QueueWorld.Keeps).run (fifo id 10).init
      [.push 1, .push 2, .pop, .push 3, .pop, .pop]).get (by decide +kernel)).IsFifo :=
  isFifo_of_reachable id (by decide) (.of_run (Option.some_get _).symm)

/-- The queue is emptied, filled with two values and emptied again: the third push after that finds
its slot active. -/
theorem not_isFifo :
    ¬ ∀ (size : ℕ) (w : QueueWorld ℕ), (fifo id size).Reachable w → w.IsFifo := by
  intro h
  have hrun : ((fifo id 10).run (fifo id 10).init [.push 1, .pop, .push 2, .push 3, .pop, .pop,
      .push 4, .push 5, .push 6]).map QueueWorld.fault = some (some .assertion) := by
    decide +kernel
  obtain ⟨w, hw, hfault⟩ := Option.map_eq_some_iff.1 hrun
  rw [(h 10 w (.of_run hw)).noFault] at hfault
  cases hfault

/-- The condition cannot be weakened: a pop that does not meet it is not made good again. -/
theorem exists_fault_of_not_mayPop {T : Type*} [Inhabited T] {moved : T → T} {size : ℕ}
    (hsize : size ≤ intMax) {w : QueueWorld T}
    (h : ((fifo moved size).restrict QueueWorld.Keeps).Reachable w) (hpop : ¬ w.queue.MayPop)
    (u v x : T) :
    ∃ w', (fifo moved size).run w [.pop, .pop, .push u, .push v, .push x] = some w' ∧
      w'.fault = some .assertion :=
  (QueueWorld.good_of_reachable hsize h).exists_fault hpop u v x

end MoonJamRelay
