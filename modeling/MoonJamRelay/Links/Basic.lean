import Mathlib.Data.List.Nodup

/-!
# Linked segments

The links of a list that is kept in numbered or named cells are a function `next`: the cell after
a cell, or `none` after the last one.

* `Segment next s cells t` : from `s` the links lead through `cells`, in order, and then to `t`.
* `Segment.append_iff` : segments are composed end to end.
* `Segment.congr` : the frame rule; links of other cells do not matter.
* `Segment.redirect` : the link of the last cell is changed.
* `Segment.moveBehind` : a cell is taken out of its place and put back behind another one.
* `walk` : the cells found by following the links; `Segment.walk_eq` : it finds the segment.
-/

namespace MoonJamRelay

variable {α : Type*}

/-- From `s` the links lead through `cells`, in order, and then to `t`. -/
def Segment (next : α → Option α) (s : Option α) : List α → Option α → Prop
  | [], t => s = t
  | x :: xs, t => s = some x ∧ Segment next (next x) xs t

/-- The first `n` cells on the way from `s`. -/
def walk (next : α → Option α) : ℕ → Option α → List α
  | n + 1, some x => x :: walk next n (next x)
  | _, _ => []

namespace Segment

variable {next next' : α → Option α} {s t u : Option α} {xs ys : List α} {x y c : α}

@[simp] theorem nil_iff : Segment next s [] t ↔ s = t := Iff.rfl

@[simp] theorem cons_iff :
    Segment next s (x :: xs) t ↔ s = some x ∧ Segment next (next x) xs t := Iff.rfl

theorem append_iff :
    Segment next s (xs ++ ys) t ↔ ∃ u, Segment next s xs u ∧ Segment next u ys t := by
  induction xs generalizing s with
  | nil => simp
  | cons x xs ih => simp [ih, and_assoc]

/-- The segment in two parts, of which the second begins with `y`. -/
theorem append_cons_iff : Segment next s (xs ++ y :: ys) t ↔
    Segment next s xs (some y) ∧ Segment next (next y) ys t := by
  rw [append_iff]
  constructor
  · rintro ⟨_, hxs, rfl, hys⟩
    exact ⟨hxs, hys⟩
  · rintro ⟨hxs, hys⟩
    exact ⟨_, hxs, rfl, hys⟩

theorem eq_head? (h : Segment next s xs none) : s = xs.head? := by
  cases xs with
  | nil => exact h
  | cons x xs => exact h.1

theorem mem_of_next (h : Segment next s xs none) (hx : x ∈ xs) (hy : next x = some y) :
    y ∈ xs := by
  obtain ⟨ys, zs, rfl⟩ := List.append_of_mem hx
  have hzs := (append_cons_iff.1 h).2.eq_head?
  rw [hy] at hzs
  exact List.mem_append_right _ (List.mem_cons_of_mem _ (List.mem_of_head? hzs.symm))

/-- The frame rule. -/
theorem congr (h : Segment next s xs t) (heq : ∀ x ∈ xs, next' x = next x) :
    Segment next' s xs t := by
  induction xs generalizing s with
  | nil => exact h
  | cons x xs ih =>
    refine ⟨h.1, ?_⟩
    rw [heq x List.mem_cons_self]
    exact ih h.2 fun y hy => heq y (List.mem_cons_of_mem _ hy)

/-- The last cell is linked to something else. -/
theorem redirect (h : Segment next s (xs ++ [c]) t) (heq : ∀ x ∈ xs, next' x = next x) :
    Segment next' s (xs ++ [c]) (next' c) := by
  rw [append_cons_iff] at h ⊢
  exact ⟨h.1.congr heq, rfl⟩

/-- The cell `x` is put behind the cell `c`, further on, and what was before `x` is linked to what
was after it. -/
theorem moveBehind (h : Segment next s (xs ++ x :: (ys ++ c :: zs)) t) (next' : α → Option α)
    (hnodup : (xs ++ x :: (ys ++ c :: zs)).Nodup) (hx : next' x = next c) (hc : next' c = some x)
    (hlast : ∀ p, xs.getLast? = some p → next' p = next x)
    (hframe : ∀ y, y ≠ x → y ≠ c → xs.getLast? ≠ some y → next' y = next y) :
    Segment next' (if xs = [] then next x else s) (xs ++ (ys ++ c :: x :: zs)) t := by
  obtain ⟨hxs, hrest⟩ := append_cons_iff.1 h
  obtain ⟨hys, hzs⟩ := append_cons_iff.1 hrest
  obtain ⟨hnxs, hnrest, hdisj⟩ := List.nodup_append.1 hnodup
  have hsame : ∀ y ∈ ys ++ zs, next' y = next y := by
    intro y hy
    refine hframe y ?_ ?_ fun hlast => ?_
    · rintro rfl
      exact (List.nodup_cons.1 hnrest).1 (by grind)
    · rintro rfl
      have := (List.nodup_cons.1 hnrest).2
      grind
    · exact hdisj y (List.mem_of_getLast? hlast) y (by grind) rfl
  have hback : Segment next' (next x) (ys ++ c :: x :: zs) t := by
    refine append_cons_iff.2 ⟨hys.congr fun y hy => hsame y (List.mem_append_left _ hy), hc, ?_⟩
    rw [hx]
    exact hzs.congr fun y hy => hsame y (List.mem_append_right _ hy)
  rcases List.eq_nil_or_concat' xs with rfl | ⟨front, p, rfl⟩
  · exact hback
  · have hp : next' p = next x := hlast p List.getLast?_concat
    rw [if_neg (List.append_ne_nil_of_right_ne_nil _ (List.cons_ne_nil _ _))]
    refine append_iff.2 ⟨next x, hp ▸ hxs.redirect fun y hy => ?_, hback⟩
    have hmem : y ∈ front ++ [p] := List.mem_append_left _ hy
    refine hframe y ?_ ?_ ?_
    · exact fun heq => hdisj y hmem x List.mem_cons_self heq
    · exact fun heq => hdisj y hmem c (by simp) heq
    · rw [List.getLast?_concat]
      rintro ⟨⟩
      exact (List.nodup_append.1 hnxs).2.2 p hy p (List.mem_singleton_self p) rfl

/-- No cell of a segment that ends without a link is linked to itself. -/
theorem next_ne_self (h : Segment next s xs none) (hx : x ∈ xs) (hnodup : xs.Nodup) :
    next x ≠ some x := by
  obtain ⟨ys, zs, rfl⟩ := List.append_of_mem hx
  rw [append_cons_iff] at h
  intro hself
  cases zs with
  | nil => exact absurd (hself.symm.trans h.2) (by simp)
  | cons z zs =>
    obtain rfl := Option.some.inj (hself.symm.trans h.2.1)
    exact (List.nodup_cons.1 (List.nodup_append.1 hnodup).2.1).1 List.mem_cons_self

/-- No cell of such a segment is linked to the first one. -/
theorem next_ne_head (h : Segment next s (x :: xs) none) (hy : y ∈ x :: xs)
    (hnodup : (x :: xs).Nodup) : next y ≠ some x := by
  intro hx
  obtain ⟨ys, zs, hsplit⟩ := List.append_of_mem hy
  rw [hsplit] at h
  have hzs : zs.head? = some x := (append_cons_iff.1 h).2.eq_head?.symm.trans hx
  have hmem : x ∈ zs := List.mem_of_head? hzs
  cases ys with
  | nil =>
    obtain ⟨rfl, rfl⟩ := List.cons.inj hsplit
    exact (List.nodup_cons.1 hnodup).1 hmem
  | cons z ys =>
    obtain ⟨rfl, rfl⟩ := List.cons.inj hsplit
    exact (List.nodup_cons.1 hnodup).1 (by simp [hmem])

/-- Following the links finds the segment. -/
theorem walk_eq (h : Segment next s (xs ++ ys) t) : walk next xs.length s = xs := by
  induction xs generalizing s with
  | nil => cases s <;> rfl
  | cons x xs ih =>
    obtain ⟨rfl, hxs⟩ := h
    exact congrArg _ (ih hxs)

end Segment

/-- Consecutive numbers, each linked to the next one. -/
theorem segment_range' (next : ℕ → Option ℕ) {a n : ℕ}
    (h : ∀ i < n, next (a + i) = if i + 1 = n then none else some (a + i + 1)) :
    Segment next (if n = 0 then none else some a) (List.range' a n) none := by
  induction n generalizing a with
  | zero => rfl
  | succ n ih =>
    refine ⟨by simp, ?_⟩
    have hrest := ih (a := a + 1) fun i hi => by
      have := h (i + 1) (by omega)
      grind
    have hfirst := h 0 (by omega)
    grind

end MoonJamRelay
