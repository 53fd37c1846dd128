import MoonJamRelay.Machine.Basic
import Mathlib.Logic.Function.Basic

/-!
# A machine for each index

Many copies of one machine that do not see each other: a step is a step of one of them.

* `Machine.family` : the copies.
* `Machine.Reachable.member` : each copy is in a reachable state.
* `Machine.family_run` : the runs in which only one copy steps.
-/

namespace MoonJamRelay

namespace Machine

variable {S L ι : Type*} [DecidableEq ι]

/-- A copy of the machine for each index. -/
def family (M : Machine S L) (ι : Type*) [DecidableEq ι] : Machine (ι → S) (ι × L) where
  init := fun _ => M.init
  next f l := (M.next (f l.1) l.2).map (Function.update f l.1)

variable {M : Machine S L} {f f' : ι → S} {i : ι}

theorem family_next {l : ι × L} (h : (M.family ι).next f l = some f') :
    ∃ s, M.next (f l.1) l.2 = some s ∧ f' = Function.update f l.1 s := by
  obtain ⟨s, hs, rfl⟩ := Option.map_eq_some_iff.1 h
  exact ⟨s, hs, rfl⟩

theorem Reachable.member (h : (M.family ι).Reachable f) (i : ι) : M.Reachable (f i) := by
  refine h.invariant (I := fun f => ∀ i, M.Reachable (f i)) (fun _ => .init) ?_ i
  intro u l u' _ hu hst i
  obtain ⟨s, hs, rfl⟩ := family_next hst
  by_cases hi : i = l.1
  · rw [hi, Function.update_self]
    exact (hu l.1).step hs
  · rw [Function.update_of_ne hi]
    exact hu i

/-- When only one copy steps, the family does what that copy does. -/
theorem family_run (i : ι) (ls : List L) : (M.family ι).run f (ls.map fun l => (i, l)) =
    (M.run (f i) ls).map (Function.update f i) := by
  induction ls generalizing f with
  | nil => simp [run]
  | cons l ls ih =>
    change ((M.next (f i) l).map (Function.update f i)).bind
        (fun f' => (M.family ι).run f' (ls.map fun l => (i, l))) =
      ((M.next (f i) l).bind fun s => M.run s ls).map (Function.update f i)
    cases M.next (f i) l with
    | none => rfl
    | some s =>
      change (M.family ι).run (Function.update f i s) _ = (M.run s ls).map _
      rw [ih, Function.update_self]
      exact congrArg (Option.map · _) (funext fun s' => Function.update_idem s s' f)

end Machine

end MoonJamRelay
