import Mathlib.Data.Nat.Notation
import Mathlib.Logic.Function.Basic
import Mathlib.Logic.Relation
import Mathlib.Tactic.SplitIfs

/-!
# Mutexes and the waits-for relation

The owners of the mutexes `M` among the threads `T`.  A thread locks the mutex it wants when nobody
owns it, and when a scope ends it keeps only the mutexes of the scopes it is still in.  What a
thread holds (`held`) and wants (`wants`) is read off its program point.

* `Locks.acquire`, `Locks.keep` : the two changes of the owners.
* `Locks.Describes` : the owners are as the program points of the threads say; kept by both changes.
* `Locks.WaitsFor` : a thread waits for the owner of the mutex it wants, or joins another thread.
* `Locks.Describes.acyclic` : the threads do not wait in a cycle, when a rank falls from every
  thread that wants a mutex to the threads that hold it through a scope, and along every join.
-/

namespace MoonJamRelay

/-- The owner of every mutex, if it has one. -/
abbrev Locks (M T : Type*) := M → Option T

namespace Locks

variable {M T : Type*}

/-- No mutex is owned. -/
def free : Locks M T := fun _ => none

section

variable [DecidableEq M] [DecidableEq T] (l : Locks M T)

/-- `t` locks `m`. -/
def acquire (m : M) (t : T) : Locks M T := Function.update l m (some t)

/-- `t` keeps the mutexes in `held` and unlocks all others it owns. -/
def keep (t : T) (held : List M) : Locks M T := fun m =>
  if l m = some t ∧ m ∉ held then none else l m

end

variable (l : Locks M T)

/-- The owners agree with what every thread holds and wants at its program point: a thread owns
what it holds, and what it owns beyond that is the mutex it is about to use. -/
structure Describes (held : T → List M) (wants : T → Option M) : Prop where
  scope : ∀ t, ∀ m ∈ held t, l m = some t
  owner : ∀ m t, l m = some t → m ∈ held t ∨ wants t = some m

/-- `t` waits for `t'`: it wants a mutex of `t'`, or it joins `t'`. -/
def WaitsFor (wants : T → Option M) (joins : T → T → Prop) (t t' : T) : Prop :=
  (∃ m, wants t = some m ∧ l m = some t' ∧ t' ≠ t) ∨ joins t t'

variable {l} {held held' : T → List M} {wants wants' : T → Option M} {joins : T → T → Prop}

theorem keep_eq_some [DecidableEq M] [DecidableEq T] {t t' : T} {ms : List M} {m : M} :
    l.keep t ms m = some t' ↔ l m = some t' ∧ (t' = t → m ∈ ms) := by
  unfold keep
  split_ifs with h
  · obtain ⟨ho, hm⟩ := h
    simp only [ho, Option.some.injEq, false_iff, not_and]
    rintro rfl hmem
    exact hm (hmem rfl)
  · refine ⟨fun ho => ⟨ho, ?_⟩, And.left⟩
    rintro rfl
    by_contra hm
    exact h ⟨ho, hm⟩

namespace Describes

/-- Locking a free mutex that the thread wants. -/
theorem acquire [DecidableEq M] (h : l.Describes held wants) {m : M} {t : T} (hfree : l m = none)
    (hw : wants t = some m) : (l.acquire m t).Describes held wants := by
  refine ⟨fun t' m' hm' => ?_, fun m' t' ho => ?_⟩
  · have ho := h.scope t' m' hm'
    rw [Locks.acquire, Function.update_of_ne]
    · exact ho
    · rintro rfl
      rw [hfree] at ho
      cases ho
  · by_cases hm : m' = m
    · subst hm
      rw [Locks.acquire, Function.update_self, Option.some.injEq] at ho
      exact .inr (ho ▸ hw)
    · rw [Locks.acquire, Function.update_of_ne hm] at ho
      exact h.owner m' t' ho

theorem mono (h : l.Describes held wants) (hw : ∀ t m, wants t = some m → wants' t = some m) :
    l.Describes held wants' :=
  ⟨h.scope, fun m t ho => (h.owner m t ho).imp_right (hw t m)⟩

/-- A step of `t` to another program point: it owns what it holds there, and keeps only that. -/
theorem keep [DecidableEq M] [DecidableEq T] (h : l.Describes held wants) {t : T}
    (hheld : ∀ m ∈ held' t, l m = some t)
    (hothers : ∀ t', t' ≠ t →
      held' t' = held t' ∧ ∀ m, wants t' = some m → wants' t' = some m) :
    (l.keep t (held' t)).Describes held' wants' := by
  refine ⟨fun t' m hm => ?_, fun m t' ho => ?_⟩
  · rw [keep_eq_some]
    by_cases ht : t' = t
    · subst ht
      exact ⟨hheld m hm, fun _ => hm⟩
    · exact ⟨h.scope t' m ((hothers t' ht).1 ▸ hm), fun he => absurd he ht⟩
  · rw [keep_eq_some] at ho
    by_cases ht : t' = t
    · subst ht
      exact .inl (ho.2 rfl)
    · rw [(hothers t' ht).1]
      exact (h.owner m t' ho.1).imp_right ((hothers t' ht).2 m)

/-- A thread that waits does not own the mutex another one waits for, unless it holds it through a
scope. -/
theorem mem_held_of_waits (h : l.Describes held wants) (hjoin : ∀ t t', joins t t' → wants t = none)
    {t t' : T} {m : M} (ho : l m = some t) (hw : l.WaitsFor wants joins t t') : m ∈ held t := by
  refine (h.owner m t ho).resolve_right fun hm => ?_
  rcases hw with ⟨m', hm', ho', hne⟩ | hj
  · obtain rfl : m = m' := Option.some.inj (hm.symm.trans hm')
    exact hne (Option.some.inj (ho'.symm.trans ho))
  · rw [hjoin t t' hj] at hm
    cases hm

/-- The rank falls from a thread that waits to the thread it waits for, when that one waits too. -/
theorem rank_lt (h : l.Describes held wants) (hjoin : ∀ t t', joins t t' → wants t = none)
    {rank : T → ℕ} (hheld : ∀ t t' m, t' ≠ t → wants t = some m → m ∈ held t' → rank t' < rank t)
    (hrank : ∀ t t', joins t t' → rank t' < rank t) {t t' t'' : T}
    (hw : l.WaitsFor wants joins t t') (hw' : l.WaitsFor wants joins t' t'') :
    rank t' < rank t := by
  rcases hw with ⟨m, hm, ho, hne⟩ | hj
  · exact hheld t t' m hne hm (h.mem_held_of_waits hjoin ho hw')
  · exact hrank t t' hj

/-- **No deadlock**: the threads do not wait for each other in a cycle. -/
theorem acyclic (h : l.Describes held wants) (hjoin : ∀ t t', joins t t' → wants t = none)
    (rank : T → ℕ) (hheld : ∀ t t' m, t' ≠ t → wants t = some m → m ∈ held t' → rank t' < rank t)
    (hrank : ∀ t t', joins t t' → rank t' < rank t) (t : T) :
    ¬ Relation.TransGen (l.WaitsFor wants joins) t t := by
  -- along a chain that ends in a waiting thread the rank falls
  have hchain : ∀ {a b}, Relation.TransGen (l.WaitsFor wants joins) a b →
      (∃ c, l.WaitsFor wants joins b c) → rank b < rank a := by
    intro a b hab
    induction hab with
    | single hw => exact fun ⟨c, hc⟩ => h.rank_lt hjoin hheld hrank hw hc
    | tail _ hw ih =>
      rintro ⟨c, hc⟩
      exact Nat.lt_trans (h.rank_lt hjoin hheld hrank hw hc) (ih ⟨_, hw⟩)
  intro hcycle
  obtain ⟨c, hc, -⟩ := Relation.TransGen.head'_iff.1 hcycle
  exact Nat.lt_irrefl _ (hchain hcycle ⟨c, hc⟩)

end Describes

end Locks

end MoonJamRelay
