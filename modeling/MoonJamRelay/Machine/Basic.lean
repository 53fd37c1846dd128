import Mathlib.Data.Nat.Notation
import Mathlib.Tactic.SplitIfs

/-!
# Labelled machines

A program whose steps are chosen by its environment (which call comes next, which thread is
scheduled) is a *machine*: an initial state and a partial function that performs the step a label
names.  The label resolves all nondeterminism, so a run is a list of labels and can be computed.

* `Machine.Reachable` : the states of the runs from the initial state.
* `Machine.Reachable.invariant` : the induction rule for invariants; the step case may use that
  the state before the step is reachable, so invariants proved earlier are available.
* `Machine.restrict` : the machine whose steps all meet a condition, for results about such runs.
* `Machine.observe` : a machine with the history of what happened in its steps.
* `Machine.Visits`, `Machine.Meets` : all states, or all steps, of one run satisfy a predicate.
* `Machine.visits_iff_meets` : if a step keeps a good state good exactly when it meets a condition,
  then a run stays good exactly when all its steps meet it.
* `Machine.Meets.invariant` : the induction rule for the runs whose steps all meet a condition.
* `Machine.meets_iff_meets` : two conditions on steps that agree as long as an invariant holds.
* `Machine.Reachable.simulated` : a machine that simulates another, step by step, up to a relation.
* `Machine.InfiniteRun` : a run that does not end, for results about what happens eventually.
-/

namespace MoonJamRelay

/-- A deterministic labelled machine on the states `S` with the labels `L`. -/
structure Machine (S L : Type*) where
  /-- The initial state. -/
  init : S
  /-- The state after the step `l`; `none` when `l` is not enabled. -/
  next : S → L → Option S

namespace Machine

variable {S L T K : Type*} (M : Machine S L)

/-- The state after performing the labels in order, if all of them are enabled. -/
def run (s : S) : List L → Option S
  | [] => some s
  | l :: ls => (M.next s l).bind fun s' => run s' ls

/-- `s'` is reached from `s` in zero or more steps. -/
inductive Reaches (s : S) : S → Prop
  | refl : Reaches s s
  | tail {s' s'' : S} {l : L} : Reaches s s' → M.next s' l = some s'' → Reaches s s''

/-- `s` is reached from the initial state. -/
def Reachable (s : S) : Prop := M.Reaches M.init s

/-- The machine whose steps are those of `M` that meet `ok`. -/
def restrict (ok : S → L → Prop) [∀ s l, Decidable (ok s l)] : Machine S L where
  init := M.init
  next s l := if ok s l then M.next s l else none

/-- Every state of the run `ls` from `s`, `s` included, satisfies `P`. -/
def Visits (P : S → Prop) (s : S) : List L → Prop
  | [] => P s
  | l :: ls => P s ∧ ∀ s', M.next s l = some s' → Visits P s' ls

/-- Every step of the run `ls` from `s` meets `ok`. -/
def Meets (ok : S → L → Prop) (s : S) : List L → Prop
  | [] => True
  | l :: ls => ok s l ∧ ∀ s', M.next s l = some s' → Meets ok s' ls

/-- `M` with the list of what was observed in its steps, oldest first. -/
def observe {E : Type*} (event : S → L → Option E) : Machine (S × List E) L where
  init := (M.init, [])
  next s l := (M.next s.1 l).map fun s' => (s', s.2 ++ (event s.1 l).toList)

/-- A run without end. -/
structure InfiniteRun where
  state : ℕ → S
  label : ℕ → L
  init : state 0 = M.init
  step : ∀ n, M.next (state n) (label n) = some (state (n + 1))

variable {M}

namespace Reaches

theorem trans {s s' s'' : S} (h : M.Reaches s s') (h' : M.Reaches s' s'') : M.Reaches s s'' := by
  induction h' with
  | refl => exact h
  | tail _ hst ih => exact ih.tail hst

theorem invariant {I : S → Prop} {s s' : S} (h : M.Reaches s s') (h₀ : I s)
    (hstep : ∀ u l u', M.Reaches s u → I u → M.next u l = some u' → I u') : I s' := by
  induction h with
  | refl => exact h₀
  | tail hr hst ih => exact hstep _ _ _ hr ih hst

theorem of_restrict {ok : S → L → Prop} [∀ s l, Decidable (ok s l)] {s s' : S}
    (h : (M.restrict ok).Reaches s s') : M.Reaches s s' := by
  induction h with
  | refl => exact .refl
  | tail _ hst ih =>
    simp only [restrict] at hst
    split_ifs at hst
    exact ih.tail hst

end Reaches

theorem run_append (s : S) (ls ls' : List L) :
    M.run s (ls ++ ls') = (M.run s ls).bind fun s' => M.run s' ls' := by
  induction ls generalizing s with
  | nil => rfl
  | cons l ls ih => simp only [List.cons_append, run, ih, Option.bind_assoc]

theorem reaches_of_run {s s' : S} {ls : List L} (h : M.run s ls = some s') : M.Reaches s s' := by
  induction ls generalizing s with
  | nil =>
    simp only [run, Option.some.injEq] at h
    exact h ▸ .refl
  | cons l ls ih =>
    obtain ⟨u, hu, hr⟩ := Option.bind_eq_some_iff.1 h
    exact (Reaches.tail .refl hu).trans (ih hr)

theorem restrict_next {ok : S → L → Prop} [∀ s l, Decidable (ok s l)] {s s' : S} {l : L} :
    (M.restrict ok).next s l = some s' ↔ ok s l ∧ M.next s l = some s' := by
  simp only [restrict]
  split_ifs with h <;> simp [h]

namespace Reachable

theorem init : M.Reachable M.init := .refl

theorem step {s s' : S} {l : L} (h : M.Reachable s) (hst : M.next s l = some s') :
    M.Reachable s' := h.tail hst

theorem of_run {s : S} {ls : List L} (h : M.run M.init ls = some s) : M.Reachable s :=
  reaches_of_run h

/-- The induction rule for invariants of the reachable states. -/
theorem invariant {I : S → Prop} {s : S} (h : M.Reachable s) (h₀ : I M.init)
    (hstep : ∀ u l u', M.Reachable u → I u → M.next u l = some u' → I u') : I s :=
  Reaches.invariant h h₀ hstep

theorem of_restrict {ok : S → L → Prop} [∀ s l, Decidable (ok s l)] {s : S}
    (h : (M.restrict ok).Reachable s) : M.Reachable s :=
  Reaches.of_restrict h

/-- Simulation: when every step of `M` is matched by a run of `N`, up to `R`, every reachable
state of `M` is related to a reachable state of `N`. -/
theorem simulated {N : Machine T K} {R : S → T → Prop} {s : S} (h : M.Reachable s)
    (h₀ : R M.init N.init)
    (hstep : ∀ u l u' t, M.Reachable u → N.Reachable t → R u t → M.next u l = some u' →
      ∃ t', N.Reaches t t' ∧ R u' t') :
    ∃ t, N.Reachable t ∧ R s t := by
  refine h.invariant (I := fun s => ∃ t, N.Reachable t ∧ R s t) ⟨_, init, h₀⟩ ?_
  rintro u l u' hu ⟨t, ht, hR⟩ hst
  obtain ⟨t', hr, hR'⟩ := hstep u l u' t hu ht hR hst
  exact ⟨t', Reaches.trans ht hr, hR'⟩

end Reachable

/-- The induction rule for what was observed; the states are those of `M`. -/
theorem Reachable.observed {E : Type*} {event : S → L → Option E} {I : S → List E → Prop} {s : S}
    {es : List E} (h : (M.observe event).Reachable (s, es)) (h₀ : I M.init [])
    (hstep : ∀ u es l u', M.Reachable u → I u es → M.next u l = some u' →
      I u' (es ++ (event u l).toList)) : M.Reachable s ∧ I s es := by
  refine h.invariant (I := fun p => M.Reachable p.1 ∧ I p.1 p.2) ⟨.init, h₀⟩ ?_
  rintro u l u' - ⟨hu, hI⟩ hst
  obtain ⟨v, hv, rfl⟩ := Option.map_eq_some_iff.1 hst
  exact ⟨hu.step hv, hstep _ _ _ _ hu hI hv⟩

theorem InfiniteRun.reachable (r : M.InfiniteRun) (n : ℕ) : M.Reachable (r.state n) := by
  induction n with
  | zero => exact r.init ▸ .init
  | succ n ih => exact ih.step (r.step n)

theorem visits_head {P : S → Prop} {s : S} {ls : List L} (h : M.Visits P s ls) : P s := by
  cases ls with
  | nil => exact h
  | cons l ls => exact h.1

/-- When a step from a reachable good state leads to a good state exactly if it meets `ok`, a run
visits good states only exactly if all its steps meet `ok`. -/
theorem visits_iff_meets {P : S → Prop} {ok : S → L → Prop}
    (hstep : ∀ s l s', M.Reachable s → P s → M.next s l = some s' → (P s' ↔ ok s l))
    {s s' : S} {ls : List L} (hs : M.Reachable s) (hP : P s) (hrun : M.run s ls = some s') :
    M.Visits P s ls ↔ M.Meets ok s ls := by
  induction ls generalizing s with
  | nil => simpa [Visits, Meets] using hP
  | cons l ls ih =>
    obtain ⟨u, hu, hr⟩ := Option.bind_eq_some_iff.1 hrun
    have hok : P u ↔ ok s l := hstep s l u hs hP hu
    have hrest : P u → (M.Visits P u ls ↔ M.Meets ok u ls) := fun hPu => ih (hs.step hu) hPu hr
    simp only [Visits, Meets, hu, Option.some.injEq, forall_eq']
    constructor
    · rintro ⟨-, hv⟩
      have hPu : P u := visits_head hv
      exact ⟨hok.1 hPu, (hrest hPu).1 hv⟩
    · rintro ⟨ho, hm⟩
      exact ⟨hP, (hrest (hok.2 ho)).2 hm⟩

theorem Meets.cons {ok : S → L → Prop} {s s' : S} {l : L} {ls : List L} (hl : ok s l)
    (hst : M.next s l = some s') (h : M.Meets ok s' ls) : M.Meets ok s (l :: ls) := by
  refine ⟨hl, fun u hu => ?_⟩
  obtain rfl := Option.some.inj (hst.symm.trans hu)
  exact h

/-- The runs of a restricted machine are those whose steps all meet the condition. -/
theorem run_restrict {ok : S → L → Prop} [∀ s l, Decidable (ok s l)] {s s' : S} {ls : List L} :
    (M.restrict ok).run s ls = some s' ↔ M.run s ls = some s' ∧ M.Meets ok s ls := by
  induction ls generalizing s with
  | nil => exact (and_iff_left trivial).symm
  | cons l ls ih =>
    simp only [run, Option.bind_eq_some_iff, restrict_next, ih]
    constructor
    · rintro ⟨u, ⟨hl, hst⟩, hr, hm⟩
      exact ⟨⟨u, hst, hr⟩, Meets.cons hl hst hm⟩
    · rintro ⟨⟨u, hst, hr⟩, hl, hm⟩
      exact ⟨u, ⟨hl, hst⟩, hr, hm u hst⟩

theorem meets_append {ok : S → L → Prop} {s s' : S} {ls ls' : List L}
    (hrun : M.run s ls = some s') :
    M.Meets ok s (ls ++ ls') ↔ M.Meets ok s ls ∧ M.Meets ok s' ls' := by
  induction ls generalizing s with
  | nil =>
    obtain rfl := Option.some.inj hrun
    exact (and_iff_right trivial).symm
  | cons l ls ih =>
    obtain ⟨u, hu, hr⟩ := Option.bind_eq_some_iff.1 hrun
    simp only [List.cons_append, Meets, hu, Option.some.injEq, forall_eq', ih hr, and_assoc]

theorem Meets.invariant {I : S → Prop} {ok : S → L → Prop}
    (hstep : ∀ s l s', I s → ok s l → M.next s l = some s' → I s') {s s' : S} {ls : List L}
    (hm : M.Meets ok s ls) (hI : I s) (hrun : M.run s ls = some s') : I s' := by
  induction ls generalizing s with
  | nil => exact Option.some.inj hrun ▸ hI
  | cons l ls ih =>
    obtain ⟨u, hu, hr⟩ := Option.bind_eq_some_iff.1 hrun
    exact ih (hm.2 u hu) (hstep s l u hI hm.1 hu) hr

/-- A condition that is enough for another as long as an invariant holds. -/
theorem Meets.mono {I : S → Prop} {P Q : S → L → Prop} (hPQ : ∀ s l, I s → P s l → Q s l)
    (hstep : ∀ s l s', I s → M.next s l = some s' → I s') {s : S} (hs : I s) {ls : List L}
    (h : M.Meets P s ls) : M.Meets Q s ls := by
  induction ls generalizing s with
  | nil => trivial
  | cons l ls ih => exact ⟨hPQ s l hs h.1, fun s' hst => ih (hstep s l s' hs hst) (h.2 s' hst)⟩

/-- Two conditions on steps that agree as long as an invariant holds, which the first keeps. -/
theorem meets_iff_meets {I : S → Prop} {P Q : S → L → Prop} (hiff : ∀ s l, I s → (P s l ↔ Q s l))
    (hstep : ∀ s l s', I s → P s l → M.next s l = some s' → I s') {s : S} (hs : I s)
    (ls : List L) : M.Meets P s ls ↔ M.Meets Q s ls := by
  induction ls generalizing s with
  | nil => exact Iff.rfl
  | cons l ls ih =>
    have hrest : P s l → ((∀ s', M.next s l = some s' → M.Meets P s' ls) ↔
        ∀ s', M.next s l = some s' → M.Meets Q s' ls) := fun hP =>
      forall_congr' fun s' => imp_congr_right fun hst => ih (hstep s l s' hs hP hst)
    simp only [Meets, ← hiff s l hs]
    exact and_congr_right hrest

end Machine

end MoonJamRelay
