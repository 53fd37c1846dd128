import MoonJamRelay.Machine.Basic

/-!
# Machines side by side

Two programs that run at the same time and meet in some of their steps: what the whole does next is
a run of each part, and which runs these are may depend on both states.

* `Machine.couple` : the whole.
* `Machine.Reachable.coupled` : its parts are in reachable states, so all results about the parts
  alone hold in it.
* `Machine.Reachable.linked` : the induction rule for what relates the two parts.
-/

namespace MoonJamRelay

namespace Machine

variable {S T L K J : Type*}

/-- Two machines side by side: a step performs a run of each. -/
def couple (M : Machine S L) (N : Machine T K) (moves : S → T → J → Option (List L × List K)) :
    Machine (S × T) J where
  init := (M.init, N.init)
  next u j := (moves u.1 u.2 j).bind fun ls =>
    (M.run u.1 ls.1).bind fun s => (N.run u.2 ls.2).map fun t => (s, t)

variable {M : Machine S L} {N : Machine T K} {moves : S → T → J → Option (List L × List K)}
  {u u' : S × T}

theorem run_singleton (M : Machine S L) (s : S) (l : L) : M.run s [l] = M.next s l :=
  Option.bind_fun_some _

theorem couple_next {j : J} (h : (couple M N moves).next u j = some u') :
    ∃ ls ks, moves u.1 u.2 j = some (ls, ks) ∧ M.run u.1 ls = some u'.1 ∧
      N.run u.2 ks = some u'.2 := by
  obtain ⟨⟨ls, ks⟩, hmoves, h⟩ := Option.bind_eq_some_iff.1 h
  obtain ⟨s, hs, h⟩ := Option.bind_eq_some_iff.1 h
  obtain ⟨t, ht, rfl⟩ := Option.map_eq_some_iff.1 h
  exact ⟨ls, ks, hmoves, hs, ht⟩

theorem Reachable.coupled (h : (couple M N moves).Reachable u) :
    M.Reachable u.1 ∧ N.Reachable u.2 := by
  refine h.invariant (I := fun u => M.Reachable u.1 ∧ N.Reachable u.2) ⟨.init, .init⟩ ?_
  rintro u j u' - ⟨hs, ht⟩ hst
  obtain ⟨ls, ks, -, hls, hks⟩ := couple_next hst
  exact ⟨Reaches.trans hs (reaches_of_run hls), Reaches.trans ht (reaches_of_run hks)⟩

/-- The induction rule for relations between the parts. -/
theorem Reachable.linked {R : S → T → Prop} (h : (couple M N moves).Reachable u)
    (h₀ : R M.init N.init)
    (hstep : ∀ s t j ls ks s' t', M.Reachable s → N.Reachable t → R s t →
      moves s t j = some (ls, ks) → M.run s ls = some s' → N.run t ks = some t' → R s' t') :
    R u.1 u.2 := by
  refine h.invariant (I := fun u => R u.1 u.2) h₀ ?_
  intro u j u' hu hR hst
  obtain ⟨ls, ks, hmoves, hls, hks⟩ := couple_next hst
  exact hstep _ _ j ls ks _ _ hu.coupled.1 hu.coupled.2 hR hmoves hls hks

end Machine

end MoonJamRelay
