import Mathlib.Data.List.Basic
import Mathlib.Data.List.Sublists

/-!
# One queue for many senders

Several senders put items into one queue. A sender begins to send an item and hands it over later;
in between the items of other senders may be accepted. An item may also be given up, as long as
nobody was promised that all items come through.

* `sentBy` : what one sender has sent.
* `Merged` : what is accepted from each sender is what it has sent, in order; all of it but what is
  still on the way, when nothing may be given up.
* `Merged.begin`, `Merged.accept`, `Merged.giveUp` : the three things that can happen to an item.
-/

namespace MoonJamRelay

variable {γ β : Type*} [DecidableEq γ]

/-- What one sender has sent. -/
def sentBy (s : γ) (calls : List (γ × β)) : List β :=
  (calls.filter fun x => x.1 = s).map Prod.snd

variable {s : γ} {x : β} {calls calls' tagged : List (γ × β)} {complete complete' : Prop}
  {pending pending' : γ → List β}

@[simp] theorem sentBy_nil : sentBy s ([] : List (γ × β)) = [] := rfl

@[simp] theorem sentBy_append : sentBy s (calls ++ calls') = sentBy s calls ++ sentBy s calls' := by
  simp [sentBy]

@[simp] theorem sentBy_self : sentBy s [(s, x)] = [x] := by
  simp [sentBy]

theorem sentBy_other {s' : γ} (h : s' ≠ s) : sentBy s' [(s, x)] = [] := by
  simp [sentBy, h.symm]

theorem mem_sentBy : x ∈ sentBy s calls ↔ (s, x) ∈ calls := by
  simp [sentBy]

/-- The items `tagged` were accepted, with their senders. Each sender's items were accepted in the
order in which it sent them; if the queue is `complete`, only those that are `pending` are left. -/
structure Merged (complete : Prop) (pending : γ → List β) (calls tagged : List (γ × β)) :
    Prop where
  order : ∀ s, (sentBy s tagged ++ pending s).Sublist (sentBy s calls)
  all : complete → ∀ s, sentBy s tagged ++ pending s = sentBy s calls

namespace Merged

theorem nil : Merged complete (fun _ => []) ([] : List (γ × β)) [] :=
  ⟨fun _ => List.Sublist.refl _, fun _ _ => rfl⟩

/-- Items on the way may be given up, if the queue is not complete after that. -/
theorem giveUp (h : Merged complete pending calls tagged)
    (hpending : ∀ s, (pending' s).Sublist (pending s))
    (hcomplete : complete' → complete ∧ ∀ s, pending' s = pending s) :
    Merged complete' pending' calls tagged where
  order s := ((List.Sublist.refl _).append (hpending s)).trans (h.order s)
  all hc s := by
    obtain ⟨hc', hsame⟩ := hcomplete hc
    rw [hsame s]
    exact h.all hc' s

theorem accept (h : Merged complete pending calls tagged)
    (hself : pending s = [x] ∧ pending' s = [])
    (hother : ∀ s' ≠ s, pending' s' = pending s') (hcomplete : complete' → complete) :
    Merged complete' pending' calls (tagged ++ [(s, x)]) := by
  have hsame : ∀ s', sentBy s' (tagged ++ [(s, x)]) ++ pending' s' =
      sentBy s' tagged ++ pending s' := by
    intro s'
    by_cases hs : s' = s
    · rw [hs, sentBy_append, sentBy_self, hself.1, hself.2, List.append_nil]
    · rw [sentBy_append, sentBy_other hs, List.append_nil, hother s' hs]
  refine ⟨fun s' => ?_, fun hc s' => ?_⟩
  · rw [hsame]
    exact h.order s'
  · rw [hsame]
    exact h.all (hcomplete hc) s'

theorem begin (h : Merged complete pending calls tagged) (hself : pending' s = pending s ++ [x])
    (hother : ∀ s' ≠ s, pending' s' = pending s') (hcomplete : complete' → complete) :
    Merged complete' pending' (calls ++ [(s, x)]) tagged := by
  have hsplit : ∀ s', ∃ more, sentBy s' tagged ++ pending' s' =
      (sentBy s' tagged ++ pending s') ++ more ∧
      sentBy s' (calls ++ [(s, x)]) = sentBy s' calls ++ more := by
    intro s'
    by_cases hs : s' = s
    · exact ⟨[x], by rw [hs, hself, List.append_assoc], by rw [hs, sentBy_append, sentBy_self]⟩
    · exact ⟨[], by rw [hother s' hs, List.append_nil], by rw [sentBy_append, sentBy_other hs]⟩
  refine ⟨fun s' => ?_, fun hc s' => ?_⟩
  · obtain ⟨more, hleft, hright⟩ := hsplit s'
    rw [hleft, hright]
    exact (h.order s').append (List.Sublist.refl more)
  · obtain ⟨more, hleft, hright⟩ := hsplit s'
    rw [hleft, hright, h.all (hcomplete hc) s']

/-- Whatever was accepted was sent. -/
theorem mem (h : Merged complete pending calls tagged) (hx : (s, x) ∈ tagged) : (s, x) ∈ calls :=
  mem_sentBy.1 ((h.order s).subset (List.mem_append_left _ (mem_sentBy.2 hx)))

/-- The first items that were accepted, of one sender. -/
theorem take (h : Merged complete pending calls tagged) (s : γ) (n : ℕ) :
    (sentBy s (tagged.take n)).Sublist (sentBy s calls) := by
  have hsub : (sentBy s (tagged.take n)).Sublist (sentBy s tagged) :=
    ((List.take_sublist _ _).filter _).map _
  exact hsub.trans ((List.sublist_append_left _ _).trans (h.order s))

theorem rest (h : Merged complete pending calls tagged) (hc : complete) (hs : pending s = []) :
    sentBy s tagged = sentBy s calls := by
  have hall := h.all hc s
  rwa [hs, List.append_nil] at hall

end Merged

end MoonJamRelay
