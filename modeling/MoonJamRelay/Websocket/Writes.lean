import MoonJamRelay.Websocket.Effects

/-!
# The writes of a connection

Whatever the threads do, at most one write is in progress, the messages are written in the order in
which they were accepted, and a message that waits is not forgotten.

* `Connection.WriteInv` : the phase of the writer, and which task and state belong to it.
* `writes_in_order` : what was written, what is being written and what waits, one after the other.
* `no_lost_wakeup` : a message waits only for a write or for a call of `write_frame`.
* `close_is_last` : a close frame is the last one, and there is one only.
-/

namespace MoonJamRelay

namespace Websocket

variable {c c' : Connection} {e : Event} {t : Task} {t' : Option Task} {m : Message}
  {phase : Writer.Phase}

/-! ### What tasks do to the writer -/

/-- What a task does to the writer. -/
inductive WriterEffect (c : Connection) : Task → Connection → Option Task → Prop
  | same {t : Task} {c' : Connection} {t' : Option Task} (hw : c'.writer = c.writer)
      (hdispatch : t ≠ .dispatch) (hrelease : t ≠ .releaseWrite)
      (hleft : ∀ x ∈ t', x ≠ .releaseWrite) : WriterEffect c t c' t'
  | push {t : Task} (m : Message) (hm : m.Outgoing) (ht : t = .push m ∨ m.opcode = .binary)
      (hdispatch : t ≠ .dispatch) (hrelease : t ≠ .releaseWrite) :
      WriterEffect c t (c.push m).1 (c.push m).2
  | dispatch : WriterEffect c .dispatch { c with writer := c.writer.post } none
  | release : WriterEffect c .releaseWrite c.releaseWrite.1 c.releaseWrite.2

theorem writer_terminate (c : Connection) : c.terminate.writer = c.writer := by
  rw [Connection.terminate]
  split_ifs <;> rfl

theorem state_terminate (c : Connection) : c.terminate.state = .closed := by
  rw [Connection.terminate]
  split_ifs with h
  · exact h
  · rfl

theorem Effect.writer (h : Effect c t c' t') (hfine : t.Fine) : WriterEffect c t c' t' := by
  cases h with
  | ends ht => exact .same rfl (by rintro rfl; exact ht) (by rintro rfl; exact ht) nofun
  | calls ht hs =>
    refine .same rfl (by rintro rfl; exact nomatch ht) (by rintro rfl; exact nomatch ht)
      fun x hx => ?_
    obtain rfl := Option.mem_some_iff.1 hx
    rintro rfl
    exact nomatch ht
  | push m ht =>
    rcases ht with rfl | ⟨m₀, rfl, hout⟩
    · exact .push m hfine.1 (.inl rfl) nofun nofun
    · obtain ⟨data, rfl⟩ := hfine
      obtain ⟨out, hout', hm, hop, -⟩ := prepareData_outgoing data
      obtain rfl := Except.ok.inj (hout'.symm.trans hout)
      exact .push out hm (.inr hop) nofun nofun
  | dispatch => exact .dispatch
  | releaseWrite => exact .release
  | readFrame => exact .same rfl nofun nofun nofun
  | ignore hs => exact .same rfl nofun nofun nofun
  | deliver hop hs =>
    refine .same rfl nofun nofun fun x hx => ?_
    obtain rfl := Option.mem_some_iff.1 hx
    exact nofun
  | record hop code reason => exact .same rfl nofun nofun nofun
  | closing ht hs code reason clean m hm hop =>
    refine .same rfl (by rintro rfl; exact ht) (by rintro rfl; exact ht) fun x hx => ?_
    obtain rfl := Option.mem_some_iff.1 hx
    exact nofun
  | terminate ht hs code reason clean =>
    exact .same (writer_terminate _) (by rintro rfl; exact ht) (by rintro rfl; exact ht) nofun
  | crash reason hs => exact .same rfl nofun nofun nofun

theorem Effect.state (h : Effect c t c' t') :
    (c.state = .closed → c'.state = .closed) ∧ (c'.state = .opened → c.state = .opened) := by
  cases h with
  | closing ht hs code reason clean m hm hop => exact ⟨fun h => absurd h hs, nofun⟩
  | terminate ht hs code reason clean =>
    exact ⟨fun _ => state_terminate _, fun h => nomatch (state_terminate _).symm.trans h⟩
  | _ => exact ⟨id, id⟩

theorem Step.state (h : Step c e c') :
    (c.state = .closed → c'.state = .closed) ∧ (c'.state = .opened → c.state = .opened) := by
  have hterminate : ∀ u : Connection, (c.state = .closed → u.terminate.state = .closed) ∧
      (u.terminate.state = .opened → c.state = .opened) := fun u =>
    ⟨fun _ => state_terminate u, fun h => nomatch (state_terminate u).symm.trans h⟩
  cases h with
  | io hio heff => exact heff.state
  | sender hk heff => exact heff.state
  | read hreading hio bytes => rw [(handleReadFrame_frame c bytes).1]; exact ⟨id, id⟩
  | readFailed hreading hio => exact hterminate _
  | timeout htimer hio => exact hterminate _
  | @endWrite i failed w hio hw =>
    rcases handleWriteFrame_cases { c with writer := w } failed with ⟨-, heq⟩ | ⟨-, heq⟩
    · rw [heq]
      exact hterminate _
    · rw [heq]
      exact ⟨id, id⟩
  | _ => exact ⟨id, id⟩

/-! ### The phases -/

/-- The phase of the writer, and what belongs to it. -/
structure Connection.WriteInv (c : Connection) (phase : Writer.Phase) : Prop where
  sound : c.writer.Sound phase
  release : .releaseWrite ∈ c.io ↔ phase = .ending
  stopped : phase = .stopped → c.state = .closed

theorem not_mem_of_later {ts : List Task} (hts : ∀ x ∈ ts, x.Later) (ht : ¬ t.Later) : t ∉ ts :=
  fun hmem => ht (hts t hmem)

theorem WriterEffect.sound (h : WriterEffect c t c' t') (hs : c.writer.Sound phase)
    (ht : t = .releaseWrite → phase = .ending) :
    (∃ phase', c'.writer.Sound phase' ∧
      (t ≠ .releaseWrite ∧ phase' = phase ∨ t = .releaseWrite ∧ phase' = .free)) ∧
      ∀ x ∈ t', x ≠ .releaseWrite := by
  have hdispatch : ∀ (b : Bool) (x : Task), x ∈ (if b then some Task.dispatch else none) →
      x ≠ .releaseWrite := by
    intro b x hx
    split_ifs at hx
    · obtain rfl := Option.mem_some_iff.1 hx
      exact nofun
    · exact nomatch hx
  cases h with
  | same hw _ hrelease hleft => exact ⟨⟨phase, hw ▸ hs, .inl ⟨hrelease, rfl⟩⟩, hleft⟩
  | push m _ _ _ hrelease =>
    exact ⟨⟨phase, hs.writePush m, .inl ⟨hrelease, rfl⟩⟩, hdispatch _⟩
  | dispatch => exact ⟨⟨phase, hs.post, .inl ⟨nofun, rfl⟩⟩, nofun⟩
  | release =>
    obtain rfl := ht rfl
    exact ⟨⟨.free, hs.releaseFlag, .inr ⟨rfl, rfl⟩⟩, hdispatch _⟩

theorem Step.writeInv (hstep : Step c e c') (hd : c.Disciplined) (h : c.WriteInv phase) :
    ∃ phase', c'.WriteInv phase' := by
  have hfree : c.io = [] → phase ≠ .ending := fun hio hphase => by
    have hmem := h.release.2 hphase
    rw [hio] at hmem
    exact nomatch hmem
  have hclosed := hstep.state.1
  cases hstep with
  | @io t rest c₁ t' hio heff =>
    have hrest : ∀ x ∈ rest, x.Later := fun x hx => hd.later x (by rw [hio]; exact hx)
    have hnot : Task.releaseWrite ∉ rest := not_mem_of_later hrest id
    have hmem : t = .releaseWrite → phase = .ending := fun ht =>
      h.release.1 (by rw [hio, ht]; exact List.mem_cons_self)
    obtain ⟨⟨phase', hs', hphase⟩, hleft⟩ :=
      (heff.writer (hd.fine t (by rw [hio]; exact List.mem_cons_self))).sound h.sound hmem
    have hno : Task.releaseWrite ∉ t'.toList ++ rest := by
      intro hx
      rcases List.mem_append.1 hx with hx | hx
      · exact hleft _ (Option.mem_toList.1 hx) rfl
      · exact hnot hx
    refine ⟨phase', hs', ⟨fun hx => absurd hx hno, fun he => ?_⟩, fun he => ?_⟩
    · rcases hphase with ⟨ht, rfl⟩ | ⟨-, rfl⟩
      · have hin := h.release.2 he
        rw [hio] at hin
        rcases List.mem_cons.1 hin with hin | hin
        · exact absurd hin.symm ht
        · exact absurd hin hnot
      · exact nomatch he
    · rcases hphase with ⟨-, rfl⟩ | ⟨-, rfl⟩
      · exact hclosed (h.stopped he)
      · exact nomatch he
  | @sender k t c₁ t' hk heff =>
    obtain ⟨ht, hfine⟩ := hd.senders k t hk
    have hne : t ≠ .releaseWrite := by
      rintro rfl
      exact ht
    obtain ⟨⟨phase', hs', hphase⟩, -⟩ := (heff.writer hfine).sound h.sound fun he => absurd he hne
    obtain rfl := hphase.elim And.right fun hp => absurd hp.1 hne
    refine ⟨phase', hs', ?_, fun he => hclosed (h.stopped he)⟩
    change _ ∈ c₁.io ↔ _
    rw [heff.sameThreads.io]
    exact h.release
  | call hk data => exact ⟨phase, h.sound, h.release, h.stopped⟩
  | read hreading hio bytes =>
    have hnot := not_mem_of_later (handleReadFrame_later c bytes) (t := .releaseWrite) id
    refine ⟨phase, (handleReadFrame_frame c bytes).2.1 ▸ h.sound,
      ⟨fun hx => absurd hx hnot, fun he => absurd he (hfree hio)⟩, fun he => hclosed (h.stopped he)⟩
  | readFailed hreading hio =>
    refine ⟨phase, (writer_terminate _).symm ▸ h.sound, ?_, fun he => hclosed (h.stopped he)⟩
    rw [(sameThreads_terminate _).io]
    exact h.release
  | timeout htimer hio =>
    refine ⟨phase, (writer_terminate _).symm ▸ h.sound, ?_, fun he => hclosed (h.stopped he)⟩
    rw [(sameThreads_terminate _).io]
    exact h.release
  | writeFrame hposted hio =>
    by_cases hphase : phase = .free
    · subst hphase
      have hnot : Task.releaseWrite ∉ c.io := by
        rw [hio]
        exact nofun
      rcases h.sound.unpost.writeFrame_of_free with ⟨-, heq⟩ | hwriting
      · refine ⟨.free, ?_, h.release, nofun⟩
        change c.writer.unpost.writeFrame.Sound .free
        rw [heq]
        exact h.sound.unpost
      · exact ⟨.writing, hwriting, ⟨fun hx => absurd hx hnot, nofun⟩, nofun⟩
    · refine ⟨phase, ?_, h.release, h.stopped⟩
      change c.writer.unpost.writeFrame.Sound phase
      rw [h.sound.unpost.writeFrame_of_flag hphase]
      exact h.sound.unpost
  | transmit hw =>
    obtain ⟨rfl, hs'⟩ := h.sound.transmit hw
    exact ⟨.writing, hs', h.release, h.stopped⟩
  | @endWrite i failed w hio hw =>
    obtain ⟨rfl, -, -, -, -, hs'⟩ := h.sound.endWrite hw
    rcases handleWriteFrame_cases { c with writer := w } failed with ⟨hstop, heq⟩ | ⟨hstop, heq⟩
    · rw [if_pos hstop] at hs'
      rw [heq]
      refine ⟨.stopped, (writer_terminate _).symm ▸ hs', ?_, fun _ => state_terminate _⟩
      rw [(sameThreads_terminate _).io]
      change _ ∈ c.io ↔ _
      rw [hio]
      exact ⟨nofun, nofun⟩
    · rw [if_neg hstop] at hs'
      rw [heq]
      exact ⟨.ending, hs', ⟨fun _ => rfl, fun _ => List.mem_cons_self⟩, nofun⟩
  | shutdown hs => exact ⟨phase, h.sound, h.release, h.stopped⟩
  | @handler _ t rest hio ht =>
    have hmem : phase = .ending → .releaseWrite ∈ t :: c.io := fun he =>
      List.mem_cons_of_mem _ (h.release.2 he)
    refine ⟨phase, h.sound, ⟨fun hx => ?_, hmem⟩, h.stopped⟩
    rcases List.mem_cons.1 hx with rfl | hx
    · rcases ht with ⟨data, -, hdata⟩ | ⟨reason, -, hreason⟩
      · exact nomatch hdata
      · exact nomatch hreason
    · exact h.release.1 hx

theorem writeInv_of_reachable (hc : connection.Reachable c) : ∃ phase, c.WriteInv phase := by
  refine reachable_invariant (I := fun c => ∃ phase, c.WriteInv phase) hc
    ⟨.free, Writer.sound_new, ⟨nofun, nofun⟩, nofun⟩ ?_
  rintro u e u' hu ⟨phase, h⟩ hstep
  exact hstep.writeInv (disciplined_of_reachable hu) h

/-! ### Messages that wait -/

/-- If there is something to write, somebody has been told, or is about to be. -/
def Connection.Awake (c : Connection) : Prop :=
  c.writer.needsWriting = true →
    0 < c.writer.posted ∨ .dispatch ∈ c.io ∨ ∃ k, c.senders k = some .dispatch

theorem dispatch_of_needsWriting {b : Bool} (h : b = true) :
    Task.dispatch ∈ if b then some Task.dispatch else none := by
  rw [if_pos h]
  rfl

/-- A task that makes something to be written leaves the task to tell it. -/
theorem WriterEffect.awake (h : WriterEffect c t c' t') (hneeds : c'.writer.needsWriting = true) :
    .dispatch ∈ t' ∨ 0 < c'.writer.posted ∨
      c.writer.needsWriting = true ∧ t ≠ .dispatch ∧ c'.writer.posted = c.writer.posted := by
  cases h with
  | same hw hdispatch _ _ => exact .inr (.inr ⟨hw ▸ hneeds, hdispatch, by rw [hw]⟩)
  | push m _ _ _ _ => exact .inl (dispatch_of_needsWriting hneeds)
  | dispatch => exact .inr (.inl (Nat.succ_pos _))
  | release => exact .inl (dispatch_of_needsWriting hneeds)

theorem Step.awake (hstep : Step c e c') (hd : c.Disciplined) (hw : ∃ phase, c.WriteInv phase)
    (h : c.Awake) : c'.Awake := by
  obtain ⟨phase, hinv⟩ := hw
  intro hneeds
  cases hstep with
  | @io t rest c₁ t' hio heff =>
    have hfine := hd.fine t (by rw [hio]; exact List.mem_cons_self)
    have hsenders : c₁.senders = c.senders := heff.sameThreads.senders
    rcases (heff.writer hfine).awake hneeds with hleft | hposted | ⟨hbefore, hne, hposted⟩
    · exact .inr (.inl (List.mem_append_left _ (Option.mem_toList.2 hleft)))
    · exact .inl hposted
    · rcases h hbefore with hp | hin | ⟨k, hk⟩
      · exact .inl (hposted.symm ▸ hp)
      · rw [hio] at hin
        rcases List.mem_cons.1 hin with hin | hin
        · exact absurd hin.symm hne
        · exact (hd.later .dispatch (by rw [hio]; exact hin)).elim
      · exact .inr (.inr ⟨k, hsenders.symm ▸ hk⟩)
  | @sender k t c₁ t' hk heff =>
    obtain ⟨-, hfine⟩ := hd.senders k t hk
    have hio : c₁.io = c.io := heff.sameThreads.io
    have hself : Function.update c.senders k t' k = t' := Function.update_self ..
    rcases (heff.writer hfine).awake hneeds with hleft | hposted | ⟨hbefore, hne, hposted⟩
    · exact .inr (.inr ⟨k, hself.trans hleft⟩)
    · exact .inl hposted
    · rcases h hbefore with hp | hin | ⟨k', hk'⟩
      · exact .inl (hposted.symm ▸ hp)
      · exact .inr (.inl (hio.symm ▸ hin))
      · refine .inr (.inr ⟨k', ?_⟩)
        have hkk : k' ≠ k := by
          rintro rfl
          exact hne (Option.some.inj (hk.symm.trans hk'))
        exact (Function.update_of_ne hkk ..).trans hk'
  | @call k hk data =>
    rcases h hneeds with hp | hin | ⟨k', hk'⟩
    · exact .inl hp
    · exact .inr (.inl hin)
    · refine .inr (.inr ⟨k', ?_⟩)
      have hkk : k' ≠ k := by
        rintro rfl
        exact nomatch hk.symm.trans hk'
      exact (Function.update_of_ne hkk ..).trans hk'
  | read hreading hio bytes =>
    obtain ⟨-, hwriter, hsenders, -⟩ := handleReadFrame_frame c bytes
    rw [hwriter] at hneeds ⊢
    rw [hsenders]
    rcases h hneeds with hp | hin | hk
    · exact .inl hp
    · rw [hio] at hin
      exact nomatch hin
    · exact .inr (.inr hk)
  | readFailed hreading hio =>
    rw [writer_terminate] at hneeds ⊢
    rw [(sameThreads_terminate _).io, (sameThreads_terminate _).senders]
    exact h hneeds
  | timeout htimer hio =>
    rw [writer_terminate] at hneeds ⊢
    rw [(sameThreads_terminate _).io, (sameThreads_terminate _).senders]
    exact h hneeds
  | writeFrame hposted hio =>
    exact nomatch (hinv.sound.unpost.needsWriting_writeFrame).symm.trans hneeds
  | transmit hw =>
    obtain ⟨-, hs'⟩ := hinv.sound.transmit hw
    exact nomatch hs'.needsWriting_of_flag (by decide) ▸ hneeds
  | @endWrite i failed w hio hw =>
    obtain ⟨-, -, -, -, -, hs'⟩ := hinv.sound.endWrite hw
    have hflag : w.clearCurrent.needsWriting = false :=
      hs'.needsWriting_of_flag (by split_ifs <;> decide)
    rcases handleWriteFrame_cases { c with writer := w } failed with ⟨-, heq⟩ | ⟨-, heq⟩
    · rw [heq, writer_terminate] at hneeds
      exact nomatch hflag.symm.trans hneeds
    · rw [heq] at hneeds
      exact nomatch hflag.symm.trans hneeds
  | shutdown hs => exact h hneeds
  | handler hio ht =>
    rcases h hneeds with hp | hin | hk
    · exact .inl hp
    · exact .inr (.inl (List.mem_cons_of_mem _ hin))
    · exact .inr (.inr hk)

theorem awake_of_reachable (hc : connection.Reachable c) : c.Awake :=
  reachable_invariant hc nofun fun _ _ _ hu h hstep =>
    hstep.awake (disciplined_of_reachable hu) (writeInv_of_reachable hu) h

/-! ### Closes -/

/-- The messages that were accepted, and those that are about to be. -/
structure Connection.MessagesInv (c : Connection) : Prop where
  outgoing : ∀ m ∈ c.writer.accepted, m.Outgoing
  noClose : c.state = .opened →
    (∀ m ∈ c.writer.accepted, m.opcode ≠ .close) ∧ ∀ m, .push m ∈ c.io → m.opcode ≠ .close

theorem WriterEffect.accepted (h : WriterEffect c t c' t') :
    c'.writer.accepted = c.writer.accepted ∨
      ∃ m : Message, m.Outgoing ∧ (t = .push m ∨ m.opcode = .binary) ∧
        c'.writer.accepted = c.writer.accepted ++ [m] := by
  cases h with
  | same hw _ _ _ => exact .inl (by rw [hw])
  | push m hm ht _ _ => exact .inr ⟨m, hm, ht, rfl⟩
  | dispatch => exact .inl rfl
  | release => exact .inl rfl

/-- An open connection is not about to push a close. -/
theorem Effect.push_of_opened (h : Effect c t c' t') (hs : c'.state = .opened)
    (hm : Task.push m ∈ t') : m.opcode ≠ .close := by
  cases h with
  | calls ht hs' =>
    obtain rfl := Option.mem_some_iff.1 hm
    cases ht with
    | pong hm hout hop => simp [hop]
  | deliver hop hs' => cases Option.mem_some_iff.1 hm
  | closing ht hs' code reason clean m' hm' hop => cases hs
  | push m' ht =>
    rw [Connection.push] at hm
    split_ifs at hm
    · cases Option.mem_some_iff.1 hm
    · cases hm
  | releaseWrite =>
    rw [Connection.releaseWrite] at hm
    split_ifs at hm
    · cases Option.mem_some_iff.1 hm
    · cases hm
  | _ => cases hm

theorem Connection.MessagesInv.of_same (h : c.MessagesInv)
    (haccepted : c'.writer.accepted = c.writer.accepted)
    (hs : c'.state = .opened → c.state = .opened)
    (hpush : ∀ m, .push m ∈ c'.io → Task.push m ∈ c.io) : c'.MessagesInv :=
  ⟨haccepted ▸ h.outgoing, fun ho =>
    ⟨haccepted ▸ (h.noClose (hs ho)).1, fun m hm => (h.noClose (hs ho)).2 m (hpush m hm)⟩⟩

theorem Connection.MessagesInv.terminate (h : c.MessagesInv)
    (haccepted : c'.writer.accepted = c.writer.accepted) : c'.terminate.MessagesInv := by
  refine ⟨?_, fun ho => nomatch (state_terminate c').symm.trans ho⟩
  rw [writer_terminate, haccepted]
  exact h.outgoing

theorem accepted_writeFrame (w : Writer) : w.writeFrame.accepted = w.accepted := by
  rw [Writer.writeFrame]
  split_ifs
  · rfl
  · simp only
    split_ifs <;> rfl

theorem Step.messages (hstep : Step c e c') (hd : c.Disciplined) (hw : ∃ phase, c.WriteInv phase)
    (h : c.MessagesInv) : c'.MessagesInv := by
  obtain ⟨phase, hinv⟩ := hw
  have hstate := hstep.state.2
  cases hstep with
  | @io t rest c₁ t' hio heff =>
    have hhead : t ∈ c.io := by
      rw [hio]
      exact List.mem_cons_self
    have haccepted := (heff.writer (hd.fine t hhead)).accepted
    refine ⟨fun m hm => ?_, fun ho => ⟨fun m hm => ?_, fun m hm => ?_⟩⟩
    · rcases haccepted with heq | ⟨m', hm', -, heq⟩
      · exact h.outgoing m (heq ▸ hm)
      · rcases List.mem_append.1 (heq ▸ hm) with hm | hm
        · exact h.outgoing m hm
        · exact List.mem_singleton.1 hm ▸ hm'
    · obtain ⟨hold, hpush⟩ := h.noClose (hstate ho)
      rcases haccepted with heq | ⟨m', -, ht, heq⟩
      · exact hold m (heq ▸ hm)
      · rcases List.mem_append.1 (heq ▸ hm) with hm | hm
        · exact hold m hm
        · obtain rfl := List.mem_singleton.1 hm
          rcases ht with rfl | hop
          · exact hpush m hhead
          · simp [hop]
    · rcases List.mem_append.1 hm with hm | hm
      · exact heff.push_of_opened ho (Option.mem_toList.1 hm)
      · exact (hd.later (.push m) (by rw [hio]; exact hm)).elim
  | @sender k t c₁ t' hk heff =>
    obtain ⟨ht, hfine⟩ := hd.senders k t hk
    have hio : c₁.io = c.io := heff.sameThreads.io
    refine ⟨fun m hm => ?_, fun ho => ⟨fun m hm => ?_, fun m hm => ?_⟩⟩
    · rcases (heff.writer hfine).accepted with heq | ⟨m', hm', -, heq⟩
      · exact h.outgoing m (heq ▸ hm)
      · rcases List.mem_append.1 (heq ▸ hm) with hm | hm
        · exact h.outgoing m hm
        · exact List.mem_singleton.1 hm ▸ hm'
    · have hold := (h.noClose (hstate ho)).1
      rcases (heff.writer hfine).accepted with heq | ⟨m', -, hpush, heq⟩
      · exact hold m (heq ▸ hm)
      · rcases List.mem_append.1 (heq ▸ hm) with hm | hm
        · exact hold m hm
        · obtain rfl := List.mem_singleton.1 hm
          rcases hpush with rfl | hop
          · exact ht.elim
          · simp [hop]
    · exact (h.noClose (hstate ho)).2 m (hio ▸ hm)
  | call hk data => exact h.of_same rfl id fun _ => id
  | read hreading hio bytes =>
    refine h.of_same (by rw [(handleReadFrame_frame c bytes).2.1]) hstate fun m hm => ?_
    exact (handleReadFrame_later c bytes _ hm).elim
  | readFailed hreading hio => exact h.terminate rfl
  | timeout htimer hio => exact h.terminate rfl
  | writeFrame hposted hio => exact h.of_same (accepted_writeFrame _) id fun _ => id
  | transmit hw =>
    obtain ⟨rest, -, rfl⟩ := Option.map_eq_some_iff.1 hw
    exact h.of_same rfl id fun _ => id
  | @endWrite i failed w hio hw =>
    obtain ⟨-, -, haccepted, -⟩ := hinv.sound.endWrite hw
    rcases handleWriteFrame_cases { c with writer := w } failed with ⟨-, heq⟩ | ⟨-, heq⟩
    · rw [heq]
      exact h.terminate haccepted
    · rw [heq]
      exact h.of_same haccepted id fun m hm => nomatch List.mem_singleton.1 hm
  | shutdown hs => exact h.of_same rfl id fun _ => id
  | handler hio ht =>
    refine h.of_same rfl id fun m hm => ?_
    rcases List.mem_cons.1 hm with rfl | hm
    · rcases ht with ⟨data, -, hdata⟩ | ⟨reason, -, hreason⟩
      · exact nomatch hdata
      · exact nomatch hreason
    · exact hm

theorem messages_of_reachable (hc : connection.Reachable c) : c.MessagesInv :=
  reachable_invariant hc ⟨nofun, fun _ => ⟨nofun, nofun⟩⟩ fun _ _ _ hu h hstep =>
    hstep.messages (disciplined_of_reachable hu) (writeInv_of_reachable hu) h

/-! ### The results -/

/-- What the phases have in common. -/
theorem Writer.Sound.summary {w : Writer} (h : w.Sound phase) :
    w.writes.length ≤ 1 ∧ w.wire ++ w.writes.flatten <+: messageBytes w.taken ∧
      (phase ≠ .stopped → w.wire ++ w.writes.flatten = messageBytes w.taken) ∧
      ∀ m ∈ w.taken.dropLast, m.terminal = false := by
  have hphase := h.phase
  have hwritten : w.Written → w.writes.length ≤ 1 ∧
      w.wire ++ w.writes.flatten <+: messageBytes w.taken ∧
      (phase ≠ .stopped → w.wire ++ w.writes.flatten = messageBytes w.taken) ∧
      ∀ m ∈ w.taken.dropLast, m.terminal = false := by
    rintro ⟨hstill, hwire, hgoing⟩
    have hall : w.wire ++ w.writes.flatten = messageBytes w.taken := by
      rw [hstill.writes, List.flatten_nil, List.append_nil, hwire]
    exact ⟨by simp [hstill.writes], hall ▸ List.prefix_rfl, fun _ => hall,
      fun m hm => hgoing m (List.mem_of_mem_dropLast hm)⟩
  cases phase with
  | free => exact hwritten hphase
  | ending => exact hwritten hphase
  | writing =>
    obtain ⟨-, -, -, ⟨rest, hwrites, hwire⟩, -, hgoing⟩ := hphase
    rw [hwrites, List.flatten_singleton, hwire]
    exact ⟨Nat.le_refl 1, List.prefix_rfl, fun _ => rfl, hgoing⟩
  | stopped =>
    obtain ⟨hstill, hwire, hgoing⟩ := hphase
    rw [hstill.writes, List.flatten_nil, List.append_nil]
    exact ⟨Nat.zero_le 1, hwire, fun h => absurd rfl h, hgoing⟩

/-- A message that is sent and written. -/
def oneSend : List Event :=
  [.call 0 [1], .sender 0, .sender 0, .sender 0, .sender 0, .writeFrame, .transmit 0 3,
    .endWrite 0 false, .io]

/-- Two messages, which two threads send at the same time. -/
def twoSends : List Event :=
  [.call 0 [1], .call 1 [2], .sender 0, .sender 1, .sender 1, .sender 0, .sender 1, .sender 0,
    .sender 0, .writeFrame, .transmit 0 4]

/-- **Writes in order**: at any moment at most one write is in progress, and the messages that were
accepted are those that were taken for writes, followed by those that wait. What was written and
what is still to be written in the current write are the bytes of the messages that were taken,
unless the connection is closed: then a part may be missing at the end. -/
theorem writes_in_order (c : Connection) (hc : connection.Reachable c) :
    c.writer.accepted = c.writer.taken ++ c.writer.sendQueue ∧ c.writer.writes.length ≤ 1 ∧
      c.writer.wire ++ c.writer.writes.flatten <+: messageBytes c.writer.taken ∧
      (c.state ≠ .closed →
        c.writer.wire ++ c.writer.writes.flatten = messageBytes c.writer.taken) := by
  obtain ⟨phase, hinv⟩ := writeInv_of_reachable hc
  obtain ⟨hlen, hbegin, hall, -⟩ := hinv.sound.summary
  exact ⟨hinv.sound.queue, hlen, hbegin, fun hs => hall fun he => hs (hinv.stopped he)⟩

/-- After a part of the first of two writes. -/
theorem writes_in_order_two : ∃ c, connection.run .new twoSends = some c ∧
    c.writer.accepted = c.writer.taken ++ c.writer.sendQueue ∧ c.writer.writes.length ≤ 1 ∧
      c.writer.wire ++ c.writer.writes.flatten <+: messageBytes c.writer.taken ∧
      (c.state ≠ .closed →
        c.writer.wire ++ c.writer.writes.flatten = messageBytes c.writer.taken) :=
  ⟨_, rfl, writes_in_order _ (.of_run (show connection.run .new twoSends = some _ from rfl))⟩

/-- If no write is in progress and none has just ended, the writer is free. -/
theorem Connection.WriteInv.free (h : c.WriteInv phase) (hs : c.state ≠ .closed)
    (hwrites : c.writer.writes = []) (hrelease : .releaseWrite ∉ c.io) : phase = .free := by
  have hphase := h.sound.phase
  cases phase with
  | free => rfl
  | writing =>
    obtain ⟨rest, hrest, -⟩ := hphase.write
    exact nomatch hwrites.symm.trans hrest
  | ending => exact absurd (h.release.2 rfl) hrelease
  | stopped => exact absurd (h.stopped rfl) hs

/-- A free writer whose messages nobody is about to write has no message. -/
theorem Connection.Awake.sendQueue (h : c.Awake) (hsound : c.writer.Sound .free)
    (hposted : c.writer.posted = 0) (hio : .dispatch ∉ c.io)
    (hsenders : ∀ k, c.senders k ≠ some .dispatch) : c.writer.sendQueue = [] := by
  by_contra hne
  have hneeds : c.writer.needsWriting = true := by
    simp [Writer.needsWriting, hsound.flag, hne]
  rcases h hneeds with hp | hin | ⟨k, hk⟩
  · exact Nat.lt_irrefl 0 (hposted ▸ hp)
  · exact hio hin
  · exact hsenders k hk

/-- A free writer without a message has written all that was accepted. -/
theorem Writer.Sound.wire {w : Writer} (h : w.Sound .free) (hqueue : w.sendQueue = []) :
    w.wire = messageBytes w.accepted := by
  have hwritten : w.Written := h.phase
  rw [h.queue, hqueue, List.append_nil, hwritten.wire]

/-- **No lost wake-up**: while the connection is not closed, a message waits only if a write is in
progress or has just ended, or if a call of `write_frame` is posted or about to be posted. When
nothing of this is the case, all messages that were accepted were written. -/
theorem no_lost_wakeup (c : Connection) (hc : connection.Reachable c) (hs : c.state ≠ .closed)
    (hwrites : c.writer.writes = []) (hrelease : .releaseWrite ∉ c.io)
    (hposted : c.writer.posted = 0) (hio : .dispatch ∉ c.io)
    (hsenders : ∀ k, c.senders k ≠ some .dispatch) :
    c.writer.sendQueue = [] ∧ c.writer.wire = messageBytes c.writer.accepted := by
  obtain ⟨phase, hinv⟩ := writeInv_of_reachable hc
  obtain rfl := hinv.free hs hwrites hrelease
  have hqueue := (awake_of_reachable hc).sendQueue hinv.sound hposted hio hsenders
  exact ⟨hqueue, hinv.sound.wire hqueue⟩

/-- A message was sent, and nothing is left to be done. -/
theorem no_lost_wakeup_one : ∃ c, connection.run .new oneSend = some c ∧
    c.writer.sendQueue = [] ∧ c.writer.wire = messageBytes c.writer.accepted := by
  refine ⟨_, rfl, no_lost_wakeup _
    (.of_run (show connection.run .new oneSend = some _ from rfl)) nofun rfl nofun rfl nofun
    fun k => ?_⟩
  cases k with
  | zero => exact (nofun : (none : Option Task) ≠ some .dispatch)
  | succ k => exact (nofun : (none : Option Task) ≠ some .dispatch)

/-- **The close is last**: of the messages that are taken for writes only the last one can be a
close frame, so no message that was accepted after a close frame is written, also not another close
frame. While the connection is open, no close frame was accepted. -/
theorem close_is_last (c : Connection) (hc : connection.Reachable c) :
    (∀ m ∈ c.writer.taken.dropLast, m.opcode ≠ .close) ∧
      (∀ before m after, c.writer.accepted = before ++ m :: after → m.opcode = .close →
        c.writer.taken <+: before ++ [m]) ∧
      (c.state = .opened → ∀ m ∈ c.writer.accepted, m.opcode ≠ .close) := by
  obtain ⟨phase, hinv⟩ := writeInv_of_reachable hc
  have hmessages := messages_of_reachable hc
  have hqueue := hinv.sound.queue
  have hlast : ∀ m ∈ c.writer.taken.dropLast, m.opcode ≠ .close := by
    intro m hm hop
    have haccepted : m ∈ c.writer.accepted := by
      rw [hqueue]
      exact List.mem_append_left _ (List.mem_of_mem_dropLast hm)
    have hterminal := ((hmessages.outgoing m haccepted).terminal).2 hop
    exact nomatch (hinv.sound.summary.2.2.2 m hm).symm.trans hterminal
  refine ⟨hlast, fun before m after hsplit hop => ?_, fun hs => (hmessages.noClose hs).1⟩
  have htaken : c.writer.taken <+: c.writer.accepted := hqueue ▸ List.prefix_append _ _
  have hbefore : before ++ [m] <+: c.writer.accepted := ⟨after, by simp [hsplit]⟩
  rcases List.prefix_or_prefix_of_prefix htaken hbefore with h | ⟨more, hmore⟩
  · exact h
  · -- if more was taken, the close frame is not the last message that was taken
    by_cases hnil : more = []
    · rw [← hmore, hnil, List.append_nil]
    · refine absurd hop (hlast m ?_)
      rw [← hmore, List.dropLast_append_of_ne_nil hnil]
      simp

/-- The bytes of a message of one byte and of a close frame. -/
def messageAndClose : List UInt8 := [0x82, 0x81, 0, 0, 0, 0, 7, 0x88, 0x80, 0, 0, 0, 0]

/-- A thread is in `send` while a message and a close frame are read; its message is accepted after
the answer to the close, which is written. -/
def answeredClose : List Event :=
  [.call 0 [1], .sender 0, .sender 0, .read messageAndClose] ++ List.replicate 6 .io ++
    [.sender 0, .writeFrame, .transmit 0 4]

/-- The message that was accepted after the close frame is not taken. -/
theorem close_is_last_answered : ∃ c, connection.run .new answeredClose = some c ∧
    c.writer.accepted.map Message.opcode = [.close, .binary] ∧
    c.writer.taken.map Message.opcode = [.close] ∧
    (∀ m ∈ c.writer.taken.dropLast, m.opcode ≠ .close) ∧
      (∀ before m after, c.writer.accepted = before ++ m :: after → m.opcode = .close →
        c.writer.taken <+: before ++ [m]) ∧
      (c.state = .opened → ∀ m ∈ c.writer.accepted, m.opcode ≠ .close) := by
  have hrun : (connection.run .new answeredClose).any (fun c => decide
      (c.writer.accepted.map Message.opcode = [.close, .binary] ∧
        c.writer.taken.map Message.opcode = [.close])) = true := by
    decide +kernel
  obtain ⟨c, hc, hp⟩ := (Option.any_eq_true _ _).1 hrun
  obtain ⟨haccepted, htaken⟩ := of_decide_eq_true hp
  exact ⟨c, hc, haccepted, htaken, close_is_last c (.of_run hc)⟩

end Websocket

end MoonJamRelay
