import MoonJamRelay.Machine.Coupled
import MoonJamRelay.Requests.Drawn
import MoonJamRelay.Threads.Admission

/-!
# The program

`main` starts the key API and the relay in one process, with one key table.  All their threads run
at the same time; they meet where a handler of the API swaps the table, or looks into it.

* `program` : the relay and the API side by side.
* `Program.Linked` : the relay looks into the table of the API, so every table that was ever looked
  into came from a scan of the key files; `linked_of_reachable`.
* `only_drawn_keys` : nobody creates a room, and nobody sends or receives in one, without a key of
  the pair that a `/create` with the secret has drawn for that room.
-/

namespace MoonJamRelay

/-- What happens next in the program. -/
inductive ProgramLabel where
  /-- A thread of the relay steps, or the websocket library calls one of its handlers. -/
  | relay (l : Label)
  /-- The HTTP library calls a handler of the API, or a handler steps. -/
  | api (l : RequestLabel)
  deriving DecidableEq

namespace Program

variable {D : Type*} [DecidableEq D]

/-- What a step is for the relay and for the API.  The table is locked for a swap, and when a
handler of the API looks for a key it has drawn. -/
def moves (s : System) (t : ApiSystem D) : ProgramLabel → Option (List Label × List RequestLabel)
  | .relay (.refreshKeys _) => none
  | .relay l => some ([l], [])
  | .api (.step n) =>
    match t.pc n with
    | .swap scan _ => some ([.refreshKeys ⟨scan.keys⟩], [.step n])
    | _ => some ([], [.step n])
  | .api (.draw n r) => if s.owner .key = none then some ([], [.draw n r]) else none
  | .api l => some ([], [l])

end Program

/-- The program. -/
def program {D : Type*} [DecidableEq D] (inst : Installation D) (start : ApiServer D) :
    Machine (System × ApiSystem D) ProgramLabel :=
  Machine.couple (relaySystem start.keyManager) (apiSystem inst start) Program.moves

namespace System

variable {s s' : System} {l : Label}

theorem keys_of_next (h : s.next l = some s') (hl : ∀ table, l ≠ .refreshKeys table) :
    s'.keys = s.keys := by
  have hlocked : ∀ {t wants exec}, s.locked t wants exec = some s' →
      (∀ s₁, exec = some s₁ → s₁.keys = s.keys) → s'.keys = s.keys := by
    intro t wants exec h hexec
    rcases locked_eq_some h with ⟨m, -, -, rfl⟩ | ⟨h, -⟩
    · rfl
    · exact hexec _ h
  cases l with
  | onOpen | onMessage | onClose =>
    simp only [next] at h
    split_ifs at h
    exact (congrArg System.keys (Option.some.inj h)).symm
  | endSession => exact (congrArg System.keys (Option.some.inj h)).symm
  | refreshKeys table => exact absurd rfl (hl table)
  | relay =>
    refine hlocked h fun s₁ h₁ => ?_
    obtain ⟨s₂, h₂, rfl⟩ := Option.map_eq_some_iff.1 h₁
    cases relayStep_of_exec h₂ <;> rfl
  | room t =>
    refine hlocked h fun s₁ h₁ => ?_
    obtain ⟨s₂, h₂, rfl⟩ := Option.map_eq_some_iff.1 h₁
    cases roomStep_of_exec h₂ <;> rfl
  | worker k => cases workerStep_of_exec h <;> rfl

theorem resolved_of_next (h : s.next l = some s') {handle : ConnectionHdl} {message : List UInt8}
    {keys : KeyManager} (hm : .resolved handle message keys ∈ s'.log) :
    .resolved handle message keys ∈ s.log ∨ keys = s.keys := by
  have hsnoc : ∀ e, (∀ handle message keys, e ≠ .resolved handle message keys) →
      .resolved handle message keys ∈ s.log ++ [e] → .resolved handle message keys ∈ s.log :=
    fun e he hm => (List.mem_append.1 hm).resolve_right fun hm =>
      he _ _ _ (List.mem_singleton.1 hm).symm
  have hlook : ∀ handle' message', .resolved handle message keys ∈
      s.log ++ [.resolved handle' message' s.keys] →
      .resolved handle message keys ∈ s.log ∨ keys = s.keys := by
    intro handle' message' hm
    refine (List.mem_append.1 hm).imp_right fun hm => ?_
    cases List.mem_singleton.1 hm
    rfl
  cases next_step h with
  | call l hst => cases hst <;> exact .inl hm
  | acquire => exact .inl hm
  | relay hst =>
    cases hst with
    | unknownKey | getRoom => exact hlook _ _ hm
    | claimIdentifier | erasePackets | appendPacket =>
      exact .inl (hsnoc _ (fun _ _ _ he => by cases he) hm)
    | _ => exact .inl hm
  | room t hst =>
    cases hst with
    | getPackets | getConnections => exact .inl (hsnoc _ (fun _ _ _ he => by cases he) hm)
    | _ => exact .inl hm
  | worker k hst =>
    cases hst with
    | send => exact .inl (hsnoc _ (fun _ _ _ he => by cases he) hm)
    | _ => exact .inl hm

end System

namespace Program

variable {D : Type*} [DecidableEq D] {inst : Installation D} {s s' : System} {t t' : ApiSystem D}
  {j : ProgramLabel} {ls : List Label} {ks : List RequestLabel}

/-! ### One table -/

/-- A step of the program: of the relay alone, of the API alone, or a swap of the table. -/
theorem moves_cases {start : ApiServer D} (h : moves s t j = some (ls, ks))
    (hs : (relaySystem start.keyManager).run s ls = some s')
    (ht : (apiSystem inst start).run t ks = some t') :
    (t' = t ∧ ∃ l, s.next l = some s' ∧ ∀ table, l ≠ .refreshKeys table) ∨
    (s' = s ∧ ∃ l, t.next inst l = some t' ∧
      ∀ n, l = .step n → ∀ scan next, t.pc n ≠ .swap scan next) ∨
    ∃ n scan next, t.pc n = .swap scan next ∧ s.next (.refreshKeys ⟨scan.keys⟩) = some s' ∧
      t.next inst (.step n) = some t' := by
  have hone : ∀ {l}, (relaySystem start.keyManager).run s [l] = some s' → s.next l = some s' :=
    fun h => (Machine.run_singleton _ _ _).symm.trans h
  have hone' : ∀ {l}, (apiSystem inst start).run t [l] = some t' → t.next inst l = some t' :=
    fun h => (Machine.run_singleton _ _ _).symm.trans h
  cases j with
  | relay l =>
    cases l with
    | refreshKeys => cases h
    | _ =>
      cases h
      exact .inl ⟨(Option.some.inj ht).symm, _, hone hs, nofun⟩
  | api l =>
    cases l with
    | step n =>
      simp only [moves] at h
      split at h <;> cases h
      · rename_i scan next hpc
        exact .inr (.inr ⟨n, scan, next, hpc, hone hs, hone' ht⟩)
      · rename_i hpc
        refine .inr (.inl ⟨(Option.some.inj hs).symm, _, hone' ht, fun m he scan next hm => ?_⟩)
        cases he
        exact hpc scan next hm
    | draw n r =>
      simp only [moves] at h
      split_ifs at h
      cases h
      exact .inr (.inl ⟨(Option.some.inj hs).symm, _, hone' ht, nofun⟩)
    | begin | entry =>
      cases h
      exact .inr (.inl ⟨(Option.some.inj hs).symm, _, hone' ht, nofun⟩)

theorem drawn_of_next {l : RequestLabel} (hd : ApiSystem.Dispatched inst t)
    (hst : t.next inst l = some t') {keys : KeyPair} (h : t.Drawn inst keys) :
    t'.Drawn inst keys := by
  obtain ⟨request, -, rfl⟩ | ⟨n, hstep⟩ := ApiSystem.handlerStep_of_next hst
  · exact h.arrive hd request
  · exact h.step hstep

theorem keyManager_of_next {l : RequestLabel} (hst : t.next inst l = some t')
    (hl : ∀ n, l = .step n → ∀ scan next, t.pc n ≠ .swap scan next) :
    t'.keyManager = t.keyManager := by
  obtain ⟨request, -, rfl⟩ | ⟨n, hstep⟩ := ApiSystem.handlerStep_of_next hst
  · rfl
  · exact hstep.table.2 fun scan next hpc => hl n (hstep.table.1 scan next hpc).1 scan next hpc

variable (inst s t) in
/-- The relay uses the table of the API, and all tables it ever looked into had only pairs that were
drawn. -/
structure Linked : Prop where
  table : s.keys = t.keyManager
  looked : ∀ handle message keys, .resolved handle message keys ∈ s.log →
    ∀ e ∈ keys.keys, t.DrawnEntry inst e

theorem linked_of_reachable {files : FileSystem D} {order : ScanOrder} {u : System × ApiSystem D}
    (hempty : ∀ name, files.contents (inst.keys, name) = none)
    (h : (program inst (.start inst files order)).Reachable u) : Linked inst u.1 u.2 := by
  refine h.linked ⟨rfl, fun _ _ _ hm => nomatch hm⟩ ?_
  intro s t j ls ks s' t' _ ht hlinked hmoves hs ht'
  obtain ⟨hsourced, hd⟩ := ApiSystem.sourced_of_reachable hempty ht
  -- a look-up finds the table of its time, which has drawn pairs only
  have hlooked : ∀ l, s.next l = some s' → ∀ handle message keys,
      .resolved handle message keys ∈ s'.log → ∀ e ∈ keys.keys, t.DrawnEntry inst e := by
    intro l hl handle message keys hm
    rcases System.resolved_of_next hl hm with hm | rfl
    · exact hlinked.looked handle message keys hm
    · rw [hlinked.table]
      exact hsourced.table
  have hmono : ∀ l, t.next inst l = some t' → ∀ e, t.DrawnEntry inst e → t'.DrawnEntry inst e := by
    rintro l hl e ⟨keys, hk, his⟩
    exact ⟨keys, drawn_of_next hd hl hk, his⟩
  rcases moves_cases hmoves hs ht' with ⟨rfl, l, hl, hother⟩ | ⟨rfl, l, hl, hother⟩ |
    ⟨n, scan, next, hpc, hl, hl'⟩
  · exact ⟨(System.keys_of_next hl hother).trans hlinked.table, hlooked l hl⟩
  · exact ⟨hlinked.table.trans (keyManager_of_next hl hother).symm,
      fun handle message keys hm e he => hmono l hl e (hlinked.looked _ _ _ hm e he)⟩
  · refine ⟨?_, fun handle message keys hm e he => hmono _ hl' e (hlooked _ hl _ _ _ hm e he)⟩
    have htable := (ApiSystem.handlerStep_of_stepExec hl').table.1 scan next hpc
    simp only [System.next] at hl
    split_ifs at hl
    exact (congrArg System.keys (Option.some.inj hl)).symm.trans htable.2.symm

end Program

/-- The message begins with a key of the pair. -/
def KeyPair.Admits (keys : KeyPair) (message : List UInt8) : Prop :=
  Hash.ofBytes message = keys.moonHash.toHash ∨ Hash.ofBytes message = keys.playerHash.toHash

section

open Program

variable {D : Type*} [DecidableEq D] {inst : Installation D} {files : FileSystem D}
  {order : ScanOrder} {u : System × ApiSystem D}

theorem Program.Linked.drawn {s : System} {t : ApiSystem D} (h : Linked inst s t)
    {handle : ConnectionHdl} {message : List UInt8} {keys : KeyManager}
    (hm : .resolved handle message keys ∈ s.log)
    (hne : keys.getRoom (Hash.ofBytes message) ≠ Hash.empty) :
    ∃ pair, t.Drawn inst pair ∧ keys.getRoom (Hash.ofBytes message) = pair.moonHash.toHash ∧
      pair.Admits message := by
  obtain ⟨e, hmem, hroom, hhas⟩ := KeyManager.getRoom_spec hne
  obtain ⟨pair, hdrawn, hmoon, hplayer⟩ := h.looked _ _ _ hm e hmem
  exact ⟨pair, hdrawn, hroom.symm.trans hmoon,
    hhas.imp (fun he => he.symm.trans hmoon) fun he => he.symm.trans hplayer⟩

theorem Program.Linked.admits {s : System} {t : ApiSystem D} (h : Linked inst s t)
    (hs : s.Admitted) {pre post : List LogEntry} (hlog : s.log = pre ++ post) {room : Hash}
    {p : Packet} (hp : Log.AcceptedForKey pre room p) :
    ∃ pair, t.Drawn inst pair ∧ room = pair.moonHash.toHash ∧ pair.Admits p.message := by
  obtain ⟨pre', registered, post', keys, rfl, hlast, rfl, -⟩ := hp
  have hmem : LogEntry.resolved p.sender p.message keys ∈ s.log := by
    rw [hlog]
    simp [Log.mem_of_lastResolved hlast]
  exact h.drawn hmem (hs.accepted _ p registered (by simp [hlog]))

/-- **Only keys that were drawn admit**, whatever the handlers, the threads and the requests do at
the same time.  When the program starts with an empty key directory, every room that exists is named
by the moon key of a pair that a `/create` with the secret has drawn, and that key was presented to
the relay.  Whatever is sent in a room comes from messages of other connections that begin with a
key of a pair drawn for this room, and goes to a connection that had such a message accepted. -/
theorem only_drawn_keys (hempty : ∀ name, files.contents (inst.keys, name) = none)
    (h : (program inst (.start inst files order)).Reachable u) :
    (∀ room ∈ u.1.accumulator.packets, ∃ pair, u.2.Drawn inst pair ∧
      room = pair.moonHash.toHash ∧ Log.Presented u.1.log room) ∧
    ∀ j c room bytes parts delivered, .sent j c room bytes parts delivered ∈ u.1.log →
      bytes = payloads parts ∧
      (∀ p ∈ parts, p.sender ≠ c.handle ∧
        ∃ pair, u.2.Drawn inst pair ∧ room = pair.moonHash.toHash ∧ pair.Admits p.message) ∧
      ∃ q registered, .accepted room q registered ∈ u.1.log ∧ q.sender = c.handle ∧
        ∃ pair, u.2.Drawn inst pair ∧ room = pair.moonHash.toHash ∧ pair.Admits q.message := by
  have hlinked := linked_of_reachable hempty h
  have hadmitted := System.admitted_of_reachable h.coupled.1
  have hvalid := (System.recorded_of_reachable h.coupled.1).valid
  refine ⟨fun room hr => ?_, fun j c room bytes parts delivered hs => ?_⟩
  · obtain ⟨hne, hpresented⟩ := hadmitted.rooms room hr
    obtain ⟨handle, message, keys, hm, rfl, hroom⟩ := id hpresented
    obtain ⟨pair, hdrawn, hmoon, -⟩ := hlinked.drawn hm (hroom.symm ▸ hne)
    exact ⟨pair, hdrawn, hroom.symm.trans hmoon, hpresented⟩
  · obtain ⟨pre, post, hlog⟩ := List.append_of_mem hs
    rw [hlog] at hvalid
    obtain ⟨hbytes, hparts, q, hsender, hq⟩ := hvalid.isolation
    have hadmits_parts := fun p hp => hlinked.admits hadmitted hlog (hparts p hp).2
    refine ⟨hbytes, fun p hp => ⟨(hparts p hp).1, hadmits_parts p hp⟩, q, ?_⟩
    have hadmits := hlinked.admits hadmitted hlog hq
    obtain ⟨pre', registered, post', keys, rfl, -⟩ := hq
    exact ⟨registered, by simp [hlog], hsender, hadmits⟩

end

/-- A `/create` for `exampleId` draws "pleb" and "moon"; after its last swap a moon client connects
and sends the key "moon". -/
def admitLabels : List ProgramLabel :=
  let pleb : RandomString := ⟨plebKey, alphanumeric_of_all rfl⟩
  let moon : RandomString := ⟨moonKey, alphanumeric_of_all rfl⟩
  ([.begin createCall.request, .step 0, .step 0, .step 0, .draw 0 pleb, .draw 0 moon, .step 0,
    .step 0, .step 0, .entry 0 (exampleId ++ txt), .step 0, .step 0].map .api) ++
    startLabels.map .relay

/-- After `admitLabels` the room "moon" exists, and "moon" was drawn. -/
theorem only_drawn_keys_moon : ∃ u, (program oneDirectory emptyStart).Reachable u ∧
    moonKey ∈ u.1.accumulator.packets ∧ ∃ pair, u.2.Drawn oneDirectory pair ∧
      moonKey = pair.moonHash.toHash := by
  have hrun : ((program oneDirectory emptyStart).run (program oneDirectory emptyStart).init
      admitLabels).any (fun u => decide (moonKey ∈ u.1.accumulator.packets)) = true := by
    decide +kernel
  obtain ⟨u, hu, hp⟩ := (Option.any_eq_true _ _).1 hrun
  have hroom := of_decide_eq_true hp
  have hreach : (program oneDirectory emptyStart).Reachable u := .of_run hu
  obtain ⟨pair, hdrawn, hmoon, -⟩ := (only_drawn_keys (fun _ => rfl) hreach).1 moonKey hroom
  exact ⟨u, hreach, hroom, pair, hdrawn, hmoon⟩

end MoonJamRelay
