import MoonJamRelay.Api.Readers
import MoonJamRelay.Requests.Pairs

/-!
# Created pairs stay recognised

`refreshKeys` scans the directory without a lock and locks the table for the swap only.  So a scan
that began before a key file was written can be swapped in after the one of the `/create` that
wrote it, and the pair that `/create` has reported is not in the table any more.

* `Orderly` : the condition on a step: no such late swap, and no step that takes a reported pair
  out of its file.
* `ScanOk`, `WriteOk` : what the program points of all handlers satisfy.
* `Kept` : what is true of the pair of a `/create` from the moment it opens its file until the next
  `/create` or `/delete` of the id arrives; `Kept.step` is the induction step.
* `created_pair_recognised` : in a run of orderly steps the table recognises the pair.
* `created_pair_lost` : a late swap.
-/

namespace MoonJamRelay

namespace ApiSystem

variable {D : Type*} [DecidableEq D]

section

variable (inst : Installation D) (s : ApiSystem D)

/-- The request replaces or removes the key file of the id. -/
def Replaces (id : List UInt8) (request : ApiRequest) : Prop :=
  (∃ limit, ApiServer.task inst request = some (.create id limit)) ∨
    ApiServer.task inst request = some (.delete id)

/-- What `Orderly` asks of the next step of a handler.
* A table is swapped in only if its scan began after all `/create` requests that have swapped in
  their second table had written their files.
* `/create` opens the file of its id in the key directory, which nobody is writing, and no other
  file has one of its keys.
* `/limit` opens a file that nobody is writing, and that `refreshKeys` loads with the keys that
  `/limit` has read. -/
def OrderlyPc : HandlerPc D → Prop
  | .swap scan _ => s.recorded ≤ scan.ticket
  | .createOpen id _ keys => s.Settled inst id ∧
    s.files.opens (s.keyFile inst id) = some (inst.keys, id ++ txt) ∧
    ∀ name e, name ≠ id ++ txt → s.Loads inst name e → ¬ keys.Meets e
  | .limitOpen id _ moonHash playerHash => s.Settled inst id.id ∧
    ∃ e, AccessKeys.ofContents (s.server.readFile (s.keyFile inst id.id)) = some e ∧
      e.moonKey.bytes = moonHash ∧ e.playerKey.bytes = playerHash
  | _ => True

/-- The condition on a step.
* No two of the `/create` and `/delete` requests of one id run at the same time.
* A scan reads no file that a `/limit` has emptied and not written yet. -/
def Orderly : RequestLabel → Prop
  | .begin request =>
    ∀ id, Replaces inst id request → ∀ m, m < s.begun →
      Replaces inst id (s.handlers m).request → ∃ response, s.pc m = .answered response
  | .entry _ name => ∀ m fd content response,
    s.pc m = .write (some fd) content (.answer response) → ¬ s.Writes m (inst.keys, name) content
  | .draw _ _ => True
  | .step n => s.OrderlyPc inst (s.pc n)

/-! ### Program points -/

/-- The tickets of a program point fit the number of scans so far. -/
def ScanOk (scans : ℕ) : HandlerPc D → Prop
  | .refresh (.answer _ written) => written ≤ scans
  | .scan scan (.answer _ written) | .swap scan (.answer _ written) =>
    written ≤ scan.ticket ∧ scan.ticket < scans
  | .scan scan _ | .swap scan _ => scan.ticket < scans
  | _ => True

/-- An open file is the one of the request. -/
def WriteOk (request : ApiRequest) : HandlerPc D → Prop
  | .write fd _ (.refresh _) => ∃ id limit,
    ApiServer.task inst request = some (.create id limit) ∧
      ∀ fd', fd = some fd' → fd'.location = (inst.keys, id ++ txt)
  | .write _ _ (.answer _) => ∃ id text, ApiServer.task inst request = some (.limit id text)
  | _ => True

/-- The number of scans after which the table has to have the pair of a `/create`. -/
def since : HandlerPc D → ℕ
  | .refresh (.answer _ written) | .scan _ (.answer _ written) | .swap _ (.answer _ written) =>
    written
  | .answered _ => s.recorded
  | _ => s.scans

/-- No later request replaces or removes the key file of the id. -/
def Current (n : ℕ) (id : List UInt8) : Prop :=
  ∀ m, n < m → m < s.begun → ¬ Replaces inst id (s.handlers m).request

/-- The pair of the handler `n`, once its file was opened: the file has it, all scans that have
begun after the file was written find it, and it is in the table when the handler has answered. -/
structure Kept (n : ℕ) (name : Name) (keys : KeyPair) : Prop where
  file : s.InFile inst name keys
  scans : ∀ k scan, (s.pc k).scanning = some scan → s.since (s.pc n) ≤ scan.ticket →
    s.Scanned inst name keys scan ∧ ∀ next, s.pc k = .swap scan next → name ∈ scan.seen
  table : ∀ response, s.pc n = .answered response → keys.Among s.keyManager.keys

/-- What a run of orderly steps keeps. -/
structure Recognition : Prop where
  oneWriter : s.OneWriter
  dispatched : s.Dispatched inst
  scanOk : ∀ n, ScanOk s.scans (s.pc n)
  writeOk : ∀ n, WriteOk inst (s.handlers n).request (s.pc n)
  apart : ∀ m n id, m < n → n < s.begun → Replaces inst id (s.handlers m).request →
    Replaces inst id (s.handlers n).request → ∃ response, s.pc m = .answered response
  kept : ∀ n id limit moonkey playerkey playerlimit,
    ApiServer.task inst (s.handlers n).request = some (.create id limit) →
    (s.pc n).outcome = some ⟨200, .keys moonkey playerkey playerlimit⟩ →
    ∃ keys : KeyPair, moonkey = keys.moonHash.bytes ∧ playerkey = keys.playerHash.bytes ∧
      (s.Current inst n id → s.Kept inst n (id ++ txt) keys)

end

variable {inst : Installation D} {s s' : ApiSystem D} {n k : ℕ} {l : RequestLabel}

omit [DecidableEq D] in
theorem ScanOk.mono {pc : HandlerPc D} {scans scans' : ℕ} (h : ScanOk scans pc)
    (hle : scans ≤ scans') : ScanOk scans' pc := by
  unfold ScanOk at h ⊢
  split at h
  · exact Nat.le_trans h hle
  · exact ⟨h.1, Nat.lt_of_lt_of_le h.2 hle⟩
  · exact ⟨h.1, Nat.lt_of_lt_of_le h.2 hle⟩
  · exact Nat.lt_of_lt_of_le h hle
  · exact Nat.lt_of_lt_of_le h hle
  · trivial

omit [DecidableEq D] in
theorem ScanOk.ticket_lt {pc : HandlerPc D} {scans : ℕ} (h : ScanOk scans pc) {scan : Scan}
    (hscan : pc.scanning = some scan) : scan.ticket < scans := by
  cases pc with
  | scan _ next | swap _ next =>
    obtain rfl := Option.some.inj hscan
    cases next with
    | draw | get => exact h
    | answer => exact h.2
  | _ => cases hscan

theorem HandlerStep.counters (hst : HandlerStep inst s k l s') :
    s.scans ≤ s'.scans ∧ s.recorded ≤ s'.recorded := by
  cases hst with
  | refresh => exact ⟨Nat.le_succ _, Nat.le_refl _⟩
  | lastSwap => exact ⟨Nat.le_refl _, Nat.le_max_left _ _⟩
  | _ => exact ⟨Nat.le_refl _, Nat.le_refl _⟩

theorem HandlerStep.scanOk (hst : HandlerStep inst s k l s') (h : ScanOk s.scans (s.pc k)) :
    ScanOk s'.scans (s'.pc k) := by
  cases hst with
  | refresh next hpc =>
    rw [hpc] at h
    rw [pc_goto]
    cases next with
    | draw | get => exact Nat.lt_succ_self _
    | answer => exact ⟨h, Nat.lt_succ_self _⟩
  | entry scan next _ hpc | complete scan next hpc =>
    rw [hpc] at h
    rw [pc_goto]
    cases next <;> exact h
  | swap _ next hpc hlast =>
    rw [pc_goto]
    cases next with
    | draw | get => trivial
    | answer response written => exact absurd rfl (hlast response written)
  | writeCreate =>
    rw [pc_goto]
    exact Nat.le_refl s.scans
  | createOpen | limitOpen =>
    rw [openWrite, pc_goto]
    trivial
  | _ =>
    rw [pc_goto]
    trivial

theorem HandlerStep.writeOk (hst : HandlerStep inst s k l s') (hd : Dispatched inst s)
    (hok : s.Orderly inst l) : WriteOk inst (s.handlers k).request (s'.pc k) := by
  cases hst with
  | createOpen id limit keys hpc =>
    have htask := hd.task k (.create id limit) (by rw [hpc]; rfl)
    simp only [Orderly, hpc] at hok
    obtain ⟨i, hopen, -⟩ := FileSystem.openTruncate_of_opens hok.2.1
    rw [openWrite, pc_goto, hopen]
    exact ⟨id, limit, htask, fun fd hfd => Option.some.inj hfd ▸ rfl⟩
  | limitOpen id text _ _ hpc =>
    rw [openWrite, pc_goto]
    exact ⟨id.id, text, hd.task k (.limit id.id text) (by rw [hpc]; rfl)⟩
  | swap _ next =>
    rw [pc_goto]
    cases next <;> trivial
  | _ =>
    rw [pc_goto]
    trivial

/-! ### Scans and tables -/

theorem HandlerStep.scanning (hst : HandlerStep inst s k l s') {scan' : Scan}
    (hscan : (s'.pc k).scanning = some scan') : s'.files = s.files ∧
      ((∃ next, s.pc k = .refresh next ∧ scan' = ⟨s.entries inst, [], [], s.scans⟩ ∧
          s'.pc k = .scan scan' next) ∨
        (∃ scan next name, l = .entry k name ∧ s.pc k = .scan scan next ∧
          scan' = scan.read name (s.server.readFile (.entry (inst.keys, name))) ∧
          s'.pc k = .scan scan' next) ∨
        ∃ next, s.pc k = .scan scan' next ∧ s.Complete inst scan' ∧
          s'.pc k = .swap scan' next) := by
  cases hst with
  | refresh next hpc =>
    rw [pc_goto] at hscan ⊢
    obtain rfl := Option.some.inj hscan
    exact ⟨rfl, .inl ⟨next, hpc, rfl, rfl⟩⟩
  | entry scan next name hpc =>
    rw [pc_goto] at hscan ⊢
    obtain rfl := Option.some.inj hscan
    exact ⟨rfl, .inr (.inl ⟨scan, next, name, rfl, hpc, rfl, rfl⟩)⟩
  | complete scan next hpc hcomplete =>
    rw [pc_goto] at hscan ⊢
    obtain rfl := Option.some.inj hscan
    exact ⟨rfl, .inr (.inr ⟨next, hpc, hcomplete, rfl⟩)⟩
  | swap _ next =>
    rw [pc_goto] at hscan
    cases next <;> cases hscan
  | createOpen | limitOpen =>
    rw [openWrite, pc_goto] at hscan
    cases hscan
  | _ =>
    rw [pc_goto] at hscan
    cases hscan

/-! ### The file of a pair -/

theorem Orderly.freeToOpen (h : s.Orderly inst l) (hst : HandlerStep inst s k l s') :
    FreeToOpen inst s k := by
  intro id hid
  obtain rfl := hst.label_of_opening hid
  simp only [Orderly] at h
  cases hpc : s.pc k <;> rw [hpc] at h hid <;> cases hid
  · exact h.1
  · exact h.1

theorem Dispatched.lt_begun (hd : Dispatched inst s) (h : s.pc k ≠ .absent) : k < s.begun := by
  by_contra hk
  exact h (hd.absent k (Nat.le_of_not_lt hk))

theorem InFile.step (hinv : s.Recognition inst) (hst : HandlerStep inst s k l s')
    (hok : s.Orderly inst l) {id : List UInt8} {keys : KeyPair}
    (hbusy : (s.pc k).outcome = none → ¬ Replaces inst id (s.handlers k).request)
    (h : s.InFile inst (id ++ txt) keys) : s'.InFile inst (id ++ txt) keys := by
  have hone := hinv.oneWriter
  have hfree := hok.freeToOpen hst
  have hname : ∀ {id' : List UInt8}, id' ≠ id → id' ++ txt ≠ id ++ txt := fun hne he =>
    hne (List.append_cancel_right he)
  obtain ⟨e, he, his⟩ := h.own
  cases hpc : s.pc k with
  | createOpen id' limit keys' =>
    have htask := hinv.dispatched.task k (.create id' limit) (by rw [hpc]; rfl)
    have hne : id' ≠ id := by
      rintro rfl
      exact hbusy (by rw [hpc]; rfl) (.inl ⟨limit, htask⟩)
    obtain rfl := hst.label_of_opening (by rw [hpc]; rfl)
    simp only [Orderly, hpc] at hok
    have hloads : ∀ name e, s'.Loads inst name e ↔ if name = id' ++ txt then
        ∃ c, some (keys'.text limit) = some c ∧ AccessKeys.ofContents (stripLines c) = some e
        else s.Loads inst name e := fun _ _ =>
      hst.loads_file hone hfree (by rw [hpc]; rfl) hok.2.1
    refine h.of_other (id' ++ txt) (hname hne) (fun name e hn => ?_) fun e' he' => ?_
    · rw [hloads, if_neg hn]
    · rw [hloads, if_pos rfl] at he'
      obtain ⟨c, hc, he'⟩ := he'
      obtain rfl := Option.some.inj hc
      rw [KeyPair.ofContents_text] at he'
      obtain rfl := Option.some.inj he'
      exact KeyPair.not_meets_of_is his ⟨rfl, rfl⟩ (hok.2.2 _ e (hname hne).symm he)
  | limitOpen id' text moonHash playerHash =>
    obtain rfl := hst.label_of_opening (by rw [hpc]; rfl)
    simp only [Orderly, hpc] at hok
    obtain ⟨-, e₁, he₁, rfl, rfl⟩ := hok
    obtain ⟨hopens, hload₁⟩ := opens_of_readFile hone id' he₁
    have hnew := ofContents_rewrite he₁ (playerLimitOf_le text)
    have hloads : ∀ name e, s'.Loads inst name e ↔ if name = id'.id ++ txt then
        ∃ c, some (keyText e₁.moonKey.bytes e₁.playerKey.bytes (playerLimitOf text)) = some c ∧
          AccessKeys.ofContents (stripLines c) = some e
        else s.Loads inst name e := fun _ _ =>
      hst.loads_file hone hfree (by rw [hpc]; rfl) hopens
    by_cases hid : id'.id = id
    · subst hid
      obtain rfl := hone.loads_unique hload₁ he
      refine .of_own h.other (fun name e hn => ?_)
        ((hloads _ ⟨e₁.moonKey, e₁.playerKey, _, playerLimitOf_le text⟩).2 ?_) his
      · rw [hloads, if_neg hn]
      · rw [if_pos rfl]
        exact ⟨_, rfl, hnew⟩
    · refine h.of_other (id'.id ++ txt) (hname hid) (fun name e hn => ?_) fun e' he' => ?_
      · rw [hloads, if_neg hn]
      · rw [hloads, if_pos rfl] at he'
        obtain ⟨c, hc, he'⟩ := he'
        obtain rfl := Option.some.inj hc
        obtain rfl := Option.some.inj (hnew.symm.trans he')
        exact h.other _ e₁ (hname hid) hload₁
  | deleteRemove id' =>
    have htask := hinv.dispatched.task k (.delete id'.id) (by rw [hpc]; rfl)
    have hne : id'.id ≠ id := by
      rintro rfl
      exact hbusy (by rw [hpc]; rfl) (.inr htask)
    have hremove : ∀ name e, (s'.Loads inst name e → s.Loads inst name e) ∧
        (name ≠ id'.id ++ txt → (s'.Loads inst name e ↔ s.Loads inst name e)) :=
      fun _ _ => hst.loads_remove hone hfree hpc
    exact h.of_other (id'.id ++ txt) (hname hne) (fun name e => (hremove name e).2)
      fun e' he' => h.other _ e' (hname hne) ((hremove _ e').1 he')
  | _ =>
    have hloads : ∀ name e, s'.Loads inst name e ↔ s.Loads inst name e := fun _ _ =>
      hst.loads hone hfree (by rw [hpc]; rfl)
    refine .of_own (fun name e hne he => h.other name e hne he) (fun name e _ => hloads name e)
      ((hloads _ _).2 he) his

/-! ### The table -/

theorem HandlerStep.table (hst : HandlerStep inst s k l s') :
    (∀ scan next, s.pc k = .swap scan next → l = .step k ∧ s'.keyManager = ⟨scan.keys⟩) ∧
      ((∀ scan next, s.pc k ≠ .swap scan next) → s'.keyManager = s.keyManager) := by
  cases hst with
  | swap _ _ hpc | lastSwap _ _ _ hpc =>
    refine ⟨fun scan next he => ?_, fun hnot => absurd hpc (hnot _ _)⟩
    obtain ⟨rfl, -⟩ := HandlerPc.swap.inj (hpc.symm.trans he)
    exact ⟨rfl, rfl⟩
  | refresh _ hpc | entry _ _ _ hpc | complete _ _ hpc | noPlayer _ _ _ hpc
  | takenPlayer _ _ _ _ hpc | player _ _ _ _ hpc | noMoon _ _ _ _ hpc | takenMoon _ _ _ _ _ hpc
  | moon _ _ _ _ hpc | createOpen _ _ _ hpc | getRefused _ hpc | getNothing _ hpc | getFile _ hpc
  | got _ _ _ hpc | getThrows _ hpc | deleteRefused _ hpc | deleteNothing _ hpc
  | deleteInvalid _ hpc | deleteFile _ hpc | deleteRemove _ _ _ hpc | deleteThrows _ hpc
  | limitRefused _ _ hpc | limitNothing _ _ hpc | limitInvalid _ _ hpc | limitFile _ _ hpc
  | limitRead _ _ _ _ hpc | limitThrows _ _ hpc | limitOpen _ _ _ _ hpc | writeCreate _ _ _ hpc
  | writeLimit _ _ _ hpc =>
    refine ⟨fun scan next he => ?_, fun _ => rfl⟩
    rw [hpc] at he
    cases he

/-- From its response on, a `/create` moves through its second `refreshKeys`; it answers with the
swap. -/
theorem HandlerStep.after_outcome (hst : HandlerStep inst s k l s') {id : List UInt8}
    {limit : Option (List UInt8)} {r : ApiResponse}
    (hwrite : WriteOk inst (s.handlers k).request (s.pc k))
    (htask : ApiServer.task inst (s.handlers k).request = some (.create id limit))
    (hr : (s.pc k).outcome = some r) : s.since (s.pc k) ≤ s'.since (s'.pc k) ∧
      ((∀ scan next, s.pc k ≠ .swap scan next) → ∀ response, s'.pc k ≠ .answered response) := by
  cases hst with
  | refresh next hpc | entry _ next _ hpc | complete _ next hpc =>
    rw [hpc] at hr
    rw [hpc, pc_goto]
    cases next with
    | draw | get => cases hr
    | answer => exact ⟨Nat.le_refl _, fun _ _ he => by cases he⟩
  | swap _ next hpc hlast =>
    rw [hpc] at hr
    cases next with
    | draw | get => cases hr
    | answer response written => exact absurd rfl (hlast response written)
  | lastSwap scan response written hpc =>
    refine ⟨?_, fun hnot => absurd hpc (hnot _ _)⟩
    rw [hpc, pc_goto]
    exact Nat.le_max_right _ _
  | writeCreate _ _ _ hpc =>
    rw [hpc, pc_goto]
    exact ⟨Nat.le_refl _, fun _ _ he => by cases he⟩
  | writeLimit _ _ _ hpc =>
    rw [hpc] at hwrite
    obtain ⟨id', text, htask'⟩ := hwrite
    rw [htask] at htask'
    cases htask'
  | noPlayer _ _ _ hpc | takenPlayer _ _ _ _ hpc | player _ _ _ _ hpc | noMoon _ _ _ _ hpc
  | takenMoon _ _ _ _ _ hpc | moon _ _ _ _ hpc | createOpen _ _ _ hpc | getRefused _ hpc
  | getNothing _ hpc | getFile _ hpc | got _ _ _ hpc | getThrows _ hpc | deleteRefused _ hpc
  | deleteNothing _ hpc | deleteInvalid _ hpc | deleteFile _ hpc | deleteRemove _ _ _ hpc
  | deleteThrows _ hpc | limitRefused _ _ hpc | limitNothing _ _ hpc | limitInvalid _ _ hpc
  | limitFile _ _ hpc | limitRead _ _ _ _ hpc | limitThrows _ _ hpc | limitOpen _ _ _ _ hpc =>
    rw [hpc] at hr
    cases hr

theorem since_mono (pc : HandlerPc D) (hscans : s.scans ≤ s'.scans)
    (hrecorded : s.recorded ≤ s'.recorded) : s.since pc ≤ s'.since pc := by
  unfold since
  split
  · exact Nat.le_refl _
  · exact Nat.le_refl _
  · exact Nat.le_refl _
  · exact hrecorded
  · exact hscans

/-! ### The pair of a `/create` -/

section

variable {id : List UInt8} {limit : Option (List UInt8)} {keys : KeyPair} {r : ApiResponse}
  (hinv : s.Recognition inst)
  (htask : ApiServer.task inst (s.handlers n).request = some (.create id limit))
  (hr : (s.pc n).outcome = some r) (hcur : s.Current inst n id)

include hinv htask hr hcur

/-- All other requests that replace or remove the file have been answered. -/
theorem finished_of_current {m : ℕ} (hm : s.pc m ≠ .absent) (hne : m ≠ n)
    (hreplaces : Replaces inst id (s.handlers m).request) :
    ∃ response, s.pc m = .answered response := by
  have hn : n < s.begun := hinv.dispatched.lt_begun fun he => by
    rw [he] at hr
    cases hr
  have hm := hinv.dispatched.lt_begun hm
  rcases Nat.lt_or_gt_of_ne hne with hlt | hlt
  · exact hinv.apart m n id hlt hn hreplaces (.inl ⟨limit, htask⟩)
  · exact absurd hreplaces (hcur m hlt hm)

theorem not_replaces_of_current (hk : s.pc k ≠ .absent) (hnone : (s.pc k).outcome = none) :
    ¬ Replaces inst id (s.handlers k).request := by
  intro hreplaces
  have hne : k ≠ n := by
    rintro rfl
    rw [hr] at hnone
    cases hnone
  obtain ⟨response, hpc⟩ := finished_of_current hinv htask hr hcur hk hne hreplaces
  rw [hpc] at hnone
  cases hnone

/-- When a scan that has begun after the file was written reads the file, nobody is writing it. -/
theorem not_halfWritten_of_entry {scan : Scan} (hok : s.Orderly inst (.entry k (id ++ txt)))
    (hscan : (s.pc k).scanning = some scan) (hle : s.since (s.pc n) ≤ scan.ticket) :
    ¬ s.HalfWritten (inst.keys, id ++ txt) := by
  rintro ⟨m, content, hm⟩
  have hwrites := hm
  obtain ⟨fd, hfd, hloc, -⟩ := hm
  cases hpc : s.pc m with
  | write fd' content' next =>
    rw [hpc] at hfd
    cases fd' with
    | none => cases hfd
    | some fd' =>
      obtain ⟨rfl, rfl⟩ := Prod.mk.inj (Option.some.inj hfd)
      cases next with
      | answer response => exact hok m fd' content' response hpc hwrites
      | refresh response =>
        have hwrite := hinv.writeOk m
        rw [hpc] at hwrite
        obtain ⟨id', limit', htask', hfd'⟩ := hwrite
        obtain rfl := List.append_cancel_right (Prod.mk.inj ((hfd' _ rfl).symm.trans hloc)).2
        by_cases hmn : m = n
        · subst hmn
          rw [hpc] at hle
          exact absurd ((hinv.scanOk k).ticket_lt hscan) (Nat.not_lt.2 hle)
        · obtain ⟨response', he⟩ := finished_of_current hinv htask hr hcur
            (by rw [hpc]; exact fun he => by cases he) hmn (.inl ⟨limit', htask'⟩)
          rw [hpc] at he
          cases he
  | _ =>
    rw [hpc] at hfd
    cases hfd

/-- A step keeps what is true of the pair. -/
theorem Kept.step (hst : HandlerStep inst s k l s') (hok : s.Orderly inst l)
    (h : s.Kept inst n (id ++ txt) keys) : s'.Kept inst n (id ++ txt) keys := by
  have hone := hinv.oneWriter
  have hk := hst.frame.2.2.2.1
  have hbusy := fun hnone => not_replaces_of_current hinv htask hr hcur hk hnone
  have hinode : ∀ i, s.files.inode (inst.keys, id ++ txt) = some i →
      s'.files.inode (inst.keys, id ++ txt) = some i := fun i hi => by
    refine hst.inode (fun id' hpc he => ?_) hi
    obtain rfl := List.append_cancel_right
      (Prod.mk.inj (inst.eq_of_keyFile_entry id'.valid.plainId he)).2
    exact hbusy (by rw [hpc]; rfl) (.inr (hinv.dispatched.task k _ (by rw [hpc]; rfl)))
  have hsince : s.since (s.pc n) ≤ s'.since (s'.pc n) := by
    by_cases hn : n = k
    · subst hn
      exact (hst.after_outcome (hinv.writeOk n) htask hr).1
    · rw [hst.pc_of_ne hn]
      exact since_mono _ hst.counters.1 hst.counters.2
  refine ⟨h.file.step hinv hst hok hbusy, fun j scan' hscan hle => ?_, fun response hpc' => ?_⟩
  · by_cases hj : j = k
    · subst hj
      obtain ⟨-, ⟨next, hpc, rfl, hpc'⟩ | ⟨scan, next, name, rfl, hpc, rfl, hpc'⟩ |
        ⟨next, hpc, hcomplete, hpc'⟩⟩ := hst.scanning hscan
      · refine ⟨(Scanned.begin h.file hone _).mono hinode, fun next' he => ?_⟩
        rw [hpc'] at he
        cases he
      · have hbefore : (s.pc j).scanning = some scan := by rw [hpc]; rfl
        obtain ⟨hscanned, -⟩ := h.scans j scan hbefore (hsince.trans hle)
        refine ⟨(hscanned.read h.file hone name fun he => ?_).mono hinode, fun next' he => ?_⟩
        · subst he
          exact not_halfWritten_of_entry hinv htask hr hcur hok hbefore (hsince.trans hle)
        · rw [hpc'] at he
          cases he
      · obtain ⟨hscanned, -⟩ := h.scans j scan' (by rw [hpc]; rfl) (hsince.trans hle)
        exact ⟨hscanned.mono hinode, fun _ _ => hscanned.complete hcomplete⟩
    · rw [hst.pc_of_ne hj] at hscan ⊢
      obtain ⟨hscanned, hseen⟩ := h.scans j scan' hscan (hsince.trans hle)
      exact ⟨hscanned.mono hinode, hseen⟩
  · by_cases hswap : ∃ scan next, s.pc k = .swap scan next
    · obtain ⟨scan, next, hpc⟩ := hswap
      obtain ⟨rfl, htable⟩ := hst.table.1 scan next hpc
      -- the scan has begun after the file was written
      have hle : s.since (s.pc n) ≤ scan.ticket := by
        by_cases hn : n = k
        · subst hn
          have hticket := hinv.scanOk n
          rw [hpc] at hr hticket ⊢
          cases next with
          | draw | get => cases hr
          | answer => exact hticket.1
        · rw [hst.pc_of_ne hn] at hpc'
          simp only [Orderly, hpc] at hok
          rw [hpc']
          exact hok
      obtain ⟨hscanned, hseen⟩ := h.scans k scan (by rw [hpc]; rfl) hle
      rw [htable]
      exact hscanned.among (hseen next hpc)
    · have hnot : ∀ scan next, s.pc k ≠ .swap scan next := fun scan next he =>
        hswap ⟨scan, next, he⟩
      rw [hst.table.2 hnot]
      refine h.table response ?_
      rw [← hst.pc_of_ne fun hn => ?_, hpc']
      subst hn
      exact (hst.after_outcome (hinv.writeOk n) htask hr).2 hnot response hpc'

end

/-- A `/create` whose response has just become known has opened its file. -/
theorem HandlerStep.opened (hst : HandlerStep inst s k l s') (hd : Dispatched inst s)
    {id moonkey playerkey : List UInt8} {limit : Option (List UInt8)} {playerlimit : ℕ}
    (htask : ApiServer.task inst (s.handlers k).request = some (.create id limit))
    (hnone : (s.pc k).outcome = none)
    (hr : (s'.pc k).outcome = some ⟨200, .keys moonkey playerkey playerlimit⟩) :
    ∃ keys, s.pc k = .createOpen id limit keys ∧ moonkey = keys.moonHash.bytes ∧
      playerkey = keys.playerHash.bytes ∧
      ∃ fd content next, s'.pc k = .write fd content next := by
  have hother : ∀ task, (s.pc k).task = some task → task = .create id limit := fun task ht =>
    Option.some.inj ((hd.task k task ht).symm.trans htask)
  cases hst with
  | createOpen id' limit' keys hpc =>
    have htask' := hother (.create id' limit') (by rw [hpc]; rfl)
    obtain ⟨rfl, rfl⟩ := ApiServer.Task.create.inj htask'
    rw [openWrite, pc_goto] at hr ⊢
    obtain ⟨-, hkeys⟩ := ApiResponse.mk.inj (Option.some.inj hr)
    obtain ⟨rfl, rfl, -⟩ := Content.keys.inj hkeys
    exact ⟨keys, hpc, rfl, rfl, _, _, _, rfl⟩
  | refresh next hpc | entry _ next _ hpc | complete _ next hpc =>
    rw [hpc] at hnone
    rw [pc_goto] at hr
    cases next with
    | draw | get => cases hr
    | answer => cases hnone
  | swap _ next hpc =>
    rw [hpc] at hnone
    rw [pc_goto] at hr
    cases next with
    | draw | get => cases hr
    | answer => cases hnone
  | lastSwap _ _ _ hpc | writeCreate _ _ _ hpc | writeLimit _ _ _ hpc =>
    rw [hpc] at hnone
    cases hnone
  | got id' _ _ hpc => exact absurd (hother (.get id') (by rw [hpc]; rfl)) (by simp)
  | limitOpen id' text _ _ hpc =>
    exact absurd (hother (.limit id'.id text) (by rw [hpc]; rfl)) (by simp)
  | deleteRemove id' _ _ hpc =>
    exact absurd (hother (.delete id'.id) (by rw [hpc]; rfl)) (by simp)
  | noPlayer | takenPlayer | player | noMoon | takenMoon | moon | getRefused | getNothing | getFile
  | getThrows | deleteRefused | deleteNothing | deleteInvalid | deleteFile | deleteThrows
  | limitRefused | limitNothing | limitInvalid | limitFile | limitRead | limitThrows =>
    rw [pc_goto] at hr
    cases hr

/-- When `/create` opens its file the pair is in no other file, and no scan has to have it. -/
theorem Kept.of_createOpen (hinv : s.Recognition inst) (hok : s.Orderly inst l)
    (hst : HandlerStep inst s k l s') (hscanOk : ∀ n, ScanOk s'.scans (s'.pc n))
    {id : List UInt8} {limit : Option (List UInt8)} {keys : KeyPair}
    (hpc : s.pc k = .createOpen id limit keys)
    (hpc' : ∃ fd content next, s'.pc k = .write fd content next) :
    s'.Kept inst k (id ++ txt) keys := by
  obtain ⟨fd, content, next, hpc'⟩ := hpc'
  have hfree := hok.freeToOpen hst
  obtain rfl := hst.label_of_opening (by rw [hpc]; rfl)
  simp only [Orderly, hpc] at hok
  have hloads : ∀ name e, s'.Loads inst name e ↔ if name = id ++ txt then
      ∃ c, some (keys.text limit) = some c ∧ AccessKeys.ofContents (stripLines c) = some e
      else s.Loads inst name e := fun _ _ =>
    hst.loads_file hinv.oneWriter hfree (by rw [hpc]; rfl) hok.2.1
  have hnew : s'.Loads inst (id ++ txt)
      ⟨keys.moonHash.toHash, keys.playerHash.toHash, _, createLimit_le limit⟩ := by
    rw [hloads, if_pos rfl]
    exact ⟨_, rfl, KeyPair.ofContents_text limit⟩
  refine ⟨.of_own hok.2.2 (fun name e hn => ?_) hnew ⟨rfl, rfl⟩, fun j scan hscan hle => ?_,
    fun response he => ?_⟩
  · rw [hloads, if_neg hn]
  · rw [hpc'] at hle
    exact absurd ((hscanOk j).ticket_lt hscan) (Nat.not_lt.2 hle)
  · rw [hpc'] at he
    cases he

/-! ### Every step -/

theorem Recognition.init (start : ApiServer D) : (ApiSystem.init start).Recognition inst where
  oneWriter := .init start
  dispatched := .init start
  scanOk _ := trivial
  writeOk _ := trivial
  apart _ _ _ _ hn := absurd hn (Nat.not_lt_zero _)
  kept _ _ _ _ _ _ _ hr := by cases hr

omit [DecidableEq D] in
theorem start_ok (inst : Installation D) (scans : ℕ) (request : ApiRequest)
    (task : Option ApiServer.Task) :
    ScanOk scans (HandlerPc.start (D := D) task) ∧
      WriteOk inst request (HandlerPc.start (D := D) task) ∧
      (HandlerPc.start (D := D) task).scanning = none := by
  rcases task with _ | (_ | _ | _ | _) <;> exact ⟨trivial, trivial, rfl⟩

theorem Kept.arrive (hd : Dispatched inst s) (hn : n ≠ s.begun) {name : Name} {keys : KeyPair}
    (h : s.Kept inst n name keys) (request : ApiRequest) :
    (s.arrive inst request).Kept inst n name keys := by
  have hloads : ∀ name e, (s.arrive inst request).Loads inst name e ↔ s.Loads inst name e :=
    fun name e => exists_congr fun c => and_congr_left' (holds_arrive hd request)
  obtain ⟨e, he, his⟩ := h.file.own
  refine ⟨.of_own h.file.other (fun name e _ => hloads name e) ((hloads _ _).2 he) his,
    fun k scan hscan hle => ?_, fun response hpc => ?_⟩
  · by_cases hk : k = s.begun
    · rw [hk, pc_arrive, (start_ok inst s.scans request _).2.2] at hscan
      cases hscan
    · rw [pc_arrive_of_ne request hn] at hle
      rw [pc_arrive_of_ne request hk] at hscan ⊢
      obtain ⟨hscanned, hseen⟩ := h.scans k scan hscan hle
      exact ⟨hscanned.mono fun i hi => hi, hseen⟩
  · rw [pc_arrive_of_ne request hn] at hpc
    exact h.table response hpc

theorem Recognition.arrive (hinv : s.Recognition inst) {request : ApiRequest}
    (hok : s.Orderly inst (.begin request)) : (s.arrive inst request).Recognition inst := by
  have hd := hinv.dispatched
  have hnew : (s.arrive inst request).handlers s.begun =
    ⟨request, .start (ApiServer.task inst request)⟩ := handlers_arrive request
  have hnext : s.next inst (.begin request) = some (s.arrive inst request) := rfl
  have hold : ∀ m, m ≠ s.begun → (s.arrive inst request).handlers m = s.handlers m := fun m hm =>
    handlers_arrive_of_ne request hm
  have hlt : ∀ m, m < s.begun + 1 → m ≠ s.begun → m < s.begun := fun m hm hne =>
    Nat.lt_of_le_of_ne (Nat.le_of_lt_succ hm) hne
  refine ⟨hinv.oneWriter.arrive hd request, hd.next hnext, fun n => ?_, fun n => ?_,
    fun m n id hmn hn hm hreplaces => ?_,
    fun n id limit moonkey playerkey playerlimit htask hr => ?_⟩
  · by_cases hn : n = s.begun
    · rw [hn, pc_arrive]
      exact (start_ok inst _ request _).1
    · rw [pc_arrive_of_ne request hn]
      exact hinv.scanOk n
  · by_cases hn : n = s.begun
    · rw [hn, ApiSystem.pc, hnew]
      exact (start_ok inst s.scans _ _).2.1
    · rw [ApiSystem.pc, hold n hn]
      exact hinv.writeOk n
  · have hm' : m < s.begun := Nat.lt_of_lt_of_le hmn (Nat.le_of_lt_succ hn)
    rw [hold m (Nat.ne_of_lt hm')] at hm
    rw [pc_arrive_of_ne request (Nat.ne_of_lt hm')]
    by_cases hne : n = s.begun
    · rw [hne, hnew] at hreplaces
      exact hok id hreplaces m hm' hm
    · rw [hold n hne] at hreplaces
      exact hinv.apart m n id hmn (hlt n hn hne) hm hreplaces
  · by_cases hne : n = s.begun
    · rw [hne, hnew] at htask
      rw [hne, pc_arrive, show ApiServer.task inst request = _ from htask] at hr
      cases hr
    · rw [hold n hne] at htask
      rw [pc_arrive_of_ne request hne] at hr
      obtain ⟨keys, hm, hp, hkept⟩ := hinv.kept n id limit _ _ _ htask hr
      refine ⟨keys, hm, hp, fun hcur => (hkept fun m hnm hm => ?_).arrive hd hne request⟩
      have hm' := hcur m hnm (Nat.lt_succ_of_lt hm)
      rwa [hold m (Nat.ne_of_lt hm)] at hm'

theorem Recognition.step (hinv : s.Recognition inst) (hok : s.Orderly inst l)
    (hst : HandlerStep inst s k l s') (hnext : s.next inst l = some s') :
    s'.Recognition inst := by
  obtain ⟨hother, hrequest, hbegun, habsent, -⟩ := hst.frame
  have hscanOk : ∀ n, ScanOk s'.scans (s'.pc n) := fun n => by
    by_cases hn : n = k
    · subst hn
      exact hst.scanOk (hinv.scanOk n)
    · rw [hst.pc_of_ne hn]
      exact (hinv.scanOk n).mono hst.counters.1
  refine ⟨(hst.files hinv.oneWriter (hok.freeToOpen hst)).1, hinv.dispatched.next hnext, hscanOk,
    fun n => ?_, fun m n id hmn hn hm hreplaces => ?_,
    fun n id limit moonkey playerkey playerlimit htask hr => ?_⟩
  · rw [hrequest]
    by_cases hn : n = k
    · subst hn
      exact hst.writeOk hinv.dispatched hok
    · rw [hst.pc_of_ne hn]
      exact hinv.writeOk n
  · rw [hrequest] at hm hreplaces
    obtain ⟨response, hpc⟩ := hinv.apart m n id hmn (hbegun ▸ hn) hm hreplaces
    have hne : m ≠ k := by
      rintro rfl
      exact hst.frame.2.2.2.2 response hpc
    exact ⟨response, (hst.pc_of_ne hne).trans hpc⟩
  · rw [hrequest] at htask
    have hcurrent : s'.Current inst n id → s.Current inst n id := fun hcur m hnm hm => by
      have hm' := hcur m hnm (hbegun ▸ hm)
      rwa [hrequest] at hm'
    cases hbefore : (s.pc n).outcome with
    | some r =>
      have hafter : (s'.pc n).outcome = some r := by
        by_cases hn : n = k
        · subst hn
          exact hst.outcome hbefore
        · rw [hst.pc_of_ne hn, hbefore]
      obtain rfl := Option.some.inj (hafter.symm.trans hr)
      obtain ⟨keys, hm, hp, hkept⟩ := hinv.kept n id limit _ _ _ htask hbefore
      exact ⟨keys, hm, hp, fun hcur =>
        (hkept (hcurrent hcur)).step hinv htask hbefore (hcurrent hcur) hst hok⟩
    | none =>
      obtain rfl : n = k := by
        by_contra hn
        rw [hst.pc_of_ne hn, hbefore] at hr
        cases hr
      obtain ⟨keys, hpc, hm, hp, hpc'⟩ := hst.opened hinv.dispatched htask hbefore hr
      exact ⟨keys, hm, hp, fun _ => .of_createOpen hinv hok hst hscanOk hpc hpc'⟩

theorem Recognition.next (hinv : s.Recognition inst) (hok : s.Orderly inst l)
    (hst : s.next inst l = some s') : s'.Recognition inst := by
  obtain ⟨request, rfl, rfl⟩ | ⟨n, hstep⟩ := handlerStep_of_next hst
  · exact hinv.arrive hok
  · exact hinv.step hok hstep hst

theorem answered_of_next (hd : Dispatched inst s) {response : ApiResponse}
    (hpc : s.pc n = .answered response) (hst : s.next inst l = some s') :
    s'.pc n = .answered response := by
  have hn : n < s.begun := hd.lt_begun fun he => by
    rw [hpc] at he
    cases he
  obtain ⟨request, -, rfl⟩ | ⟨k, hstep⟩ := handlerStep_of_next hst
  · rwa [pc_arrive_of_ne request (Nat.ne_of_lt hn)]
  · have hne : n ≠ k := by
      rintro rfl
      exact hstep.frame.2.2.2.2 response hpc
    exact (hstep.pc_of_ne hne).trans hpc

theorem request_of_next (hn : n < s.begun) (hst : s.next inst l = some s') :
    n < s'.begun ∧ (s'.handlers n).request = (s.handlers n).request := by
  obtain ⟨request, -, rfl⟩ | ⟨k, hstep⟩ := handlerStep_of_next hst
  · rw [handlers_arrive_of_ne request (Nat.ne_of_lt hn)]
    exact ⟨Nat.lt_succ_of_lt hn, rfl⟩
  · exact ⟨hstep.frame.2.2.1 ▸ hn, hstep.frame.2.1 n⟩

theorem arrived_of_run {start : ApiServer D} {ls : List RequestLabel} {m : ℕ}
    (hrun : (apiSystem inst start).run s ls = some s') (hm : s.begun ≤ m) (hm' : m < s'.begun) :
    .begin (s'.handlers m).request ∈ ls := by
  induction ls using List.reverseRecOn generalizing s' with
  | nil =>
    obtain rfl := Option.some.inj hrun
    exact absurd hm' (Nat.not_lt.2 hm)
  | append_singleton ls l ih =>
    rw [Machine.run_append] at hrun
    obtain ⟨u, hu, hrun⟩ := Option.bind_eq_some_iff.1 hrun
    obtain ⟨v, hv, hrun⟩ := Option.bind_eq_some_iff.1 hrun
    obtain rfl := Option.some.inj hrun
    rw [List.mem_append, List.mem_singleton]
    obtain ⟨request, rfl, rfl⟩ | ⟨k, hstep⟩ := handlerStep_of_next hv
    · by_cases hlast : m = u.begun
      · subst hlast
        rw [handlers_arrive]
        exact .inr rfl
      · rw [handlers_arrive_of_ne request hlast]
        exact .inl (ih hu (Nat.lt_of_le_of_ne (Nat.le_of_lt_succ hm') hlast))
    · rw [hstep.frame.2.1]
      exact .inl (ih hu (hstep.frame.2.2.1 ▸ hm'))

end ApiSystem

section

open ApiSystem

variable {D : Type*} [DecidableEq D] {inst : Installation D} {start : ApiServer D}
  {before after : List RequestLabel} {l : RequestLabel} {u u' s : ApiSystem D} {n : ℕ}
  {id moonkey playerkey : List UInt8} {limit : Option (List UInt8)} {playerlimit : ℕ}

/-- **A created pair stays recognised**, in every run of orderly steps of any number of requests.
When the step `l` answers a `/create` with a pair, the table recognises the pair until another
`/create` or `/delete` of the id arrives, whatever else happens. -/
theorem created_pair_recognised
    (hbefore : (apiSystem inst start).run (.init start) before = some u)
    (hanswer : (apiSystem inst start).next u l = some u')
    (hafter : (apiSystem inst start).run u' after = some s)
    (hrunning : ∀ response, u.pc n ≠ .answered response)
    (hanswered : u'.pc n = .answered ⟨200, .keys moonkey playerkey playerlimit⟩)
    (htask : ApiServer.task inst (u'.handlers n).request = some (.create id limit))
    (hquiet : ∀ request, .begin request ∈ after → ¬ Replaces inst id request)
    (hok : (apiSystem inst start).Meets (Orderly inst) (.init start) (before ++ l :: after)) :
    s.keyManager.Recognises moonkey playerkey := by
  obtain ⟨hokbefore, hokl, hokafter⟩ := (Machine.meets_append hbefore).1 hok
  have hu : u.Recognition inst :=
    hokbefore.invariant (fun v l v' hv hl hst => hv.next hl hst) (.init start) hbefore
  have hu' : u'.Recognition inst := hu.next hokl hanswer
  have hs : s.Recognition inst ∧
      s.pc n = .answered ⟨200, .keys moonkey playerkey playerlimit⟩ ∧
      ∀ m, m < u'.begun → m < s.begun ∧ (s.handlers m).request = (u'.handlers m).request := by
    refine (hokafter u' hanswer).invariant (I := fun v => v.Recognition inst ∧
      v.pc n = .answered ⟨200, .keys moonkey playerkey playerlimit⟩ ∧ ∀ m, m < u'.begun →
        m < v.begun ∧ (v.handlers m).request = (u'.handlers m).request) ?_
      ⟨hu', hanswered, fun m hm => ⟨hm, rfl⟩⟩ hafter
    rintro v l' v' ⟨hv, hpc, hrequest⟩ hl hst
    refine ⟨hv.next hl hst, answered_of_next hv.dispatched hpc hst, fun m hm => ?_⟩
    obtain ⟨hm, hrequest⟩ := hrequest m hm
    obtain ⟨hm', hrequest'⟩ := request_of_next hm hst
    exact ⟨hm', hrequest'.trans hrequest⟩
  obtain ⟨hrecognition, hpc, hrequest⟩ := hs
  have hn : n < u'.begun := hu'.dispatched.lt_begun fun he => by
    rw [hanswered] at he
    cases he
  have hcurrent : s.Current inst n id := by
    intro m hnm hm hreplaces
    by_cases hm' : m < u'.begun
    · -- the handler was still running when the request arrived
      rw [(hrequest m hm').2] at hreplaces
      obtain ⟨request, rfl, rfl⟩ | ⟨k, hstep⟩ := handlerStep_of_next hanswer
      · have hne : n ≠ u.begun := Nat.ne_of_lt (Nat.lt_of_lt_of_le hnm (Nat.le_of_lt_succ hm'))
        rw [pc_arrive_of_ne request hne] at hanswered
        exact hrunning _ hanswered
      · rw [hstep.frame.2.1] at hreplaces htask
        obtain ⟨response, he⟩ := hu.apart n m id hnm (hstep.frame.2.2.1 ▸ hm')
          (.inl ⟨limit, htask⟩) hreplaces
        exact hrunning response he
    · exact hquiet _ (arrived_of_run hafter (Nat.le_of_not_lt hm') hm) hreplaces
  obtain ⟨keys, rfl, rfl, hkept⟩ := hrecognition.kept n id limit moonkey playerkey playerlimit
    (by rw [(hrequest n hn).2, htask]) (by rw [hpc]; rfl)
  exact ((hkept hcurrent).table _ hpc).recognises

end

/-! ### A `/create`, a `/get` and a `/limit` -/

/-- The program starts without files. -/
def emptyStart : ApiServer Unit := .start oneDirectory noFiles default

namespace ApiSystem

/-- No handler has a file open. -/
def Idle (s : ApiSystem Unit) : Prop := ∀ n < s.begun, (s.pc n).writing = none

instance (s : ApiSystem Unit) : Decidable s.Idle := inferInstanceAs (Decidable (∀ _ < _, _))

/-- What `Checked` asks of the next step of a handler. -/
def CheckedPc (s : ApiSystem Unit) : HandlerPc Unit → Prop
  | .swap scan _ => s.recorded ≤ scan.ticket
  | .createOpen id _ _ => s.Idle ∧ s.files.tree.keys = [] ∧ PlainId id ∧ FitsName id
  | .limitOpen id _ moonHash playerHash => s.Idle ∧
    (AccessKeys.ofContents (s.server.readFile (s.keyFile oneDirectory id.id))).map
      (fun e => (e.moonKey.bytes, e.playerKey.bytes)) = some (moonHash, playerHash)
  | _ => True

/-- A condition on a step that can be evaluated.  There is one `/create`, which finds no files, and
all other requests are `/get` and `/limit`. -/
def Checked (s : ApiSystem Unit) : RequestLabel → Prop
  | .begin request => s.begun = 0 ∨ request.route = .get ∨ request.route = .limit
  | .entry _ _ => s.Idle
  | .draw _ _ => True
  | .step n => s.CheckedPc (s.pc n)

instance (s : ApiSystem Unit) : DecidablePred s.CheckedPc
  | .swap _ _ => inferInstanceAs (Decidable (_ ≤ _))
  | .createOpen _ _ _ | .limitOpen _ _ _ _ => inferInstanceAs (Decidable (_ ∧ _))
  | .absent | .refresh _ | .scan _ _ | .drawPlayer .. | .drawMoon .. | .getExists _ | .getRead _
  | .deleteExists _ | .deleteRemove _ | .limitExists _ _ | .limitRead _ _ | .write ..
  | .answered _ => isTrue trivial

instance (s : ApiSystem Unit) : DecidablePred s.Checked
  | .begin _ => inferInstanceAs (Decidable (_ ∨ _))
  | .entry _ _ => inferInstanceAs (Decidable s.Idle)
  | .draw _ _ => isTrue trivial
  | .step n => inferInstanceAs (Decidable (s.CheckedPc (s.pc n)))

variable {s : ApiSystem Unit} {l : RequestLabel}

theorem Idle.writing (h : s.Idle) (hd : Dispatched oneDirectory s) (n : ℕ) :
    (s.pc n).writing = none := by
  rcases Nat.lt_or_ge n s.begun with hn | hn
  · exact h n hn
  · rw [hd.absent n hn]
    rfl

theorem Idle.not_halfWritten (h : s.Idle) (hd : Dispatched oneDirectory s) (loc : Unit × Name) :
    ¬ s.HalfWritten loc := by
  rintro ⟨n, c, hn⟩
  exact not_writes (h.writing hd n) hn

theorem not_replaces_of_route {D : Type*} {inst : Installation D} {request : ApiRequest}
    (hroute : request.route = .get ∨ request.route = .limit) (id : List UInt8) :
    ¬ Replaces inst id request := by
  obtain ⟨route, key, id', limit⟩ := request
  rcases hroute with rfl | rfl <;> rcases key with _ | key <;> rcases id' with _ | id' <;>
    rcases limit with _ | limit <;> simp [Replaces, ApiServer.task]

theorem Checked.orderly (h : s.Checked l) (hd : Dispatched oneDirectory s) :
    s.Orderly oneDirectory l := by
  cases l with
  | begin request =>
    intro id hreplaces m hm
    rcases h with hbegun | hroute
    · exact absurd (hbegun ▸ hm) (Nat.not_lt_zero _)
    · exact absurd hreplaces (not_replaces_of_route hroute id)
  | entry k name =>
    intro m fd content response hpc hwrites
    exact absurd ⟨m, content, hwrites⟩ (Idle.not_halfWritten h hd _)
  | draw => trivial
  | step n =>
    cases hpc : s.pc n with
    | swap scan next =>
      simp only [Checked, CheckedPc, hpc] at h
      rwa [Orderly, hpc]
    | createOpen id limit keys =>
      simp only [Checked, CheckedPc, hpc] at h
      obtain ⟨hidle, htree, hplain, hfits⟩ := h
      have hlookup : ∀ loc, s.files.tree.lookup loc = none := fun loc => by
        rw [AList.lookup_eq_none, AList.mem_keys, htree]
        exact List.not_mem_nil
      simp only [Orderly, hpc]
      refine ⟨fun loc _ => hidle.not_halfWritten hd loc, ?_, fun name e _ he => ?_⟩
      · refine (oneDirectory.opens_keyFile_iff hplain).2 ⟨rfl, hfits, ?_⟩
        rw [FileSystem.directory, hlookup]
        rfl
      · obtain ⟨c, hc, -⟩ := he
        rw [holds_iff_of_not_halfWritten (hidle.not_halfWritten hd _), FileSystem.contents,
          FileSystem.file, hlookup] at hc
        cases hc
    | limitOpen id text moonHash playerHash =>
      simp only [Checked, CheckedPc, hpc] at h
      obtain ⟨hidle, h⟩ := h
      obtain ⟨e, he, heq⟩ := Option.map_eq_some_iff.1 h
      obtain ⟨rfl, rfl⟩ := Prod.mk.inj heq
      simp only [Orderly, hpc]
      exact ⟨fun loc _ => hidle.not_halfWritten hd loc, e, he, rfl, rfl⟩
    | _ =>
      rw [Orderly, hpc]
      trivial

theorem not_answered_of_scanning {n : ℕ} (h : (s.pc n).scanning.isSome = true)
    (response : ApiResponse) : s.pc n ≠ .answered response := by
  intro he
  rw [he] at h
  cases h

end ApiSystem

/-- A `/create` and a `/get`, which scans the directory while the `/create` draws its keys and opens
its file; the `/get` swaps the table before the last scan of the `/create`. -/
def beforeAnswer : List RequestLabel :=
  [.begin createCall.request, .step 0, .step 0, .step 0,
    .begin (getRequest oneDirectory exampleId), .step 1, .draw 0 (exampleLuck.draws 0),
    .draw 0 (exampleLuck.draws 1), .step 0, .step 1, .step 0, .step 1, .step 0,
    .entry 0 (exampleId ++ txt), .step 0]

/-- Then the `/get` reads the file, a `/limit` replaces it, and another `/get` scans the directory
from before the `/limit` opens the file until after it was written. -/
def afterAnswer : List RequestLabel :=
  [.begin (limitRequest oneDirectory exampleId [53]), .step 1, .step 2, .step 2,
    .begin (getRequest oneDirectory exampleId), .step 1, .step 3, .step 2, .step 2,
    .entry 3 (exampleId ++ txt), .step 3, .step 3, .step 3, .step 3]

/-- The states before and after the answer of the `/create`, and at the end. -/
def answeringState : ApiSystem Unit :=
  ((apiSystem oneDirectory emptyStart).run (.init emptyStart) beforeAnswer).get (by decide +kernel)

def answeredState : ApiSystem Unit :=
  ((apiSystem oneDirectory emptyStart).next answeringState (.step 0)).get (by decide +kernel)

def finalState : ApiSystem Unit :=
  ((apiSystem oneDirectory emptyStart).run answeredState afterAnswer).get (by decide +kernel)

theorem orderly_example : (apiSystem oneDirectory emptyStart).Meets (ApiSystem.Orderly oneDirectory)
    (.init emptyStart) (beforeAnswer ++ .step 0 :: afterAnswer) := by
  have hchecked : (((apiSystem oneDirectory emptyStart).restrict ApiSystem.Checked).run
      (.init emptyStart) (beforeAnswer ++ .step 0 :: afterAnswer)).isSome = true := by
    decide +kernel
  obtain ⟨s, hs⟩ := Option.isSome_iff_exists.1 hchecked
  exact (Machine.run_restrict.1 hs).2.mono (I := ApiSystem.Dispatched oneDirectory)
    (fun v l hd h => h.orderly hd) (fun v l v' hd hst => hd.next hst) (.init emptyStart)

/-- A `/create` among other requests. -/
theorem recognised_among_requests :
    (apiSystem oneDirectory emptyStart).run (.init emptyStart)
      (beforeAnswer ++ .step 0 :: afterAnswer) = some finalState ∧
    finalState.keyManager.Recognises [49, 49, 49, 49] [48, 48, 48, 48] ∧
    finalState.pc 3 = .answered ⟨200, .keys [49, 49, 49, 49] [48, 48, 48, 48] 5⟩ := by
  have hbefore : (apiSystem oneDirectory emptyStart).run (.init emptyStart) beforeAnswer =
      some answeringState := (Option.some_get _).symm
  have hanswer : (apiSystem oneDirectory emptyStart).next answeringState (.step 0) =
      some answeredState := (Option.some_get _).symm
  have hafter : (apiSystem oneDirectory emptyStart).run answeredState afterAnswer =
      some finalState := (Option.some_get _).symm
  have hanswered : answeredState.pc 0 =
      .answered ⟨200, .keys [49, 49, 49, 49] [48, 48, 48, 48] 80⟩ := by
    decide +kernel
  have hrequest : (answeredState.handlers 0).request = createCall.request := by decide +kernel
  refine ⟨?_, created_pair_recognised (n := 0) hbefore hanswer hafter
    (ApiSystem.not_answered_of_scanning (by decide +kernel)) hanswered
    (by rw [hrequest]; rfl) (fun request hmem => ?_) orderly_example, by decide +kernel⟩
  · rw [Machine.run_append, hbefore, Option.bind_some, Machine.run, hanswer, Option.bind_some,
      hafter]
  · refine ApiSystem.not_replaces_of_route ?_ exampleId
    simp only [afterAnswer, List.mem_cons, RequestLabel.begin.injEq, reduceCtorEq, false_or,
      List.not_mem_nil, or_false] at hmem
    rcases hmem with rfl | rfl
    · exact .inr rfl
    · exact .inl rfl

/-- The steps of a `/create` of `exampleId` that is the handler `n`, up to the last swap. -/
def createSteps (n : ℕ) : List RequestLabel :=
  [.step n, .step n, .step n, .draw n (exampleLuck.draws 0), .draw n (exampleLuck.draws 1),
    .step n, .step n, .step n, .entry n (exampleId ++ txt), .step n]

/-- A `/get` that has scanned the empty directory, then a `/create` up to its last swap. -/
def lateLabels : List RequestLabel :=
  [.begin (getRequest oneDirectory exampleId), .step 0, .step 0, .begin createCall.request] ++
    createSteps 1

/-- The states before and after the answer of the `/create`, and after the swap of the `/get`. -/
def lateStates : ApiSystem Unit × ApiSystem Unit × ApiSystem Unit :=
  let machine := apiSystem oneDirectory emptyStart
  let run := fun labels => (machine.run (.init emptyStart) labels).getD (.init emptyStart)
  (run lateLabels, run (lateLabels ++ [.step 1]), run (lateLabels ++ [.step 1, .step 0]))

/-- **A created pair is lost**: the `/get` swaps in the table that it has found before the `/create`
wrote its file. -/
theorem created_pair_lost : ¬ ∀ (before after : List RequestLabel) (l : RequestLabel)
    (u u' s : ApiSystem Unit) (n : ℕ) (id moonkey playerkey : List UInt8)
    (limit : Option (List UInt8)) (playerlimit : ℕ),
    (apiSystem oneDirectory emptyStart).run (.init emptyStart) before = some u →
    (apiSystem oneDirectory emptyStart).next u l = some u' →
    (apiSystem oneDirectory emptyStart).run u' after = some s →
    (∀ response, u.pc n ≠ .answered response) →
    u'.pc n = .answered ⟨200, .keys moonkey playerkey playerlimit⟩ →
    ApiServer.task oneDirectory (u'.handlers n).request = some (.create id limit) →
    (∀ request, .begin request ∈ after → ¬ ApiSystem.Replaces oneDirectory id request) →
    s.keyManager.Recognises moonkey playerkey := by
  intro h
  have hlost := h lateLabels [.step 0] (.step 1) lateStates.1 lateStates.2.1 lateStates.2.2 1
    exampleId [49, 49, 49, 49] [48, 48, 48, 48] none 80 rfl rfl rfl
    (ApiSystem.not_answered_of_scanning (by decide +kernel)) (by decide +kernel) rfl
    fun request hmem => by simp at hmem
  exact absurd hlost.2.2.1 (by decide +kernel)

end MoonJamRelay
