import MoonJamRelay.Requests.Recognised

/-!
# Where key pairs come from

Nothing keeps two handlers from writing the same file at the same time.  The text of one then
replaces the beginning of the text of the other, and the file can end with digits that neither has
written.  But both texts begin with a pair of the same length, so a pair is never torn.

* `KeyPair.Line` : a text that begins with the pair and goes on with digits; `Line.overwrite` : so
  does what a shorter text leaves of a longer one.
* `ApiSystem.Drawn` : a `/create` has drawn the pair.
* `HandlerStep.contents`, `HandlerStep.reports` : how a file gets its contents, and how a handler
  comes to report keys, in any interleaving.
* `ApiSystem.Sourced` : the invariant; `keys_drawn` : all keys that the table has, or a handler
  reports, were drawn by a `/create`.
-/

namespace MoonJamRelay

namespace KeyPair

variable {keys keys' : KeyPair} {c c' : List UInt8}

/-- The text begins with the pair and goes on with digits. -/
def Line (keys : KeyPair) (c : List UInt8) : Prop :=
  ∃ digits, (∀ d ∈ digits, Decimal.IsDigit d) ∧
    c = keys.moonHash.bytes ++ [32] ++ keys.playerHash.bytes ++ [32] ++ digits

theorem line_keyText (keys : KeyPair) (limit : ℕ) :
    keys.Line (keyText keys.moonHash.bytes keys.playerHash.bytes limit) :=
  ⟨Decimal.print limit, (Decimal.numeral_print limit).2, rfl⟩

theorem Line.overwrite (h : keys.Line c) (h' : keys'.Line c') :
    keys.Line (c ++ c'.drop c.length) := by
  obtain ⟨digits, hdigits, rfl⟩ := h
  obtain ⟨digits', hdigits', rfl⟩ := h'
  have hlen : ∀ k : KeyPair,
      (k.moonHash.bytes ++ [32] ++ k.playerHash.bytes ++ [32]).length = hashLength * 2 + 2 :=
    fun k => by simp [k.moonHash.length_bytes, k.playerHash.length_bytes, hashLength]
  refine ⟨digits ++ digits'.drop digits.length, fun d hd => ?_, ?_⟩
  · rcases List.mem_append.1 hd with hd | hd
    · exact hdigits d hd
    · exact hdigits' d (List.mem_of_mem_drop hd)
  · rw [List.length_append, hlen keys, ← hlen keys', List.drop_length_add_append,
      List.append_assoc]

theorem Line.ofContents (h : keys.Line c) :
    ∃ e, AccessKeys.ofContents (stripLines c) = some e ∧ keys.Is e := by
  obtain ⟨digits, hdigits, rfl⟩ := h
  have hstrip : stripLines (keys.moonHash.bytes ++ [32] ++ keys.playerHash.bytes ++ [32] ++
      digits) = keys.moonHash.bytes ++ (32 :: (keys.playerHash.bytes ++ (32 :: digits))) := by
    rw [stripLines_eq_self fun c hc => ?_]
    · simp
    · simp only [List.mem_append, List.mem_singleton] at hc
      rcases hc with (((hc | rfl) | hc) | rfl) | hc
      · exact keys.moonHash.not_line_end c hc
      · decide
      · exact keys.playerHash.not_line_end c hc
      · decide
      · have hd := hdigits c hc
        refine ⟨?_, ?_⟩ <;> rintro rfl <;> revert hd <;> decide
  have hmoon := keys.moonHash.length_bytes
  have hlen : hashLength * 2 + 1 ≤
      (keys.moonHash.bytes ++ (32 :: (keys.playerHash.bytes ++ (32 :: digits)))).length := by
    rw [List.length_append, List.length_cons, List.length_append, hmoon,
      keys.playerHash.length_bytes]
    omega
  rw [hstrip, AccessKeys.ofContents, if_neg (Nat.not_lt.2 hlen)]
  refine ⟨_, rfl, Hash.ofBytes_append _ _, ?_⟩
  have hdrop : (keys.moonHash.bytes ++ (32 :: (keys.playerHash.bytes ++ (32 :: digits)))).drop
      (hashLength + 1) = keys.playerHash.bytes ++ (32 :: digits) := by
    rw [← hmoon, List.drop_length_add_append]
    rfl
  exact (congrArg Hash.ofBytes hdrop).trans (Hash.ofBytes_append _ _)

end KeyPair

namespace ApiSystem

variable {D : Type*} [DecidableEq D] (inst : Installation D) (s : ApiSystem D)

/-- A `/create` with the secret has drawn the pair, and reports it. -/
def Drawn (keys : KeyPair) : Prop :=
  ∃ n id limit, ApiServer.task inst (s.handlers n).request = some (.create id limit) ∧
    (s.pc n).outcome = some (keys.report limit)

/-- The entry has a pair that was drawn. -/
def DrawnEntry (e : AccessKeys) : Prop := ∃ keys, s.Drawn inst keys ∧ keys.Is e

/-- The text has a pair that was drawn. -/
def DrawnText (c : List UInt8) : Prop := ∃ keys, s.Drawn inst keys ∧ keys.Line c

/-- The keys are a pair that was drawn. -/
def DrawnKeys (moonHash playerHash : List UInt8) : Prop :=
  ∃ keys, s.Drawn inst keys ∧ moonHash = keys.moonHash.bytes ∧ playerHash = keys.playerHash.bytes

/-- The pairs that a handler has found, or is going to write, were drawn. -/
def SourcedPc : HandlerPc D → Prop
  | .scan scan _ | .swap scan _ => ∀ e ∈ scan.keys, s.DrawnEntry inst e
  | .limitOpen _ _ moonHash playerHash => s.DrawnKeys inst moonHash playerHash
  | .write _ content _ => s.DrawnText inst content
  | _ => True

/-- The request asks for a file of the key directory, if it is a `/get`: its id has no slash and no
zero. -/
def LooksInside (request : ApiRequest) : Prop :=
  ∀ id, ApiServer.task inst request = some (.get id) → PlainId id

/-- All pairs in the key files, the table, the handlers and the responses were drawn. -/
structure Sourced : Prop where
  files : ∀ name c, s.files.contents (inst.keys, name) = some c → c = [] ∨ s.DrawnText inst c
  handlers : ∀ n, s.SourcedPc inst (s.pc n)
  table : ∀ e ∈ s.keyManager.keys, s.DrawnEntry inst e
  reports : ∀ n status moonHash playerHash limit, LooksInside inst (s.handlers n).request →
    (s.pc n).outcome = some ⟨status, .keys moonHash playerHash limit⟩ →
    s.DrawnKeys inst moonHash playerHash

variable {inst s} {s' : ApiSystem D} {n : ℕ} {l : RequestLabel} {keys : KeyPair}

/-! ### What was drawn stays drawn -/

theorem Drawn.step (h : s.Drawn inst keys) (hst : HandlerStep inst s n l s') :
    s'.Drawn inst keys := by
  obtain ⟨m, id, limit, htask, hout⟩ := h
  refine ⟨m, id, limit, by rwa [hst.frame.2.1], ?_⟩
  by_cases hm : m = n
  · subst hm
    exact hst.outcome hout
  · rwa [hst.pc_of_ne hm]

theorem Drawn.arrive (h : s.Drawn inst keys) (hd : Dispatched inst s) (request : ApiRequest) :
    (s.arrive inst request).Drawn inst keys := by
  obtain ⟨m, id, limit, htask, hout⟩ := h
  have hm : m ≠ s.begun := by
    rintro rfl
    rw [hd.absent _ (Nat.le_refl _)] at hout
    cases hout
  refine ⟨m, id, limit, ?_, ?_⟩
  · rwa [handlers_arrive_of_ne request hm]
  · rwa [pc_arrive_of_ne request hm]

/-- More pairs were drawn. -/
theorem SourcedPc.mono {pc : HandlerPc D} (h : s.SourcedPc inst pc)
    (hdrawn : ∀ keys, s.Drawn inst keys → s'.Drawn inst keys) : s'.SourcedPc inst pc := by
  cases pc with
  | scan scan | swap scan =>
    intro e he
    obtain ⟨keys, hk, his⟩ := h e he
    exact ⟨keys, hdrawn keys hk, his⟩
  | limitOpen | write =>
    obtain ⟨keys, hk, hrest⟩ := h
    exact ⟨keys, hdrawn keys hk, hrest⟩
  | _ => trivial

variable (inst s) in
theorem start_keys (task : Option ApiServer.Task) : s.SourcedPc inst (.start task) ∧
    ∀ status moonHash playerHash limit, (HandlerPc.start (D := D) task).outcome ≠
      some ⟨status, .keys moonHash playerHash limit⟩ := by
  rcases task with _ | (_ | _ | _ | _) <;>
    exact ⟨trivial, fun _ _ _ _ he => by cases he⟩

/-! ### Reading -/

/-- Whatever is read from a key file, the pair in it was drawn. -/
theorem Sourced.entry_of_read (h : s.Sourced inst) {name : Name} {e : AccessKeys}
    (he : AccessKeys.ofContents (s.server.readFile (.entry (inst.keys, name))) = some e) :
    s.DrawnEntry inst e := by
  obtain ⟨c, hc, he⟩ := ApiServer.loads_of_readFile he
  rcases h.files name c hc with rfl | ⟨keys, hdrawn, hline⟩
  · cases he
  · obtain ⟨e', he', his⟩ := hline.ofContents
    obtain rfl := Option.some.inj (he'.symm.trans he)
    exact ⟨keys, hdrawn, his⟩

/-- The keys that `/get` and `/limit` find in a key file. -/
theorem Sourced.keys_of_read (h : s.Sourced inst) {id moonHash playerHash : List UInt8}
    (hid : PlainId id) (hmoon : moonHashOf (s.server.readFile (s.keyFile inst id)) = some moonHash)
    (hplayer : playerHashOf (s.server.readFile (s.keyFile inst id)) = some playerHash) :
    s.DrawnKeys inst moonHash playerHash := by
  obtain ⟨loc, c, hloc, hc⟩ := ApiServer.exists_of_playerHashOf hplayer
  obtain rfl := inst.eq_of_keyFile_entry hid hloc
  rw [hloc, readFile_eq hc] at hmoon hplayer
  rcases h.files _ c hc with rfl | ⟨keys, hdrawn, hline⟩
  · cases hplayer
  · obtain ⟨e, he, hm, hp⟩ := hline.ofContents
    obtain ⟨hmoon', hplayer', -⟩ := ofContents_spec he
    refine ⟨keys, hdrawn, ?_, ?_⟩
    · rw [← hm]
      exact Option.some.inj (hmoon.symm.trans hmoon')
    · rw [← hp]
      exact Option.some.inj (hplayer.symm.trans hplayer')

/-! ### Writing -/

/-- How a file gets its contents: it keeps them, or is emptied, or a handler writes its text over
what the file had. -/
theorem HandlerStep.contents (hst : HandlerStep inst s n l s') {loc : D × Name} {c : List UInt8}
    (hc : s'.files.contents loc = some c) : s.files.contents loc = some c ∨ c = [] ∨
      ∃ fd content next old, s.pc n = .write fd content next ∧ s.files.contents loc = some old ∧
        c = content ++ old.drop content.length := by
  cases hst with
  | createOpen | limitOpen =>
    rw [contents_openWrite] at hc
    split_ifs at hc
    · exact .inr (.inl (Option.some.inj hc).symm)
    · exact .inl hc
  | deleteRemove _ _ files _ hremove =>
    change files.contents loc = some c at hc
    rw [FileSystem.contents_remove hremove] at hc
    split_ifs at hc
    exact .inl hc
  | writeCreate fd content _ hpc | writeLimit fd content _ hpc =>
    change (s.files.write fd content).contents loc = some c at hc
    cases fd with
    | none => exact .inl hc
    | some fd =>
      rw [FileSystem.contents_write] at hc
      split_ifs at hc
      · obtain ⟨old, hold, rfl⟩ := Option.map_eq_some_iff.1 hc
        exact .inr (.inr ⟨_, content, _, old, hpc, hold, rfl⟩)
      · exact .inl hc
  | _ => exact .inl hc

/-- How a handler comes to report keys. -/
theorem HandlerStep.reports (hst : HandlerStep inst s n l s') {status limit : ℕ}
    {moonHash playerHash : List UInt8}
    (hout : (s'.pc n).outcome = some ⟨status, .keys moonHash playerHash limit⟩) :
    (s.pc n).outcome = some ⟨status, .keys moonHash playerHash limit⟩ ∨
      (∃ id text keys, s.pc n = .createOpen id text keys ∧
        (s'.pc n).outcome = some (keys.report text) ∧ moonHash = keys.moonHash.bytes ∧
        playerHash = keys.playerHash.bytes) ∨
      (∃ id text, s.pc n = .limitOpen id text moonHash playerHash) ∨
      ∃ id, s.pc n = .getRead id ∧
        moonHashOf (s.server.readFile (s.keyFile inst id)) = some moonHash ∧
        playerHashOf (s.server.readFile (s.keyFile inst id)) = some playerHash := by
  cases hst with
  | createOpen id limit keys hpc =>
    rw [openWrite, pc_goto] at hout ⊢
    obtain ⟨-, hcontent⟩ := ApiResponse.mk.inj (Option.some.inj hout)
    obtain ⟨rfl, rfl, -⟩ := Content.keys.inj hcontent
    exact .inr (.inl ⟨id, limit, keys, hpc, rfl, rfl, rfl⟩)
  | limitOpen id text _ _ hpc =>
    rw [openWrite, pc_goto] at hout
    obtain ⟨-, hcontent⟩ := ApiResponse.mk.inj (Option.some.inj hout)
    obtain ⟨rfl, rfl, -⟩ := Content.keys.inj hcontent
    exact .inr (.inr (.inl ⟨id, text, hpc⟩))
  | got id _ _ hpc hmoon hplayer =>
    rw [pc_goto] at hout
    obtain ⟨-, hcontent⟩ := ApiResponse.mk.inj (Option.some.inj hout)
    obtain ⟨rfl, rfl, -⟩ := Content.keys.inj hcontent
    exact .inr (.inr (.inr ⟨id, hpc, hmoon, hplayer⟩))
  | refresh next hpc | entry _ next _ hpc | complete _ next hpc =>
    rw [pc_goto] at hout
    rw [hpc]
    cases next <;> exact .inl hout
  | swap _ next hpc hlast =>
    rw [pc_goto] at hout
    cases next with
    | draw | get => cases hout
    | answer response written => exact absurd rfl (hlast response written)
  | lastSwap _ _ _ hpc | writeCreate _ _ _ hpc | writeLimit _ _ _ hpc =>
    rw [pc_goto] at hout
    rw [hpc]
    exact .inl hout
  | deleteRemove _ removed =>
    rw [pc_goto] at hout
    cases removed <;> cases hout
  | _ =>
    rw [pc_goto] at hout
    cases hout

/-! ### The invariant -/

/-- When `/create` opens its file, its response is known. -/
theorem drawn_of_createOpen (hd : Dispatched inst s) (hst : HandlerStep inst s n l s')
    {id : List UInt8} {limit : Option (List UInt8)} (hpc : s.pc n = .createOpen id limit keys)
    (hout : (s'.pc n).outcome = some (keys.report limit)) : s'.Drawn inst keys := by
  refine ⟨n, id, limit, ?_, hout⟩
  rw [hst.frame.2.1]
  exact hd.task n _ (by rw [hpc]; rfl)

theorem Sourced.pc_step (h : s.Sourced inst) (hd : Dispatched inst s)
    (hst : HandlerStep inst s n l s') : s'.SourcedPc inst (s'.pc n) := by
  have hmono : ∀ {pc : HandlerPc D}, s.SourcedPc inst pc → s'.SourcedPc inst pc :=
    fun hpc => hpc.mono fun _ hk => hk.step hst
  have hself := h.handlers n
  have hstep := hst
  cases hst with
  | refresh =>
    rw [pc_goto]
    exact fun e he => absurd he List.not_mem_nil
  | entry scan next name hpc =>
    rw [hpc] at hself
    rw [pc_goto]
    intro e he
    rcases List.mem_append.1 he with he | he
    · exact hmono (show s.SourcedPc inst (.scan scan next) from hself) e he
    · obtain ⟨keys, hdrawn, his⟩ := h.entry_of_read (Option.mem_toList.1 he)
      exact ⟨keys, hdrawn.step hstep, his⟩
  | complete scan next hpc =>
    rw [hpc] at hself
    rw [pc_goto]
    exact hmono (show s.SourcedPc inst (.swap scan next) from hself)
  | createOpen id limit keys hpc =>
    have hdrawn := drawn_of_createOpen hd hstep hpc (by rw [openWrite, pc_goto]; rfl)
    rw [openWrite, pc_goto]
    exact ⟨keys, hdrawn, keys.line_keyText _⟩
  | limitRead id text moonHash playerHash _ hmoon hplayer =>
    obtain ⟨keys, hdrawn, hkeys⟩ := h.keys_of_read id.valid.plainId hmoon hplayer
    rw [pc_goto]
    exact ⟨keys, hdrawn.step hstep, hkeys⟩
  | limitOpen id text moonHash playerHash hpc =>
    rw [hpc] at hself
    obtain ⟨keys, hdrawn, rfl, rfl⟩ := hself
    rw [openWrite, pc_goto]
    exact ⟨keys, hdrawn.step hstep, keys.line_keyText _⟩
  | swap _ next =>
    rw [pc_goto]
    cases next <;> trivial
  | _ =>
    rw [pc_goto]
    trivial

theorem Sourced.step (h : s.Sourced inst) (hd : Dispatched inst s)
    (hst : HandlerStep inst s n l s') : s'.Sourced inst := by
  have htext : ∀ c, s.DrawnText inst c → s'.DrawnText inst c := fun c ⟨keys, hk, hline⟩ =>
    ⟨keys, hk.step hst, hline⟩
  have hkeys : ∀ m p, s.DrawnKeys inst m p → s'.DrawnKeys inst m p := fun m p ⟨keys, hk, hmp⟩ =>
    ⟨keys, hk.step hst, hmp⟩
  have hentry : ∀ e, s.DrawnEntry inst e → s'.DrawnEntry inst e := fun e ⟨keys, hk, his⟩ =>
    ⟨keys, hk.step hst, his⟩
  refine ⟨fun name c hc => ?_, fun m => ?_, fun e he => ?_, fun m status mh ph limit hin hout => ?_⟩
  · rcases hst.contents hc with hc | rfl | ⟨fd, content, next, old, hpc, hold, rfl⟩
    · exact (h.files name c hc).imp_right (htext c)
    · exact .inl rfl
    · -- what is left of the old text has digits only
      have hself := h.handlers n
      rw [hpc] at hself
      refine .inr (htext _ ?_)
      obtain ⟨keys, hdrawn, hline⟩ := hself
      rcases h.files name old hold with rfl | ⟨keys', -, hline'⟩
      · rw [List.drop_nil, List.append_nil]
        exact ⟨keys, hdrawn, hline⟩
      · exact ⟨keys, hdrawn, hline.overwrite hline'⟩
  · by_cases hm : m = n
    · subst hm
      exact h.pc_step hd hst
    · rw [hst.pc_of_ne hm]
      exact (h.handlers m).mono fun _ hk => hk.step hst
  · by_cases hpc : ∃ scan next, s.pc n = .swap scan next
    · obtain ⟨scan, next, hpc⟩ := hpc
      rw [(hst.table.1 scan next hpc).2] at he
      have hself := h.handlers n
      rw [hpc] at hself
      exact hentry e (hself e he)
    · rw [hst.table.2 fun scan next hpc' => hpc ⟨scan, next, hpc'⟩] at he
      exact hentry e (h.table e he)
  · rw [hst.frame.2.1] at hin
    by_cases hm : m = n
    · subst hm
      rcases hst.reports hout with hout | ⟨id, text, keys, hpc, hnew, rfl, rfl⟩ |
        ⟨id, text, hpc⟩ | ⟨id, hpc, hmoon, hplayer⟩
      · exact hkeys _ _ (h.reports m status mh ph limit hin hout)
      · exact ⟨keys, drawn_of_createOpen hd hst hpc hnew, rfl, rfl⟩
      · have hself := h.handlers m
        rw [hpc] at hself
        exact hkeys _ _ hself
      · have htask := hd.task m _ (show (s.pc m).task = some (.get id) by rw [hpc]; rfl)
        exact hkeys _ _ (h.keys_of_read (hin id htask) hmoon hplayer)
    · rw [hst.pc_of_ne hm] at hout
      exact hkeys _ _ (h.reports m status mh ph limit hin hout)

theorem Sourced.arrive (h : s.Sourced inst) (hd : Dispatched inst s) (request : ApiRequest) :
    (s.arrive inst request).Sourced inst := by
  have hmono : ∀ keys, s.Drawn inst keys → (s.arrive inst request).Drawn inst keys :=
    fun _ hk => hk.arrive hd request
  refine ⟨fun name c hc => ?_, fun m => ?_, fun e he => ?_, fun m status mh ph limit hin hout => ?_⟩
  · refine (h.files name c hc).imp_right ?_
    rintro ⟨keys, hk, hline⟩
    exact ⟨keys, hmono keys hk, hline⟩
  · by_cases hm : m = s.begun
    · subst hm
      rw [pc_arrive]
      exact (start_keys _ _ _).1
    · rw [pc_arrive_of_ne request hm]
      exact (h.handlers m).mono hmono
  · obtain ⟨keys, hk, his⟩ := h.table e he
    exact ⟨keys, hmono keys hk, his⟩
  · by_cases hm : m = s.begun
    · subst hm
      rw [pc_arrive] at hout
      exact absurd hout ((s.start_keys inst _).2 _ _ _ _)
    · rw [handlers_arrive_of_ne request hm] at hin
      rw [pc_arrive_of_ne request hm] at hout
      obtain ⟨keys, hk, hrest⟩ := h.reports m status mh ph limit hin hout
      exact ⟨keys, hmono keys hk, hrest⟩

theorem Sourced.init {files : FileSystem D} (order : ScanOrder)
    (hempty : ∀ name, files.contents (inst.keys, name) = none) :
    (ApiSystem.init (.start inst files order)).Sourced inst := by
  refine ⟨fun name c hc => ?_, fun m => trivial, fun e he => ?_, fun m _ _ _ _ _ hout => ?_⟩
  · cases (hempty name).symm.trans hc
  · obtain ⟨name, c, hc, -⟩ := ApiServer.mem_scan_entries.1
      ((show ((ApiServer.mk files ⟨[]⟩).refreshKeys inst order).Fresh inst from
        ApiServer.fresh_refreshKeys order).mem_iff.1 he)
    cases (hempty name).symm.trans hc
  · cases hout

theorem sourced_of_reachable {files : FileSystem D} {order : ScanOrder}
    (hempty : ∀ name, files.contents (inst.keys, name) = none)
    (h : (apiSystem inst (.start inst files order)).Reachable s) :
    s.Sourced inst ∧ Dispatched inst s := by
  refine h.invariant (I := fun s => s.Sourced inst ∧ Dispatched inst s)
    ⟨.init order hempty, .init _⟩ ?_
  rintro u l u' - ⟨hu, hd⟩ hst
  refine ⟨?_, hd.next hst⟩
  obtain ⟨request, -, rfl⟩ | ⟨n, hstep⟩ := handlerStep_of_next hst
  · exact hu.arrive hd request
  · exact hu.step hd hstep

end ApiSystem

section

open ApiSystem

variable {D : Type*} [DecidableEq D] {inst : Installation D} {files : FileSystem D}
  {order : ScanOrder} {s : ApiSystem D}

/-- **Keys come from `/create`**, whatever requests run at the same time, and however their file
operations overlap.  When the program starts with an empty key directory, every pair in the table
was drawn by a `/create` with the secret, so the relay lets nobody into a room but with a key that
was drawn for it; and every pair that a handler reports was drawn, unless it is a `/get` whose id
has a slash or a zero. -/
theorem keys_drawn (hempty : ∀ name, files.contents (inst.keys, name) = none)
    (h : (apiSystem inst (.start inst files order)).Reachable s) :
    (∀ e ∈ s.keyManager.keys, s.DrawnEntry inst e) ∧
    (∀ key, s.keyManager.getRoom key ≠ Hash.empty → ∃ keys, s.Drawn inst keys ∧
      s.keyManager.getRoom key = keys.moonHash.toHash ∧
      (key = keys.moonHash.toHash ∨ key = keys.playerHash.toHash)) ∧
    ∀ n status moonkey playerkey playerlimit, LooksInside inst (s.handlers n).request →
      (s.pc n).outcome = some ⟨status, .keys moonkey playerkey playerlimit⟩ →
      s.DrawnKeys inst moonkey playerkey := by
  have hsourced := (sourced_of_reachable hempty h).1
  refine ⟨hsourced.table, fun key hroom => ?_, hsourced.reports⟩
  obtain ⟨e, hmem, hmoon, hhas⟩ := KeyManager.getRoom_spec hroom
  obtain ⟨keys, hdrawn, hm, hp⟩ := hsourced.table e hmem
  exact ⟨keys, hdrawn, hmoon.symm.trans hm,
    hhas.imp (fun he => he.symm.trans hm) fun he => he.symm.trans hp⟩

end

/-- Two handlers of `/create` for `exampleId`, one of them for 5 players, have the file open at the
same time; the one for 80 writes first. -/
def tornLabels : List RequestLabel :=
  let drawn (n : ℕ) (player moon : RandomString) : List RequestLabel :=
    [.step n, .step n, .step n, .draw n player, .draw n moon]
  let key (c : UInt8) (h : Alphanumeric c) : RandomString :=
    ⟨⟨[c, c, c, c], rfl⟩, by simpa using h⟩
  [.begin createCall.request, .begin { createCall.request with limit := some [53] }] ++
    drawn 0 (key 48 (by decide)) (key 49 (by decide)) ++
    drawn 1 (key 50 (by decide)) (key 51 (by decide)) ++
    [.step 0, .step 1, .step 0, .step 1, .step 1, .entry 1 (exampleId ++ txt), .step 1, .step 1]

/-- The state after `tornLabels`. -/
def tornState : ApiSystem Unit :=
  ((apiSystem oneDirectory emptyStart).run (.init emptyStart) tornLabels).get (by decide +kernel)

/-- In the torn file the limit is 50, but the pair is one that was drawn. -/
theorem keys_drawn_torn : tornState.keyManager.keys.map AccessKeys.playerLimit = [50] ∧
    ∀ e ∈ tornState.keyManager.keys, tornState.DrawnEntry oneDirectory e :=
  ⟨by decide +kernel, (@keys_drawn Unit _ oneDirectory noFiles default tornState (fun _ => rfl)
    (.of_run (Option.some_get _).symm)).1⟩

end MoonJamRelay
