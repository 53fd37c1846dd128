import MoonJamRelay.Requests.Step

/-!
# Handlers and their files

* `HandlerStep.frame` : what a step of one handler leaves as it is.
* `Dispatched` : every handler performs the task of its request.
* `OneWriter` : a file that was emptied has one handler that writes it.  It is kept as long as no
  handler opens a file that another has emptied (`FreeToOpen`).
* `holds_quiet`, `holds_openWrite`, `holds_write`, `holds_remove` : what the files hold after a
  step.  The text of a file changes when it is opened, not when it is written.
* `HandlerStep.files`, `HandlerStep.inode` : so for every step.
-/

namespace MoonJamRelay

/-- The task of a handler, until its response is known. -/
def HandlerPc.task {D : Type*} : HandlerPc D → Option ApiServer.Task
  | refresh (.draw id limit) | scan _ (.draw id limit) | swap _ (.draw id limit)
  | drawPlayer id limit _ | drawMoon id limit _ _ | createOpen id limit _ =>
    some (.create id limit)
  | refresh (.get id) | scan _ (.get id) | swap _ (.get id) | getExists id | getRead id =>
    some (.get id)
  | deleteExists id => some (.delete id)
  | deleteRemove id => some (.delete id.id)
  | limitExists id text => some (.limit id text)
  | limitRead id text | limitOpen id text _ _ => some (.limit id.id text)
  | _ => none

/-- The id of the file that the next step of a handler opens or removes, and the text that it will
hold. -/
def HandlerPc.effect {D : Type*} : HandlerPc D → Option (List UInt8 × Option (List UInt8))
  | createOpen id limit keys => some (id, some (keys.text limit))
  | limitOpen id text moonHash playerHash =>
    some (id.id, some (keyText moonHash playerHash (playerLimitOf text)))
  | deleteRemove id => some (id.id, none)
  | _ => none

theorem HandlerPc.outcome_of_task {D : Type*} {pc : HandlerPc D} {task : ApiServer.Task}
    (h : pc.task = some task) : pc.outcome = none := by
  cases pc with
  | refresh next | scan _ next | swap _ next =>
    cases next with
    | draw | get => rfl
    | answer => cases h
  | write | answered => cases h
  | _ => rfl

/-- The id of the file that a handler is about to open for output. -/
def HandlerPc.opening {D : Type*} : HandlerPc D → Option (List UInt8)
  | createOpen id _ _ => some id
  | limitOpen id _ _ _ => some id.id
  | _ => none

namespace ApiSystem

variable {D : Type*} [DecidableEq D] {inst : Installation D} {s s' : ApiSystem D} {n m : ℕ}

/-! ### One handler goes on -/

@[simp] theorem pc_goto (pc : HandlerPc D) : (s.goto n pc).pc n = pc := by
  simp [ApiSystem.pc, goto]

theorem handlers_goto (pc : HandlerPc D) (hm : m ≠ n) :
    (s.goto n pc).handlers m = s.handlers m := Function.update_of_ne hm _ _

@[simp] theorem request_goto (pc : HandlerPc D) :
    ((s.goto n pc).handlers m).request = (s.handlers m).request := by
  by_cases hm : m = n
  · subst hm
    simp [goto]
  · rw [handlers_goto pc hm]

theorem handlers_arrive (request : ApiRequest) : (s.arrive inst request).handlers s.begun =
    ⟨request, .start (ApiServer.task inst request)⟩ := Function.update_self ..

theorem handlers_arrive_of_ne (request : ApiRequest) (hm : m ≠ s.begun) :
    (s.arrive inst request).handlers m = s.handlers m := Function.update_of_ne hm _ _

theorem pc_arrive (request : ApiRequest) :
    (s.arrive inst request).pc s.begun = .start (ApiServer.task inst request) :=
  congrArg Handler.pc (handlers_arrive request)

theorem pc_arrive_of_ne (request : ApiRequest) (hm : m ≠ s.begun) :
    (s.arrive inst request).pc m = s.pc m :=
  congrArg Handler.pc (handlers_arrive_of_ne request hm)

omit [DecidableEq D] in
theorem writing_start (task : Option ApiServer.Task) :
    (HandlerPc.start (D := D) task).writing = none := by
  rcases task with _ | (_ | _ | _ | _) <;> rfl

omit [DecidableEq D] in
theorem task_start {task : Option ApiServer.Task} :
    (HandlerPc.start (D := D) task).task = task := by
  rcases task with _ | (_ | _ | _ | _) <;> rfl

variable {l : RequestLabel}

theorem HandlerStep.frame (h : HandlerStep inst s n l s') :
    (∀ m, m ≠ n → s'.handlers m = s.handlers m) ∧
      (∀ m, (s'.handlers m).request = (s.handlers m).request) ∧ s'.begun = s.begun ∧
      s.pc n ≠ .absent ∧ ∀ response, s.pc n ≠ .answered response := by
  cases h with
  | refresh _ hpc | entry _ _ _ hpc | complete _ _ hpc | swap _ _ hpc | lastSwap _ _ _ hpc
  | noPlayer _ _ _ hpc | takenPlayer _ _ _ _ hpc | player _ _ _ _ hpc | noMoon _ _ _ _ hpc
  | takenMoon _ _ _ _ _ hpc | moon _ _ _ _ hpc | createOpen _ _ _ hpc | getRefused _ hpc
  | getNothing _ hpc | getFile _ hpc | got _ _ _ hpc | getThrows _ hpc | deleteRefused _ hpc
  | deleteNothing _ hpc | deleteInvalid _ hpc | deleteFile _ hpc | deleteRemove _ _ _ hpc
  | deleteThrows _ hpc | limitRefused _ _ hpc | limitNothing _ _ hpc | limitInvalid _ _ hpc
  | limitFile _ _ hpc | limitRead _ _ _ _ hpc | limitThrows _ _ hpc | limitOpen _ _ _ _ hpc
  | writeCreate _ _ _ hpc | writeLimit _ _ _ hpc =>
    refine ⟨fun m hm => handlers_goto _ hm, fun m => request_goto _, rfl, ?_⟩
    rw [hpc]
    exact ⟨fun he => (by cases he), fun _ he => (by cases he)⟩

theorem HandlerStep.pc_of_ne (h : HandlerStep inst s n l s') (hm : m ≠ n) : s'.pc m = s.pc m :=
  congrArg Handler.pc (h.frame.1 m hm)

theorem HandlerStep.task (h : HandlerStep inst s n l s') :
    (s'.pc n).task = (s.pc n).task ∨ (s'.pc n).task = none := by
  cases h with
  | refresh next hpc | entry _ next _ hpc | complete _ next hpc =>
    rw [hpc, pc_goto]
    cases next <;> exact .inl rfl
  | swap _ next hpc hlast =>
    rw [hpc, pc_goto]
    cases next with
    | draw | get => exact .inl rfl
    | answer response written => exact absurd rfl (hlast response written)
  | lastSwap | noPlayer | noMoon | getRefused | getNothing | got | getThrows | deleteRefused
  | deleteNothing | deleteInvalid | deleteRemove | deleteThrows | limitRefused | limitNothing
  | limitInvalid | limitThrows | writeCreate | writeLimit
  | createOpen | limitOpen =>
    exact .inr (by simp [HandlerPc.task, openWrite])
  | takenPlayer _ _ _ _ hpc | player _ _ _ _ hpc | takenMoon _ _ _ _ _ hpc | moon _ _ _ _ hpc
  | getFile _ hpc | deleteFile _ hpc | limitFile _ _ hpc | limitRead _ _ _ _ hpc =>
    rw [hpc, pc_goto]
    exact .inl rfl

theorem HandlerStep.outcome (h : HandlerStep inst s n l s') {r : ApiResponse}
    (hr : (s.pc n).outcome = some r) : (s'.pc n).outcome = some r := by
  cases h with
  | refresh next hpc | entry _ next _ hpc | complete _ next hpc =>
    rw [hpc] at hr
    rw [pc_goto]
    cases next <;> exact hr
  | swap _ next hpc hlast =>
    rw [hpc] at hr
    cases next with
    | draw | get => cases hr
    | answer response written => exact absurd rfl (hlast response written)
  | lastSwap _ _ _ hpc | writeCreate _ _ _ hpc | writeLimit _ _ _ hpc =>
    rw [hpc] at hr
    rw [pc_goto]
    exact hr
  | noPlayer _ _ _ hpc | takenPlayer _ _ _ _ hpc | player _ _ _ _ hpc | noMoon _ _ _ _ hpc
  | takenMoon _ _ _ _ _ hpc | moon _ _ _ _ hpc | createOpen _ _ _ hpc | getRefused _ hpc
  | getNothing _ hpc | getFile _ hpc | got _ _ _ hpc | getThrows _ hpc | deleteRefused _ hpc
  | deleteNothing _ hpc | deleteInvalid _ hpc | deleteFile _ hpc | deleteRemove _ _ _ hpc
  | deleteThrows _ hpc | limitRefused _ _ hpc | limitNothing _ _ hpc | limitInvalid _ _ hpc
  | limitFile _ _ hpc | limitRead _ _ _ _ hpc | limitThrows _ _ hpc | limitOpen _ _ _ _ hpc =>
    rw [hpc] at hr
    cases hr

/-- Opening a file is a step that reads no entry and draws nothing. -/
theorem HandlerStep.label_of_opening (h : HandlerStep inst s n l s') {id : List UInt8}
    (hid : (s.pc n).opening = some id) : l = .step n := by
  cases h with
  | entry _ _ _ hpc | noPlayer _ _ _ hpc | takenPlayer _ _ _ _ hpc | player _ _ _ _ hpc
  | noMoon _ _ _ _ hpc | takenMoon _ _ _ _ _ hpc | moon _ _ _ _ hpc =>
    rw [hpc] at hid
    cases hid
  | _ => rfl

/-! ### Tasks -/

/-- Every handler performs the task of its request. -/
structure Dispatched (inst : Installation D) (s : ApiSystem D) : Prop where
  absent : ∀ n, s.begun ≤ n → s.pc n = .absent
  task : ∀ n t, (s.pc n).task = some t → ApiServer.task inst (s.handlers n).request = some t

theorem Dispatched.init (start : ApiServer D) : Dispatched inst (.init start) :=
  ⟨fun _ _ => rfl, fun _ _ h => by cases h⟩

theorem Dispatched.next (hd : Dispatched inst s) (h : s.next inst l = some s') :
    Dispatched inst s' := by
  obtain ⟨request, -, rfl⟩ | ⟨n, hst⟩ := handlerStep_of_next h
  · refine ⟨fun m hm => ?_, fun m t ht => ?_⟩
    · rw [ApiSystem.pc, handlers_arrive_of_ne request (Nat.ne_of_gt hm)]
      exact hd.absent m (Nat.le_of_succ_le hm)
    · by_cases hm : m = s.begun
      · subst hm
        rw [ApiSystem.pc, handlers_arrive, task_start] at ht
        rw [handlers_arrive]
        exact ht
      · rw [ApiSystem.pc, handlers_arrive_of_ne request hm] at ht
        rw [handlers_arrive_of_ne request hm]
        exact hd.task m t ht
  · obtain ⟨hother, hrequest, hbegun, habsent, -⟩ := hst.frame
    refine ⟨fun m hm => ?_, fun m t ht => ?_⟩
    · have hold := hd.absent m (hbegun ▸ hm)
      rwa [hst.pc_of_ne fun he => habsent (he ▸ hold)]
    · rw [hrequest]
      by_cases hm : m = n
      · subst hm
        rcases hst.task with htask | htask
        · exact hd.task m t (htask ▸ ht)
        · rw [htask] at ht
          cases ht
      · exact hd.task m t (hst.pc_of_ne hm ▸ ht)

/-! ### Writers -/

/-- A file that was emptied has one handler that writes it. -/
structure OneWriter (s : ApiSystem D) : Prop where
  fd_lt : ∀ n fd c, (s.pc n).writing = some (fd, c) → fd.inode < s.files.nextInode
  emptied : ∀ n l c, s.Writes n l c → s.files.contents l = some []
  unique : ∀ n m l c c', s.Writes n l c → s.Writes m l c' → n = m

theorem OneWriter.init (start : ApiServer D) : (ApiSystem.init start).OneWriter where
  fd_lt _ _ _ h := by cases h
  emptied _ _ _ h := by obtain ⟨_, h, -⟩ := h; cases h
  unique _ _ _ _ _ h := by obtain ⟨_, h, -⟩ := h; cases h

/-- No handler has emptied the file of the id and not written it yet. -/
def Settled (inst : Installation D) (s : ApiSystem D) (id : List UInt8) : Prop :=
  ∀ loc, s.keyFile inst id = .entry loc → ¬ s.HalfWritten loc

theorem Settled.not_halfWritten {id : List UInt8} (h : s.Settled inst id) (loc : D × Name)
    (hopens : s.files.opens (s.keyFile inst id) = some loc) : ¬ s.HalfWritten loc :=
  h loc (FileSystem.opens_eq_some.1 hopens).1

/-- No handler has emptied the file that a handler is about to open. -/
def FreeToOpen (inst : Installation D) (s : ApiSystem D) (n : ℕ) : Prop :=
  ∀ id, (s.pc n).opening = some id → s.Settled inst id

section

variable {loc : D × Name} {c c' content : List UInt8} {t : Target D} {next : AfterWrite}

theorem Writes.content_eq (h : s.Writes n loc c) (h' : s.Writes n loc c') : c = c' := by
  obtain ⟨fd, hw, -, -⟩ := h
  obtain ⟨fd', hw', -, -⟩ := h'
  exact (Prod.mk.inj (Option.some.inj (hw.symm.trans hw'))).2

theorem not_writes (h : (s.pc n).writing = none) : ¬ s.Writes n loc c := by
  rintro ⟨fd, hw, -, -⟩
  rw [h] at hw
  cases hw

/-- What a file holds is one text. -/
theorem OneWriter.holds_unique (h : s.OneWriter) (hc : s.Holds loc c) (hc' : s.Holds loc c') :
    c = c' := by
  rcases hc with ⟨hnot, hc⟩ | ⟨n, hn⟩ <;> rcases hc' with ⟨hnot', hc'⟩ | ⟨m, hm⟩
  · exact Option.some.inj (hc.symm.trans hc')
  · exact absurd ⟨m, c', hm⟩ hnot
  · exact absurd ⟨n, c, hn⟩ hnot'
  · obtain rfl := h.unique n m loc c c' hn hm
    exact hn.content_eq hm

theorem OneWriter.exists_holds (h : s.OneWriter) :
    (∃ c, s.Holds loc c) ↔ ∃ c, s.files.contents loc = some c := by
  constructor
  · rintro ⟨c, ⟨-, hc⟩ | ⟨n, hn⟩⟩
    · exact ⟨c, hc⟩
    · exact ⟨[], h.emptied n loc c hn⟩
  · rintro ⟨c, hc⟩
    by_cases hhalf : s.HalfWritten loc
    · obtain ⟨n, content, hn⟩ := hhalf
      exact ⟨content, .inr ⟨n, hn⟩⟩
    · exact ⟨c, .inl ⟨hhalf, hc⟩⟩

theorem holds_iff_of_not_halfWritten (h : ¬ s.HalfWritten loc) :
    s.Holds loc c ↔ s.files.contents loc = some c := by
  constructor
  · rintro (⟨-, hc⟩ | ⟨n, hn⟩)
    · exact hc
    · exact absurd ⟨n, c, hn⟩ h
  · exact fun hc => .inl ⟨h, hc⟩

/-! ### What a step does to the writers and the files -/

/-- A file with the same contents and the same writers. -/
theorem holds_congr (hfiles : s'.files.contents loc = s.files.contents loc)
    (hwrites : ∀ m c, s'.Writes m loc c ↔ s.Writes m loc c) :
    s'.Holds loc c ↔ s.Holds loc c := by
  simp only [Holds, HalfWritten, hfiles, hwrites]

theorem writes_of_ne (hother : ∀ m, m ≠ n → s'.pc m = s.pc m)
    (hinode : s'.files.inode loc = s.files.inode loc) (hm : m ≠ n) :
    s'.Writes m loc c ↔ s.Writes m loc c := by
  rw [Writes, Writes, hother m hm, hinode]

section Quiet

variable (hother : ∀ m, m ≠ n → s'.pc m = s.pc m) (hw : (s.pc n).writing = none)
  (hw' : (s'.pc n).writing = none)

include hother hw hw'

theorem writes_quiet (hinode : s'.files.inode loc = s.files.inode loc) (m : ℕ) (c : List UInt8) :
    s'.Writes m loc c ↔ s.Writes m loc c := by
  by_cases hm : m = n
  · subst hm
    exact iff_of_false (not_writes hw') (not_writes hw)
  · exact writes_of_ne hother hinode hm

theorem holds_quiet (hfiles : s'.files = s.files) : s'.Holds loc c ↔ s.Holds loc c :=
  holds_congr (by rw [hfiles]) (writes_quiet hother hw hw' (by rw [hfiles]))

theorem OneWriter.quiet (h : s.OneWriter) (hfiles : s'.files = s.files) : s'.OneWriter := by
  have hwrites : ∀ m loc c, s'.Writes m loc c ↔ s.Writes m loc c := fun m loc =>
    writes_quiet hother hw hw' (by rw [hfiles]) m
  refine ⟨fun m fd c hm => ?_, fun m loc c hm => ?_, fun m m' loc c c' hm hm' => ?_⟩
  · rw [hfiles]
    by_cases hmn : m = n
    · subst hmn
      rw [hw'] at hm
      cases hm
    · exact h.fd_lt m fd c (hother m hmn ▸ hm)
  · rw [hfiles]
    exact h.emptied m loc c ((hwrites m loc c).1 hm)
  · exact h.unique m m' loc c c' ((hwrites m loc c).1 hm) ((hwrites m' loc c').1 hm')

theorem writes_remove {b : Bool} (hremove : s.files.remove t = some (b, s'.files)) :
    s'.Writes m loc c ↔ s.files.opens t ≠ some loc ∧ s.Writes m loc c := by
  have hinode := FileSystem.inode_remove hremove loc
  by_cases ht : s.files.opens t = some loc
  · rw [if_pos ht] at hinode
    refine iff_of_false ?_ (fun h => h.1 ht)
    rintro ⟨fd, -, -, hi⟩
    rw [hinode] at hi
    cases hi
  · rw [if_neg ht] at hinode
    rw [writes_quiet hother hw hw' hinode m c]
    exact (and_iff_right ht).symm

theorem holds_remove {b : Bool} (hremove : s.files.remove t = some (b, s'.files)) :
    s'.Holds loc c ↔ s.files.opens t ≠ some loc ∧ s.Holds loc c := by
  have hcontents := FileSystem.contents_remove hremove loc
  by_cases ht : s.files.opens t = some loc
  · rw [if_pos ht] at hcontents
    refine iff_of_false ?_ (fun h => h.1 ht)
    rintro (⟨-, hc⟩ | ⟨m, hm⟩)
    · rw [hcontents] at hc
      cases hc
    · exact ((writes_remove hother hw hw' hremove).1 hm).1 ht
  · rw [if_neg ht] at hcontents
    rw [holds_congr hcontents fun m c => (writes_remove hother hw hw' hremove).trans
      (and_iff_right ht)]
    exact (and_iff_right ht).symm

theorem OneWriter.remove (h : s.OneWriter) {b : Bool}
    (hremove : s.files.remove t = some (b, s'.files)) : s'.OneWriter := by
  have hnext := FileSystem.nextInode_remove hremove
  have hwrites : ∀ {m loc c}, s'.Writes m loc c → s.files.opens t ≠ some loc ∧ s.Writes m loc c :=
    (writes_remove hother hw hw' hremove).1
  refine ⟨fun m fd c hm => ?_, fun m loc c hm => ?_, fun m m' loc c c' hm hm' => ?_⟩
  · rw [hnext]
    by_cases hmn : m = n
    · subst hmn
      rw [hw'] at hm
      cases hm
    · exact h.fd_lt m fd c (hother m hmn ▸ hm)
  · rw [FileSystem.contents_remove hremove, if_neg (hwrites hm).1]
    exact h.emptied m loc c (hwrites hm).2
  · exact h.unique m m' loc c c' (hwrites hm).2 (hwrites hm').2

end Quiet

section Open

theorem writes_openWrite (h : s.OneWriter) (hw : (s.pc n).writing = none)
    (hfree : ∀ loc, s.files.opens t = some loc → ¬ s.HalfWritten loc) :
    (s.openWrite n t content next).Writes m loc c ↔
      s.files.opens t = some loc ∧ m = n ∧ c = content ∨
        s.files.opens t ≠ some loc ∧ s.Writes m loc c := by
  have hpc : (s.openWrite n t content next).pc n =
      .write (s.files.openTruncate t).2 content next := pc_goto _
  have hother : ∀ m, m ≠ n → (s.openWrite n t content next).pc m = s.pc m := fun m hm =>
    congrArg Handler.pc (handlers_goto _ hm)
  have hfiles : (s.openWrite n t content next).files = (s.files.openTruncate t).1 := rfl
  cases hopens : s.files.opens t with
  | none =>
    have hopen := FileSystem.openTruncate_of_not_opens hopens
    rw [hopen] at hpc hfiles
    have hquiet : (s.openWrite n t content next).Writes m loc c ↔ s.Writes m loc c :=
      writes_quiet hother hw (by rw [hpc]; rfl) (by rw [hfiles]) m c
    simpa using hquiet
  | some loc' =>
    obtain ⟨i, hopen, hinode⟩ := FileSystem.openTruncate_of_opens hopens
    rw [hopen] at hpc hfiles
    have hloc : (s.openWrite n t content next).files.inode loc =
        if loc = loc' then some i else s.files.inode loc := by
      rw [hfiles, FileSystem.inode_put _ (FileSystem.opens_eq_some.1 hopens).2.1]
    by_cases hl : loc = loc'
    · subst hl
      rw [if_pos rfl] at hloc
      have hnone : ∀ c, ¬ s.Writes m loc c := fun c hm => hfree loc hopens ⟨m, c, hm⟩
      simp only [true_and, not_true_eq_false, ne_eq, false_and, or_false]
      constructor
      · rintro ⟨fd, hfd, rfl, hi⟩
        by_cases hm : m = n
        · subst hm
          rw [hpc] at hfd
          exact ⟨rfl, (Prod.mk.inj (Option.some.inj hfd)).2.symm⟩
        · -- an old descriptor has the inode of an old file
          rw [hother m hm] at hfd
          obtain rfl := Option.some.inj (hloc.symm.trans hi)
          rcases hinode with hold | ⟨-, hnew⟩
          · exact absurd ⟨fd, hfd, rfl, hold⟩ (hnone c)
          · exact absurd (h.fd_lt m fd c hfd) (by omega)
      · rintro ⟨rfl, rfl⟩
        exact ⟨⟨loc, i⟩, by rw [hpc]; rfl, rfl, hloc⟩
    · rw [if_neg hl] at hloc
      have hne : some loc' ≠ some loc := fun he => hl (Option.some.inj he).symm
      simp only [hne, false_and, ne_eq, not_false_eq_true, true_and, false_or]
      by_cases hm : m = n
      · subst hm
        refine iff_of_false ?_ (not_writes hw)
        rintro ⟨fd, hfd, rfl, -⟩
        rw [hpc] at hfd
        obtain ⟨rfl, -⟩ := Prod.mk.inj (Option.some.inj hfd)
        exact hl rfl
      · exact writes_of_ne hother hloc hm

theorem contents_openWrite : (s.openWrite n t content next).files.contents loc =
    if s.files.opens t = some loc then some [] else s.files.contents loc :=
  FileSystem.contents_openTruncate t loc

theorem holds_openWrite (h : s.OneWriter) (hw : (s.pc n).writing = none)
    (hfree : ∀ loc, s.files.opens t = some loc → ¬ s.HalfWritten loc) :
    (s.openWrite n t content next).Holds loc c ↔
      if s.files.opens t = some loc then c = content else s.Holds loc c := by
  by_cases ht : s.files.opens t = some loc
  · rw [if_pos ht]
    have hwrites : (s.openWrite n t content next).Writes n loc content :=
      (writes_openWrite h hw hfree).2 (.inl ⟨ht, rfl, rfl⟩)
    constructor
    · rintro (⟨hnot, -⟩ | ⟨m, hm⟩)
      · exact absurd ⟨n, content, hwrites⟩ hnot
      · rcases (writes_openWrite h hw hfree).1 hm with ⟨-, -, rfl⟩ | ⟨hne, -⟩
        · rfl
        · exact absurd ht hne
    · rintro rfl
      exact .inr ⟨n, hwrites⟩
  · rw [if_neg ht]
    refine holds_congr (contents_openWrite.trans (if_neg ht)) fun m c => ?_
    rw [writes_openWrite h hw hfree]
    simp only [ht, false_and, ne_eq, not_false_eq_true, true_and, false_or]

theorem OneWriter.openWrite (h : s.OneWriter) (hw : (s.pc n).writing = none)
    (hfree : ∀ loc, s.files.opens t = some loc → ¬ s.HalfWritten loc) :
    (s.openWrite n t content next).OneWriter := by
  have hwrites : ∀ {m loc c}, (s.openWrite n t content next).Writes m loc c →
      s.files.opens t = some loc ∧ m = n ∧ c = content ∨
        s.files.opens t ≠ some loc ∧ s.Writes m loc c :=
    (writes_openWrite h hw hfree).1
  obtain ⟨hgrow, hnew⟩ := s.files.inode_openTruncate_lt t
  refine ⟨fun m fd c hm => ?_, fun m loc c hm => ?_, fun m m' loc c c' hm hm' => ?_⟩
  · by_cases hmn : m = n
    · subst hmn
      rw [show (s.openWrite m t content next).pc m =
        .write (s.files.openTruncate t).2 content next from pc_goto _] at hm
      cases hfd : (s.files.openTruncate t).2 with
      | none =>
        rw [hfd] at hm
        cases hm
      | some fd' =>
        rw [hfd] at hm
        obtain ⟨rfl, -⟩ := Prod.mk.inj (Option.some.inj hm)
        exact hnew fd' hfd
    · rw [show (s.openWrite n t content next).pc m = s.pc m from
        congrArg Handler.pc (handlers_goto _ hmn)] at hm
      exact Nat.lt_of_lt_of_le (h.fd_lt m fd c hm) hgrow
  · rw [contents_openWrite]
    rcases hwrites hm with ⟨ht, -, -⟩ | ⟨ht, hm⟩
    · rw [if_pos ht]
    · rw [if_neg ht]
      exact h.emptied m loc c hm
  · rcases hwrites hm with ⟨ht, rfl, -⟩ | ⟨ht, hm⟩ <;>
      rcases hwrites hm' with ⟨ht', rfl, -⟩ | ⟨ht', hm'⟩
    · rfl
    · exact absurd ht ht'
    · exact absurd ht' ht
    · exact h.unique m m' loc c c' hm hm'

end Open

section Write

variable {fd : Option (Descriptor D)} (hother : ∀ m, m ≠ n → s'.pc m = s.pc m)
  (hpc : s.pc n = .write fd content next) (hw' : (s'.pc n).writing = none)
  (hfiles : s'.files = s.files.write fd content)

section

include hother hw' hfiles

theorem writes_write : s'.Writes m loc c ↔ m ≠ n ∧ s.Writes m loc c := by
  by_cases hm : m = n
  · subst hm
    exact iff_of_false (not_writes hw') fun h => h.1 rfl
  · have hinode : s'.files.inode loc = s.files.inode loc := by rw [hfiles, FileSystem.inode_write]
    rw [writes_of_ne hother hinode hm]
    exact (and_iff_right hm).symm

end

section

include hpc

theorem writes_content_eq (hn : s.Writes n loc c) : c = content := by
  obtain ⟨fd', hfd, -, -⟩ := hn
  rw [hpc] at hfd
  cases fd with
  | none => cases hfd
  | some fd => exact (Prod.mk.inj (Option.some.inj hfd)).2.symm

include hfiles

theorem contents_write_of_writes (h : s.OneWriter) (hn : s.Writes n loc content) :
    s'.files.contents loc = some content := by
  have hempty := h.emptied n loc content hn
  obtain ⟨fd', hfd, rfl, hi⟩ := hn
  rw [hpc] at hfd
  cases fd with
  | none => cases hfd
  | some fd =>
    obtain ⟨rfl, -⟩ := Prod.mk.inj (Option.some.inj hfd)
    rw [hfiles, FileSystem.contents_write, if_pos ⟨rfl, hi⟩, hempty]
    simp

theorem contents_write_of_not_writes (hn : ¬ s.Writes n loc content) :
    s'.files.contents loc = s.files.contents loc := by
  cases fd with
  | none => rw [hfiles]; rfl
  | some fd =>
    rw [hfiles, FileSystem.contents_write]
    refine if_neg ?_
    rintro ⟨rfl, hi⟩
    exact hn ⟨fd, by rw [hpc]; rfl, rfl, hi⟩

end

include hother hpc hw' hfiles

theorem holds_write (h : s.OneWriter) : s'.Holds loc c ↔ s.Holds loc c := by
  by_cases hn : s.Writes n loc content
  · have hcontents := contents_write_of_writes hpc hfiles h hn
    have hnot : ¬ s'.HalfWritten loc := by
      rintro ⟨m, c', hm⟩
      obtain ⟨hmn, hm⟩ := (writes_write hother hw' hfiles).1 hm
      exact hmn (h.unique m n loc c' content hm hn)
    rw [holds_iff_of_not_halfWritten hnot, hcontents, Option.some.injEq]
    constructor
    · rintro rfl
      exact .inr ⟨n, hn⟩
    · exact fun hc => h.holds_unique (.inr ⟨n, hn⟩) hc
  · refine holds_congr (contents_write_of_not_writes hpc hfiles hn) fun m c => ?_
    rw [writes_write hother hw' hfiles]
    refine and_iff_right_of_imp ?_
    rintro hm rfl
    exact hn (writes_content_eq hpc hm ▸ hm)

theorem OneWriter.write (h : s.OneWriter) : s'.OneWriter := by
  have hwrites : ∀ {m loc c}, s'.Writes m loc c → m ≠ n ∧ s.Writes m loc c :=
    (writes_write hother hw' hfiles).1
  refine ⟨fun m fd' c hm => ?_, fun m loc c hm => ?_, fun m m' loc c c' hm hm' => ?_⟩
  · rw [hfiles, FileSystem.nextInode_write]
    by_cases hmn : m = n
    · subst hmn
      rw [hw'] at hm
      cases hm
    · exact h.fd_lt m fd' c (hother m hmn ▸ hm)
  · obtain ⟨hmn, hm⟩ := hwrites hm
    rw [contents_write_of_not_writes hpc hfiles fun hn =>
      hmn (h.unique m n loc c content hm hn)]
    exact h.emptied m loc c hm
  · exact h.unique m m' loc c c' (hwrites hm).2 (hwrites hm').2

end Write

end

/-! ### Every step -/

theorem OneWriter.arrive (h : s.OneWriter) (hd : Dispatched inst s) (request : ApiRequest) :
    (s.arrive inst request).OneWriter := by
  refine OneWriter.quiet (fun m hm => pc_arrive_of_ne request hm) ?_ ?_ h rfl
  · rw [hd.absent _ (Nat.le_refl _)]
    rfl
  · rw [pc_arrive, writing_start]

theorem holds_arrive (hd : Dispatched inst s) (request : ApiRequest) {loc : D × Name}
    {c : List UInt8} : (s.arrive inst request).Holds loc c ↔ s.Holds loc c := by
  refine holds_quiet (fun m hm => pc_arrive_of_ne request hm) ?_ ?_ rfl
  · rw [hd.absent _ (Nat.le_refl _)]
    rfl
  · rw [pc_arrive, writing_start]

/-- The writers stay apart as long as no handler opens a file that another has emptied, and the
files hold what the step opens or removes. -/
theorem HandlerStep.files (hst : HandlerStep inst s n l s') (h : s.OneWriter)
    (hfree : FreeToOpen inst s n) : s'.OneWriter ∧ ∀ loc c, s'.Holds loc c ↔
      (s.pc n).effect.elim (s.Holds loc c) fun (id, content) =>
        if s.files.opens (s.keyFile inst id) = some loc then content = some c
        else s.Holds loc c := by
  have hother : ∀ m, m ≠ n → s'.pc m = s.pc m := fun m hm => hst.pc_of_ne hm
  cases hst with
  | createOpen id limit keys hpc =>
    have hw : (s.pc n).writing = none := by rw [hpc]; rfl
    have hfree := (hfree id (by rw [hpc]; rfl)).not_halfWritten
    refine ⟨h.openWrite hw hfree, fun loc c => ?_⟩
    rw [holds_openWrite h hw hfree, hpc]
    simp only [HandlerPc.effect, Option.elim_some, Option.some.injEq, eq_comm (a := c)]
  | limitOpen id text moonHash playerHash hpc =>
    have hw : (s.pc n).writing = none := by rw [hpc]; rfl
    have hfree := (hfree id.id (by rw [hpc]; rfl)).not_halfWritten
    refine ⟨h.openWrite hw hfree, fun loc c => ?_⟩
    rw [holds_openWrite h hw hfree, hpc]
    simp only [HandlerPc.effect, Option.elim_some, Option.some.injEq, eq_comm (a := c)]
  | deleteRemove id _ files hpc hremove =>
    have hw : (s.pc n).writing = none := by rw [hpc]; rfl
    refine ⟨OneWriter.remove hother hw (by rw [pc_goto]; rfl) h hremove, fun loc c => ?_⟩
    rw [holds_remove hother hw (by rw [pc_goto]; rfl) hremove, hpc]
    simp only [HandlerPc.effect, Option.elim_some]
    split_ifs with ht
    · simp [ht]
    · simp [ht]
  | deleteThrows id hpc hremove =>
    have hw : (s.pc n).writing = none := by rw [hpc]; rfl
    refine ⟨OneWriter.quiet hother hw (by rw [pc_goto]; rfl) h rfl, fun loc c => ?_⟩
    rw [holds_quiet hother hw (by rw [pc_goto]; rfl) rfl, hpc]
    simp [HandlerPc.effect, FileSystem.opens_of_remove_throws hremove]
  | writeCreate _ _ _ hpc | writeLimit _ _ _ hpc =>
    refine ⟨OneWriter.write hother hpc (by rw [pc_goto]; rfl) rfl h, fun loc c => ?_⟩
    rw [holds_write hother hpc (by rw [pc_goto]; rfl) rfl h, hpc]
    rfl
  | swap _ next hpc _ =>
    have hw : (s.pc n).writing = none := by rw [hpc]; rfl
    have hw' : (next.pc : HandlerPc D).writing = none := by cases next <;> rfl
    refine ⟨OneWriter.quiet hother hw (by rw [pc_goto, hw']) h rfl, fun loc c => ?_⟩
    rw [holds_quiet hother hw (by rw [pc_goto, hw']) rfl, hpc]
    rfl
  | refresh _ hpc | entry _ _ _ hpc | complete _ _ hpc | lastSwap _ _ _ hpc
  | noPlayer _ _ _ hpc | takenPlayer _ _ _ _ hpc | player _ _ _ _ hpc | noMoon _ _ _ _ hpc
  | takenMoon _ _ _ _ _ hpc | moon _ _ _ _ hpc | getRefused _ hpc | getNothing _ hpc
  | getFile _ hpc | got _ _ _ hpc | getThrows _ hpc | deleteRefused _ hpc | deleteNothing _ hpc
  | deleteInvalid _ hpc | deleteFile _ hpc | limitRefused _ _ hpc | limitNothing _ _ hpc
  | limitInvalid _ _ hpc | limitFile _ _ hpc | limitRead _ _ _ _ hpc | limitThrows _ _ hpc =>
    have hw : (s.pc n).writing = none := by rw [hpc]; rfl
    refine ⟨OneWriter.quiet hother hw (by rw [pc_goto]; rfl) h rfl, fun loc c => ?_⟩
    rw [holds_quiet hother hw (by rw [pc_goto]; rfl) rfl, hpc]
    rfl

theorem HandlerStep.inode (hst : HandlerStep inst s n l s') {loc : D × Name} {i : ℕ}
    (hkeep : ∀ id, s.pc n = .deleteRemove id → s.keyFile inst id.id ≠ .entry loc)
    (hi : s.files.inode loc = some i) : s'.files.inode loc = some i := by
  cases hst with
  | createOpen | limitOpen => exact FileSystem.inode_openTruncate hi _
  | deleteRemove id _ files hpc hremove =>
    change files.inode loc = some i
    rw [FileSystem.inode_remove hremove, if_neg fun hopens =>
      hkeep id hpc (FileSystem.opens_eq_some.1 hopens).1]
    exact hi
  | writeCreate | writeLimit =>
    change (s.files.write _ _).inode loc = some i
    rwa [FileSystem.inode_write]
  | _ => exact hi

/-- Only `/delete` changes the directories, when it removes an empty one. -/
theorem HandlerStep.sameDirectories (hst : HandlerStep inst s n l s')
    (hkeep : ∀ id, s.pc n ≠ .deleteRemove id) :
    FileSystem.SameDirectories s.files s'.files := by
  cases hst with
  | createOpen | limitOpen => exact FileSystem.sameDirectories_openTruncate _
  | deleteRemove id _ _ hpc => exact absurd hpc (hkeep id)
  | writeCreate | writeLimit => exact FileSystem.sameDirectories_write _ _
  | _ => exact ⟨rfl, rfl⟩

end ApiSystem

end MoonJamRelay
