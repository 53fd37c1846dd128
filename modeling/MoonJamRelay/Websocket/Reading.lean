import MoonJamRelay.Websocket.Streaming

/-!
# Reading a connection

The bytes that a connection receives come in reads of any sizes. `readAll` runs the loop of
`handle_read_frame` over all of them.

* `readAll_spec` : the messages are those of the legal frames that the bytes begin with.
* `frames_read` : legal frames are received, whatever the reads; `reads_independent` : the reads
  do not matter, not even when the bytes are refused.
-/

namespace MoonJamRelay

namespace Websocket

variable {cfg : Config} {pending : Option Message} {part buf rest bytes : List UInt8}
  {p p' : Processor} {f : Frame} {fs gs : List Frame} {err : ProcessorError}

/-! ### Sequences of frames -/

/-- The bytes of some frames. -/
def encodes (fs : List Frame) : List UInt8 := fs.flatMap Frame.encode

@[simp] theorem encodes_nil : encodes [] = [] := rfl

@[simp] theorem encodes_cons : encodes (f :: fs) = f.encode ++ encodes fs := rfl

@[simp] theorem encodes_append : encodes (fs ++ gs) = encodes fs ++ encodes gs :=
  List.flatMap_append

theorem received_append : received pending (fs ++ gs) =
    ((received (received pending fs).1 gs).1,
      (received pending fs).2 ++ (received (received pending fs).1 gs).2) := by
  induction fs generalizing pending with
  | nil => rfl
  | cons f fs ih => simp [received, ih]

theorem legalFrames_append : LegalFrames cfg pending (fs ++ gs) ↔
    LegalFrames cfg pending fs ∧ LegalFrames cfg (received pending fs).1 gs := by
  induction fs generalizing pending with
  | nil => simp [LegalFrames, received]
  | cons f fs ih => simp [LegalFrames, received, ih, and_assoc]

/-- The bytes divide into legal frames and what has been read of the next one. -/
structure Divides (cfg : Config) (pending : Option Message) (bytes : List UInt8) (fs : List Frame)
    (part : List UInt8) : Prop where
  bytes : bytes = encodes fs ++ part
  legal : LegalFrames cfg pending fs

theorem Divides.trans (h : Divides cfg pending bytes fs part)
    (h' : Divides cfg (received pending fs).1 part gs rest) :
    Divides cfg pending bytes (fs ++ gs) rest where
  bytes := by rw [h.bytes, h'.bytes, encodes_append, List.append_assoc]
  legal := legalFrames_append.2 ⟨h.legal, h'.legal⟩

theorem Divides.frame (hparse : parseFrame cfg pending part = .frame f []) (rest : List UInt8) :
    Divides cfg pending (part ++ rest) [f] rest := by
  obtain ⟨hlegal, hbytes⟩ := parseFrame_eq_frame hparse
  exact ⟨by rw [hbytes]; simp, hlegal, trivial⟩

theorem Divides.parse (h : Divides cfg pending bytes (f :: fs) part) :
    parseFrame cfg pending bytes = .frame f (encodes fs ++ part) ∧
      Divides cfg (f.after pending).1 (encodes fs ++ part) fs part := by
  refine ⟨?_, rfl, h.legal.2⟩
  rw [h.bytes, encodes_cons, List.append_assoc]
  exact parseFrame_encode h.legal.1 _

/-- Bytes divide in one way, if what is left is not again a frame. -/
theorem Divides.unique {part' : List UInt8} (h : Divides cfg pending bytes fs part)
    (h' : Divides cfg pending bytes gs part')
    (hpart : ∀ f rest, parseFrame cfg (received pending fs).1 part ≠ .frame f rest)
    (hpart' : ∀ f rest, parseFrame cfg (received pending gs).1 part' ≠ .frame f rest) :
    fs = gs ∧ part = part' := by
  induction fs generalizing pending bytes gs with
  | nil =>
    have hbytes : bytes = part := h.bytes
    cases gs with
    | nil => exact ⟨rfl, hbytes.symm.trans h'.bytes⟩
    | cons g gs => exact absurd (hbytes ▸ h'.parse.1) (hpart _ _)
  | cons f fs ih =>
    obtain ⟨hparse, hrest⟩ := h.parse
    cases gs with
    | nil =>
      have hbytes : bytes = part' := h'.bytes
      exact absurd (hbytes ▸ hparse) (hpart' _ _)
    | cons g gs =>
      obtain ⟨hparse', hrest'⟩ := h'.parse
      obtain ⟨rfl, heq⟩ := Parsed.frame.inj (hparse.symm.trans hparse')
      rw [← heq] at hrest'
      obtain ⟨rfl, rfl⟩ := ih hrest hrest' hpart hpart'
      exact ⟨rfl, rfl⟩

/-! ### The loop of `consume` -/

/-- What was read when the processor refused it. -/
def Refuses (cfg : Config) (pending : Option Message) (bytes : List UInt8) (msgs : List Message)
    (err : ProcessorError) : Prop :=
  ∃ fs part, Divides cfg pending bytes fs part ∧ (received pending fs).2 = msgs ∧
    parseFrame cfg (received pending fs).1 part = .error err

theorem Refuses.trans {msgs : List Message} (h : Divides cfg pending bytes fs part)
    (h' : Refuses cfg (received pending fs).1 part msgs err) :
    Refuses cfg pending bytes ((received pending fs).2 ++ msgs) err := by
  obtain ⟨gs, part', hdiv, rfl, herr⟩ := h'
  exact ⟨fs ++ gs, part', h.trans hdiv, by rw [received_append], by rwa [received_append]⟩

/-- The loop of `consume` reads frames that complete no message, and stops in a frame, at the end
of one that does, or where the bytes are refused. -/
theorem Represents.consume (hrep : Represents cfg pending part p) (buf : List UInt8) :
    match p.consume cfg buf with
    | .error err => Refuses cfg pending (part ++ buf) [] err
    | .ok (p', rest) => ∃ fs part', Divides cfg pending (part ++ buf) fs (part' ++ rest) ∧
        (received pending fs).2 = [] ∧ Represents cfg (received pending fs).1 part' p' := by
  induction p, buf using Processor.consume.induct cfg generalizing pending part with
  | case1 p buf hr e hturn =>
    have hspec := hrep.turn hr
    rw [hturn] at hspec
    rw [Processor.consume_of_reads hr, hturn]
    exact ⟨[], part ++ buf, ⟨rfl, trivial⟩, rfl, hspec⟩
  | case2 p buf hr p₁ rest₁ hturn ih =>
    have hspec := hrep.turn hr
    rw [hturn] at hspec
    obtain ⟨taken, rfl, hrep₁ | ⟨f, hparse, hnone, hrep₁⟩⟩ := hspec
    · rw [Processor.consume_of_reads hr, hturn, ← List.append_assoc]
      exact ih hrep₁
    · have hih := ih hrep₁
      rw [Processor.consume_of_reads hr, hturn, ← List.append_assoc]
      simp only
      have hdiv := Divides.frame hparse rest₁
      cases hconsume : p₁.consume cfg rest₁ with
      | error e =>
        rw [hconsume] at hih
        have hrefuses := Refuses.trans hdiv hih
        rwa [received, received, hnone] at hrefuses
      | ok result =>
        rw [hconsume] at hih
        obtain ⟨fs, part', hdiv', hmsgs, hrep'⟩ := hih
        exact ⟨[f] ++ fs, part', hdiv.trans hdiv', by simp [received, hnone, hmsgs], hrep'⟩
  | case3 p buf hr =>
    rw [Processor.consume_of_not hr]
    exact ⟨[], part, ⟨rfl, trivial⟩, rfl, hrep⟩

/-! ### The messages of one read -/

/-- The message that is ready is the one that the last frame completes. -/
theorem Represents.getMessage (hrep : Represents cfg pending part p) (hready : p.ready = true) :
    ∃ f, parseFrame cfg pending part = .frame f [] ∧
      (f.after pending).2 = p.getMessage.1.toList ∧
      Represents cfg (f.after pending).1 [] p.getMessage.2 := by
  have hstate : p.state = .ready := by simpa [Processor.ready] using hready
  cases hrep with
  | start state => rw [state] at hstate; cases hstate
  | first state => rw [state] at hstate; cases hstate
  | header state => rw [state] at hstate; cases hstate
  | payload state => rw [state] at hstate; cases hstate
  | @message p part f _ frame fin opcode payload =>
    refine ⟨f, frame, ?_⟩
    by_cases hop : p.basicHeader.opcode.isControl = true
    · obtain ⟨hcurrent, hmsg, hdata⟩ := payload.control hop
      rw [← Processor.currentMsg_control hcurrent] at hmsg
      obtain ⟨hget, hs, hn, he, hkeep, -⟩ := Processor.getMessage_spec hready hmsg
      rw [Frame.after, if_pos (opcode ▸ hop), hget, ← opcode]
      exact ⟨rfl, .start hs hn he (hkeep hcurrent hop ▸ hdata)⟩
    · obtain ⟨hcurrent, hdata⟩ := payload.data (by simpa using hop)
      have hmsg := hdata.msg
      rw [← Processor.currentMsg_data hcurrent] at hmsg
      obtain ⟨hget, hs, hn, he, -, hnone⟩ := Processor.getMessage_spec hready hmsg
      rw [Frame.after, if_neg (opcode ▸ hop), if_pos fin, hget, ← opcode]
      refine ⟨rfl, .start hs hn he ⟨hnone ?_, fun _ h => (by cases h), fun _ h => (by cases h)⟩⟩
      simpa using hdata.data _ rfl

/-- Between two reads. -/
def Processor.Quiet (p : Processor) : Prop := p.state ≠ .ready ∧ p.bytesNeeded ≠ 0

/-- What reads come to: the messages of the frames that the bytes divide into, and a processor that
has read the rest, or an error. -/
def ReadSpec (cfg : Config) (pending : Option Message) (bytes : List UInt8) :
    List Message × Except ProcessorError Processor → Prop
  | (msgs, .error err) => Refuses cfg pending bytes msgs err
  | (msgs, .ok p') => ∃ fs part', Divides cfg pending bytes fs part' ∧
      (received pending fs).2 = msgs ∧ Represents cfg (received pending fs).1 part' p' ∧ p'.Quiet

theorem ReadSpec.trans {msgs : List Message} {result : Except ProcessorError Processor}
    (h : Divides cfg pending bytes fs part)
    (h' : ReadSpec cfg (received pending fs).1 part (msgs, result)) :
    ReadSpec cfg pending bytes ((received pending fs).2 ++ msgs, result) := by
  cases result with
  | error err => exact Refuses.trans h h'
  | ok p' =>
    obtain ⟨gs, part', hdiv, rfl, hrep, hquiet⟩ := h'
    exact ⟨fs ++ gs, part', h.trans hdiv, by rw [received_append],
      by rwa [received_append], hquiet⟩

theorem Represents.quiet (hrep : Represents cfg pending [] p) : p.Quiet := by
  cases hrep with
  | start state needed => exact ⟨by rw [state]; decide, by rw [needed]; decide⟩
  | message _ frame => exact nomatch frame

theorem Represents.readMessages (hrep : Represents cfg pending part p) (hquiet : p.Quiet)
    (buf : List UInt8) : ReadSpec cfg pending (part ++ buf) (p.readMessages cfg buf) := by
  induction p, buf using Processor.readMessages.induct cfg generalizing pending part with
  | case1 p =>
    rw [Processor.readMessages_nil, List.append_nil]
    exact ⟨[], part, ⟨rfl, trivial⟩, rfl, hrep, hquiet⟩
  | case2 p buf hbuf e hconsume =>
    have hspec := hrep.consume buf
    rw [hconsume] at hspec
    rw [Processor.readMessages_of_ne hbuf, hconsume]
    exact hspec
  | case3 p buf hbuf p₁ rest hconsume hready ih =>
    have hspec := hrep.consume buf
    rw [hconsume] at hspec
    obtain ⟨fs, part', hdiv, hmsgs, hrep₁⟩ := hspec
    obtain ⟨f, hparse, hafter, hrep₂⟩ := hrep₁.getMessage hready
    have hgot : received pending (fs ++ [f]) =
        ((f.after (received pending fs).1).1, p₁.getMessage.1.toList) := by
      rw [received_append, hmsgs, received, received, hafter]
      simp
    have hih := ih hrep₂ hrep₂.quiet
    rw [← congrArg Prod.fst hgot, List.nil_append] at hih
    have hnext := ReadSpec.trans (hdiv.trans (Divides.frame hparse rest)) hih
    rw [Processor.readMessages_of_ne hbuf, hconsume]
    simp only [hready, if_true]
    rwa [hgot] at hnext
  | case4 p buf hbuf p₁ rest hconsume hready ih =>
    have hspec := hrep.consume buf
    rw [hconsume] at hspec
    obtain ⟨fs, part', hdiv, hmsgs, hrep₁⟩ := hspec
    have hnot := Processor.not_reads_of_consume hconsume
    have hstate : p₁.state ≠ .ready := by simpa [Processor.ready] using hready
    have hrest : rest = [] ∧ p₁.bytesNeeded ≠ 0 := by
      by_contra hrest
      exact hnot ⟨hstate, by tauto⟩
    obtain ⟨rfl, hneeded⟩ := hrest
    rw [List.append_nil] at hdiv
    rw [Processor.readMessages_of_ne hbuf, hconsume]
    simp only [hready]
    rw [if_neg (by decide), Processor.readMessages_nil]
    exact ⟨fs, part', hdiv, hmsgs, hrep₁, hstate, hneeded⟩

/-! ### All reads -/

/-- The reads of a connection, one after the other; nothing is read after an error. -/
def readAll (cfg : Config) (p : Processor) :
    List (List UInt8) → List Message × Except ProcessorError Processor
  | [] => ([], .ok p)
  | buf :: bufs =>
    match p.readMessages cfg buf with
    | (msgs, .error e) => (msgs, .error e)
    | (msgs, .ok p') => (msgs ++ (readAll cfg p' bufs).1, (readAll cfg p' bufs).2)

theorem Refuses.append {msgs : List Message} (h : Refuses cfg pending bytes msgs err)
    (tail : List UInt8) : Refuses cfg pending (bytes ++ tail) msgs err := by
  obtain ⟨fs, part, hdiv, hmsgs, herr⟩ := h
  refine ⟨fs, part ++ tail, ⟨by rw [hdiv.bytes, List.append_assoc], hdiv.legal⟩, hmsgs, ?_⟩
  rw [parseFrame_append tail (by rw [herr]; exact nofun), herr]
  rfl

theorem Represents.readAll (hrep : Represents cfg pending part p) (hquiet : p.Quiet)
    (bufs : List (List UInt8)) :
    ReadSpec cfg pending (part ++ bufs.flatten) (Websocket.readAll cfg p bufs) := by
  induction bufs generalizing pending part p with
  | nil =>
    rw [List.flatten_nil, List.append_nil]
    exact ⟨[], part, ⟨rfl, trivial⟩, rfl, hrep, hquiet⟩
  | cons buf bufs ih =>
    have hspec := hrep.readMessages hquiet buf
    rw [Websocket.readAll, List.flatten_cons, ← List.append_assoc]
    rcases hread : p.readMessages cfg buf with ⟨msgs, e | p'⟩
    · rw [hread] at hspec
      exact Refuses.append hspec _
    · rw [hread] at hspec
      obtain ⟨fs, part', hdiv, rfl, hrep', hquiet'⟩ := hspec
      have hdiv' : Divides cfg pending (part ++ buf ++ bufs.flatten) fs (part' ++ bufs.flatten) :=
        ⟨by rw [hdiv.bytes, List.append_assoc], hdiv.legal⟩
      exact ReadSpec.trans hdiv' (ih hrep' hquiet')

theorem represents_new : Represents cfg none [] Processor.new :=
  .start rfl rfl rfl ⟨rfl, nofun, nofun⟩

theorem readAll_spec (cfg : Config) (bufs : List (List UInt8)) :
    ReadSpec cfg none bufs.flatten (readAll cfg .new bufs) := by
  have hrep : Represents cfg none [] .new := represents_new
  exact hrep.readAll hrep.quiet bufs

/-- What was read, and what reading more of a frame came to. -/
theorem readAll_divides (cfg : Config) (bufs : List (List UInt8)) :
    ∃ fs part, Divides cfg none bufs.flatten fs part ∧
      (readAll cfg .new bufs).1 = (received none fs).2 ∧
      match (readAll cfg .new bufs).2 with
      | .error err => parseFrame cfg (received none fs).1 part = .error err
      | .ok _ => parseFrame cfg (received none fs).1 part = .more := by
  have hspec := readAll_spec cfg bufs
  rcases hread : readAll cfg .new bufs with ⟨msgs, err | p'⟩
  · rw [hread] at hspec
    obtain ⟨fs, part, hdiv, rfl, herr⟩ := hspec
    exact ⟨fs, part, hdiv, rfl, herr⟩
  · rw [hread] at hspec
    obtain ⟨fs, part, hdiv, rfl, hrep, hquiet⟩ := hspec
    exact ⟨fs, part, hdiv, rfl, hrep.more hquiet.1 hquiet.2⟩

/-- Bytes that legal frames begin with divide into the first ones of them. -/
theorem Divides.begins (h : Divides cfg pending bytes fs part)
    (hlegal : LegalFrames cfg pending gs) (hbytes : bytes <+: encodes gs) :
    ∃ hs, gs = fs ++ hs ∧ LegalFrames cfg (received pending fs).1 hs ∧ part <+: encodes hs := by
  induction fs generalizing pending bytes gs with
  | nil =>
    have hpart : bytes = part := h.bytes
    exact ⟨gs, rfl, hlegal, hpart ▸ hbytes⟩
  | cons f fs ih =>
    obtain ⟨hparse, hrest⟩ := h.parse
    obtain ⟨tail, htail⟩ := hbytes
    have hmore := parseFrame_append tail (by rw [hparse]; exact nofun)
    rw [hparse, htail] at hmore
    cases gs with
    | nil => exact nomatch hmore
    | cons g gs =>
      rw [encodes_cons, parseFrame_encode hlegal.1] at hmore
      obtain ⟨rfl, hgs⟩ := Parsed.frame.inj hmore
      obtain ⟨hs, rfl, hhs, hpart⟩ := ih hrest hlegal.2 ⟨tail, hgs.symm⟩
      exact ⟨hs, rfl, hhs, hpart⟩

/-- What legal frames begin with is not refused. -/
theorem not_error_of_begin (hlegal : LegalFrames cfg pending gs) (hpart : part <+: encodes gs) :
    parseFrame cfg pending part ≠ .error err := by
  intro herr
  obtain ⟨tail, htail⟩ := hpart
  have hmore := parseFrame_append tail (by rw [herr]; exact nofun)
  rw [herr, htail] at hmore
  cases gs with
  | nil => exact nomatch hmore
  | cons g gs =>
    rw [encodes_cons, parseFrame_encode hlegal.1] at hmore
    exact nomatch hmore

theorem Divides.legal_of_more (h : Divides cfg pending (encodes gs) fs part)
    (hmore : parseFrame cfg (received pending fs).1 part = .more)
    (hlt : ∀ g ∈ gs, g.payload.length < 2 ^ 64) : LegalFrames cfg pending gs := by
  induction gs generalizing pending fs with
  | nil => trivial
  | cons g gs ih =>
    have hcases : parseFrame cfg pending (encodes (g :: gs)) = .frame g (encodes gs) ∨
        ∃ err, parseFrame cfg pending (encodes (g :: gs)) = .error err :=
      parseFrame_encode_cases g (hlt g List.mem_cons_self) (encodes gs)
    cases fs with
    | nil =>
      rw [h.bytes, encodes_nil, List.nil_append] at hcases
      rcases hcases with hg | ⟨err, herr⟩
      · exact nomatch hmore.symm.trans hg
      · exact nomatch hmore.symm.trans herr
    | cons f fs =>
      obtain ⟨hparse, hrest⟩ := h.parse
      rcases hcases with hg | ⟨err, herr⟩
      · obtain ⟨rfl, hbytes⟩ := Parsed.frame.inj (hparse.symm.trans hg)
        rw [hbytes] at hrest
        exact ⟨(parseFrame_eq_frame hg).1,
          ih hrest hmore fun g' hg' => hlt g' (List.mem_cons_of_mem f hg')⟩
      · exact nomatch hparse.symm.trans herr

/-- The bytes of frames, in whatever reads, are accepted if and only if the frames are legal, and
then the messages are theirs. -/
theorem readAll_encodes {bufs : List (List UInt8)} (hbytes : bufs.flatten = encodes gs)
    (hlt : ∀ g ∈ gs, g.payload.length < 2 ^ 64) :
    ((∃ p, (readAll cfg .new bufs).2 = .ok p) ↔ LegalFrames cfg none gs) ∧
      (LegalFrames cfg none gs → (readAll cfg .new bufs).1 = (received none gs).2) := by
  obtain ⟨fs, part, hdiv, hmsgs, hend⟩ := readAll_divides cfg bufs
  rw [hbytes] at hdiv
  have hlegal : LegalFrames cfg none gs → fs = gs ∧ part = [] := by
    intro hgs
    obtain ⟨hs, rfl, hhs, hpart⟩ := hdiv.begins hgs (List.prefix_refl _)
    have hall : part = encodes hs := by
      have hsame := hdiv.bytes
      rw [encodes_append] at hsame
      exact (List.append_cancel_left hsame).symm
    cases hs with
    | nil => exact ⟨(List.append_nil fs).symm, hall⟩
    | cons g hs =>
      rw [hall, encodes_cons, parseFrame_encode hhs.1] at hend
      split at hend <;> exact nomatch hend
  refine ⟨⟨?_, fun hgs => ?_⟩, fun hgs => ?_⟩
  · rintro ⟨p, hp⟩
    rw [hp] at hend
    exact hdiv.legal_of_more hend hlt
  · obtain ⟨rfl, rfl⟩ := hlegal hgs
    cases hresult : (readAll cfg .new bufs).2 with
    | error err =>
      rw [hresult] at hend
      exact nomatch hend
    | ok p => exact ⟨p, rfl⟩
  · rw [hmsgs, (hlegal hgs).1]

/-- What legal frames begin with is read without an error: the messages of the first ones. -/
theorem readAll_of_begin {bufs : List (List UInt8)} (hlegal : LegalFrames cfg none gs)
    (hbytes : bufs.flatten <+: encodes gs) :
    ∃ fs p, fs <+: gs ∧ readAll cfg .new bufs = ((received none fs).2, .ok p) := by
  obtain ⟨fs, part, hdiv, hmsgs, hend⟩ := readAll_divides cfg bufs
  obtain ⟨hs, rfl, hhs, hpart⟩ := hdiv.begins hlegal hbytes
  cases hresult : (readAll cfg .new bufs).2 with
  | error err =>
    rw [hresult] at hend
    exact absurd hend (not_error_of_begin hhs hpart)
  | ok p => exact ⟨fs, p, List.prefix_append fs hs, Prod.ext hmsgs hresult⟩

/-- **Reading**: in whatever reads the bytes come, the messages are those of legal frames, as many
as the bytes hold one after the other, and bytes are refused only if no legal frame goes on with
them. Bytes that legal frames begin with are not refused, and no other frames are found in them. -/
theorem frames_read (cfg : Config) (bufs : List (List UInt8)) :
    ∃ fs part, bufs.flatten = encodes fs ++ part ∧ LegalFrames cfg none fs ∧
      (readAll cfg .new bufs).1 = (received none fs).2 ∧
      (∀ f : Frame, f.Legal cfg (received none fs).1 → ¬ f.encode <+: part ∧
        ∀ err, (readAll cfg .new bufs).2 = .error err → ¬ part <+: f.encode) ∧
      (∀ gs, LegalFrames cfg none gs → bufs.flatten <+: encodes gs →
        fs <+: gs ∧ ∃ p, (readAll cfg .new bufs).2 = .ok p) := by
  obtain ⟨fs, part, hdiv, hmsgs, hend⟩ := readAll_divides cfg bufs
  refine ⟨fs, part, hdiv.bytes, hdiv.legal, hmsgs, fun f hf => ⟨?_, fun err herr => ?_⟩,
    fun gs hgs hbytes => ?_⟩
  · rintro ⟨rest, rfl⟩
    rw [parseFrame_encode hf] at hend
    split at hend <;> exact nomatch hend
  · rw [herr] at hend
    exact (parseFrame_error hend hf).1
  · obtain ⟨hs, rfl, hlegal, hpart⟩ := hdiv.begins hgs hbytes
    refine ⟨List.prefix_append fs hs, ?_⟩
    cases hresult : (readAll cfg .new bufs).2 with
    | error err =>
      rw [hresult] at hend
      exact absurd hend (not_error_of_begin hlegal hpart)
    | ok p => exact ⟨p, rfl⟩

/-- **The reads do not matter**: the same bytes in other reads give the same messages, and the same
error if they are refused. -/
theorem reads_independent (cfg : Config) (bufs bufs' : List (List UInt8))
    (hbytes : bufs.flatten = bufs'.flatten) :
    (readAll cfg .new bufs).1 = (readAll cfg .new bufs').1 ∧
      ∀ err, (readAll cfg .new bufs).2 = .error err ↔ (readAll cfg .new bufs').2 = .error err := by
  obtain ⟨fs, part, hdiv, hmsgs, hend⟩ := readAll_divides cfg bufs
  obtain ⟨fs', part', hdiv', hmsgs', hend'⟩ := readAll_divides cfg bufs'
  rw [← hbytes] at hdiv'
  obtain ⟨rfl, rfl⟩ := hdiv.unique hdiv'
    (fun f rest h => by rw [h] at hend; split at hend <;> exact nomatch hend)
    (fun f rest h => by rw [h] at hend'; split at hend' <;> exact nomatch hend')
  refine ⟨hmsgs.trans hmsgs'.symm, fun err => ?_⟩
  cases hresult : (readAll cfg .new bufs).2 with
  | error e =>
    cases hresult' : (readAll cfg .new bufs').2 with
    | error e' =>
      rw [hresult] at hend
      rw [hresult'] at hend'
      obtain rfl := Parsed.error.inj (hend.symm.trans hend')
      exact Iff.rfl
    | ok p' =>
      rw [hresult] at hend
      rw [hresult'] at hend'
      exact nomatch hend.symm.trans hend'
  | ok p =>
    cases hresult' : (readAll cfg .new bufs').2 with
    | error e' =>
      rw [hresult] at hend
      rw [hresult'] at hend'
      exact nomatch hend.symm.trans hend'
    | ok p' => simp

/-- A ping without a payload, in two reads in two ways. -/
theorem reads_independent_ping :
    (readAll ⟨true, 32000000⟩ .new [[0x89, 0x80], [0, 0, 0, 0]]).1 =
        (readAll ⟨true, 32000000⟩ .new [[0x89], [0x80, 0, 0, 0, 0]]).1 ∧
      ∀ err, (readAll ⟨true, 32000000⟩ .new [[0x89, 0x80], [0, 0, 0, 0]]).2 = .error err ↔
        (readAll ⟨true, 32000000⟩ .new [[0x89], [0x80, 0, 0, 0, 0]]).2 = .error err :=
  reads_independent ⟨true, 32000000⟩ [[0x89, 0x80], [0, 0, 0, 0]] [[0x89], [0x80, 0, 0, 0, 0]] rfl

end Websocket

end MoonJamRelay
