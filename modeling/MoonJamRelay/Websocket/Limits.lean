import MoonJamRelay.Websocket.Reading

/-!
# Two limits that are checked frame by frame

The size of a message and the form of a text are checked when a frame's header or payload comes.

* `message_limit` : a message that is handed over has not more than the configured size, but one
  that is under way can have any size, since the sum of the sizes is one of 64 bits.
* `text_fragments` : a text in one frame must be complete, one in several frames need not be.
  `fragments` are its frames, with control frames between them.
-/

namespace MoonJamRelay

namespace Websocket

variable {cfg : Config} {pending : Option Message} {part bytes : List UInt8} {p : Processor}
  {f : Frame} {fs : List Frame}

/-! ### The size of a message -/

theorem length_payload_le (f : Frame) : f.payload.length ≤ f.encode.length := by
  rw [Frame.encode, List.length_append, length_maskWith]
  omega

/-- The size of a message is within its limit: that of control messages, or the configured one. -/
def Message.Fits (cfg : Config) (m : Message) : Prop :=
  m.payload.length ≤ if m.opcode.isControl then payloadSizeBasic else cfg.maxMessageSize

/-- Fragments of a data message, within the limit. -/
def FitsSoFar (cfg : Config) (pending : Option Message) : Prop :=
  ∀ m ∈ pending, m.opcode.isControl = false ∧ m.payload.length ≤ cfg.maxMessageSize

theorem fits_after (hf : f.Legal cfg pending) (hpending : FitsSoFar cfg pending)
    (hsize : f.payload.length + cfg.maxMessageSize < 2 ^ 64) :
    FitsSoFar cfg (f.after pending).1 ∧ ∀ m ∈ (f.after pending).2, m.Fits cfg := by
  rw [Frame.after]
  split_ifs with hop hfin
  · refine ⟨hpending, fun m hm => ?_⟩
    obtain rfl := List.mem_singleton.1 hm
    rw [Message.Fits, if_pos hop]
    exact (hf.control hop).2
  all_goals
    have hjoined : (joined pending f.opcode f.payload).opcode.isControl = false ∧
        (joined pending f.opcode f.payload).payload.length ≤ cfg.maxMessageSize := by
      have hbound := hf.bound hop
      cases pending with
      | none =>
        rw [pendingSize, Option.elim_none, Nat.zero_add, Nat.mod_eq_of_lt (by omega)] at hbound
        exact ⟨by simpa [joined] using hop, hbound⟩
      | some out =>
        obtain ⟨hcontrol, hle⟩ := hpending out rfl
        rw [pendingSize, Option.elim_some, Nat.mod_eq_of_lt (by omega)] at hbound
        refine ⟨hcontrol, ?_⟩
        rwa [joined, List.length_append]
  · refine ⟨fun m hm => (by cases hm), fun m hm => ?_⟩
    obtain rfl := List.mem_singleton.1 hm
    rw [Message.Fits, hjoined.1]
    exact hjoined.2
  · refine ⟨fun m hm => ?_, fun m hm => by cases hm⟩
    obtain rfl := Option.some.inj hm
    exact hjoined

theorem fits_received (hfs : LegalFrames cfg pending fs) (hpending : FitsSoFar cfg pending)
    (hsize : ∀ f ∈ fs, f.payload.length + cfg.maxMessageSize < 2 ^ 64) :
    ∀ m ∈ (received pending fs).2, m.Fits cfg := by
  induction fs generalizing pending with
  | nil => exact nofun
  | cons f fs ih =>
    obtain ⟨hafter, hmsgs⟩ := fits_after hfs.1 hpending (hsize f List.mem_cons_self)
    intro m hm
    rcases List.mem_append.1 hm with hm | hm
    · exact hmsgs m hm
    · exact ih hfs.2 hafter (fun g hg => hsize g (List.mem_cons_of_mem f hg)) m hm

theorem length_encode_le (hf : f ∈ fs) : f.encode.length ≤ (encodes fs).length := by
  induction fs with
  | nil => exact nomatch hf
  | cons g fs ih =>
    rw [encodes_cons, List.length_append]
    rcases List.mem_cons.1 hf with rfl | hf
    · omega
    · have := ih hf
      omega

/-! ### A message under way -/

/-- While a data frame is read, the processor has the part of its payload that has come. -/
theorem Represents.dataMsg (hrep : Represents cfg pending part p) (hquiet : p.Quiet)
    (hsize : f.payload.length < 2 ^ 64) (hop : f.opcode.isControl = false) {n : ℕ}
    (hpart : part = headerBytes f.opcode f.fin f.payload.length f.key ++
      (maskWith f.key f.payload).take n) :
    p.dataMsg.msg = some (joined pending f.opcode (f.payload.take n)) := by
  have hop' : f.basicHeader.opcode = f.opcode := BasicHeader.opcode_make ..
  rw [f.headerBytes_eq] at hpart
  have hbasic : ∀ {h : BasicHeader} {bytes : List UInt8}, h.b0 :: h.b1 :: bytes =
      f.basicHeader.b0 :: f.basicHeader.b1 :: f.extendedBytes ++
        (maskWith f.key f.payload).take n →
      h = f.basicHeader ∧ bytes = f.extendedBytes ++ (maskWith f.key f.payload).take n := by
    rintro ⟨b0, b1⟩ bytes heq
    simp only [List.cons_append, List.cons.injEq] at heq
    obtain ⟨rfl, rfl, rfl⟩ := heq
    exact ⟨rfl, rfl⟩
  cases hrep with
  | start => simp at hpart
  | first => simp at hpart
  | @header p ext _ _ _ _ needed =>
    obtain ⟨hh, rfl⟩ := hbasic hpart
    have hlen := f.length_extendedBytes
    have hneeded := hquiet.2
    rw [hh, List.length_append] at needed
    omega
  | @payload p ext body _ header _ payload =>
    obtain ⟨hh, heq⟩ := hbasic hpart
    have hlen : ext.length = f.extendedBytes.length := by
      rw [header.length, hh, f.length_extendedBytes]
    obtain ⟨rfl, rfl⟩ := List.append_inj heq hlen
    have hkey := (f.read_extendedBytes hsize).2
    have hdata := (payload.data (by rw [hh, hop', hop])).2.msg
    rwa [header.bytes, hh, hkey, take_maskWith, maskWith_maskWith, hop'] at hdata
  | message state => exact absurd state hquiet.1

/-- A key that the peer may use, for the fragments below; which one does not matter for sizes. -/
def Config.peerKey (cfg : Config) : Option MaskingKey := if cfg.server then some .zero else none

theorem Config.isSome_peerKey (cfg : Config) : cfg.peerKey.isSome = cfg.server := by
  rw [peerKey]
  split_ifs with h <;> simp [h]

/-- A first fragment of one byte. -/
def oneByte (cfg : Config) : Frame := ⟨.binary, false, cfg.peerKey, [0]⟩

/-- A last fragment. -/
def lastFragment (cfg : Config) (payload : List UInt8) : Frame :=
  ⟨.continuation, true, cfg.peerKey, payload⟩

/-- One byte and as many bytes as a word can say make a sum of zero in 64 bits. -/
theorem legal_lastFragment (hmax : 0 < cfg.maxMessageSize) {payload : List UInt8}
    (hpayload : payload.length = 2 ^ 64 - 1) :
    LegalFrames cfg none [oneByte cfg, lastFragment cfg payload] := by
  have hsum : (1 + payload.length) % 2 ^ 64 = 0 := by
    rw [hpayload]
    decide
  have hone : (oneByte cfg).payload.length < 2 ^ 64 := by
    change 1 < 2 ^ 64
    decide
  refine ⟨⟨cfg.isSome_peerKey, hone, rfl, nofun, fun _ => ?_, fun _ => ?_, nofun, nofun⟩,
    ⟨cfg.isSome_peerKey, ?_, rfl, nofun, fun _ => ?_, fun _ => ?_, nofun, nofun⟩, trivial⟩
  · exact ⟨nofun, nofun⟩
  · exact hmax
  · change payload.length < 2 ^ 64
    omega
  · exact ⟨fun _ => rfl, fun _ => rfl⟩
  · change (1 + payload.length) % 2 ^ 64 ≤ _
    rw [hsum]
    exact Nat.zero_le _

theorem parseFrame_part (hf : f.Legal cfg pending) (hpart : part <+: f.encode)
    (hlen : part.length < f.encode.length) (g : Frame) (rest : List UInt8) :
    parseFrame cfg pending part ≠ .frame g rest := by
  intro hparse
  obtain ⟨tail, htail⟩ := hpart
  have hmore := parseFrame_append tail (by rw [hparse]; exact nofun)
  have hfound := parseFrame_encode hf []
  rw [hparse, htail] at hmore
  rw [List.append_nil, hmore] at hfound
  obtain ⟨-, hnil⟩ := Parsed.frame.inj hfound
  rw [← htail, (List.append_eq_nil_iff.1 hnil).2, List.append_nil] at hlen
  exact Nat.lt_irrefl _ hlen

/-- After a first fragment of one byte, and `n` bytes of a fragment that is larger than any sum
allows. -/
theorem exists_buffered (cfg : Config) (hmax : 0 < cfg.maxMessageSize) {n : ℕ}
    (hn : n < 2 ^ 64 - 1) : ∃ bufs p out, readAll cfg .new bufs = ([], .ok p) ∧
      p.dataMsg.msg = some out ∧ out.payload.length = n + 1 := by
  obtain ⟨payload, hpayload⟩ : ∃ payload : List UInt8, payload.length = 2 ^ 64 - 1 :=
    ⟨List.replicate _ 0, List.length_replicate⟩
  have hlegal := legal_lastFragment hmax hpayload
  generalize hf : lastFragment cfg payload = f at hlegal
  have hfpayload : f.payload = payload := by rw [← hf]; rfl
  have hfop : f.opcode = .continuation := by rw [← hf]; rfl
  -- the bytes: the first fragment, the header of the second and `n` bytes of its payload
  generalize hpart : headerBytes f.opcode f.fin f.payload.length f.key ++
    (maskWith f.key f.payload).take n = part
  have hbegin : part <+: f.encode := by
    rw [← hpart, Frame.encode]
    exact (List.prefix_append_right_inj _).2 (List.take_prefix _ _)
  have hshort : part.length < f.encode.length := by
    rw [← hpart, Frame.encode, List.length_append, List.length_append, List.length_take,
      length_maskWith, hfpayload]
    omega
  have hdiv : Divides cfg none ((oneByte cfg).encode ++ part) [oneByte cfg] part :=
    ⟨by simp, hlegal.1, trivial⟩
  have hspec := readAll_spec cfg [(oneByte cfg).encode ++ part]
  rw [List.flatten_singleton] at hspec
  have hrest := parseFrame_part hlegal.2.1 hbegin hshort
  rcases hread : readAll cfg .new [(oneByte cfg).encode ++ part] with ⟨msgs, err | p⟩
  · rw [hread] at hspec
    obtain ⟨fs, part', hdiv', -, herr⟩ := hspec
    obtain ⟨rfl, rfl⟩ := hdiv.unique hdiv' hrest fun g rest h => by cases herr.symm.trans h
    have hone : LegalFrames cfg (received none [oneByte cfg]).1 [f] := ⟨hlegal.2.1, trivial⟩
    refine absurd herr (not_error_of_begin hone ?_)
    simpa using hbegin
  · rw [hread] at hspec
    obtain ⟨fs, part', hdiv', rfl, hrep, hquiet⟩ := hspec
    obtain ⟨rfl, rfl⟩ := hdiv.unique hdiv' hrest fun g rest h =>
      by cases (hrep.more hquiet.1 hquiet.2).symm.trans h
    have hmsg := hrep.dataMsg hquiet hlegal.2.1.size_lt (by rw [hfop]; rfl) hpart.symm
    refine ⟨_, p, _, hread, hmsg, ?_⟩
    have hlen : (f.payload.take n).length = n := by
      rw [List.length_take, hfpayload]
      omega
    change ([0] ++ f.payload.take n).length = n + 1
    rw [List.length_append, hlen, List.length_singleton, Nat.add_comm]

/-- **The limit of a message**: a data message that is handed over has not more bytes than the
configuration allows, and a control message not more than its own limit; but for every size that a
string can have there is a connection that buffers a message of that size, not yet complete. -/
theorem message_limit (cfg : Config) (hmax : 0 < cfg.maxMessageSize) :
    (∀ bufs : List (List UInt8), bufs.flatten.length + cfg.maxMessageSize < 2 ^ 64 →
      ∀ m ∈ (readAll cfg .new bufs).1,
        (m.opcode.isControl = true → m.payload.length ≤ 125) ∧
          (m.opcode.isControl = false → m.payload.length ≤ cfg.maxMessageSize)) ∧
    (∀ n, 0 < n → n + 1 < 2 ^ 63 → ∃ bufs p out, readAll cfg .new bufs = ([], .ok p) ∧
      p.dataMsg.msg = some out ∧ out.payload.length = n) := by
  constructor
  · intro bufs hbufs m hm
    obtain ⟨fs, part, hdiv, hmsgs, -⟩ := readAll_divides cfg bufs
    rw [hmsgs] at hm
    have hfits : m.Fits cfg := by
      refine fits_received hdiv.legal (fun out hout => by cases hout) (fun f hf => ?_) m hm
      have hpayload := length_payload_le f
      have hencode := length_encode_le hf
      rw [hdiv.bytes, List.length_append] at hbufs
      omega
    rw [Message.Fits] at hfits
    exact ⟨fun hop => by rwa [if_pos hop] at hfits,
      fun hop => by rwa [if_neg (by simp [hop])] at hfits⟩
  · intro n hpos hn
    obtain ⟨k, rfl⟩ := Nat.exists_eq_succ_of_ne_zero (Nat.ne_of_gt hpos)
    exact exists_buffered cfg hmax (by omega)

/-- A connection of the relay buffers a terabyte. -/
theorem message_limit_relay : ∃ bufs p out,
    readAll ⟨true, 32000000⟩ .new bufs = ([], .ok p) ∧ p.dataMsg.msg = some out ∧
      out.payload.length = 2 ^ 40 :=
  (message_limit ⟨true, 32000000⟩ (by decide)).2 (2 ^ 40) (by decide) (by decide)

/-! ### Texts in fragments -/

/-- A fragment of a message that is not the first one: the control frames before it, its masking key
and its bytes. -/
structure Fragment where
  controls : List Frame := []
  key : Option MaskingKey
  bytes : List UInt8

/-- The frames of a message in fragments, the last one of which ends it. -/
def fragments (op : Opcode) (key : Option MaskingKey) (b : List UInt8) :
    List Fragment → List Frame
  | [] => [⟨op, true, key, b⟩]
  | c :: rest => ⟨op, false, key, b⟩ :: (c.controls ++ fragments .continuation c.key c.bytes rest)

/-- The bytes of all fragments after the first. -/
def laterBytes (rest : List Fragment) : List UInt8 := rest.flatMap Fragment.bytes

/-- The control messages between the fragments. -/
def between (rest : List Fragment) : List Message :=
  rest.flatMap fun c => c.controls.map fun f => { opcode := f.opcode, payload := f.payload }

/-- The frame is a control frame that the peer of an endpoint may send. -/
structure Frame.LegalControl (cfg : Config) (f : Frame) : Prop where
  masked : f.key.isSome = cfg.server
  control : f.opcode.isControl = true
  opcode : f.opcode.reserved = false
  fin : f.fin = true
  size_le : f.payload.length ≤ payloadSizeBasic

/-- The keys and the control frames of a fragment are those of the peer of an endpoint. -/
def Fragment.Legal (cfg : Config) (c : Fragment) : Prop :=
  c.key.isSome = cfg.server ∧ ∀ f ∈ c.controls, f.LegalControl cfg

variable {key : Option MaskingKey} {op : Opcode} {b : List UInt8} {c : Fragment}
  {rest : List Fragment}

theorem Frame.LegalControl.legal (h : f.LegalControl cfg) (pending : Option Message) :
    f.Legal cfg pending where
  masked := h.masked
  size_lt := Nat.lt_of_le_of_lt h.size_le (by decide)
  opcode := h.opcode
  control _ := ⟨h.fin, h.size_le⟩
  order hnot := absurd h.control hnot
  bound hnot := absurd h.control hnot
  textPrefix hnot := absurd h.control hnot
  text htext := by
    have hop := h.control
    rw [htext] at hop
    cases hop

/-- Control frames leave the fragments of a message as they are. -/
theorem controls_between (pending : Option Message) {controls : List Frame}
    (h : ∀ f ∈ controls, f.LegalControl cfg) :
    LegalFrames cfg pending controls ∧ received pending controls =
      (pending, controls.map fun f => { opcode := f.opcode, payload := f.payload }) := by
  induction controls with
  | nil => exact ⟨trivial, rfl⟩
  | cons f fs ih =>
    have hf := h f List.mem_cons_self
    have hafter : f.after pending = (pending, [{ opcode := f.opcode, payload := f.payload }]) :=
      if_pos hf.control
    obtain ⟨hlegal, hreceived⟩ := ih fun g hg => h g (List.mem_cons_of_mem f hg)
    refine ⟨⟨hf.legal pending, by rwa [hafter]⟩, ?_⟩
    rw [received, hafter, hreceived]
    rfl

theorem legal_fragment {fin : Bool} (hkey : key.isSome = cfg.server)
    (htext : (joined pending op b).opcode = .text) (hop : op = .text ∨ op = .continuation)
    (horder : op = .continuation ↔ pending.isSome)
    (hsize : pendingSize pending + b.length ≤ cfg.maxMessageSize)
    (hmax : cfg.maxMessageSize < 2 ^ 64) :
    (⟨op, fin, key, b⟩ : Frame).Legal cfg pending ↔
      TextPrefix (joined pending op b).payload ∧ (op = .text → fin = true → IsText b) := by
  have hdata : op.isControl = false ∧ op.reserved = false := by
    rcases hop with rfl | rfl <;> exact ⟨rfl, rfl⟩
  have hnot : ¬ op.isControl = true := by simp [hdata.1]
  refine ⟨fun hf => ⟨hf.textPrefix hnot htext, hf.text⟩, fun hf => ?_⟩
  have hlt : b.length < 2 ^ 64 := by omega
  have hbound : (pendingSize pending + b.length) % 2 ^ 64 ≤ cfg.maxMessageSize := by
    rwa [Nat.mod_eq_of_lt (by omega)]
  exact ⟨hkey, hlt, hdata.2, fun h => absurd h hnot, fun _ => horder, fun _ => hbound,
    fun _ _ => hf.1, hf.2⟩

theorem after_fragment (hop : op.isControl = false) (fin : Bool) :
    Frame.after pending ⟨op, fin, key, b⟩ =
      if fin then (none, [joined pending op b]) else (some (joined pending op b), []) := by
  simp [Frame.after, hop]

theorem legal_fragments (hkey : key.isSome = cfg.server) (hrest : ∀ c ∈ rest, c.Legal cfg)
    (htext : (joined pending op b).opcode = .text) (hop : op = .text ∨ op = .continuation)
    (horder : op = .continuation ↔ pending.isSome)
    (hsize : pendingSize pending + (b ++ laterBytes rest).length ≤ cfg.maxMessageSize)
    (hmax : cfg.maxMessageSize < 2 ^ 64) :
    LegalFrames cfg pending (fragments op key b rest) ↔
      TextPrefix ((joined pending op b).payload ++ laterBytes rest) ∧
        (op = .text → rest = [] → IsText b) := by
  induction rest generalizing pending op key b with
  | nil =>
    rw [laterBytes, List.flatMap_nil, List.append_nil] at hsize
    rw [fragments, LegalFrames, legal_fragment hkey htext hop horder hsize hmax, laterBytes,
      List.flatMap_nil, List.append_nil]
    simp [LegalFrames]
  | cons c rest ih =>
    have hdata : op.isControl = false := by
      rcases hop with rfl | rfl <;> rfl
    obtain ⟨hckey, hcontrols⟩ := hrest c List.mem_cons_self
    obtain ⟨hlegal, hreceived⟩ :=
      controls_between (some (joined pending op b)) hcontrols
    have hlater : laterBytes (c :: rest) = c.bytes ++ laterBytes rest := List.flatMap_cons ..
    have hlen : pendingSize (some (joined pending op b)) = pendingSize pending + b.length := by
      cases pending <;> simp [joined, pendingSize]
    rw [hlater, List.length_append] at hsize
    have hpending : pendingSize (some (joined pending op b)) + (c.bytes ++ laterBytes rest).length ≤
        cfg.maxMessageSize := by omega
    have hfragments := ih hckey (fun c' hc' => hrest c' (List.mem_cons_of_mem c hc'))
      (b := c.bytes) htext (.inr rfl) (by simp) hpending
    rw [fragments, LegalFrames, legal_fragment hkey htext hop horder (by omega) hmax,
      after_fragment hdata, if_neg (by decide), legalFrames_append, hreceived, hfragments]
    have hjoined : (joined (some (joined pending op b)) .continuation c.bytes).payload =
        (joined pending op b).payload ++ c.bytes := rfl
    rw [hjoined, hlater, ← List.append_assoc]
    constructor
    · rintro ⟨-, -, htextPrefix, -⟩
      exact ⟨htextPrefix, fun _ hnil => by cases hnil⟩
    · rintro ⟨htextPrefix, -⟩
      refine ⟨⟨htextPrefix.left.left, fun _ hfin => ?_⟩, hlegal, htextPrefix, fun hcont => ?_⟩
      · cases hfin
      · cases hcont

theorem received_fragments (hop : op.isControl = false) (hrest : ∀ c ∈ rest, c.Legal cfg) :
    received pending (fragments op key b rest) =
      (none, between rest ++ [joined pending op (b ++ laterBytes rest)]) := by
  induction rest generalizing pending op key b with
  | nil => simp [fragments, received, after_fragment hop, laterBytes, between]
  | cons c rest ih =>
    obtain ⟨-, hreceived⟩ := controls_between (some (joined pending op b))
      (hrest c List.mem_cons_self).2
    have hlater : laterBytes (c :: rest) = c.bytes ++ laterBytes rest := List.flatMap_cons ..
    rw [fragments, received, after_fragment hop, if_neg (by decide), received_append, hreceived,
      ih rfl fun c' hc' => hrest c' (List.mem_cons_of_mem c hc'), hlater, joined_append b]
    simp [joined, between]

theorem length_of_mem_fragments (hrest : ∀ c ∈ rest, c.Legal cfg)
    (hf : f ∈ fragments op key b rest) :
    f.payload.length < 2 ^ 64 ∨ f.payload.length ≤ (b ++ laterBytes rest).length := by
  induction rest generalizing op key b with
  | nil =>
    obtain rfl := List.mem_singleton.1 hf
    simp
  | cons c rest ih =>
    have hlater : laterBytes (c :: rest) = c.bytes ++ laterBytes rest := List.flatMap_cons ..
    rw [hlater, List.length_append]
    rcases List.mem_cons.1 hf with rfl | hf
    · exact .inr (Nat.le_add_right _ _)
    · rcases List.mem_append.1 hf with hf | hf
      · exact .inl (((hrest c List.mem_cons_self).2 f hf).legal none).size_lt
      · exact (ih (fun c' hc' => hrest c' (List.mem_cons_of_mem c hc')) hf).imp_right
          fun hle => Nat.le_trans hle (Nat.le_add_left _ _)

/-- **Texts in fragments** that fit the maximum, with any masking keys and any control frames between
them, in whatever reads they come.  A text in one frame is accepted if it is complete; in several
frames it is accepted, and handed over, if it is the beginning of a text, even one that ends inside
a character. -/
theorem text_fragments (cfg : Config) (key : Option MaskingKey) (first : List UInt8)
    (rest : List Fragment) (bufs : List (List UInt8))
    (hbufs : bufs.flatten = encodes (fragments .text key first rest))
    (hkey : key.isSome = cfg.server) (hrest : ∀ c ∈ rest, c.Legal cfg)
    (hsize : (first ++ laterBytes rest).length ≤ cfg.maxMessageSize)
    (hmax : cfg.maxMessageSize < 2 ^ 64) :
    (∃ p, readAll cfg .new bufs =
        (between rest ++ [{ opcode := .text, payload := first ++ laterBytes rest }], .ok p)) ↔
      if rest = [] then IsText first else TextPrefix (first ++ laterBytes rest) := by
  have hlegal : LegalFrames cfg none (fragments .text key first rest) ↔
      TextPrefix (first ++ laterBytes rest) ∧ (Opcode.text = .text → rest = [] → IsText first) :=
    legal_fragments hkey hrest rfl (.inl rfl) (by simp) (by simpa [pendingSize] using hsize) hmax
  have hreceived : received none (fragments .text key first rest) =
      (none, between rest ++ [{ opcode := .text, payload := first ++ laterBytes rest }]) :=
    received_fragments rfl hrest
  have hlt : ∀ g ∈ fragments .text key first rest, g.payload.length < 2 ^ 64 := fun g hg =>
    (length_of_mem_fragments hrest hg).elim id fun hle =>
      Nat.lt_of_le_of_lt hle (Nat.lt_of_le_of_lt hsize hmax)
  obtain ⟨hiff, hmsgs⟩ : ((∃ p, (readAll cfg .new bufs).2 = .ok p) ↔ LegalFrames cfg none _) ∧ _ :=
    readAll_encodes hbufs hlt
  have hcond : LegalFrames cfg none (fragments .text key first rest) ↔
      if rest = [] then IsText first else TextPrefix (first ++ laterBytes rest) := by
    rw [hlegal]
    split_ifs with hnil
    · subst hnil
      rw [laterBytes, List.flatMap_nil, List.append_nil]
      exact ⟨fun h => h.2 rfl rfl, fun h => ⟨h.textPrefix, fun _ _ => h⟩⟩
    · exact ⟨fun h => h.1, fun h => ⟨h, fun _ he => absurd he hnil⟩⟩
  rw [← hcond, ← hiff]
  constructor
  · rintro ⟨p, hp⟩
    exact ⟨p, by rw [hp]⟩
  · rintro ⟨p, hp⟩
    refine ⟨p, Prod.ext ?_ hp⟩
    rw [hmsgs (hiff.1 ⟨p, hp⟩), hreceived]

/-- The end of a text with "é", in two fragments: a ping, and the first of the two bytes. -/
def tornFragment : Fragment where
  controls := [⟨.ping, true, some .zero, []⟩]
  key := some ⟨[5, 6, 7, 8], rfl⟩
  bytes := [0xC3]

theorem legal_tornFragment : tornFragment.Legal ⟨true, 32000000⟩ := by
  refine ⟨rfl, fun f hf => ?_⟩
  obtain rfl := List.mem_singleton.1 hf
  exact ⟨rfl, rfl, rfl, rfl, by decide⟩

/-- A text that ends after the first byte of a character of two. -/
theorem text_fragments_torn : ∃ p, readAll ⟨true, 32000000⟩ .new
    [encodes (fragments .text (some ⟨[1, 2, 3, 4], rfl⟩) [0x41] [tornFragment])] =
      ([{ opcode := .ping }, { opcode := .text, payload := [0x41, 0xC3] }], .ok p) :=
  (text_fragments ⟨true, 32000000⟩ (some ⟨[1, 2, 3, 4], rfl⟩) [0x41] [tornFragment] _
    (List.flatten_singleton ..) rfl (List.forall_mem_singleton.2 legal_tornFragment) (by decide)
    (by decide)).2 ⟨[0xA9], ['A', 'é'], rfl⟩

end Websocket

end MoonJamRelay
