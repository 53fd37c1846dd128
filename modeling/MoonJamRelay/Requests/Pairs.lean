import MoonJamRelay.Api.Distinct
import MoonJamRelay.Requests.Writers

/-!
# A key pair in the files, in a scan and in the table

`/create` reports a pair that it has written to a file.  The pair gets into the table when a scan
reads that file and no other file with one of the two keys.

* `KeyPair.Among` : a list of keys has the pair, and neither key in another entry.
  `KeyPair.Among.recognises` : then the table recognises the pair.
* `InFile` : the pair is in one file only.
* `Scanned` : what a scan has to have found by now.  `Scanned.begin`, `read` and `complete` follow
  the scan from its start to its end.
-/

namespace MoonJamRelay

/-- The table recognises the keys of a pair. -/
def KeyManager.Recognises (K : KeyManager) (moonkey playerkey : List UInt8) : Prop :=
  K.getRoom (convertHash moonkey) = convertHash moonkey ∧
    K.getRoom (convertHash playerkey) = convertHash moonkey ∧
    K.hasKey (convertHash moonkey) = true ∧ K.hasKey (convertHash playerkey) = true

namespace KeyPair

variable (keys : KeyPair)

/-- The entry has the pair. -/
def Is (e : AccessKeys) : Prop :=
  e.moonKey = keys.moonHash.toHash ∧ e.playerKey = keys.playerHash.toHash

/-- The entry has one of the two keys. -/
def Meets (e : AccessKeys) : Prop := e.Has keys.moonHash.toHash ∨ e.Has keys.playerHash.toHash

/-- Only the entries of the pair have its keys. -/
def Apart (list : List AccessKeys) : Prop := ∀ e ∈ list, keys.Meets e → keys.Is e

/-- The pair is in the list, and only the entries of the pair have its keys. -/
def Among (list : List AccessKeys) : Prop := keys.Apart list ∧ ∃ e ∈ list, keys.Is e

variable {keys} {keys' : KeyPair} {e e' : AccessKeys} {list : List AccessKeys}

/-- `refreshKeys` loads the pair from the text that `/create` writes. -/
theorem ofContents_text (limit : Option (List UInt8)) :
    AccessKeys.ofContents (stripLines (keys.text limit)) =
      some ⟨keys.moonHash.toHash, keys.playerHash.toHash, _, createLimit_le limit⟩ := by
  rw [text, stripLines_randomText]
  exact ofContents_keyText keys.moonHash.toHash keys.playerHash.toHash (createLimit_le limit)

theorem not_meets_of_is (h : keys.Is e) (h' : keys'.Is e') (hnot : ¬ keys'.Meets e) :
    ¬ keys.Meets e' := by
  obtain ⟨hm, hp⟩ := h
  obtain ⟨hm', hp'⟩ := h'
  simp only [Meets, AccessKeys.Has, hm, hp, hm', hp', not_or] at hnot ⊢
  obtain ⟨⟨h₁, h₂⟩, h₃, h₄⟩ := hnot
  exact ⟨⟨Ne.symm h₁, Ne.symm h₃⟩, Ne.symm h₂, Ne.symm h₄⟩

theorem Among.find (h : keys.Among list) {key : Hash}
    (hkey : key = keys.moonHash.toHash ∨ key = keys.playerHash.toHash) :
    ∃ e, (KeyManager.mk list).find key = some e ∧ e.moonKey = keys.moonHash.toHash := by
  obtain ⟨hapart, e, he, hm, hp⟩ := h
  have hsome : ((KeyManager.mk list).find key).isSome = true := by
    refine List.find?_isSome.2 ⟨e, he, ?_⟩
    rcases hkey with rfl | rfl
    · simp [hm]
    · simp [hp]
  obtain ⟨e', he'⟩ := Option.isSome_iff_exists.1 hsome
  obtain ⟨hmem, hhas⟩ := KeyManager.find_spec he'
  refine ⟨e', he', (hapart e' hmem ?_).1⟩
  rcases hkey with rfl | rfl
  · exact .inl hhas
  · exact .inr hhas

theorem Among.recognises (h : keys.Among list) :
    (KeyManager.mk list).Recognises keys.moonHash.bytes keys.playerHash.bytes := by
  obtain ⟨e, he, hm⟩ := h.find (.inl rfl)
  obtain ⟨e', he', hm'⟩ := h.find (.inr rfl)
  rw [KeyManager.Recognises, convertHash_bytes, convertHash_bytes]
  simp only [KeyManager.getRoom, KeyManager.hasKey, he, he', Option.map_some, Option.getD_some,
    Option.isSome_some, hm, hm', and_self]

end KeyPair

/-- `refreshKeys` loads the keys of a file from the text that `/limit` replaces it with. -/
theorem ofContents_rewrite {D : Type*} [DecidableEq D] {server : ApiServer D} {t : Target D}
    {e : AccessKeys} {limit : ℕ} (he : AccessKeys.ofContents (server.readFile t) = some e)
    (hlimit : limit ≤ intMax) :
    AccessKeys.ofContents (stripLines (keyText e.moonKey.bytes e.playerKey.bytes limit)) =
      some ⟨e.moonKey, e.playerKey, limit, hlimit⟩ := by
  obtain ⟨hmoon, hplayer, -⟩ := ofContents_spec he
  rw [stripLines_keyText (not_line_end_of_substr hmoon) (not_line_end_of_substr hplayer)]
  exact ofContents_keyText e.moonKey e.playerKey hlimit

namespace ApiSystem

variable {D : Type*} [DecidableEq D] (inst : Installation D) (s : ApiSystem D)

/-- The keys that `refreshKeys` finds in a file of the key directory, once the file is written. -/
def Loads (name : Name) (e : AccessKeys) : Prop :=
  ∃ c, s.Holds (inst.keys, name) c ∧ AccessKeys.ofContents (stripLines c) = some e

/-- The pair is in the file, and neither key is in another file. -/
structure InFile (name : Name) (keys : KeyPair) : Prop where
  own : ∃ e, s.Loads inst name e ∧ keys.Is e
  other : ∀ name' e, name' ≠ name → s.Loads inst name' e → ¬ keys.Meets e

/-- A scan that has begun after the file was written: the file was there from the start, and what
was read so far has the pair once, if the file was read. -/
structure Scanned (name : Name) (keys : KeyPair) (scan : Scan) : Prop where
  started : ∃ i, (name, i) ∈ scan.start ∧ s.files.inode (inst.keys, name) = some i
  apart : keys.Apart scan.keys
  found : name ∈ scan.seen → ∃ e ∈ scan.keys, keys.Is e

variable {inst s} {s' : ApiSystem D} {name : Name} {keys : KeyPair} {scan : Scan}
  {e e' : AccessKeys} {n : ℕ} {l : RequestLabel}

theorem OneWriter.loads_unique (h : s.OneWriter) (he : s.Loads inst name e)
    (he' : s.Loads inst name e') : e = e' := by
  obtain ⟨c, hc, he⟩ := he
  obtain ⟨c', hc', he'⟩ := he'
  rw [h.holds_unique hc hc'] at he
  exact Option.some.inj (he.symm.trans he')

theorem InFile.exists_inode (h : s.InFile inst name keys) (hone : s.OneWriter) :
    ∃ i, s.files.inode (inst.keys, name) = some i := by
  obtain ⟨e, ⟨c, hc, -⟩, -⟩ := h.own
  obtain ⟨c', hc'⟩ := hone.exists_holds.1 ⟨c, hc⟩
  rw [← Option.isSome_iff_exists, FileSystem.inode_isSome, hc']
  rfl

theorem mem_entries {i : ℕ} :
    (name, i) ∈ s.entries inst ↔ s.files.inode (inst.keys, name) = some i := by
  rw [entries, List.mem_filterMap]
  constructor
  · rintro ⟨name', -, hi⟩
    obtain ⟨j, hj, heq⟩ := Option.map_eq_some_iff.1 hi
    obtain ⟨rfl, rfl⟩ := Prod.mk.inj heq
    exact hj
  · intro hi
    have hsome : (s.files.contents (inst.keys, name)).isSome = true := by
      rw [← FileSystem.inode_isSome, hi]
      rfl
    exact ⟨name, ApiServer.mem_entries_of_keyFiles (s := s.server) hsome, by rw [hi]; rfl⟩

theorem readFile_eq {c : List UInt8} (h : s.files.contents (inst.keys, name) = some c) :
    s.server.readFile (.entry (inst.keys, name)) = stripLines c :=
  ApiServer.readFile_eq h

/-- What a scan reads in a file that nobody is writing. -/
theorem loads_of_read (hsettled : ¬ s.HalfWritten (inst.keys, name))
    (he : AccessKeys.ofContents (s.server.readFile (.entry (inst.keys, name))) = some e) :
    s.Loads inst name e := by
  obtain ⟨c, hc, he⟩ := ApiServer.loads_of_readFile he
  exact ⟨c, (holds_iff_of_not_halfWritten hsettled).2 hc, he⟩

/-- A scan reads nothing in a file that is being written. -/
theorem loads_of_scan (hone : s.OneWriter)
    (he : AccessKeys.ofContents (s.server.readFile (.entry (inst.keys, name))) = some e) :
    s.Loads inst name e := by
  by_cases hhalf : s.HalfWritten (inst.keys, name)
  · obtain ⟨n, c, hn⟩ := hhalf
    rw [readFile_eq (hone.emptied n _ c hn)] at he
    cases he
  · exact loads_of_read hhalf he

/-- The file of an id that keys are read from can be opened, and has these keys. -/
theorem opens_of_readFile (hone : s.OneWriter) (id : SafeId)
    (he : AccessKeys.ofContents (s.server.readFile (s.keyFile inst id.id)) = some e) :
    s.files.opens (s.keyFile inst id.id) = some (inst.keys, id.id ++ txt) ∧
      s.Loads inst (id.id ++ txt) e := by
  obtain ⟨loc, c, hloc, hc⟩ := ApiServer.exists_of_readFile (s := s.server)
    (t := s.keyFile inst id.id) fun hnil => by rw [hnil] at he; cases he
  obtain rfl := inst.eq_of_keyFile_entry id.valid.plainId hloc
  rw [hloc] at he ⊢
  exact ⟨FileSystem.opens_of_contents hc, loads_of_scan hone he⟩

/-- A scan finds what is in a file that nobody is writing. -/
theorem read_of_loads (hsettled : ¬ s.HalfWritten (inst.keys, name)) (he : s.Loads inst name e) :
    AccessKeys.ofContents (s.server.readFile (.entry (inst.keys, name))) = some e := by
  obtain ⟨c, hc, he⟩ := he
  rw [holds_iff_of_not_halfWritten hsettled] at hc
  rwa [readFile_eq hc]

theorem HandlerStep.loads (hst : HandlerStep inst s n l s') (hone : s.OneWriter)
    (hfree : FreeToOpen inst s n) (heffect : (s.pc n).effect = none) :
    s'.Loads inst name e ↔ s.Loads inst name e := by
  have hholds := (hst.files hone hfree).2
  simp only [heffect, Option.elim_none] at hholds
  simp only [Loads, hholds]

theorem HandlerStep.loads_file (hst : HandlerStep inst s n l s') (hone : s.OneWriter)
    (hfree : FreeToOpen inst s n) {id : List UInt8} {content : Option (List UInt8)}
    (heffect : (s.pc n).effect = some (id, content))
    (hfile : s.files.opens (s.keyFile inst id) = some (inst.keys, id ++ txt)) :
    s'.Loads inst name e ↔ if name = id ++ txt then
      ∃ c, content = some c ∧ AccessKeys.ofContents (stripLines c) = some e
      else s.Loads inst name e := by
  have hholds := (hst.files hone hfree).2
  simp only [heffect, Option.elim_some, hfile, Option.some.injEq] at hholds
  simp only [Loads, hholds, Prod.mk.injEq, true_and, eq_comm (a := id ++ txt)]
  split_ifs <;> rfl

theorem HandlerStep.loads_remove (hst : HandlerStep inst s n l s') (hone : s.OneWriter)
    (hfree : FreeToOpen inst s n) {id : SafeId} (hpc : s.pc n = .deleteRemove id) :
    (s'.Loads inst name e → s.Loads inst name e) ∧
      (name ≠ id.id ++ txt → (s'.Loads inst name e ↔ s.Loads inst name e)) := by
  have heffect : (s.pc n).effect = some (id.id, none) := by rw [hpc]; rfl
  cases hopens : s.files.opens (s.keyFile inst id.id) with
  | none =>
    have hholds := (hst.files hone hfree).2
    simp only [heffect, Option.elim_some, hopens, reduceCtorEq, if_false] at hholds
    have hloads : s'.Loads inst name e ↔ s.Loads inst name e := by simp only [Loads, hholds]
    exact ⟨hloads.1, fun _ => hloads⟩
  | some loc =>
    obtain ⟨rfl, -⟩ := (inst.opens_keyFile_iff id.valid.plainId).1 hopens
    rw [hst.loads_file hone hfree heffect hopens]
    split_ifs with hname
    · refine ⟨fun ⟨c, hc, _⟩ => ?_, fun hne => absurd hname hne⟩
      cases hc
    · exact ⟨fun he => he, fun _ => Iff.rfl⟩

theorem InFile.of_other (h : s.InFile inst name keys) (name' : Name) (hne : name' ≠ name)
    (hloads : ∀ name'' e, name'' ≠ name' → (s'.Loads inst name'' e ↔ s.Loads inst name'' e))
    (hnew : ∀ e, s'.Loads inst name' e → ¬ keys.Meets e) : s'.InFile inst name keys := by
  obtain ⟨e, he, his⟩ := h.own
  refine ⟨⟨e, (hloads name e (Ne.symm hne)).2 he, his⟩, fun name'' e' hne' he' => ?_⟩
  by_cases hname : name'' = name'
  · subst hname
    exact hnew e' he'
  · exact h.other name'' e' hne' ((hloads name'' e' hname).1 he')

theorem InFile.of_own (hother : ∀ name' e, name' ≠ name → s.Loads inst name' e → ¬ keys.Meets e)
    (hloads : ∀ name' e, name' ≠ name → (s'.Loads inst name' e ↔ s.Loads inst name' e))
    (hnew : s'.Loads inst name e) (his : keys.Is e) : s'.InFile inst name keys :=
  ⟨⟨e, hnew, his⟩, fun name' e' hne he' => hother name' e' hne ((hloads name' e' hne).1 he')⟩

namespace Scanned

theorem begin (h : s.InFile inst name keys) (hone : s.OneWriter) (ticket : ℕ) :
    s.Scanned inst name keys ⟨s.entries inst, [], [], ticket⟩ := by
  obtain ⟨i, hi⟩ := h.exists_inode hone
  exact ⟨⟨i, mem_entries.2 hi, hi⟩, fun e he => absurd he List.not_mem_nil,
    fun hname => absurd hname List.not_mem_nil⟩

theorem read (h : s.Scanned inst name keys scan) (hfile : s.InFile inst name keys)
    (hone : s.OneWriter) (name' : Name)
    (hsettled : name' = name → ¬ s.HalfWritten (inst.keys, name)) :
    s.Scanned inst name keys
      (scan.read name' (s.server.readFile (.entry (inst.keys, name')))) := by
  obtain ⟨e, he, his⟩ := hfile.own
  refine ⟨h.started, fun e' he' hmeets => ?_, fun hname => ?_⟩
  · rcases List.mem_append.1 he' with he' | he'
    · exact h.apart e' he' hmeets
    · have hload := loads_of_scan hone (Option.mem_toList.1 he')
      by_cases hne : name' = name
      · subst hne
        rwa [hone.loads_unique hload he]
      · exact absurd hmeets (hfile.other name' e' hne hload)
  · by_cases hne : name' = name
    · subst hne
      refine ⟨e, List.mem_append_right _ (Option.mem_toList.2 ?_), his⟩
      exact read_of_loads (hsettled rfl) he
    · obtain ⟨e', he', his'⟩ := h.found ((List.mem_cons.1 hname).resolve_left (Ne.symm hne))
      exact ⟨e', List.mem_append_left _ he', his'⟩

/-- When the scan is complete it has read the file. -/
theorem complete (h : s.Scanned inst name keys scan) (hcomplete : s.Complete inst scan) :
    name ∈ scan.seen := by
  obtain ⟨i, hstart, hi⟩ := h.started
  exact hcomplete (name, i) hstart (mem_entries.2 hi)

theorem among (h : s.Scanned inst name keys scan) (hseen : name ∈ scan.seen) :
    keys.Among scan.keys := ⟨h.apart, h.found hseen⟩

theorem mono (h : s.Scanned inst name keys scan)
    (hinode : ∀ i, s.files.inode (inst.keys, name) = some i →
      s'.files.inode (inst.keys, name) = some i) : s'.Scanned inst name keys scan := by
  obtain ⟨i, hstart, hi⟩ := h.started
  exact ⟨⟨i, hstart, hinode i hi⟩, h.apart, h.found⟩

end Scanned

end ApiSystem

end MoonJamRelay
