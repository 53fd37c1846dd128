import Mathlib.Data.List.AList

/-!
# Finite maps

`UnorderedMap K V` is the finite map behind `std::unordered_map`: an association list whose keys
are distinct (`AList`).  The order of the entries is never observed by the lemmas below.

* `lookup_insert_eq`, `lookup_erase_eq` : what a key finds after an update, in one equation.
* `mapValues` : apply a function to every value.
* `anyValue` : some entry has a value with a property (a scan over all entries).
-/

namespace MoonJamRelay

/-- A finite map from `K` to `V` with distinct keys. -/
abbrev UnorderedMap (K V : Type*) := AList fun _ : K => V

namespace UnorderedMap

variable {K V W : Type*}

/-- Apply `f` to every value, keeping the keys. -/
def mapValues (f : V → W) (m : UnorderedMap K V) : UnorderedMap K W where
  entries := m.entries.map fun e => ⟨e.1, f e.2⟩
  nodupKeys := by
    have h := m.nodupKeys
    unfold List.NodupKeys List.keys at h ⊢
    simpa [List.map_map, Function.comp_def] using h

/-- Some entry has a value satisfying `p`. -/
def anyValue (m : UnorderedMap K V) (p : V → Bool) : Bool := m.entries.any fun e => p e.2

variable [DecidableEq K]

theorem lookup_insert_eq (m : UnorderedMap K V) (k a : K) (v : V) :
    (m.insert k v).lookup a = if a = k then some v else m.lookup a := by
  split_ifs with h
  · subst h; exact AList.lookup_insert m
  · exact AList.lookup_insert_ne h

theorem lookup_erase_eq (m : UnorderedMap K V) (k a : K) :
    (m.erase k).lookup a = if a = k then none else m.lookup a := by
  split_ifs with h
  · subst h; exact AList.lookup_erase _ m
  · exact AList.lookup_erase_ne h

theorem mem_iff_lookup {m : UnorderedMap K V} {k : K} : k ∈ m ↔ ∃ v, m.lookup k = some v := by
  rw [← AList.lookup_isSome, Option.isSome_iff_exists]

theorem mem_of_lookup {m : UnorderedMap K V} {k : K} {v : V} (h : m.lookup k = some v) : k ∈ m :=
  mem_iff_lookup.2 ⟨v, h⟩

theorem mem_insert_of_mem {m : UnorderedMap K V} {k a : K} {v : V} (h : k ∈ m) :
    a ∈ m.insert k v ↔ a ∈ m := by
  rw [AList.mem_insert]
  exact ⟨fun h' => h'.elim (fun e => e ▸ h) id, Or.inr⟩

theorem lookup_mapValues (f : V → W) (m : UnorderedMap K V) (k : K) :
    (m.mapValues f).lookup k = (m.lookup k).map f := by
  obtain ⟨l, hl⟩ := m
  change List.dlookup k (l.map fun e => (⟨e.1, f e.2⟩ : Sigma fun _ : K => W)) =
    (List.dlookup k l).map f
  clear hl
  induction l with
  | nil => rfl
  | cons e l ih =>
    obtain ⟨a, v⟩ := e
    by_cases h : k = a
    · subst h; simp [List.dlookup_cons_eq]
    · have h' : a ≠ k := Ne.symm h
      simp only [List.map_cons]
      rw [List.dlookup_cons_ne _ _ h, List.dlookup_cons_ne _ _ h, ih]

theorem mem_mapValues (f : V → W) (m : UnorderedMap K V) (k : K) : k ∈ m.mapValues f ↔ k ∈ m := by
  rw [← AList.lookup_isSome, ← AList.lookup_isSome, lookup_mapValues, Option.isSome_map]

/-- A function that fixes every value leaves the map as it is. -/
theorem mapValues_eq_self {f : V → V} {m : UnorderedMap K V}
    (h : ∀ k v, m.lookup k = some v → f v = v) : m.mapValues f = m := by
  apply AList.ext
  refine (List.map_congr_left fun e he => ?_).trans (List.map_id _)
  have hv : m.lookup e.1 = some e.2 := (AList.mem_lookup_iff).2 he
  obtain ⟨k, v⟩ := e
  simp [h k v hv]

theorem anyValue_iff {m : UnorderedMap K V} {p : V → Bool} :
    m.anyValue p = true ↔ ∃ k v, m.lookup k = some v ∧ p v = true := by
  simp only [anyValue, List.any_eq_true]
  constructor
  · rintro ⟨⟨k, v⟩, he, hp⟩
    exact ⟨k, v, AList.mem_lookup_iff.2 he, hp⟩
  · rintro ⟨k, v, hk, hp⟩
    exact ⟨⟨k, v⟩, AList.mem_lookup_iff.1 hk, hp⟩

end UnorderedMap

end MoonJamRelay
