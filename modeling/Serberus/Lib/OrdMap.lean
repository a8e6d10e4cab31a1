-- SUMMARY: Ordered maps as lists of entries with strictly increasing keys: lookup, insertion, erasure and renaming of keys.
import Serberus.Lib.OrdSet

/-!
# Ordered Maps

A finite map kept as the list of its entries, with strictly increasing keys.
Iteration goes through the entries in key order, and a map is determined by its
lookups.
-/

/-- A finite map, as the list of its entries in strictly increasing key order. -/
structure OrdMap (κ ν : Type*) [LinearOrder κ] where
  entries : List (κ × ν)
  sorted : entries.Pairwise (·.1 < ·.1)

namespace OrdMap

variable {κ κ' ν ν' : Type*} [LinearOrder κ] [LinearOrder κ']

instance [DecidableEq ν] : DecidableEq (OrdMap κ ν) := fun m m' =>
  decidable_of_iff (m.entries = m'.entries) (by cases m; cases m'; simp)

instance : EmptyCollection (OrdMap κ ν) := ⟨⟨[], .nil⟩⟩

instance : Inhabited (OrdMap κ ν) := ⟨∅⟩

@[simp] theorem entries_empty : (∅ : OrdMap κ ν).entries = [] := rfl

/-- A key has at most one entry. -/
theorem val_unique {m : OrdMap κ ν} {k : κ} {v v' : ν}
    (h : (k, v) ∈ m.entries) (h' : (k, v') ∈ m.entries) : v = v' := by
  by_contra hne
  rcases List.pairwise_iff_getElem.mp m.sorted with hsorted
  obtain ⟨i, hi, hiv⟩ := List.mem_iff_getElem.mp h
  obtain ⟨j, hj, hjv⟩ := List.mem_iff_getElem.mp h'
  rcases lt_trichotomy i j with hij | rfl | hij
  · simpa [hiv, hjv] using hsorted i j hi hj hij
  · exact hne (by simpa [hiv] using congrArg Prod.snd hjv)
  · simpa [hiv, hjv] using hsorted j i hj hi hij

theorem entries_nodup (m : OrdMap κ ν) : m.entries.Nodup :=
  m.sorted.imp fun hlt heq => absurd (congrArg Prod.fst heq) hlt.ne

/-! ## Lookup -/

/-- The value at a key. -/
def find? (m : OrdMap κ ν) (k : κ) : Option ν :=
  (m.entries.find? (·.1 = k)).map Prod.snd

theorem find?_eq_some {m : OrdMap κ ν} {k : κ} {v : ν} :
    m.find? k = some v ↔ (k, v) ∈ m.entries := by
  constructor
  · intro h
    obtain ⟨⟨k', v'⟩, hfind, rfl⟩ := Option.map_eq_some_iff.mp h
    have hk : k' = k := by simpa using List.find?_some hfind
    exact hk ▸ List.mem_of_find?_eq_some hfind
  · intro h
    obtain ⟨⟨k', v'⟩, hfind⟩ : ∃ e, m.entries.find? (·.1 = k) = some e := by
      rw [← Option.isSome_iff_exists, List.find?_isSome]
      exact ⟨(k, v), h, by simp⟩
    have hk : k' = k := by simpa using List.find?_some hfind
    have hmem := List.mem_of_find?_eq_some hfind
    subst hk
    simp [find?, hfind, val_unique hmem h]

theorem find?_eq_none {m : OrdMap κ ν} {k : κ} :
    m.find? k = none ↔ ∀ v, (k, v) ∉ m.entries := by
  rw [Option.eq_none_iff_forall_ne_some]
  exact forall_congr' fun v => not_congr find?_eq_some

@[simp] theorem find?_empty (k : κ) : (∅ : OrdMap κ ν).find? k = none := rfl

/-- A map is determined by its lookups. -/
theorem ext {m m' : OrdMap κ ν} (h : ∀ k, m.find? k = m'.find? k) : m = m' := by
  have hmem (e : κ × ν) : e ∈ m.entries ↔ e ∈ m'.entries := by
    rw [← find?_eq_some, ← find?_eq_some, h]
  have hentries : m.entries = m'.entries :=
    ((List.perm_ext_iff_of_nodup (entries_nodup m) (entries_nodup m')).mpr hmem).eq_of_pairwise
      (fun _ _ _ _ hab hba => absurd hab hba.not_gt) m.sorted m'.sorted
  cases m
  cases m'
  simpa using hentries

/-- The keys, in increasing order. -/
def keys (m : OrdMap κ ν) : List κ := m.entries.map Prod.fst

theorem mem_keys {m : OrdMap κ ν} {k : κ} : k ∈ m.keys ↔ ∃ v, (k, v) ∈ m.entries := by
  simp [keys]

/-! ## Insertion and Erasure -/

/-- Bind `k` to `v`, whether or not `k` is bound already. -/
def insert (k : κ) (v : ν) (m : OrdMap κ ν) : OrdMap κ ν where
  entries := m.entries.filter (·.1 < k) ++ (k, v) :: m.entries.filter (k < ·.1)
  sorted := by
    refine List.pairwise_append.mpr ⟨m.sorted.filter _, ?_, ?_⟩
    · refine List.pairwise_cons.mpr ⟨fun e he => ?_, m.sorted.filter _⟩
      simpa using (List.mem_filter.mp he).2
    · intro e he e' he'
      have hek : e.1 < k := by simpa using (List.mem_filter.mp he).2
      rcases List.mem_cons.mp he' with rfl | he'
      · exact hek
      · exact hek.trans (by simpa using (List.mem_filter.mp he').2)

theorem mem_insert {m : OrdMap κ ν} {k : κ} {v : ν} {e : κ × ν} :
    e ∈ (m.insert k v).entries ↔ e = (k, v) ∨ e.1 ≠ k ∧ e ∈ m.entries := by
  change e ∈ m.entries.filter (·.1 < k) ++ (k, v) :: m.entries.filter (k < ·.1) ↔ _
  simp only [List.mem_append, List.mem_filter, List.mem_cons, decide_eq_true_eq]
  constructor
  · rintro (⟨h, hlt⟩ | rfl | ⟨h, hlt⟩)
    · exact .inr ⟨hlt.ne, h⟩
    · exact .inl rfl
    · exact .inr ⟨hlt.ne', h⟩
  · rintro (rfl | ⟨hne, h⟩)
    · exact .inr (.inl rfl)
    · rcases hne.lt_or_gt with hlt | hgt
      · exact .inl ⟨h, hlt⟩
      · exact .inr (.inr ⟨h, hgt⟩)

theorem find?_insert (m : OrdMap κ ν) (k k' : κ) (v : ν) :
    (m.insert k v).find? k' = if k' = k then some v else m.find? k' := by
  ext v'
  rw [find?_eq_some, mem_insert]
  split <;> rename_i h
  · subst h; simp [eq_comm]
  · simp [h, find?_eq_some]

theorem mem_keys_insert {m : OrdMap κ ν} {k k' : κ} {v : ν} :
    k' ∈ (m.insert k v).keys ↔ k' = k ∨ k' ∈ m.keys := by
  simp only [mem_keys, ← find?_eq_some, find?_insert]
  split_ifs with h <;> simp [h]

theorem find?_foldl_insert (m : OrdMap κ ν) (ks : List κ) (f : κ → ν) (k : κ) :
    (ks.foldl (fun m k => m.insert k (f k)) m).find? k =
      if k ∈ ks then some (f k) else m.find? k := by
  induction ks generalizing m with
  | nil => simp
  | cons k' ks ih =>
    rw [List.foldl_cons, ih, find?_insert]
    by_cases hks : k ∈ ks <;> by_cases hk : k = k' <;> simp [hks, hk]

/-- Bind the keys of a list of entries, one after the other. -/
def ofList (l : List (κ × ν)) : OrdMap κ ν := l.foldl (fun m e => m.insert e.1 e.2) ∅

theorem mem_ofList {l : List (κ × ν)} (hl : (l.map Prod.fst).Nodup) {e : κ × ν} :
    e ∈ (ofList l).entries ↔ e ∈ l := by
  induction l using List.reverseRecOn generalizing e with
  | nil => rfl
  | append_singleton l e' ih =>
    rw [List.map_append, List.nodup_append] at hl
    obtain ⟨hl, -, hfresh⟩ := hl
    rw [ofList, List.foldl_append, List.foldl_cons, List.foldl_nil, mem_insert, ← ofList, ih hl,
      List.mem_append, List.mem_singleton]
    constructor
    · rintro (rfl | ⟨-, he⟩)
      · exact .inr rfl
      · exact .inl he
    · rintro (he | rfl)
      · exact .inr ⟨hfresh _ (List.mem_map_of_mem he) _ (.head _), he⟩
      · exact .inl rfl

theorem ofList_entries (m : OrdMap κ ν) : ofList m.entries = m := by
  have hkeys : (m.entries.map Prod.fst).Nodup := List.pairwise_map.mpr (m.sorted.imp ne_of_lt)
  refine ext fun k => Option.ext fun v => ?_
  rw [find?_eq_some, find?_eq_some, mem_ofList hkeys]

/-- Bind `k` to `v` unless it is bound already. -/
def emplace (k : κ) (v : ν) (m : OrdMap κ ν) : OrdMap κ ν :=
  if (m.find? k).isSome then m else m.insert k v

theorem find?_emplace (m : OrdMap κ ν) (k k' : κ) (v : ν) :
    (m.emplace k v).find? k' = (m.find? k').or (if k' = k then some v else none) := by
  unfold emplace
  cases hfind : m.find? k with
  | none =>
    rw [Option.isSome_none, if_neg Bool.false_ne_true, find?_insert]
    by_cases hk : k' = k
    · rw [if_pos hk, if_pos hk, hk, hfind]
      rfl
    · rw [if_neg hk, if_neg hk, Option.or_none]
  | some v' =>
    rw [Option.isSome_some, if_pos rfl]
    by_cases hk : k' = k
    · rw [hk, hfind]
      rfl
    · rw [if_neg hk, Option.or_none]

/-- Unbind `k`. -/
def erase (k : κ) (m : OrdMap κ ν) : OrdMap κ ν :=
  ⟨m.entries.filter (·.1 ≠ k), m.sorted.filter _⟩

theorem mem_erase {m : OrdMap κ ν} {k : κ} {e : κ × ν} :
    e ∈ (m.erase k).entries ↔ e.1 ≠ k ∧ e ∈ m.entries := by
  simp [erase, and_comm]

theorem find?_erase (m : OrdMap κ ν) (k k' : κ) :
    (m.erase k).find? k' = if k' = k then none else m.find? k' := by
  ext v'
  rw [find?_eq_some, mem_erase]
  split <;> rename_i h
  · simp [h]
  · simp [h, find?_eq_some]

/-! ## Entries up to Order -/

theorem cons_erase_nodup (m : OrdMap κ ν) (k : κ) (v : ν) :
    ((k, v) :: (m.erase k).entries).Nodup :=
  List.nodup_cons.mpr ⟨fun h => (mem_erase.mp h).1 rfl, entries_nodup _⟩

theorem entries_insert_perm (m : OrdMap κ ν) (k : κ) (v : ν) :
    (m.insert k v).entries.Perm ((k, v) :: (m.erase k).entries) := by
  refine (List.perm_ext_iff_of_nodup (entries_nodup _) (cons_erase_nodup m k v)).mpr fun e => ?_
  rw [mem_insert, List.mem_cons, mem_erase]

theorem entries_perm_of_find? {m : OrdMap κ ν} {k : κ} {v : ν} (h : m.find? k = some v) :
    m.entries.Perm ((k, v) :: (m.erase k).entries) := by
  have hmem := find?_eq_some.mp h
  refine (List.perm_ext_iff_of_nodup (entries_nodup _) (cons_erase_nodup m k v)).mpr fun e => ?_
  obtain ⟨k', v'⟩ := e
  rw [List.mem_cons, mem_erase]
  constructor
  · intro he
    by_cases hk : k' = k
    · subst hk
      exact .inl (by rw [val_unique he hmem])
    · exact .inr ⟨hk, he⟩
  · rintro (heq | ⟨-, he⟩)
    · exact heq ▸ hmem
    · exact he

theorem erase_of_find?_none {m : OrdMap κ ν} {k : κ} (h : m.find? k = none) : m.erase k = m := by
  refine ext fun k' => ?_
  rw [find?_erase]
  split_ifs with hk
  · rw [hk, h]
  · rfl

/-! ## Renaming Keys -/

/-- Rename every key along a strictly increasing function. -/
def mapKeys (f : κ → κ') (hf : StrictMono f) (m : OrdMap κ ν) : OrdMap κ' ν :=
  ⟨m.entries.map fun e => (f e.1, e.2),
    List.pairwise_map.mpr (m.sorted.imp fun h => hf h)⟩

theorem mem_mapKeys {f : κ → κ'} {hf : StrictMono f} {m : OrdMap κ ν} {k' : κ'} {v : ν} :
    (k', v) ∈ (m.mapKeys f hf).entries ↔ ∃ k, (k, v) ∈ m.entries ∧ f k = k' := by
  simp [mapKeys]

end OrdMap
