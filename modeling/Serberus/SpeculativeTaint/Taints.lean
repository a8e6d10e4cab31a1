-- SUMMARY: What the operations on taint maps do to the bits of an instruction and to the entries that exist.
import Mathlib.Data.Finset.Card
import Mathlib.Data.Finset.Option
import Mathlib.Data.Finset.Prod
import Serberus.SpeculativeTaint.Run

/-!
# Taint Maps

A taint map is determined by its keys and by the bits at each key. Rounds compare whole
maps, keys included, so both are tracked. The cells of a map put the two together.
-/

namespace Clou.SpeculativeTaint.Taints

variable {ι : Type} [LinearOrder ι] {t t' : Taints ι} {i x y k dst src : ι} {e idx : Idx}

/-- The bits at each instruction. -/
def marks (t : Taints ι) (y : ι) : Set Idx := {e | e ∈ t.get y}

@[simp] theorem mem_marks : e ∈ t.marks y ↔ e ∈ t.get y := Iff.rfl

theorem marks_inj : t.marks x = t'.marks y ↔ t.get x = t'.get y := by
  constructor
  · intro h
    ext e
    rw [← mem_marks, h, mem_marks]
  · intro h
    unfold marks
    rw [h]

/-! ## The Operations -/

theorem get_insert (t : Taints ι) (k y : ι) (v : OrdSet Idx) :
    get (t.insert k v) y = if y = k then v else t.get y := by
  unfold get
  rw [OrdMap.find?_insert]
  split_ifs <;> rfl

theorem get_of_not_mem_keys (h : y ∉ t.keys) : t.get y = ∅ := by
  have hnone : t.find? y = none := by
    rw [OrdMap.find?_eq_none]
    exact fun v hv => h (OrdMap.mem_keys.mpr ⟨v, hv⟩)
  unfold get
  rw [hnone]
  rfl

@[simp] theorem get_empty : get (∅ : Taints ι) y = ∅ := rfl

@[simp] theorem get_touch : (t.touch i).get y = t.get y := by
  unfold touch
  rw [get_insert]
  split_ifs with h
  · rw [h]
  · rfl

@[simp] theorem mem_keys_touch : y ∈ (t.touch i).keys ↔ y = i ∨ y ∈ t.keys := OrdMap.mem_keys_insert

theorem mem_get_set : e ∈ (t.set i idx).get y ↔ e ∈ t.get y ∨ y = i ∧ e = idx := by
  unfold set
  rw [get_insert]
  split_ifs with h
  · simp [h, or_comm]
  · simp [h]

@[simp] theorem mem_keys_set : y ∈ (t.set i idx).keys ↔ y = i ∨ y ∈ t.keys := OrdMap.mem_keys_insert

theorem mem_get_join : e ∈ (t.join dst src).get y ↔ e ∈ t.get y ∨ y = dst ∧ e ∈ t.get src := by
  unfold join
  rw [get_insert]
  split_ifs with h
  · simp [h]
  · simp [h]

theorem mem_keys_join : y ∈ (t.join dst src).keys ↔ y = dst ∨ y = src ∨ y ∈ t.keys := by
  unfold join
  rw [OrdMap.mem_keys_insert, mem_keys_touch]

/-! ## Several Joins -/

theorem mem_get_joinOperands (ops : List (Value ι)) :
    e ∈ (ops.foldl (joinOperand i) t).get y ↔
      e ∈ t.get y ∨ y = i ∧ ∃ x, .inst x ∈ ops ∧ e ∈ t.get x := by
  induction ops generalizing t with
  | nil => simp
  | cons op ops ih =>
    rw [List.foldl_cons, ih]
    cases op with
    | other n => simp [joinOperand]
    | inst x =>
      simp only [joinOperand, mem_get_join, List.mem_cons, Value.inst.injEq]
      constructor
      · rintro ((h | ⟨rfl, h⟩) | ⟨rfl, x', hx', h | ⟨rfl, h⟩⟩)
        · exact .inl h
        · exact .inr ⟨rfl, x, .inl rfl, h⟩
        · exact .inr ⟨rfl, x', .inr hx', h⟩
        · exact .inr ⟨rfl, x, .inl rfl, h⟩
      · rintro (h | ⟨rfl, x', rfl | hx', h⟩)
        · exact .inl (.inl h)
        · exact .inl (.inr ⟨rfl, h⟩)
        · exact .inr ⟨rfl, x', hx', .inl h⟩

theorem mem_keys_joinOperands (ops : List (Value ι)) :
    y ∈ (ops.foldl (joinOperand i) t).keys ↔
      y ∈ t.keys ∨ ∃ x, .inst x ∈ ops ∧ (y = i ∨ y = x) := by
  induction ops generalizing t with
  | nil => simp
  | cons op ops ih =>
    rw [List.foldl_cons, ih]
    cases op with
    | other n => simp [joinOperand]
    | inst x =>
      simp only [joinOperand, mem_keys_join, List.mem_cons, Value.inst.injEq, or_and_right,
        exists_or, exists_eq_left, or_assoc, or_left_comm]

theorem mem_get_joinLoads (loads : List ι) :
    e ∈ (loads.foldl (fun t LI => t.join LI src) t).get y ↔
      e ∈ t.get y ∨ y ∈ loads ∧ e ∈ t.get src := by
  induction loads generalizing t with
  | nil => simp
  | cons l loads ih =>
    rw [List.foldl_cons, ih]
    simp only [mem_get_join, List.mem_cons]
    tauto

theorem mem_keys_joinLoads (loads : List ι) (hsrc : src ∈ t.keys) :
    y ∈ (loads.foldl (fun t LI => t.join LI src) t).keys ↔ y ∈ t.keys ∨ y ∈ loads := by
  induction loads generalizing t with
  | nil => simp
  | cons l loads ih =>
    rw [List.foldl_cons, ih (mem_keys_join.mpr (.inr (.inr hsrc)))]
    simp only [mem_keys_join, List.mem_cons]
    constructor
    · rintro ((rfl | rfl | h) | h)
      · exact .inr (.inl rfl)
      · exact .inl hsrc
      · exact .inl h
      · exact .inr (.inr h)
    · tauto

/-! ## Cells -/

/-- The keys of a map, and its bits with their keys. -/
def cells (t : Taints ι) : Finset (ι × Option Idx) :=
  (t.entries.flatMap fun e => (e.1, none) :: e.2.toList.map fun idx => (e.1, some idx)).toFinset

theorem mem_cells_none : (k, none) ∈ t.cells ↔ k ∈ t.keys := by
  simp [cells, OrdMap.mem_keys]

theorem mem_cells_some : (k, some e) ∈ t.cells ↔ e ∈ t.get k := by
  simp only [cells, List.mem_toFinset, List.mem_flatMap, List.mem_cons, List.mem_map,
    Prod.mk.injEq, reduceCtorEq, and_false, false_or, Option.some.injEq, OrdSet.mem_toList]
  constructor
  · rintro ⟨⟨k, v⟩, hentry, e, he, rfl, rfl⟩
    rw [get, OrdMap.find?_eq_some.mpr hentry]
    exact he
  · intro he
    by_cases hk : k ∈ t.keys
    · obtain ⟨v, hv⟩ := OrdMap.mem_keys.mp hk
      rw [get, OrdMap.find?_eq_some.mpr hv] at he
      exact ⟨(k, v), hv, e, he, rfl, rfl⟩
    · rw [get_of_not_mem_keys hk] at he
      exact absurd he (OrdSet.not_mem_empty e)

theorem cells_subset :
    t.cells ⊆ t'.cells ↔ (∀ k ∈ t.keys, k ∈ t'.keys) ∧ ∀ y, t.marks y ⊆ t'.marks y := by
  constructor
  · intro h
    exact ⟨fun k hk => mem_cells_none.mp (h (mem_cells_none.mpr hk)),
      fun y e he => mem_cells_some.mp (h (mem_cells_some.mpr he))⟩
  · rintro ⟨hkeys, hmarks⟩ ⟨k, _ | e⟩ h
    · exact mem_cells_none.mpr (hkeys k (mem_cells_none.mp h))
    · exact mem_cells_some.mpr (hmarks k (mem_cells_some.mp h))

theorem find?_eq_get (h : k ∈ t.keys) : t.find? k = some (t.get k) := by
  obtain ⟨v, hv⟩ := OrdMap.mem_keys.mp h
  rw [get, OrdMap.find?_eq_some.mpr hv]
  rfl

theorem cells_injective : Function.Injective (cells : Taints ι → Finset (ι × Option Idx)) := by
  intro t t' h
  have hkeys (k : ι) : k ∈ t.keys ↔ k ∈ t'.keys := by rw [← mem_cells_none, h, mem_cells_none]
  have hget (k : ι) : t.get k = t'.get k := by
    ext e
    rw [← mem_cells_some, h, mem_cells_some]
  refine OrdMap.ext fun k => ?_
  by_cases hk : k ∈ t.keys
  · rw [find?_eq_get hk, find?_eq_get ((hkeys k).mp hk), hget]
  · have hnone {t : Taints ι} (h : k ∉ t.keys) : t.find? k = none :=
      OrdMap.find?_eq_none.mpr fun v hv => h (OrdMap.mem_keys.mpr ⟨v, hv⟩)
    rw [hnone hk, hnone fun h => hk ((hkeys k).mpr h)]

end Clou.SpeculativeTaint.Taints
