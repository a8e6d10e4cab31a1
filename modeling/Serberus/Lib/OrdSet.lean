-- SUMMARY: Ordered sets as strictly increasing lists: membership, insertion, filtering, union, the lexicographic order, and sorting without duplicates.
import Mathlib.Data.List.Destutter
import Mathlib.Data.List.Lex
import Mathlib.Data.List.Sort
import Mathlib.Order.Lattice

/-!
# Ordered Sets

A finite set kept as the strictly increasing list of its elements. Iteration
goes through the elements in increasing order, equality is equality of
elements, and sets themselves are compared lexicographically.
-/

section SortUnique

variable {α : Type*} [LinearOrder α]

/-- Sort a list, then drop the repeated ones among equal neighbours. -/
def sortUnique (l : List α) : List α := (l.insertionSort (· ≤ ·)).destutter (· ≠ ·)

theorem sortUnique_eq_dedup (l : List α) : sortUnique l = (l.insertionSort (· ≤ ·)).dedup :=
  (List.pairwise_insertionSort (· ≤ ·) l).destutter_eq_dedup

@[simp] theorem mem_sortUnique {a : α} {l : List α} : a ∈ sortUnique l ↔ a ∈ l := by
  rw [sortUnique_eq_dedup, List.mem_dedup, List.mem_insertionSort]

theorem sortUnique_sorted (l : List α) : (sortUnique l).Pairwise (· < ·) := by
  have hle : (sortUnique l).Pairwise (· ≤ ·) :=
    (List.pairwise_insertionSort (· ≤ ·) l).sublist (List.destutter_sublist _ _)
  have hne : (sortUnique l).Pairwise (· ≠ ·) := by
    rw [sortUnique_eq_dedup]
    exact List.nodup_dedup _
  exact hle.imp₂ (fun _ _ => lt_of_le_of_ne) hne

end SortUnique

/-- A finite set, as the strictly increasing list of its elements. -/
structure OrdSet (α : Type*) [LinearOrder α] where
  toList : List α
  sorted : toList.Pairwise (· < ·)

namespace OrdSet

variable {α β : Type*} [LinearOrder α] [LinearOrder β]

instance : Membership α (OrdSet α) where
  mem s a := a ∈ s.toList

instance (a : α) (s : OrdSet α) : Decidable (a ∈ s) :=
  inferInstanceAs (Decidable (a ∈ s.toList))

instance (s : OrdSet α) (p : α → Prop) [DecidablePred p] : Decidable (∀ a ∈ s, p a) :=
  inferInstanceAs (Decidable (∀ a ∈ s.toList, p a))

@[simp] theorem mem_toList {a : α} {s : OrdSet α} : a ∈ s.toList ↔ a ∈ s := Iff.rfl

@[simp] theorem mem_mk {a : α} {l : List α} {h : l.Pairwise (· < ·)} :
    a ∈ (⟨l, h⟩ : OrdSet α) ↔ a ∈ l := Iff.rfl

/-- Two strictly increasing lists with the same elements are equal. -/
theorem eq_of_mem_iff {l l' : List α} (hl : l.Pairwise (· < ·)) (hl' : l'.Pairwise (· < ·))
    (h : ∀ a, a ∈ l ↔ a ∈ l') : l = l' := by
  have hperm : l.Perm l' :=
    (List.perm_ext_iff_of_nodup (hl.imp ne_of_lt) (hl'.imp ne_of_lt)).mpr h
  exact hperm.eq_of_pairwise (fun a b _ _ hab hba => absurd hab hba.not_gt) hl hl'

@[ext] theorem ext {s t : OrdSet α} (h : ∀ a, a ∈ s ↔ a ∈ t) : s = t := by
  obtain ⟨l, hl⟩ := s
  obtain ⟨l', hl'⟩ := t
  congr 1
  exact eq_of_mem_iff hl hl' h

theorem nodup (s : OrdSet α) : s.toList.Nodup := s.sorted.imp ne_of_lt

/-! ## The Empty Set -/

instance : EmptyCollection (OrdSet α) := ⟨⟨[], .nil⟩⟩

instance : Inhabited (OrdSet α) := ⟨∅⟩

@[simp] theorem not_mem_empty (a : α) : a ∉ (∅ : OrdSet α) := List.not_mem_nil

def isEmpty (s : OrdSet α) : Bool := s.toList.isEmpty

theorem isEmpty_iff {s : OrdSet α} : s.isEmpty = true ↔ ∀ a, a ∉ s := by
  rw [isEmpty, List.isEmpty_iff, List.eq_nil_iff_forall_not_mem]
  rfl

theorem isEmpty_eq_false_iff {s : OrdSet α} : s.isEmpty = false ↔ ∃ a, a ∈ s := by
  rw [← Bool.not_eq_true, isEmpty_iff]
  push Not
  rfl

def size (s : OrdSet α) : Nat := s.toList.length

/-! ## Filtering and Insertion -/

/-- The elements that satisfy `p`. -/
def filter (p : α → Bool) (s : OrdSet α) : OrdSet α :=
  ⟨s.toList.filter p, s.sorted.filter p⟩

@[simp] theorem mem_filter {p : α → Bool} {s : OrdSet α} {a : α} :
    a ∈ s.filter p ↔ a ∈ s ∧ p a = true := List.mem_filter

theorem size_filter_le (p : α → Bool) (s : OrdSet α) : (s.filter p).size ≤ s.size :=
  List.length_filter_le p s.toList

/-- Filtering keeps the size only when it drops nothing. -/
theorem size_filter_lt {p : α → Bool} {s : OrdSet α} {a : α} (ha : a ∈ s) (hp : p a = false) :
    (s.filter p).size < s.size :=
  List.length_filter_lt_length_iff_exists.mpr ⟨a, ha, by simp [hp]⟩

theorem filter_eq_self {p : α → Bool} {s : OrdSet α} (h : ∀ a ∈ s, p a = true) :
    s.filter p = s := by
  ext a
  simpa using h a

/-- Drop one element. -/
def erase (a : α) (s : OrdSet α) : OrdSet α := s.filter (· ≠ a)

@[simp] theorem mem_erase {a b : α} {s : OrdSet α} : b ∈ s.erase a ↔ b ∈ s ∧ b ≠ a := by
  simp [erase]

theorem size_erase_lt {a : α} {s : OrdSet α} (ha : a ∈ s) : (s.erase a).size < s.size :=
  size_filter_lt ha (by simp)

/-- Add one element, at its place in the order. -/
def insert (a : α) (s : OrdSet α) : OrdSet α where
  toList := s.toList.filter (· < a) ++ a :: s.toList.filter (a < ·)
  sorted := by
    refine List.pairwise_append.mpr ⟨s.sorted.filter _, ?_, ?_⟩
    · refine List.pairwise_cons.mpr ⟨fun b hb => ?_, s.sorted.filter _⟩
      simpa using (List.mem_filter.mp hb).2
    · intro b hb c hc
      have hba : b < a := by simpa using (List.mem_filter.mp hb).2
      rcases List.mem_cons.mp hc with rfl | hc
      · exact hba
      · exact hba.trans (by simpa using (List.mem_filter.mp hc).2)

@[simp] theorem mem_insert {a b : α} {s : OrdSet α} : b ∈ s.insert a ↔ b = a ∨ b ∈ s := by
  change b ∈ s.toList.filter (· < a) ++ a :: s.toList.filter (a < ·) ↔ _
  simp only [List.mem_append, List.mem_filter, List.mem_cons, decide_eq_true_eq, mem_toList]
  constructor
  · rintro (⟨h, -⟩ | rfl | ⟨h, -⟩)
    · exact .inr h
    · exact .inl rfl
    · exact .inr h
  · rintro (rfl | h)
    · exact .inr (.inl rfl)
    · rcases lt_trichotomy b a with hlt | rfl | hgt
      · exact .inl ⟨h, hlt⟩
      · exact .inr (.inl rfl)
      · exact .inr (.inr ⟨h, hgt⟩)

theorem size_insert {a : α} {s : OrdSet α} (ha : a ∉ s) : (s.insert a).size = s.size + 1 := by
  have hperm : (s.insert a).toList.Perm (a :: s.toList) := by
    refine (List.perm_ext_iff_of_nodup (s.insert a).nodup (List.nodup_cons.mpr ⟨ha, s.nodup⟩)).mpr
      fun b => ?_
    rw [List.mem_cons]
    exact mem_insert
  exact hperm.length_eq

theorem size_le_length {s : OrdSet α} {l : List α} (h : ∀ a ∈ s, a ∈ l) : s.size ≤ l.length :=
  (List.subperm_of_subset s.nodup h).length_le

theorem size_insert_le (a : α) (s : OrdSet α) : (s.insert a).size ≤ s.size + 1 := by
  change (s.toList.filter (· < a) ++ a :: s.toList.filter (a < ·)).length ≤ s.toList.length + 1
  have hdisj : (s.toList.filter (a < ·)).length ≤
      (s.toList.filter fun b => !decide (b < a)).length := by
    refine (List.monotone_filter_right _ fun b hb => ?_).length_le
    simpa using (of_decide_eq_true hb).le
  have hsum := List.length_eq_length_filter_add (fun b => decide (b < a)) (l := s.toList)
  simp only [List.length_append, List.length_cons]
  omega

/-- The set of the elements of a list. -/
def ofList (l : List α) : OrdSet α := l.foldr insert ∅

@[simp] theorem mem_ofList {a : α} {l : List α} : a ∈ ofList l ↔ a ∈ l := by
  induction l with
  | nil => simp [ofList]
  | cons b l ih =>
    change a ∈ (ofList l).insert b ↔ _
    rw [mem_insert, ih, List.mem_cons]

/-! ## Union and Image -/

def union (s t : OrdSet α) : OrdSet α := t.toList.foldr insert s

@[simp] theorem mem_union {a : α} {s t : OrdSet α} : a ∈ s.union t ↔ a ∈ s ∨ a ∈ t := by
  have key (l : List α) : a ∈ l.foldr insert s ↔ a ∈ s ∨ a ∈ l := by
    induction l with
    | nil => simp
    | cons b l ih =>
      change a ∈ (l.foldr insert s).insert b ↔ _
      rw [mem_insert, ih, List.mem_cons]
      tauto
  exact key t.toList

theorem size_union_le (s t : OrdSet α) : (s.union t).size ≤ s.size + t.size := by
  have key (l : List α) : (l.foldr insert s).size ≤ s.size + l.length := by
    induction l with
    | nil => simp
    | cons b l ih =>
      have hins := size_insert_le b (l.foldr insert s)
      change ((l.foldr insert s).insert b).size ≤ _
      simp only [List.length_cons]
      omega
  exact key t.toList

/-- The image of a set under a function. -/
def image (f : α → β) (s : OrdSet α) : OrdSet β := ofList (s.toList.map f)

@[simp] theorem mem_image {f : α → β} {s : OrdSet α} {b : β} :
    b ∈ s.image f ↔ ∃ a ∈ s, f a = b := by
  simp [image]

/-! ## Lexicographic Order -/

theorem toList_injective : Function.Injective (toList : OrdSet α → List α) := by
  intro s t h
  ext a
  rw [← mem_toList, h, mem_toList]

instance : LinearOrder (OrdSet α) := LinearOrder.lift' toList toList_injective

end OrdSet
