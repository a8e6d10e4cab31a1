-- SUMMARY: Elements of a sorted list and their positions, as the passes look them up.
import Mathlib.Order.Lattice
import Serberus.Exec

/-!
# Positions

`MinCutGreedy` and `SpeculativeTaint` number the elements of a sorted vector by their
positions. Both look an element up by `llvm::lower_bound` and assert that it is there,
and assert that a position is in range before they read the element at it.
-/

namespace Clou

variable {α : Type} [LinearOrder α]

/-- `llvm::lower_bound`: the position of the first element that is not below `a`. -/
def lowerBound (l : List α) (a : α) : Nat := l.findIdx fun b => !decide (b < a)

def positionOf (ndebug : Bool) (found : Assertion) (l : List α) (a : α) : Exec Nat := do
  assert ndebug found (l[lowerBound l a]? = some a)
  pure (lowerBound l a)

def elementAt (ndebug : Bool) (inRange : Assertion) (l : List α) (idx : Nat) : Exec α := do
  assert ndebug inRange (idx < l.length)
  match l[idx]? with
  | some a => pure a
  | none => throw .outOfRange

variable {ndebug : Bool} {asrt : Assertion} {l : List α} {a : α} {i : Nat}

/-- In a sorted list every element is at its lower bound. -/
theorem getElem?_lowerBound (hsorted : l.Pairwise (· < ·)) (ha : a ∈ l) :
    l[lowerBound l a]? = some a := by
  obtain ⟨j, hj, rfl⟩ := List.mem_iff_getElem.mp ha
  have hle : lowerBound l l[j] ≤ j := by
    by_contra hlt
    have := List.not_of_lt_findIdx (Nat.lt_of_not_le hlt)
    simp at this
  have hlt : lowerBound l l[j] < l.length := Nat.lt_of_le_of_lt hle hj
  have hge : ¬ l[lowerBound l l[j]] < l[j] := by
    have hfound := List.findIdx_getElem (w := hlt)
    simp only [Bool.not_eq_true', decide_eq_false_iff_not] at hfound
    exact hfound
  have heq : lowerBound l l[j] = j := by
    refine Nat.le_antisymm hle (Nat.le_of_not_lt fun hlt' => hge ?_)
    exact List.pairwise_iff_getElem.mp hsorted _ _ _ hj hlt'
  rw [heq, List.getElem?_eq_getElem hj]

theorem positionOf_ok (h : positionOf ndebug asrt l a = .ok i) : i = lowerBound l a := by
  obtain ⟨-, -, h⟩ := Exec.bind_eq_ok.mp h
  cases h
  rfl

/-- The elements of a sorted list are found. -/
theorem positionOf_mem (hsorted : l.Pairwise (· < ·)) (ha : a ∈ l) :
    positionOf ndebug asrt l a = .ok (lowerBound l a) := by
  rw [positionOf, assert_of (getElem?_lowerBound hsorted ha)]
  rfl

omit [LinearOrder α] in
theorem elementAt_ok (h : elementAt ndebug asrt l i = .ok a) : l[i]? = some a := by
  obtain ⟨-, -, h⟩ := Exec.bind_eq_ok.mp h
  split at h
  · rename_i hfind
    cases h
    exact hfind
  · cases h

omit [LinearOrder α] in
theorem elementAt_of (h : l[i]? = some a) : elementAt ndebug asrt l i = .ok a := by
  have hlt : i < l.length := (List.getElem?_eq_some_iff.mp h).1
  rw [elementAt, assert_of hlt, h]
  rfl

end Clou
