-- SUMMARY: Users with operands and the use lists of the values they refer to, kept in step when an operand is set.
import Mathlib.Data.List.Nodup

/-!
# Use Lists

A user has a list of operands, and a value has a list of the operands that refer to it.
Setting an operand unlinks it from the list of its old value and pushes it on the front of
the list of its new one.
-/

namespace UseLists

/-- An operand of a user. -/
structure Use (ι : Type*) where
  user : ι
  operandNo : Nat
  deriving DecidableEq

/-- The operands of all users, `none` where an operand is not one of the values, and the use
lists of all values. A user that does not exist has no operands. -/
structure Heap (α ι : Type*) where
  operands : ι → List (Option α)
  uses : α → List (Use ι)

namespace Heap

variable {α ι : Type*} {H : Heap α ι} {U V : Use ι} {f g : α}

/-- What an operand refers to. -/
def value (H : Heap α ι) (U : Use ι) : Option α := (H.operands U.user)[U.operandNo]?.join

/-- The use lists hold the operands that refer to their value, each once. -/
structure WF (H : Heap α ι) : Prop where
  mem_uses : ∀ {f U}, U ∈ H.uses f ↔ H.value U = some f
  nodup : ∀ f, (H.uses f).Nodup

variable [DecidableEq α] [DecidableEq ι]

/-- Set an operand. -/
def set (H : Heap α ι) (U : Use ι) (f : α) : Heap α ι where
  operands i := if i = U.user then (H.operands i).set U.operandNo (some f) else H.operands i
  uses g :=
    let unlinked := if H.value U = some g then (H.uses g).erase U else H.uses g
    if g = f then U :: unlinked else unlinked

/-- The use behind `U` in the list that `U` is in. -/
def next (H : Heap α ι) (U : Use ι) : Option (Use ι) :=
  match H.value U with
  | none => none
  | some f => ((H.uses f).dropWhile (· ≠ U)).tail.head?

@[simp] theorem length_operands_set (H : Heap α ι) (U : Use ι) (f : α) (i : ι) :
    ((H.set U f).operands i).length = (H.operands i).length := by
  unfold set
  dsimp only
  split_ifs with h <;> simp

theorem value_set (hU : H.value U = some g) (V : Use ι) :
    (H.set U f).value V = if V = U then some f else H.value V := by
  obtain ⟨i, m⟩ := U
  obtain ⟨j, n⟩ := V
  unfold value set at *
  dsimp only at *
  by_cases hij : j = i
  · subst hij
    have hm : m < (H.operands j).length := by
      by_contra hle
      rw [List.getElem?_eq_none (Nat.le_of_not_lt hle)] at hU
      cases hU
    rw [if_pos rfl, List.getElem?_set]
    by_cases hmn : n = m
    · subst hmn
      simp [hm]
    · simp [hmn, Ne.symm hmn]
  · simp [hij]

theorem uses_set (hU : H.value U = some g) (hne : g ≠ f) (k : α) : (H.set U f).uses k =
    if k = f then U :: H.uses f else if k = g then (H.uses g).erase U else H.uses k := by
  unfold set
  dsimp only
  rw [hU]
  by_cases hk : k = f
  · subst hk
    simp [hne]
  · by_cases hg : k = g
    · subst hg
      simp [hk]
    · simp [hk, hg, Ne.symm hg]

/-- Setting an operand keeps the use lists in step. -/
theorem WF.set (h : H.WF) (hU : H.value U = some g) (hne : g ≠ f) : (H.set U f).WF where
  mem_uses {k V} := by
    rw [uses_set hU hne, value_set hU]
    by_cases hV : V = U
    · subst hV
      rw [if_pos rfl]
      by_cases hk : k = f
      · simp [hk]
      · rw [if_neg hk]
        by_cases hg : k = g
        · simp [hg, (h.nodup g).mem_erase_iff, Ne.symm hne]
        · rw [if_neg hg, h.mem_uses, hU]
          simp [Ne.symm hk, Ne.symm hg]
    · rw [if_neg hV, ← h.mem_uses]
      by_cases hk : k = f
      · simp [hk, hV]
      · rw [if_neg hk]
        by_cases hg : k = g
        · simp [hg, (h.nodup g).mem_erase_iff, hV]
        · rw [if_neg hg]
  nodup k := by
    rw [uses_set hU hne]
    split_ifs with hk hg
    · refine List.nodup_cons.mpr ⟨fun hmem => ?_, h.nodup f⟩
      rw [h.mem_uses, hU] at hmem
      exact hne (Option.some.inj hmem)
    · exact (h.nodup g).erase U
    · exact h.nodup k

omit [DecidableEq α] in
/-- Going one step on in a use list. -/
theorem WF.next_eq (h : H.WF) {l₁ l₂ : List (Use ι)} (hl : H.uses f = l₁ ++ U :: l₂) :
    H.next U = l₂.head? := by
  have hvalue : H.value U = some f := h.mem_uses.mp (hl ▸ by simp)
  have hnot : U ∉ l₁ := fun hU => by
    have hnodup := h.nodup f
    rw [hl] at hnodup
    exact (List.nodup_append.mp hnodup).2.2 U hU U (.head _) rfl
  unfold next
  rw [hvalue]
  dsimp only
  have hpast : ∀ V ∈ l₁, decide (V ≠ U) = true := fun V hV => by
    simpa using fun heq : V = U => hnot (heq ▸ hV)
  rw [hl, List.dropWhile_append_of_pos hpast]
  simp

end Heap

end UseLists
