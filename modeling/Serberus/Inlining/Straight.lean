-- SUMMARY: Bodies of one block, and the inlining of one into another.
import Serberus.Inlining.Pass

/-!
# Straight Bodies

A body that is a single block: inlining puts copies of the callee's instructions, all but
the return, in the place of the call.
-/

namespace Clou.Inlining

open CallGraph (Value getCalledFunction)
open ControlFlow

section Splice

variable {φ : Type}

/-- An operand of a copied instruction. -/
def shiftValue (base : Nat) : Value φ Nat → Value φ Nat
  | .inst i => .inst (base + i)
  | .bitCast V => .bitCast (shiftValue base V)
  | V => V

def shiftKind (base : Nat) : Kind φ Nat → Kind φ Nat
  | .store value ptr => .store (shiftValue base value) (shiftValue base ptr)
  | .call lowers calledOperand => .call lowers (shiftValue base calledOperand)
  | k => k

/-- A number that is greater than the instructions of the body. -/
def Body.fresh (B : Body Unit φ Nat) : Nat := B.cfg.instructions.sum + 1

theorem Body.lt_fresh {B : Body Unit φ Nat} {i : Nat} (hi : i ∈ B.cfg.instructions) : i < B.fresh :=
  Nat.lt_succ_of_le (List.single_le_sum (fun _ _ => Nat.zero_le _) i hi)

/-- The instructions of a block with those of another in the place of a call. -/
def spliceList (l : List Nat) (CB base : Nat) (callee : List Nat) : List Nat :=
  l.takeWhile (· ≠ CB) ++ callee.map (base + ·) ++ (l.dropWhile (· ≠ CB)).tail

theorem nodup_splice {l callee : List Nat} {t CB base : Nat} (h : (l ++ [t]).Nodup)
    (hbase : ∀ i ∈ l ++ [t], i < base) (hcallee : callee.Nodup) :
    (spliceList l CB base callee ++ [t]).Nodup := by
  -- What is left of the caller is a part of it, and the copies have greater numbers.
  have hsub : (l.takeWhile (· ≠ CB) ++ ((l.dropWhile (· ≠ CB)).tail ++ [t])).Sublist (l ++ [t]) := by
    have hparts := ((List.tail_sublist (l.dropWhile (· ≠ CB))).append (.refl [t])).append_left
      (l.takeWhile (· ≠ CB))
    rwa [← List.append_assoc _ (l.dropWhile (· ≠ CB)), List.takeWhile_append_dropWhile] at hparts
  have hperm : (spliceList l CB base callee ++ [t]).Perm (callee.map (base + ·) ++
      (l.takeWhile (· ≠ CB) ++ ((l.dropWhile (· ≠ CB)).tail ++ [t]))) := by
    unfold spliceList
    simp only [List.append_assoc]
    exact List.perm_append_comm_assoc _ _ _
  refine hperm.nodup_iff.mpr (List.nodup_append'.mpr ⟨?_, hsub.nodup h, fun i hi hi' => ?_⟩)
  · exact hcallee.map fun _ _ => Nat.add_left_cancel
  · obtain ⟨j, -, rfl⟩ := List.mem_map.mp hi
    exact absurd (hbase _ (hsub.subset hi')) (by omega)

/-- A body of one block. -/
def Body.IsStraight (B : Body Unit φ Nat) : Prop := B.cfg.rest = []

theorem Body.IsStraight.instructions {B : Body Unit φ Nat} (h : B.IsStraight) :
    B.cfg.instructions = B.cfg.entry.body ++ [B.cfg.entry.terminator] := by
  unfold CFG.instructions CFG.blocks
  rw [h]
  simp [BasicBlock.instructions]

/-- The body `C` inlined at a call of the body `B`, both of one block. -/
def splice (B C : Body Unit φ Nat) (hB : B.IsStraight) (hC : C.IsStraight) (CB : Nat) :
    Body Unit φ Nat where
  cfg := {
    entry := {
      label := ()
      body := spliceList B.cfg.entry.body CB B.fresh C.cfg.entry.body
      terminator := B.cfg.entry.terminator
      succs := [] }
    rest := []
    labels_nodup := by simp
    instructions_nodup := by
      have hBnodup : B.cfg.instructions.Nodup := B.cfg.instructions_nodup
      have hCnodup : C.cfg.instructions.Nodup := C.cfg.instructions_nodup
      rw [hB.instructions] at hBnodup
      rw [hC.instructions] at hCnodup
      simp only [List.flatMap_cons, List.flatMap_nil, List.append_nil, BasicBlock.instructions]
      exact nodup_splice hBnodup (fun i hi => Body.lt_fresh (hB.instructions ▸ hi))
        hCnodup.of_append_left
    succs_mem := by simp
    entry_not_succ := by simp }
  kind i := if i ∈ B.cfg.instructions then B.kind i else shiftKind B.fresh (C.kind (i - B.fresh))

instance (B : Body Unit φ Nat) : Decidable B.IsStraight :=
  decidable_of_iff (B.cfg.rest.isEmpty = true) List.isEmpty_iff

/-- The function that an instruction calls. -/
def Body.callee (B : Body Unit φ Nat) (i : Nat) : Option φ :=
  match B.kind i with
  | .call _ calledOperand => calledOperand.target
  | _ => none

/-- `InlineFunction` for straight bodies; it fails for all others. -/
def inlineStraight : InlineFunction Unit φ Nat := fun bodies F CB =>
  match bodies F with
  | none => none
  | some B =>
    match (B.callee CB).bind bodies with
    | none => none
    | some C =>
      if h : B.IsStraight ∧ C.IsStraight then some (splice B C h.1 h.2 CB) else none

/-- A store of an argument, calls of the given functions, and a return. -/
def line (targets : List φ) : Body Unit φ Nat where
  cfg := {
    entry := {
      label := ()
      body := List.range (targets.length + 1)
      terminator := targets.length + 1
      succs := [] }
    rest := []
    labels_nodup := by simp
    instructions_nodup := by
      have hrange : List.range (targets.length + 1) ++ [targets.length + 1] =
          List.range (targets.length + 2) := List.range_succ.symm
      simp only [List.flatMap_cons, List.flatMap_nil, List.append_nil, BasicBlock.instructions, hrange]
      exact List.nodup_range
    succs_mem := by simp
    entry_not_succ := by simp }
  kind
    | 0 => .store (.argument 0) (.argument 1)
    | i + 1 =>
      match targets[i]? with
      | some f => .call true (.function f)
      | none => .ret

/-- All values are secret, and nothing is known of addresses. -/
def allSecret : Answers φ Nat where
  isConstantAddress _ := false
  nonspeculativelySecret _ := true
  speculativelySecret _ := true
  mayLeak _ := false

end Splice

end Clou.Inlining
