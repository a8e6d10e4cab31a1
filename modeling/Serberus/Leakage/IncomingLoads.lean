-- SUMMARY: The arguments, loads and calls that a value is computed from.
import Serberus.Leakage.Instructions
import Serberus.Lib.DepthFirst

/-!
# Incoming Loads

`get_incoming_loads` follows operands from a value until it meets an argument, a load or a
call. PHI nodes can close cycles of operands, so it keeps a set of seen values, which all
branches of the recursion share.
-/

open Relation

namespace Clou.Leakage

section Definitions

variable {ν : Type} [LinearOrder ν]

/-- `llvm::isa<llvm::Argument>(V)` -/
def IRFunction.isArgument (F : IRFunction ν) (V : ν) : Bool := decide (V ∈ F.args)

/-- `out` is the set that the output iterator inserts into. -/
def getIncomingLoadsRec (F : IRFunction ν) :
    Nat → ν → OrdSet ν × OrdSet ν → Exec (OrdSet ν × OrdSet ν)
  | 0, _, _ => throw .outOfFuel
  | fuel + 1, V, (out, seen) =>
    if V ∈ seen then pure (out, seen)
    else
      let seen := seen.insert V
      if V ∈ F.args then pure (out.insert V, seen)
      else
        match F.instruction? V with
        | none => pure (out, seen)
        | some I =>
          match I.kind with
          | .load _ _ => pure (out.insert V, seen)
          | .intrinsic _ _ _ _ => pure (out.insert V, seen)
          | .call _ _ _ => pure (out.insert V, seen)
          | .operation .phi incomingValues =>
            incomingValues.foldlM (fun s op => getIncomingLoadsRec F fuel op s) (out, seen)
          | _ => I.operands.foldlM (fun s op => getIncomingLoadsRec F fuel op s) (out, seen)

def getIncomingLoads (F : IRFunction ν) (fuel : Nat) (V : ν) : Exec (OrdSet ν) := do
  let (set, _) ← getIncomingLoadsRec F fuel V (∅, ∅)
  pure set

end Definitions

/-! ## Chains of Operands -/

section Chains

variable {ν : Type}

/-- `isa<LoadInst, CallBase>` -/
def Instruction.isLoadOrCall (I : Instruction ν) : Bool :=
  match I.kind with
  | .load _ _ => true
  | .intrinsic _ _ _ _ => true
  | .call _ _ _ => true
  | _ => false

/-- The value is an argument, a load or a call. -/
def IRFunction.IsIncomingLoad (F : IRFunction ν) (W : ν) : Prop :=
  W ∈ F.args ∨ ∃ I ∈ F.instructions, I.id = W ∧ I.isLoadOrCall = true

/-- The value is an instruction other than a load or a call, with this operand. -/
def IRFunction.OperandEdge (F : IRFunction ν) (V W : ν) : Prop :=
  V ∉ F.args ∧ ∃ I ∈ F.instructions, I.id = V ∧ I.isLoadOrCall = false ∧ W ∈ I.operands

end Chains

section Search

variable {ν : Type} [LinearOrder ν] {F : IRFunction ν} {V W : ν}

/-- The operands that are followed. -/
def IRFunction.followed (F : IRFunction ν) (V : ν) : List ν :=
  if V ∈ F.args then []
  else
    match F.instruction? V with
    | some I => if I.isLoadOrCall then [] else I.operands
    | none => []

instance (F : IRFunction ν) (V : ν) : Decidable (F.IsIncomingLoad V) :=
  inferInstanceAs (Decidable (_ ∨ ∃ I ∈ F.instructions, _))

/-- `*out++ = V`, for the values that are looked for. -/
def IRFunction.emit (F : IRFunction ν) (V : ν) (out : OrdSet ν) : OrdSet ν :=
  if F.IsIncomingLoad V then out.insert V else out

theorem mem_followed : W ∈ F.followed V ↔ F.OperandEdge V W := by
  unfold IRFunction.followed IRFunction.OperandEdge
  by_cases harg : V ∈ F.args
  · simp [harg]
  rw [if_neg harg]
  constructor
  · intro hW
    cases hfind : F.instruction? V with
    | none => simp [hfind] at hW
    | some I =>
      obtain ⟨hI, hid⟩ := IRFunction.instruction?_eq_some.mp hfind
      cases hkind : I.isLoadOrCall with
      | true => simp [hfind, hkind] at hW
      | false => exact ⟨harg, I, hI, hid, hkind, by simpa [hfind, hkind] using hW⟩
  · rintro ⟨-, I, hI, hid, hkind, hW⟩
    simpa [IRFunction.instruction?_eq_some.mpr ⟨hI, hid⟩, hkind] using hW

/-- Whether an instruction is one that is looked for. -/
theorem isIncomingLoad_iff {I : Instruction ν} (harg : V ∉ F.args)
    (hfind : F.instruction? V = some I) : F.IsIncomingLoad V ↔ I.isLoadOrCall = true := by
  obtain ⟨hI, hid⟩ := IRFunction.instruction?_eq_some.mp hfind
  constructor
  · rintro (h | ⟨J, hJ, hid', hkind⟩)
    · exact absurd h harg
    · rwa [IRFunction.eq_of_id hI hJ (hid.trans hid'.symm)]
  · exact fun hkind => .inr ⟨I, hI, hid, hkind⟩

theorem not_isIncomingLoad (harg : V ∉ F.args) (hfind : F.instruction? V = none) :
    ¬ F.IsIncomingLoad V := by
  rintro (h | ⟨I, hI, hid, -⟩)
  · exact harg h
  · rw [IRFunction.instruction?_eq_some.mpr ⟨hI, hid⟩] at hfind
    cases hfind

/-- The result of a search as the result of the call. -/
def ofSearch : Option (OrdSet ν × OrdSet ν) → Exec (OrdSet ν × OrdSet ν)
  | some (seen, out) => .ok (out, seen)
  | none => .error .outOfFuel

theorem foldlM_ofSearch {rec : ν → OrdSet ν × OrdSet ν → Exec (OrdSet ν × OrdSet ν)}
    {search : ν → OrdSet ν × OrdSet ν → Option (OrdSet ν × OrdSet ν)}
    (hrec : ∀ V out seen, rec V (out, seen) = ofSearch (search V (seen, out)))
    (operands : List ν) (out seen : OrdSet ν) :
    operands.foldlM (fun s op => rec op s) (out, seen) =
      ofSearch (operands.foldlM (fun s op => search op s) (seen, out)) := by
  induction operands generalizing out seen with
  | nil => rfl
  | cons V operands ih =>
    rw [List.foldlM_cons, List.foldlM_cons, hrec]
    cases search V (seen, out) with
    | none => rfl
    | some s => exact ih s.2 s.1

/-- The recursion is a depth-first search along the operands that are followed. -/
theorem getIncomingLoadsRec_eq_dfs (fuel : Nat) (V : ν) (out seen : OrdSet ν) :
    getIncomingLoadsRec F fuel V (out, seen) =
      ofSearch (DepthFirst.dfs F.emit F.followed fuel V (seen, out)) := by
  induction fuel generalizing V out seen with
  | zero => rfl
  | succ fuel ih =>
    unfold getIncomingLoadsRec DepthFirst.dfs
    by_cases hseen : V ∈ seen
    · simp only [hseen, if_true]
      rfl
    rw [if_neg hseen, if_neg hseen]
    by_cases harg : V ∈ F.args
    · simp only [harg, if_true, IRFunction.followed, IRFunction.emit, IRFunction.IsIncomingLoad,
        true_or]
      rfl
    simp only [harg, if_false, IRFunction.followed, IRFunction.emit]
    cases hfind : F.instruction? V with
    | none =>
      rw [if_neg (not_isIncomingLoad harg hfind)]
      rfl
    | some I =>
      have hfold := foldlM_ofSearch ih I.operands out (seen.insert V)
      dsimp only
      by_cases hkind : I.isLoadOrCall = true
      · rw [if_pos ((isIncomingLoad_iff harg hfind).mpr hkind), if_pos hkind]
        unfold Instruction.isLoadOrCall at hkind
        cases h : I.kind with
        | load | intrinsic | call => rfl
        | _ => simp [h] at hkind
      · rw [if_neg (mt (isIncomingLoad_iff harg hfind).mp hkind), if_neg hkind, ← hfold]
        unfold Instruction.isLoadOrCall at hkind
        unfold Instruction.operands
        cases h : I.kind with
        | load | intrinsic | call => simp [h] at hkind
        | operation op operands =>
          -- A PHI node has its incoming values as operands, so it is no special case.
          cases op <;> rfl
        | _ => rfl

theorem mem_foldl_emit {order : List ν} {out : OrdSet ν} :
    W ∈ order.foldl (fun out V => F.emit V out) out ↔
      W ∈ out ∨ W ∈ order ∧ F.IsIncomingLoad W := by
  induction order generalizing out with
  | nil => simp
  | cons V order ih =>
    rw [List.foldl_cons, ih, List.mem_cons, IRFunction.emit]
    split_ifs with hV
    · rw [OrdSet.mem_insert]
      constructor
      · rintro ((rfl | hW) | hW)
        · exact .inr ⟨.inl rfl, hV⟩
        · exact .inl hW
        · exact .inr ⟨.inr hW.1, hW.2⟩
      · rintro (hW | ⟨rfl | hW, hin⟩)
        · exact .inl (.inr hW)
        · exact .inl (.inl rfl)
        · exact .inr ⟨hW, hin⟩
    · refine or_congr_right (and_congr_left fun hW => ?_)
      exact ⟨.inr, fun h => h.resolve_left fun heq => hV (heq ▸ hW)⟩

/-- With fuel for as many calls as there are values the recursion ends, also on cyclic values.
Its result is the arguments, loads and calls at the ends of the chains. -/
theorem getIncomingLoads_spec (F : IRFunction ν) (V : ν) {fuel : Nat}
    (hfuel : F.values.length + 2 ≤ fuel) : ∃ loads, getIncomingLoads F fuel V = .ok loads ∧
      ∀ W, W ∈ loads ↔ F.IsIncomingLoad W ∧ ReflTransGen F.OperandEdge V W := by
  have hclosed : ∀ u ∈ insert V F.values.toFinset, ∀ v ∈ F.followed u,
      v ∈ insert V F.values.toFinset := fun u _ v hv => by
    obtain ⟨-, I, hI, -, -, hmem⟩ := mem_followed.mp hv
    exact Finset.mem_insert_of_mem (List.mem_toFinset.mpr (IRFunction.operand_mem_values hI hmem))
  have hcard : (insert V F.values.toFinset).card < fuel := by
    have hinsert := Finset.card_insert_le V F.values.toFinset
    have hlength := List.toFinset_card_le F.values
    omega
  have hstep : DepthFirst.Step F.followed = F.OperandEdge := by
    funext u v
    exact propext mem_followed
  obtain ⟨seen, order, horder, hret⟩ :=
    DepthFirst.dfs_spec F.emit ∅ hclosed (Finset.mem_insert_self _ _) hcard
  refine ⟨order.foldl (fun out V => F.emit V out) ∅, ?_, fun W => ?_⟩
  · unfold getIncomingLoads
    rw [getIncomingLoadsRec_eq_dfs, hret]
    rfl
  · rw [mem_foldl_emit, horder, hstep, and_comm]
    simp

/-- The recursion ends, also on cyclic values, and its result is exactly the arguments, loads
and calls at the end of a chain of operands through instructions that are no loads or calls. -/
theorem getIncomingLoads_exact (F : IRFunction ν) : ∃ N, ∀ V, ∃ loads,
    (∀ fuel ≥ N, getIncomingLoads F fuel V = .ok loads) ∧
    ∀ W, W ∈ loads ↔ F.IsIncomingLoad W ∧ ReflTransGen F.OperandEdge V W := by
  refine ⟨F.values.length + 2, fun V => ?_⟩
  obtain ⟨loads, -, hloads⟩ := getIncomingLoads_spec F V le_rfl
  refine ⟨loads, fun fuel hfuel => ?_, hloads⟩
  obtain ⟨loads', hret, hloads'⟩ := getIncomingLoads_spec F V hfuel
  obtain rfl : loads' = loads := OrdSet.ext fun W => (hloads' W).trans (hloads W).symm
  exact hret

end Search

end Clou.Leakage
