-- SUMMARY: The rules of publicity behind the contract checker, and where public values occur.
import Mathlib.Data.Set.Card
import Serberus.Contract.Checker

/-!
# The Rules of Publicity

Which values are public is stated by rules, without an order of the instructions, and so is
what a function has to meet to obey the contract.
-/

namespace Clou.Contract

open Leakage

/-- That a value is public, or the memory behind a pointer. -/
inductive Fact (ν : Type) where
  | value (V : ν)
  | memory (ptr : ν)

section Rules

variable {ν : Type} [LinearOrder ν]

/-- The operands that transmit what is in them for certain. -/
def TransmitsTrue (I : Instruction ν) (V : ν) : Prop :=
  ∃ ops, getTransmitterSensitiveOperands I = .ok ops ∧ ⟨.true, V⟩ ∈ ops

/-- The instruction says that the value is public. -/
def AnnotatesPublic (Q : Queries ν) (I : Instruction ν) (V : ν) : Prop :=
  ∃ assumeLike args called string,
    I.kind = .intrinsic (.other .annotationIntrinsic) assumeLike args called ∧
      args[1]? = some string ∧ Q.cString string = some "public" ∧ args[0]? = some V

/-- The module says that the return values of the function are public. -/
def ReturnsPublic (Q : Queries ν) : Prop :=
  ∃ CS ∈ Q.annotations, 2 ≤ CS.numOperands ∧ CS.annotated = some Q.function ∧
    CS.text = some "public"

/-- The rules of publicity. -/
inductive Public (Q : Queries ν) (F : IRFunction ν) : Fact ν → Prop
  | argument {A : ν} (hA : A ∈ F.args) (hpointer : Q.isPointerTy A = true) : Public Q F (.value A)
  | annotated {I : Instruction ν} {V : ν} (hI : I ∈ F.instructions)
      (hV : AnnotatesPublic Q I V) : Public Q F (.value V)
  | returned {I : Instruction ν} {V : ν} (hreturns : ReturnsPublic Q) (hI : I ∈ F.instructions)
      (hV : getReturnValue I = some V) : Public Q F (.value V)
  | pointer {I : Instruction ν} (hI : I ∈ F.instructions) (hpointer : I.isPointerTy = true) :
      Public Q F (.value I.id)
  | transmitted {I : Instruction ν} {V : ν} (hI : I ∈ F.instructions) (hV : TransmitsTrue I V) :
      Public Q F (.value V)
  | callArg {I : Instruction ν} {args rest : List ν} {called V : ν} (hI : I ∈ F.instructions)
      (hkind : I.kind = .call args rest called) (hV : V ∈ args) : Public Q F (.value V)
  | callResult {I : Instruction ν} {args rest : List ν} {called : ν} (hI : I ∈ F.instructions)
      (hkind : I.kind = .call args rest called) (hvoid : I.isVoidTy = false) :
      Public Q F (.value I.id)
  | loadMemory {I : Instruction ν} {ptr : ν} {isUnordered : Bool} (hI : I ∈ F.instructions)
      (hkind : I.kind = .load ptr isUnordered) (h : Public Q F (.value I.id)) :
      Public Q F (.memory ptr)
  | backward {I : Instruction ν} {ops : List ν} {V : ν} (hI : I ∈ F.instructions)
      (hops : backwardOperands I = .ok ops) (h : Public Q F (.value I.id)) (hV : V ∈ ops) :
      Public Q F (.value V)
  | forward {I : Instruction ν} {ops : List ν} (hI : I ∈ F.instructions)
      (hvoid : I.isVoidTy = false) (hlength : 0 < I.operands.length)
      (hops : forwardOperands I = .ok (some ops))
      (h : ∀ V ∈ ops, Q.isConstant V = false → Public Q F (.value V)) : Public Q F (.value I.id)
  | loaded {I : Instruction ν} {V : ν} (hI : I ∈ F.instructions)
      (hV : storedValue Q F I = .ok (some V))
      (h : Q.isConstant V = false → Public Q F (.value V)) : Public Q F (.value I.id)
  | stored {I : Instruction ν} {V : ν} (hI : I ∈ F.instructions)
      (hV : storedValue Q F I = .ok (some V))
      (h : Q.isConstant I.id = false → Public Q F (.value I.id)) : Public Q F (.value V)

/-- All arguments and return values are public. -/
structure Obeys (Q : Queries ν) (F : IRFunction ν) : Prop where
  args : ∀ A ∈ F.args, Public Q F (.value A)
  returns : ∀ I ∈ F.instructions, ∀ V, getReturnValue I = some V → Q.isConstant V = false →
    Public Q F (.value V)

/-- The checker has a case for the instruction. Addresses are computed and allocated as pointers,
not as vectors of them. -/
def Handled (I : Instruction ν) : Prop :=
  match I.kind with
  | .load _ _ => True
  | .binaryOperator _ _ => True
  | .operation op _ => carriesForwards op = true ∨ carriesNothing op = true ∨
      carriesBackwards op = true ∧ I.isPointerTy = true
  | .intrinsic id _ args _ => carries id = true ∨ id = .other .annotationIntrinsic ∧ args ≠ []
  | .call _ _ _ => True
  | _ => False

/-- What the checker relies on: LLVM's types, and that it has a case for what it meets. -/
structure Assumptions (Q : Queries ν) (F : IRFunction ν) : Prop where
  void : ∀ I ∈ F.instructions, I.isVoidTy = true →
    I.isPointerTy = false ∧ I.id ∉ F.args ∧ ∀ J ∈ F.instructions, I.id ∉ J.operands
  load : ∀ I ∈ F.instructions, ∀ ptr isUnordered, I.kind = .load ptr isUnordered →
    I.isVoidTy = false
  functions : ∀ CS ∈ Q.annotations, 2 ≤ CS.numOperands → ∃ G, CS.annotated = some G
  annotation : ∀ I ∈ F.instructions, ∀ assumeLike args called,
    I.kind = .intrinsic (.other .annotationIntrinsic) assumeLike args called → 2 ≤ args.length
  transmitters : ∀ I ∈ F.instructions, ∃ ops, getTransmitterSensitiveOperands I = .ok ops
  handled : ∀ I ∈ F.instructions, I.isVoidTy = false → 0 < I.operands.length → Handled I
  stores : ∀ I ∈ F.instructions, ∃ V, storedValue Q F I = .ok V

end Rules

/-! ## Occurrences -/

section Occurs

variable {ν : Type} [LinearOrder ν] {Q : Queries ν} {F : IRFunction ν} {I : Instruction ν} {V : ν}

omit [LinearOrder ν] in
theorem TransmitsTrue.mem_operands (h : TransmitsTrue I V) : V ∈ I.operands := by
  obtain ⟨ops, hret, hV⟩ := h
  exact Sensitive.mem_operands ⟨ops, hret, _, hV, rfl⟩

omit [LinearOrder ν] in
theorem mem_operands_of_getReturnValue (h : getReturnValue I = some V) : V ∈ I.operands := by
  unfold getReturnValue at h
  unfold Instruction.operands
  cases hkind : I.kind with
  | ret value =>
    simp only [hkind] at h
    simp [Kind.operands, h]
  | _ => simp [hkind] at h

omit [LinearOrder ν] in
theorem mem_operands_of_backwardOperands {ops : List ν} (h : backwardOperands I = .ok ops)
    (hV : V ∈ ops) : V ∈ I.operands := by
  unfold backwardOperands at h
  unfold Instruction.operands
  cases hkind : I.kind with
  | binaryOperator division operands =>
    simp only [hkind] at h
    cases h
    exact hV
  | operation op operands =>
    simp only [hkind] at h
    split_ifs at h
    · cases h
      exact hV
    · cases h
      cases hV
  | intrinsic id assumeLike args called =>
    simp only [hkind] at h
    split_ifs at h
    · cases h
      exact List.mem_append_left _ hV
    · obtain ⟨W, hW, h⟩ := Exec.bind_eq_ok.mp h
      cases h
      obtain rfl := List.mem_singleton.mp hV
      exact List.mem_append_left _ (getArgOperand_mem hW)
  | call args rest called =>
    simp only [hkind] at h
    cases h
    cases hV
  | _ =>
    simp only [hkind] at h
    cases h

/-- A stored value is an operand of the store. -/
theorem mem_operands_of_storedValue (h : storedValue Q F I = .ok (some V)) :
    (∃ ptr isUnordered, I.kind = .load ptr isUnordered) ∧ ∃ J ∈ F.instructions, V ∈ J.operands := by
  unfold storedValue at h
  cases hkind : I.kind with
  | load ptr isUnordered =>
    refine ⟨⟨ptr, isUnordered, rfl⟩, ?_⟩
    simp only [hkind] at h
    cases hdep : Q.getDependency I.id with
    | definition inst =>
      simp only [hdep] at h
      split at h
      · next id isVoid isPointer value sptr hfind =>
        cases h
        exact ⟨_, (IRFunction.instruction?_eq_some.mp hfind).1, .head _⟩
      · cases h
    | _ =>
      simp only [hdep] at h
      cases h
  | _ =>
    simp only [hkind] at h
    cases h

/-- Where public values and pointers to public memory stand. -/
def Occurs (F : IRFunction ν) : Fact ν → Prop
  | .value V => V ∈ F.args ∨ (∃ J ∈ F.instructions, V ∈ J.operands) ∨
      ∃ J ∈ F.instructions, J.isVoidTy = false ∧ J.id = V
  | .memory ptr => ∃ J ∈ F.instructions, ptr ∈ J.operands

theorem Public.occurs (h : Assumptions Q F) {e : Fact ν} (hpublic : Public Q F e) : Occurs F e := by
  have hoperand {J : Instruction ν} {V : ν} (hJ : J ∈ F.instructions) (hV : V ∈ J.operands) :
      Occurs F (.value V) := .inr (.inl ⟨J, hJ, hV⟩)
  have hresult {J : Instruction ν} (hJ : J ∈ F.instructions) (hvoid : J.isVoidTy = false) :
      Occurs F (.value J.id) := .inr (.inr ⟨J, hJ, hvoid, rfl⟩)
  cases hpublic with
  | argument hA _ => exact .inl hA
  | annotated hI hV =>
    obtain ⟨assumeLike, args, called, string, hkind, -, -, hV⟩ := hV
    refine hoperand hI ?_
    rw [Instruction.operands, hkind]
    exact List.mem_append_left _ (List.mem_of_getElem? hV)
  | returned _ hI hV => exact hoperand hI (mem_operands_of_getReturnValue hV)
  | @pointer I hI hpointer =>
    cases hvoid : I.isVoidTy with
    | true => simp [(h.void I hI hvoid).1] at hpointer
    | false => exact hresult hI hvoid
  | transmitted hI hV => exact hoperand hI hV.mem_operands
  | callArg hI hkind hV =>
    refine hoperand hI ?_
    rw [Instruction.operands, hkind]
    exact List.mem_append_left _ (List.mem_append_left _ hV)
  | callResult hI _ hvoid => exact hresult hI hvoid
  | loadMemory hI hkind _ =>
    refine ⟨_, hI, ?_⟩
    rw [Instruction.operands, hkind]
    exact .head _
  | backward hI hops _ hV => exact hoperand hI (mem_operands_of_backwardOperands hops hV)
  | forward hI hvoid _ _ _ => exact hresult hI hvoid
  | loaded hI hV _ =>
    obtain ⟨⟨ptr, isUnordered, hkind⟩, -⟩ := mem_operands_of_storedValue hV
    exact hresult hI (h.load _ hI ptr isUnordered hkind)
  | stored hI hV _ => exact .inr (.inl (mem_operands_of_storedValue hV).2)

theorem Public.not_void (h : Assumptions Q F) (hI : I ∈ F.instructions)
    (hpublic : Public Q F (.value I.id)) : I.isVoidTy = false := by
  by_contra hvoid
  obtain ⟨-, harg, hoperand⟩ := h.void I hI (Bool.eq_true_of_not_eq_false hvoid)
  rcases hpublic.occurs h with hmem | ⟨J, hJ, hmem⟩ | ⟨J, hJ, hvoid', hid⟩
  · exact harg hmem
  · exact hoperand J hJ hmem
  · exact hvoid (IRFunction.eq_of_id hJ hI hid ▸ hvoid')

theorem finite_public (h : Assumptions Q F) : {e | Public Q F e}.Finite ∧
    {e | Public Q F e}.ncard ≤ 2 * F.values.length := by
  have hsub : {e | Public Q F e} ⊆
      Fact.value '' F.values.toFinset ∪ Fact.memory '' F.values.toFinset := by
    intro e he
    have hoccurs := Public.occurs h he
    cases e with
    | value V =>
      refine .inl ⟨V, Finset.mem_coe.mpr (List.mem_toFinset.mpr ?_), rfl⟩
      rcases hoccurs with hmem | ⟨J, hJ, hmem⟩ | ⟨J, hJ, -, rfl⟩
      · exact List.mem_append_left _ hmem
      · exact IRFunction.operand_mem_values hJ hmem
      · exact IRFunction.id_mem_values hJ
    | memory ptr =>
      obtain ⟨J, hJ, hmem⟩ := hoccurs
      exact .inr ⟨ptr, Finset.mem_coe.mpr
        (List.mem_toFinset.mpr (IRFunction.operand_mem_values hJ hmem)), rfl⟩
  have hfinite : (Fact.value '' (F.values.toFinset : Set ν) ∪
      Fact.memory '' (F.values.toFinset : Set ν)).Finite :=
    (F.values.toFinset.finite_toSet.image _).union (F.values.toFinset.finite_toSet.image _)
  refine ⟨hfinite.subset hsub, (Set.ncard_le_ncard hsub hfinite).trans ?_⟩
  have hcard (f : ν → Fact ν) : (f '' (F.values.toFinset : Set ν)).ncard ≤ F.values.length :=
    (Set.ncard_image_le F.values.toFinset.finite_toSet).trans
      ((Set.ncard_coe_finset _).trans_le (List.toFinset_card_le _))
  refine (Set.ncard_union_le _ _).trans ?_
  rw [two_mul]
  exact Nat.add_le_add (hcard _) (hcard _)

end Occurs

end Clou.Contract
