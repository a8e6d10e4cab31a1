-- SUMMARY: Instructions as the leak and taint analyses read them: their operands, what they access, and the operands that they transmit.
import Serberus.Exec
import Serberus.SpeculativeTaint.Run

/-!
# Instructions

Values are pointers: instructions, arguments, constants and blocks are told apart only by
what the function says of them, and sets of values are ordered by address.
-/

namespace Clou.Leakage

open SpeculativeTaint (IntrinsicID AliasResult)

/-- The intrinsics that the analyses list. -/
inductive Intrinsic where
  | memset
  | memcpy
  | x86Sse2Lfence
  | other (id : IntrinsicID)
  deriving DecidableEq

/-- The instructions that the analyses tell apart by their class only. -/
inductive Operation where
  | cmp
  | cast
  | phi
  | select
  | freeze
  | getElementPtr
  | extractElement
  | insertElement
  | shuffleVector
  | extractValue
  | insertValue
  | alloca
  | landingPad
  | fence
  /-- Any other instruction. -/
  | unlisted (mayWriteToMemory : Bool)
  deriving DecidableEq

/-- The instructions, `ν` being the values. -/
inductive Kind (ν : Type) where
  | load (ptr : ν) (isUnordered : Bool)
  | store (value ptr : ν)
  | atomicRMW (ptr val : ν)
  | atomicCmpXchg (ptr cmp newVal : ν)
  | branch (condition : Option ν) (dests : List ν)
  | switch (condition : ν) (rest : List ν)
  | intrinsic (id : Intrinsic) (assumeLike : Bool) (args : List ν) (calledOperand : ν)
  /-- Any other `CallBase`; `rest` are its bundle operands and destinations. -/
  | call (args rest : List ν) (calledOperand : ν)
  | ret (value : Option ν)
  | resume (value : ν)
  | binaryOperator (division : Bool) (operands : List ν)
  | unaryOperator (fneg : Bool) (operand : ν)
  | operation (op : Operation) (operands : List ν)
  deriving DecidableEq

structure Instruction (ν : Type) where
  id : ν
  isVoidTy : Bool
  isPointerTy : Bool
  kind : Kind ν
  deriving DecidableEq

/-- The blocks in layout order; no instruction occurs twice. -/
structure IRFunction (ν : Type) where
  blocks : List (List (Instruction ν))
  args : List ν
  nodup : (blocks.flatten.map (·.id)).Nodup

/-- What the passes ask of other analyses and of values, and their options. -/
structure Oracles (ν : Type) where
  aliasResult : ν → ν → AliasResult
  /-- `isa<BasicBlock, InlineAsm, Constant>` -/
  isConstantLike : ν → Bool
  unsafeAA : Bool
  strictCallingConv : Bool

section Operands

variable {ν : Type}

def Kind.operands : Kind ν → List ν
  | .load ptr _ => [ptr]
  | .store value ptr => [value, ptr]
  | .atomicRMW ptr val => [ptr, val]
  | .atomicCmpXchg ptr cmp newVal => [ptr, cmp, newVal]
  | .branch condition dests => condition.toList ++ dests
  | .switch condition rest => condition :: rest
  | .intrinsic _ _ args calledOperand => args ++ [calledOperand]
  | .call args rest calledOperand => args ++ rest ++ [calledOperand]
  | .ret value => value.toList
  | .resume value => [value]
  | .binaryOperator _ operands => operands
  | .unaryOperator _ operand => [operand]
  | .operation _ operands => operands

def Instruction.operands (I : Instruction ν) : List ν := I.kind.operands

def getPointerOperand (I : Instruction ν) : Option ν :=
  match I.kind with
  | .store _ ptr => some ptr
  | .load ptr _ => some ptr
  | .atomicRMW ptr _ => some ptr
  | .atomicCmpXchg ptr _ _ => some ptr
  | _ => none

def getAccessOperands (I : Instruction ν) : List ν :=
  match I.kind with
  | .store value _ => [value]
  | .load _ _ => [I.id]
  | .atomicRMW _ val => [val, I.id]
  | .atomicCmpXchg _ cmp newVal => [cmp, newVal, I.id]
  | _ => []

def getValueOperands (I : Instruction ν) : Exec (List ν) :=
  match I.kind with
  | .store value _ => pure [value]
  | .atomicRMW _ val => pure [val]
  | .atomicCmpXchg _ cmp newVal => pure [cmp, newVal]
  | _ => throw .exit

/-- `mayWriteToMemory()`, for calls not told apart. -/
def Kind.mayWriteToMemory : Kind ν → Bool
  | .load _ isUnordered => !isUnordered
  | .store _ _ => true
  | .atomicRMW _ _ => true
  | .atomicCmpXchg _ _ _ => true
  | .intrinsic _ _ _ _ => true
  | .call _ _ _ => true
  | .operation .fence _ => true
  | .operation (.unlisted mayWriteToMemory) _ => mayWriteToMemory
  | _ => false

namespace IRFunction

variable (F : IRFunction ν)

def instructions : List (Instruction ν) := F.blocks.flatten

/-- `dyn_cast<Instruction>(V)` -/
def instruction? [DecidableEq ν] (V : ν) : Option (Instruction ν) :=
  F.instructions.find? (·.id = V)

/-- The values that occur in the function. -/
def values : List ν :=
  F.args ++ F.instructions.flatMap fun I => I.id :: I.operands

variable {F}

theorem eq_of_id {I J : Instruction ν} (hI : I ∈ F.instructions) (hJ : J ∈ F.instructions)
    (h : I.id = J.id) : I = J :=
  List.inj_on_of_nodup_map F.nodup hI hJ h

theorem instruction?_eq_some [DecidableEq ν] {V : ν} {I : Instruction ν} :
    F.instruction? V = some I ↔ I ∈ F.instructions ∧ I.id = V := by
  constructor
  · intro h
    exact ⟨List.mem_of_find?_eq_some h, by simpa using List.find?_some h⟩
  · rintro ⟨hI, rfl⟩
    unfold instruction?
    cases hfind : F.instructions.find? (·.id = I.id) with
    | none =>
      have hnone := List.find?_eq_none.mp hfind I hI
      simp at hnone
    | some J =>
      have hJ : J.id = I.id := by simpa using List.find?_some hfind
      rw [eq_of_id (List.mem_of_find?_eq_some hfind) hI hJ]

theorem id_mem_values {I : Instruction ν} (hI : I ∈ F.instructions) : I.id ∈ F.values :=
  List.mem_append_right _ (List.mem_flatMap.mpr ⟨I, hI, .head _⟩)

theorem operand_mem_values {I : Instruction ν} (hI : I ∈ F.instructions) {V : ν}
    (hV : V ∈ I.operands) : V ∈ F.values :=
  List.mem_append_right _ (List.mem_flatMap.mpr ⟨I, hI, .tail _ hV⟩)

end IRFunction

theorem getAccessOperands_mem {I : Instruction ν} {V : ν} (hV : V ∈ getAccessOperands I) :
    V = I.id ∨ V ∈ I.operands := by
  unfold getAccessOperands at hV
  split at hV <;> simp_all [Instruction.operands, Kind.operands]
  all_goals tauto

end Operands

/-! ## Transmitters -/

inductive TransmitterOperand.Kind where
  | true
  | pseudo
  deriving DecidableEq

structure TransmitterOperand (ν : Type) where
  kind : TransmitterOperand.Kind
  V : ν
  deriving DecidableEq

section Transmitters

variable {ν : Type}

/-- `leaked_args` of an intrinsic with `n` arguments, `none` where the intrinsic is not listed. -/
def leakedArgs (n : Nat) : Intrinsic → Option (List Nat)
  | .memset => some [0, 2, 3]
  | .memcpy => some (List.range n)
  | .x86Sse2Lfence => none
  | .other .experimentalConstrainedFdiv => some (List.range n)
  | .other .maskedLoad => some [0, 1]
  | .other .maskedGather => some [0, 1]
  | .other .ehTypeidFor => some [0]
  | .other .floor => none
  | .other .stacksave => none
  | .other .x86Rdrand32 => none
  | .other .annotationIntrinsic => none
  | .other (.unlisted _) => none
  | .other _ => some []

/-- `II->getArgOperand(i)` -/
def getArgOperand (args : List ν) (i : Nat) : Exec ν :=
  match args[i]? with
  | some V => pure V
  | none => throw .outOfRange

/-- The operands that an instruction transmits. The code puts them in a set before its callers
go through them. -/
def getTransmitterSensitiveOperands (I : Instruction ν) : Exec (List (TransmitterOperand ν)) :=
  if I.operands.length = 0 then pure []
  else match I.kind with
    | .load ptr _ => pure [⟨.true, ptr⟩]
    | .store _ ptr => pure [⟨.true, ptr⟩]
    | .atomicRMW ptr _ => pure [⟨.true, ptr⟩]
    | .atomicCmpXchg ptr _ _ => pure [⟨.true, ptr⟩]
    | .branch condition _ => pure (condition.toList.map (⟨.true, ·⟩))
    | .switch condition _ => pure [⟨.true, condition⟩]
    | .intrinsic id assumeLike args _ =>
      if !assumeLike && !I.isVoidTy && 0 < args.length && id ≠ .other .annotationIntrinsic then
        match leakedArgs args.length id with
        | some leakedArgs => leakedArgs.mapM fun i => do
          let V ← getArgOperand args i
          pure ⟨.pseudo, V⟩
        | none => throw .exit
      else pure []
    | .call args _ calledOperand => pure (⟨.true, calledOperand⟩ :: args.map (⟨.pseudo, ·⟩))
    | .ret value => pure (value.toList.map (⟨.pseudo, ·⟩))
    | .resume value => pure [⟨.pseudo, value⟩]
    | .binaryOperator division operands =>
      if division then pure (operands.map (⟨.true, ·⟩)) else pure []
    | .unaryOperator _ _ => pure []
    | .operation .fence _ => throw .exit
    | .operation (.unlisted _) _ => throw .exit
    | .operation _ _ => pure []

/-- `V` is an operand that the instruction transmits. -/
def Sensitive (I : Instruction ν) (V : ν) : Prop :=
  ∃ ops, getTransmitterSensitiveOperands I = .ok ops ∧ ∃ op ∈ ops, op.V = V

theorem getArgOperand_mem {args : List ν} {i : Nat} {V : ν} (h : getArgOperand args i = .ok V) :
    V ∈ args := by
  unfold getArgOperand at h
  cases hget : args[i]? with
  | none =>
    rw [hget] at h
    cases h
  | some W =>
    rw [hget] at h
    cases h
    exact List.mem_of_getElem? hget

theorem Sensitive.mem_operands {I : Instruction ν} {V : ν} (h : Sensitive I V) : V ∈ I.operands := by
  obtain ⟨ops, hret, op, hop, rfl⟩ := h
  unfold getTransmitterSensitiveOperands at hret
  unfold Instruction.operands
  split_ifs at hret with hlength
  · cases hret
    cases hop
  · cases hkind : I.kind with
    | intrinsic id assumeLike args calledOperand =>
      simp only [hkind] at hret
      split_ifs at hret
      · cases hargs : leakedArgs args.length id with
        | none =>
          simp only [hargs] at hret
          cases hret
        | some leaked =>
          simp only [hargs] at hret
          obtain ⟨i, -, hi⟩ := Exec.exists_of_mem_mapM hret hop
          obtain ⟨V, hV, hi⟩ := Exec.bind_eq_ok.mp hi
          cases hi
          exact List.mem_append_left _ (getArgOperand_mem hV)
      · cases hret
        cases hop
    | operation op operands =>
      cases op with
      | fence | unlisted =>
        simp only [hkind] at hret
        cases hret
      | _ =>
        simp only [hkind] at hret
        cases hret
        cases hop
    | unaryOperator fneg operand =>
      simp only [hkind] at hret
      cases hret
      cases hop
    | binaryOperator division operands =>
      simp only [hkind] at hret
      split_ifs at hret <;> cases hret
      · obtain ⟨V, hV, rfl⟩ := List.mem_map.mp hop
        exact hV
      · cases hop
    | branch condition dests =>
      simp only [hkind] at hret
      cases hret
      obtain ⟨V, hV, rfl⟩ := List.mem_map.mp hop
      exact List.mem_append_left _ hV
    | ret value =>
      simp only [hkind] at hret
      cases hret
      obtain ⟨V, hV, rfl⟩ := List.mem_map.mp hop
      exact hV
    | call args rest calledOperand =>
      simp only [hkind] at hret
      cases hret
      rcases List.mem_cons.mp hop with rfl | hop
      · exact List.mem_append_right _ (.head _)
      · obtain ⟨V, hV, rfl⟩ := List.mem_map.mp hop
        exact List.mem_append_left _ (List.mem_append_left _ hV)
    | _ =>
      simp only [hkind] at hret
      cases hret
      obtain rfl := List.mem_singleton.mp hop
      simp [Kind.operands]

end Transmitters

end Clou.Leakage
