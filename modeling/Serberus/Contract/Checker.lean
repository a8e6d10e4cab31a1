-- SUMMARY: The contract checker, as the code computes it: rounds of publicity propagation, and the verdict on arguments and return values.
import Serberus.Leakage.LeakAnalysis

/-!
# The Contract Checker

The calling convention asks for public arguments and return values. The checker collects the
values that a function treats as public, in rounds over the instructions that carry publicity
from results to operands, from operands to results, and between a load and the store that it
reads from. It rejects a function with an argument or a return value that is not among them.
-/

namespace Clou.Contract

open Leakage

/-- An entry of `llvm.global.annotations`. -/
structure AnnotatedValue (ν : Type) where
  numOperands : Nat
  /-- The function that is annotated, `none` where the entry is about something else. -/
  annotated : Option ν
  /-- `getAsCString()`, `none` where the entry has no such string. -/
  text : Option String

/-- What `getDependency` answers. -/
inductive MemDepResult (ν : Type) where
  | nonLocal
  | definition (inst : ν)
  | other

/-- What the checker asks of values and of other analyses. -/
structure Queries (ν : Type) where
  function : ν
  /-- `isa<Constant>` -/
  isConstant : ν → Bool
  /-- Whether an argument has a pointer type. -/
  isPointerTy : ν → Bool
  annotations : List (AnnotatedValue ν)
  /-- The C string that a global variable is initialized with, `none` for other values. -/
  cString : ν → Option String
  getDependency : ν → MemDepResult ν
  /-- `getName()` -/
  name : ν → String
  /-- Where a function or a return stands in the source. -/
  location : ν → String

/-- The public memory and the public values. -/
structure State (ν : Type) [LinearOrder ν] where
  mem : OrdSet ν
  vals : OrdSet ν
  deriving DecidableEq

section Steps

variable {ν : Type} [LinearOrder ν]

def State.insertVals (s : State ν) (Vs : List ν) : State ν :=
  { s with vals := insertAll s.vals Vs }

/-- `is_pub` -/
def isPub (Q : Queries ν) (s : State ν) (V : ν) : Bool := V ∈ s.vals || Q.isConstant V

/-! ## Initial Public Values -/

def annotatedPublicReturnValue (Q : Queries ν) : List (AnnotatedValue ν) → Exec Bool
  | [] => pure false
  | CS :: rest =>
    if 2 ≤ CS.numOperands then
      match CS.annotated with
      | none => throw .abort
      | some F =>
        if Q.function = F ∧ CS.text = some "public" then pure true
        else annotatedPublicReturnValue Q rest
    else annotatedPublicReturnValue Q rest

def initAnnotated (Q : Queries ν) (s : State ν) (I : Instruction ν) : Exec (State ν) :=
  match I.kind with
  | .intrinsic (.other .annotationIntrinsic) _ args _ => do
    let string ← getArgOperand args 1
    if Q.cString string = some "public" then
      let V ← getArgOperand args 0
      pure (s.insertVals [V])
    else pure s
  | _ => pure s

/-- `RI.getReturnValue()` -/
def getReturnValue (I : Instruction ν) : Option ν :=
  match I.kind with
  | .ret value => value
  | _ => none

def initialState (Q : Queries ν) (F : IRFunction ν) : Exec (State ν) := do
  let s : State ν := ⟨∅, ∅⟩
  let s ← F.instructions.foldlM (initAnnotated Q) (s.insertVals (F.args.filter Q.isPointerTy))
  let returned ← annotatedPublicReturnValue Q Q.annotations
  pure (if returned then s.insertVals (F.instructions.filterMap getReturnValue) else s)

/-! ## One Instruction -/

def visitPointer (s : State ν) (I : Instruction ν) : Exec (State ν) :=
  pure (if I.isPointerTy then s.insertVals [I.id] else s)

def visitTransmitter (s : State ν) (I : Instruction ν) : Exec (State ν) := do
  let ops ← getTransmitterSensitiveOperands I
  pure (s.insertVals ((ops.filter fun op => op.kind = .true).map (·.V)))

/-- Called functions are assumed to obey the contract. -/
def visitCall (s : State ν) (I : Instruction ν) : Exec (State ν) :=
  match I.kind with
  | .call args _ _ =>
    let s := s.insertVals args
    pure (if I.isVoidTy then s else s.insertVals [I.id])
  | _ => pure s

/-- The intrinsics that carry publicity between their result and all of their arguments. -/
def carries : Intrinsic → Bool
  | .other .vectorReduceAnd => true
  | .other .vectorReduceAdd => true
  | .other .vectorReduceOr => true
  | .other .fshl => true
  | .other .ctpop => true
  | .other .x86AesniAeskeygenassist => true
  | .other .x86AesniAesenc => true
  | .other .x86AesniAesenclast => true
  | .other .bswap => true
  | .other .x86Pclmulqdq => true
  | .other .umin => true
  | .other .umax => true
  | .other .x86Rdrand32 => true
  | _ => false

/-- The operations with a result that is public as soon as all operands are. -/
def carriesForwards : Operation → Bool
  | .cmp => true
  | .phi => true
  | .cast => true
  | .select => true
  | .freeze => true
  | _ => false

/-- The operations with operands that are public when the result is. -/
def carriesBackwards : Operation → Bool
  | .getElementPtr => true
  | .alloca => true
  | op => carriesForwards op

/-- The operations that publicity is not carried through. -/
def carriesNothing : Operation → Bool
  | .extractValue => true
  | .shuffleVector => true
  | .extractElement => true
  | .insertElement => true
  | _ => false

/-- The operands that a public result makes public. -/
def backwardOperands (I : Instruction ν) : Exec (List ν) :=
  match I.kind with
  | .binaryOperator _ operands => pure operands
  | .operation op operands =>
    if carriesBackwards op then pure operands
    else if carriesNothing op then pure []
    else throw .exit
  | .intrinsic id _ args _ =>
    if carries id then pure args
    else if id = .other .annotationIntrinsic then do
      let V ← getArgOperand args 0
      pure [V]
    else throw .exit
  | .call _ _ _ => pure []
  | _ => throw .exit

def visitBackward (s : State ν) (I : Instruction ν) : Exec (State ν) :=
  if I.id ∈ s.vals ∧ 0 < I.operands.length then
    match I.kind with
    | .load ptr _ => pure { s with mem := s.mem.insert ptr }
    | _ => do
      let ops ← backwardOperands I
      pure (s.insertVals ops)
  else pure s

/-- The operands that have to be public for the result to be, `none` where it does not depend on
operands. -/
def forwardOperands (I : Instruction ν) : Exec (Option (List ν)) :=
  match I.kind with
  | .load _ _ => pure none
  | .binaryOperator _ operands => pure (some operands)
  | .operation op operands =>
    if carriesForwards op then pure (some operands)
    else if carriesNothing op then pure none
    else throw .exit
  | .intrinsic id _ args _ =>
    if carries id then pure (some args)
    else if id = .other .annotationIntrinsic then do
      let V ← getArgOperand args 0
      pure (some [V])
    else throw .exit
  | .call _ _ _ => pure none
  | _ => throw .exit

def visitForward (Q : Queries ν) (s : State ν) (I : Instruction ν) : Exec (State ν) :=
  if I.isVoidTy = false ∧ 0 < I.operands.length ∧ I.id ∉ s.vals then do
    match ← forwardOperands I with
    | some ops => pure (if ops.all (isPub Q s) then s.insertVals [I.id] else s)
    | none => pure s
  else pure s

/-- The value that was stored where the instruction loads, when the store is in the same block. -/
def storedValue (Q : Queries ν) (F : IRFunction ν) (I : Instruction ν) : Exec (Option ν) :=
  match I.kind with
  | .load _ _ =>
    match Q.getDependency I.id with
    | .definition inst =>
      match F.instruction? inst with
      | some ⟨_, _, _, .store value _⟩ => pure (some value)
      | _ => throw .exit
    | _ => pure none
  | _ => pure none

def visitMemory (Q : Queries ν) (F : IRFunction ν) (s : State ν) (I : Instruction ν) :
    Exec (State ν) := do
  match ← storedValue Q F I with
  | some value =>
    let s := if isPub Q s value then s.insertVals [I.id] else s
    pure (if isPub Q s I.id then s.insertVals [value] else s)
  | none => pure s

/-- One iteration of the loop over the instructions. -/
def visit (Q : Queries ν) (F : IRFunction ν) (s : State ν) (I : Instruction ν) : Exec (State ν) :=
  visitPointer s I >>= fun s => visitTransmitter s I >>= fun s => visitCall s I >>= fun s =>
    visitBackward s I >>= fun s => visitForward Q s I >>= fun s => visitMemory Q F s I

/-- The public memory and values that the rounds end with. -/
def publicState (Q : Queries ν) (fuel : Nat) (F : IRFunction ν) : Exec (State ν) := do
  let s ← initialState Q F
  rounds id (fun s => F.instructions.foldlM (visit Q F) s) fuel s

end Steps

/-! ## The Verdict -/

structure Diagnostic where
  location : String
  text : String
  deriving DecidableEq

section Verdict

variable {ν : Type} [LinearOrder ν]

def argumentDiagnostic (Q : Queries ν) (A : ν) (argNo : Nat) : Diagnostic where
  location := Q.location Q.function
  text :=
    let name := if Q.name A = "" then toString argNo else Q.name A
    "argument '" ++ name ++ "' possibly secret in function " ++ Q.name Q.function

def returnDiagnostic (Q : Queries ν) (RI : ν) : Diagnostic where
  location := Q.location RI
  text := "return value possibly secret in function " ++ Q.name Q.function

def checkArgument (Q : Queries ν) (s : State ν) (A : ν × Nat) : Option Diagnostic :=
  if A.1 ∈ s.vals then none else some (argumentDiagnostic Q A.1 A.2)

def checkReturn (Q : Queries ν) (s : State ν) (RI : Instruction ν) : Option Diagnostic :=
  match getReturnValue RI with
  | some RV => if isPub Q s RV then none else some (returnDiagnostic Q RI.id)
  | none => none

/-- The errors that are printed, first those of the arguments. -/
def diagnostics (Q : Queries ν) (F : IRFunction ν) (s : State ν) : List Diagnostic :=
  F.args.zipIdx.filterMap (checkArgument Q s) ++ F.instructions.filterMap (checkReturn Q s)

/-- `ContractChecker::runOnFunction` -/
def runOnFunction (Q : Queries ν) (fuel : Nat) (F : IRFunction ν) : Exec Unit := do
  let s ← publicState Q fuel F
  if diagnostics Q F s = [] then pure () else throw .exit

end Verdict

end Clou.Contract
