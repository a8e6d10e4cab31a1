-- SUMMARY: Runs along a path of instructions, each with its own values for the loads from addresses that are not constant.
import Mathlib.Logic.Function.Basic
import Serberus.SpeculativeTaint.Function

/-!
# Runs Along a Path

Under speculation a load from an address that is not constant may return anything, so what it
returns is up to the run. A load from a constant address returns what is in memory there. Calls
never return tainted values by assumption: what they return is a parameter, and so is what
instructions other than stores write to memory.
-/

namespace Clou.SpeculativeTaint

/-- What the values of an activation are taken from. -/
structure Semantics (ι υ : Type) where
  isPHINode : ι → Bool
  /-- The value of an operand that is no instruction. -/
  constant : Nat → υ
  /-- Where a constant address points to. -/
  address : Value ι → υ
  /-- What an instruction computes from its operands. A PHI goes by the path. -/
  compute : List ι → ι → List υ → υ
  /-- What a call returns. -/
  returns : List ι → ι → υ
  /-- What an instruction other than a store writes. -/
  writes : List ι → ι → υ → Option υ

structure Machine (ι υ : Type) where
  /-- The instructions so far, the last one first. -/
  past : List ι
  vals : ι → υ
  /-- The values before the PHIs at the beginning of a block. -/
  entered : ι → υ
  mem : υ → υ

section Definitions

variable {ι υ : Type}

/-- The operands that a result is computed from. -/
def Kind.inputs : Kind ι → List (Value ι)
  | .load ptr => [ptr]
  | .store _ _ => []
  | .intrinsic id _ _ args => if id = .annotationIntrinsic then args.take 1 else args
  | .call => []
  | .other _ operands => operands

/-- The type of the instruction is `void`. -/
def Kind.isVoid : Kind ι → Bool
  | .load _ => false
  | .store _ _ => true
  | .intrinsic _ void _ _ => void
  | .call => false
  | .other void _ => void

namespace Semantics

variable (sem : Semantics ι υ)

def eval (vals : ι → υ) : Value ι → υ
  | .inst i => vals i
  | .other n => sem.constant n

/-- The values of operands: PHIs at the beginning of a block are computed all at once. -/
def operandVals (s : Machine ι υ) (i : ι) : ι → υ :=
  if sem.isPHINode i then s.entered else s.vals

def computed (s : Machine ι υ) (I : Instruction ι) : υ :=
  sem.compute s.past I.id (I.kind.inputs.map (sem.eval (sem.operandVals s I.id)))

variable (O : Oracles ι) (loaded : List ι → υ)

def result (s : Machine ι υ) (I : Instruction ι) : υ :=
  match I.kind with
  | .load ptr => if O.isConstantAddress ptr then s.mem (sem.address ptr) else loaded s.past
  | .store _ _ => sem.computed s I
  | .intrinsic _ _ assumeLike _ => if assumeLike then sem.returns s.past I.id else sem.computed s I
  | .call => sem.returns s.past I.id
  | .other _ _ => sem.computed s I

variable [DecidableEq ι] [DecidableEq υ]

def write (s : Machine ι υ) (I : Instruction ι) : υ → υ :=
  match I.kind with
  | .load _ => s.mem
  | .store value ptr => Function.update s.mem (sem.eval s.vals ptr) (sem.eval s.vals value)
  | _ => fun a => (sem.writes s.past I.id a).getD (s.mem a)

def step (s : Machine ι υ) (I : Instruction ι) : Machine ι υ :=
  let vals := if I.kind.isVoid then s.vals
    else Function.update s.vals I.id (sem.result O loaded s I)
  { past := I.id :: s.past
    vals := vals
    entered := if sem.isPHINode I.id then s.entered else vals
    mem := sem.write s I }

def run (s : Machine ι υ) (path : List (Instruction ι)) : Machine ι υ :=
  path.foldl (sem.step O loaded) s

theorem step_vals (s : Machine ι υ) (I : Instruction ι) : (sem.step O loaded s I).vals =
    if I.kind.isVoid then s.vals else Function.update s.vals I.id (sem.result O loaded s I) := rfl

theorem step_entered (s : Machine ι υ) (I : Instruction ι) : (sem.step O loaded s I).entered =
    if sem.isPHINode I.id then s.entered else (sem.step O loaded s I).vals := rfl

@[simp] theorem run_nil (s : Machine ι υ) : sem.run O loaded s [] = s := rfl

@[simp] theorem run_concat (s : Machine ι υ) (path : List (Instruction ι)) (I : Instruction ι) :
    sem.run O loaded s (path ++ [I]) = sem.step O loaded (sem.run O loaded s path) I := by
  simp [run]

end Semantics

end Definitions

end Clou.SpeculativeTaint
