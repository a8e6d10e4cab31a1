-- SUMMARY: The pass that zeroes stack slots, as the code computes it.
import Serberus.Exec

/-!
# `StackInitPass::runOnFunction`

Behind every `alloca` the pass inserts a store of zero or a `memset`. How many bytes that
clears depends on the type: a store writes its store size, a `memset` its length.
-/

namespace Clou.StackInit

/-- What the data layout says of a type. -/
structure AllocatedType where
  /-- `DL.getTypeAllocSize` -/
  allocSize : Nat
  /-- The number of bytes that a store of the type writes. -/
  storeSize : Nat
  isIntOrPtrTy : Bool
  deriving DecidableEq

inductive ArraySize (ι : Type) where
  | constantInt (n : Nat)
  | value (V : ι)
  deriving DecidableEq

structure AllocaInst (ι : Type) where
  id : ι
  allocatedType : AllocatedType
  arraySize : ArraySize ι
  /-- The width of the type of the array size. -/
  bits : Nat
  arraySize_ne : arraySize ≠ .value id
  deriving DecidableEq

/-- The length of a `memset`: a constant, or the product computed before. -/
inductive Length where
  | constant (n : Nat)
  | size
  deriving DecidableEq

/-- The instructions, `κ` being those that are no `alloca`. -/
inductive Instruction (κ ι : Type) where
  | alloca (AI : AllocaInst ι)
  | other (I : κ)
  deriving DecidableEq

/-- The instructions that the pass inserts. -/
inductive Inserted (ι : Type) where
  /-- `Size`, a product that is not folded. -/
  | mul (eltSize : Nat) (arraySize : ι)
  /-- `Ptr` -/
  | bitCast (AI : ι)
  /-- A `memset` of `Ptr` with zero. -/
  | memSet (len : Length)
  /-- A store of the null value of a type with this store size. -/
  | store (AI : ι) (storeSize : Nat)
  deriving DecidableEq

inductive Inst (κ ι : Type) where
  | source (I : Instruction κ ι)
  | inserted (k : Inserted ι)
  deriving DecidableEq

/-- A block of instructions; `ε` says how control leaves it. -/
structure Block (τ β ε : Type) where
  label : β
  body : List τ
  terminator : ε
  deriving DecidableEq

/-- The blocks in layout order. -/
structure Function (τ β ε : Type) where
  blocks : List (Block τ β ε)
  deriving DecidableEq

section Definitions

variable {κ ι β ε τ : Type}

/-- `F.getInstructionCount()` -/
def Function.instructionCount (F : Function τ β ε) : Nat :=
  (F.blocks.flatMap (·.body)).length + F.blocks.length

def AllocaInst.isArrayAllocation (AI : AllocaInst ι) : Bool :=
  match AI.arraySize with
  | .constantInt n => n != 1
  | .value _ => true

/-- What is inserted behind an `alloca`. The operands of `CreateMul` have to be of one type, and
a product of constants is folded. -/
def initializers (AI : AllocaInst ι) : Exec (List (Inserted ι)) :=
  let eltSize := AI.allocatedType.allocSize
  if AI.isArrayAllocation then
    if AI.bits = 64 then
      match AI.arraySize with
      | .constantInt n => pure [.bitCast AI.id, .memSet (.constant (eltSize * n % UInt64.size))]
      | .value V => pure [.mul eltSize V, .bitCast AI.id, .memSet .size]
    else throw .abort
  else if AI.allocatedType.isIntOrPtrTy then
    pure [.store AI.id AI.allocatedType.storeSize]
  else pure [.bitCast AI.id, .memSet (.constant eltSize)]

/-- The loop over the instructions of a block. -/
def initBody : List (Instruction κ ι) → Exec (List (Inst κ ι))
  | [] => pure []
  | .alloca AI :: body => do
    let ks ← initializers AI
    let body ← initBody body
    pure (.source (.alloca AI) :: (ks.map .inserted ++ body))
  | .other I :: body => do
    let body ← initBody body
    pure (.source (.other I) :: body)

def initBlock (B : Block (Instruction κ ι) β ε) : Exec (Block (Inst κ ι) β ε) := do
  let body ← initBody B.body
  pure ⟨B.label, body, B.terminator⟩

def runOnFunction (F : Function (Instruction κ ι) β ε) :
    Exec (Bool × Function (Inst κ ι) β ε) := do
  let blocks ← F.blocks.mapM initBlock
  let F' : Function (Inst κ ι) β ε := ⟨blocks⟩
  pure (F'.instructionCount != F.instructionCount, F')

end Definitions

end Clou.StackInit
