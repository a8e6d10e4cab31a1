-- SUMMARY: The passes that mark public values that may leak and that keep them in registers, as the code computes them.
import Serberus.Leakage.LeakExact

/-!
# `NoSpillPublic::runOnFunction` and `NoSpillLowering::runOnFunction`

The first pass marks the values that may leak and are not secret. The second one goes through
each block and inserts inline assembly that uses a marked value before the terminator of the block,
so the list that it goes through grows on the way.
-/

namespace Clou.NoSpill

open Leakage (IRFunction Instruction)

/-- An instruction of the function, or inline assembly that uses a value. -/
inductive Inst (ν : Type) where
  | source (I : Instruction ν)
  | use (V : ν)
  deriving DecidableEq

section Definitions

variable {ν : Type}

def Inst.source? : Inst ν → Option (Instruction ν)
  | .source I => some I
  | .use _ => none

@[simp] theorem Inst.source?_source (I : Instruction ν) : (Inst.source I).source? = some I := rfl

@[simp] theorem Inst.source?_use (V : ν) : (Inst.use V).source? = none := rfl

variable [LinearOrder ν]

/-- `NoSpillPublic::runOnFunction`, with the instructions that have the metadata `clou.nospill`. -/
def noSpillPublic (mayLeak secret : ν → Bool) (F : IRFunction ν) (nospill : OrdSet ν) :
    Bool × OrdSet ν :=
  (F.instructions.filter (!·.isVoidTy)).foldl (fun s I =>
    if mayLeak I.id && !secret I.id then (true, s.2.insert I.id) else s) (false, nospill)

/-- What the lowering inserts for an instruction. -/
def lowered (isSingleValueType : ν → Bool) (nospill : OrdSet ν) (I : Instruction ν) : Option ν :=
  if I.id ∈ nospill then if isSingleValueType I.id then some I.id else none else none

omit [LinearOrder ν] in
/-- `IRB.CreateCall` before the last instruction. -/
def insertBeforeTerminator (J : Inst ν) : List (Inst ν) → List (Inst ν)
  | [] => [J]
  | [T] => [J, T]
  | I :: l => I :: insertBeforeTerminator J l

/-- The loop over the instructions of a block, from an instruction on; `done` is before it. -/
def lowerLoop (low : Instruction ν → Option ν) :
    Nat → List (Inst ν) → List (Inst ν) → Exec (Bool × List (Inst ν))
  | 0, _, _ => throw .outOfFuel
  | _ + 1, done, [] => pure (false, done)
  | fuel + 1, done, .use V :: rest => lowerLoop low fuel (done ++ [.use V]) rest
  | fuel + 1, done, .source I :: rest =>
    match low I with
    | none => lowerLoop low fuel (done ++ [.source I]) rest
    | some V =>
      match rest with
      -- behind the terminator there is no instruction
      | [] => pure (true, done ++ [.use V, .source I])
      | J :: rest => do
        let (_, l) ← lowerLoop low fuel (done ++ [.source I])
          (insertBeforeTerminator (.use V) (J :: rest))
        pure (true, l)

/-- `NoSpillLowering::runOnFunction`: whether something has changed, and the blocks. -/
def noSpillLowering (fuel : Nat) (isSingleValueType : ν → Bool) (nospill : OrdSet ν)
    (F : IRFunction ν) : Exec (Bool × List (List (Inst ν))) := do
  let blocks ← F.blocks.mapM fun B =>
    lowerLoop (lowered isSingleValueType nospill) fuel [] (B.map .source)
  pure (blocks.any (·.1), blocks.map (·.2))

end Definitions

end Clou.NoSpill
