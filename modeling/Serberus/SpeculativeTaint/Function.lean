-- SUMMARY: What the speculative taint analysis reads of a function: its instructions in layout order, their operands, and the loads that stores may feed.
import Mathlib.Data.List.Nodup
import Mathlib.Logic.Relation

/-!
# Functions, as the Taint Analysis Reads Them

`llvm::instructions(F)` goes through the blocks in layout order, so the analysis sees a
function as the list of its instructions. LLVM allows any layout behind the entry
block: a block may be listed before the block that defines the values it uses.
Terminators and fences are instructions without a value.
-/

namespace Clou.SpeculativeTaint

/-- An operand: an instruction, or a constant, an argument or a block. -/
inductive Value (ι : Type) where
  | inst (i : ι)
  | other (n : Nat)
  deriving DecidableEq

def Value.instruction? {ι : Type} : Value ι → Option ι
  | .inst i => some i
  | .other _ => none

inductive AliasResult where
  | noAlias
  | mayAlias
  | partialAlias
  | mustAlias
  deriving DecidableEq

/-- The intrinsics that `runOnFunction` lists, and one constructor for all others. -/
inductive IntrinsicID where
  | vectorReduceAdd
  | vectorReduceAnd
  | vectorReduceOr
  | fshl
  | umax
  | umin
  | ctpop
  | x86AesniAeskeygenassist
  | x86AesniAesenc
  | x86AesniAesenclast
  | bswap
  | x86Pclmulqdq
  | x86Rdrand32
  | smax
  | smin
  | abs
  | umulWithOverflow
  | bitreverse
  | cttz
  | usubSat
  | fmuladd
  | fabs
  | floor
  | experimentalConstrainedFcmp
  | experimentalConstrainedFsub
  | experimentalConstrainedFmul
  | experimentalConstrainedSitofp
  | experimentalConstrainedUitofp
  | experimentalConstrainedFcmps
  | experimentalConstrainedFadd
  | experimentalConstrainedFptosi
  | experimentalConstrainedFdiv
  | experimentalConstrainedFptoui
  | experimentalConstrainedFpext
  | experimentalConstrainedFloor
  | experimentalConstrainedFptrunc
  | experimentalConstrainedFmuladd
  | experimentalConstrainedCeil
  | maskedLoad
  | maskedGather
  | fshr
  | stacksave
  | vectorReduceMul
  | vectorReduceUmax
  | vectorReduceUmin
  | vectorReduceSmax
  | vectorReduceXor
  | vectorReduceSmin
  | ehTypeidFor
  | uaddWithOverflow
  | ctlz
  | experimentalConstrainedPowi
  | experimentalConstrainedTrunc
  | experimentalConstrainedRound
  | uaddSat
  | annotationIntrinsic
  | unlisted (n : Nat)
  deriving DecidableEq

/-- The group of cases commented `Passthrough`. -/
def IntrinsicID.passthrough : IntrinsicID → Bool
  | .annotationIntrinsic => false
  | .unlisted _ => false
  | _ => true

/-- An instruction, by the first test of `runOnFunction` that it passes. -/
inductive Kind (ι : Type) where
  | load (ptr : Value ι)
  | store (value ptr : Value ι)
  | intrinsic (id : IntrinsicID) (void assumeLike : Bool) (args : List (Value ι))
  /-- Any other `CallBase`. -/
  | call
  | other (void : Bool) (operands : List (Value ι))
  deriving DecidableEq

def Kind.operands {ι : Type} : Kind ι → List (Value ι)
  | .load ptr => [ptr]
  | .store value ptr => [value, ptr]
  | .intrinsic _ _ _ args => args
  | .call => []
  | .other _ operands => operands

structure Instruction (ι : Type) where
  id : ι
  kind : Kind ι
  deriving DecidableEq

/-- The blocks in layout order; no instruction occurs twice. -/
structure IRFunction (ι : Type) where
  blocks : List (List (Instruction ι))
  nodup : (blocks.flatten.map (·.id)).Nodup

def IRFunction.instructions {ι : Type} (F : IRFunction ι) : List (Instruction ι) :=
  F.blocks.flatten

/-- What the pass asks of other analyses, and its option `UnsafeAA`. -/
structure Oracles (ι : Type) where
  isConstantAddress : Value ι → Bool
  aliasResult : Value ι → Value ι → AliasResult
  unsafeAA : Bool

section Relations

variable {ι : Type} (O : Oracles ι) (F : IRFunction ι)

/-- A load from an address that is not constant. -/
def Oracles.isNcal (I : Instruction ι) : Bool :=
  match I.kind with
  | .load ptr => !O.isConstantAddress ptr
  | _ => false

/-- The answers of the alias analysis for which a store counts as feeding a load. -/
def Oracles.MayRead (storePtr loadPtr : Value ι) : Prop :=
  match O.aliasResult storePtr loadPtr with
  | .mayAlias => O.unsafeAA = false
  | .mustAlias => True
  | _ => False

/-- The instruction `I` makes `y` depend on `x`. -/
inductive Step : Instruction ι → ι → ι → Prop
  | operand {i x : ι} {ops : List (Value ι)} (hx : .inst x ∈ ops) :
      Step ⟨i, .other false ops⟩ x i
  | argument {i x : ι} {id : IntrinsicID} {args : List (Value ι)} (hid : id.passthrough = true)
      (hx : .inst x ∈ args) : Step ⟨i, .intrinsic id false false args⟩ x i
  | firstArgument {i x : ι} {args : List (Value ι)} :
      Step ⟨i, .intrinsic .annotationIntrinsic false false (.inst x :: args)⟩ x i
  | stored {i x l : ι} {storePtr loadPtr : Value ι} (hl : ⟨l, .load loadPtr⟩ ∈ F.instructions)
      (hconst : O.isConstantAddress loadPtr = true) (hread : O.MayRead storePtr loadPtr) :
      Step ⟨i, .store (.inst x) storePtr⟩ x l

/-- A chain of steps from `L` to `i`. -/
def Chain : ι → ι → Prop := Relation.ReflTransGen fun x y => ∃ I ∈ F.instructions, Step O F I x y

/-- An intrinsic that the analysis knows, or that it does not look at. -/
def Instruction.Handled (I : Instruction ι) : Prop :=
  match I.kind with
  | .intrinsic id void assumeLike args =>
    void = true ∨ assumeLike = true ∨ id.passthrough = true ∨ id = .annotationIntrinsic ∧ args ≠ []
  | _ => True

end Relations

end Clou.SpeculativeTaint
