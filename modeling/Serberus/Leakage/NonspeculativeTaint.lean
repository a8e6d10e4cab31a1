-- SUMMARY: The nonspeculative taint analysis, as the code computes it: rounds over calls, memory accesses, returns and operands.
import Serberus.Leakage.LeakAnalysis

/-!
# `NonspeculativeTaint::runOnFunction`

The public values start with the transmitter operands, the pointers and the constants. A
round propagates through calls, memory accesses, returns and operands. A memory access is
propagated once only, in the first round in which it is public.
-/

namespace Clou.Leakage

open SpeculativeTaint (AliasResult)

variable {ν : Type} [LinearOrder ν]

def isDefinitelyMustAlias (unsafeAA : Bool) : AliasResult → Exec Bool
  | .mustAlias => pure true
  | .mayAlias => pure unsafeAA
  | .noAlias => pure false
  | .partialAlias => throw .abort

inductive Taint where
  | passthrough
  | invalid
  | handled
  deriving DecidableEq

/-- `taint_rule`, `none` where the intrinsic is not listed. -/
def taintRule : Intrinsic → Option Taint
  | .memset => some .invalid
  | .memcpy => some .invalid
  | .x86Sse2Lfence => some .invalid
  | .other .annotationIntrinsic => some .handled
  | .other .floor => none
  | .other (.unlisted _) => none
  | .other _ => some .passthrough

/-- `pub_vals`, with the null pointer apart, and `seen_mem_taint_prop`. -/
structure TaintState (ν : Type) [LinearOrder ν] where
  pubVals : OrdSet ν
  /-- The null pointer is in `pub_vals`. -/
  nullPub : Bool
  seen : OrdSet ν

namespace TaintState

def insertAll (s : TaintState ν) (Vs : List ν) : TaintState ν :=
  { s with pubVals := Leakage.insertAll s.pubVals Vs }

/-- What the rounds compare. -/
def key (s : TaintState ν) : OrdSet ν × Bool := (s.pubVals, s.nullPub)

end TaintState

/-! ## Initial Public Values -/

/-- The transmitter operands of an instruction that are instructions. -/
def initTransmitters (F : IRFunction ν) (pubVals : OrdSet ν) (I : Instruction ν) :
    Exec (OrdSet ν) := do
  let ops ← getTransmitterSensitiveOperands I
  pure (insertAll pubVals ((ops.map (·.V)).filter fun V => (F.instruction? V).isSome))

def initPointer (pubVals : OrdSet ν) (I : Instruction ν) : OrdSet ν :=
  if I.isPointerTy then pubVals.insert I.id else pubVals

/-- `isa<LandingPadInst>(V)` -/
def isLandingPad (F : IRFunction ν) (V : ν) : Bool :=
  match F.instruction? V with
  | some ⟨_, _, _, .operation .landingPad _⟩ => true
  | _ => false

def initOperands (O : Oracles ν) (F : IRFunction ν) (pubVals : OrdSet ν) (I : Instruction ν) :
    OrdSet ν :=
  insertAll pubVals (I.operands.filter fun V => O.isConstantLike V || isLandingPad F V)

def initialPubVals (O : Oracles ν) (F : IRFunction ν) : Exec (OrdSet ν) := do
  let pubVals ← F.instructions.foldlM (initTransmitters F) ∅
  let pubVals := F.instructions.foldl initPointer pubVals
  let pubVals := F.instructions.foldl (initOperands O F) pubVals
  pure (if O.strictCallingConv then insertAll pubVals F.args else pubVals)

/-! ## Propagation -/

/-- One iteration of the loop over the calls. -/
def propagateCall (ndebug : Bool) (O : Oracles ν) (s : TaintState ν) (CB : Instruction ν) :
    Exec (TaintState ν) :=
  match CB.kind with
  | .intrinsic id assumeLike args _ =>
    if !CB.isVoidTy && !assumeLike then
      match taintRule id with
      | some .passthrough => if CB.id ∈ s.pubVals then pure (s.insertAll args) else pure s
      | some .handled =>
        if CB.id ∈ s.pubVals then do
          let V ← getArgOperand args 0
          pure (s.insertAll [V])
        else pure s
      | some .invalid => do
        assert ndebug .invalidIsVoid (CB.isVoidTy = true)
        pure s
      | none => throw .exit
    else pure s
  | .call args _ _ =>
    if O.strictCallingConv then pure (s.insertAll (args ++ [CB.id])) else pure s
  | _ => pure s

/-- `isa<LoadInst, AtomicRMWInst, AtomicCmpXchgInst>` -/
def isLoading : Kind ν → Bool
  | .load _ _ => true
  | .atomicRMW _ _ => true
  | .atomicCmpXchg _ _ _ => true
  | _ => false

/-- One iteration of the inner loop over the memory accesses. -/
def propagatePartner (O : Oracles ν) (srcPtr : ν) (s : TaintState ν) (dst : Instruction ν) :
    Exec (TaintState ν) :=
  match getPointerOperand dst with
  | some dstPtr => do
    let mustAlias ← isDefinitelyMustAlias O.unsafeAA (O.aliasResult srcPtr dstPtr)
    pure (if mustAlias then s.insertAll (getAccessOperands dst) else s)
  | none => pure s

/-- One iteration of the loop over the memory accesses. -/
def propagateMemory (O : Oracles ν) (F : IRFunction ν) (s : TaintState ν) (src : Instruction ν) :
    Exec (TaintState ν) :=
  if src.id ∈ s.seen then pure s
  else match getPointerOperand src with
    | some srcPtr =>
      if isLoading src.kind && src.id ∈ s.pubVals then
        F.instructions.foldlM (propagatePartner O srcPtr)
          ({ s with seen := s.seen.insert src.id }.insertAll (getAccessOperands src))
      else pure s
    | none => pure s

/-- One iteration of the loop over the returns: `RI.getReturnValue()` is null for `ret void`. -/
def propagateReturn (s : TaintState ν) (RI : Instruction ν) : Exec (TaintState ν) :=
  match RI.kind with
  | .ret (some value) => pure (s.insertAll [value])
  | .ret none => pure { s with nullPub := true }
  | _ => pure s

/-- The operations that a public result makes the operands of public. -/
def taintsOperands : Operation → Bool
  | .cmp => true
  | .cast => true
  | .select => true
  | .phi => true
  | .freeze => true
  | _ => false

/-- The operations that are passed over. -/
def ignoresOperands : Operation → Bool
  | .alloca => true
  | .landingPad => true
  | .insertElement => true
  | .shuffleVector => true
  | .extractElement => true
  | .extractValue => true
  | .insertValue => true
  | _ => false

/-- One iteration of the loop over the instructions that are not void. -/
def propagateOperands (ndebug : Bool) (s : TaintState ν) (I : Instruction ν) :
    Exec (TaintState ν) :=
  if I.isVoidTy then pure s
  else match I.kind with
    | .operation op operands =>
      if op = .getElementPtr then pure (s.insertAll operands)
      else if taintsOperands op then
        if I.id ∈ s.pubVals then pure (s.insertAll operands) else pure s
      else if ignoresOperands op then pure s
      else throw .exit
    | .binaryOperator _ operands =>
      if I.id ∈ s.pubVals then pure (s.insertAll operands) else pure s
    | .unaryOperator fneg operand => do
      assert ndebug .unaryIsFNeg (fneg = true)
      if I.id ∈ s.pubVals then pure (s.insertAll [operand]) else pure s
    | .intrinsic _ _ _ _ => pure s
    | .call _ _ _ => pure s
    | .load _ _ => pure s
    | .atomicRMW _ _ => pure s
    | .atomicCmpXchg _ _ _ => pure s
    | _ => throw .exit

def propagateReturns (O : Oracles ν) (F : IRFunction ν) (s : TaintState ν) : Exec (TaintState ν) :=
  if O.strictCallingConv then F.instructions.foldlM propagateReturn s else pure s

def taintRound (ndebug : Bool) (O : Oracles ν) (F : IRFunction ν) (s : TaintState ν) :
    Exec (TaintState ν) :=
  F.instructions.foldlM (propagateCall ndebug O) s >>= fun s =>
    F.instructions.foldlM (propagateMemory O F) s >>= fun s =>
      propagateReturns O F s >>= fun s => F.instructions.foldlM (propagateOperands ndebug) s

/-- `NonspeculativeTaint::runOnFunction`: the state at the exit, with `pub_vals`. -/
def nonspeculativeTaint (ndebug : Bool) (O : Oracles ν) (fuel : Nat) (F : IRFunction ν) :
    Exec (TaintState ν) := do
  let pubVals ← initialPubVals O F
  rounds TaintState.key (taintRound ndebug O F) fuel ⟨pubVals, false, ∅⟩

end Clou.Leakage
