-- SUMMARY: The leak analysis, as the code computes it: rounds over a set of values that grows while it is gone through, with a cache of aliasing stores.
import Serberus.Leakage.Instructions
import Serberus.Lib.OrdMap
import Serberus.Lib.Sweep
import Serberus.Rounds

/-!
# `LeakAnalysis::runOnFunction`

The leaked values start with the transmitter operands. A round goes through the set in
address order and inserts what each leaked instruction computes from. For a leaked load
the stores that may feed it are computed at the first need and kept.
-/

namespace Clou.Leakage

variable {ν : Type} [LinearOrder ν]

/-- Inserts the values of a list one after the other. -/
def insertAll (s : OrdSet ν) (Vs : List ν) : OrdSet ν := Vs.foldl (fun s V => s.insert V) s

@[simp] theorem mem_insertAll {s : OrdSet ν} {Vs : List ν} {V : ν} :
    V ∈ insertAll s Vs ↔ V ∈ s ∨ V ∈ Vs := by
  unfold insertAll
  induction Vs generalizing s with
  | nil => simp
  | cons W Vs ih => rw [List.foldl_cons, ih, OrdSet.mem_insert, List.mem_cons, or_left_comm, or_assoc]

/-! ## Aliasing Stores -/

def isCallOrFence : Kind ν → Bool
  | .intrinsic _ _ _ _ => true
  | .call _ _ _ => true
  | .operation .fence _ => true
  | _ => false

/-- One iteration of the loop of `computeAliases`. -/
def addAliasingStore (O : Oracles ν) (Load : Instruction ν) (Stores : OrdSet ν)
    (Store : Instruction ν) : Exec (OrdSet ν) :=
  if !Store.kind.mayWriteToMemory then pure Stores
  else if isCallOrFence Store.kind then pure Stores
  else match getPointerOperand Load, getPointerOperand Store with
    | some loadPtr, some storePtr => do
      let definitelyNot ←
        SpeculativeTaint.isDefinitelyNoAlias O.unsafeAA (O.aliasResult loadPtr storePtr)
      pure (if definitelyNot then Stores else Stores.insert Store.id)
    -- the alias analysis is handed a null pointer
    | _, _ => throw .abort

def computeAliases (O : Oracles ν) (F : IRFunction ν) (Load : Instruction ν) :
    Exec (OrdSet ν) :=
  F.instructions.foldlM (addAliasingStore O Load) ∅

/-- The leaked values, and `aliases`. -/
structure LeakState (ν : Type) [LinearOrder ν] where
  leaks : OrdSet ν
  aliases : OrdMap ν (OrdSet ν)

def LeakState.insertAll (s : LeakState ν) (Vs : List ν) : LeakState ν :=
  { s with leaks := Leakage.insertAll s.leaks Vs }

/-- `Aliases.getAliasingStores(Load)` -/
def getAliasingStores (O : Oracles ν) (F : IRFunction ν) (Load : Instruction ν) (s : LeakState ν) :
    Exec (OrdSet ν × LeakState ν) :=
  match s.aliases.find? Load.id with
  | some Stores => pure (Stores, s)
  | none => do
    let Stores ← computeAliases O F Load
    pure (Stores, { s with aliases := s.aliases.insert Load.id Stores })

/-! ## Rounds -/

/-- The intrinsics whose arguments all leak with their result. -/
def leaksArgs : Intrinsic → Bool
  | .other .floor => false
  | .other .stacksave => false
  | .other .annotationIntrinsic => false
  | .other (.unlisted _) => false
  | .other _ => true
  | _ => false

def leaksOperands : Operation → Bool
  | .alloca => false
  | .landingPad => false
  | .fence => false
  | .unlisted _ => false
  | _ => true

/-- The values that a store puts into memory leak; an atomic or volatile load among the
stores is passed over. -/
def leakStore (F : IRFunction ν) (s : LeakState ν) (Store : ν) : Exec (LeakState ν) :=
  match F.instruction? Store with
  | none => throw .outOfRange
  | some I =>
    match I.kind with
    | .load _ _ => pure s
    | _ => do
      let Vs ← getValueOperands I
      pure (s.insertAll Vs)

def leakStores (O : Oracles ν) (F : IRFunction ν) (Load : Instruction ν) (s : LeakState ν) :
    Exec (LeakState ν) := do
  let (Stores, s) ← getAliasingStores O F Load s
  Stores.toList.foldlM (leakStore F) s

/-- What leaks with a leaked instruction. -/
def visitLeak (O : Oracles ν) (F : IRFunction ν) (I : Instruction ν) (s : LeakState ν) :
    Exec (LeakState ν) :=
  match I.kind with
  | .intrinsic id _ args _ =>
    if leaksArgs id then pure (s.insertAll args)
    else if id = .other .annotationIntrinsic then do
      let V ← getArgOperand args 0
      pure (s.insertAll [V])
    else throw .exit
  | .call args _ _ => pure (s.insertAll args)
  | .load _ _ => leakStores O F I s
  | .atomicRMW _ val => leakStores O F I (s.insertAll [val])
  | .binaryOperator _ operands => pure (s.insertAll operands)
  | .unaryOperator fneg operand => if fneg then pure (s.insertAll [operand]) else throw .exit
  | .operation op operands =>
    if leaksOperands op then pure (s.insertAll operands)
    else match op with
      | .alloca => pure s
      | .landingPad => pure s
      | _ => throw .exit
  | _ => throw .exit

def visitLeakedValue (O : Oracles ν) (F : IRFunction ν) (V : ν) (s : LeakState ν) :
    Exec (LeakState ν) :=
  match F.instruction? V with
  | some I => visitLeak O F I s
  | none => pure s

/-- `for (llvm::Value *V : leaks)` -/
def leakRound (O : Oracles ν) (F : IRFunction ν) (fuel : Nat) (s : LeakState ν) :
    Exec (LeakState ν) :=
  Sweep.sweep LeakState.leaks (visitLeakedValue O F) .outOfFuel fuel none s

/-! ## The Run -/

def addTransmitters (leaks : OrdSet ν) (I : Instruction ν) : Exec (OrdSet ν) := do
  let ops ← getTransmitterSensitiveOperands I
  pure (insertAll leaks (ops.map (·.V)))

/-- `LeakAnalysis::runOnFunction`: the leaked values. -/
def leakAnalysis (O : Oracles ν) (fuel : Nat) (F : IRFunction ν) : Exec (OrdSet ν) := do
  let leaks ← F.instructions.foldlM addTransmitters ∅
  let s ← rounds LeakState.leaks (leakRound O F fuel) fuel ⟨leaks, ∅⟩
  pure s.leaks

def mayLeak (leaks : OrdSet ν) (V : ν) : Bool := V ∈ leaks

end Clou.Leakage
