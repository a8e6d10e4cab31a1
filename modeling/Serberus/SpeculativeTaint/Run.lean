-- SUMMARY: The rounds of the speculative taint analysis, as the code computes them.
import Serberus.Lib.OrdMap
import Serberus.Positions
import Serberus.SpeculativeTaint.Function

/-!
# `SpeculativeTaint::runOnFunction`

Every load from an address that is not constant gets an index. Rounds over all
instructions collect, for each instruction, the indices that taint it, until a round
changes nothing; then the indices are turned back into loads.
-/

namespace Clou.SpeculativeTaint

variable {ι : Type} [LinearOrder ι]

abbrev Idx := Nat

/-- `std::map<llvm::Instruction *, llvm::SparseBitVector<>>` -/
abbrev Taints (ι : Type) [LinearOrder ι] := OrdMap ι (OrdSet Idx)

/-- `std::map<llvm::Instruction *, std::set<llvm::Instruction *>>` -/
abbrev TaintMap (ι : Type) [LinearOrder ι] := OrdMap ι (OrdSet ι)

namespace Taints

/-- The bits of `i`, none where it has no entry. -/
def get (t : Taints ι) (i : ι) : OrdSet Idx := (t.find? i).getD ∅

/-- `taints[i]` makes an empty entry where there is none. -/
def touch (t : Taints ι) (i : ι) : Taints ι := t.insert i (t.get i)

/-- `taints[i].set(idx)` -/
def set (t : Taints ι) (i : ι) (idx : Idx) : Taints ι := t.insert i ((t.get i).insert idx)

/-- `taints[dst] |= taints[src]` -/
def join (t : Taints ι) (dst src : ι) : Taints ι :=
  (t.touch src).insert dst ((t.get dst).union (t.get src))

end Taints

/-! ## Loads and Stores -/

def isDefinitelyNoAlias (unsafeAA : Bool) : AliasResult → Exec Bool
  | .noAlias => pure true
  | .mayAlias => pure unsafeAA
  | .mustAlias => pure false
  | .partialAlias => throw .abort

/-- The loads from addresses that are not constant, sorted. -/
def ncals (O : Oracles ι) (F : IRFunction ι) : List ι :=
  ((F.instructions.filter O.isNcal).map (·.id)).insertionSort (· ≤ ·)

def ncalToIdx (ndebug : Bool) (ncals : List ι) (LI : ι) : Exec Idx :=
  positionOf ndebug .ncalFound ncals LI

def idxToNcal (ndebug : Bool) (ncals : List ι) (idx : Idx) : Exec ι :=
  elementAt ndebug .ncalInRange ncals idx

/-- One iteration of the inner loop: `LI` joins the loads that the store may feed. -/
def addLoad (O : Oracles ι) (storePtr : Value ι) (loads : OrdSet ι) (LI : Instruction ι) :
    Exec (OrdSet ι) :=
  match LI.kind with
  | .load ptr =>
    if O.isConstantAddress ptr then do
      let definitelyNot ← isDefinitelyNoAlias O.unsafeAA (O.aliasResult storePtr ptr)
      pure (if definitelyNot then loads else loads.insert LI.id)
    else pure loads
  | _ => pure loads

/-- One iteration of the outer loop: the loads that `SI` may feed get their entry. -/
def addStore (O : Oracles ι) (F : IRFunction ι) (rfs : OrdMap ι (OrdSet ι)) (SI : Instruction ι) :
    Exec (OrdMap ι (OrdSet ι)) :=
  match SI.kind with
  | .store _ ptr => do
    let loads ← F.instructions.foldlM (addLoad O ptr) ∅
    pure (rfs.insert SI.id loads)
  | _ => pure rfs

/-- For each store, the loads from constant addresses that may read what it stores. -/
def rfs (O : Oracles ι) (F : IRFunction ι) : Exec (OrdMap ι (OrdSet ι)) :=
  F.instructions.foldlM (addStore O F) ∅

/-! ## Rounds -/

structure State (ι : Type) [LinearOrder ι] where
  taints : Taints ι
  taintsBak : Taints ι

/-- `if` the operand is an instruction, `taints[i] |= taints[operand]`. -/
def joinOperand (i : ι) (t : Taints ι) : Value ι → Taints ι
  | .inst x => t.join i x
  | .other _ => t

/-- The rule for stores: the stored value taints the loads that may read it, when its
own taint is not what it was at the start of the round. -/
def visitStore (loads : OrdSet ι) (value : ι) (s : State ι) : State ι :=
  let s : State ι := ⟨s.taints.touch value, s.taintsBak.touch value⟩
  if s.taints.get value ≠ s.taintsBak.get value then
    { s with taints := loads.toList.foldl (fun t LI => t.join LI value) s.taints }
  else s

def visit (ndebug : Bool) (O : Oracles ι) (ncals : List ι) (rfs : OrdMap ι (OrdSet ι))
    (s : State ι) (I : Instruction ι) : Exec (State ι) :=
  match I.kind with
  | .load ptr =>
    if O.isConstantAddress ptr then pure s
    else do
      let idx ← ncalToIdx ndebug ncals I.id
      pure { s with taints := s.taints.set I.id idx }
  | .store (.inst value) _ => pure (visitStore ((rfs.find? I.id).getD ∅) value s)
  | .store (.other _) _ => pure s
  | .intrinsic id void assumeLike args =>
    if void = true ∨ assumeLike = true then pure s
    else if id.passthrough then
      pure { s with taints := args.foldl (joinOperand I.id) s.taints }
    else match id, args with
      | .annotationIntrinsic, arg :: _ => pure { s with taints := joinOperand I.id s.taints arg }
      | .annotationIntrinsic, [] => throw .outOfRange
      | _, _ => throw .exit
  | .call => pure s
  | .other void operands =>
    if void then pure s
    else pure { s with taints := operands.foldl (joinOperand I.id) (s.taints.touch I.id) }

/-- One round, and whether it asks for another one. -/
def round (ndebug : Bool) (O : Oracles ι) (F : IRFunction ι) (rfs : OrdMap ι (OrdSet ι))
    (s : State ι) : Exec (State ι × Bool) := do
  let s ← F.instructions.foldlM (visit ndebug O (ncals O F) rfs) ⟨s.taints, s.taints⟩
  pure (s, decide (s.taints ≠ s.taintsBak))

/-! ## The Run -/

/-- The entry of one instruction, with loads in place of indices. -/
def convertEntry (ndebug : Bool) (ncals : List ι) (T : TaintMap ι) (e : ι × OrdSet Idx) :
    Exec (TaintMap ι) := do
  let orgs ← e.2.toList.mapM (idxToNcal ndebug ncals)
  pure (T.insert e.1 (.ofList orgs))

def runOnFunction (ndebug : Bool) (O : Oracles ι) (fuel : Nat) (F : IRFunction ι) :
    Exec (TaintMap ι) := do
  let rfs ← rfs O F
  let s ← doWhile (round ndebug O F rfs) fuel ⟨∅, ∅⟩
  s.taints.entries.foldlM (convertEntry ndebug (ncals O F)) ∅

/-- `L ∈ taints[i]` -/
def TaintMap.Has (T : TaintMap ι) (L i : ι) : Prop := ∃ orgs, T.find? i = some orgs ∧ L ∈ orgs

end Clou.SpeculativeTaint
