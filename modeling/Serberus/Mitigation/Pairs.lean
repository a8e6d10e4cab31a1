-- SUMMARY: The ST pairs of the other modes of the pass, and the whole of what the pass does to a function.
import Serberus.ConstantAddress.Analysis
import Serberus.Mitigation.Accesses
import Serberus.Mitigation.BaseAddresses
import Serberus.Mitigation.Cut

/-!
# Pairs

Besides the pairs of accesses and transmitters, `MitigatePass::runOnFunction` collects pairs for
calls and returns, for stores to global variables, for the entry of the function and for loads,
each kind when its mode is enabled. It collects all of them before it cuts the graph.
-/

open Relation

namespace Clou.Mitigation

open ControlFlow Leakage

/-- The modes that `Options` leaves out. -/
structure Modes where
  /-- `enabled.ncas_ctrl` -/
  ncasCtrl : Bool
  /-- `enabled.ncal_glob` -/
  ncalGlob : Bool
  /-- `enabled.entry_xmit` -/
  entryXmit : Bool
  /-- `enabled.load_xmit` -/
  loadXmit : Bool
  /-- `enabled.call_xmit` -/
  callXmit : Bool
  deriving DecidableEq

/-- What the pass asks of values in these modes. -/
structure Queries (ν : Type) [LinearOrder ν] extends Answers ν where
  addressKind : ν → AddressKind ν
  /-- How deep `getBaseAddresses` may go. -/
  depth : Nat
  /-- `util::getCalledFunction` -/
  calledFunction : ν → Option (ConstantAddress.Function ν ν)

section Definitions

variable {β ν : Type} [DecidableEq β] [LinearOrder ν] (F : Function β ν) (A : Answers ν)

/-! ## Calls and Returns -/

/-- The instructions that `getCtrls` puts out. -/
def isCtrl (I : Instruction ν) : Bool :=
  A.isFunctionCall F I.id ||
    match I.kind with
    | .ret _ => true
    | _ => false

def getCtrls : OrdSet ν := .ofList ((F.ir.instructions.filter (isCtrl F A)).map (·.id))

/-- `if (enabled.ncas_ctrl) { … }` -/
def addNcasCtrl (o : Options) (m : Modes) (stores : SecretStores ν) (s : PassState ν) :
    PassState ν :=
  if m.ncasCtrl then s.addST [ncas F A o stores, getCtrls F A] else s

/-! ## Stores to Global Variables -/

def addGlobalStore (Q : Queries ν) (s : PassState ν) (SI : Instruction ν) : Exec (PassState ν) :=
  match SI.kind with
  | .store SV ptr =>
    if Q.isConstantAddress ptr then do
      let isGlobal ← isGlobalAddress Q.addressKind Q.depth ptr
      if isGlobal && !Q.nonspeculativelySecret SV && Q.secret F SV then
        match Q.taints.find? SV with
        | some orgs =>
          pure (orgs.toList.foldl (fun s LI => s.addST [.ofList [LI], .ofList [SI.id]]) s)
        | none => throw .outOfRange
      else pure s
    else pure s
  | _ => pure s

/-- `if (enabled.ncal_glob) { … }` -/
def addNcalGlob (Q : Queries ν) (m : Modes) (s : PassState ν) : Exec (PassState ν) :=
  if m.ncalGlob then F.ir.instructions.foldlM (addGlobalStore F Q) s else pure s

/-! ## The Entry -/

/-- A load from a constant address. -/
def isConstantLoad (V : ν) : Bool :=
  match F.ir.instruction? V with
  | some ⟨_, _, _, .load ptr _⟩ => A.isConstantAddress ptr
  | _ => false

/-- `isa<CallBase>(V)` -/
def isCallBase (V : ν) : Bool :=
  match F.ir.instruction? V with
  | some ⟨_, _, _, .intrinsic _ _ _ _⟩ => true
  | some ⟨_, _, _, .call _ _ _⟩ => true
  | _ => false

/-- A transmitter of a value that is computed from a load from a constant address. -/
def transmitsConstantLoad (I : Instruction ν) : Exec Bool := do
  let ops ← getTransmitterSensitiveOperands I
  ops.anyM fun op => do
    let loads ← F.incomingLoads op.V
    pure (loads.toList.any (isConstantLoad F A))

/-- A transmitter of a value that is no constant. -/
def transmitsNonConstant (I : Instruction ν) : Exec Bool := do
  let ops ← getTransmitterSensitiveOperands I
  pure (ops.any fun op => !A.isConstant op.V)

/-- `if (…) xmits.insert(I)`, for an instruction that a search has come to. -/
def addXmitIf (test : Instruction ν → Exec Bool) (xmits : OrdSet ν) (V : ν) : Exec (OrdSet ν) :=
  match F.ir.instruction? V with
  | some I => do
    let found ← test I
    pure (if found then xmits.insert V else xmits)
  | none => pure xmits

/-- A search from `todo` along `succs`. -/
def Function.sweepFrom (succs : ν → List ν) (todo : List ν) : List ν :=
  Search.sweep succs
    (todo.length + (F.cfg.instructions.map fun i => (F.cfg.successorsInst i).length).sum) todo []

/-- The search for pre-call transmitters stops at calls. -/
def preCallSuccs (I : ν) : List ν :=
  if A.isFunctionCall F I then [] else F.cfg.successorsInst I

/-- What the search for pre-call transmitters comes to, the calls at which it stops left out. -/
def preCall : List ν :=
  (F.sweepFrom (preCallSuccs F A) [F.cfg.first]).filter fun I => !A.isFunctionCall F I

/-- What the search for post-call transmitters comes to. -/
def postCall : List ν :=
  F.sweepFrom F.cfg.successorsInst (F.cfg.instructions.filter (isCallBase F))

def getEntryXmits : Exec (OrdSet ν) := do
  let xmits ← (preCall F A).foldlM (addXmitIf F (transmitsConstantLoad F A)) ∅
  (postCall F).foldlM (addXmitIf F (transmitsNonConstant A)) xmits

/-- `if (enabled.entry_xmit) { … }` -/
def addEntryXmit (m : Modes) (s : PassState ν) : Exec (PassState ν) :=
  if m.entryXmit then do
    let xmits ← getEntryXmits F A
    pure (s.addST [.ofList [F.cfg.first], xmits])
  else pure s

/-! ## Loads and Calls -/

def addLoadSources (sources : OrdSet ν) (op : TransmitterOperand ν) : Exec (OrdSet ν) := do
  let loads ← F.incomingLoads op.V
  pure (insertAll sources (loads.toList.filter (isLoad F)))

/-- `{load} x {dependent transmitters}`, for one transmitter. -/
def addLoads (s : PassState ν) (xmit : Instruction ν) : Exec (PassState ν) := do
  let ops ← getTransmitterSensitiveOperands xmit
  let sources ← ops.foldlM (addLoadSources F) ∅
  pure (s.addST [sources, .ofList [xmit.id]])

def getCalls : OrdSet ν := .ofList (F.cfg.instructions.filter (A.isFunctionCall F))

/-- `{call} x {transmitters}` -/
def addCalls (s : PassState ν) : Exec (PassState ν) := do
  let xmits ← F.cfg.instructions.foldlM (addXmitIf F (transmitsNonConstant A)) ∅
  pure (s.addST [getCalls F A, xmits])

/-- The predecessors of an instruction, or the first one of the function. -/
def getSourcesBefore (I : ν) : OrdSet ν :=
  let sources := OrdSet.ofList (F.cfg.predecessors I)
  if sources.isEmpty then .ofList [F.cfg.first] else sources

def isReturn (I : Instruction ν) : Bool :=
  match I.kind with
  | .ret _ => true
  | _ => false

/-- A call whose function is not known to be called directly only. -/
def Queries.isOpenCall (Q : Queries ν) (I : Instruction ν) : Bool :=
  Q.isFunctionCall F I.id && !(Q.calledFunction I.id).any (·.isDirectCallOnly)

/-- The pair of an instruction and what comes before it. -/
def addBefore (s : PassState ν) (I : Instruction ν) : PassState ν :=
  s.addST [getSourcesBefore F I.id, .ofList [I.id]]

/-- `if (enabled.load_xmit) { … }` -/
def addLoadXmit (Q : Queries ν) (m : Modes) (s : PassState ν) : Exec (PassState ν) :=
  if m.loadXmit then do
    let s ← F.ir.instructions.foldlM (addLoads F) s
    let s ← addCalls F Q.toAnswers s
    let s := (F.ir.instructions.filter isReturn).foldl (addBefore F) s
    pure ((F.ir.instructions.filter (Q.isOpenCall F)).foldl (addBefore F) s)
  else pure s

/-- `if (enabled.call_xmit) { … }` -/
def addCallXmit (m : Modes) (s : PassState ν) : Exec (PassState ν) :=
  if m.callXmit then addCalls F A s else pure s

/-! ## The Whole Pass -/

/-- `assert(ST.secret(&LI))`, among the statistics of loads from addresses that are not constant. -/
def checkLoad (ndebug : Bool) (I : Instruction ν) : Exec Unit :=
  match I.kind with
  | .load ptr _ =>
    if !A.isConstantAddress ptr && !ndebug && !A.secret F I.id then throw .abort else pure ()
  | _ => pure ()

/-- The pairs of all modes, in the order in which they are collected. -/
def collectPairs (ndebug : Bool) (o : Options) (m : Modes) (Q : Queries ν) : Exec (PassState ν) := do
  let stores ← getNonConstantAddressSecretStores F Q.toAnswers
  let transmitters ← getTransmitters F Q.toAnswers
  F.ir.instructions.forM (checkLoad F Q.toAnswers ndebug)
  let s ← addNcasXmit ndebug o F Q.toAnswers stores ⟨∅, []⟩
  let s := addNcasCtrl F Q.toAnswers o m stores s
  let s ← addNcalXmit ndebug o F Q.toAnswers transmitters s
  let s ← addNcalGlob F Q m s
  let s ← addEntryXmit F Q.toAnswers m s
  let s ← addLoadXmit F Q m s
  addCallXmit F Q.toAnswers m s

/-- The instructions as the pass sees them: what `L` is asked of them, but calls and returns
are those of the function. -/
def passIR (L : IR β ν) : IR β ν :=
  { L with
    isReturnInst := fun V => (F.ir.instruction? V).any isReturn
    mayLowerToFunctionCall := A.isFunctionCall F }

/-- `MitigatePass::runOnFunction`: the function that it leaves. -/
def mitigatePass (L : IR β ν) (S : Setup ν) (whitelisted : Bool) (o : Options) (m : Modes)
    (Q : Queries ν) : Exec (CFG β ν) :=
  if whitelisted then pure F.cfg
  else do
    let s ← collectPairs F S.ndebug o m Q
    (passIR F Q.toAnswers L).cutAndMitigate S F.cfg s.sts

end Definitions

end Clou.Mitigation
