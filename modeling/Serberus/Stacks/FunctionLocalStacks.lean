-- SUMMARY: The pass that gives every function a stack of its own, as the code computes it.
import Serberus.CallGraph.PassedOver
import Serberus.Leakage.Instructions

/-!
# `FunctionLocalStacks::runOnModule`

Every defined function gets a stack and a global variable for its stack pointer. A function
that calls others saves the stack pointer on entry, and one that may recurse restores the old
one where it returns. The pass asks the recursion check three times for a function, while it
changes it.
-/

namespace Clou.Stacks

open CallGraph (Value CallKind)

/-- The instructions that the pass inserts. Each of them stands for the value that it computes. -/
inductive Inserted where
  /-- `IRB.CreateLoad(sp_ty, sp)` -/
  | oldSP
  /-- `read_register` -/
  | readRegister
  /-- `NewSP` -/
  | newSP
  /-- `IRB.CreateStore(NewSP, sp)` -/
  | storeNewSP
  | stackEnd
  | stackEndI
  | oldSPI
  /-- `umin` -/
  | clippedOldSPI
  | clippedOldSP
  /-- `IRB.CreateStore(ClippedOldSP, sp)` -/
  | storeClippedOldSP
  deriving DecidableEq

inductive Inst (φ ι : Type) where
  | source (I : CallGraph.Instruction φ ι)
  | inserted (k : Inserted)
  deriving DecidableEq

/-- How control leaves a block. -/
inductive Exit (β : Type) where
  | ret
  | jump (succs : List β)
  /-- `resume`, `unreachable` -/
  | other
  deriving DecidableEq

/-- `isa<ReturnInst>(B.back())` -/
def Exit.isReturn {β : Type} : Exit β → Bool
  | .ret => true
  | _ => false

/-- A block of instructions. The call that an `invoke` makes is the last one of them. -/
structure Block (β κ : Type) where
  label : β
  body : List κ
  exit : Exit β
  deriving DecidableEq

structure Function (φ β κ : Type) where
  name : φ
  norecurse : Bool
  isIntrinsic : Bool
  /-- The attribute `stackrealign`. -/
  stackrealign : Bool
  /-- The attribute `FnAttr_fps_usestack`. -/
  fpsUsestack : Bool
  /-- The blocks, the entry block first; none for a declaration. -/
  blocks : List (Block β κ)
  deriving DecidableEq

structure Module (φ β κ : Type) where
  functions : List (Function φ β κ)
  names_nodup : (functions.map (·.name)).Nodup

/-- The variables that the pass creates. The stack pointer begins one past the end of the stack. -/
inductive GlobalVariable (φ : Type) where
  | stack (f : φ)
  | sp (f : φ)
  deriving DecidableEq

/-- The intrinsics that `mayLowerToFunctionCall` lists. -/
inductive Intrinsic where
  | known (id : Leakage.Intrinsic)
  | memmove
  | memcpyInline
  | vastart
  | vaend
  | vacopy
  | x86Sse2Mfence
  | stackrestore
  | maskedStore
  | trap
  | prefetch
  deriving DecidableEq

/-- What the pass is run with: whether it is enabled, the depth of its recursions, the intrinsics,
and names for what it inserts. -/
structure Setup (φ ι : Type) where
  fps : Bool
  fuel : Nat
  isAssumeLikeIntrinsic : φ → Bool
  intrinsicID : φ → Intrinsic
  readRegister : φ
  umin : φ
  id : φ → Inserted → ι

section Definitions

variable {φ β κ κ' ι : Type}

namespace Function

def isDeclaration (F : Function φ β κ) : Bool := F.blocks.isEmpty

def instructions (F : Function φ β κ) : List κ := F.blocks.flatMap (·.body)

def map (g : κ → κ') (F : Function φ β κ) : Function φ β κ' :=
  { F with blocks := F.blocks.map fun B => { B with body := B.body.map g } }

end Function

/-- A module before the pass. -/
def Module.embed (M : Module φ β (CallGraph.Instruction φ ι)) : Module φ β (Inst φ ι) where
  functions := M.functions.map (·.map .source)
  names_nodup := by
    rw [List.map_map]
    exact M.names_nodup

/-- An instruction as the recursion check sees it. -/
def Inst.toCallGraph (S : Setup φ ι) (f : φ) : Inst φ ι → CallGraph.Instruction φ ι
  | .source I => I
  | .inserted .readRegister =>
    .call (S.id f .readRegister) .call [.constant 0] (.function S.readRegister)
  | .inserted .clippedOldSPI =>
    .call (S.id f .clippedOldSPI) .call [.inst (S.id f .stackEndI), .inst (S.id f .oldSPI)]
      (.function S.umin)
  | .inserted k => .other (S.id f k) []

def Function.toCallGraph (S : Setup φ ι) (F : Function φ β (Inst φ ι)) :
    CallGraph.Function φ ι where
  name := F.name
  norecurse := F.norecurse
  isIntrinsic := F.isIntrinsic
  body :=
    if F.isDeclaration then none else some (F.instructions.map (Inst.toCallGraph S F.name))

def Module.toCallGraph (S : Setup φ ι) (M : Module φ β (Inst φ ι)) : CallGraph.Module φ ι where
  functions := M.functions.map (·.toCallGraph S)
  globals := []
  names_nodup := by
    rw [List.map_map]
    exact M.names_nodup

/-! ## Changing a Function -/

/-- `F.addFnAttr("stackrealign")` -/
def Function.addStackRealign (F : Function φ β (Inst φ ι)) : Function φ β (Inst φ ι) :=
  { F with stackrealign := true }

/-- `F.addFnAttr(FnAttr_fps_usestack)` -/
def Function.addUsestack (F : Function φ β (Inst φ ι)) : Function φ β (Inst φ ι) :=
  { F with fpsUsestack := true }

/-- `ks` behind the first `n` instructions of the entry block. -/
def Function.insertEntry (n : Nat) (ks : List Inserted) (F : Function φ β (Inst φ ι)) :
    Function φ β (Inst φ ι) :=
  { F with blocks := F.blocks.modifyHead fun B =>
      { B with body := B.body.take n ++ ks.map .inserted ++ B.body.drop n } }

/-- `ks` before every return. -/
def Function.insertReturns (ks : List Inserted) (F : Function φ β (Inst φ ι)) :
    Function φ β (Inst φ ι) :=
  { F with blocks := F.blocks.map fun B =>
      if B.exit.isReturn then { B with body := B.body ++ ks.map .inserted } else B }

/-- What is inserted on entry when the stack pointer is saved. -/
def saved : List Inserted := [.readRegister, .newSP, .storeNewSP]

/-- What is inserted before a return. -/
def restored : List Inserted :=
  [.stackEnd, .stackEndI, .oldSPI, .clippedOldSPI, .clippedOldSP, .storeClippedOldSP]

theorem name_addStackRealign (F : Function φ β (Inst φ ι)) : F.addStackRealign.name = F.name := rfl

theorem name_addUsestack (F : Function φ β (Inst φ ι)) : F.addUsestack.name = F.name := rfl

theorem name_insertEntry (n : Nat) (ks : List Inserted) (F : Function φ β (Inst φ ι)) :
    (F.insertEntry n ks).name = F.name := rfl

theorem name_insertReturns (ks : List Inserted) (F : Function φ β (Inst φ ι)) :
    (F.insertReturns ks).name = F.name := rfl

variable [LinearOrder φ]

namespace Module

def function? (M : Module φ β κ) (f : φ) : Option (Function φ β κ) :=
  M.functions.find? (·.name = f)

/-- Changes a function, but not its name. -/
def update (M : Module φ β κ) (f : φ) (g : Function φ β κ → Function φ β κ)
    (hg : ∀ F, (g F).name = F.name) : Module φ β κ where
  functions := M.functions.map fun F => if F.name = f then g F else F
  names_nodup := by
    have hnames : (M.functions.map fun F => if F.name = f then g F else F).map (·.name) =
        M.functions.map (·.name) := by
      rw [List.map_map]
      refine List.map_congr_left fun F _ => ?_
      simp only [Function.comp_apply]
      split_ifs
      · exact hg F
      · rfl
    rw [hnames]
    exact M.names_nodup

end Module

/-! ## The Pass -/

/-- `shouldRestoreOldSP` -/
def shouldRestoreOldSP (S : Setup φ ι) (M : Module φ β (Inst φ ι)) (f : φ) : Exec Bool :=
  match M.function? f with
  | none => throw .outOfRange
  | some F => do
    let b ← CallGraph.doesNotRecurse S.fuel (M.toCallGraph S) (F.toCallGraph S)
    pure !b

/-- `util::mayLowerToFunctionCall`, of a call of this kind. -/
def mayLowerToFunctionCall (S : Setup φ ι) (M : CallGraph.Module φ ι) (kind : CallKind)
    (calledOperand : Value φ ι) : Exec Bool :=
  match kind, calledOperand with
  | .call, .function f =>
    if M.isIntrinsicInst .call (.function f) then
      if S.isAssumeLikeIntrinsic f then pure false
      else match S.intrinsicID f with
        | .known .memset => pure true
        | .known .memcpy => pure true
        | .memmove => pure true
        | .known (.other (.unlisted _)) => throw .exit
        | _ => pure false
    else pure true
  | _, _ => pure true

/-- `shouldSaveNewSP` -/
def shouldSaveNewSP (S : Setup φ ι) (M : Module φ β (Inst φ ι)) (f : φ) : Exec Bool :=
  match M.function? f with
  | none => throw .outOfRange
  | some F => (F.toCallGraph S).instructions.anyM fun I =>
    match I with
    | .call _ kind _ calledOperand =>
      mayLowerToFunctionCall S (M.toCallGraph S) kind calledOperand
    | _ => pure false

/-- `runOnFunction`, with the variables that are output. -/
def runOnFunction (S : Setup φ ι) (M : Module φ β (Inst φ ι)) (f : φ) :
    Exec (Module φ β (Inst φ ι) × List (GlobalVariable φ)) := do
  let M := M.update f .addStackRealign name_addStackRealign
  let restore ← shouldRestoreOldSP S M f
  let M := if restore then M else M.update f .addUsestack name_addUsestack
  let restore ← shouldRestoreOldSP S M f
  let M := if restore then M.update f (.insertEntry 0 [.oldSP]) (name_insertEntry 0 _) else M
  -- the builder inserts before what was the first instruction
  let n := if restore then 1 else 0
  let save ← shouldSaveNewSP S M f
  let M := if save then M.update f (.insertEntry n saved) (name_insertEntry n _) else M
  let restore ← shouldRestoreOldSP S M f
  let M := if restore then M.update f (.insertReturns restored) (name_insertReturns _) else M
  pure (M, [.stack f, .sp f])

/-- The body of the loop over the functions of the module. -/
def visitFunction (S : Setup φ ι) (s : Module φ β (Inst φ ι) × List (GlobalVariable φ)) (f : φ) :
    Exec (Module φ β (Inst φ ι) × List (GlobalVariable φ)) :=
  match s.1.function? f with
  | none => throw .outOfRange
  | some F =>
    if F.isDeclaration then pure s
    else do
      let (M, GVs) ← runOnFunction S s.1 f
      pure (M, s.2 ++ GVs)

def runOnModule (S : Setup φ ι) (M : Module φ β (Inst φ ι)) :
    Exec (Bool × Module φ β (Inst φ ι)) :=
  if S.fps then do
    let (M, _) ← (M.functions.map (·.name)).foldlM (visitFunction S) (M, [])
    pure (true, M)
  else pure (false, M)

end Definitions

end Clou.Stacks
