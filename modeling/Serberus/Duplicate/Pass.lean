-- SUMMARY: The duplication pass, as the code computes it: it clones functions and walks a use list while it sets operands.
import Serberus.Exec
import Serberus.Lib.UseLists

/-!
# `DuplicatePass::runOnModule`

Functions that are called directly, and may also be reached otherwise, are cloned one after
the other. The loop over the uses of a function sets operands to the clone, and an operand
that is set leaves the list that the loop goes through.
-/

namespace Clou.Duplicate

open UseLists

/-! ## Modules -/

/-- `llvm::Function::LinkageTypes`, as far as functions may have them. -/
inductive Linkage where
  | externalLinkage
  | availableExternallyLinkage
  | linkOnceAnyLinkage
  | linkOnceODRLinkage
  | weakAnyLinkage
  | weakODRLinkage
  | externalWeakLinkage
  | internalLinkage
  | privateLinkage
  deriving DecidableEq

structure Function (φ : Type) where
  id : φ
  isDeclaration : Bool
  linkage : Linkage
  hasAddressTaken : Bool
  /-- The name ends with the suffix of clones. -/
  hasSuffix : Bool
  deriving DecidableEq

/-- The functions in order, and the users of values: instructions, and functions and constants
that refer to functions. The last operand of a call is its called operand. -/
structure Module (φ ι : Type) where
  functions : List (Function φ)
  ids_nodup : (functions.map (·.id)).Nodup
  isCall : ι → Bool
  /-- The function that a user is in, if it is in one. -/
  parent : ι → Option φ
  heap : Heap φ ι
  wf : heap.WF

section Definitions

variable {φ ι : Type}

/-- `C->getCalledOperand()` -/
def calledOperand {α κ : Type} (H : Heap α κ) (C : κ) : Option α := (H.operands C).getLast?.join

def canDuplicate : Linkage → Bool
  | .externalLinkage => true
  | .availableExternallyLinkage => true
  | .linkOnceAnyLinkage => true
  | .linkOnceODRLinkage => true
  | .weakAnyLinkage => false
  | .weakODRLinkage => false
  | .externalWeakLinkage => false
  | .internalLinkage => true
  | .privateLinkage => true

def functionIsDirectCallOnly (F : Function φ) : Bool :=
  if F.hasAddressTaken then false
  else match F.linkage with
    | .internalLinkage => true
    | .privateLinkage => true
    | _ => false

variable [DecidableEq φ] [DecidableEq ι]

/-- `U == C->getCalledOperandUse()` compares what the two operands refer to. -/
def shouldDuplicate (M : Module φ ι) (F : Function φ) : Bool :=
  if F.isDeclaration then false
  else if !canDuplicate F.linkage then false
  else if functionIsDirectCallOnly F then false
  else (M.heap.uses F.id).any fun U =>
    M.isCall U.user && M.heap.value U = calledOperand M.heap U.user

def Module.worklist (M : Module φ ι) : List (Function φ) := M.functions.filter (shouldDuplicate M)

/-! ## Clones -/

/-- Something of the module, or its clone. -/
inductive Copy (α : Type) where
  | original (a : α)
  | clone (a : α)
  deriving DecidableEq

/-- What something is, or is a clone of. -/
def Copy.base {α : Type} : Copy α → α
  | .original a => a
  | .clone a => a

abbrev State (φ ι : Type) := Heap (Copy φ) (Copy ι)

/-- The module before the pass. -/
def Module.init (M : Module φ ι) : State φ ι where
  operands
    | .original i => (M.heap.operands i).map (Option.map .original)
    | .clone _ => []
  uses
    | .original f => (M.heap.uses f).map fun U => ⟨.original U.user, U.operandNo⟩
    | .clone _ => []

/-- The order in which the operands of cloned users get into the use lists: `order F g` rearranges
the uses of `g` in the body of `F`. -/
abbrev CloneOrder (φ ι : Type) := φ → Copy φ → List (Use (Copy ι)) → List (Use (Copy ι))

/-- The use is in the body of `F`. -/
def inBody (M : Module φ ι) (F : φ) (U : Use (Copy ι)) : Bool :=
  match U.user with
  | .original i => M.parent i = some F
  | .clone _ => false

def cloneUse (U : Use (Copy ι)) : Use (Copy ι) := ⟨.clone U.user.base, U.operandNo⟩

/-- `llvm::CloneFunction`: what is in the body is cloned; functions are not renamed in it. -/
def cloneBody (M : Module φ ι) (order : CloneOrder φ ι) (F : φ) (s : State φ ι) : State φ ι where
  operands
    | .original i => s.operands (.original i)
    | .clone i =>
      if M.parent i = some F then s.operands (.original i) else s.operands (.clone i)
  uses g := order F g (((s.uses g).filter (inBody M F)).map cloneUse) ++ s.uses g

/-- `for (const llvm::Use& U : F.uses())`, from the use `U?` on. -/
def redirectUses (M : Module φ ι) (F : φ) : Nat → Option (Use (Copy ι)) → State φ ι → Exec (State φ ι)
  | _, none, s => pure s
  | 0, some _, _ => throw .outOfFuel
  | fuel + 1, some U, s =>
    let s := if M.isCall U.user.base ∧ U.operandNo = 0 then s.set U (.clone F) else s
    redirectUses M F fuel (s.next U) s

def cloneFunction (ndebug : Bool) (M : Module φ ι) (order : CloneOrder φ ι) (fuel : Nat)
    (s : State φ ι) (F : Function φ) : Exec (State φ ι) := do
  assert ndebug .noCloningLoop (F.hasSuffix = false)
  let s := cloneBody M order F.id s
  redirectUses M F.id fuel (s.uses (.original F.id)).head? s

/-- `DuplicatePass::runOnModule`: the module behind the pass, and whether there was work. -/
def runOnModule (ndebug : Bool) (order : CloneOrder φ ι) (fuel : Nat) (M : Module φ ι) :
    Exec (State φ ι × Bool) := do
  let s ← M.worklist.foldlM (cloneFunction ndebug M order fuel) M.init
  pure (s, !M.worklist.isEmpty)

end Definitions

end Clou.Duplicate
