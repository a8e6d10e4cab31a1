-- SUMMARY: The constant-address analysis: address expressions, the map of constant-address arguments, and the rounds that shrink it.
import Serberus.Lib.OrdMap
import Serberus.Rounds

/-!
# Constant Addresses

The analysis keeps, for each function that is only called directly, the pointer arguments
that every caller passes a constant address for. It starts with all pointer arguments, and
erases an argument when an operand of a call is no constant address under the map as it
is at that moment.
-/

namespace Clou.ConstantAddress

/-- A pointer value, as far as `isConstantAddress` looks into it. -/
inductive Value (α : Type) where
  | argument (A : α)
  | phiNode
  | callBase
  | load
  | intToPtr
  | constant
  | alloca
  | getElementPtr (allConstantIndices : Bool) (pointerOperand : Value α)
  | bitCast (srcIsPointer : Bool) (operand : Value α)
  | select (trueValue falseValue : Value α)
  | extractElement (constantVector constantIndex : Bool)
  | extractValue (constantAggregate : Bool)
  /-- Any other kind of value. -/
  | other
  deriving DecidableEq

inductive Linkage where
  | externalLinkage
  | availableExternallyLinkage
  | linkOnceAnyLinkage
  | linkOnceODRLinkage
  | weakAnyLinkage
  | weakODRLinkage
  | appendingLinkage
  | internalLinkage
  | privateLinkage
  | externalWeakLinkage
  | commonLinkage
  deriving DecidableEq

/-- A user of a function. -/
inductive User (φ α : Type) where
  | call (calledFunction : Option φ) (args : List (Value α))
  | other
  deriving DecidableEq

structure Function (φ α : Type) where
  name : φ
  linkage : Linkage
  hasAddressTaken : Bool
  args : List α
  users : List (User φ α)

/-- `util::functionIsDirectCallOnly` -/
def Function.isDirectCallOnly {φ α : Type} (F : Function φ α) : Bool :=
  if F.hasAddressTaken then false
  else match F.linkage with
    | .internalLinkage => true
    | .privateLinkage => true
    | _ => false

structure Module (φ α : Type) where
  functions : List (Function φ α)
  names_nodup : (functions.map (·.name)).Nodup
  /-- `A->getParent()` -/
  parent : α → φ
  getArgNo : α → Nat
  isPointerTy : α → Bool
  parent_args : ∀ F ∈ functions, ∀ A ∈ F.args, parent A = F.name

section Definitions

variable {φ α : Type} [LinearOrder φ] [LinearOrder α]

/-- `std::map<const llvm::Function *, ArgumentSet>` -/
abbrev ArgumentMap (φ α : Type) [LinearOrder φ] [LinearOrder α] := OrdMap φ (OrdSet α)

def isConstantAddress (M : Module φ α) (ca_args : ArgumentMap φ α) : Value α → Exec Bool
  | .argument A =>
    match ca_args.find? (M.parent A) with
    | none => pure false
    | some args => pure (A ∈ args)
  | .phiNode => pure false
  | .callBase => pure false
  | .load => pure false
  | .intToPtr => pure false
  | .constant => pure true
  | .alloca => pure true
  | .getElementPtr allConstantIndices pointerOperand =>
    if allConstantIndices then isConstantAddress M ca_args pointerOperand else pure false
  | .bitCast srcIsPointer operand =>
    if srcIsPointer then isConstantAddress M ca_args operand else pure false
  | .select trueValue falseValue => do
    if ← isConstantAddress M ca_args trueValue then isConstantAddress M ca_args falseValue
    else pure false
  | .extractElement constantVector constantIndex => pure (constantVector && constantIndex)
  | .extractValue constantAggregate => pure constantAggregate
  | .other => throw .exit

/-- `is_nca` for an argument and the operands of a call. -/
def isNca (M : Module φ α) (ca_args : ArgumentMap φ α) (args : List (Value α)) (A : α) :
    Exec Bool :=
  match args[M.getArgNo A]? with
  | none => pure true
  | some operand => do
    let b ← isConstantAddress M ca_args operand
    pure !b

/-- `args.erase(A)`, where `args` is the set of the callee in the map. -/
def eraseArgument (ca_args : ArgumentMap φ α) (Callee : φ) (A : α) : ArgumentMap φ α :=
  match ca_args.find? Callee with
  | none => ca_args
  | some args => ca_args.insert Callee (args.erase A)

def visitArgument (M : Module φ α) (Callee : φ) (args : List (Value α)) (ca_args : ArgumentMap φ α)
    (A : α) : Exec (ArgumentMap φ α) := do
  if ← isNca M ca_args args A then pure (eraseArgument ca_args Callee A) else pure ca_args

/-- The loop over the arguments at one user. Only the argument at hand is erased, so the
loop sees the set that it started with. -/
def visitUser (M : Module φ α) (Callee : φ) (ca_args : ArgumentMap φ α) (U : User φ α) :
    Exec (ArgumentMap φ α) :=
  match U with
  | .call _ args =>
    match ca_args.find? Callee with
    | none => throw .outOfRange
    | some set => set.toList.foldlM (visitArgument M Callee args) ca_args
  -- `llvm::cast` of a user that is no call
  | .other => throw .abort

def visitFunction (M : Module φ α) (ca_args : ArgumentMap φ α) (Callee : Function φ α) :
    Exec (ArgumentMap φ α) :=
  Callee.users.foldlM (visitUser M Callee.name) ca_args

/-- The direct-call-only functions. -/
def Module.directCallOnly (M : Module φ α) : List (Function φ α) :=
  M.functions.filter (·.isDirectCallOnly)

/-- The pointer arguments of a function. -/
def Function.pointerArgs (M : Module φ α) (F : Function φ α) : OrdSet α :=
  .ofList (F.args.filter (M.isPointerTy ·))

def top (M : Module φ α) : ArgumentMap φ α :=
  M.directCallOnly.foldl (fun map F => map.insert F.name (F.pointerArgs M)) ∅

def runOnModule (fuel : Nat) (M : Module φ α) : Exec (ArgumentMap φ α) :=
  rounds id (fun map => M.directCallOnly.foldlM (visitFunction M) map) fuel (top M)

end Definitions

end Clou.ConstantAddress
