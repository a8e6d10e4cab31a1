-- SUMMARY: Modules as far as calls and stack slots go, and the call relation between their functions.
import Mathlib.Data.List.Nodup
import Serberus.Exec
import Serberus.Lib.CallStack

/-!
# Modules

A module is a list of functions. A function without a body is a declaration. Calls name
their target through a value, which may be a function behind bit casts; what any other
called value leads to, and what a declaration calls, the environment says.
-/

namespace Clou.CallGraph

/-- What operands of instructions refer to. -/
inductive Value (φ ι : Type) where
  | function (f : φ)
  /-- A `BitCastOperator`: an instruction or a constant expression. -/
  | bitCast (V : Value φ ι)
  /-- The result of an instruction that is no bit cast. -/
  | inst (i : ι)
  | argument (n : Nat)
  | inlineAsm
  | globalVariable (n : Nat)
  /-- Any other constant. -/
  | constant (n : Nat)
  deriving DecidableEq

/-- The kinds of `CallBase`. -/
inductive CallKind where
  | call
  | invoke
  | callBr
  deriving DecidableEq

structure AllocaInst where
  allocatedType : Nat
  align : Nat
  /-- `isStaticAlloca()` -/
  isStatic : Bool
  deriving DecidableEq

inductive Instruction (φ ι : Type) where
  | call (i : ι) (kind : CallKind) (args : List (Value φ ι)) (calledOperand : Value φ ι)
  | alloca (i : ι) (AI : AllocaInst)
  | other (i : ι) (operands : List (Value φ ι))
  deriving DecidableEq

structure Function (φ ι : Type) where
  name : φ
  /-- `F.doesNotRecurse()`: the attribute `norecurse`. -/
  norecurse : Bool
  isIntrinsic : Bool
  /-- The instructions in order, `none` for a declaration. -/
  body : Option (List (Instruction φ ι))
  deriving DecidableEq

inductive Linkage where
  | external
  | internal
  deriving DecidableEq

structure GlobalVariable where
  valueType : Nat
  isConstant : Bool
  linkage : Linkage
  /-- The initializer is the null value of the type. -/
  nullInitializer : Bool
  align : Nat
  dsoLocal : Bool
  deriving DecidableEq

structure Module (φ ι : Type) where
  functions : List (Function φ ι)
  globals : List GlobalVariable
  names_nodup : (functions.map (·.name)).Nodup

section Definitions

variable {φ ι : Type}

def Function.isDeclaration (F : Function φ ι) : Bool := F.body.isNone

def Function.instructions (F : Function φ ι) : List (Instruction φ ι) := F.body.getD []

/-- The function that a value is, behind its bit casts. -/
def Value.target : Value φ ι → Option φ
  | .function f => some f
  | .bitCast V => V.target
  | _ => none

/-- A call, and the function that it names if it names one. -/
def Instruction.callSite : Instruction φ ι → Option (ι × Option φ)
  | .call i _ _ calledOperand => some (i, calledOperand.target)
  | _ => none

def Function.callSites (F : Function φ ι) : List (ι × Option φ) :=
  F.instructions.filterMap Instruction.callSite

variable [DecidableEq φ]

def Module.function? (M : Module φ ι) (f : φ) : Option (Function φ ι) :=
  M.functions.find? (·.name = f)

/-- `isa<IntrinsicInst>`: a plain call that names an intrinsic directly. -/
def Module.isIntrinsicInst (M : Module φ ι) (kind : CallKind) (calledOperand : Value φ ι) : Bool :=
  match kind, calledOperand with
  | .call, .function f => (M.function? f).any (·.isIntrinsic)
  | _, _ => false

omit [DecidableEq φ] in
theorem Module.eq_of_name {M : Module φ ι} {F G : Function φ ι} (hF : F ∈ M.functions)
    (hG : G ∈ M.functions) (h : F.name = G.name) : F = G :=
  List.inj_on_of_nodup_map M.names_nodup hF hG h

theorem Module.function?_eq_some {M : Module φ ι} {f : φ} {F : Function φ ι}
    (h : M.function? f = some F) : F ∈ M.functions ∧ F.name = f :=
  ⟨List.mem_of_find?_eq_some h, by simpa using List.find?_some h⟩

/-- A function of the module with this name is an intrinsic. -/
def Module.Intrinsic (M : Module φ ι) (f : φ) : Prop :=
  ∃ F ∈ M.functions, F.name = f ∧ F.isIntrinsic = true

theorem Module.isIntrinsicInst_eq_true {M : Module φ ι} {kind : CallKind} {V : Value φ ι}
    (h : M.isIntrinsicInst kind V = true) : ∃ f, V.target = some f ∧ M.Intrinsic f := by
  unfold isIntrinsicInst at h
  split at h
  · obtain ⟨F, hF, hintrinsic⟩ := (Option.any_eq_true _ _).mp h
    exact ⟨_, rfl, F, (function?_eq_some hF).1, (function?_eq_some hF).2, hintrinsic⟩
  · cases h

end Definitions

/-! ## The Call Relation -/

/-- What the module does not show: the targets of a call that names no function, and what
declarations call. -/
structure Env (φ ι : Type) where
  indirect : φ → ι → φ → Prop
  external : φ → φ → Prop

section Calls

variable {φ ι : Type}

/-- A function may call another. -/
inductive Module.Calls (M : Module φ ι) (env : Env φ ι) : φ → φ → Prop
  | direct {F : Function φ ι} {i : ι} {g : φ} (hF : F ∈ M.functions)
      (h : (i, some g) ∈ F.callSites) : Calls M env F.name g
  | indirect {F : Function φ ι} {i : ι} {g : φ} (hF : F ∈ M.functions)
      (h : (i, none) ∈ F.callSites) (hg : env.indirect F.name i g) : Calls M env F.name g
  | external {F : Function φ ι} {g : φ} (hF : F ∈ M.functions) (h : F.isDeclaration = true)
      (hg : env.external F.name g) : Calls M env F.name g

/-- Two functions with the same name and attributes and the same calls. -/
structure Function.Alike (F F' : Function φ ι) : Prop where
  name : F'.name = F.name
  norecurse : F'.norecurse = F.norecurse
  isIntrinsic : F'.isIntrinsic = F.isIntrinsic
  isDeclaration : F'.isDeclaration = F.isDeclaration
  callSites : F'.callSites = F.callSites

theorem Function.Alike.refl (F : Function φ ι) : F.Alike F := ⟨rfl, rfl, rfl, rfl, rfl⟩

theorem Function.Alike.symm {F F' : Function φ ι} (h : F.Alike F') : F'.Alike F :=
  ⟨h.name.symm, h.norecurse.symm, h.isIntrinsic.symm, h.isDeclaration.symm, h.callSites.symm⟩

theorem Function.Alike.trans {F F' F'' : Function φ ι} (h : F.Alike F') (h' : F'.Alike F'') :
    F.Alike F'' :=
  ⟨h'.name.trans h.name, h'.norecurse.trans h.norecurse, h'.isIntrinsic.trans h.isIntrinsic,
    h'.isDeclaration.trans h.isDeclaration, h'.callSites.trans h.callSites⟩

/-- Two modules each of whose functions is alike to one of the other module. -/
structure Module.Alike (M M' : Module φ ι) : Prop where
  left : ∀ F ∈ M.functions, ∃ F' ∈ M'.functions, F.Alike F'
  right : ∀ F' ∈ M'.functions, ∃ F ∈ M.functions, F.Alike F'

variable {M M' M'' : Module φ ι} {env : Env φ ι}

theorem Module.Alike.refl (M : Module φ ι) : M.Alike M :=
  ⟨fun F hF => ⟨F, hF, .refl F⟩, fun F hF => ⟨F, hF, .refl F⟩⟩

theorem Module.Alike.symm (h : M.Alike M') : M'.Alike M where
  left F' hF' :=
    let ⟨F, hF, hlike⟩ := h.right F' hF'
    ⟨F, hF, hlike.symm⟩
  right F hF :=
    let ⟨F', hF', hlike⟩ := h.left F hF
    ⟨F', hF', hlike.symm⟩

theorem Module.Alike.trans (h : M.Alike M') (h' : M'.Alike M'') : M.Alike M'' where
  left F hF :=
    let ⟨F', hF', hlike⟩ := h.left F hF
    let ⟨F'', hF'', hlike'⟩ := h'.left F' hF'
    ⟨F'', hF'', hlike.trans hlike'⟩
  right F'' hF'' :=
    let ⟨F', hF', hlike'⟩ := h'.right F'' hF''
    let ⟨F, hF, hlike⟩ := h.right F' hF'
    ⟨F, hF, hlike.trans hlike'⟩

theorem Module.Alike.calls_of (h : M.Alike M') {f g : φ} (hcalls : M'.Calls env f g) :
    M.Calls env f g := by
  cases hcalls with
  | direct hF' hsite =>
    obtain ⟨F, hF, hlike⟩ := h.right _ hF'
    rw [hlike.name]
    exact .direct hF (hlike.callSites ▸ hsite)
  | indirect hF' hsite hg =>
    obtain ⟨F, hF, hlike⟩ := h.right _ hF'
    rw [hlike.name] at hg ⊢
    exact .indirect hF (hlike.callSites ▸ hsite) hg
  | external hF' hdecl hg =>
    obtain ⟨F, hF, hlike⟩ := h.right _ hF'
    rw [hlike.name] at hg ⊢
    exact .external hF (hlike.isDeclaration ▸ hdecl) hg

/-- Modules that are alike have the same calls. -/
theorem Module.Alike.calls (h : M.Alike M') : M'.Calls env = M.Calls env := by
  funext f g
  exact propext ⟨h.calls_of, h.symm.calls_of⟩

end Calls

end Clou.CallGraph
