-- SUMMARY: The inlining pass, as the code computes it: the call it picks, and the loop that inlines calls one by one.
import Serberus.CallGraph.DoesNotRecurse
import Serberus.ControlFlow.Function
import Serberus.Lib.Search

/-!
# `InlinePass`

The loop picks a call that control may reach from a secret store before it passes a public
load or another call, and has LLVM inline it. A call that it cannot inline goes into a set
of calls to skip. A function gets no more calls inlined once its count has come up to the
limit; a call that is inlined counts with the calls that were inlined into its callee.

`llvm::InlineFunction` is a parameter: it fails, or gives the caller another body.
-/

namespace Clou.Inlining

open CallGraph (Value getCalledFunction)
open ControlFlow
open Search (Visit)

/-- What the pass tells instructions apart by. -/
inductive Kind (φ ι : Type) where
  | store (value ptr : Value φ ι)
  | load
  /-- A `CallBase`; `lowers` is the answer of `util::mayLowerToFunctionCall`. -/
  | call (lowers : Bool) (calledOperand : Value φ ι)
  | ret
  | other
  deriving DecidableEq

/-- The body of a function. -/
structure Body (β φ ι : Type) where
  cfg : CFG β ι
  kind : ι → Kind φ ι

/-- The functions of a module, `none` for a declaration. -/
abbrev Bodies (β φ ι : Type) := φ → Option (Body β φ ι)

/-- What the pass asks of the analyses of a function. -/
structure Answers (φ ι : Type) where
  /-- `CAA.isConstantAddress` -/
  isConstantAddress : Value φ ι → Bool
  /-- `NST.secret` -/
  nonspeculativelySecret : Value φ ι → Bool
  /-- `ST.secret` -/
  speculativelySecret : Value φ ι → Bool
  /-- `LA.mayLeak` -/
  mayLeak : ι → Bool

/-- `llvm::InlineFunction`: the body that the caller has afterwards, `none` when it fails. -/
abbrev InlineFunction (β φ ι : Type) := Bodies β φ ι → φ → ι → Option (Body β φ ι)

/-- `inline_limit` -/
def inlineLimit : UInt32 := 100

/-! ## The Call to Inline -/

section Candidates

variable {β φ ι : Type} [DecidableEq β] [LinearOrder ι] (A : Answers φ ι) (bodies : Bodies β φ ι)
  (skip : OrdSet ι)

/-- The fuel that a search through a body needs. -/
def Body.searchFuel (B : Body β φ ι) : Nat :=
  B.cfg.instructions.length + (B.cfg.instructions.map fun i => (B.cfg.successorsInst i).length).sum + 1

/-- `while (!todo.empty()) { … }`: what stops it, if anything does. -/
def Body.search {α : Type} (B : Body β φ ι) (visit : ι → Visit α) (start : List ι) :
    Exec (Option α) :=
  match Search.sweepFor visit B.cfg.successorsInst B.searchFuel start [] with
  | some r => pure r
  | none => throw .outOfFuel

/-- A store of a secret to an address that is not constant. -/
def Body.isSecretStore (B : Body β φ ι) (i : ι) : Bool :=
  match B.kind i with
  | .store value ptr =>
    !A.isConstantAddress ptr && (A.nonspeculativelySecret value || A.speculativelySecret value)
  | _ => false

/-- `compute_nca_stores` -/
def computeNcaStores (B : Body β φ ι) : OrdSet ι :=
  .ofList (B.cfg.instructions.filter (B.isSecretStore A))

/-- One instruction of the search in `calleeWouldBenefitFromInlining`. -/
def visitCallee (B : Body β φ ι) (i : ι) : Visit Unit :=
  match B.kind i with
  | .ret => .stop ()
  | .call lowers _ =>
    if A.mayLeak i && (A.nonspeculativelySecret (.inst i) || A.speculativelySecret (.inst i)) then .cut
    else if lowers then .cut
    else .go
  | _ =>
    if A.mayLeak i && (A.nonspeculativelySecret (.inst i) || A.speculativelySecret (.inst i)) then .cut
    else .go

def calleeWouldBenefitFromInlining (B : Body β φ ι) : Exec Bool := do
  let found ← B.search (visitCallee A B) (computeNcaStores A B).toList.reverse
  pure found.isSome

/-- One instruction of the search in `handleSecretStore`. -/
def visitFromStore (B : Body β φ ι) (i : ι) : Visit (Exec ι) :=
  match B.kind i with
  | .call true calledOperand =>
    match getCalledFunction calledOperand with
    | .error fault => .stop (.error fault)
    | .ok none => .cut
    | .ok (some CalledF) =>
      if (bodies CalledF).isNone then .cut
      else if i ∈ skip then .cut
      else .stop (.ok i)
  | .load => if !A.speculativelySecret (.inst i) && A.mayLeak i then .cut else .go
  | _ => .go

def handleSecretStore (B : Body β φ ι) (SI : ι) : Exec (Option ι) := do
  match ← B.search (visitFromStore A bodies skip B) [SI] with
  | none => pure none
  | some CB => CB.map some

/-- The first loop of `getCallToInline`. -/
def firstFromStores (B : Body β φ ι) : List ι → Exec (Option ι)
  | [] => pure none
  | i :: is =>
    if B.isSecretStore A i then do
      match ← handleSecretStore A bodies skip B i with
      | some CB => pure (some CB)
      | none => firstFromStores B is
    else firstFromStores B is

/-- The second loop of `getCallToInline`, with its condition `… && false`. -/
def firstBeneficial (B : Body β φ ι) : List ι → Exec (Option ι)
  | [] => pure none
  | i :: is =>
    match B.kind i with
    | .call _ calledOperand =>
      if i ∈ skip then firstBeneficial B is
      else do
        match ← getCalledFunction calledOperand with
        | none => firstBeneficial B is
        | some CalledF =>
          match bodies CalledF with
          | none => firstBeneficial B is
          | some callee => do
            let benefits ← calleeWouldBenefitFromInlining A callee
            if benefits && false then pure (some i) else firstBeneficial B is
    | _ => firstBeneficial B is

def getCallToInline (B : Body β φ ι) : Exec (Option ι) := do
  match ← firstFromStores A bodies skip B B.cfg.instructions with
  | some CB => pure (some CB)
  | none => firstBeneficial A bodies skip B B.cfg.instructions

end Candidates

/-! ## The Loop -/

section Loop

variable {β φ ι : Type} [DecidableEq β] [DecidableEq φ] [LinearOrder ι]

structure State (β φ ι : Type) [LinearOrder ι] where
  bodies : Bodies β φ ι
  /-- `inline_counts` -/
  counts : φ → UInt32
  skip : OrdSet ι

def State.skipCall (s : State β φ ι) (CB : ι) : State β φ ι := { s with skip := s.skip.insert CB }

/-- What an iteration does with the call that it has picked. -/
inductive Action (φ ι : Type) where
  | skipped (CB : ι)
  /-- `InlineFunction` was called and failed. -/
  | failed (CB : ι) (CalledF : φ)
  | inlined (CB : ι) (CalledF : φ)
  deriving DecidableEq

/-- `InlineFunction(*CB, IFI)` and what follows it. -/
def inlineCall (inlineFunction : InlineFunction β φ ι) (F : φ) (s : State β φ ι) (CB : ι)
    (CalledF : φ) : Action φ ι × State β φ ι :=
  match inlineFunction s.bodies F CB with
  | none => (.failed CB CalledF, s.skipCall CB)
  | some B => (.inlined CB CalledF,
      { s with
        bodies := Function.update s.bodies F (some B)
        counts := Function.update s.counts F (s.counts F + (s.counts CalledF + 1)) })

/-- What an iteration does with a call that may be inlined as far as the count goes. -/
def handleCall (ndebug : Bool) (inlineFunction : InlineFunction β φ ι) (F : φ) (s : State β φ ι)
    (CB : ι) (calledOperand : Value φ ι) : Exec (Action φ ι × State β φ ι) := do
  assert ndebug .callNotSkipped (CB ∉ s.skip)
  match ← getCalledFunction calledOperand with
  | none => pure (.skipped CB, s.skipCall CB)
  | some CalledF =>
    if (s.bodies CalledF).isNone ∨ CalledF = F then pure (.skipped CB, s.skipCall CB)
    else pure (inlineCall inlineFunction F s CB CalledF)

/-- One iteration, `none` when the loop is over. -/
def step (ndebug : Bool) (A : Answers φ ι) (inlineFunction : InlineFunction β φ ι) (F : φ)
    (s : State β φ ι) : Exec (Option (Action φ ι × State β φ ι)) :=
  match s.bodies F with
  | none => pure none
  | some B => do
    match ← getCallToInline A s.bodies s.skip B with
    | none => pure none
    | some CB =>
      if inlineLimit ≤ s.counts F then pure none
      else
        match B.kind CB with
        | .call _ calledOperand => do
          let r ← handleCall ndebug inlineFunction F s CB calledOperand
          pure (some r)
        | _ => pure none

/-- `while ((CB = getCallToInline(F, skip))) { … }` -/
def loop (ndebug : Bool) (A : Answers φ ι) (inlineFunction : InlineFunction β φ ι) (F : φ) :
    Nat → State β φ ι → Exec (List (Action φ ι) × State β φ ι)
  | 0, _ => throw .outOfFuel
  | fuel + 1, s => do
    match ← step ndebug A inlineFunction F s with
    | none => pure ([], s)
    | some (a, s) => do
      let (actions, s) ← loop ndebug A inlineFunction F fuel s
      pure (a :: actions, s)

/-- What stays from function to function. -/
structure Module (β φ ι : Type) where
  bodies : Bodies β φ ι
  /-- `inline_counts` -/
  counts : φ → UInt32

/-- The state in which the loop starts: nothing is skipped. -/
def Module.start (m : Module β φ ι) : State β φ ι := ⟨m.bodies, m.counts, ∅⟩

/-- The pass on one function; `eraseMitigations` is what it does to the body behind the loop. -/
def runOnFunction (ndebug : Bool) (A : Answers φ ι) (inlineFunction : InlineFunction β φ ι)
    (eraseMitigations : Body β φ ι → Body β φ ι) (fuel : Nat) (F : φ) (m : Module β φ ι) :
    Exec (List (Action φ ι) × Module β φ ι) := do
  let (actions, s) ← loop ndebug A inlineFunction F fuel m.start
  pure (actions, ⟨Function.update s.bodies F ((s.bodies F).map eraseMitigations), s.counts⟩)

end Loop

end Clou.Inlining
