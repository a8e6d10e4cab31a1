-- SUMMARY: Runs of an instrumented module: the active functions, and the stack pointers in memory.
import Mathlib.Logic.Function.Basic
import Mathlib.Logic.Relation
import Mathlib.Order.Lattice
import Serberus.Stacks.Instrumented

/-!
# Runs of an Instrumented Module

An activation is in the instructions that are left of a block, or outside of the module. What the
inserted instructions compute is followed; of the others only which functions they call. The
backend sets the register that `read_register` reads, so an activation begins with any value in
it. Nothing unwinds: the pass inserts nothing where an exception leaves a function.
-/

open Relation

namespace Clou.Stacks

section Definitions

variable {φ β ι α : Type}

inductive Control (φ β ι : Type) where
  | inside (code : List (Inst φ ι)) (exit : Exit β)
  | outside

structure Activation (φ β ι α : Type) where
  fn : φ
  /-- What `read_register` reads. -/
  rsp : α
  /-- What the inserted instructions have computed. -/
  vals : Inserted → α
  control : Control φ β ι

structure State (φ β ι α : Type) where
  /-- The stack pointers in memory. -/
  sp : φ → α
  /-- The running function first. -/
  activations : List (Activation φ β ι α)

/-- Where a function begins. -/
def Function.start (F : Function φ β (Inst φ ι)) : Control φ β ι :=
  match F.blocks with
  | [] => .outside
  | B :: _ => .inside B.body B.exit

variable [DecidableEq φ] [LinearOrder α]

/-- What an inserted instruction does in an activation of `f`. -/
def Inserted.eval (stackEnd : φ → α) (f : φ) (rsp : α) (m : (Inserted → α) × (φ → α)) :
    Inserted → (Inserted → α) × (φ → α)
  | .oldSP => (Function.update m.1 .oldSP (m.2 f), m.2)
  | .readRegister => (Function.update m.1 .readRegister rsp, m.2)
  | .newSP => (Function.update m.1 .newSP (m.1 .readRegister), m.2)
  | .storeNewSP => (m.1, Function.update m.2 f (m.1 .newSP))
  | .stackEnd => (Function.update m.1 .stackEnd (stackEnd f), m.2)
  | .stackEndI => (Function.update m.1 .stackEndI (m.1 .stackEnd), m.2)
  | .oldSPI => (Function.update m.1 .oldSPI (m.1 .oldSP), m.2)
  | .clippedOldSPI =>
    (Function.update m.1 .clippedOldSPI (min (m.1 .stackEndI) (m.1 .oldSPI)), m.2)
  | .clippedOldSP => (Function.update m.1 .clippedOldSP (m.1 .clippedOldSPI), m.2)
  | .storeClippedOldSP => (m.1, Function.update m.2 f (m.1 .clippedOldSP))

/-- What inserted instructions do one after the other. -/
def evals (stackEnd : φ → α) (f : φ) (rsp : α) (ks : List Inserted)
    (m : (Inserted → α) × (φ → α)) : (Inserted → α) × (φ → α) :=
  ks.foldl (Inserted.eval stackEnd f rsp) m

end Definitions

section Runs

variable {φ β ι α : Type} [LinearOrder φ] [LinearOrder α]

inductive Step (P : Module φ β (Inst φ ι)) (env : CallGraph.Env φ ι) (stackEnd : φ → α) :
    State φ β ι α → State φ β ι α → Prop
  | enter {F : Function φ β (Inst φ ι)} {sp : φ → α} (hF : F ∈ P.functions) (rsp : α)
      (vals : Inserted → α) : Step P env stackEnd ⟨sp, []⟩ ⟨sp, [⟨F.name, rsp, vals, F.start⟩]⟩
  | inserted {f : φ} {sp : φ → α} {rsp : α} {vals : Inserted → α} {k : Inserted}
      {code : List (Inst φ ι)} {exit : Exit β} {below : List (Activation φ β ι α)} :
      Step P env stackEnd ⟨sp, ⟨f, rsp, vals, .inside (.inserted k :: code) exit⟩ :: below⟩
        ⟨(k.eval stackEnd f rsp (vals, sp)).2,
          ⟨f, rsp, (k.eval stackEnd f rsp (vals, sp)).1, .inside code exit⟩ :: below⟩
  | source {f : φ} {sp : φ → α} {rsp : α} {vals : Inserted → α} {I : CallGraph.Instruction φ ι}
      {code : List (Inst φ ι)} {exit : Exit β} {below : List (Activation φ β ι α)}
      (hI : I.callSite = none) :
      Step P env stackEnd ⟨sp, ⟨f, rsp, vals, .inside (.source I :: code) exit⟩ :: below⟩
        ⟨sp, ⟨f, rsp, vals, .inside code exit⟩ :: below⟩
  | call {f : φ} {sp : φ → α} {rsp : α} {vals : Inserted → α} {I : CallGraph.Instruction φ ι}
      {code : List (Inst φ ι)} {exit : Exit β} {below : List (Activation φ β ι α)} {i : ι}
      {target : Option φ} {G : Function φ β (Inst φ ι)} (hI : I.callSite = some (i, target))
      (hG : G ∈ P.functions)
      (htarget : target = some G.name ∨ target = none ∧ env.indirect f i G.name) (rsp' : α)
      (vals' : Inserted → α) :
      Step P env stackEnd ⟨sp, ⟨f, rsp, vals, .inside (.source I :: code) exit⟩ :: below⟩
        ⟨sp, ⟨G.name, rsp', vals', G.start⟩ :: ⟨f, rsp, vals, .inside code exit⟩ :: below⟩
  | callOutside {f : φ} {sp : φ → α} {rsp : α} {vals : Inserted → α}
      {below : List (Activation φ β ι α)} {G : Function φ β (Inst φ ι)} (hG : G ∈ P.functions)
      (hcall : env.external f G.name) (rsp' : α) (vals' : Inserted → α) :
      Step P env stackEnd ⟨sp, ⟨f, rsp, vals, .outside⟩ :: below⟩
        ⟨sp, ⟨G.name, rsp', vals', G.start⟩ :: ⟨f, rsp, vals, .outside⟩ :: below⟩
  | retOutside {f : φ} {sp : φ → α} {rsp : α} {vals : Inserted → α}
      {below : List (Activation φ β ι α)} :
      Step P env stackEnd ⟨sp, ⟨f, rsp, vals, .outside⟩ :: below⟩ ⟨sp, below⟩
  /-- No block leads to the entry block. -/
  | jump {F : Function φ β (Inst φ ι)} {sp : φ → α} {rsp : α} {vals : Inserted → α}
      {succs : List β} {below : List (Activation φ β ι α)} {B : Block β (Inst φ ι)}
      (hF : F ∈ P.functions) (hB : B ∈ F.blocks.tail) (hlabel : B.label ∈ succs) :
      Step P env stackEnd ⟨sp, ⟨F.name, rsp, vals, .inside [] (.jump succs)⟩ :: below⟩
        ⟨sp, ⟨F.name, rsp, vals, .inside B.body B.exit⟩ :: below⟩
  | ret {f : φ} {sp : φ → α} {rsp : α} {vals : Inserted → α}
      {below : List (Activation φ β ι α)} :
      Step P env stackEnd ⟨sp, ⟨f, rsp, vals, .inside [] .ret⟩ :: below⟩ ⟨sp, below⟩

/-- What a run leads to that begins with every stack pointer at the end of its stack. -/
def Reachable (P : Module φ β (Inst φ ι)) (env : CallGraph.Env φ ι) (stackEnd : φ → α) :
    State φ β ι α → Prop :=
  ReflTransGen (Step P env stackEnd) ⟨stackEnd, []⟩

/-- Inserted instructions run through. -/
theorem reflTransGen_evals {P : Module φ β (Inst φ ι)} {env : CallGraph.Env φ ι}
    {stackEnd sp : φ → α} {f : φ} {rsp : α} {vals : Inserted → α} {code : List (Inst φ ι)}
    {exit : Exit β} {below : List (Activation φ β ι α)} (ks : List Inserted) :
    ReflTransGen (Step P env stackEnd)
      ⟨sp, ⟨f, rsp, vals, .inside (ks.map .inserted ++ code) exit⟩ :: below⟩
      ⟨(evals stackEnd f rsp ks (vals, sp)).2,
        ⟨f, rsp, (evals stackEnd f rsp ks (vals, sp)).1, .inside code exit⟩ :: below⟩ := by
  induction ks generalizing sp vals with
  | nil => exact .refl
  | cons k ks ih => exact .head .inserted ih

/-- No inserted instruction is next. -/
def State.AtSource (s : State φ β ι α) : Prop :=
  ∀ a ∈ s.activations.head?, ∀ code exit, a.control = .inside code exit →
    ∃ I rest, code = .source I :: rest

/-- What the innermost activation of a function has saved if it saves, and the end of the stack
when there is none. -/
def innermost (stackEnd : φ → α) (save : Bool) (f : φ) : List (Activation φ β ι α) → α
  | [] => stackEnd f
  | a :: below => if a.fn = f ∧ save = true then a.rsp else innermost stackEnd save f below

end Runs

end Clou.Stacks
