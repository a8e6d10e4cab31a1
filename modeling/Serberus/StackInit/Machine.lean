-- SUMMARY: Runs of a function with stack slots, over any semantics of its other instructions.
import Mathlib.Data.Set.Basic
import Mathlib.Logic.Relation
import Serberus.StackInit.Pass

/-!
# Runs of a Function with Stack Slots

An `alloca` makes some free memory live and leaves its bytes as they are. The other instructions
are a parameter: what they compute and write depends on the registers and on the bytes that they
access, which have to be live.
-/

open Relation

namespace Clou.StackInit

/-- What the instructions other than `alloca` do with the registers `ρ` and with memory. -/
structure Semantics (κ ι β ε ρ υ : Type) where
  /-- The registers when an `alloca` has returned an address. -/
  bind : ρ → ι → Nat → ρ
  /-- The address that an `alloca` has returned last. -/
  address : ρ → ι → Nat
  /-- The value of an array size. -/
  value : ρ → ι → Nat
  /-- The bytes that an instruction accesses. -/
  access : κ → ρ → Set Nat
  exec : κ → ρ → (Nat → υ) → ρ × (Nat → υ)
  /-- The bytes that an instruction releases. -/
  released : κ → ρ → Set Nat
  /-- The block where control goes. -/
  next : ε → ρ → Option β
  address_bind : ∀ r i p, address (bind r i p) i = p
  value_bind : ∀ r i p j, j ≠ i → value (bind r i p) j = value r j
  exec_congr : ∀ I r m m', (∀ a ∈ access I r, m a = m' a) → (exec I r m).1 = (exec I r m').1 ∧
    ∀ a ∈ access I r, (exec I r m).2 a = (exec I r m').2 a
  exec_frame : ∀ I r m, ∀ a ∉ access I r, (exec I r m).2 a = m a

/-- What inserted instructions compute and write. -/
structure Scratch (υ : Type) where
  size : Nat
  ptr : Nat
  mem : Nat → υ

structure State (κ ι ε ρ υ : Type) where
  regs : ρ
  scratch : Scratch υ
  /-- The bytes that are allocated. -/
  live : Set Nat
  code : List (Inst κ ι)
  terminator : ε

section Definitions

variable {κ ι β ε ρ υ : Type} [Zero υ]

/-- `n` bytes from `p` on set to zero. -/
def clear (p n : Nat) (m : Nat → υ) (a : Nat) : υ :=
  if p ≤ a ∧ a < p + n then 0 else m a

/-- What an inserted instruction does. -/
def Inserted.eval (sem : Semantics κ ι β ε ρ υ) (r : ρ) (s : Scratch υ) : Inserted ι → Scratch υ
  | .mul eltSize V => { s with size := eltSize * sem.value r V % UInt64.size }
  | .bitCast AI => { s with ptr := sem.address r AI }
  | .memSet (.constant n) => { s with mem := clear s.ptr n s.mem }
  | .memSet .size => { s with mem := clear s.ptr s.size s.mem }
  | .store AI n => { s with mem := clear (sem.address r AI) n s.mem }

/-- What inserted instructions do one after the other. -/
def evals (sem : Semantics κ ι β ε ρ υ) (r : ρ) (ks : List (Inserted ι)) (s : Scratch υ) :
    Scratch υ :=
  ks.foldl (Inserted.eval sem r) s

/-- How many bytes an `alloca` allocates. -/
def slotSize (sem : Semantics κ ι β ε ρ υ) (r : ρ) (AI : AllocaInst ι) : Nat :=
  match AI.arraySize with
  | .constantInt n => AI.allocatedType.allocSize * n % UInt64.size
  | .value V => AI.allocatedType.allocSize * sem.value r V % UInt64.size

inductive Step (sem : Semantics κ ι β ε ρ υ) (F : Function (Inst κ ι) β ε) :
    State κ ι ε ρ υ → State κ ι ε ρ υ → Prop
  | alloca {r : ρ} {s : Scratch υ} {live : Set Nat} {AI : AllocaInst ι} {code : List (Inst κ ι)}
      {e : ε} (p : Nat) (hfree : ∀ a ∈ live, ¬ (p ≤ a ∧ a < p + slotSize sem r AI)) :
      Step sem F ⟨r, s, live, .source (.alloca AI) :: code, e⟩
        ⟨sem.bind r AI.id p, s, live ∪ {a | p ≤ a ∧ a < p + slotSize sem r AI}, code, e⟩
  | other {r : ρ} {s : Scratch υ} {live : Set Nat} {I : κ} {code : List (Inst κ ι)} {e : ε}
      (haccess : sem.access I r ⊆ live) : Step sem F ⟨r, s, live, .source (.other I) :: code, e⟩
        ⟨(sem.exec I r s.mem).1, { s with mem := (sem.exec I r s.mem).2 },
          live \ sem.released I r, code, e⟩
  | inserted {r : ρ} {s : Scratch υ} {live : Set Nat} {k : Inserted ι} {code : List (Inst κ ι)}
      {e : ε} : Step sem F ⟨r, s, live, .inserted k :: code, e⟩ ⟨r, k.eval sem r s, live, code, e⟩
  | jump {r : ρ} {s : Scratch υ} {live : Set Nat} {e : ε} {B : Block (Inst κ ι) β ε}
      (hB : B ∈ F.blocks) (hnext : sem.next e r = some B.label) :
      Step sem F ⟨r, s, live, [], e⟩ ⟨r, s, live, B.body, B.terminator⟩

/-- No inserted instruction is next. -/
def State.AtSource (c : State κ ι ε ρ υ) : Prop := ∀ k rest, c.code ≠ .inserted k :: rest

/-- Two states that differ at most in what memory holds where nothing is allocated. -/
structure Agree (c c' : State κ ι ε ρ υ) : Prop where
  regs : c'.regs = c.regs
  live : c'.live = c.live
  code : c'.code = c.code
  terminator : c'.terminator = c.terminator
  mem : ∀ a ∈ c.live, c'.scratch.mem a = c.scratch.mem a

end Definitions

end Clou.StackInit
