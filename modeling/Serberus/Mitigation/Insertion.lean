-- SUMMARY: Inserting the mitigations: the S-CFG whose edges are cut, and the fence that each cut edge gets.
import Serberus.ControlFlow.SplitEdge
import Serberus.Exec

/-!
# Inserting Mitigations

The cut edges are edges of the S-CFG: the edges between instructions, and edges from the
exits of the function to its entries. They get their fences one after the other. The fence
of an edge goes before the destination, or into a block that splits the edge when other
edges lead to the destination, too.

What the pass uses of LLVM is a parameter: what instructions are, the instructions that an
`IRBuilder` makes, and `SplitEdge`. `IR.Lawful` says what the pass relies on.
-/

namespace Clou.Mitigation

open ControlFlow

variable {β ι : Type} [DecidableEq β] [DecidableEq ι]

/-- What the pass asks of instructions, and what it has LLVM do to a function. -/
structure IR (β ι : Type) where
  /-- `llvm::isa<llvm::PHINode>` -/
  isPHINode : ι → Bool
  /-- `llvm::isa<MitigationInst>` -/
  isMitigationInst : ι → Bool
  /-- `llvm::isa<llvm::ReturnInst>` -/
  isReturnInst : ι → Bool
  /-- Calls that `util::mayLowerToFunctionCall` holds of. -/
  mayLowerToFunctionCall : ι → Bool
  insertTrapAfterMitigations : Bool
  /-- `IRB.CreateIntrinsic(llvm::Intrinsic::x86_sse2_lfence, {}, {})` -/
  createLFence : (F : CFG β ι) → {i // i ∉ F.instructions}
  /-- `IRB.CreateIntrinsic(llvm::Intrinsic::x86_sse2_mfence, {}, {})` -/
  createMFence : (F : CFG β ι) → {i // i ∉ F.instructions}
  /-- `llvm::SplitEdge`: the function it leaves, and the block it returns. -/
  splitEdge : CFG β ι → BasicBlock β ι → BasicBlock β ι → CFG β ι × BasicBlock β ι

variable (ir : IR β ι)

/-! ## The S-CFG -/

namespace IR

def isExit (i : ι) : Bool := ir.isReturnInst i || ir.mayLowerToFunctionCall i

def isEntry (F : CFG β ι) (i : ι) : Bool :=
  decide (i = F.first) || (F.getPrevNode i).any ir.mayLowerToFunctionCall

/-- The keys of `G[src]`: the successors, and from an exit all entries but itself. -/
def graphDsts (F : CFG β ι) (src : ι) : List ι :=
  F.successorsInst src ++
    if ir.isExit src then F.instructions.filter fun dst => ir.isEntry F dst && decide (dst ≠ src)
    else []

/-! ## Mitigations -/

def shouldCutEdge (F : CFG β ι) (dst : ι) : Bool := decide (1 < (F.predecessors dst).length)

/-- `I->isTerminator()` -/
def isTerminator (F : CFG β ι) (i : ι) : Bool := (F.blocks.find? (·.terminator = i)).isSome

/-- The instructions that `I = I->getPrevNode()` goes through. -/
def prevNodes (F : CFG β ι) (i : ι) : List ι :=
  (F.parent i).toList.flatMap fun B => B.instructions.takeWhile (· ≠ i)

/-- The instruction to put a fence before, and the function in which it stands. -/
def getMitigationPoint (ndebug : Bool) (F : CFG β ι) (src dst : ι) :
    Exec (Option (CFG β ι × ι)) :=
  if shouldCutEdge F dst then do
    assert ndebug .srcIsTerminator (isTerminator F src = true)
    assert ndebug .prevIsMitigation (∀ I ∈ prevNodes F dst, ir.isMitigationInst I = true)
    match F.parent src, F.parent dst with
    | some P, some S =>
      if dst ≠ S.front then pure none
      else
        let (F, B) := ir.splitEdge F P S
        pure (some (F, B.front))
    | _, _ => pure none
  else pure (some (F, dst))

/-- `while (llvm::isa<llvm::PHINode>(I)) I = I->getNextNode();` -/
def firstNonPHI (F : CFG β ι) (i : ι) : Option ι :=
  (F.parent i).bind fun B => (B.instructions.dropWhile (· ≠ i)).find? fun j => !ir.isPHINode j

/-- The instructions from `i` on that are PHIs. -/
def phis (F : CFG β ι) (i : ι) : List ι :=
  (F.parent i).toList.flatMap fun B =>
    (B.instructions.dropWhile (· ≠ i)).takeWhile fun j => ir.isPHINode j

def createMitigation (F : CFG β ι) (i : ι) : CFG β ι :=
  match ir.firstNonPHI F i with
  | some x =>
    let F := F.insertBefore x (ir.createLFence F)
    if ir.insertTrapAfterMitigations then F.insertBefore x (ir.createMFence F) else F
  | none => F

def mitigateEdge (ndebug : Bool) (F : CFG β ι) (e : ι × ι) : Exec (CFG β ι) := do
  match ← ir.getMitigationPoint ndebug F e.1 e.2 with
  | some (F, mitigationPoint) => pure (ir.createMitigation F mitigationPoint)
  | none => pure F

/-- The loop over the cut edges. -/
def mitigate (ndebug : Bool) (F : CFG β ι) (cutEdges : List (ι × ι)) : Exec (CFG β ι) :=
  cutEdges.foldlM (ir.mitigateEdge ndebug) F

/-! ## What LLVM Guarantees -/

/-- What the pass relies on: new fences are fences, and `SplitEdge` splits a critical edge by
a fresh block, and the block of the edge when that has no other successor. -/
structure Lawful : Prop where
  lfence_mitigation : ∀ F, ir.isMitigationInst (ir.createLFence F) = true
  lfence_phi : ∀ F, ir.isPHINode (ir.createLFence F) = false
  mfence_phi : ∀ F, ir.isPHINode (ir.createMFence F) = false
  phi_mitigation : ∀ i, ir.isPHINode i = true → ir.isMitigationInst i = false
  critical : ∀ F P S, P ∈ F.blocks → S ∈ F.blocks → S.label ∈ P.succs → 2 ≤ P.succs.length →
    2 ≤ (F.predecessorBlocks S).length →
    SplitsCritical F P S (ir.splitEdge F P S).1 (ir.splitEdge F P S).2 ∧
      ir.isPHINode (ir.splitEdge F P S).2.terminator = false
  single : ∀ F P S, P ∈ F.blocks → S ∈ F.blocks → S.label ∈ P.succs → P.succs.length = 1 →
    2 ≤ (F.predecessorBlocks S).length →
    ∃ b, SplitsBlock F P (ir.splitEdge F P S).1 (ir.splitEdge F P S).2 b ∧
      ir.isPHINode b = false

/-- Terminators are neither PHIs nor fences. -/
def WellFormed (F : CFG β ι) : Prop :=
  ∀ P ∈ F.blocks, ir.isPHINode P.terminator = false ∧ ir.isMitigationInst P.terminator = false

instance (F : CFG β ι) : Decidable (ir.WellFormed F) :=
  inferInstanceAs (Decidable (∀ _ ∈ _, _))

end IR

section Graph

variable {ir : IR β ι} {F : CFG β ι} {P S : BasicBlock β ι} {src dst : ι}

/-- One instruction leads to an entry, at most. -/
theorem shouldCutEdge_of_isEntry (h : ir.isEntry F dst = true) :
    IR.shouldCutEdge F dst = false := by
  unfold IR.shouldCutEdge
  rw [decide_eq_false_iff_not, Nat.not_lt]
  rcases Bool.or_eq_true_iff.mp h with hfirst | hcall
  · obtain rfl := of_decide_eq_true hfirst
    have hnone : F.predecessors F.first = [] :=
      List.eq_nil_iff_forall_not_mem.mpr fun i hi => CFG.not_edge_first (CFG.mem_predecessors.mp hi)
    rw [hnone]
    exact Nat.zero_le 1
  · cases hprev : F.getPrevNode dst with
    | none => simp [hprev] at hcall
    | some p =>
      unfold CFG.predecessors
      rw [hprev]
      exact le_rfl

/-- An edge that has to be split is no edge to an entry. -/
theorem mem_predecessors_of_cut (hdst : dst ∈ ir.graphDsts F src)
    (hcut : IR.shouldCutEdge F dst = true) : src ∈ F.predecessors dst := by
  rcases List.mem_append.mp hdst with hdst | hdst
  · exact CFG.mem_predecessors.mpr (CFG.mem_successorsInst.mp hdst)
  · split_ifs at hdst with hexit
    · have hentry := (Bool.and_eq_true_iff.mp (List.mem_filter.mp hdst).2).1
      rw [shouldCutEdge_of_isEntry hentry] at hcut
      cases hcut
    · cases hdst

/-- When no edge leads to the destination but this, the fence goes before it. -/
theorem getMitigationPoint_of_not_cut (ndebug : Bool) (hcut : IR.shouldCutEdge F dst = false) :
    ir.getMitigationPoint ndebug F src dst = .ok (some (F, dst)) := by
  unfold IR.getMitigationPoint
  rw [hcut]
  rfl

/-- The assertions hold of a jump, and the fence goes where the edge is split. -/
theorem getMitigationPoint_of_cut (ndebug : Bool) (hP : P ∈ F.blocks) (hS : S ∈ F.blocks)
    (hcut : IR.shouldCutEdge F S.front = true) :
    ir.getMitigationPoint ndebug F P.terminator S.front =
      .ok (some ((ir.splitEdge F P S).1, (ir.splitEdge F P S).2.front)) := by
  have hterm : IR.isTerminator F P.terminator = true := by
    unfold IR.isTerminator
    rw [CFG.find_terminator hP]
    rfl
  have hprev : IR.prevNodes F S.front = [] := by
    obtain ⟨l, hl⟩ := List.head?_eq_some_iff.mp (CFG.head?_instructions S)
    unfold IR.prevNodes
    rw [CFG.parent_eq hS (CFG.front_mem S), Option.toList_some, List.flatMap_cons, hl,
      List.takeWhile_cons_of_neg (by simp)]
    rfl
  unfold IR.getMitigationPoint
  rw [if_pos hcut, assert_of hterm, hprev, assert_of (by simp),
    CFG.parent_eq hP (CFG.terminator_mem P), CFG.parent_eq hS (CFG.front_mem S)]
  dsimp only
  rw [if_neg (not_not.mpr rfl)]
  rfl

end Graph

end Clou.Mitigation
