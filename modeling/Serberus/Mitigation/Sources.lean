-- SUMMARY: The sources of an access to a non-constant address, and what the code asserts of the accesses it asks for.
import Serberus.ControlFlow.Function
import Serberus.Leakage.IncomingLoads
import Serberus.Leakage.LeakAnalysis
import Serberus.Lib.OrdMap
import Serberus.Lib.Search

/-!
# Sources of an Access

The sources of an access are the values its address is computed from, the branches that may
miss it and the calls before it, as far as they reach it. The code asserts that the access
is not the first instruction of the function and that the first instruction reaches it, and
it asks for the incoming loads of its pointer operand.
-/

open Relation

namespace Clou.Mitigation

open ControlFlow Leakage

/-- A function: its instructions, and the control flow between them. -/
structure Function (β ν : Type) where
  ir : IRFunction ν
  cfg : CFG β ν
  agree : cfg.blocks.map (·.instructions) = ir.blocks.map (·.map (·.id))

/-- What the pass asks of other passes and of values. -/
structure Answers (ν : Type) [LinearOrder ν] where
  /-- `CAA.isConstantAddress` -/
  isConstantAddress : ν → Bool
  /-- `isa<Constant>` -/
  isConstant : ν → Bool
  /-- `NST.secret` -/
  nonspeculativelySecret : ν → Bool
  /-- `ST.taints` -/
  taints : OrdMap ν (OrdSet ν)
  mayLowerToFunctionCall : ν → Bool
  /-- The number of `llvm.memcpy.inline` among the intrinsics that no analysis lists. -/
  memcpyInline : Nat

section Definitions

variable {β ν : Type} [DecidableEq β] [LinearOrder ν]

/-- `ST.secret(V)` -/
def Answers.secret (A : Answers ν) (F : Function β ν) (V : ν) : Bool :=
  (F.ir.instruction? V).isSome && (A.taints.find? V).any fun orgs => !orgs.isEmpty

/-- A `CallBase` that may be lowered to a call of a function. -/
def Answers.isFunctionCall (A : Answers ν) (F : Function β ν) (V : ν) : Bool :=
  match F.ir.instruction? V with
  | some ⟨_, _, _, .intrinsic _ _ _ _⟩ => A.mayLowerToFunctionCall V
  | some ⟨_, _, _, .call _ _ _⟩ => A.mayLowerToFunctionCall V
  | _ => false

namespace Function

variable (F : Function β ν)

/-- `get_incoming_loads(V)` -/
def incomingLoads (V : ν) : Exec (OrdSet ν) := getIncomingLoads F.ir (F.ir.values.length + 2) V

/-- `reach`: an instruction reaches itself only along a cycle. -/
def reach (I : ν) : OrdSet ν :=
  .ofList ((Search.explore (fun _ => false) F.cfg.predecessors (F.cfg.instructions.length + 1)
    [I]).map Prod.fst)

/-- `T->isTerminator()` -/
def isTerminator (T : ν) : Bool := F.cfg.blocks.any (·.terminator = T)

end Function

/-- One value that the address of `I` is computed from. -/
def addAddressSource (ndebug : Bool) (F : Function β ν) (I : ν) (reach sources : OrdSet ν) (V : ν) :
    Exec (OrdSet ν) :=
  if (F.ir.instruction? V).isSome then pure (sources.insert V)
  else if F.ir.isArgument V then do
    assert ndebug .notEntryInst (I ≠ F.cfg.first)
    assert ndebug .entryInstReaches (F.cfg.first ∈ reach)
    pure (sources.insert F.cfg.first)
  else throw .exit

def getSourcesForNCAAccess (ndebug : Bool) (F : Function β ν) (A : Answers ν) (I : ν) :
    Exec (OrdSet ν) := do
  assert ndebug .notEntryInst (I ≠ F.cfg.first)
  let reach := F.reach I
  assert ndebug .entryInstReaches (F.cfg.first ∈ reach)
  match (F.ir.instruction? I).bind getPointerOperand with
  | none => throw .nullPointer
  | some ptr => do
    let loads ← F.incomingLoads ptr
    let sources ← loads.toList.foldlM (addAddressSource ndebug F I reach) ∅
    let sources := insertAll sources (reach.toList.filter fun T =>
      F.isTerminator T && (F.cfg.successorsInst T).any (· ∉ reach))
    let sources := insertAll sources (reach.toList.filter fun C => A.isFunctionCall F C)
    pure (sources.filter (· ∈ reach))

/-- What the callee requires of an access. -/
structure Function.Requires (F : Function β ν) (I : ν) : Prop where
  notFirst : I ≠ F.cfg.first
  reachable : ReflTransGen F.cfg.Edge F.cfg.first I
  pointer : ∃ ptr, (F.ir.instruction? I).bind getPointerOperand = some ptr

end Definitions

section Facts

variable {β ν : Type} [DecidableEq β] [LinearOrder ν] {F : Function β ν} {A : Answers ν}
  {ndebug : Bool} {I J V : ν}

omit [DecidableEq β] [LinearOrder ν] in
/-- The control flow is between the instructions of the function. -/
theorem Function.mem_instructions :
    I ∈ F.cfg.instructions ↔ ∃ i ∈ F.ir.instructions, i.id = I := by
  have hflat : F.cfg.instructions = F.ir.instructions.map (·.id) := by
    unfold CFG.instructions IRFunction.instructions
    rw [List.flatMap, F.agree, List.map_flatten]
  rw [hflat, List.mem_map]

/-- The backward search finds what leads to the access in at least one step. -/
theorem Function.mem_reach : J ∈ F.reach I ↔ TransGen F.cfg.Edge J I := by
  have hstep : Search.Step (fun _ => false) F.cfg.predecessors = Function.swap F.cfg.Edge := by
    funext i j
    simp [Search.Step, CFG.mem_predecessors, Function.swap]
  have hclosed : ∀ u, u ∈ [I] ∨ u ∈ F.cfg.instructions.toFinset → ∀ v ∈ F.cfg.predecessors u,
      v ∈ F.cfg.instructions.toFinset := fun u _ v hv =>
    List.mem_toFinset.mpr (CFG.mem_predecessors.mp hv).mem.1
  have hfuel : [I].length + F.cfg.instructions.toFinset.card ≤ F.cfg.instructions.length + 1 := by
    rw [List.length_singleton, Nat.add_comm]
    exact Nat.succ_le_succ (List.toFinset_card_le _)
  have hvisited : Search.Log.visited (Search.explore (fun _ => false) F.cfg.predecessors
      (F.cfg.instructions.length + 1) [I]) J = true ↔ TransGen F.cfg.Edge J I := by
    rw [Search.visited_explore hclosed hfuel, hstep]
    simp [transGen_swap]
  rw [← hvisited, Search.Log.visited_iff]
  simp [Function.reach]

theorem addAddressSource_returns (hI : I ≠ F.cfg.first) (hfirst : F.cfg.first ∈ F.reach I)
    (hV : F.ir.IsIncomingLoad V) (sources : OrdSet ν) :
    ∃ sources', addAddressSource ndebug F I (F.reach I) sources V = .ok sources' := by
  unfold addAddressSource
  by_cases hinst : (F.ir.instruction? V).isSome = true
  · exact ⟨_, if_pos hinst⟩
  · rw [if_neg hinst]
    rcases hV with harg | ⟨i, hi, hid, -⟩
    · have hisArgument : F.ir.isArgument V = true := decide_eq_true harg
      rw [if_pos hisArgument, assert_of hI, assert_of hfirst]
      exact ⟨_, rfl⟩
    · rw [IRFunction.instruction?_eq_some.mpr ⟨hi, hid⟩] at hinst
      exact absurd rfl hinst

/-- The call returns for an access that meets its requirements. -/
theorem getSourcesForNCAAccess_returns (ndebug : Bool) (A : Answers ν) (h : F.Requires I) :
    ∃ sources, getSourcesForNCAAccess ndebug F A I = .ok sources := by
  have hfirst : F.cfg.first ∈ F.reach I := Function.mem_reach.mpr
    ((reflTransGen_iff_eq_or_transGen.mp h.reachable).resolve_left h.notFirst)
  obtain ⟨ptr, hptr⟩ := h.pointer
  obtain ⟨loads, hloads, hmem⟩ := getIncomingLoads_spec F.ir ptr le_rfl
  have hreturns : ∀ V ∈ loads.toList, ∀ sources, ∃ sources',
      addAddressSource ndebug F I (F.reach I) sources V = .ok sources' := fun V hV =>
    addAddressSource_returns h.notFirst hfirst ((hmem V).mp hV).1
  obtain ⟨sources, hsources⟩ := Exec.foldlM_total hreturns ∅
  unfold getSourcesForNCAAccess
  refine Exec.bind_returns (assert_of h.notFirst) (Exec.bind_returns (assert_of hfirst) ?_)
  rw [hptr]
  exact Exec.bind_returns hloads (Exec.bind_returns hsources ⟨_, rfl⟩)

end Facts

end Clou.Mitigation
