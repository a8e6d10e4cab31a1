-- SUMMARY: The reachability helpers over control-flow graphs: exact in inclusive mode, one step short of everything in exclusive mode.
import Serberus.ControlFlow.Function
import Serberus.Exec
import Serberus.Lib.Flood

/-!
# Reachability Helpers

`getInstructionsReachableFrom` searches with a queue. In inclusive mode it marks an
instruction when it pops it. In exclusive mode it marks the successors of an instruction
when it pushes them, and so drops every one of them when it pops it: it never looks
further than one step.
-/

open Relation

namespace Clou.ControlFlow

variable {β ι : Type} [DecidableEq β] [LinearOrder ι]

/-- The instructions one step ahead, or one step back. -/
def nextNodes (F : CFG β ι) (forward : Bool) (i : ι) : OrdSet ι :=
  if forward then
    match F.getNextNode i with
    | some succ => .ofList [succ]
    | none => .ofList ((F.successorBlocks i).map (·.front))
  else
    match F.getPrevNode i with
    | some pred => .ofList [pred]
    | none => .ofList ((F.parent i).toList.flatMap fun B => (F.predecessorBlocks B).map (·.back))

/-- `while (!todo.empty()) { … }` -/
def reachLoop (F : CFG β ι) (forward inclusive : Bool) :
    Nat → List ι → OrdSet ι → Exec (OrdSet ι)
  | 0, _, _ => throw .outOfFuel
  | _ + 1, [], seen => pure seen
  | fuel + 1, i :: todo, seen =>
    if i ∈ seen then reachLoop F forward inclusive fuel todo seen
    else
      let seen := if inclusive then seen.insert i else seen
      let succs := nextNodes F forward i
      let seen := if inclusive then seen else seen.union succs
      reachLoop F forward inclusive fuel (todo ++ succs.toList) seen

def getInstructionsReachableFrom (fuel : Nat) (F : CFG β ι) (start : ι) (forward inclusive : Bool) :
    Exec (OrdSet ι) := reachLoop F forward inclusive fuel [start] ∅

def getInstructionsBetween (fuel : Nat) (F : CFG β ι) (start stop : ι) : Exec (OrdSet ι) := do
  let fwd ← getInstructionsReachableFrom fuel F start true false
  let bwd ← getInstructionsReachableFrom fuel F stop false false
  pure (fwd.filter (· ∈ bwd))

/-! ## One Step -/

/-- Edges, taken forward or backward. -/
def OrientedEdge (F : CFG β ι) (forward : Bool) (i j : ι) : Prop :=
  if forward then F.Edge i j else F.Edge j i

variable {F : CFG β ι} {forward inclusive : Bool} {start stop i j : ι}

theorem mem_nextNodes : j ∈ nextNodes F forward i ↔ OrientedEdge F forward i j := by
  unfold nextNodes OrientedEdge
  cases forward with
  | true =>
    simp only [if_true]
    rw [← CFG.mem_successorsInst, CFG.successorsInst_eq]
    cases F.getNextNode i <;> simp
  | false =>
    simp only [Bool.false_eq_true, if_false]
    rw [← CFG.mem_predecessors]
    unfold CFG.predecessors
    cases F.getPrevNode i <;> simp

omit [DecidableEq β] [LinearOrder ι] in
theorem OrientedEdge.mem (h : OrientedEdge F forward i j) : j ∈ F.instructions := by
  unfold OrientedEdge at h
  split_ifs at h
  · exact h.mem.2
  · exact h.mem.1

/-! ## Inclusive Mode -/

/-- In inclusive mode the loop is a search that marks on the pop. -/
theorem reachLoop_inclusive (fuel : Nat) (todo : List ι) (seen : OrdSet ι) :
    reachLoop F forward true fuel todo seen =
      match Flood.flood (fun _ => id) (fun i => (nextNodes F forward i).toList) fuel todo seen () with
      | some (seen, _) => .ok seen
      | none => .error .outOfFuel := by
  induction fuel generalizing todo seen with
  | zero => rfl
  | succ fuel ih =>
    cases todo with
    | nil => rfl
    | cons i todo =>
      unfold reachLoop Flood.flood
      split_ifs with hi
      · exact ih todo seen
      · exact ih _ _
      · contradiction

/-- The fuel that the searches of a function need. -/
def enoughFuel (F : CFG β ι) (forward : Bool) (start : ι) : Nat :=
  Flood.enough (fun i => (nextNodes F forward i).toList) (insert start F.instructions.toFinset)
    [start]

/-- In inclusive mode the result is what the start reaches, the start included. -/
theorem getInstructionsReachableFrom_inclusive (F : CFG β ι) (forward : Bool) (start : ι) :
    ∃ seen : OrdSet ι, (∀ i, i ∈ seen ↔ ReflTransGen (OrientedEdge F forward) start i) ∧
      ∀ fuel ≥ enoughFuel F forward start,
        getInstructionsReachableFrom fuel F start forward true = .ok seen := by
  have hstep : Flood.Step (fun i => (nextNodes F forward i).toList) = OrientedEdge F forward := by
    funext i j
    exact propext mem_nextNodes
  have hspec {fuel : Nat} (hfuel : enoughFuel F forward start ≤ fuel) :=
    Flood.flood_spec (fun _ => id) ()
      (fun u _ v hv => Finset.mem_insert_of_mem (List.mem_toFinset.mpr (mem_nextNodes.mp hv).mem))
      (by simp) hfuel
  obtain ⟨seen, -, -, hseen, -⟩ := hspec le_rfl
  simp only [List.mem_singleton, exists_eq_left, hstep] at hseen
  refine ⟨seen, hseen, fun fuel hfuel => ?_⟩
  obtain ⟨seen', order, -, hseen', hret⟩ := hspec hfuel
  simp only [List.mem_singleton, exists_eq_left, hstep] at hseen'
  unfold getInstructionsReachableFrom
  rw [reachLoop_inclusive, hret]
  obtain rfl : seen' = seen := OrdSet.ext fun i => (hseen' i).trans (hseen i).symm
  rfl

/-! ## Exclusive Mode -/

/-- Marked instructions are dropped. -/
theorem reachLoop_drain {fuel : Nat} {todo : List ι} {seen : OrdSet ι} (hfuel : todo.length < fuel)
    (htodo : ∀ i ∈ todo, i ∈ seen) : reachLoop F forward inclusive fuel todo seen = .ok seen := by
  induction fuel generalizing todo with
  | zero => exact absurd hfuel (Nat.not_lt_zero _)
  | succ fuel ih =>
    cases todo with
    | nil => rfl
    | cons i todo =>
      obtain ⟨hi, htodo⟩ := List.forall_mem_cons.mp htodo
      unfold reachLoop
      rw [if_pos hi]
      exact ih (Nat.lt_of_succ_lt_succ hfuel) htodo

/-- In exclusive mode the result is what is one step away. -/
theorem getInstructionsReachableFrom_exclusive (F : CFG β ι) (forward : Bool) (start : ι)
    {fuel : Nat} (hfuel : (nextNodes F forward start).size + 2 ≤ fuel) :
    getInstructionsReachableFrom fuel F start forward false = .ok (nextNodes F forward start) := by
  obtain ⟨fuel, rfl⟩ := Nat.exists_eq_add_of_le' hfuel
  have hunion : OrdSet.union ∅ (nextNodes F forward start) = nextNodes F forward start := by
    ext i
    simp
  unfold getInstructionsReachableFrom reachLoop
  rw [if_neg (OrdSet.not_mem_empty start)]
  simp only [Bool.false_eq_true, if_false, List.nil_append, hunion]
  refine reachLoop_drain ?_ fun i hi => hi
  change (nextNodes F forward start).size < fuel + ((nextNodes F forward start).size + 1)
  omega

/-! ## The Result -/

omit [LinearOrder ι] in
/-- One step is all steps when two steps lead no further than one. -/
theorem transGen_eq_step {E : ι → ι → Prop} :
    (∀ i, E start i ↔ TransGen E start i) ↔ ∀ i j, E start i → E i j → E start j := by
  constructor
  · intro h i j hi hj
    exact (h j).mpr (.tail (.single hi) hj)
  · intro h i
    refine ⟨.single, fun hi => ?_⟩
    induction hi with
    | single hi => exact hi
    | tail _ hj ih => exact h _ _ ih hj

/-- In inclusive mode the helper is exact. In exclusive mode it is exact when what is two
steps away is one step away as well, and the instructions between two are exact when each
of them directly follows the one and directly precedes the other. -/
theorem getInstructionsReachableFrom_exact (F : CFG β ι) (start : ι) :
    (∀ forward, ∃ S : OrdSet ι,
      (∃ N, ∀ fuel ≥ N, getInstructionsReachableFrom fuel F start forward true = .ok S) ∧
      ∀ i, i ∈ S ↔ i = start ∨ TransGen (OrientedEdge F forward) start i) ∧
    (∀ forward, ∃ S : OrdSet ι,
      (∃ N, ∀ fuel ≥ N, getInstructionsReachableFrom fuel F start forward false = .ok S) ∧
      ((∀ i, i ∈ S ↔ TransGen (OrientedEdge F forward) start i) ↔
        ∀ i j, OrientedEdge F forward start i → OrientedEdge F forward i j →
          OrientedEdge F forward start j)) ∧
    ∀ stop, ∃ S : OrdSet ι,
      (∃ N, ∀ fuel ≥ N, getInstructionsBetween fuel F start stop = .ok S) ∧
      ((∀ i, i ∈ S ↔ TransGen F.Edge start i ∧ TransGen F.Edge i stop) ↔
        ∀ i, TransGen F.Edge start i → TransGen F.Edge i stop → F.Edge start i ∧ F.Edge i stop) := by
  refine ⟨fun forward => ?_, fun forward => ?_, fun stop => ?_⟩
  · obtain ⟨S, hS, hret⟩ := getInstructionsReachableFrom_inclusive F forward start
    refine ⟨S, ⟨_, hret⟩, fun i => ?_⟩
    rw [hS, reflTransGen_iff_eq_or_transGen, eq_comm]
  · refine ⟨nextNodes F forward start,
      ⟨_, fun fuel hfuel => getInstructionsReachableFrom_exclusive F forward start hfuel⟩, ?_⟩
    simp only [mem_nextNodes]
    exact transGen_eq_step
  · let S := (nextNodes F true start).filter (· ∈ nextNodes F false stop)
    have hS (i : ι) : i ∈ S ↔ F.Edge start i ∧ F.Edge i stop := by
      simp [S, mem_nextNodes, OrientedEdge]
    refine ⟨S, ⟨max ((nextNodes F true start).size + 2) ((nextNodes F false stop).size + 2),
      fun fuel hfuel => ?_⟩, ?_⟩
    · have hfwd := getInstructionsReachableFrom_exclusive F true start
        ((le_max_left _ _).trans hfuel)
      have hbwd := getInstructionsReachableFrom_exclusive F false stop
        ((le_max_right _ _).trans hfuel)
      unfold getInstructionsBetween
      rw [hfwd, hbwd]
      rfl
    · simp only [hS]
      constructor
      · exact fun h i hstart hstop => (h i).mpr ⟨hstart, hstop⟩
      · exact fun h i => ⟨fun hi => ⟨.single hi.1, .single hi.2⟩, fun hi => h i hi.1 hi.2⟩

/-- A block of four instructions. -/
def straightLine : CFG Nat Nat where
  entry := ⟨0, [0, 1, 2], 3, []⟩
  rest := []
  labels_nodup := by decide
  instructions_nodup := by decide
  succs_mem := by decide
  entry_not_succ := by decide

/-- From the first of four instructions the helper finds the second only, and between the
first and the last it finds nothing. -/
theorem getInstructionsReachableFrom_straightLine : ∃ S T : OrdSet Nat,
    (getInstructionsReachableFrom 5 straightLine 0 true false = .ok S ∧
      ¬ ∀ i, i ∈ S ↔ TransGen straightLine.Edge 0 i) ∧
    getInstructionsBetween 5 straightLine 0 3 = .ok T ∧
      ¬ ∀ i, i ∈ T ↔ TransGen straightLine.Edge 0 i ∧ TransGen straightLine.Edge i 3 := by
  have hedge (i : Nat) (hi : i + 1 ∈ straightLine.successorsInst i) : straightLine.Edge i (i + 1) :=
    CFG.mem_successorsInst.mp hi
  have h01 := hedge 0 (by decide)
  have h12 := hedge 1 (by decide)
  have h23 := hedge 2 (by decide)
  refine ⟨⟨[1], by decide⟩, ∅, ⟨by decide +kernel, fun h => ?_⟩, by decide +kernel, fun h => ?_⟩
  · exact absurd ((h 2).mpr (.tail (.single h01) h12)) (by decide)
  · exact absurd ((h 1).mpr ⟨.single h01, .tail (.single h12) h23⟩) (by decide)

end Clou.ControlFlow
