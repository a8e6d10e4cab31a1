-- SUMMARY: The rewrites that simplify a list of STs, and the loop that applies them until none fires.
import Serberus.Exec
import Serberus.FordFulkerson.Graph
import Serberus.Lib.Search

/-!
# Optimising STs

An ST asks for a cut of all walks through its waypoint sets. `optimizeSts` joins
STs that differ in one set, drops waypoints that no walk uses, drops middle sets
and STs that add nothing, and repeats this until no rewrite reports a change.
Every rewrite returns the rewritten value and whether it changed anything.
-/

namespace Clou

open Search

/-- A list of waypoint sets. -/
structure IdxST where
  waypoints : List (OrdSet Idx)
  deriving Inhabited

namespace IdxST

theorem waypoints_injective : Function.Injective waypoints := by
  rintro ⟨Ws⟩ ⟨Ws'⟩ h
  exact congrArg IdxST.mk h

instance : LinearOrder IdxST := LinearOrder.lift' waypoints waypoints_injective

end IdxST

/-- The nodes reached from `S` by at least one edge, through nodes that are not skipped. -/
def reachSkipping (G : IdxGraph) (skip : Idx → Bool) (S : OrdSet Idx) : Idx → Bool :=
  (explore skip (fun u => (G.row u).keys) (S.size + G.length) S.toList.reverse).visited

/-! ## Rewrites of One ST -/

/-- Keep of every set what is reached from the one before, as already reduced.
Also counts the waypoints that were dropped. -/
def cullUnreachables (G : IdxGraph) : OrdSet Idx → List (OrdSet Idx) → List (OrdSet Idx) × Nat
  | _, [] => ([], 0)
  | S, T :: Ts =>
    let T' := T.filter (reachSkipping G (fun _ => false) S)
    let (Ts', removed) := cullUnreachables G T' Ts
    (T' :: Ts', (T.size - T'.size) + removed)

def optimizeStsCullUnreachables (st : IdxST) (G : IdxGraph) : IdxST × Bool :=
  match st.waypoints with
  | [] => (st, false)
  | S :: Ts =>
    let (Ts', removed) := cullUnreachables G S Ts
    (⟨S :: Ts'⟩, decide (0 < removed))

/-- Whether `s` reaches `T` without passing through `S`. -/
def reachedT (G : IdxGraph) (S T : OrdSet Idx) (s : Idx) : Bool :=
  hits (· ∈ T) (· ∈ S) (fun u => (G.row u).keys) (1 + G.length) [s]

/-- Erase the listed sources that do not reach `T`, each judged against the set
that the erasures before have left. -/
def cullSourcesLeg (G : IdxGraph) (T : OrdSet Idx) : List Idx → OrdSet Idx → OrdSet Idx × Bool
  | [], S => (S, false)
  | s :: ss, S =>
    if reachedT G S T s then cullSourcesLeg G T ss S
    else ((cullSourcesLeg G T ss (S.erase s)).1, true)

def cullSources (G : IdxGraph) : List (OrdSet Idx) → List (OrdSet Idx) × Bool
  | S :: T :: Ts =>
    let (S', changed) := cullSourcesLeg G T S.toList S
    let (Ts', changed') := cullSources G (T :: Ts)
    (S' :: Ts', changed || changed')
  | Ts => (Ts, false)

def optimizeStsCullSources (st : IdxST) (G : IdxGraph) : IdxST × Bool :=
  let (Ws, changed) := cullSources G st.waypoints
  (⟨Ws⟩, changed)

/-- No node of `C` is reached from `A` around `B`. -/
def noACPath (G : IdxGraph) (A B C : OrdSet Idx) : Bool :=
  C.toList.all fun v => !reachSkipping G (· ∈ B) A v

/-- Drop middle sets, from left to right: the list starts behind `A`. -/
def removeRedundantInternal (G : IdxGraph) :
    OrdSet Idx → List (OrdSet Idx) → List (OrdSet Idx) × Bool
  | A, B :: C :: Ts =>
    if noACPath G A B C then ((removeRedundantInternal G A (C :: Ts)).1, true)
    else
      let (Ts', changed) := removeRedundantInternal G B (C :: Ts)
      (B :: Ts', changed)
  | _, Ts => (Ts, false)

def optimizeStsRemoveRedundantInternalSt (st : IdxST) (G : IdxGraph) : IdxST × Bool :=
  match st.waypoints with
  | [] => (st, false)
  | A :: Ts =>
    let (Ts', changed) := removeRedundantInternal G A Ts
    (⟨A :: Ts'⟩, changed)

def optimizeStNop (st : IdxST) (_ : IdxGraph) : IdxST × Bool := (st, false)

/-! ## Rewrites of the List -/

def hasEmptyset (st : IdxST) : Bool := st.waypoints.any OrdSet.isEmpty

/-- Overwrite an ST that has an empty set with the last one, and look at it again. -/
def removeEmptyset : Nat → List IdxST → List IdxST
  | _, [] => []
  | 0, sts => sts
  | fuel + 1, st :: sts =>
    if hasEmptyset st then
      match sts.getLast? with
      | none => []
      | some last => removeEmptyset fuel (last :: sts.dropLast)
    else st :: removeEmptyset fuel sts

def optimizeStsRemoveEmptyset (sts : List IdxST) (_ : IdxGraph) : List IdxST × Bool :=
  let sts' := removeEmptyset sts.length sts
  (sts', decide (sts'.length ≠ sts.length))

def optimizeStsRemoveDuplicates (sts : List IdxST) (_ : IdxGraph) : List IdxST × Bool :=
  let sts' := sortUnique sts
  (sts', decide (sts.length ≠ sts'.length))

/-- Sort STs into pools by their length. -/
def pools (sts : List IdxST) : OrdMap Nat (List IdxST) :=
  sts.foldl (fun pools st =>
    pools.insert st.waypoints.length ((pools.find? st.waypoints.length).getD [] ++ [st])) ∅

/-- The sets at position `i`, united over the STs that agree elsewhere. -/
def joinSets (i : Nat) (pool : List IdxST) : OrdMap (List (OrdSet Idx)) (OrdSet Idx) :=
  pool.foldl (fun sets st =>
    let rest := st.waypoints.eraseIdx i
    sets.insert rest (((sets.find? rest).getD ∅).union (st.waypoints.getD i ∅))) ∅

def joinAt (pool : List IdxST) (i : Nat) : List IdxST :=
  (joinSets i pool).entries.map fun e => ⟨e.1.insertIdx i e.2⟩

/-- Join the STs of one pool, position by position. -/
def joinPool (n : Nat) (pool : List IdxST) : List IdxST := (List.range n).foldl joinAt pool

def optimizeStsJoin (sts : List IdxST) (_ : IdxGraph) : List IdxST × Bool :=
  let sts' := (pools sts).entries.flatMap fun e => joinPool e.1 e.2
  (sts', decide (sts.length ≠ sts'.length))

def optimizeStsNop (sts : List IdxST) (_ : IdxGraph) : List IdxST × Bool := (sts, false)

/-! ## The Loop -/

/-- Apply rewrites in turn. -/
def applyOpts {α : Type} (opts : List (α → IdxGraph → α × Bool)) (a : α) (G : IdxGraph) : α × Bool :=
  opts.foldl (fun (a, changed) opt =>
    let (a', changed') := opt a G
    (a', changed || changed')) (a, false)

def localOpts : List (IdxST → IdxGraph → IdxST × Bool) :=
  [optimizeStNop, optimizeStsCullUnreachables, optimizeStsCullSources,
    optimizeStsRemoveRedundantInternalSt]

def globalOpts : List (List IdxST → IdxGraph → List IdxST × Bool) :=
  [optimizeStsNop, optimizeStsRemoveEmptyset, optimizeStsRemoveDuplicates]

/-- Apply the local rewrites to every ST. -/
def optimizeLocals (sts : List IdxST) (G : IdxGraph) : List IdxST × Bool :=
  match sts with
  | [] => ([], false)
  | st :: sts =>
    let (st', changed) := applyOpts localOpts st G
    let (sts', changed') := optimizeLocals sts G
    (st' :: sts', changed || changed')

/-- One round of the loop. -/
def optimizeRound (G : IdxGraph) (sts : List IdxST) : List IdxST × Bool :=
  applyOpts [optimizeStsJoin, optimizeLocals, applyOpts globalOpts] sts G

def optimizeSts (fuel : Nat) (sts : List IdxST) (G : IdxGraph) : Exec (List IdxST) :=
  doWhile (fun sts => pure (optimizeRound G sts)) fuel sts

end Clou
