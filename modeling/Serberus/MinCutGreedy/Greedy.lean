-- SUMMARY: The greedy loop: one cut per ST, recomputed in turn until a pass changes nothing.
import Serberus.MinCutGreedy.OptimizeSts
import Serberus.FordFulkerson.Multi

/-!
# The Greedy Loop

Every ST has a cut of its own, and the working graph lacks the edges of all of them.
A pass goes through the STs. In mode `replace` it puts the edges of the ST's cut back
and computes the cut anew, in mode `augment` it only adds to it. The mode changes to
`augment` when the cuts repeat, or when time is up.

The solver and the clock are parameters: `solve` stands for `ford_fulkerson_multi`,
and `timedOut n` says what the timeout test answers at the end of pass `n`.
-/

namespace Clou

/-! ## Edges of the Working Graph -/

/-- `G[e.src].insert(std::make_pair(e.dst, w))`, and whether it inserted. -/
def IdxGraph.insertEdge (G : IdxGraph) (e : IdxEdge) (w : Weight) : IdxGraph × Bool :=
  match (G.row e.src).find? e.dst with
  | some _ => (G, false)
  | none => (G.modify e.src (·.insert e.dst w), true)

/-- `G[e.src].erase(e.dst)`, and whether it erased. -/
def IdxGraph.eraseEdge (G : IdxGraph) (e : IdxEdge) : IdxGraph × Bool :=
  (G.modify e.src (·.erase e.dst), ((G.row e.src).find? e.dst).isSome)

/-- `G.at(u)` -/
def IdxGraph.rowAt (G : IdxGraph) (u : Idx) : Exec Dsts :=
  match G[u]? with
  | some dsts => pure dsts
  | none => throw .outOfRange

/-- `G[e.src].at(e.dst)` -/
def IdxGraph.weightAt (G : IdxGraph) (e : IdxEdge) : Exec Weight :=
  match (G.row e.src).find? e.dst with
  | some w => pure w
  | none => throw .outOfRange

/-- `std::unique(l.begin(), l.end())` with its result discarded: the distinct
elements move to the front, the rest of the list stays as it was. -/
def uniqueInPlace {α : Type} [DecidableEq α] (l : List α) : List α :=
  let l' := l.destutter (· ≠ ·)
  l' ++ l.drop l'.length

/-! ## The Loop -/

inductive Mode where
  | replace
  | augment
  deriving DecidableEq

/-- The cuts of the STs, in the order of the STs. -/
abbrev Cuts := List (List IdxEdge)

/-- What the loop works on. -/
structure Greedy where
  OrigG : IdxGraph
  sts : List IdxST
  solve : IdxGraph → List (OrdSet Idx) → Exec (List IdxEdge)
  timedOut : Nat → Bool
  ndebug : Bool

namespace Greedy

/-- The variables of the loop. -/
structure State where
  mode : Mode
  G : IdxGraph
  cuts : Cuts
  cutsHist : OrdSet Cuts
  changed : Bool
  passes : Nat

variable (M : Greedy)

def init : State where
  mode := .replace
  G := M.OrigG
  cuts := List.replicate M.sts.length []
  cutsHist := ∅
  changed := false
  passes := 0

def reinsertEdge (G : IdxGraph) (e : IdxEdge) : Exec IdxGraph := do
  let w ← M.OrigG.weightAt e
  let (G, inserted) := G.insertEdge e w
  assert M.ndebug .cutEdgeInserted (inserted = true)
  pure G

/-- Add old cut edges back in to graph. -/
def addOldCut (mode : Mode) (oldcut : List IdxEdge) (G : IdxGraph) : Exec IdxGraph :=
  match mode with
  | .replace => oldcut.foldlM M.reinsertEdge G
  | .augment => pure G

/-- The new cut of an ST, from what the solver returned. -/
def newCut (mode : Mode) (oldcut newcutTmp : List IdxEdge) : List IdxEdge :=
  let newcut :=
    match mode with
    | .replace => newcutTmp
    | .augment => newcutTmp ++ oldcut
  uniqueInPlace (newcut.insertionSort (· ≤ ·))

/-- `at` is part of the assertion, so a build with `ndebug` does not call it. -/
def checkPresent (mode : Mode) (G : IdxGraph) (e : IdxEdge) : Exec Unit :=
  if mode = .replace ∧ M.ndebug = false then do
    let dsts ← G.rowAt e.src
    assert M.ndebug .newCutEdgePresent ((dsts.find? e.dst).isSome = true)
  else pure ()

def checkErased (mode : Mode) (erased : Bool) : Exec Unit :=
  if mode = .replace then assert M.ndebug .cutEdgeErased (erased = true) else pure ()

def removeEdge (mode : Mode) (G : IdxGraph) (e : IdxEdge) : Exec IdxGraph := do
  M.checkPresent mode G e
  let (G, erased) := G.eraseEdge e
  M.checkErased mode erased
  pure G

/-- Recompute the cut of the ST at position `i`. -/
def stepSt (s : State) : IdxST × Nat → Exec State
  | (st, i) => do
    let oldcut := s.cuts.getD i []
    let G ← M.addOldCut s.mode oldcut s.G
    let newcutTmp ← M.solve G st.waypoints
    let newcut := newCut s.mode oldcut newcutTmp
    let G ← newcut.foldlM (M.removeEdge s.mode) G
    pure { s with
      G := G
      cuts := s.cuts.set i newcut
      changed := s.changed || decide (oldcut ≠ newcut) }

/-- Remember the cuts of a pass that changed something; the mode changes when they
are known already, or when time is up. -/
def remember (s : State) : Exec State :=
  if s.changed then
    if s.cuts ∈ s.cutsHist then do
      assert M.ndebug .modeReplace (s.mode = .replace)
      pure { s with mode := .augment }
    else if M.timedOut s.passes then
      pure { s with mode := .augment, cutsHist := s.cutsHist.insert s.cuts }
    else pure { s with cutsHist := s.cutsHist.insert s.cuts }
  else pure s

/-- Double-check that there are no redundant edges, by two reads of one size. -/
def checkRedundant (cuts : Cuts) : Exec Unit :=
  let cutset := cuts.flatten.insertionSort (· ≤ ·)
  assert M.ndebug .noRedundantEdges (cutset.length = (uniqueInPlace cutset).length)

def endPass (s : State) : Exec (State × Bool) := do
  let s ← M.remember s
  M.checkRedundant s.cuts
  pure ({ s with passes := s.passes + 1 }, s.changed)

/-- One round of the `do`-`while` loop. -/
def pass (s : State) : Exec (State × Bool) := do
  let s ← M.sts.zipIdx.foldlM M.stepSt { s with changed := false }
  M.endPass s

def loop (fuel : Nat) : Exec State := doWhile M.pass fuel M.init

/-! ## Reached States -/

/-- `s` is a state of a run in which the STs before `i` have been processed in the
current pass. -/
inductive Reached : State → Nat → Prop
  | start : Reached M.init 0
  | st {s s' : State} {i : Nat} (h : Reached s i) (hi : i < M.sts.length)
      (hstep : M.stepSt s (M.sts[i], i) = .ok s') : Reached s' (i + 1)
  | pass {s s' : State} (h : Reached s M.sts.length) (hend : M.endPass s = .ok (s', true)) :
      Reached { s' with changed := false } 0

end Greedy

end Clou
