-- SUMMARY: The whole run: nodes to indices, optimised STs, the greedy loop, and cut edges back to nodes.
import Serberus.MinCutGreedy.Greedy
import Serberus.MinCutGreedy.Optimized
import Serberus.Positions

/-!
# `MinCutGreedy::run`

The graph and the STs are given over nodes of any ordered type. The run works on the
positions of the nodes in their sorted list, and translates the cuts back at its end.
`cut_edges` starts empty and only `run` pushes to it, so it is the result of `run`.
-/

namespace Clou

variable {Node : Type} [LinearOrder Node]

/-- `std::map<Node, std::map<Node, Weight>>` -/
abbrev NodeGraph (Node : Type) [LinearOrder Node] := OrdMap Node (OrdMap Node Weight)

/-- The edges of a graph, with their weights. -/
def NodeGraph.WeightedEdge (G : NodeGraph Node) (u v : Node) (w : Weight) : Prop :=
  ∃ dsts, (u, dsts) ∈ G.entries ∧ (v, w) ∈ dsts.entries

def NodeGraph.Edge (G : NodeGraph Node) (u v : Node) : Prop := ∃ w, G.WeightedEdge u v w

structure ST (Node : Type) [LinearOrder Node] where
  waypoints : List (OrdSet Node)

structure NodeEdge (Node : Type) where
  src : Node
  dst : Node
  deriving DecidableEq

/-- The edges of a list, as a set of pairs. -/
def nodeEdgeSet (es : List (NodeEdge Node)) : Set (Node × Node) := {p | NodeEdge.mk p.1 p.2 ∈ es}

def getNodes (G : NodeGraph Node) : OrdSet Node :=
  .ofList (G.entries.flatMap fun e => e.1 :: e.2.keys)

/-! ## Nodes and Indices -/

def nodeToIdx (ndebug : Bool) (nodes : List Node) (node : Node) : Exec Idx :=
  positionOf ndebug .nodeFound nodes node

def idxToNode (ndebug : Bool) (nodes : List Node) (idx : Idx) : Exec Node :=
  elementAt ndebug .indexInRange nodes idx

/-- One iteration of the inner loop over the edges of a node. -/
def indexEdge (ndebug : Bool) (nodes : List Node) (isrc : Idx) (IG : IdxGraph) (e : Node × Weight) :
    Exec IdxGraph := do
  let idst ← nodeToIdx ndebug nodes e.1
  pure (IG.modify isrc (·.insert idst e.2))

def indexGraph (ndebug : Bool) (nodes : List Node) (G : NodeGraph Node) : Exec IdxGraph :=
  G.entries.foldlM (fun IG e => do
    let isrc ← nodeToIdx ndebug nodes e.1
    e.2.entries.foldlM (indexEdge ndebug nodes isrc) IG) (List.replicate nodes.length ∅)

def indexWay (ndebug : Bool) (nodes : List Node) (way : OrdSet Node) : Exec (OrdSet Idx) := do
  let iway ← way.toList.mapM (nodeToIdx ndebug nodes)
  pure (.ofList iway)

def indexSt (ndebug : Bool) (nodes : List Node) (st : ST Node) : Exec IdxST := do
  let waypoints ← st.waypoints.mapM (indexWay ndebug nodes)
  pure ⟨waypoints⟩

def nodeEdge (ndebug : Bool) (nodes : List Node) (e : IdxEdge) : Exec (NodeEdge Node) := do
  let src ← idxToNode ndebug nodes e.src
  let dst ← idxToNode ndebug nodes e.dst
  pure ⟨src, dst⟩

/-! ## The Run -/

/-- What `run` hands to the greedy loop. -/
def prepare (ndebug : Bool) (fuel : Nat) (timedOut : Nat → Bool) (G : NodeGraph Node)
    (sts : List (ST Node)) : Exec Greedy := do
  let nodes := (getNodes G).toList
  let IG ← indexGraph ndebug nodes G
  let ists ← sts.mapM (indexSt ndebug nodes)
  let ists ← optimizeSts fuel ists IG
  pure ⟨IG, ists, fordFulkersonMulti ndebug fuel, timedOut, ndebug⟩

def run (ndebug : Bool) (fuel : Nat) (timedOut : Nat → Bool) (G : NodeGraph Node)
    (sts : List (ST Node)) : Exec (List (NodeEdge Node)) := do
  let M ← prepare ndebug fuel timedOut G sts
  let s ← M.loop fuel
  s.cuts.flatten.mapM (nodeEdge ndebug (getNodes G).toList)

/-! ## The Translation -/

section Translation

variable {ndebug : Bool} {G : NodeGraph Node} {nodes : List Node}

theorem mem_getNodes {u : Node} :
    u ∈ (getNodes G).toList ↔ ∃ e ∈ G.entries, u = e.1 ∨ u ∈ e.2.keys := by
  change u ∈ getNodes G ↔ _
  simp [getNodes]

theorem NodeGraph.WeightedEdge.mem_nodes {u v : Node} {w : Weight} (h : G.WeightedEdge u v w) :
    u ∈ (getNodes G).toList ∧ v ∈ (getNodes G).toList := by
  obtain ⟨dsts, hrow, hv⟩ := h
  exact ⟨mem_getNodes.mpr ⟨_, hrow, .inl rfl⟩,
    mem_getNodes.mpr ⟨_, hrow, .inr (OrdMap.mem_keys.mpr ⟨w, hv⟩)⟩⟩

theorem nodeToIdx_ok {u : Node} {i : Idx} (h : nodeToIdx ndebug nodes u = .ok i) :
    i = lowerBound nodes u := positionOf_ok h

omit [LinearOrder Node] in
theorem idxToNode_ok {u : Node} {i : Idx} (h : idxToNode ndebug nodes i = .ok u) :
    nodes[i]? = some u := elementAt_ok h

omit [LinearOrder Node] in
theorem nodeEdge_ok {e : IdxEdge} {ne : NodeEdge Node} (h : nodeEdge ndebug nodes e = .ok ne) :
    nodes[e.src]? = some ne.src ∧ nodes[e.dst]? = some ne.dst := by
  obtain ⟨src, hsrc, h⟩ := Exec.bind_eq_ok.mp h
  obtain ⟨dst, hdst, h⟩ := Exec.bind_eq_ok.mp h
  cases h
  exact ⟨idxToNode_ok hsrc, idxToNode_ok hdst⟩

/-- `IG` is the index graph of the edges `E`. -/
structure Indexes (nodes : List Node) (E : Node → Node → Weight → Prop) (IG : IdxGraph) : Prop where
  length_eq : IG.length = nodes.length
  sound : ∀ i j w, (j, w) ∈ (IG.row i).entries →
    ∃ u v, E u v w ∧ nodes[i]? = some u ∧ nodes[j]? = some v
  complete : ∀ u v w, E u v w → IG.Edge (lowerBound nodes u) (lowerBound nodes v)

theorem indexes_nil (nodes : List Node) :
    Indexes nodes (fun _ _ _ => False) (List.replicate nodes.length ∅) := by
  refine ⟨List.length_replicate, fun i j w hw => ?_, fun _ _ _ h => h.elim⟩
  have hrow : IdxGraph.row (List.replicate nodes.length ∅) i = ∅ := by
    simp only [IdxGraph.row, List.getD_eq_getElem?_getD, List.getElem?_replicate]
    split_ifs <;> rfl
  rw [hrow] at hw
  exact absurd hw List.not_mem_nil

theorem Indexes.congr {E E' : Node → Node → Weight → Prop} {IG : IdxGraph}
    (h : Indexes nodes E IG) (hE : ∀ u v w, E u v w ↔ E' u v w) : Indexes nodes E' IG := by
  refine ⟨h.length_eq, fun i j w hw => ?_, fun u v w he => h.complete u v w ((hE u v w).mpr he)⟩
  obtain ⟨u, v, he, hu, hv⟩ := h.sound i j w hw
  exact ⟨u, v, (hE u v w).mp he, hu, hv⟩

theorem Indexes.insert {E : Node → Node → Weight → Prop} {IG : IdxGraph} (h : Indexes nodes E IG)
    {u v : Node} (w : Weight) (hu : nodes[lowerBound nodes u]? = some u)
    (hv : nodes[lowerBound nodes v]? = some v) :
    Indexes nodes (fun u' v' w' => E u' v' w' ∨ u' = u ∧ v' = v ∧ w' = w)
      (IG.modify (lowerBound nodes u) (·.insert (lowerBound nodes v) w)) := by
  have hlt : lowerBound nodes u < IG.length := by
    rw [h.length_eq]
    exact (List.getElem?_eq_some_iff.mp hu).1
  refine ⟨by simpa using h.length_eq, fun i j w' hw' => ?_, fun u' v' w' he => ?_⟩
  · rw [IdxGraph.row_modify] at hw'
    split_ifs at hw' with hi
    · obtain ⟨rfl, -⟩ := hi
      rcases OrdMap.mem_insert.mp hw' with heq | ⟨-, hold⟩
      · obtain ⟨rfl, rfl⟩ := Prod.mk.inj heq
        exact ⟨u, v, .inr ⟨rfl, rfl, rfl⟩, hu, hv⟩
      · obtain ⟨u', v', he, hu', hv'⟩ := h.sound _ j w' hold
        exact ⟨u', v', .inl he, hu', hv'⟩
    · obtain ⟨u', v', he, hu', hv'⟩ := h.sound i j w' hw'
      exact ⟨u', v', .inl he, hu', hv'⟩
  · rw [IdxGraph.edge_iff_find, IdxGraph.row_modify]
    rcases he with he | ⟨rfl, rfl, rfl⟩
    · have hedge := IdxGraph.edge_iff_find.mp (h.complete u' v' w' he)
      split_ifs with hi
      · rw [OrdMap.find?_insert]
        split_ifs
        · simp
        · exact hedge
      · exact hedge
    · rw [if_pos ⟨rfl, hlt⟩, OrdMap.find?_insert, if_pos rfl]
      simp

/-- The index graph has the edges of the graph, and their weights. -/
theorem indexGraph_indexes {IG : IdxGraph}
    (hret : indexGraph ndebug (getNodes G).toList G = .ok IG) :
    Indexes (getNodes G).toList G.WeightedEdge IG := by
  let E (done : List (Node × OrdMap Node Weight)) (u v : Node) (w : Weight) : Prop :=
    ∃ dsts, (u, dsts) ∈ done ∧ (v, w) ∈ dsts.entries
  have hfound {u : Node} (hu : u ∈ (getNodes G).toList) :
      (getNodes G).toList[lowerBound (getNodes G).toList u]? = some u :=
    getElem?_lowerBound (getNodes G).sorted hu
  refine Exec.foldlM_inv (P := fun done IG => Indexes (getNodes G).toList (E done) IG) ?_
    ((indexes_nil _).congr fun u v w => by simp [E]) hret
  rintro done ⟨src, dsts⟩ IG₀ IG₁ hrow h hstep
  obtain ⟨isrc, hsrc, hdsts⟩ := Exec.bind_eq_ok.mp hstep
  obtain rfl := nodeToIdx_ok hsrc
  have hinner := Exec.foldlM_inv (P := fun done' IG => Indexes (getNodes G).toList
      (fun u v w => E done u v w ∨ u = src ∧ (v, w) ∈ done') IG)
    (fun done' e IG₂ IG₃ he h hstep => ?_) (h.congr fun u v w => by simp) hdsts
  · refine hinner.congr fun u v w => ?_
    simp only [E, List.mem_append, List.mem_singleton, Prod.mk.injEq]
    constructor
    · rintro (⟨dsts', hin, hv⟩ | ⟨rfl, hv⟩)
      · exact ⟨dsts', .inl hin, hv⟩
      · exact ⟨dsts, .inr ⟨rfl, rfl⟩, hv⟩
    · rintro ⟨dsts', hin | ⟨rfl, rfl⟩, hv⟩
      · exact .inl ⟨dsts', hin, hv⟩
      · exact .inr ⟨rfl, hv⟩
  · obtain ⟨idst, hdst, hmodify⟩ := Exec.bind_eq_ok.mp hstep
    obtain rfl := nodeToIdx_ok hdst
    cases hmodify
    obtain ⟨hsrcN, hdstN⟩ := NodeGraph.WeightedEdge.mem_nodes (w := e.2) ⟨dsts, hrow, he⟩
    refine (h.insert e.2 (hfound hsrcN) (hfound hdstN)).congr fun u v w => ?_
    simp only [List.mem_append, List.mem_singleton, Prod.ext_iff]
    rw [or_assoc, ← and_or_left]

end Translation

end Clou
