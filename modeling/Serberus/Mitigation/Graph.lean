-- SUMMARY: The weighted S-CFG that the pass hands to the min-cut algorithm: its nodes, its edges and their weights.
import Serberus.MinCutGreedy.Sound
import Serberus.Mitigation.Placement

/-!
# The Graph of a Function

The pass first adds the edges of the control flow with their weights. Then it adds the edges
from exits to entries with weight 1, and keeps the weight of an edge that is already there.
-/

namespace Clou

namespace NodeGraph

variable {Node : Type} [LinearOrder Node]

/-- `G[u]` -/
def row (G : NodeGraph Node) (u : Node) : OrdMap Node Weight := (G.find? u).getD ∅

theorem weightedEdge_iff {G : NodeGraph Node} {u v : Node} {w : Weight} :
    G.WeightedEdge u v w ↔ (G.row u).find? v = some w := by
  unfold row WeightedEdge
  constructor
  · rintro ⟨dsts, hrow, hv⟩
    rw [OrdMap.find?_eq_some.mpr hrow]
    exact OrdMap.find?_eq_some.mpr hv
  · intro h
    cases hrow : G.find? u with
    | none =>
      rw [hrow] at h
      cases h
    | some dsts =>
      rw [hrow] at h
      exact ⟨dsts, OrdMap.find?_eq_some.mp hrow, OrdMap.find?_eq_some.mp h⟩

theorem row_insert (G : NodeGraph Node) (u u' : Node) (dsts : OrdMap Node Weight) :
    NodeGraph.row (G.insert u dsts) u' = if u' = u then dsts else G.row u' := by
  unfold row
  rw [OrdMap.find?_insert]
  split_ifs <;> rfl

end NodeGraph

namespace Mitigation

open ControlFlow CFG

variable {β ι : Type}

/-- What `compute_edge_weight` goes by. -/
structure Weighting (ι : Type) where
  /-- `WeightGraph` -/
  weightGraph : Bool
  /-- `score * 1000`, as an `unsigned`. -/
  score : ι → ι → Weight

def Weighting.computeEdgeWeight (W : Weighting ι) (src dst : ι) : Weight :=
  if W.weightGraph then W.score src dst else 1

variable [DecidableEq β] [LinearOrder ι]

/-- `G[&src]`, and in it all successors of `src`. -/
def addEdges (W : Weighting ι) (F : CFG β ι) (G : NodeGraph ι) (src : ι) : NodeGraph ι :=
  G.insert src ((F.successorsInst src).foldl
    (fun dsts dst => dsts.insert dst (W.computeEdgeWeight src dst)) (G.row src))

def addBackEdge (exit : ι) (G : NodeGraph ι) (entry : ι) : NodeGraph ι :=
  if entry = exit then G else G.insert exit ((G.row exit).emplace entry 1)

namespace IR

variable (ir : IR β ι)

def exits (F : CFG β ι) : List ι := F.instructions.filter ir.isExit

def entries (F : CFG β ι) : List ι := F.instructions.filter (ir.isEntry F)

/-- `G`, as the min-cut algorithm gets it. -/
def graph (W : Weighting ι) (F : CFG β ι) : NodeGraph ι :=
  let G := F.instructions.foldl (addEdges W F) ∅
  (ir.exits F).foldl (fun G exit => (ir.entries F).foldl (addBackEdge exit) G) G

end IR

/-! ## Lookups -/

section Lookups

variable {ir : IR β ι} {W : Weighting ι} {F : CFG β ι} {G : NodeGraph ι} {u v : ι}

theorem row_foldl_addEdges (srcs : List ι) :
    ((NodeGraph.row (srcs.foldl (addEdges W F) G) u).find? v) =
      if u ∈ srcs ∧ v ∈ F.successorsInst u then some (W.computeEdgeWeight u v)
      else (G.row u).find? v := by
  induction srcs generalizing G with
  | nil => simp
  | cons src srcs ih =>
    rw [List.foldl_cons, ih, addEdges, NodeGraph.row_insert]
    by_cases hu : u = src
    · subst hu
      rw [if_pos rfl, OrdMap.find?_foldl_insert]
      by_cases hv : v ∈ F.successorsInst u <;> simp [hv]
    · simp [hu]

theorem row_foldl_addBackEdge (exit : ι) (entries : List ι) :
    ((NodeGraph.row (entries.foldl (addBackEdge exit) G) u).find? v) =
      ((G.row u).find? v).or (if u = exit ∧ v ∈ entries ∧ v ≠ u then some 1 else none) := by
  induction entries generalizing G with
  | nil => simp
  | cons entry entries ih =>
    rw [List.foldl_cons, ih, addBackEdge]
    by_cases hne : entry = exit
    · rw [if_pos hne]
      by_cases hu : u = exit
      · subst hu hne
        by_cases hv : v = entry <;> simp [hv]
      · simp [hu]
    · rw [if_neg hne, NodeGraph.row_insert]
      by_cases hu : u = exit
      · subst hu
        rw [if_pos rfl, OrdMap.find?_emplace, Option.or_assoc]
        by_cases hv : v = entry
        · subst hv
          simp [hne]
        · simp [hv]
      · simp [hu]

theorem row_foldl_backEdges (exits entries : List ι) :
    ((NodeGraph.row (exits.foldl (fun G exit => entries.foldl (addBackEdge exit) G) G) u).find? v) =
      ((G.row u).find? v).or (if u ∈ exits ∧ v ∈ entries ∧ v ≠ u then some 1 else none) := by
  induction exits generalizing G with
  | nil => simp
  | cons exit exits ih =>
    rw [List.foldl_cons, ih, row_foldl_addBackEdge, Option.or_assoc]
    by_cases hu : u = exit
    · subst hu
      by_cases hv : v ∈ entries ∧ v ≠ u <;> simp [hv]
    · simp [hu]

theorem mem_keys_foldl_addEdges (srcs : List ι) :
    u ∈ (srcs.foldl (addEdges W F) G).keys ↔ u ∈ srcs ∨ u ∈ G.keys := by
  induction srcs generalizing G with
  | nil => simp
  | cons src srcs ih =>
    rw [List.foldl_cons, ih, addEdges, OrdMap.mem_keys_insert, List.mem_cons]
    tauto

theorem mem_keys_of_backEdges {exits entries : List ι}
    (h : u ∈ OrdMap.keys (exits.foldl (fun G exit => entries.foldl (addBackEdge exit) G) G)) :
    u ∈ exits ∨ u ∈ G.keys := by
  have hinner {exit : ι} (entries : List ι) {G : NodeGraph ι}
      (h : u ∈ OrdMap.keys (entries.foldl (addBackEdge exit) G)) : u = exit ∨ u ∈ G.keys := by
    induction entries generalizing G with
    | nil => exact .inr h
    | cons entry entries ih =>
      rcases ih h with hu | hu
      · exact .inl hu
      · unfold addBackEdge at hu
        split_ifs at hu
        · exact .inr hu
        · exact OrdMap.mem_keys_insert.mp hu
  induction exits generalizing G with
  | nil => exact .inr h
  | cons exit exits ih =>
    rcases ih h with hu | hu
    · exact .inl (.tail _ hu)
    · rcases hinner entries hu with rfl | hu
      · exact .inl (.head _)
      · exact .inr hu

theorem mem_keys_backEdges {exits entries : List ι} (h : u ∈ G.keys) :
    u ∈ OrdMap.keys (exits.foldl (fun G exit => entries.foldl (addBackEdge exit) G) G) := by
  have hinner {exit : ι} (entries : List ι) {G : NodeGraph ι} (h : u ∈ G.keys) :
      u ∈ OrdMap.keys (entries.foldl (addBackEdge exit) G) := by
    induction entries generalizing G with
    | nil => exact h
    | cons entry entries ih =>
      refine ih ?_
      unfold addBackEdge
      split_ifs
      · exact h
      · exact OrdMap.mem_keys_insert.mpr (.inr h)
  induction exits generalizing G with
  | nil => exact h
  | cons exit exits ih => exact ih (hinner entries h)

omit [DecidableEq β] [LinearOrder ι] in
theorem mem_exits : u ∈ ir.exits F ↔ u ∈ F.instructions ∧ ir.isExit u = true := List.mem_filter

omit [DecidableEq β] in
theorem mem_entries : u ∈ ir.entries F ↔ u ∈ F.instructions ∧ ir.isEntry F u = true :=
  List.mem_filter

end Lookups

/-! ## The Whole Graph -/

section Graph

variable {ir : IR β ι} {W : Weighting ι} {F : CFG β ι} {u v : ι} {w : Weight}

theorem row_graph : ((ir.graph W F).row u).find? v =
    (if v ∈ F.successorsInst u then some (W.computeEdgeWeight u v) else none).or
      (if u ∈ ir.exits F ∧ v ∈ ir.entries F ∧ v ≠ u then some 1 else none) := by
  unfold IR.graph
  rw [row_foldl_backEdges, row_foldl_addEdges]
  have hnone : ((∅ : NodeGraph ι).row u).find? v = none := rfl
  have hsuccs : u ∈ F.instructions ∧ v ∈ F.successorsInst u ↔ v ∈ F.successorsInst u :=
    and_iff_right_of_imp fun h => (mem_successorsInst.mp h).mem.1
  simp only [hnone, hsuccs]

/-- The weight of an edge of the control flow is the computed one; a back edge that is no edge
of the control flow has weight 1. -/
theorem weightedEdge_graph : (ir.graph W F).WeightedEdge u v w ↔
    (F.Edge u v ∧ w = W.computeEdgeWeight u v) ∨
      ¬ F.Edge u v ∧ (u ∈ ir.exits F ∧ v ∈ ir.entries F ∧ v ≠ u) ∧ w = 1 := by
  rw [NodeGraph.weightedEdge_iff, row_graph, ← mem_successorsInst]
  by_cases hsucc : v ∈ F.successorsInst u
  · simp [hsucc, eq_comm]
  · by_cases hback : u ∈ ir.exits F ∧ v ∈ ir.entries F ∧ v ≠ u <;> simp [hsucc, hback, eq_comm]

theorem edge_graph : (ir.graph W F).Edge u v ↔ InGraph ir F (u, v) := by
  have hentries : v ∈ (F.instructions.filter fun dst => ir.isEntry F dst && decide (dst ≠ u)) ↔
      v ∈ ir.entries F ∧ v ≠ u := by
    simp [mem_entries, and_assoc]
  unfold NodeGraph.Edge InGraph IR.graphDsts
  simp only [weightedEdge_graph, List.mem_append, mem_successorsInst]
  constructor
  · rintro ⟨w, ⟨hedge, -⟩ | ⟨-, ⟨hexit, hback⟩, -⟩⟩
    · exact ⟨hedge.mem.1, .inl hedge⟩
    · obtain ⟨hu, hexit⟩ := mem_exits.mp hexit
      exact ⟨hu, .inr (by rw [if_pos hexit]; exact hentries.mpr hback)⟩
  · rintro ⟨hu, hedge | hback⟩
    · exact ⟨_, .inl ⟨hedge, rfl⟩⟩
    · by_cases hedge : F.Edge u v
      · exact ⟨_, .inl ⟨hedge, rfl⟩⟩
      · split_ifs at hback with hexit
        · exact ⟨1, .inr ⟨hedge, ⟨mem_exits.mpr ⟨hu, hexit⟩, hentries.mp hback⟩, rfl⟩⟩
        · cases hback

/-- Every instruction has a row, also one that nothing leads to or from. -/
theorem mem_getNodes_graph : u ∈ getNodes (ir.graph W F) ↔ u ∈ F.instructions := by
  refine mem_getNodes.trans ⟨?_, fun hu => ?_⟩
  · rintro ⟨e, he, rfl | hkey⟩
    · rcases mem_keys_of_backEdges (OrdMap.mem_keys.mpr ⟨_, he⟩) with hexit | hkey
      · exact (mem_exits.mp hexit).1
      · exact ((mem_keys_foldl_addEdges _).mp hkey).resolve_right List.not_mem_nil
    · obtain ⟨w, hw⟩ := OrdMap.mem_keys.mp hkey
      exact (edge_graph.mp ⟨w, e.2, he, hw⟩).dst_mem
  · have hkey : u ∈ (ir.graph W F).keys :=
      mem_keys_backEdges ((mem_keys_foldl_addEdges _).mpr (.inl hu))
    obtain ⟨dsts, hrow⟩ := OrdMap.mem_keys.mp hkey
    exact ⟨_, hrow, .inl rfl⟩

/-- With positive scores all weights are positive. -/
theorem positive_graph (hW : W.weightGraph = true → ∀ i j, 0 < W.score i j) :
    (ir.graph W F).Positive := by
  intro e he d hd
  rcases weightedEdge_graph.mp ⟨e.2, he, hd⟩ with ⟨-, hw⟩ | ⟨-, -, hw⟩
  · rw [hw, Weighting.computeEdgeWeight]
    split_ifs with hweight
    · exact hW hweight e.1 d.1
    · decide
  · rw [hw]
    decide

end Graph

end Mitigation

end Clou
