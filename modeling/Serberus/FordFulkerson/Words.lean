-- SUMMARY: The solver on 32-bit node numbers, and the bound on nodes and waypoint sets below which it is the solver on natural numbers.
import Serberus.FordFulkerson.Alike
import Serberus.FordFulkerson.Encoding

/-!
# The Solver on Machine Words

The source keeps node numbers in `unsigned` variables. The rows of a vector graph fit
into memory, but their level copies are never built: `nodes()` and
`get_node_for_level` compute their numbers, and wrap around when there are too many of
them. The definitions here compute as the source does. When all copies have numbers of
their own, they agree with the ones on natural numbers, and the solver returns the same.

Beyond that bound only `nodes() == 0` is of interest, where the solver returns at once;
otherwise it would index its bit vectors out of bounds.
-/

open Relation

namespace Clou.Words

open Clou.Graph

/-! ## Numbers -/

/-- A number as an `unsigned` variable holds it. -/
def wrap (n : Nat) : Idx := n % UInt32.size

theorem wrap_of_lt {n : Nat} (h : n < UInt32.size) : wrap n = n := Nat.mod_eq_of_lt h

structure ImmutableVectorGraph where
  G : IdxGraph

instance : Graph ImmutableVectorGraph where
  nodes g := wrap g.G.length
  row g src := g.G.row src
  getWeight g src dst := g.G.weight src dst

structure DupGraph (γ : Type) where
  G : γ
  levels : Nat

namespace DupGraph

variable {γ : Type} [Graph γ]

def getLevel (g : DupGraph γ) (v : Idx) : Nat := v / nodes g.G

def getBase (g : DupGraph γ) (v : Idx) : Idx := v % nodes g.G

def getFirstLevelNode (g : DupGraph γ) (v : Idx) : Idx := v % nodes g.G

def getNodeForLevel (g : DupGraph γ) (v : Idx) (l : Nat) : Idx := wrap (v + nodes g.G * l)

/-- The iterator adds `offset` to every key. -/
def shift (offset : Nat) (e : Idx × Weight) : Idx × Weight := (wrap (e.1 + offset), e.2)

instance : Graph (DupGraph γ) where
  nodes g := wrap (nodes g.G * g.levels)
  row g src :=
    .ofList ((row g.G (g.getBase src)).entries.map (shift (wrap (g.getLevel src * nodes g.G))))
  getWeight g src dst :=
    if g.getLevel src = g.getLevel dst then getWeight g.G (g.getBase src) (g.getBase dst) else 0

end DupGraph

/-! ## The Layered Graph -/

def dupGraph (G : IdxGraph) (waypointSets : List (OrdSet Idx)) : DupGraph ImmutableVectorGraph :=
  ⟨⟨G⟩, wrap waypointSets.length⟩

def waypointsMod (G : IdxGraph) (waypointSets : List (OrdSet Idx)) : List (OrdSet Idx) :=
  waypointSets.mapIdx fun i S =>
    S.image fun u => (dupGraph G waypointSets).getNodeForLevel u (wrap i)

/-- Lead the edge `u → v` of level `i - 1` up to level `i`. -/
def levelUp (dupG : DupGraph ImmutableVectorGraph) (i : Nat) (u : Idx)
    (modG : ScopedGraph (DupGraph ImmutableVectorGraph)) (e : Idx × Weight) :
    ScopedGraph (DupGraph ImmutableVectorGraph) :=
  (modG.putWeight (dupG.getNodeForLevel u (i - 1)) (dupG.getNodeForLevel e.1 i) e.2).putWeight
    (dupG.getNodeForLevel u (i - 1)) (dupG.getNodeForLevel e.1 (i - 1)) 0

/-- Lead the edges into `S` from level `i - 1` up to level `i`. -/
def levelUps (dupG : DupGraph ImmutableVectorGraph)
    (modG : ScopedGraph (DupGraph ImmutableVectorGraph)) (S : OrdSet Idx) (i : Nat) :
    ScopedGraph (DupGraph ImmutableVectorGraph) :=
  (List.range (nodes dupG.G)).foldl (fun modG u =>
    (row dupG.G u).entries.foldl (fun modG e =>
      if e.1 ∈ S then levelUp dupG i u modG e else modG) modG) modG

/-- One step of the loop over the waypoint sets. -/
def levelStep (dupG : DupGraph ImmutableVectorGraph)
    (modG : ScopedGraph (DupGraph ImmutableVectorGraph)) (S : OrdSet Idx × Nat) :
    ScopedGraph (DupGraph ImmutableVectorGraph) :=
  if 0 < wrap S.2 then levelUps dupG modG S.1 (wrap S.2) else modG

def modGraph (G : IdxGraph) (waypointSets : List (OrdSet Idx)) :
    ScopedGraph (DupGraph ImmutableVectorGraph) :=
  let dupG := dupGraph G waypointSets
  waypointSets.zipIdx.foldl (levelStep dupG) (.new dupG)

/-- `ford_fulkerson_multi` -/
def fordFulkersonMulti (ndebug : Bool) (fuel : Nat) (G : IdxGraph)
    (waypointSets : List (OrdSet Idx)) : Exec (List IdxEdge) := do
  let dupG := dupGraph G waypointSets
  let results ← fordFulkersonMultiImpl ndebug fuel (modGraph G waypointSets)
    (waypointsMod G waypointSets)
  let results := results.map fun e => ⟨dupG.getFirstLevelNode e.src, dupG.getFirstLevelNode e.dst⟩
  pure (sortUnique results)

/-! ## The Number of Nodes -/

section Nodes

variable {G : IdxGraph} {W : List (OrdSet Idx)} {dupG : DupGraph ImmutableVectorGraph}

theorem orig_levelUps (modG : ScopedGraph (DupGraph ImmutableVectorGraph)) (S : OrdSet Idx)
    (i : Nat) : (levelUps dupG modG S i).orig = modG.orig := by
  let Kept (g : ScopedGraph (DupGraph ImmutableVectorGraph)) : Prop := g.orig = modG.orig
  refine List.foldlRecOn (motive := Kept) _ _ rfl fun g hg u _ => ?_
  refine List.foldlRecOn (motive := Kept) _ _ hg fun g hg e _ => ?_
  split_ifs <;> exact hg

theorem orig_modGraph : (modGraph G W).orig = dupGraph G W := by
  let Kept (g : ScopedGraph (DupGraph ImmutableVectorGraph)) : Prop := g.orig = dupGraph G W
  refine List.foldlRecOn (motive := Kept) _ _ rfl fun g hg S _ => ?_
  unfold levelStep
  split_ifs
  · exact (orig_levelUps g _ _).trans hg
  · exact hg

/-- The copies are counted modulo the size of a word. -/
theorem nodes_modGraph : nodes (modGraph G W) = wrap (G.length * W.length) := by
  change nodes (modGraph G W).orig = _
  rw [orig_modGraph]
  exact (Nat.mul_mod _ _ _).symm

@[simp] theorem length_waypointsMod : (waypointsMod G W).length = W.length := by
  simp [waypointsMod]

/-- When the count wraps around to zero the solver returns at once. -/
theorem fordFulkersonMulti_of_nodes_eq_zero (hzero : wrap (G.length * W.length) = 0)
    (hk : 2 ≤ W.length) (ndebug : Bool) (fuel : Nat) :
    fordFulkersonMulti ndebug fuel G W = .ok [] := by
  have hlen : 2 ≤ (waypointsMod G W).length := length_waypointsMod.symm ▸ hk
  simp only [fordFulkersonMulti, fordFulkersonMultiImpl, assert_of hlen, nodes_modGraph, hzero]
  rfl

end Nodes

/-! ## Below the Bound -/

section Fits

variable {G : IdxGraph} {W : List (OrdSet Idx)}

/-- The copies of all nodes have numbers of their own. -/
def Fits (G : IdxGraph) (W : List (OrdSet Idx)) : Prop := G.length * W.length < UInt32.size

instance (G : IdxGraph) (W : List (OrdSet Idx)) : Decidable (Fits G W) :=
  inferInstanceAs (Decidable (_ < _))

theorem Fits.wrap_length (h : Fits G W) (hk : 2 ≤ W.length) : wrap G.length = G.length :=
  wrap_of_lt ((Nat.le_mul_of_pos_right _ (by omega)).trans_lt h)

theorem Fits.wrap_level (h : Fits G W) (hG : 0 < G.length) {i : Nat} (hi : i < W.length) :
    wrap i = i :=
  wrap_of_lt (hi.trans_le (Nat.le_mul_of_pos_left _ hG) |>.trans h)

/-- The number of a copy does not wrap around. -/
theorem Fits.getNodeForLevel_eq (h : Fits G W) (hk : 2 ≤ W.length) {v i : Nat} (hv : v < G.length)
    (hi : i < W.length) : (dupGraph G W).getNodeForLevel v i =
      (Clou.dupGraph G W).getNodeForLevel v i := by
  have hlt : v + G.length * i < UInt32.size :=
    (Clou.DupGraph.getNodeForLevel_lt (g := Clou.dupGraph G W) hv hi).trans h
  change wrap (v + wrap G.length * i) = v + G.length * i
  rw [h.wrap_length hk, wrap_of_lt hlt]

theorem Fits.getBase_eq (h : Fits G W) (hk : 2 ≤ W.length) (v : Idx) :
    (dupGraph G W).getBase v = (Clou.dupGraph G W).getBase v := by
  change v % wrap G.length = v % G.length
  rw [h.wrap_length hk]

theorem Fits.getLevel_eq (h : Fits G W) (hk : 2 ≤ W.length) (v : Idx) :
    (dupGraph G W).getLevel v = (Clou.dupGraph G W).getLevel v := by
  change v / wrap G.length = v / G.length
  rw [h.wrap_length hk]

theorem Fits.nodes_eq (h : Fits G W) : wrap (G.length * W.length) = nodes (Clou.dupGraph G W) :=
  wrap_of_lt h

/-- The level copies agree with those on natural numbers. -/
theorem Fits.alike_dupGraph (h : Fits G W) (hG : G.Closed) (hk : 2 ≤ W.length) :
    Alike (dupGraph G W) (Clou.dupGraph G W) where
  nodes_eq := (Nat.mul_mod _ _ _).symm.trans h.nodes_eq
  row_eq := by
    intro u hu
    have hbase := Clou.DupGraph.getBase_lt hu
    have hkeys : ∀ e ∈ (G.row ((Clou.dupGraph G W).getBase u)).entries,
        DupGraph.shift (wrap ((Clou.dupGraph G W).getLevel u * G.length)) e =
          (e.1 + (Clou.dupGraph G W).getLevel u * G.length, e.2) := by
      intro e he
      have hdst : e.1 < G.length := hG.dst_lt (OrdMap.mem_keys.mpr ⟨e.2, he⟩)
      have hlt := Clou.DupGraph.getNodeForLevel_lt (g := Clou.dupGraph G W) hdst
        (Clou.DupGraph.getLevel_lt hu)
      have hsum : e.1 + (Clou.dupGraph G W).getLevel u * G.length < UInt32.size := by
        rw [Nat.mul_comm]
        exact hlt.trans h
      rw [DupGraph.shift, wrap_of_lt ((Nat.le_add_left _ _).trans_lt hsum), wrap_of_lt hsum]
    change OrdMap.ofList ((G.row ((dupGraph G W).getBase u)).entries.map
      (DupGraph.shift (wrap ((dupGraph G W).getLevel u * wrap G.length)))) = _
    rw [h.getBase_eq hk, h.getLevel_eq hk, h.wrap_length hk, List.map_congr_left hkeys]
    exact OrdMap.ofList_entries (row (Clou.dupGraph G W) u)
  weight_eq := by
    intro u _ v
    change (if (dupGraph G W).getLevel u = (dupGraph G W).getLevel v then
      G.weight ((dupGraph G W).getBase u) ((dupGraph G W).getBase v) else 0) = _
    rw [h.getLevel_eq hk, h.getLevel_eq hk, h.getBase_eq hk, h.getBase_eq hk]
    rfl

theorem Fits.waypointsMod_eq (h : Fits G W) (hk : 2 ≤ W.length)
    (hW : ∀ S ∈ W, ∀ u ∈ S, u < G.length) : waypointsMod G W = Clou.waypointsMod G W := by
  refine List.mapIdx_eq_mapIdx_iff.mpr fun i hi => OrdSet.ext fun b => ?_
  have hnumber : ∀ u ∈ W[i], (dupGraph G W).getNodeForLevel u (wrap i) =
      (Clou.dupGraph G W).getNodeForLevel u i := by
    intro u hu
    have hlt := hW _ (List.getElem_mem hi) u hu
    rw [h.wrap_level (Nat.zero_lt_of_lt hlt) hi, h.getNodeForLevel_eq hk hlt hi]
  rw [OrdSet.mem_image, OrdSet.mem_image]
  exact exists_congr fun u => and_congr_right fun hu => by rw [hnumber u hu]

/-- The same edges are led up. -/
theorem Fits.overlay_levelUps (h : Fits G W) (hG : G.Closed) (hk : 2 ≤ W.length)
    {modG : ScopedGraph (DupGraph ImmutableVectorGraph)}
    {modG' : ScopedGraph (Clou.DupGraph Clou.ImmutableVectorGraph)} (hmod : Overlay modG modG')
    (hnodes : modG'.orig = Clou.dupGraph G W) (S : OrdSet Idx) {i : Nat} (hi : i < W.length) :
    Overlay (levelUps (dupGraph G W) modG S i) (Clou.levelUps (Clou.dupGraph G W) modG' S i) ∧
      (Clou.levelUps (Clou.dupGraph G W) modG' S i).orig = Clou.dupGraph G W := by
  unfold levelUps Clou.levelUps
  have hrange : nodes (dupGraph G W).G = nodes (Clou.dupGraph G W).G := h.wrap_length hk
  rw [hrange]
  refine List.foldl_rel (r := fun g g' => Overlay g g' ∧ g'.orig = Clou.dupGraph G W) ⟨hmod, hnodes⟩
    fun u hu g g' hg => List.foldl_rel (r := fun g g' => Overlay g g' ∧ g'.orig = Clou.dupGraph G W)
      hg fun e he g g' hg => ?_
  have hu : u < G.length := List.mem_range.mp hu
  have hdst : e.1 < G.length := hG.dst_lt (OrdMap.mem_keys.mpr ⟨e.2, he⟩)
  split_ifs
  · have hsrc : (Clou.dupGraph G W).getNodeForLevel u (i - 1) < nodes g' := by
      change _ < nodes g'.orig
      rw [hg.2]
      exact Clou.DupGraph.getNodeForLevel_lt hu (by change i - 1 < W.length; omega)
    refine ⟨?_, hg.2⟩
    simp only [levelUp, Clou.levelUp]
    rw [h.getNodeForLevel_eq hk hu (by omega), h.getNodeForLevel_eq hk hdst hi,
      h.getNodeForLevel_eq hk hdst (by omega)]
    exact (hg.1.putWeight hsrc).putWeight hsrc
  · exact hg

/-- The layered graphs agree. -/
theorem Fits.alike_modGraph (h : Fits G W) (hG : G.Closed) (hk : 2 ≤ W.length) :
    Alike (modGraph G W) (Clou.modGraph G W) := by
  have hnodes : nodes (modGraph G W) = nodes (Clou.modGraph G W) := by
    rw [nodes_modGraph, Clou.nodes_modGraph, h.nodes_eq]
  rcases Nat.eq_zero_or_pos G.length with hempty | hpos
  · -- without nodes there is nothing to agree on
    have hzero : nodes (Clou.modGraph G W) = 0 := by
      rw [← hnodes, nodes_modGraph, hempty, Nat.zero_mul]
      rfl
    exact ⟨hnodes, fun u hu => absurd hu (by omega), fun u hu => absurd hu (by omega)⟩
  · refine (List.foldl_rel (r := fun g g' => Overlay g g' ∧ g'.orig = Clou.dupGraph G W)
      ⟨(h.alike_dupGraph hG hk).new, rfl⟩ fun S hS g g' hg => ?_).1.alike
    have hi : S.2 < W.length := (List.mem_zipIdx' hS).1
    simp only [levelStep, h.wrap_level hpos hi]
    split_ifs
    · exact h.overlay_levelUps hG hk hg.1 hg.2 S.1 hi
    · exact hg

/-- The solver returns what it returns on natural numbers. -/
theorem Fits.fordFulkersonMulti_eq (h : Fits G W) (hG : G.WF) (hk : 2 ≤ W.length)
    (hW : ∀ S ∈ W, ∀ u ∈ S, u < G.length) (ndebug : Bool) (fuel : Nat) :
    fordFulkersonMulti ndebug fuel G W = Clou.fordFulkersonMulti ndebug fuel G W := by
  have himpl : fordFulkersonMultiImpl ndebug fuel (modGraph G W) (Clou.waypointsMod G W) =
      fordFulkersonMultiImpl ndebug fuel (Clou.modGraph G W) (Clou.waypointsMod G W) :=
    (h.alike_modGraph hG.closed hk).fordFulkersonMultiImpl_eq (lawful_modGraph hG)
      (Clou.length_waypointsMod.symm ▸ hk) (waypointsMod_lt hW) fuel
  have hbase (v : Idx) : (dupGraph G W).getFirstLevelNode v =
      (Clou.dupGraph G W).getFirstLevelNode v := h.getBase_eq hk v
  simp only [fordFulkersonMulti, Clou.fordFulkersonMulti, h.waypointsMod_eq hk hW, himpl, hbase]

end Fits

end Clou.Words
