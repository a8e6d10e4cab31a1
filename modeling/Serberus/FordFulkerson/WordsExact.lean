-- SUMMARY: On machine words the solver is correct and the layered graph exact when the copies of the nodes can be numbered; what happens when they cannot.
import Mathlib.Data.Nat.ModEq
import Serberus.FordFulkerson.Cut
import Serberus.FordFulkerson.Words

/-!
# What the Numbers Allow

The layered graph encodes waypoint walks exactly when there is a number for each copy of
each node. Then the solver returns valid cuts. When the count of the copies wraps around
to zero, it returns no edges, whatever there was to cut.
-/

open Relation

namespace Clou.Words

open Clou.Graph

variable {G : IdxGraph} {W : List (OrdSet Idx)}

/-! ## Cuts -/

/-- The solver is correct below the bound; where the count of the copies wraps around to zero, it
is correct if there is nothing to cut. -/
theorem fordFulkersonMulti_valid (hG : G.WF) (hk : 2 ≤ W.length)
    (hW : ∀ S ∈ W, ∀ u ∈ S, u < G.length) (ndebug : Bool) (fuel : Nat) :
    (G.length * W.length < UInt32.size →
      ∀ cut, fordFulkersonMulti ndebug fuel G W = .ok cut → IsCut G W cut ∧ cut.Nodup) ∧
    (G.length * W.length % UInt32.size = 0 →
      ((∀ cut, fordFulkersonMulti ndebug fuel G W = .ok cut → IsCut G W cut ∧ cut.Nodup) ↔
        ¬ Walk.HasWalk G.Edge W)) := by
  refine ⟨fun hfits cut hret => ?_, fun hzero => ?_⟩
  · rw [Fits.fordFulkersonMulti_eq hfits hG hk hW] at hret
    have hcut := fordFulkersonMulti_isCut hG hk hW hret
    exact ⟨hcut, hcut.nodup⟩
  · have hret := fordFulkersonMulti_of_nodes_eq_zero hzero hk ndebug fuel
    have hwithout : Walk.without G.Edge (edgeSet []) = G.Edge := by
      funext u v
      simp [Walk.without]
    constructor
    · intro hvalid hwalk
      have hseparates := (hvalid [] hret).1.separates
      rw [hwithout] at hseparates
      exact hseparates hwalk
    · intro hno cut hcut
      obtain rfl := Except.ok.inj (hret.symm.trans hcut)
      exact ⟨⟨.nil, by simp, by rwa [hwithout], fun _ => rfl⟩, .nil⟩

/-- Three waypoint sets, two of which overlap on a cycle. -/
theorem fordFulkersonMulti_valid_cycle :
    let G : IdxGraph := [⟨[(1, 1)], by decide⟩, ⟨[(2, 2)], by decide⟩, ⟨[(1, 1)], by decide⟩]
    let W : List (OrdSet Idx) := [.ofList [0], .ofList [1], .ofList [1, 2]]
    IsCut G W [⟨0, 1⟩] ∧ [(⟨0, 1⟩ : IdxEdge)].Nodup :=
  (fordFulkersonMulti_valid (by decide) (by decide) (by decide) false 10).1 (by decide) _
    (by decide +kernel)

/-- A loop at node `0`, and `n` nodes without edges. -/
def loopGraph (n : Nat) : IdxGraph := ⟨[(0, 1)], by decide⟩ :: List.replicate n ∅

theorem length_loopGraph (n : Nat) : (loopGraph n).length = n + 1 := by simp [loopGraph]

theorem wf_loopGraph (n : Nat) : (loopGraph n).WF := by
  refine IdxGraph.wf_iff.mpr fun d hd e he => ?_
  rcases List.mem_cons.mp hd with rfl | hd
  · obtain rfl := List.mem_singleton.mp he
    exact ⟨by decide, by rw [length_loopGraph]; exact Nat.succ_pos n⟩
  · obtain rfl := List.eq_of_mem_replicate hd
    exact absurd he List.not_mem_nil

/-- The loop can be walked any number of times. -/
theorem hasWalk_loopGraph (n k : Nat) :
    Walk.HasWalk (loopGraph n).Edge (List.replicate k (OrdSet.ofList [0])) := by
  have hloop : TransGen (loopGraph n).Edge 0 0 := .single (by simp [IdxGraph.Edge, loopGraph,
    IdxGraph.row, OrdMap.keys])
  refine ⟨List.replicate k 0, ?_, ?_⟩
  · exact List.forall₂_iff_get.mpr ⟨by simp, fun i _ _ => by simp⟩
  · exact List.isChain_replicate_of_rel k hloop

/-- The loop is not cut when there are 65536 nodes and as many waypoint sets. -/
theorem fordFulkersonMulti_misses_loop :
    let G := loopGraph 65535
    let W : List (OrdSet Idx) := List.replicate 65536 (.ofList [0])
    G.WF ∧ 2 ≤ W.length ∧ (∀ S ∈ W, ∀ u ∈ S, u < G.length) ∧
      ∃ cut, fordFulkersonMulti false 1 G W = .ok cut ∧
        Walk.HasWalk (Walk.without G.Edge (edgeSet cut)) W := by
  intro G W
  have hlen : W.length = 65536 := List.length_replicate
  have hzero : wrap (G.length * W.length) = 0 := by
    rw [length_loopGraph, hlen]
    decide
  refine ⟨wf_loopGraph _, by omega, fun S hS u hu => ?_, [],
    fordFulkersonMulti_of_nodes_eq_zero hzero (by omega) false 1, ?_⟩
  · obtain rfl := List.eq_of_mem_replicate hS
    obtain rfl : u = 0 := by simpa using hu
    rw [length_loopGraph]
    exact Nat.succ_pos _
  · exact (hasWalk_loopGraph _ _).mono fun u v huv => ⟨huv, by simp⟩

/-! ## The Layered Graph -/

/-- From `a` to `b` leads a copy of an edge of weight `w`, one level up if that enters the next
waypoint set, and on the level of `a` otherwise. -/
def Encodes (G : IdxGraph) (W : List (OrdSet Idx)) (a b : Idx) (w : Weight) : Prop :=
  ∃ u v i, i < W.length ∧ (v, w) ∈ (G.row u).entries ∧ a = (dupGraph G W).getNodeForLevel u i ∧
    b = (dupGraph G W).getNodeForLevel v
      (if i + 1 < W.length ∧ v ∈ W.getD (i + 1) ∅ then i + 1 else i)

/-- A path from a waypoint of the first set to one of the last, each on its own level. -/
def HasLayeredPath (G : IdxGraph) (W : List (OrdSet Idx)) : Prop :=
  ∃ s ∈ W.getD 0 ∅, ∃ t ∈ W.getD (W.length - 1) ∅, ReflTransGen (Edge (modGraph G W))
    ((dupGraph G W).getNodeForLevel s 0) ((dupGraph G W).getNodeForLevel t (W.length - 1))

/-- The layered graph has the copies of the nodes of `G` as its nodes, and exactly the copies of
the edges of `G` that the levels call for, whichever way it is read, and its paths from the first
waypoint set to the last are the walks of `G` through all of them. -/
structure Exact (G : IdxGraph) (W : List (OrdSet Idx)) : Prop where
  nodes_iff : ∀ a, a < nodes (modGraph G W) ↔
    ∃ u < G.length, ∃ i < W.length, a = (dupGraph G W).getNodeForLevel u i
  row_iff : ∀ a < nodes (modGraph G W), ∀ b w,
    (b, w) ∈ (row (modGraph G W) a).entries ↔ Encodes G W a b w
  weight_iff : ∀ a < nodes (modGraph G W), ∀ b w,
    getWeight (modGraph G W) a b = w ∧ 0 < w ↔ Encodes G W a b w
  path_iff : HasLayeredPath G W ↔ Walk.HasWalk G.Edge W

theorem Fits.encodes_iff (h : Fits G W) (hG : G.WF) (hk : 2 ≤ W.length) {a b : Idx} {w : Weight} :
    Encodes G W a b w ↔ Clou.Encodes G W a b w := by
  refine exists_congr fun u => exists_congr fun v => exists_congr fun i =>
    and_congr_right fun hi => and_congr_right fun hrow => ?_
  have hu : u < G.length := IdxGraph.Edge.src_lt (OrdMap.mem_keys.mpr ⟨w, hrow⟩)
  rw [h.getNodeForLevel_eq hk hu hi, h.getNodeForLevel_eq hk (hG.lt hrow)]
  split_ifs with hup
  · exact hup.1
  · exact hi

theorem Fits.hasLayeredPath_iff (h : Fits G W) (hG : G.WF) (hk : 2 ≤ W.length)
    (hW : ∀ S ∈ W, ∀ u ∈ S, u < G.length) : HasLayeredPath G W ↔ Clou.HasLayeredPath G W := by
  have hlt {i : Nat} (hi : i < W.length) {u : Idx} (hu : u ∈ W.getD i ∅) : u < G.length := by
    rw [getD_eq (List.getElem?_eq_getElem hi)] at hu
    exact hW _ (List.getElem_mem hi) u hu
  refine exists_congr fun s => and_congr_right fun hs => exists_congr fun t =>
    and_congr_right fun ht => ?_
  have hs' := hlt (by omega) hs
  rw [h.getNodeForLevel_eq hk hs' (by omega),
    h.getNodeForLevel_eq hk (hlt (by omega) ht) (by omega)]
  refine (h.alike_modGraph hG.closed hk).path_iff (lawful_modGraph hG) ?_
  rw [Clou.nodes_modGraph]
  exact Clou.DupGraph.getNodeForLevel_lt hs' (show 0 < W.length by omega)

theorem Fits.nodes_iff (h : Fits G W) (hk : 2 ≤ W.length) (a : Idx) :
    a < nodes (modGraph G W) ↔
      ∃ u < G.length, ∃ i < W.length, a = (dupGraph G W).getNodeForLevel u i := by
  rw [nodes_modGraph, h.nodes_eq]
  constructor
  · intro ha
    refine ⟨_, Clou.DupGraph.getBase_lt ha, _, Clou.DupGraph.getLevel_lt ha, ?_⟩
    rw [h.getNodeForLevel_eq hk (Clou.DupGraph.getBase_lt ha) (Clou.DupGraph.getLevel_lt ha),
      Clou.DupGraph.node_eta]
  · rintro ⟨u, hu, i, hi, rfl⟩
    rw [h.getNodeForLevel_eq hk hu hi]
    exact Clou.DupGraph.getNodeForLevel_lt hu hi

theorem Fits.exact (h : Fits G W) (hG : G.WF) (hk : 2 ≤ W.length)
    (hW : ∀ S ∈ W, ∀ u ∈ S, u < G.length) : Exact G W := by
  have halike := h.alike_modGraph hG.closed hk
  have hweight {a b : Idx} {w : Weight} (ha : a < nodes (modGraph G W)) :
      getWeight (modGraph G W) a b = w ∧ 0 < w ↔ Encodes G W a b w := by
    rw [halike.nodes_eq] at ha
    rw [halike.weight_eq a ha, h.encodes_iff hG hk]
    exact getWeight_iff_encodes hG ha
  refine ⟨h.nodes_iff hk, fun a ha b w => ?_, fun a ha b w => hweight ha, ?_⟩
  · rw [← hweight ha]
    rw [halike.nodes_eq] at ha
    rw [halike.row_eq a ha, halike.weight_eq a ha]
    exact (lawful_modGraph hG).mem_row
  · rw [h.hasLayeredPath_iff hG hk hW]
    exact ⟨hasWalk_of_path hG hk hW, path_of_hasWalk hG hk hW⟩

end Clou.Words
