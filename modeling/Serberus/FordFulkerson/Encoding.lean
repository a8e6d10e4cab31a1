-- SUMMARY: The layered graph as an encoding: its rows and weights edge by edge, and waypoint walks as paths from the lowest level to the highest.
import Serberus.FordFulkerson.Layered

/-!
# Waypoint Walks as Paths

Every edge of `G` has one copy on each level, which leads to a waypoint of the next
level where it can. So a path of the layered graph can climb only by passing the
waypoint sets in order, and it climbs as soon as it may: a walk through the waypoint
sets never gets ahead of it.
-/

open Relation

namespace Clou

open Clou.Graph

variable {G : IdxGraph} {W : List (OrdSet Idx)} {a b : Idx} {w : Weight}

/-- From `a` to `b` leads a copy of an edge of weight `w`, one level up if that enters the next
waypoint set, and on the level of `a` otherwise. -/
def Encodes (G : IdxGraph) (W : List (OrdSet Idx)) (a b : Idx) (w : Weight) : Prop :=
  ∃ u v i, i < W.length ∧ (v, w) ∈ (G.row u).entries ∧ a = (dupGraph G W).getNodeForLevel u i ∧
    b = (dupGraph G W).getNodeForLevel v
      (if i + 1 < W.length ∧ v ∈ W.getD (i + 1) ∅ then i + 1 else i)

/-- A path from a waypoint of the first set to one of the last, each on its own level. -/
def HasLayeredPath (G : IdxGraph) (W : List (OrdSet Idx)) : Prop :=
  ∃ s ∈ W.getD 0 ∅, ∃ t ∈ W.getD (W.length - 1) ∅, ReflTransGen (Edge (modGraph G W))
    ((dupGraph G W).getNodeForLevel s 0) ((dupGraph G W).getNodeForLevel t (W.length - 1))

/-! ## Edges -/

/-- Behind the last level there is no waypoint set. -/
theorem targetLevel_eq (l : Nat) (v : Idx) : targetLevel W l v =
    if l + 1 < W.length ∧ v ∈ W.getD (l + 1) ∅ then l + 1 else l := by
  unfold targetLevel
  by_cases hl : l + 1 < W.length
  · simp only [hl, true_and]
  · have hnone : W.getD (l + 1) ∅ = ∅ := by
      rw [List.getD_eq_getElem?_getD, List.getElem?_eq_none (by omega), Option.getD_none]
    rw [hnone, if_neg (OrdSet.not_mem_empty v), if_neg fun h => hl h.1]

theorem getWeight_iff_encodes (hG : G.WF) (ha : a < nodes (modGraph G W)) :
    getWeight (modGraph G W) a b = w ∧ 0 < w ↔ Encodes G W a b w := by
  rw [getWeight_modGraph hG, layeredWeight]
  constructor
  · rintro ⟨hw, hpos⟩
    split_ifs at hw with hlevel
    · have hrow := hG.lawful.mem_row.mpr ⟨hw, hpos⟩
      refine ⟨_, _, (dupGraph G W).getLevel a, ?_, hrow, (DupGraph.node_eta a).symm, ?_⟩
      · exact DupGraph.getLevel_lt (nodes_modGraph (G := G) (W := W) ▸ ha)
      · rw [← targetLevel_eq, ← hlevel, DupGraph.node_eta]
    · exact absurd hw.symm (Weight.pos_iff.mp hpos)
  · rintro ⟨u, v, i, -, hrow, rfl, rfl⟩
    have hu : u < nodes (dupGraph G W).G :=
      IdxGraph.Edge.src_lt (OrdMap.mem_keys.mpr ⟨w, hrow⟩)
    have hv : v < nodes (dupGraph G W).G := hG.lt hrow
    rw [DupGraph.getLevel_node hv, DupGraph.getLevel_node hu, DupGraph.getBase_node hv,
      DupGraph.getBase_node hu, targetLevel_eq, if_pos rfl]
    exact hG.lawful.mem_row.mp hrow

/-! ## Paths -/

theorem getD_eq {i : Nat} {S : OrdSet Idx} (h : W[i]? = some S) : W.getD i ∅ = S := by
  rw [List.getD_eq_getElem?_getD, h, Option.getD_some]

/-- The waypoints of a level are the copies of the waypoints of its set. -/
theorem mem_waypointsMod_iff (hW : ∀ S ∈ W, ∀ u ∈ S, u < G.length) {i : Nat} (hi : i < W.length) :
    (∃ S', (waypointsMod G W)[i]? = some S' ∧ b ∈ S') ↔
      ∃ u ∈ W.getD i ∅, b = (dupGraph G W).getNodeForLevel u i := by
  have hget := List.getElem?_eq_getElem hi
  rw [mem_waypointsMod hW, getD_eq hget]
  constructor
  · rintro ⟨rfl, S, hS, hb⟩
    obtain rfl := Option.some.inj (hget.symm.trans hS)
    exact ⟨_, hb, (DupGraph.node_eta b).symm⟩
  · rintro ⟨u, hu, rfl⟩
    have hlt : u < nodes (dupGraph G W).G := hW _ (List.getElem_mem hi) u hu
    exact ⟨DupGraph.getLevel_node hlt, _, hget, by rwa [DupGraph.getBase_node hlt]⟩

/-- A path to the last level passes the waypoint sets in order. -/
theorem hasWalk_of_path (hG : G.WF) (hk : 2 ≤ W.length) (hW : ∀ S ∈ W, ∀ u ∈ S, u < G.length)
    (h : HasLayeredPath G W) : Walk.HasWalk G.Edge W := by
  obtain ⟨s, hs, t, ht, hpath⟩ := h
  obtain ⟨S', hS', hsS'⟩ := (mem_waypointsMod_iff hW (by omega)).mpr ⟨s, hs, rfl⟩
  obtain ⟨hlevels, -⟩ := (mem_waypointsMod hW).mp ⟨S', hS', hsS'⟩
  have hlevelt := ((mem_waypointsMod hW).mp ((mem_waypointsMod_iff (G := G) hW
    (show W.length - 1 < W.length by omega)).mpr ⟨t, ht, rfl⟩)).1
  have hvisits := (climbs_modGraph hG hW).visits hpath (by rw [hlevelt, length_waypointsMod]; omega)
  rw [hlevels] at hvisits
  exact hasWalk_of_modGraph hG hW ((Walk.hasWalk_iff_first hS').mpr ⟨_, hsS', hvisits⟩)

/-- A walk through the waypoint sets lifts to a path that has climbed at every waypoint of the
walk at the latest, so it gets to the last level, and first at a waypoint. -/
theorem path_of_hasWalk (hG : G.WF) (hk : 2 ≤ W.length) (hW : ∀ S ∈ W, ∀ u ∈ S, u < G.length)
    (h : Walk.HasWalk G.Edge W) : HasLayeredPath G W := by
  have hpos : 0 < W.length := by omega
  obtain ⟨s, hs, hrest⟩ := (Walk.hasWalk_iff_first (List.getElem?_eq_getElem hpos)).mp h
  let a := (dupGraph G W).getNodeForLevel s 0
  have hs' : s ∈ W.getD 0 ∅ := getD_eq (List.getElem?_eq_getElem hpos) ▸ hs
  have hlt : s < nodes (dupGraph G W).G := hW _ (List.getElem_mem hpos) s hs
  have hlevel : (dupGraph G W).getLevel a = 0 := DupGraph.getLevel_node hlt
  have hbase : (dupGraph G W).getBase a = s := DupGraph.getBase_node hlt
  have hlifts := lifts_modGraph (W := W) (C := ∅) (R := ReflTransGen (Edge (modGraph G W)) a) hG
    fun b c hb hedge _ => hb.tail hedge
  have hwithout : Walk.without G.Edge ∅ = G.Edge := by
    funext u v
    simp [Walk.without]
  rw [hwithout] at hlifts
  obtain ⟨b, hb, htop⟩ := hlifts.top (.refl (a := a)) (Nat.zero_le _) (hbase ▸ hrest)
  obtain ⟨c, T, hT, hc, -, hac, -⟩ := (climbs_modGraph hG hW).exists_step hb
    (i := W.length - 2) (by omega) (by omega)
  obtain ⟨t, ht, rfl⟩ := (mem_waypointsMod_iff hW (by omega)).mp ⟨T, hT, hc⟩
  have hi : W.length - 2 + 1 = W.length - 1 := by omega
  rw [hi] at ht hac
  exact ⟨s, hs', t, ht, hac.to_reflTransGen⟩

end Clou
