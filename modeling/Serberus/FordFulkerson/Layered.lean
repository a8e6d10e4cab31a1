-- SUMMARY: The layered graph in closed form: its weights by level and base, its waypoints, and its two walks properties.
import Serberus.FordFulkerson.Multi
import Serberus.Lib.Layered

/-!
# The Layered Graph

`layeredWeight` is what the writes of `modGraph` amount to: on each level the
edges of `G`, except that an edge into a waypoint of the next level leads there
instead. From it follow the two properties that connect waypoint walks of `G`
with the layered graph: it climbs only onto waypoints, and every step of `G` can
be taken from every copy of its source.
-/

namespace Clou

open Clou.Graph

variable {G : IdxGraph} {W : List (OrdSet Idx)}

/-- The level that an edge of level `l` into `v` leads to. -/
def targetLevel (W : List (OrdSet Idx)) (l : Nat) (v : Idx) : Nat :=
  if v ∈ W.getD (l + 1) ∅ then l + 1 else l

/-- The weight of the edge from `a` to `b` of the layered graph. -/
def layeredWeight (G : IdxGraph) (W : List (OrdSet Idx)) (a b : Idx) : Weight :=
  let dupG := dupGraph G W
  if dupG.getLevel b = targetLevel W (dupG.getLevel a) (dupG.getBase b) then
    G.weight (dupG.getBase a) (dupG.getBase b)
  else 0

/-! ## The Writes of One Level -/

section LevelUps

variable {dupG : DupGraph ImmutableVectorGraph} {S : OrdSet Idx} {i : Nat}

/-- The writes of `levelUps`, in order. -/
def levelPuts (dupG : DupGraph ImmutableVectorGraph) (S : OrdSet Idx) (i : Nat) :
    List (Idx × Idx × Weight) :=
  (List.range (nodes dupG.G)).flatMap fun u =>
    ((row dupG.G u).entries.filter (·.1 ∈ S)).flatMap fun e =>
      [(dupG.getNodeForLevel u (i - 1), dupG.getNodeForLevel e.1 i, e.2),
        (dupG.getNodeForLevel u (i - 1), dupG.getNodeForLevel e.1 (i - 1), 0)]

theorem levelUps_eq (modG : ScopedGraph (DupGraph ImmutableVectorGraph)) :
    levelUps dupG modG S i = modG.putWeights (levelPuts dupG S i) := by
  simp only [levelUps, levelPuts, ScopedGraph.putWeights, List.foldl_flatMap, List.foldl_filter,
    decide_eq_true_eq, List.foldl_cons, List.foldl_nil]
  rfl

theorem mem_levelPuts (hG : dupG.G.G.WF) {a b : Idx} {w : Weight} :
    (a, b, w) ∈ levelPuts dupG S i ↔ dupG.getLevel a = i - 1 ∧ dupG.getBase b ∈ S ∧
      dupG.G.G.Edge (dupG.getBase a) (dupG.getBase b) ∧
      (dupG.getLevel b = i ∧ w = dupG.G.G.weight (dupG.getBase a) (dupG.getBase b) ∨
        dupG.getLevel b = i - 1 ∧ w = 0) := by
  simp only [levelPuts, List.mem_flatMap, List.mem_range, List.mem_filter, List.mem_cons,
    List.not_mem_nil, or_false, Prod.mk.injEq, decide_eq_true_eq]
  constructor
  · rintro ⟨u, hu, ⟨v, w₀⟩, ⟨hrow, hv⟩, h⟩
    have hv' : v < nodes dupG.G := hG.lt hrow
    have hedge : dupG.G.G.Edge u v := OrdMap.mem_keys.mpr ⟨w₀, hrow⟩
    rcases h with ⟨rfl, rfl, rfl⟩ | ⟨rfl, rfl, rfl⟩
    · simp [hu, hv', hv, hedge, IdxGraph.weight_of_mem hrow]
    · simp [hu, hv', hv, hedge]
  · rintro ⟨hlevel, hS, hedge, h⟩
    obtain ⟨w₀, hrow⟩ := OrdMap.mem_keys.mp hedge
    have ha : dupG.getNodeForLevel (dupG.getBase a) (i - 1) = a := hlevel ▸ DupGraph.node_eta a
    refine ⟨dupG.getBase a, hedge.src_lt, (dupG.getBase b, w₀), ⟨hrow, hS⟩, ?_⟩
    rcases h with ⟨rfl, rfl⟩ | ⟨hb, rfl⟩
    · exact .inl ⟨ha.symm, (DupGraph.node_eta b).symm, IdxGraph.weight_of_mem hrow⟩
    · exact .inr ⟨ha.symm, by rw [← hb, DupGraph.node_eta], rfl⟩

theorem levelPuts_lt (hG : dupG.G.G.WF) (hi : i < dupG.levels) :
    ∀ p ∈ levelPuts dupG S i, p.2.1 < nodes dupG := by
  rintro ⟨a, b, w⟩ hp
  obtain ⟨-, -, hedge, h⟩ := (mem_levelPuts hG).mp hp
  have hlt : dupG.getLevel b < dupG.levels := by
    rcases h with ⟨h, -⟩ | ⟨h, -⟩ <;> omega
  have hbase : dupG.getBase b < nodes dupG.G := hG.dst_lt hedge
  simpa only [DupGraph.node_eta] using DupGraph.getNodeForLevel_lt hbase hlt

/-- One level of writes leads the edges into `S` up. -/
theorem getWeight_levelUps (hG : dupG.G.G.WF) (hi : 0 < i) (hlt : i < dupG.levels)
    {modG : ScopedGraph (DupGraph ImmutableVectorGraph)} (h : Lawful modG)
    (hnodes : nodes modG = nodes dupG) (a b : Idx) :
    getWeight (levelUps dupG modG S i) a b =
      if dupG.getLevel a = i - 1 ∧ dupG.getBase b ∈ S ∧
          dupG.G.G.Edge (dupG.getBase a) (dupG.getBase b) ∧
          (dupG.getLevel b = i ∨ dupG.getLevel b = i - 1) then
        if dupG.getLevel b = i then dupG.G.G.weight (dupG.getBase a) (dupG.getBase b) else 0
      else getWeight modG a b := by
  have hlt' : ∀ p ∈ levelPuts dupG S i, p.2.1 < nodes modG := hnodes ▸ levelPuts_lt hG hlt
  rw [levelUps_eq]
  split_ifs with hput hup
  · obtain ⟨hlevel, hS, hedge, -⟩ := hput
    refine ScopedGraph.getWeight_putWeights_of_mem h hlt' (fun w' hw' => ?_)
      ((mem_levelPuts hG).mpr ⟨hlevel, hS, hedge, .inl ⟨hup, rfl⟩⟩)
    rcases ((mem_levelPuts hG).mp hw').2.2.2 with ⟨-, hw'⟩ | ⟨hdown, -⟩
    · exact hw'
    · omega
  · obtain ⟨hlevel, hS, hedge, hb⟩ := hput
    refine ScopedGraph.getWeight_putWeights_of_mem h hlt' (fun w' hw' => ?_)
      ((mem_levelPuts hG).mpr ⟨hlevel, hS, hedge, .inr ⟨hb.resolve_left hup, rfl⟩⟩)
    rcases ((mem_levelPuts hG).mp hw').2.2.2 with ⟨hup', -⟩ | ⟨-, hw'⟩
    · exact absurd hup' hup
    · exact hw'
  · refine ScopedGraph.getWeight_putWeights_of_not_mem h hlt' fun w hw => hput ?_
    obtain ⟨hlevel, hS, hedge, hb⟩ := (mem_levelPuts hG).mp hw
    exact ⟨hlevel, hS, hedge, hb.imp And.left And.left⟩

end LevelUps

/-! ## All Levels -/

/-- `modGraph` over any number of level copies. -/
def modGraphOn (dupG : DupGraph ImmutableVectorGraph) (W : List (OrdSet Idx)) :
    ScopedGraph (DupGraph ImmutableVectorGraph) :=
  W.zipIdx.foldl (fun modG (S, i) => if 0 < i then levelUps dupG modG S i else modG) (.new dupG)

theorem modGraphOn_concat (dupG : DupGraph ImmutableVectorGraph) (W : List (OrdSet Idx))
    (S : OrdSet Idx) : modGraphOn dupG (W ++ [S]) =
      if 0 < W.length then levelUps dupG (modGraphOn dupG W) S W.length
      else modGraphOn dupG W := by
  simp [modGraphOn, List.zipIdx_append]

@[simp] theorem nodes_modGraphOn (dupG : DupGraph ImmutableVectorGraph) (W : List (OrdSet Idx)) :
    nodes (modGraphOn dupG W) = nodes dupG := by
  induction W using List.reverseRecOn with
  | nil => rfl
  | append_singleton W S ih =>
    rw [modGraphOn_concat]
    split_ifs
    · rw [levelUps_eq, ScopedGraph.nodes_putWeights, ih]
    · exact ih

theorem lawful_modGraphOn (hG : G.WF) {k : Nat} (hk : W.length ≤ k) :
    Lawful (modGraphOn ⟨⟨G⟩, k⟩ W) := by
  induction W using List.reverseRecOn with
  | nil => exact ScopedGraph.lawful_new (DupGraph.lawful hG.lawful)
  | append_singleton W S ih =>
    simp only [List.length_append, List.length_singleton] at hk
    rw [modGraphOn_concat]
    split_ifs
    · rw [levelUps_eq]
      refine ScopedGraph.lawful_putWeights (ih (by omega)) ?_
      rw [nodes_modGraphOn]
      exact levelPuts_lt hG (by simp only; omega)
    · exact ih (by omega)

theorem getD_concat (W : List (OrdSet Idx)) (S : OrdSet Idx) (l : Nat) :
    (W ++ [S]).getD l ∅ = if l = W.length then S else W.getD l ∅ := by
  simp only [List.getD_eq_getElem?_getD, List.getElem?_append]
  split_ifs with hlt heq heq
  · omega
  · rfl
  · simp [heq]
  · have h₁ : [S][l - W.length]? = none := List.getElem?_eq_none (by simp; omega)
    have h₂ : W[l]? = none := List.getElem?_eq_none (by omega)
    rw [h₁, h₂]

theorem targetLevel_concat (W : List (OrdSet Idx)) (S : OrdSet Idx) (l : Nat) (v : Idx) :
    targetLevel (W ++ [S]) l v =
      if l + 1 = W.length ∧ v ∈ S then l + 1 else targetLevel W l v := by
  rw [targetLevel, getD_concat]
  by_cases hl : l + 1 = W.length
  · have hnone : W.getD (l + 1) ∅ = ∅ := by simp [hl]
    simp [targetLevel, hl]
  · simp [targetLevel, hl]

/-- The writes of level `W.length` turn the target levels of `W` into those of `W ++ [S]`. -/
theorem leads_concat {la lb : Nat} {u v : Idx} {S : OrdSet Idx} (hW : 0 < W.length) :
    (if la = W.length - 1 ∧ v ∈ S ∧ G.Edge u v ∧ (lb = W.length ∨ lb = W.length - 1) then
      if lb = W.length then G.weight u v else 0
    else if lb = targetLevel W la v then G.weight u v else 0) =
    if lb = targetLevel (W ++ [S]) la v then G.weight u v else 0 := by
  rw [targetLevel_concat]
  by_cases hedge : G.Edge u v
  · by_cases hup : la + 1 = W.length ∧ v ∈ S
    · obtain ⟨hla, hv⟩ := hup
      have hla' : la = W.length - 1 := by omega
      have hold : targetLevel W la v = la := by simp [targetLevel, hla]
      rw [if_pos (show la + 1 = W.length ∧ v ∈ S from ⟨hla, hv⟩), hold]
      by_cases h₁ : lb = la + 1
      · rw [if_pos ⟨hla', hv, hedge, .inl (by omega)⟩, if_pos (by omega), if_pos h₁]
      · rw [if_neg h₁]
        by_cases h₂ : lb = la
        · rw [if_pos ⟨hla', hv, hedge, .inr (by omega)⟩, if_neg (by omega)]
        · rw [if_neg h₂, if_neg]
          rintro ⟨-, -, -, h | h⟩ <;> omega
    · rw [if_neg hup, if_neg fun h => hup ⟨by omega, h.2.1⟩]
  · simp [IdxGraph.weight_of_not_edge hedge]

/-- The weights of the layered graph. -/
theorem getWeight_modGraphOn (hG : G.WF) {k : Nat} (hk : W.length ≤ k) (a b : Idx) :
    getWeight (modGraphOn ⟨⟨G⟩, k⟩ W) a b = layeredWeight G W a b := by
  induction W using List.reverseRecOn with
  | nil =>
    simp only [layeredWeight, targetLevel, List.getD_nil, OrdSet.not_mem_empty, if_false,
      eq_comm (b := (dupGraph G []).getLevel a)]
    rfl
  | append_singleton W S ih =>
    simp only [List.length_append, List.length_singleton] at hk
    specialize ih (by omega)
    by_cases hW : 0 < W.length
    · rw [modGraphOn_concat, if_pos hW, getWeight_levelUps hG hW (show W.length < k by omega)
        (lawful_modGraphOn hG (by omega)) (nodes_modGraphOn _ _), ih]
      exact leads_concat hW
    · rw [modGraphOn_concat, if_neg hW, ih]
      have hne (l : Nat) : ¬ l + 1 = W.length := by omega
      simp only [layeredWeight, dupGraph, targetLevel_concat, hne, false_and, if_false]
      rfl

/-! ## The Layered Graph of the Solver -/

@[simp] theorem nodes_modGraph : nodes (modGraph G W) = nodes (dupGraph G W) :=
  nodes_modGraphOn (dupGraph G W) W

theorem lawful_modGraph (hG : G.WF) : Lawful (modGraph G W) := lawful_modGraphOn hG le_rfl

theorem getWeight_modGraph (hG : G.WF) (a b : Idx) :
    getWeight (modGraph G W) a b = layeredWeight G W a b :=
  getWeight_modGraphOn hG le_rfl a b

/-- Edges of the layered graph are edges of `G` that lead to their target level. -/
theorem edge_modGraph (hG : G.WF) {a b : Idx} : Edge (modGraph G W) a b ↔
    G.Edge ((dupGraph G W).getBase a) ((dupGraph G W).getBase b) ∧
      (dupGraph G W).getLevel b =
        targetLevel W ((dupGraph G W).getLevel a) ((dupGraph G W).getBase b) := by
  rw [Edge, getWeight_modGraph hG, layeredWeight]
  split_ifs with hlevel
  · rw [hG.weight_pos]
    exact (and_iff_left hlevel).symm
  · simp [hlevel]

theorem targetLevel_le (W : List (OrdSet Idx)) (l : Nat) (v : Idx) : targetLevel W l v ≤ l + 1 := by
  rw [targetLevel]
  split_ifs <;> omega

theorem le_targetLevel (W : List (OrdSet Idx)) (l : Nat) (v : Idx) : l ≤ targetLevel W l v := by
  rw [targetLevel]
  split_ifs <;> omega

theorem targetLevel_eq_succ {l : Nat} {v : Idx} :
    targetLevel W l v = l + 1 ↔ ∃ S, W[l + 1]? = some S ∧ v ∈ S := by
  rw [targetLevel, List.getD_eq_getElem?_getD]
  cases W[l + 1]? <;> simp

/-! ## Waypoints -/

@[simp] theorem length_waypointsMod : (waypointsMod G W).length = W.length := by
  simp [waypointsMod]

theorem getElem?_waypointsMod (i : Nat) : (waypointsMod G W)[i]? =
    (W[i]?).map fun S => S.image fun u => (dupGraph G W).getNodeForLevel u i := by
  simp [waypointsMod]

theorem mem_waypointsMod (hW : ∀ S ∈ W, ∀ u ∈ S, u < G.length) {i : Nat} {b : Idx} :
    (∃ S', (waypointsMod G W)[i]? = some S' ∧ b ∈ S') ↔
      (dupGraph G W).getLevel b = i ∧ ∃ S, W[i]? = some S ∧ (dupGraph G W).getBase b ∈ S := by
  rw [getElem?_waypointsMod]
  constructor
  · rintro ⟨S', hS', hb⟩
    obtain ⟨S, hS, rfl⟩ := Option.map_eq_some_iff.mp hS'
    obtain ⟨u, hu, rfl⟩ := OrdSet.mem_image.mp hb
    have hlt : u < nodes (dupGraph G W).G := hW S (List.mem_of_getElem? hS) u hu
    exact ⟨DupGraph.getLevel_node hlt, S, hS, by rwa [DupGraph.getBase_node hlt]⟩
  · rintro ⟨rfl, S, hS, hb⟩
    exact ⟨_, by rw [hS]; rfl, OrdSet.mem_image.mpr ⟨_, hb, DupGraph.node_eta b⟩⟩

theorem waypointsMod_lt (hW : ∀ S ∈ W, ∀ u ∈ S, u < G.length) :
    ∀ S' ∈ waypointsMod G W, ∀ b ∈ S', b < nodes (modGraph G W) := by
  intro S' hS' b hb
  obtain ⟨i, hi⟩ := List.mem_iff_getElem?.mp hS'
  obtain ⟨rfl, S, hS, hbase⟩ := (mem_waypointsMod hW).mp ⟨S', hi, hb⟩
  obtain ⟨hlt, -⟩ := List.getElem?_eq_some_iff.mp hS
  have hnode := DupGraph.getNodeForLevel_lt (g := dupGraph G W)
    (hW S (List.mem_of_getElem? hS) _ hbase) hlt
  rw [DupGraph.node_eta] at hnode
  rwa [nodes_modGraph]

/-- Waypoints of level copies are copies of waypoints. -/
theorem waypointsMod_base (hW : ∀ S ∈ W, ∀ u ∈ S, u < G.length) :
    List.Forall₂ (fun S' S => ∀ b ∈ S', (dupGraph G W).getBase b ∈ S) (waypointsMod G W) W := by
  refine List.forall₂_iff_get.mpr ⟨length_waypointsMod, fun i hi hi' b hb => ?_⟩
  obtain ⟨-, S, hS, hbase⟩ := (mem_waypointsMod hW).mp ⟨_, List.getElem?_eq_getElem hi, hb⟩
  obtain ⟨_, rfl⟩ := List.getElem?_eq_some_iff.mp hS
  exact hbase

/-! ## Walks -/

/-- A waypoint walk of the layered graph is one of `G`. -/
theorem hasWalk_of_modGraph (hG : G.WF) (hW : ∀ S ∈ W, ∀ u ∈ S, u < G.length)
    (h : Walk.HasWalk (Edge (modGraph G W)) (waypointsMod G W)) : Walk.HasWalk G.Edge W := by
  have hedge (a b : Idx) (hab : Edge (modGraph G W) a b) :
      G.Edge ((dupGraph G W).getBase a) ((dupGraph G W).getBase b) := ((edge_modGraph hG).mp hab).1
  exact h.map hedge (waypointsMod_base hW)

/-- The layered graph climbs onto waypoints only, and by one level at a time. -/
theorem climbs_modGraph (hG : G.WF) (hW : ∀ S ∈ W, ∀ u ∈ S, u < G.length) :
    Walk.Climbs (Edge (modGraph G W)) (dupGraph G W).getLevel (waypointsMod G W) := by
  intro a b hab
  obtain ⟨-, hlevel⟩ := (edge_modGraph hG).mp hab
  rcases Nat.lt_or_ge ((dupGraph G W).getLevel a) ((dupGraph G W).getLevel b) with hlt | hge
  · have hup : (dupGraph G W).getLevel b = (dupGraph G W).getLevel a + 1 := by
      have := targetLevel_le W ((dupGraph G W).getLevel a) ((dupGraph G W).getBase b)
      omega
    refine .inr ⟨hup, (mem_waypointsMod hW).mpr ⟨rfl, ?_⟩⟩
    rw [hup]
    exact targetLevel_eq_succ.mp (hlevel ▸ hup)
  · exact .inl hge

/-- Residual graphs climb onto waypoints only. -/
theorem Residual.climbs (hG : G.WF) (hW : ∀ S ∈ W, ∀ u ∈ S, u < G.length)
    {resG : ScopedGraph (ScopedGraph (DupGraph ImmutableVectorGraph))}
    (h : Residual (modGraph G W) resG) :
    Walk.Climbs (Edge resG) (dupGraph G W).getLevel (waypointsMod G W) := by
  intro a b hab
  rcases h.edge a b hab with hab | hba
  · exact climbs_modGraph hG hW a b hab
  · obtain ⟨-, hlevel⟩ := (edge_modGraph hG).mp hba
    have := le_targetLevel W ((dupGraph G W).getLevel b) ((dupGraph G W).getBase a)
    exact .inl (by omega)

/-- In a set that is closed under the copies of the edges outside `C`, walks of
`G` without `C` lift. -/
theorem lifts_modGraph (hG : G.WF) {C : Set (Idx × Idx)} {R : Idx → Prop}
    (hR : ∀ a b, R a → Edge (modGraph G W) a b →
      ((dupGraph G W).getBase a, (dupGraph G W).getBase b) ∉ C → R b) :
    Walk.Lifts (Walk.without G.Edge C) (dupGraph G W).getBase (dupGraph G W).getLevel W R := by
  rintro a v ha ⟨hedge, hC⟩
  have hv : v < nodes (dupGraph G W).G := hG.dst_lt hedge
  let b := (dupGraph G W).getNodeForLevel v (targetLevel W ((dupGraph G W).getLevel a) v)
  have hbase : (dupGraph G W).getBase b = v := DupGraph.getBase_node hv
  have hlevel : (dupGraph G W).getLevel b = targetLevel W ((dupGraph G W).getLevel a) v :=
    DupGraph.getLevel_node hv
  refine ⟨b, hR a b ha ((edge_modGraph hG).mpr ?_) ?_, hbase, ?_, fun hup => ?_⟩
  · rw [hbase]
    exact ⟨hedge, hlevel⟩
  · rwa [hbase]
  · rw [hlevel]
    exact le_targetLevel _ _ _
  · rw [hlevel]
    exact targetLevel_eq_succ.mpr hup

end Clou
