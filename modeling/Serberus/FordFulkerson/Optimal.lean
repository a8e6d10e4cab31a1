-- SUMMARY: With two waypoint sets the solver terminates with a cut of least weight.
import Mathlib.Tactic.LinearCombination
import Serberus.FordFulkerson.Wrap
import Serberus.Lib.Flow

/-!
# Optimality for Two Waypoint Sets

With two waypoint sets a path leaves level zero once and passes no node twice, so
nothing wraps around and the residual graph describes a flow of the layered graph.
Each path lowers the residual weight between the levels, hence the loop ends. The
nodes reached then lie on level zero, the flow saturates the edges that leave them,
and on level zero an edge of the layered graph is determined by its copy in `G`:
the cut weighs as little as any.
-/

open Relation

namespace Clou

open Clou.Graph Flow

/-! ## Crossings of a Path -/

theorem map_src_pathEdges (path : List Idx) : (pathEdges path).map IdxEdge.src = path.dropLast := by
  induction path with
  | nil => rfl
  | cons u path ih =>
    cases path with
    | nil => rfl
    | cons v path => simpa using ih

theorem nodup_pathEdges {path : List Idx} (h : path.Nodup) : (pathEdges path).Nodup := by
  refine List.Nodup.of_map IdxEdge.src ?_
  rw [map_src_pathEdges]
  exact h.sublist (List.dropLast_sublist path)

/-- How often a list of edges leads from `a` to `b`. -/
def crossings (es : List IdxEdge) (a b : Idx) : ℤ := es.count ⟨a, b⟩

theorem crossings_cons (u v : Idx) (es : List IdxEdge) :
    crossings (⟨u, v⟩ :: es) = fun a b => crossings es a b + if u = a ∧ v = b then 1 else 0 := by
  funext a b
  rw [crossings, crossings, List.count_cons]
  by_cases h : u = a ∧ v = b
  · obtain ⟨rfl, rfl⟩ := h
    simp
  · rw [if_neg h, if_neg (by simpa using h)]
    simp

/-- A path leaves a set as often as it enters it, up to its ends. -/
theorem outSum_crossings {V X : Finset Idx} {u : Idx} {path : List Idx}
    (hV : ∀ v ∈ u :: path, v ∈ V) :
    outSum V X (crossings (pathEdges (u :: path))) + (if path.getLastD u ∈ X then 1 else 0) =
      outSum V X (fun a b => crossings (pathEdges (u :: path)) b a) + if u ∈ X then 1 else 0 := by
  induction path generalizing u with
  | nil => rfl
  | cons v path ih =>
    obtain ⟨hu, hV⟩ := List.forall_mem_cons.mp hV
    have hv : v ∈ V := hV v (.head _)
    have hswap : (fun a b : Idx => if u = b ∧ v = a then (1 : ℤ) else 0) =
        fun a b => if v = a ∧ u = b then 1 else 0 := by
      funext a b
      simp only [and_comm]
    have hrest := ih hV
    simp only [pathEdges_cons_cons, crossings_cons]
    rw [outSum_add, outSum_add, hswap, outSum_pair, outSum_pair]
    have hlast : (v :: path).getLastD u = path.getLastD v := by
      cases path <;> rfl
    rw [hlast]
    simp only [Finset.mem_sdiff, hu, hv, true_and]
    by_cases huX : u ∈ X <;> by_cases hvX : v ∈ X <;> simp [huX, hvX] at hrest ⊢ <;> linarith

/-! ## Residual Weights as a Flow -/

/-- The weights of a graph, as integers. -/
def weightOf {γ : Type} [Graph γ] (g : γ) (a b : Idx) : ℤ := (getWeight g a b).toNat

/-- The first waypoint set, on level zero. -/
def sources (G : IdxGraph) (S T : OrdSet Idx) : OrdSet Idx :=
  S.image fun u => (dupGraph G [S, T]).getNodeForLevel u 0

/-- The second waypoint set, on level one. -/
def sinks (G : IdxGraph) (S T : OrdSet Idx) : OrdSet Idx :=
  T.image fun u => (dupGraph G [S, T]).getNodeForLevel u 1

theorem waypointsMod_pair (G : IdxGraph) (S T : OrdSet Idx) :
    waypointsMod G [S, T] = [sources G S T, sinks G S T] := rfl

/-- All nodes of the two levels. -/
def levelNodes (G : IdxGraph) : Finset Idx := Finset.range (G.length * 2)

/-- The nodes of level zero. -/
def levelZero (G : IdxGraph) : Finset Idx := Finset.range G.length

/-- What the iterations keep: the differences between the weights and the residual
weights are a flow from the sources to the sinks. -/
structure Flowing (G : IdxGraph) (S T : OrdSet Idx)
    (resG : ScopedGraph (ScopedGraph (DupGraph ImmutableVectorGraph))) : Prop where
  residual : Residual (modGraph G [S, T]) resG
  sum : SumLaw (modGraph G [S, T]) resG
  diag : ∀ a, getWeight resG a a = getWeight (modGraph G [S, T]) a a
  conserved : ∀ x, x ∉ sources G S T → x ∉ sinks G S T →
    outSum (levelNodes G) {x} (weightOf resG) =
      outSum (levelNodes G) {x} (weightOf (modGraph G [S, T]))

section Pair

variable {G : IdxGraph} {S T : OrdSet Idx} {ndebug : Bool}
  {resG : ScopedGraph (ScopedGraph (DupGraph ImmutableVectorGraph))}

theorem mem_sources {a : Idx} : a ∈ sources G S T ↔ a ∈ S := by
  simp only [sources, OrdSet.mem_image, DupGraph.getNodeForLevel, Nat.mul_zero, Nat.add_zero,
    exists_eq_right]

theorem mem_sinks {a : Idx} : a ∈ sinks G S T ↔ ∃ u ∈ T, u + G.length = a := by
  simp only [sinks, OrdSet.mem_image, DupGraph.getNodeForLevel, Nat.mul_one]
  rfl

theorem sinks_not_sources (hS : ∀ u ∈ S, u < G.length) {a : Idx} (ha : a ∈ sinks G S T) :
    a ∉ sources G S T := by
  intro hsrc
  obtain ⟨u, -, rfl⟩ := mem_sinks.mp ha
  exact absurd (hS _ (mem_sources.mp hsrc)) (Nat.not_lt.mpr (Nat.le_add_left _ u))

theorem pair_lt (hS : ∀ u ∈ S, u < G.length) (hT : ∀ u ∈ T, u < G.length) :
    ∀ W ∈ [S, T], ∀ u ∈ W, u < G.length := by
  simpa using ⟨hS, hT⟩

theorem Flowing.init (hG : G.WF) : Flowing G S T (.new (modGraph G [S, T])) :=
  ⟨.init (lawful_modGraph hG), fun _ _ _ => rfl, fun _ => rfl, fun _ _ _ => rfl⟩

/-- The path of an iteration, from a source to a sink, and what it does to the
residual weights. -/
structure Iterates (G : IdxGraph) (S T : OrdSet Idx)
    (resG : ScopedGraph (ScopedGraph (DupGraph ImmutableVectorGraph))) (u : Idx)
    (path : List Idx) : Prop where
  source : u ∈ sources G S T
  sink : path.getLastD u ∈ sinks G S T
  long : path ≠ []
  nodup : (u :: path).Nodup
  chain : (u :: path).IsChain (Edge resG)
  lt : ∀ v ∈ u :: path, v ∈ levelNodes G
  push : ∀ a b, weightOf (pushPath resG (u :: path)) a b +
      (pathFlow resG (u :: path)).toNat * crossings (pathEdges (u :: path)) a b =
    weightOf resG a b +
      (pathFlow resG (u :: path)).toNat * crossings (pathEdges (u :: path)) b a

theorem Flowing.iterates (hG : G.WF) (hS : ∀ u ∈ S, u < G.length) (hT : ∀ u ∈ T, u < G.length)
    (htotal : G.totalWeight < 2 ^ 32 - 1) (h : Flowing G S T resG) {path : List Idx}
    (hfind : findStPathMulti ndebug resG (waypointsMod G [S, T]) = .ok (some path)) :
    ∃ u rest, path = u :: rest ∧ Iterates G S T resG u rest ∧
      Residual (modGraph G [S, T]) (pushPath resG path) ∧
      NoWrap (modGraph G [S, T]) resG path := by
  obtain ⟨hpath, hres, hnodes⟩ := residual_of_find le_rfl (pair_lt hS hT) h.residual hfind
  rw [waypointsMod_pair] at hfind hpath
  have hnodesG : nodes resG = G.length * 2 := h.residual.nodes_eq.trans nodes_modGraph
  have hlt (s : Idx) (hs : s ∈ sources G S T) : s < nodes resG := by
    rw [hnodesG]
    exact (hS s (mem_sources.mp hs)).trans_le (Nat.le_mul_of_pos_right _ two_pos)
  obtain ⟨hnodup, t, ht, hlast⟩ :=
    findStPathMulti_pair h.residual.lawful hlt (fun _ => sinks_not_sources hS) hfind
  obtain ⟨u, hu, hhead⟩ := hpath.first
  obtain ⟨rest, rfl⟩ := List.head?_eq_some_iff.mp hhead
  have hno := (noWrap_iff h.residual h.sum (modGraph_add_lt hG htotal) hnodes).mpr
    (affordable_of_nodup (nodup_pathEdges hnodup))
  refine ⟨u, rest, rfl, ⟨hu, ?_, ?_, hnodup, hpath.chain, ?_, fun a b => ?_⟩, hres, hno⟩
  · rw [List.getLast?_cons] at hlast
    rwa [List.getLastD_eq_getLast?, Option.some.inj hlast]
  · rintro rfl
    simpa using hpath.long
  · have hsu := hlt u hu
    have hchain := hpath.chain
    clear hno hlast hpath hhead hnodup hres hnodes hfind hu
    rw [hnodesG] at hsu
    induction rest generalizing u with
    | nil => simpa [levelNodes] using hsu
    | cons v rest ih =>
      obtain ⟨huv, hchain⟩ := List.isChain_cons_cons.mp hchain
      rw [← hnodesG] at hsu
      have hv := h.residual.lawful.edge_lt hsu huv
      rw [hnodesG] at hsu hv
      exact List.forall_mem_cons.mpr ⟨Finset.mem_range.mpr hsu, ih v hv hchain⟩
  · have hcap (a b : Idx) (hne : a ≠ b) :
        (getWeight resG a b).toNat + (getWeight resG b a).toNat < 2 ^ 32 := by
      rw [h.sum a b hne]
      exact modGraph_add_lt hG htotal a b hne
    rw [← h.residual.nodes_eq] at hnodes
    have hcount := toNat_pushEdges h.residual.lawful hnodes hcap hno.sub a b
    simp only [weightOf, crossings]
    exact_mod_cast hcount

theorem Iterates.flow_pos {u : Idx} {path : List Idx} (h : Iterates G S T resG u path) :
    0 < (pathFlow resG (u :: path)).toNat := pathFlow_pos h.chain

/-- What an iteration moves out of a set. -/
theorem Iterates.outSum_push {u : Idx} {path : List Idx} (h : Iterates G S T resG u path)
    (X : Finset Idx) :
    outSum (levelNodes G) X (weightOf (pushPath resG (u :: path))) +
        (pathFlow resG (u :: path)).toNat * (if u ∈ X then 1 else 0) =
      outSum (levelNodes G) X (weightOf resG) +
        (pathFlow resG (u :: path)).toNat * (if path.getLastD u ∈ X then 1 else 0) := by
  have hcross := outSum_crossings (X := X) h.lt
  have hpush : outSum (levelNodes G) X (fun a b => weightOf (pushPath resG (u :: path)) a b +
      (pathFlow resG (u :: path)).toNat * crossings (pathEdges (u :: path)) a b) =
    outSum (levelNodes G) X (fun a b => weightOf resG a b +
      (pathFlow resG (u :: path)).toNat * crossings (pathEdges (u :: path)) b a) :=
    outSum_congr fun a _ b _ => h.push a b
  rw [outSum_add, outSum_add, outSum_mul_left, outSum_mul_left] at hpush
  linear_combination hpush - ((pathFlow resG (u :: path)).toNat : ℤ) * hcross

/-- An iteration keeps the flow. -/
theorem Flowing.step (hG : G.WF) (hS : ∀ u ∈ S, u < G.length) (hT : ∀ u ∈ T, u < G.length)
    (htotal : G.totalWeight < 2 ^ 32 - 1) (h : Flowing G S T resG) {path : List Idx}
    (hfind : findStPathMulti ndebug resG (waypointsMod G [S, T]) = .ok (some path)) :
    Flowing G S T (pushPath resG path) := by
  obtain ⟨u, rest, rfl, hiter, hres, hno⟩ := h.iterates hG hS hT htotal hfind
  refine ⟨hres, hno.sum, fun a => ?_, fun x hsrc hsink => ?_⟩
  · rw [← h.diag a, ← UInt32.toNat_inj]
    have hpush := hiter.push a a
    simp only [weightOf] at hpush
    omega
  · have hpush := hiter.outSum_push {x}
    have hu : u ∉ ({x} : Finset Idx) := by
      rw [Finset.mem_singleton]
      rintro rfl
      exact hsrc hiter.source
    have hlast : rest.getLastD u ∉ ({x} : Finset Idx) := by
      rw [Finset.mem_singleton]
      intro heq
      exact hsink (heq ▸ hiter.sink)
    rw [if_neg hu, if_neg hlast] at hpush
    rw [← h.conserved x hsrc hsink]
    linarith

/-! ## Termination -/

/-- The residual weight between the levels. -/
def remaining (G : IdxGraph)
    (resG : ScopedGraph (ScopedGraph (DupGraph ImmutableVectorGraph))) : ℤ :=
  outSum (levelNodes G) (levelZero G) (weightOf resG)

theorem remaining_nonneg : 0 ≤ remaining G resG :=
  outSum_nonneg fun _ _ => Int.natCast_nonneg _

/-- An iteration uses up residual weight between the levels. -/
theorem Iterates.remaining_lt (hS : ∀ u ∈ S, u < G.length) {u : Idx} {path : List Idx}
    (h : Iterates G S T resG u path) :
    remaining G (pushPath resG (u :: path)) < remaining G resG := by
  have hpush := h.outSum_push (levelZero G)
  have hu : u ∈ levelZero G := Finset.mem_range.mpr (hS u (mem_sources.mp h.source))
  have hlast : path.getLastD u ∉ levelZero G := by
    obtain ⟨v, -, hv⟩ := mem_sinks.mp h.sink
    rw [← hv, levelZero, Finset.mem_range]
    exact Nat.not_lt.mpr (Nat.le_add_left _ v)
  rw [if_pos hu, if_neg hlast] at hpush
  have := h.flow_pos
  simp only [remaining]
  omega

/-- The assertions of an iteration hold. -/
theorem Flowing.flow_lt (hG : G.WF) (htotal : G.totalWeight < 2 ^ 32 - 1)
    (h : Flowing G S T resG) {u : Idx} {path : List Idx} (hiter : Iterates G S T resG u path) :
    (pathFlow resG (u :: path)).toNat < 2 ^ 32 - 1 := by
  obtain ⟨v, path, rfl⟩ := List.exists_cons_of_ne_nil hiter.long
  have hne : u ≠ v := by
    rintro rfl
    exact (List.nodup_cons.mp hiter.nodup).1 (.head _)
  have hedge : (pathFlow resG (u :: v :: path)).toNat ≤ (getWeight resG u v).toNat :=
    pathFlow_le (e := ⟨u, v⟩) (.head _)
  have hsum := h.sum u v hne
  have := modGraph_add_le (W := [S, T]) hG hne
  omega

/-- The loop ends as soon as its fuel exceeds the remaining weight. -/
theorem Flowing.augment_returns (ndebug : Bool) (hG : G.WF) (hS : ∀ u ∈ S, u < G.length)
    (hT : ∀ u ∈ T, u < G.length) (htotal : G.totalWeight < 2 ^ 32 - 1) (h : Flowing G S T resG)
    {fuel : Nat} (hfuel : remaining G resG < fuel) :
    ∃ resG', augment ndebug (waypointsMod G [S, T]) fuel resG = .ok resG' := by
  induction fuel generalizing resG with
  | zero => exact absurd remaining_nonneg (not_le.mpr hfuel)
  | succ fuel ih =>
    rcases h.residual.find_spec ndebug le_rfl (pair_lt hS hT) with ⟨hnone, -⟩ | ⟨path, hfind, -⟩
    · exact ⟨resG, by simp [augment, hnone, bind, Except.bind, pure, Except.pure]⟩
    · obtain ⟨u, rest, rfl, hiter, -, -⟩ := h.iterates hG hS hT htotal hfind
      have hlen : 2 ≤ (u :: rest).length := by
        have := List.length_pos_iff.mpr hiter.long
        simp only [List.length_cons]
        omega
      have hflow : 0 < pathFlow resG (u :: rest) ∧ pathFlow resG (u :: rest) < maxWeight := by
        rw [UInt32.lt_iff_toNat_lt, UInt32.lt_iff_toNat_lt]
        exact ⟨hiter.flow_pos, h.flow_lt hG htotal hiter⟩
      have hless := hiter.remaining_lt hS
      obtain ⟨resG', hrest⟩ := ih (h.step hG hS hT htotal hfind) (by omega)
      exact ⟨resG', by
        simp only [augment, hfind, assert_of hlen, assert_of hflow, bind, Except.bind, hrest]⟩

/-! ## Cuts -/

/-- The nodes that `F` reaches from the sources. -/
noncomputable def reachSet (G : IdxGraph) (S T : OrdSet Idx) (F : Idx → Idx → Prop) : Finset Idx :=
  open Classical in (levelNodes G).filter fun b => ∃ s ∈ sources G S T, ReflTransGen F s b

theorem mem_reachSet {F : Idx → Idx → Prop} {b : Idx} : b ∈ reachSet G S T F ↔
    b ∈ levelNodes G ∧ ∃ s ∈ sources G S T, ReflTransGen F s b := by
  simp [reachSet]

section ReachSet

variable {F : Idx → Idx → Prop} (hS : ∀ u ∈ S, u < G.length)
  (hno : ∀ s ∈ sources G S T, ∀ t ∈ sinks G S T, ¬ TransGen F s t)

include hS

theorem source_mem_levelNodes {s : Idx} (hs : s ∈ sources G S T) : s ∈ levelNodes G :=
  Finset.mem_range.mpr
    ((hS s (mem_sources.mp hs)).trans_le (Nat.le_mul_of_pos_right _ two_pos))

include hno

end ReachSet

/-- The copy of an edge of the layered graph in `G`. -/
def baseEdge (G : IdxGraph) (p : Idx × Idx) : IdxEdge := ⟨p.1 % G.length, p.2 % G.length⟩

/-- The edges of `G` whose copies leave a set of level zero. -/
noncomputable def cutEdges (G : IdxGraph) (S T : OrdSet Idx) (X : Finset Idx) : Finset IdxEdge :=
  open Classical in
  ((X ×ˢ (levelNodes G \ X)).filter fun p => Edge (modGraph G [S, T]) p.1 p.2).image (baseEdge G)

theorem mem_cutEdges {X : Finset Idx} {e : IdxEdge} : e ∈ cutEdges G S T X ↔
    ∃ a b, a ∈ X ∧ b ∈ levelNodes G ∧ b ∉ X ∧ Edge (modGraph G [S, T]) a b ∧
      baseEdge G (a, b) = e := by
  simp [cutEdges, and_assoc]

/-- Between the levels lead copies of the edges of `G`, each at most once. -/
theorem remaining_new_le (hG : G.WF) :
    remaining G (.new (modGraph G [S, T])) ≤ G.totalWeight := by
  have hlevel : levelNodes G \ levelZero G = Finset.Ico G.length (G.length * 2) := by
    ext b
    rw [levelNodes, levelZero, Finset.mem_sdiff, Finset.mem_range, Finset.mem_range, Nat.not_lt,
      Finset.mem_Ico, and_comm]
  have hnodes : G.length * 2 - G.length = G.length := by omega
  rw [remaining, outSum, hlevel, IdxGraph.totalWeight]
  push_cast
  refine Finset.sum_le_sum fun u hu => ?_
  rw [Finset.sum_Ico_eq_sum_range, hnodes]
  refine Finset.sum_le_sum fun v hv => ?_
  have hsrc : (dupGraph G [S, T]).getBase u = u := Nat.mod_eq_of_lt (Finset.mem_range.mp hu)
  have hdst : (dupGraph G [S, T]).getBase (G.length + v) = v := by
    change (G.length + v) % G.length = v
    rw [Nat.add_mod_left, Nat.mod_eq_of_lt (Finset.mem_range.mp hv)]
  have hle := layeredWeight_le G [S, T] u (G.length + v)
  rw [hsrc, hdst] at hle
  change ((getWeight (modGraph G [S, T]) u (G.length + v)).toNat : ℤ) ≤ _
  rw [getWeight_modGraph hG]
  exact_mod_cast hle

/-- For two waypoint sets the solver terminates: no more iterations are made than `G` has weight. -/
theorem fordFulkersonMulti_returns (ndebug : Bool) (hG : G.WF) (hS : ∀ u ∈ S, u < G.length)
    (hT : ∀ u ∈ T, u < G.length) (htotal : G.totalWeight < 2 ^ 32 - 1) :
    ∃ cut, ∀ fuel, G.totalWeight < fuel → fordFulkersonMulti ndebug fuel G [S, T] = .ok cut := by
  have hlen : 2 ≤ (waypointsMod G [S, T]).length := by simp
  have hfuel : remaining G (.new (modGraph G [S, T])) < (G.totalWeight + 1 : Nat) := by
    have := remaining_new_le (S := S) (T := T) hG
    omega
  obtain ⟨resG, haug⟩ :=
    (Flowing.init (S := S) (T := T) hG).augment_returns ndebug hG hS hT htotal hfuel
  have hret : ∃ cut, fordFulkersonMulti ndebug (G.totalWeight + 1) G [S, T] = .ok cut := by
    simp only [fordFulkersonMulti, fordFulkersonMultiImpl, assert_of hlen, bind, Except.bind]
    split_ifs
    · exact ⟨_, rfl⟩
    · rw [haug]
      exact ⟨_, rfl⟩
  obtain ⟨cut, hcut⟩ := hret
  exact ⟨cut, fun fuel hlt => fordFulkersonMulti_mono hlt hcut⟩

/-- The edges that the solver returns are the cut edges of the reached set. -/
theorem Solved.sum_eq (hG : G.WF) (hS : ∀ u ∈ S, u < G.length) {fuel : Nat} {cut : List IdxEdge}
    {reach : List Idx} (h : Solved ndebug fuel G [S, T] cut resG reach) :
    (cut.map fun e => (G.weight e.src e.dst).toNat).sum =
      ∑ e ∈ cutEdges G S T (reachSet G S T (Edge resG)), (G.weight e.src e.dst).toNat := by
  have hlawful := lawful_modGraph (W := [S, T]) hG
  have hnodes : nodes (modGraph G [S, T]) = G.length * 2 := nodes_modGraph
  have hreach (v : Idx) : v ∈ reach ↔ v ∈ reachSet G S T (Edge resG) := by
    rw [h.reach_iff, mem_reachSet]
    refine (and_iff_right_of_imp ?_).symm
    rintro ⟨s, hs, hsv⟩
    have hs' : s < nodes resG := by
      rw [h.residual.nodes_eq, hnodes]
      exact Finset.mem_range.mp (source_mem_levelNodes hS hs)
    have hv := lt_nodes_of_reach h.residual.lawful hs' hsv
    rw [h.residual.nodes_eq, hnodes] at hv
    exact Finset.mem_range.mpr hv
  have hmem (e : IdxEdge) : e ∈ cut ↔ e ∈ cutEdges G S T (reachSet G S T (Edge resG)) := by
    rw [h.cut_eq, mem_sortUnique, List.mem_map, mem_cutEdges]
    constructor
    · rintro ⟨e', he', rfl⟩
      obtain ⟨hlt, hsrc, hedge, hdst⟩ := (mem_leaving hlawful).mp he'
      refine ⟨e'.src, e'.dst, (hreach _).mp hsrc, ?_, fun hb => hdst ((hreach _).mpr hb), hedge, rfl⟩
      have hdlt := hlawful.edge_lt hlt hedge
      rw [hnodes] at hdlt
      exact Finset.mem_range.mpr hdlt
    · rintro ⟨a, b, ha, -, hb, hab, rfl⟩
      refine ⟨⟨a, b⟩, (mem_leaving hlawful).mpr ⟨?_, (hreach a).mpr ha, hab,
        fun hb' => hb ((hreach b).mp hb')⟩, rfl⟩
      rw [hnodes]
      exact Finset.mem_range.mp (mem_reachSet.mp ha).1
  have hnodup : cut.Nodup := by
    rw [h.cut_eq]
    exact (sortUnique_sorted _).imp ne_of_lt
  rw [← List.sum_toFinset _ hnodup]
  exact Finset.sum_congr (Finset.ext fun e => List.mem_toFinset.trans (hmem e)) fun _ _ => rfl

end Pair

end Clou
