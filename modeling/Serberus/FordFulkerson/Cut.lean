-- SUMMARY: The solver returns a cut: without its edges there is no waypoint walk, and it is empty when there was none.
import Serberus.FordFulkerson.Layered

/-!
# The Returned Edges Are a Cut

When the augmenting loop ends there is no waypoint path in the residual graph, so
the top level is not reached from the first waypoint set. A waypoint walk of `G`
that avoids the returned edges would lift to a climb that never leaves the reached
nodes, and reach the top level. Weights play no part in this: the argument only
needs that the residual graph has no edges but those of the layered graph and
their reverses.
-/

open Relation

namespace Clou

open Clou.Graph

/-- The edges of a list, as a set of pairs. -/
def edgeSet (es : List IdxEdge) : Set (Idx × Idx) := {p | IdxEdge.mk p.1 p.2 ∈ es}

@[simp] theorem mem_edgeSet {es : List IdxEdge} {u v : Idx} :
    (u, v) ∈ edgeSet es ↔ IdxEdge.mk u v ∈ es := Iff.rfl

/-- `cut` is a valid result of the solver: sorted edges of `G` that separate the
waypoint sets, and none when they are separated already. -/
structure IsCut (G : IdxGraph) (W : List (OrdSet Idx)) (cut : List IdxEdge) : Prop where
  sorted : cut.Pairwise (· < ·)
  edge : ∀ e ∈ cut, G.Edge e.src e.dst
  separates : ¬ Walk.HasWalk (Walk.without G.Edge (edgeSet cut)) W
  empty : ¬ Walk.HasWalk G.Edge W → cut = []

theorem IsCut.nodup {G : IdxGraph} {W : List (OrdSet Idx)} {cut : List IdxEdge}
    (h : IsCut G W cut) : cut.Nodup := h.sorted.imp ne_of_lt

section Leaving

variable {γ : Type} [Graph γ] {g : γ} {reach : List Idx}

theorem mem_leaving (h : Lawful g) {e : IdxEdge} : e ∈ leaving g reach ↔
    e.src < nodes g ∧ e.src ∈ reach ∧ Edge g e.src e.dst ∧ e.dst ∉ reach := by
  obtain ⟨u, v⟩ := e
  simp only [leaving, List.mem_flatMap, List.mem_filter, List.mem_range, List.mem_map,
    decide_eq_true_eq, IdxEdge.mk.injEq, h.mem_succs]
  constructor
  · rintro ⟨u', ⟨hlt, hu⟩, v', ⟨hedge, hv⟩, rfl, rfl⟩
    exact ⟨hlt, hu, hedge, hv⟩
  · rintro ⟨hlt, hu, hedge, hv⟩
    exact ⟨u, ⟨hlt, hu⟩, v, ⟨hedge, hv⟩, rfl, rfl⟩

theorem lt_nodes_of_reach (h : Lawful g) {s u : Idx} (hs : s < nodes g)
    (hsu : ReflTransGen (Edge g) s u) : u < nodes g := by
  induction hsu with
  | refl => exact hs
  | tail _ hstep ih => exact h.edge_lt ih hstep

/-- A closed set of reached nodes is not left. -/
theorem leaving_eq_nil (h : Lawful g) {S : OrdSet Idx}
    (hreach : ∀ v, v ∈ reach ↔ ∃ s ∈ S, ReflTransGen (Edge g) s v) : leaving g reach = [] := by
  refine List.eq_nil_iff_forall_not_mem.mpr fun e he => ?_
  obtain ⟨-, hsrc, hedge, hdst⟩ := (mem_leaving h).mp he
  obtain ⟨s, hs, hsu⟩ := (hreach _).mp hsrc
  exact hdst ((hreach _).mpr ⟨s, hs, hsu.tail hedge⟩)

end Leaving

theorem augment_of_none {γ : Type} [Graph γ] {ndebug : Bool} {W : List (OrdSet Idx)} {fuel : Nat}
    {resG resG' : ScopedGraph γ} (hnone : findStPathMulti ndebug resG W = .ok none)
    (hret : augment ndebug W fuel resG = .ok resG') : resG = resG' := by
  cases fuel with
  | zero => simp [augment, throw, throwThe, MonadExceptOf.throw] at hret
  | succ fuel => simpa [augment, hnone, bind, Except.bind, pure, Except.pure] using hret

/-- More fuel does not change the result. -/
theorem augment_mono {γ : Type} [Graph γ] {ndebug : Bool} {W : List (OrdSet Idx)}
    {fuel fuel' : Nat} {resG resG' : ScopedGraph γ} (hle : fuel ≤ fuel')
    (hret : augment ndebug W fuel resG = .ok resG') : augment ndebug W fuel' resG = .ok resG' := by
  induction fuel generalizing fuel' resG with
  | zero => simp [augment, throw, throwThe, MonadExceptOf.throw] at hret
  | succ fuel ih =>
    cases fuel' with
    | zero => exact absurd hle (Nat.not_succ_le_zero fuel)
    | succ fuel' =>
      simp only [augment, Exec.bind_eq_ok] at hret ⊢
      obtain ⟨found, hfind, hret⟩ := hret
      refine ⟨found, hfind, ?_⟩
      cases found with
      | none => exact hret
      | some path =>
        simp only [Exec.bind_eq_ok] at hret ⊢
        obtain ⟨_, hsize, _, hflow, hret⟩ := hret
        exact ⟨_, hsize, _, hflow, ih (Nat.le_of_succ_le_succ hle) hret⟩

theorem fordFulkersonMulti_mono {G : IdxGraph} {W : List (OrdSet Idx)} {ndebug : Bool}
    {fuel fuel' : Nat} {cut : List IdxEdge} (hle : fuel ≤ fuel')
    (hret : fordFulkersonMulti ndebug fuel G W = .ok cut) :
    fordFulkersonMulti ndebug fuel' G W = .ok cut := by
  simp only [fordFulkersonMulti, fordFulkersonMultiImpl, Exec.bind_eq_ok] at hret ⊢
  obtain ⟨results, ⟨_, hsize, himpl⟩, hcut⟩ := hret
  refine ⟨results, ⟨_, hsize, ?_⟩, hcut⟩
  split_ifs at himpl ⊢ with hnodes
  · exact himpl
  · obtain ⟨resG, haug, hresults⟩ := Exec.bind_eq_ok.mp himpl
    exact Exec.bind_eq_ok.mpr ⟨resG, augment_mono hle haug, hresults⟩

/-! ## What the Solver Returns -/

section Solver

variable {G : IdxGraph} {W : List (OrdSet Idx)} {ndebug : Bool} {fuel : Nat} {cut : List IdxEdge}

/-- The state of the solver when its augmenting loop has ended: the residual graph
and the nodes reached in it. -/
structure Solved (ndebug : Bool) (fuel : Nat) (G : IdxGraph) (W : List (OrdSet Idx))
    (cut : List IdxEdge) (resG : ScopedGraph (ScopedGraph (DupGraph ImmutableVectorGraph)))
    (reach : List Idx) : Prop where
  augmented : augment ndebug (waypointsMod G W) fuel (.new (modGraph G W)) = .ok resG
  residual : Residual (modGraph G W) resG
  noWalk : ¬ Walk.HasWalk (Edge resG) (waypointsMod G W)
  reach_iff : ∀ v, v ∈ reach ↔
    ∃ s ∈ (waypointsMod G W).head!, ReflTransGen (Edge resG) s v
  cut_eq : cut = sortUnique ((leaving (modGraph G W) reach).map fun e =>
    ⟨(dupGraph G W).getBase e.src, (dupGraph G W).getBase e.dst⟩)

theorem waypointsMod_ne_nil (hk : 2 ≤ W.length) : (waypointsMod G W).tail ≠ [] := by
  rw [← List.length_pos_iff, List.length_tail, length_waypointsMod]
  omega

/-- The search on a residual graph, decided by its waypoint walks. -/
theorem Residual.find_spec (ndebug : Bool) (hk : 2 ≤ W.length) (hW : ∀ S ∈ W, ∀ u ∈ S, u < G.length)
    {resG : ScopedGraph (ScopedGraph (DupGraph ImmutableVectorGraph))}
    (h : Residual (modGraph G W) resG) :
    findStPathMulti ndebug resG (waypointsMod G W) = .ok none ∧
      ¬ Walk.HasWalk (Edge resG) (waypointsMod G W) ∨
    ∃ path, findStPathMulti ndebug resG (waypointsMod G W) = .ok (some path) ∧
      Walk.HasWalk (Edge resG) (waypointsMod G W) ∧ IsPath resG (waypointsMod G W) path := by
  have hlt := waypointsMod_lt hW
  rw [← h.nodes_eq] at hlt
  have htail := waypointsMod_ne_nil (G := G) hk
  cases hcons : waypointsMod G W with
  | nil => simp [hcons] at htail
  | cons S Ts =>
    rw [hcons] at hlt htail
    exact findStPathMulti_spec h.lawful htail hlt

/-- What a successful search and the push along its path give. -/
theorem residual_of_find (hk : 2 ≤ W.length) (hW : ∀ S ∈ W, ∀ u ∈ S, u < G.length)
    {resG : ScopedGraph (ScopedGraph (DupGraph ImmutableVectorGraph))}
    (h : Residual (modGraph G W) resG) {path : List Idx}
    (hfind : findStPathMulti ndebug resG (waypointsMod G W) = .ok (some path)) :
    IsPath resG (waypointsMod G W) path ∧ Residual (modGraph G W) (pushPath resG path) ∧
      ∀ e ∈ pathEdges path, e.src < nodes (modGraph G W) ∧ e.dst < nodes (modGraph G W) := by
  have hne : waypointsMod G W ≠ [] := by
    intro hnil
    exact waypointsMod_ne_nil (G := G) hk (by rw [hnil]; rfl)
  rcases h.find_spec ndebug hk hW with ⟨hnone, -⟩ | ⟨path', hfind', -, hpath⟩
  · simp [hnone] at hfind
  · obtain rfl : path' = path := by simpa [hfind] using hfind'.symm
    refine ⟨hpath, h.pushPath (waypointsMod_lt hW) hne hpath, fun e he => ?_⟩
    obtain ⟨hsrc, hdst, -⟩ := h.of_path (waypointsMod_lt hW) hne hpath e he
    exact ⟨hsrc, hdst⟩

theorem solved_of_return (hG : G.WF) (hk : 2 ≤ W.length) (hW : ∀ S ∈ W, ∀ u ∈ S, u < G.length)
    (hret : fordFulkersonMulti ndebug fuel G W = .ok cut) :
    G.length = 0 ∧ cut = [] ∨ ∃ resG reach, Solved ndebug fuel G W cut resG reach := by
  simp only [fordFulkersonMulti, fordFulkersonMultiImpl, Exec.bind_eq_ok, pure, Except.pure,
    Except.ok.injEq] at hret
  obtain ⟨results, ⟨-, -, himpl⟩, rfl⟩ := hret
  have hne : waypointsMod G W ≠ [] := by
    intro hnil
    exact waypointsMod_ne_nil (G := G) hk (by rw [hnil]; rfl)
  split_ifs at himpl with hnodes
  · left
    obtain rfl : [] = results := by simpa using himpl
    rw [nodes_modGraph] at hnodes
    have hzero : G.length * W.length = 0 := hnodes
    exact ⟨(Nat.mul_eq_zero.mp hzero).resolve_right (by omega), rfl⟩
  · right
    obtain ⟨resG, haug, hresults⟩ := Exec.bind_eq_ok.mp himpl
    obtain rfl := Except.ok.inj hresults
    obtain ⟨hres, hend⟩ := augment_inv
      (fun _ _ h hfind => (residual_of_find hk hW h hfind).2.1) (.init (lawful_modGraph hG)) haug
    refine ⟨resG, _, haug, hres, ?_, fun v => ?_, rfl⟩
    · rcases hres.find_spec ndebug hk hW with ⟨-, hno⟩ | ⟨path, hfind, -⟩
      · exact hno
      · simp [hend] at hfind
    · refine mem_findReachableMulti hres.lawful fun s hs => ?_
      rw [hres.nodes_eq]
      exact waypointsMod_lt hW _ (List.head!_mem_self hne) s hs

/-- A waypoint walk that starts among the reached nodes and avoids the cut would
reach the top level. -/
theorem Solved.separates (hG : G.WF) (hk : 2 ≤ W.length) (hW : ∀ S ∈ W, ∀ u ∈ S, u < G.length)
    {resG : ScopedGraph (ScopedGraph (DupGraph ImmutableVectorGraph))} {reach : List Idx}
    (h : Solved ndebug fuel G W cut resG reach) :
    ¬ Walk.HasWalk (Walk.without G.Edge (edgeSet cut)) W := by
  intro hwalk
  obtain ⟨S, Ts, rfl⟩ := List.exists_cons_of_ne_nil (show W ≠ [] by rintro rfl; simp at hk)
  obtain ⟨u, hu, -, hrest⟩ := Walk.hasWalk_iff_visits.mp hwalk
  have hlt : u < nodes (dupGraph G (S :: Ts)).G := hW S (.head _) u hu
  -- the copy of the first waypoint on level zero
  let a := (dupGraph G (S :: Ts)).getNodeForLevel u 0
  have hbase : (dupGraph G (S :: Ts)).getBase a = u := DupGraph.getBase_node hlt
  have hlevel : (dupGraph G (S :: Ts)).getLevel a = 0 := DupGraph.getLevel_node hlt
  obtain ⟨S', Ts', hmod⟩ := List.exists_cons_of_ne_nil
    (show waypointsMod G (S :: Ts) ≠ [] from fun hnil => waypointsMod_ne_nil hk (by rw [hnil]; rfl))
  have ha : a ∈ S' := by
    obtain ⟨S'', hS'', ha⟩ :=
      (mem_waypointsMod (i := 0) hW).mpr ⟨hlevel, S, rfl, by rw [hbase]; exact hu⟩
    rw [hmod] at hS''
    obtain rfl : S' = S'' := by simpa using hS''
    exact ha
  have hstart (s : Idx) (hs : s ∈ S') :
      s < nodes resG ∧ (dupGraph G (S :: Ts)).getLevel s = 0 := by
    refine ⟨?_, ((mem_waypointsMod (i := 0) hW).mp ⟨S', by rw [hmod]; rfl, hs⟩).1⟩
    rw [h.residual.nodes_eq]
    exact waypointsMod_lt hW S' (by rw [hmod]; exact .head _) s hs
  have hreach (v : Idx) : v ∈ reach ↔ ∃ s ∈ S', ReflTransGen (Edge resG) s v := by
    simpa [hmod] using h.reach_iff v
  have hltR (b : Idx) (hb : b ∈ reach) : b < nodes resG := by
    obtain ⟨s, hs, hsb⟩ := (hreach b).mp hb
    exact lt_nodes_of_reach h.residual.lawful (hstart s hs).1 hsb
  -- the reached nodes are closed under the edges outside the cut
  have hclosed (b c : Idx) (hb : b ∈ reach) (hbc : Edge (modGraph G (S :: Ts)) b c)
      (hcut : ((dupGraph G (S :: Ts)).getBase b, (dupGraph G (S :: Ts)).getBase c) ∉ edgeSet cut) :
      c ∈ reach := by
    by_contra hc
    refine hcut ?_
    have hleave : ⟨b, c⟩ ∈ leaving (modGraph G (S :: Ts)) reach := by
      refine (mem_leaving (lawful_modGraph hG)).mpr ⟨?_, hb, hbc, hc⟩
      rw [← h.residual.nodes_eq]
      exact hltR b hb
    rw [h.cut_eq, mem_edgeSet, mem_sortUnique]
    exact List.mem_map.mpr ⟨_, hleave, rfl⟩
  have hlifts := lifts_modGraph hG (R := (· ∈ reach)) hclosed
  obtain ⟨b, hb, htop⟩ := hlifts.top (i := 0) ((hreach a).mpr ⟨a, ha, .refl⟩) (Nat.zero_le _)
    (by simpa [hbase] using hrest)
  -- so there is a waypoint walk in the residual graph after all
  obtain ⟨s, hs, hsb⟩ := (hreach b).mp hb
  have hclimb := h.residual.climbs hG hW
  have hlevelb : (dupGraph G (S :: Ts)).getLevel b + 1 = (waypointsMod G (S :: Ts)).length := by
    have hlt := DupGraph.getLevel_lt (g := dupGraph G (S :: Ts)) (u := b) (by
      rw [← nodes_modGraph, ← h.residual.nodes_eq]
      exact hltR b hb)
    rw [length_waypointsMod]
    exact Nat.le_antisymm hlt htop
  have hvisits := hclimb.visits hsb hlevelb
  rw [(hstart s hs).2, hmod] at hvisits
  refine h.noWalk (Walk.hasWalk_iff_visits.mpr ?_)
  rw [hmod]
  exact ⟨s, hs, trivial, hvisits⟩

/-- A waypoint set list without a walk gets the empty cut. -/
theorem Solved.empty (hG : G.WF) (hk : 2 ≤ W.length) (hW : ∀ S ∈ W, ∀ u ∈ S, u < G.length)
    {resG : ScopedGraph (ScopedGraph (DupGraph ImmutableVectorGraph))} {reach : List Idx}
    (h : Solved ndebug fuel G W cut resG reach) (hno : ¬ Walk.HasWalk G.Edge W) : cut = [] := by
  have hlawful := lawful_modGraph (W := W) hG
  have hinit := Residual.init hlawful
  have hnone : findStPathMulti ndebug (ScopedGraph.new (modGraph G W)) (waypointsMod G W) =
      .ok none := by
    rcases hinit.find_spec ndebug hk hW with ⟨hnone, -⟩ | ⟨-, -, hwalk, -⟩
    · exact hnone
    · exact absurd (hasWalk_of_modGraph hG hW hwalk) hno
  obtain rfl := augment_of_none hnone h.augmented
  rw [h.cut_eq, leaving_eq_nil hlawful h.reach_iff]
  rfl

/-- What the solver returns is a cut, for any number of waypoint sets. -/
theorem fordFulkersonMulti_isCut (hG : G.WF) (hk : 2 ≤ W.length)
    (hW : ∀ S ∈ W, ∀ u ∈ S, u < G.length)
    (hret : fordFulkersonMulti ndebug fuel G W = .ok cut) : IsCut G W cut := by
  rcases solved_of_return hG hk hW hret with ⟨hzero, rfl⟩ | ⟨resG, reach, h⟩
  · refine ⟨.nil, by simp, ?_, fun _ => rfl⟩
    intro hwalk
    obtain ⟨S, Ts, rfl⟩ := List.exists_cons_of_ne_nil (show W ≠ [] by rintro rfl; simp at hk)
    obtain ⟨u, hu, -⟩ := Walk.hasWalk_iff_visits.mp hwalk
    exact absurd (hzero ▸ hW S (.head _) u hu) (Nat.not_lt_zero u)
  · refine ⟨?_, fun e he => ?_, h.separates hG hk hW, h.empty hG hk hW⟩
    · rw [h.cut_eq]
      exact sortUnique_sorted _
    · rw [h.cut_eq, mem_sortUnique] at he
      obtain ⟨e', he', rfl⟩ := List.mem_map.mp he
      obtain ⟨-, -, hedge, -⟩ := (mem_leaving (lawful_modGraph hG)).mp he'
      exact ((edge_modGraph hG).mp hedge).1

end Solver

end Clou
