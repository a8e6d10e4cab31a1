-- SUMMARY: The run is sound on natural numbers: without the edges it returns none of the given STs has a walk.
import Serberus.MinCutGreedy.Disjoint

/-!
# Soundness of the Run

Every step separates its ST, and a step that changes nothing keeps the STs before it
separated. The loop ends behind a pass without changes, so at its end all optimised
STs are separated; the given STs are protected by them, and walks over nodes are
walks over indices.
-/

namespace Clou

namespace Greedy

variable {M : Greedy} {s s' : State} {i : Nat} {st : IdxST}

/-- What the solver returns on the graphs that the loop may hand it is a valid cut. -/
def ReturnsCuts (M : Greedy) : Prop :=
  ∀ G X, Minus M.OrigG G X → ∀ st ∈ M.sts, ∀ cut, M.solve G st.waypoints = .ok cut →
    IsCut G st.waypoints cut

theorem ReturnsCuts.solvesEdges (hcuts : M.ReturnsCuts) : M.SolvesEdges := by
  intro G X hminus st hst cut hret
  have hcut := hcuts G X hminus st hst cut hret
  exact ⟨hcut.sorted, hcut.edge⟩

/-- As long as a pass has changed nothing, the STs that it has processed are separated. -/
theorem Reached.separated (hcuts : M.ReturnsCuts) (h : M.Reached s i) (hchanged : s.changed = false) :
    ∀ j (hj : j < M.sts.length), j < i → ¬ Walk.HasWalk s.G.Edge M.sts[j].waypoints := by
  induction h with
  | start => exact fun _ _ hlt => absurd hlt (Nat.not_lt_zero _)
  | pass => exact fun _ _ hlt => absurd hlt (Nat.not_lt_zero _)
  | @st s s' i h hi hstep ih =>
    intro j hj hlt hwalk
    have hinv := h.inv hcuts.solvesEdges
    obtain ⟨G₀, tmp, hstepped, hinv'⟩ :=
      stepSt_ok hcuts.solvesEdges hinv hi (List.getElem_mem hi) hstep
    obtain ⟨hbefore, hsame⟩ := hstepped.cuts_of_unchanged hinv hi hchanged
    rcases Nat.lt_or_eq_of_le (Nat.le_of_lt_succ hlt) with hlt | rfl
    · refine ih hbefore j hj hlt ?_
      rwa [hinv'.cuts.minus.edge_eq, hsame, ← hinv.cuts.minus.edge_eq] at hwalk
    · have hcut := hcuts G₀ _ hstepped.minus _ (List.getElem_mem hi) tmp hstepped.solve
      rw [hstepped.edge_eq hcuts.solvesEdges hinv hinv' hi (List.getElem_mem hi)] at hwalk
      exact hcut.separates hwalk

/-- Behind a pass without changes all STs are separated by the cuts. -/
theorem separated_of_endPass (hcuts : M.ReturnsCuts) (h : M.Reached s M.sts.length)
    (hend : M.endPass s = .ok (s', false)) {st : IdxST} (hst : st ∈ M.sts) :
    ¬ Walk.HasWalk (Walk.without M.OrigG.Edge (edgeSet s.cuts.flatten)) st.waypoints := by
  obtain ⟨j, hj, rfl⟩ := List.mem_iff_getElem.mp hst
  rw [← (h.inv hcuts.solvesEdges).cuts.minus.edge_eq]
  exact h.separated hcuts (endPass_ok hend).1.symm j hj hj

end Greedy

variable {Node : Type} [LinearOrder Node]

section Translation

variable {ndebug : Bool} {fuel : Nat} {G : NodeGraph Node} {sts : List (ST Node)} {M : Greedy}

/-! ## Translated STs -/

theorem mem_indexWay {nodes : List Node} {way : OrdSet Node} {iway : OrdSet Idx}
    (h : indexWay ndebug nodes way = .ok iway) {i : Idx} :
    i ∈ iway ↔ ∃ u ∈ way, lowerBound nodes u = i := by
  obtain ⟨is, his, h⟩ := Exec.bind_eq_ok.mp h
  cases h
  have key {us : List Node} {is : List Idx}
      (h : List.Forall₂ (fun u i => nodeToIdx ndebug nodes u = .ok i) us is) :
      is = us.map (lowerBound nodes) := by
    induction h with
    | nil => rfl
    | cons hu _ ih => rw [List.map_cons, ← ih, nodeToIdx_ok hu]
  rw [OrdSet.mem_ofList, key (Exec.mapM_eq_ok his), List.mem_map]
  rfl

/-- The waypoints of an index ST are the positions of those of the ST. -/
theorem indexSt_waypoints {nodes : List Node} {st : ST Node} {ist : IdxST}
    (h : indexSt ndebug nodes st = .ok ist) :
    List.Forall₂ (fun (W : OrdSet Node) (IW : OrdSet Idx) =>
      ∀ i, i ∈ IW ↔ ∃ u ∈ W, lowerBound nodes u = i) st.waypoints ist.waypoints := by
  obtain ⟨Ws, hWs, h⟩ := Exec.bind_eq_ok.mp h
  cases h
  exact (Exec.mapM_eq_ok hWs).imp fun _ _ hway _ => mem_indexWay hway

/-! ## What the Loop Is Handed -/

/-- All weights are positive. -/
def NodeGraph.Positive (G : NodeGraph Node) : Prop := ∀ e ∈ G.entries, ∀ d ∈ e.2.entries, 0 < d.2

instance (G : NodeGraph Node) : Decidable G.Positive :=
  inferInstanceAs (Decidable (∀ e ∈ G.entries, ∀ d ∈ e.2.entries, 0 < d.2))

/-- An ST of at least two sets of nodes of `G`. -/
def ST.Over (G : NodeGraph Node) (st : ST Node) : Prop :=
  2 ≤ st.waypoints.length ∧ ∀ W ∈ st.waypoints, ∀ u ∈ W, u ∈ getNodes G

instance (G : NodeGraph Node) (st : ST Node) : Decidable (st.Over G) :=
  inferInstanceAs (Decidable (2 ≤ st.waypoints.length ∧ ∀ W ∈ st.waypoints, ∀ u ∈ W, u ∈ getNodes G))

theorem Prepared.wf (h : Prepared ndebug fuel G sts M)
    (hpos : G.Positive) : M.OrigG.WF := by
  refine ⟨fun hw => ?_, fun hw => h.closed.dst_lt (OrdMap.mem_keys.mpr ⟨_, hw⟩)⟩
  obtain ⟨u, v, ⟨dsts, hrow, hv⟩, -, -⟩ := h.graph.sound _ _ _ hw
  exact hpos _ hrow _ hv

/-- The prepared STs are the optimised positions of the given STs. -/
theorem Prepared.optimizedSts (h : Prepared ndebug fuel G sts M) (hsts : ∀ st ∈ sts, st.Over G) :
    ∃ ists, List.Forall₂ (fun st ist => indexSt ndebug (getNodes G).toList st = .ok ist) sts ists ∧
      Optimized M.OrigG ists M.sts := by
  obtain ⟨ists, hists, hopt⟩ := h.sts
  refine ⟨ists, hists, optimizeSts_optimized h.closed (fun ist hist => ?_) hopt⟩
  obtain ⟨st, hst, hindex⟩ := forall₂_exists_left hists hist
  rw [← (indexSt_waypoints hindex).length_eq]
  exact (hsts st hst).1

/-- The optimised STs have at least two sets of positions, and protect the given STs. -/
theorem Prepared.optimized (h : Prepared ndebug fuel G sts M) (hsts : ∀ st ∈ sts, st.Over G) :
    (∀ st ∈ M.sts, 2 ≤ st.waypoints.length ∧ ∀ S ∈ st.waypoints, ∀ i ∈ S, i < M.OrigG.length) ∧
      ∀ C, ∀ st ∈ sts, ∀ ist, indexSt ndebug (getNodes G).toList st = .ok ist →
        Walk.HasWalk (Walk.without M.OrigG.Edge C) ist.waypoints →
        ∃ st' ∈ M.sts, Walk.HasWalk (Walk.without M.OrigG.Edge C) st'.waypoints := by
  obtain ⟨ists, hists, hoptimized⟩ := h.optimizedSts hsts
  have hlt : ∀ i ∈ stsNodes ists, i < M.OrigG.length := by
    rintro i ⟨ist, hist, S, hS, hi⟩
    obtain ⟨st, hst, hindex⟩ := forall₂_exists_left hists hist
    obtain ⟨W, hW, hmem⟩ := forall₂_exists_left (indexSt_waypoints hindex) hS
    obtain ⟨u, hu, rfl⟩ := (hmem i).mp hi
    have hnode := getElem?_lowerBound (getNodes G).sorted ((hsts st hst).2 W hW u hu)
    rw [h.graph.length_eq]
    exact (List.getElem?_eq_some_iff.mp hnode).1
  refine ⟨fun st hst => ⟨hoptimized.enough st hst, fun S hS i hi => ?_⟩,
    fun C st hst ist hindex hwalk => ?_⟩
  · exact hlt i (hoptimized.nodes i ⟨st, hst, S, hS, hi⟩)
  · obtain ⟨ist', hist', hindex'⟩ := forall₂_exists_left hists.flip hst
    obtain rfl : ist = ist' := Except.ok.inj (hindex.symm.trans hindex')
    exact hoptimized.walk C ⟨ist, hist', hwalk⟩

/-- No optimised ST has more sets than a given one. -/
theorem Prepared.length_le (h : Prepared ndebug fuel G sts M) (hsts : ∀ st ∈ sts, st.Over G) :
    ∀ st ∈ M.sts, ∃ st' ∈ sts, st.waypoints.length ≤ st'.waypoints.length := by
  obtain ⟨ists, hists, hoptimized⟩ := h.optimizedSts hsts
  intro st hst
  obtain ⟨ist, hist, hle⟩ := hoptimized.length_le st hst
  obtain ⟨st', hst', hindex⟩ := forall₂_exists_left hists hist
  exact ⟨st', hst', (indexSt_waypoints hindex).length_eq ▸ hle⟩

theorem Prepared.returnsCuts (h : Prepared ndebug fuel G sts M) (hpos : G.Positive)
    (hsts : ∀ st ∈ sts, st.Over G) : M.ReturnsCuts := by
  intro G' X hminus st hst cut hret
  obtain ⟨hlen, hlt⟩ := (h.optimized hsts).1 st hst
  rw [h.solve] at hret
  refine fordFulkersonMulti_isCut (hminus.wf (h.wf hpos)) hlen (fun S hS i hi => ?_) hret
  rw [hminus.length_eq]
  exact hlt S hS i hi

/-! ## Walks over Nodes -/

/-- A walk over nodes that avoids the returned edges is one over indices that avoids the cuts. -/
theorem Prepared.hasWalk (h : Prepared ndebug fuel G sts M) {cut : List IdxEdge}
    {cutEdges : List (NodeEdge Node)}
    (hedges : List.Forall₂ (fun e ne => nodeEdge ndebug (getNodes G).toList e = .ok ne) cut cutEdges)
    {st : ST Node} {ist : IdxST} (hindex : indexSt ndebug (getNodes G).toList st = .ok ist)
    (hwalk : Walk.HasWalk (Walk.without G.Edge (nodeEdgeSet cutEdges)) st.waypoints) :
    Walk.HasWalk (Walk.without M.OrigG.Edge (edgeSet cut)) ist.waypoints := by
  refine hwalk.map (f := lowerBound (getNodes G).toList) ?_
    ((indexSt_waypoints hindex).imp fun W IW hmem u hu => (hmem _).mpr ⟨u, hu, rfl⟩)
  rintro u v ⟨⟨w, hedge⟩, hkept⟩
  refine ⟨h.graph.complete u v w hedge, fun hcut => hkept ?_⟩
  obtain ⟨ne, hne, hnode⟩ := forall₂_exists_left hedges.flip hcut
  obtain ⟨hsrc, hdst⟩ := nodeEdge_ok hnode
  obtain ⟨hu, hv⟩ := hedge.mem_nodes
  rw [getElem?_lowerBound (getNodes G).sorted hu] at hsrc
  rw [getElem?_lowerBound (getNodes G).sorted hv] at hdst
  cases hsrc
  cases hdst
  exact hne

/-- When the run returns, its result consists of distinct edges of the graph, and without these
none of the given STs has a waypoint walk. -/
theorem run_separates {timedOut : Nat → Bool} {cutEdges : List (NodeEdge Node)} (hpos : G.Positive)
    (hsts : ∀ st ∈ sts, st.Over G) (hret : run ndebug fuel timedOut G sts = .ok cutEdges) :
    cutEdges.Nodup ∧ (∀ e ∈ cutEdges, G.Edge e.src e.dst) ∧
      ∀ st ∈ sts, ¬ Walk.HasWalk (Walk.without G.Edge (nodeEdgeSet cutEdges)) st.waypoints := by
  obtain ⟨M, s, s₁, hM, hs, hend, hedges⟩ := run_ok hret
  have h := prepare_ok hM
  have hcuts := h.returnsCuts hpos hsts
  have hinv := hs.inv hcuts.solvesEdges
  refine ⟨forall₂_nodup hedges (fun _ _ _ => nodeEdge_inj (getNodes G).nodup) hinv.cuts.nodup,
    fun e he => ?_, fun st hst hwalk => ?_⟩
  · obtain ⟨ie, hie, hnode⟩ := forall₂_exists_left hedges he
    obtain ⟨cut, hcut, hie⟩ := List.mem_flatten.mp hie
    obtain ⟨w, hw⟩ := OrdMap.mem_keys.mp (hinv.cuts.edge cut hcut ie hie)
    obtain ⟨u, v, hedge, hu, hv⟩ := h.graph.sound _ _ _ hw
    obtain ⟨hsrc, hdst⟩ := nodeEdge_ok hnode
    obtain rfl : u = e.src := Option.some.inj (hu.symm.trans hsrc)
    obtain rfl : v = e.dst := Option.some.inj (hv.symm.trans hdst)
    exact ⟨w, hedge⟩
  · obtain ⟨ists, hists, -⟩ := h.sts
    obtain ⟨ist, -, hindex⟩ := forall₂_exists_left hists.flip hst
    obtain ⟨st', hst', hwalk'⟩ := (h.optimized hsts).2 _ st hst ist hindex
      (h.hasWalk hedges hindex hwalk)
    exact Greedy.separated_of_endPass hcuts hs hend hst' hwalk'

end Translation

end Clou
