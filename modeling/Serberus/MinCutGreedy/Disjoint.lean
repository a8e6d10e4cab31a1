-- SUMMARY: Throughout a run the cuts are disjoint and missing from the working graph, so its assertions about them hold.
import Serberus.FordFulkerson.AnyGraph
import Serberus.MinCutGreedy.Reached
import Serberus.MinCutGreedy.Run

/-!
# The Cuts of a Run

The invariant of the greedy loop, instantiated with the solver and carried through
the whole run. No weights are assumed to be positive, and the clock is free.
-/

namespace Clou

variable {Node : Type} [LinearOrder Node]

/-! ## What Is Prepared -/

/-- What the greedy loop is handed for `G` and `sts`. -/
structure Prepared (ndebug : Bool) (fuel : Nat) (G : NodeGraph Node) (sts : List (ST Node))
    (M : Greedy) : Prop where
  graph : Indexes (getNodes G).toList G.WeightedEdge M.OrigG
  sts : ∃ ists, List.Forall₂ (fun st ist => indexSt ndebug (getNodes G).toList st = .ok ist) sts ists ∧
    optimizeSts fuel ists M.OrigG = .ok M.sts
  solve : M.solve = fordFulkersonMulti ndebug fuel

section Prepare

variable {ndebug : Bool} {fuel : Nat} {timedOut : Nat → Bool} {G : NodeGraph Node}
  {sts : List (ST Node)} {M : Greedy}

theorem prepare_ok (h : prepare ndebug fuel timedOut G sts = .ok M) :
    Prepared ndebug fuel G sts M := by
  obtain ⟨IG, hIG, h⟩ := Exec.bind_eq_ok.mp h
  obtain ⟨ists, hists, h⟩ := Exec.bind_eq_ok.mp h
  obtain ⟨opt, hopt, h⟩ := Exec.bind_eq_ok.mp h
  cases h
  exact ⟨indexGraph_indexes hIG, ⟨ists, Exec.mapM_eq_ok hists, hopt⟩, rfl⟩

theorem Indexes.closed {E : Node → Node → Weight → Prop} {nodes : List Node} {IG : IdxGraph}
    (h : Indexes nodes E IG) : IG.Closed := by
  intro d hd j hj
  obtain ⟨i, hi, rfl⟩ := List.mem_iff_getElem.mp hd
  obtain ⟨w, hw⟩ := OrdMap.mem_keys.mp hj
  have hrow : (j, w) ∈ (IG.row i).entries := by
    rwa [IdxGraph.row, List.getD_eq_getElem?_getD, List.getElem?_eq_getElem hi]
  obtain ⟨-, v, -, -, hv⟩ := h.sound i j w hrow
  rw [h.length_eq]
  exact (List.getElem?_eq_some_iff.mp hv).1

theorem Prepared.closed (h : Prepared ndebug fuel G sts M) : M.OrigG.Closed := h.graph.closed

theorem Prepared.solvesEdges (h : Prepared ndebug fuel G sts M) : M.SolvesEdges := by
  intro G' X hminus st _ cut hret
  rw [h.solve] at hret
  exact fordFulkersonMulti_edges (hminus.closed h.closed) hret

/-! ## Faults -/

/-- The assertions about cut edges. -/
def cutAssertions : List Assertion := [.cutEdgeInserted, .newCutEdgePresent, .cutEdgeErased]

/-- A fault that is not one of these assertions. -/
def Harmless (f : Fault) : Prop := ∀ a ∈ cutAssertions, f ≠ .assertion a

theorem SolverFault.harmless {f : Fault} (h : SolverFault f) : Harmless f := by
  simp only [SolverFault, List.mem_cons, List.not_mem_nil, or_false] at h
  rcases h with rfl | rfl | rfl | rfl | rfl <;> simp [Harmless, cutAssertions]

theorem faults_nodeToIdx (nodes : List Node) (node : Node) :
    Exec.Faults Harmless (nodeToIdx ndebug nodes node) :=
  (Exec.faults_assert (by simp [Harmless, cutAssertions])).bind fun _ => Exec.faults_pure _

theorem faults_optimizeSts (ists : List IdxST) (IG : IdxGraph) :
    Exec.Faults Harmless (optimizeSts fuel ists IG) := by
  intro f hf
  rcases doWhile_fault (P := fun _ => True) (fun _ _ _ _ => trivial) trivial hf with rfl | ⟨_, -, h⟩
  · simp [Harmless]
  · cases h

theorem faults_prepare : Exec.Faults Harmless (prepare ndebug fuel timedOut G sts) := by
  refine Exec.Faults.bind ?_ fun IG => Exec.Faults.bind ?_ fun ists => ?_
  · refine Exec.Faults.foldlM (fun IG e => ?_) _ _
    refine (faults_nodeToIdx _ _).bind fun isrc => Exec.Faults.foldlM (fun IG e => ?_) _ _
    exact (faults_nodeToIdx _ _).bind fun _ => Exec.faults_pure _
  · refine Exec.Faults.mapM (fun st => ?_) _
    refine (Exec.Faults.mapM (fun way => ?_) _).bind fun _ => Exec.faults_pure _
    exact (Exec.Faults.mapM (faults_nodeToIdx _) _).bind fun _ => Exec.faults_pure _
  · exact (faults_optimizeSts _ _).bind fun _ => Exec.faults_pure _

omit [LinearOrder Node] in
theorem faults_nodeEdge {P : Fault → Prop} (hindex : P (.assertion .indexInRange))
    (hrange : P .outOfRange) (nodes : List Node) (e : IdxEdge) :
    Exec.Faults P (nodeEdge ndebug nodes e) := by
  have hnode (i : Idx) : Exec.Faults P (idxToNode ndebug nodes i) := by
    refine (Exec.faults_assert hindex).bind fun _ => ?_
    split
    · exact Exec.faults_pure _
    · exact Exec.faults_throw hrange
  exact (hnode _).bind fun _ => (hnode _).bind fun _ => Exec.faults_pure _

theorem Prepared.faults_stepSt (h : Prepared ndebug fuel G sts M) {s : Greedy.State} {i : Nat}
    (hs : M.Reached s i) (hi : i < M.sts.length) :
    Exec.Faults Harmless (M.stepSt s (M.sts[i], i)) := by
  intro f hf
  have hinv := hs.inv h.solvesEdges
  obtain ⟨G₀, hsolve⟩ := Greedy.stepSt_fault h.solvesEdges hinv hi (List.getElem_mem hi) hf
  rw [h.solve] at hsolve
  exact (faults_fordFulkersonMulti _ _ f hsolve).harmless

theorem faults_run : Exec.Faults Harmless (run ndebug fuel timedOut G sts) := by
  refine faults_prepare.bind_of fun M hM => Exec.Faults.bind (fun f hf => ?_) fun s => ?_
  · have hprepared := prepare_ok hM
    rcases Greedy.loop_fault hf with rfl | ⟨s, i, hs, hi, hstep⟩ | ⟨s, -, hend⟩
    · simp [Harmless]
    · exact hprepared.faults_stepSt hs hi f hstep
    · rw [Greedy.endPass_fault hend]
      simp [Harmless, cutAssertions]
  · exact Exec.Faults.mapM (faults_nodeEdge (by simp [Harmless, cutAssertions]) (by simp [Harmless]) _) _

/-! ## The Result -/

theorem forall₂_exists_left {α β : Type} {R : α → β → Prop} {l : List α} {l' : List β}
    (h : List.Forall₂ R l l') {b : β} (hb : b ∈ l') : ∃ a ∈ l, R a b := by
  induction h with
  | nil => exact absurd hb List.not_mem_nil
  | cons hab _ ih =>
    rcases List.mem_cons.mp hb with rfl | hb
    · exact ⟨_, .head _, hab⟩
    · obtain ⟨a, ha, hR⟩ := ih hb
      exact ⟨a, .tail _ ha, hR⟩

/-- Distinct elements with distinct images. -/
theorem forall₂_nodup {α β : Type} {R : α → β → Prop} {l : List α} {l' : List β}
    (h : List.Forall₂ R l l') (hR : ∀ a a' b, R a b → R a' b → a = a') (hl : l.Nodup) :
    l'.Nodup := by
  induction h with
  | nil => exact .nil
  | cons hab h ih =>
    obtain ⟨hfresh, hl⟩ := List.nodup_cons.mp hl
    refine List.nodup_cons.mpr ⟨fun hb => ?_, ih hl⟩
    obtain ⟨a', ha', hab'⟩ := forall₂_exists_left h hb
    exact hfresh (hR _ _ _ hab hab' ▸ ha')

omit [LinearOrder Node] in
theorem nodeEdge_inj {nodes : List Node} (hnodup : nodes.Nodup) {e e' : IdxEdge} {ne : NodeEdge Node}
    (h : nodeEdge ndebug nodes e = .ok ne) (h' : nodeEdge ndebug nodes e' = .ok ne) : e = e' := by
  obtain ⟨hsrc, hdst⟩ := nodeEdge_ok h
  obtain ⟨hsrc', hdst'⟩ := nodeEdge_ok h'
  obtain ⟨u, v⟩ := e
  obtain ⟨u', v'⟩ := e'
  obtain rfl : u = u' := (List.getElem?_inj (List.getElem?_eq_some_iff.mp hsrc).1 hnodup).mp
    (hsrc.trans hsrc'.symm)
  obtain rfl : v = v' := (List.getElem?_inj (List.getElem?_eq_some_iff.mp hdst).1 hnodup).mp
    (hdst.trans hdst'.symm)
  rfl

theorem run_ok {cutEdges : List (NodeEdge Node)}
    (h : run ndebug fuel timedOut G sts = .ok cutEdges) :
    ∃ M s s₁, prepare ndebug fuel timedOut G sts = .ok M ∧ M.Reached s M.sts.length ∧
      M.endPass s = .ok (s₁, false) ∧
      List.Forall₂ (fun e ne => nodeEdge ndebug (getNodes G).toList e = .ok ne)
        s.cuts.flatten cutEdges := by
  obtain ⟨M, hM, h⟩ := Exec.bind_eq_ok.mp h
  obtain ⟨s₁, hloop, h⟩ := Exec.bind_eq_ok.mp h
  obtain ⟨s, hs, hend⟩ := Greedy.loop_reached hloop
  rw [(Greedy.endPass_ok hend).2.cuts] at h
  exact ⟨M, s, s₁, hM, hs, hend, Exec.mapM_eq_ok h⟩

end Prepare

/-- In every state between two STs of a run the cuts are disjoint sorted lists of
edges, and the working graph is the original one without them; the assertions about
cut edges hold, and no edge is returned twice. -/
theorem run_cuts_disjoint (ndebug : Bool) (fuel : Nat) (timedOut : Nat → Bool) (G : NodeGraph Node)
    (sts : List (ST Node)) :
    (∀ M, prepare ndebug fuel timedOut G sts = .ok M → ∀ s i, M.Reached s i →
      s.cuts.Pairwise List.Disjoint ∧
      (∀ cut ∈ s.cuts, cut.Pairwise (· < ·) ∧ cut.Nodup ∧ ∀ e ∈ cut, M.OrigG.Edge e.src e.dst) ∧
      s.G.length = M.OrigG.length ∧
      (∀ u v, (s.G.row u).find? v =
        if IdxEdge.mk u v ∈ s.cuts.flatten then none else (M.OrigG.row u).find? v) ∧
      ∀ hi : i < M.sts.length, ∀ a ∈ cutAssertions,
        M.stepSt s (M.sts[i], i) ≠ .error (.assertion a)) ∧
    (∀ a ∈ cutAssertions, run ndebug fuel timedOut G sts ≠ .error (.assertion a)) ∧
    ∀ cutEdges, run ndebug fuel timedOut G sts = .ok cutEdges → cutEdges.Nodup := by
  refine ⟨fun M hM s i hs => ?_, fun a ha hf => faults_run _ hf a ha rfl, fun cutEdges hret => ?_⟩
  · have hprepared := prepare_ok hM
    obtain ⟨-, hcuts⟩ := hs.inv hprepared.solvesEdges
    refine ⟨hcuts.disjoint, fun cut hcut => ?_, hcuts.minus.length_eq, fun u v => ?_,
      fun hi a ha hf => hprepared.faults_stepSt hs hi _ hf a ha rfl⟩
    · have hsorted := hcuts.sorted cut hcut
      exact ⟨hsorted, hsorted.imp ne_of_lt, hcuts.edge cut hcut⟩
    · split_ifs with hin
      · exact hcuts.minus.gone u v hin
      · exact hcuts.minus.kept u v hin
  · obtain ⟨M, s, -, hM, hs, -, hedges⟩ := run_ok hret
    have hprepared := prepare_ok hM
    have hinv := hs.inv hprepared.solvesEdges
    exact forall₂_nodup hedges (fun _ _ _ => nodeEdge_inj (getNodes G).nodup) hinv.cuts.nodup

end Clou
