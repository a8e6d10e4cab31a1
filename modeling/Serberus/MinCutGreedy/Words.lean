-- SUMMARY: The run with the solver on machine words: sound when the copies of the nodes can be numbered for every ST, and what it misses when they cannot.
import Serberus.FordFulkerson.WordsExact
import Serberus.MinCutGreedy.RedundantSt
import Serberus.MinCutGreedy.Sound

/-!
# The Run on Machine Words

The greedy loop hands its graph to the solver, and the solver numbers the copies of the
nodes in `unsigned` variables. An optimised ST has at most as many sets as one of the given
STs, so when these leave room for the numbers, the run is the one on natural numbers, and
sound.

When there are as many copies as there are numbers, the solver returns no edges, and a
run in which this happens for every ST cuts nothing.
-/

open Relation

namespace Clou.Words

variable {Node : Type} [LinearOrder Node] {ndebug : Bool} {fuel : Nat} {timedOut : Nat → Bool}
  {G : NodeGraph Node} {sts : List (ST Node)}

/-- What `run` hands to the greedy loop. -/
def prepare (ndebug : Bool) (fuel : Nat) (timedOut : Nat → Bool) (G : NodeGraph Node)
    (sts : List (ST Node)) : Exec Greedy := do
  let M ← Clou.prepare ndebug fuel timedOut G sts
  pure { M with solve := fordFulkersonMulti ndebug fuel }

/-- `MinCutGreedy::run` -/
def run (ndebug : Bool) (fuel : Nat) (timedOut : Nat → Bool) (G : NodeGraph Node)
    (sts : List (ST Node)) : Exec (List (NodeEdge Node)) := do
  let M ← prepare ndebug fuel timedOut G sts
  let s ← M.loop fuel
  s.cuts.flatten.mapM (nodeEdge ndebug (getNodes G).toList)

/-! ## Below the Bound -/

/-- The copies of the nodes have numbers of their own, for every ST. -/
def StsFit (G : NodeGraph Node) (sts : List (ST Node)) : Prop :=
  ∀ st ∈ sts, (getNodes G).size * st.waypoints.length < UInt32.size

instance (G : NodeGraph Node) (sts : List (ST Node)) : Decidable (StsFit G sts) :=
  inferInstanceAs (Decidable (∀ _ ∈ _, _))

/-- The same of the STs that the solver is called for. -/
def OptimizedFit (M : Greedy) : Prop := ∀ st ∈ M.sts, Fits M.OrigG st.waypoints

/-- No optimised ST has more sets than one of the given STs. -/
theorem StsFit.optimizedFit {M : Greedy} (hfits : StsFit G sts) (h : Prepared ndebug fuel G sts M)
    (hsts : ∀ st ∈ sts, st.Over G) : OptimizedFit M := by
  intro st hst
  obtain ⟨st', hst', hle⟩ := h.length_le hsts st hst
  exact (Nat.mul_le_mul h.graph.length_eq.le hle).trans_lt (hfits st' hst')

/-- Then the run returns what it returns on natural numbers. -/
theorem run_eq (hpos : G.Positive) (hsts : ∀ st ∈ sts, st.Over G)
    (hfits : StsFit G sts ∨ ∀ M, prepare ndebug fuel timedOut G sts = .ok M → OptimizedFit M) :
    run ndebug fuel timedOut G sts = Clou.run ndebug fuel timedOut G sts := by
  unfold run Clou.run
  cases hM : Clou.prepare ndebug fuel timedOut G sts with
  | error fault =>
    simp only [prepare, hM]
    rfl
  | ok M =>
    have hprepared := prepare_ok hM
    have hprepare : prepare ndebug fuel timedOut G sts =
        .ok { M with solve := fordFulkersonMulti ndebug fuel } := by
      simp only [prepare, hM]
      rfl
    have hoptimized : OptimizedFit M := by
      rcases hfits with hgiven | hfit
      · exact hgiven.optimizedFit hprepared hsts
      · -- the solver is replaced, the STs are the same
        have hM' := hfit _ hprepare
        exact hM'
    have hsame : ∀ G' X, Minus M.OrigG G' X → ∀ st ∈ M.sts,
        fordFulkersonMulti ndebug fuel G' st.waypoints = M.solve G' st.waypoints := by
      intro G' X hminus st hst
      obtain ⟨hlen, hlt⟩ := (hprepared.optimized hsts).1 st hst
      have hfit : Fits G' st.waypoints := by
        rw [Fits, hminus.length_eq]
        exact hoptimized st hst
      rw [hprepared.solve]
      refine hfit.fordFulkersonMulti_eq (hminus.wf (hprepared.wf hpos)) hlen ?_ ndebug fuel
      rwa [hminus.length_eq]
    have hloop := Greedy.loop_congr hprepared.solvesEdges hsame fuel
    rw [hprepare]
    change (Greedy.loop { M with solve := _ } fuel >>= _) = (M.loop fuel >>= _)
    rw [hloop]

/-! ## Soundness -/

/-- Whenever the run returns and the copies of the nodes could be numbered for every given ST, or
at least for every optimised one, the result consists of edges of the graph, and without these
none of the given STs has a walk. -/
theorem run_sound {ndebug : Bool} {fuel : Nat} {timedOut : Nat → Bool} {G : NodeGraph Node}
    {sts : List (ST Node)} {cutEdges : List (NodeEdge Node)} (hpos : G.Positive)
    (hsts : ∀ st ∈ sts, st.Over G)
    (hfits : (∀ st ∈ sts, (getNodes G).size * st.waypoints.length < UInt32.size) ∨
      ∀ M, prepare ndebug fuel timedOut G sts = .ok M → OptimizedFit M)
    (hret : run ndebug fuel timedOut G sts = .ok cutEdges) :
    (∀ e ∈ cutEdges, G.Edge e.src e.dst) ∧
      ∀ st ∈ sts, ¬ Walk.HasWalk (Walk.without G.Edge (nodeEdgeSet cutEdges)) st.waypoints :=
  (run_separates hpos hsts (run_eq hpos hsts hfits ▸ hret)).2

/-- Two STs that share an edge, over nodes that are not their own positions. -/
theorem run_sound_chain :
    let G : NodeGraph Nat := ⟨[(5, ⟨[(7, 2)], by decide⟩), (7, ⟨[(9, 1)], by decide⟩)], by decide⟩
    let sts : List (ST Nat) := [⟨[.ofList [5], .ofList [9]]⟩, ⟨[.ofList [5, 7], .ofList [9]]⟩]
    let cutEdges : List (NodeEdge Nat) := [⟨7, 9⟩]
    (∀ e ∈ cutEdges, G.Edge e.src e.dst) ∧
      ∀ st ∈ sts, ¬ Walk.HasWalk (Walk.without G.Edge (nodeEdgeSet cutEdges)) st.waypoints :=
  @run_sound Nat _ false 10 (fun _ => false) _ _ _ (by decide) (by decide) (.inl (by decide))
    (by decide +kernel)

/-! ## When the Solver Returns Nothing -/

/-- A loop whose solver returns no edges for its STs makes one pass and cuts nothing. -/
theorem loop_of_nothing {M : Greedy} (h : ∀ st ∈ M.sts, M.solve M.OrigG st.waypoints = .ok [])
    (fuel : Nat) : M.loop (fuel + 1) = .ok { M.init with passes := 1 } := by
  have hstep (st : IdxST) (i : Nat) (hst : st ∈ M.sts) : M.stepSt M.init (st, i) = .ok M.init := by
    have hold : M.init.cuts.getD i [] = [] := by
      rw [Greedy.init, List.getD_eq_getElem?_getD, List.getElem?_replicate]
      split_ifs <;> rfl
    have hset : M.init.cuts.set i [] = M.init.cuts := by
      simp [Greedy.init, List.set_replicate_self]
    have hadd : M.addOldCut M.init.mode [] M.init.G = .ok M.init.G := rfl
    have hsolve : M.solve M.init.G st.waypoints = .ok [] := h st hst
    have hnew : Greedy.newCut M.init.mode [] [] = [] := rfl
    simp only [Greedy.stepSt, hold, hadd, bind, Except.bind, hsolve, hnew, List.foldlM_nil, pure,
      Except.pure, hset]
    rfl
  have hpass : M.sts.zipIdx.foldlM M.stepSt M.init = .ok M.init := by
    have key (l : List (IdxST × Nat)) (hl : ∀ e ∈ l, e.1 ∈ M.sts) :
        l.foldlM M.stepSt M.init = .ok M.init := by
      induction l with
      | nil => rfl
      | cons e l ih =>
        obtain ⟨he, hl⟩ := List.forall_mem_cons.mp hl
        rw [List.foldlM_cons, hstep e.1 e.2 he]
        exact ih hl
    exact key _ fun e he => List.fst_mem_of_mem_zipIdx he
  have hend : M.endPass M.init = .ok ({ M.init with passes := 1 }, false) := by
    have hflat : M.init.cuts.flatten = [] := by simp [Greedy.init]
    simp only [Greedy.endPass, Greedy.remember, Greedy.init] at hflat ⊢
    simp [pure, Except.pure, bind, Except.bind, Greedy.checkRedundant, hflat, uniqueInPlace]
  change doWhile M.pass (fuel + 1) M.init = _
  have hround : M.pass M.init = .ok ({ M.init with passes := 1 }, false) := by
    change (M.sts.zipIdx.foldlM M.stepSt M.init >>= M.endPass) = _
    rw [hpass]
    exact hend
  simp only [doWhile, hround]
  rfl

/-- When the count of the copies wraps around to zero for every optimised ST, nothing is cut. -/
theorem run_of_wrapped {M : Greedy} (hM : Clou.prepare ndebug (fuel + 1) timedOut G sts = .ok M)
    (hsts : ∀ st ∈ M.sts, 2 ≤ st.waypoints.length ∧
      wrap (M.OrigG.length * st.waypoints.length) = 0) :
    run ndebug (fuel + 1) timedOut G sts = .ok [] := by
  have hloop := loop_of_nothing (M := { M with solve := fordFulkersonMulti ndebug (fuel + 1) })
    (fun st hst => fordFulkersonMulti_of_nodes_eq_zero (hsts st hst).2 (hsts st hst).1 _ _) fuel
  simp only [run, prepare, hM]
  change (Greedy.loop _ (fuel + 1) >>= _) = _
  rw [hloop]
  simp [bind, Except.bind, Greedy.init]
  rfl

/-! ## A Long ST That Is Not Optimised

Between the nodes `0` and `1` there are all edges. An ST that goes back and forth between
them has no useless waypoint, and no set of it can be dropped. -/

section Zigzag

variable {IG : IdxGraph} {a k : Nat}

/-- `k` sets, in turn of `a` and of the other node. -/
def zigzag : Nat → Nat → List (OrdSet Idx)
  | 0, _ => []
  | k + 1, a => .ofList [a] :: zigzag k (1 - a)

@[simp] theorem length_zigzag (k a : Nat) : (zigzag k a).length = k := by
  induction k generalizing a with
  | zero => rfl
  | succ k ih => rw [zigzag, List.length_cons, ih]

theorem mem_zigzag (ha : a < 2) {S : OrdSet Idx} (hS : S ∈ zigzag k a) :
    ∃ b : Nat, b < 2 ∧ S = .ofList [b] := by
  induction k generalizing a with
  | zero => exact absurd hS List.not_mem_nil
  | succ k ih =>
    rcases List.mem_cons.mp hS with rfl | hS
    · exact ⟨a, ha, rfl⟩
    · exact ih (by omega) hS

/-- All edges between the nodes `0` and `1`. -/
structure Linked (IG : IdxGraph) : Prop where
  closed : IG.Closed
  edge : ∀ a b : Nat, a < 2 → b < 2 → IG.Edge a b

theorem hasWalk_zigzag {E : Idx → Idx → Prop} (hE : ∀ a b : Nat, a < 2 → b < 2 → E a b)
    (ha : a < 2) : Walk.HasWalk E (zigzag k a) := by
  refine Walk.hasWalk_iff_visits.mpr ?_
  have key (P : Idx → Prop) (hP : P a) : Walk.Visits E P (zigzag k a) := by
    induction k generalizing a P with
    | zero => trivial
    | succ k ih =>
      exact ⟨a, by simp, hP, ih (by omega) _ (.single (hE a _ ha (by omega)))⟩
  exact key _ trivial

theorem cullUnreachables_zigzag (h : Linked IG) (ha : a < 2) :
    cullUnreachables IG (.ofList [a]) (zigzag k (1 - a)) = (zigzag k (1 - a), 0) := by
  induction k generalizing a with
  | zero => rfl
  | succ k ih =>
    have hother : 1 - a < 2 := by omega
    have hkeep : (OrdSet.ofList [1 - a]).filter
        (reachSkipping IG (fun _ => false) (.ofList [a])) = .ofList [1 - a] := by
      refine OrdSet.filter_eq_self fun v hv => (reachSkipping_iff h.closed).mpr ⟨a, by simp, ?_⟩
      obtain rfl : v = 1 - a := by simpa using hv
      exact .single ⟨h.edge a _ ha hother, by simp⟩
    simp only [zigzag, cullUnreachables, hkeep, ih hother, Nat.sub_self, Nat.add_zero]

theorem cullSources_zigzag (h : Linked IG) (ha : a < 2) :
    cullSources IG (zigzag k a) = (zigzag k a, false) := by
  induction k generalizing a with
  | zero => rfl
  | succ k ih =>
    cases k with
    | zero => rfl
    | succ k =>
      have hother : 1 - a < 2 := by omega
      have hreached : reachedT IG (.ofList [a]) (.ofList [1 - a]) a = true :=
        (reachedT_iff h.closed).mpr ⟨a, .refl, 1 - a, by simp, h.edge a _ ha hother⟩
      have hleg : cullSourcesLeg IG (.ofList [1 - a]) (OrdSet.ofList [a]).toList (.ofList [a]) =
          (.ofList [a], false) := by
        change cullSourcesLeg IG (.ofList [1 - a]) [a] (.ofList [a]) = _
        rw [cullSourcesLeg, if_pos hreached, cullSourcesLeg]
      have hrest := ih hother
      simp only [zigzag] at hrest ⊢
      simp only [cullSources, hleg, hrest, Bool.or_self]

theorem removeRedundant_zigzag (h : Linked IG) (ha : a < 2) :
    removeRedundantInternal IG (.ofList [a]) (zigzag k (1 - a)) = (zigzag k (1 - a), false) := by
  induction k generalizing a with
  | zero => rfl
  | succ k ih =>
    cases k with
    | zero => rfl
    | succ k =>
      have hother : 1 - a < 2 := by omega
      have hagain : 1 - (1 - a) < 2 := by omega
      -- the third set is the first one again, and an edge leads around the second
      have hdirect :
          noACPath IG (.ofList [a]) (.ofList [1 - a]) (.ofList [1 - (1 - a)]) = false := by
        refine Bool.eq_false_iff.mpr fun hno => ?_
        refine (noACPath_iff h.closed).mp hno (1 - (1 - a)) (by simp) a (by simp) (.single ⟨?_, ?_⟩)
        · exact h.edge a _ ha hagain
        · change ¬ 1 - (1 - a) ∈ OrdSet.ofList [1 - a]
          rw [OrdSet.mem_ofList, List.mem_singleton]
          omega
      have hrest := ih hother
      simp only [zigzag] at hrest ⊢
      simp only [removeRedundantInternal, hdirect, hrest, Bool.false_eq_true, if_false]

/-- A single ST is joined with nothing. -/
theorem optimizeStsJoin_single (st : IdxST) (G : IdxGraph) :
    optimizeStsJoin [st] G = ([st], false) := by
  have hat (i : Nat) (hi : i < st.waypoints.length) : joinAt [st] i = [st] := by
    have hunion : (∅ : OrdSet Idx).union (st.waypoints.getD i ∅) = st.waypoints[i] := by
      refine OrdSet.ext fun u => ?_
      rw [OrdSet.mem_union, List.getD_eq_getElem?_getD, List.getElem?_eq_getElem hi]
      simp
    change [IdxST.mk ((st.waypoints.eraseIdx i).insertIdx i
      ((∅ : OrdSet Idx).union (st.waypoints.getD i ∅)))] = [st]
    rw [hunion, List.insertIdx_eraseIdx_getElem hi]
  have hpool : joinPool st.waypoints.length [st] = [st] := by
    unfold joinPool
    refine List.foldlRecOn (motive := (· = [st])) _ _ rfl fun pool hpool i hi => ?_
    rw [hpool]
    exact hat i (List.mem_range.mp hi)
  have hjoin : ((pools [st]).entries.flatMap fun e => joinPool e.1 e.2) = [st] := by
    change (joinPool st.waypoints.length [st] ++ []) = [st]
    rw [hpool]
    rfl
  simp [optimizeStsJoin, hjoin]

/-- The optimisation leaves the ST as it is. -/
theorem optimizeSts_zigzag (h : Linked IG) (ha : a < 2) (fuel : Nat) :
    optimizeSts (fuel + 1) [⟨zigzag (k + 1) a⟩] IG = .ok [⟨zigzag (k + 1) a⟩] := by
  have hlocal : applyOpts localOpts ⟨zigzag (k + 1) a⟩ IG = (⟨zigzag (k + 1) a⟩, false) := by
    have hcull : optimizeStsCullUnreachables ⟨zigzag (k + 1) a⟩ IG =
        (⟨zigzag (k + 1) a⟩, false) := by
      simp [optimizeStsCullUnreachables, zigzag, cullUnreachables_zigzag h ha]
    have hsources : optimizeStsCullSources ⟨zigzag (k + 1) a⟩ IG =
        (⟨zigzag (k + 1) a⟩, false) := by
      simp [optimizeStsCullSources, cullSources_zigzag h ha]
    have hredundant : optimizeStsRemoveRedundantInternalSt ⟨zigzag (k + 1) a⟩ IG =
        (⟨zigzag (k + 1) a⟩, false) := by
      simp [optimizeStsRemoveRedundantInternalSt, zigzag, removeRedundant_zigzag h ha]
    simp [applyOpts, localOpts, optimizeStNop, hcull, hsources, hredundant]
  have hfull : hasEmptyset ⟨zigzag (k + 1) a⟩ = false := by
    refine List.any_eq_false.mpr fun S hS => ?_
    obtain ⟨b, -, rfl⟩ := mem_zigzag ha hS
    rw [OrdSet.isEmpty_eq_false_iff.mpr ⟨b, by simp⟩]
    exact Bool.false_ne_true
  have hglobal : applyOpts globalOpts [⟨zigzag (k + 1) a⟩] IG = ([⟨zigzag (k + 1) a⟩], false) := by
    have hunique : sortUnique [IdxST.mk (zigzag (k + 1) a)] = [⟨zigzag (k + 1) a⟩] := by
      simp [sortUnique]
    simp [applyOpts, globalOpts, optimizeStsNop, optimizeStsRemoveEmptyset, removeEmptyset, hfull,
      optimizeStsRemoveDuplicates, hunique]
  have hround : optimizeRound IG [⟨zigzag (k + 1) a⟩] = ([⟨zigzag (k + 1) a⟩], false) := by
    simp [optimizeRound, applyOpts, optimizeStsJoin_single, optimizeLocals] at hlocal hglobal ⊢
    simp [hlocal, hglobal]
  simp only [optimizeSts, doWhile, hround]
  rfl

end Zigzag

/-! ## Its Walks Are Missed -/

section Missed

variable {n k : Nat}

/-- `n` nodes, and all edges between the first two of them. -/
def pairGraph (n : Nat) : NodeGraph Nat where
  entries := (List.range n).map fun u =>
    (u, if u < 2 then ⟨[(0, 1), (1, 1)], by decide⟩ else ∅)
  sorted := List.pairwise_map.mpr List.pairwise_lt_range

theorem mem_pairGraph {u : Nat} {dsts : OrdMap Nat Weight} :
    (u, dsts) ∈ (pairGraph n).entries ↔
      u < n ∧ (if u < 2 then ⟨[(0, 1), (1, 1)], by decide⟩ else ∅) = dsts := by
  simp [pairGraph]

theorem edge_pairGraph (hn : 2 ≤ n) (u v : Nat) (hu : u < 2) (hv : v < 2) :
    (pairGraph n).WeightedEdge u v 1 := by
  refine ⟨_, mem_pairGraph.mpr ⟨by omega, rfl⟩, ?_⟩
  rw [if_pos hu]
  have hcases : v = 0 ∨ v = 1 := by omega
  rcases hcases with rfl | rfl <;> simp

theorem row_pairGraph {e : Nat × OrdMap Nat Weight} (he : e ∈ (pairGraph n).entries) :
    e.1 < n ∧ ∀ d ∈ e.2.entries, d.1 < 2 ∧ d.2 = 1 := by
  obtain ⟨hlt, hdsts⟩ := mem_pairGraph.mp he
  refine ⟨hlt, fun d hd => ?_⟩
  rw [← hdsts] at hd
  split_ifs at hd
  · rcases List.mem_cons.mp hd with rfl | hd
    · exact ⟨by decide, rfl⟩
    · obtain rfl := List.mem_singleton.mp hd
      exact ⟨by decide, rfl⟩
  · exact absurd hd List.not_mem_nil

theorem positive_pairGraph (n : Nat) : (pairGraph n).Positive := by
  intro e he d hd
  rw [((row_pairGraph he).2 d hd).2]
  decide

theorem mem_getNodes_pairGraph (hn : 2 ≤ n) {u : Nat} : u ∈ getNodes (pairGraph n) ↔ u < n := by
  refine mem_getNodes.trans ⟨?_, fun hu => ⟨_, mem_pairGraph.mpr ⟨hu, rfl⟩, .inl rfl⟩⟩
  rintro ⟨e, he, rfl | hu⟩
  · exact (row_pairGraph he).1
  · obtain ⟨w, hw⟩ := OrdMap.mem_keys.mp hu
    have hlt : u < 2 := ((row_pairGraph he).2 _ hw).1
    omega

theorem getNodes_pairGraph (hn : 2 ≤ n) : (getNodes (pairGraph n)).toList = List.range n :=
  OrdSet.eq_of_mem_iff (getNodes _).sorted List.pairwise_lt_range fun _ =>
    (mem_getNodes_pairGraph hn).trans List.mem_range.symm

theorem lowerBound_range {u : Nat} (hu : u < n) : lowerBound (List.range n) u = u := by
  have hfound := getElem?_lowerBound List.pairwise_lt_range (List.mem_range.mpr hu)
  obtain ⟨hlt, hget⟩ := List.getElem?_eq_some_iff.mp hfound
  rwa [List.getElem_range] at hget

/-- Every graph is indexed. -/
theorem indexGraph_returns {Node : Type} [LinearOrder Node] (ndebug : Bool) (G : NodeGraph Node) :
    ∃ IG, indexGraph ndebug (getNodes G).toList G = .ok IG := by
  refine Exec.foldlM_total (fun e he IG => ?_) _
  have hsrc : nodeToIdx ndebug (getNodes G).toList e.1 = _ :=
    positionOf_mem (getNodes G).sorted (mem_getNodes.mpr ⟨e, he, .inl rfl⟩)
  refine Exec.bind_returns hsrc (Exec.foldlM_total (fun d hd IG => ?_) _)
  have hdst : nodeToIdx ndebug (getNodes G).toList d.1 = _ := positionOf_mem (getNodes G).sorted
    (mem_getNodes.mpr ⟨e, he, .inr (OrdMap.mem_keys.mpr ⟨d.2, hd⟩)⟩)
  exact Exec.bind_returns hdst ⟨_, rfl⟩

/-- The nodes of the ST are their own positions. -/
theorem indexSt_zigzag (hn : 2 ≤ n) (ndebug : Bool) :
    indexSt ndebug (List.range n) ⟨zigzag k 0⟩ = .ok ⟨zigzag k 0⟩ := by
  have hway {b : Nat} (hb : b < 2) :
      indexWay ndebug (List.range n) (.ofList [b]) = .ok (.ofList [b]) := by
    have hidx : nodeToIdx ndebug (List.range n) b = .ok b := by
      rw [nodeToIdx, positionOf_mem List.pairwise_lt_range (List.mem_range.mpr (by omega)),
        lowerBound_range (by omega)]
    change ([b].mapM (nodeToIdx ndebug (List.range n)) >>= _) = _
    rw [List.mapM_cons, hidx]
    rfl
  have hways : (zigzag k 0).mapM (indexWay ndebug (List.range n)) = .ok (zigzag k 0) := by
    have hall : ∀ S ∈ zigzag k 0, indexWay ndebug (List.range n) S = .ok S := by
      intro S hS
      obtain ⟨b, hb, rfl⟩ := mem_zigzag (by decide) hS
      exact hway hb
    generalize zigzag k 0 = Ws at hall
    induction Ws with
    | nil => rfl
    | cons S Ws ih =>
      obtain ⟨hS, hWs⟩ := List.forall_mem_cons.mp hall
      rw [List.mapM_cons, hS, ih hWs]
      rfl
  simp only [indexSt, hways]
  rfl

/-- When there are as many copies of the nodes as there are numbers, or a multiple of that, the run
cuts nothing, and the walks through the ST remain. -/
theorem run_pairGraph (hn : 2 ≤ n) (hk : 2 ≤ k) (hwrap : wrap (n * k) = 0) (ndebug : Bool)
    (fuel : Nat) (timedOut : Nat → Bool) :
    run ndebug (fuel + 1) timedOut (pairGraph n) [⟨zigzag k 0⟩] = .ok [] := by
  obtain ⟨IG, hIG⟩ := indexGraph_returns ndebug (pairGraph n)
  have hindexes := indexGraph_indexes hIG
  have hnodes := getNodes_pairGraph hn
  have hlinked : Linked IG := by
    refine ⟨hindexes.closed, fun a b ha hb => ?_⟩
    have hedge := hindexes.complete a b 1 (edge_pairGraph hn a b ha hb)
    rwa [hnodes, lowerBound_range (by omega), lowerBound_range (by omega)] at hedge
  obtain ⟨k, rfl⟩ : ∃ l, k = l + 1 := ⟨k - 1, by omega⟩
  have hM : Clou.prepare ndebug (fuel + 1) timedOut (pairGraph n) [⟨zigzag (k + 1) 0⟩] =
      .ok ⟨IG, [⟨zigzag (k + 1) 0⟩], Clou.fordFulkersonMulti ndebug (fuel + 1), timedOut,
        ndebug⟩ := by
    have hists : [ST.mk (zigzag (k + 1) 0)].mapM (indexSt ndebug (List.range n)) =
        .ok [⟨zigzag (k + 1) 0⟩] := by
      rw [List.mapM_cons, indexSt_zigzag hn]
      rfl
    rw [hnodes] at hIG
    simp only [Clou.prepare, hnodes, hIG, hists, bind, Except.bind,
      optimizeSts_zigzag hlinked (show 0 < 2 by decide)]
    rfl
  refine run_of_wrapped hM fun st hst => ?_
  obtain rfl := List.mem_singleton.mp hst
  have hlen : IG.length = n := by rw [hindexes.length_eq, hnodes, List.length_range]
  simp only [length_zigzag, hlen]
  exact ⟨hk, hwrap⟩

/-- With 65536 nodes and an ST of as many sets the run returns no edges, and leaves a walk. -/
theorem run_misses_walk :
    let G := pairGraph 65536
    let sts : List (ST Nat) := [⟨zigzag 65536 0⟩]
    G.Positive ∧ (∀ st ∈ sts, st.Over G) ∧
      ∃ cutEdges, run false 1 (fun _ => false) G sts = .ok cutEdges ∧
        ∃ st ∈ sts, Walk.HasWalk (Walk.without G.Edge (nodeEdgeSet cutEdges)) st.waypoints := by
  intro G sts
  refine ⟨positive_pairGraph _, fun st hst => ?_, [],
    run_pairGraph (by decide) (by decide) (by decide) false 0 _, _, List.mem_singleton_self _, ?_⟩
  · obtain rfl := List.mem_singleton.mp hst
    refine ⟨by simp, fun W hW u hu => ?_⟩
    obtain ⟨b, hb, rfl⟩ := mem_zigzag (by decide) hW
    obtain rfl : u = b := by simpa using hu
    exact (mem_getNodes_pairGraph (by decide)).mpr (by omega)
  · exact hasWalk_zigzag (fun a b ha hb => ⟨⟨1, edge_pairGraph (by decide) a b ha hb⟩, by
      simp [nodeEdgeSet]⟩) (by decide)

end Missed

end Clou.Words
