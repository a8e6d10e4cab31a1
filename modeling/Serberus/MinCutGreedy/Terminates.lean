-- SUMMARY: The greedy loop terminates: the history is finite, and behind the mode switch two passes are enough.
import Mathlib.Data.List.Sections
import Serberus.FordFulkerson.Optimal
import Serberus.MinCutGreedy.Reached

/-!
# Termination of the Greedy Loop

In mode `replace` every pass but the last adds a new element to the history, and
there are finitely many cuts. In mode `augment` the working graph only loses edges, so
a pass leaves every ST separated; the next pass then gets empty answers and changes
nothing. The solver itself is known to return for two waypoint sets, so for STs of two
sets nothing has to be assumed of it.
-/

namespace Clou

namespace Greedy

variable {M : Greedy} {s s' : State} {i : Nat} {st : IdxST}

/-- On every graph that the loop may hand it, the solver returns a valid cut. -/
def SolvesCuts (M : Greedy) : Prop :=
  ∀ G X, Minus M.OrigG G X → ∀ st ∈ M.sts,
    ∃ cut, M.solve G st.waypoints = .ok cut ∧ IsCut G st.waypoints cut

theorem SolvesCuts.solvesEdges (hcuts : M.SolvesCuts) : M.SolvesEdges := by
  intro G X hminus st hst cut hret
  obtain ⟨cut', hret', hcut⟩ := hcuts G X hminus st hst
  obtain rfl : cut' = cut := Except.ok.inj (hret'.symm.trans hret)
  exact ⟨hcut.sorted, hcut.edge⟩

/-! ## The History -/

/-- All lists of cuts. -/
def allCuts (M : Greedy) : List Cuts :=
  let edges := sortUnique ((List.range M.OrigG.length).flatMap fun u =>
    (M.OrigG.row u).keys.map (IdxEdge.mk u))
  (List.replicate M.sts.length edges.sublists).sections

theorem Inv.mem_allCuts (h : Inv M s) : s.cuts ∈ M.allCuts := by
  refine List.mem_sections.mpr (List.forall₂_iff_get.mpr ⟨?_, fun j hj hj' => ?_⟩)
  · rw [List.length_replicate, h.length_eq]
  · simp only [List.get_eq_getElem, List.getElem_replicate, List.mem_sublists]
    have hcut := List.getElem_mem hj
    have hsorted := h.cuts.sorted _ hcut
    refine List.sublist_of_subperm_of_pairwise (List.subperm_of_subset (hsorted.imp ne_of_lt) ?_)
      hsorted (sortUnique_sorted _)
    intro e he
    have hedge := h.cuts.edge _ hcut e he
    rw [mem_sortUnique, List.mem_flatMap]
    exact ⟨e.src, List.mem_range.mpr hedge.src_lt, List.mem_map.mpr ⟨e.dst, hedge, rfl⟩⟩

/-- The history holds cuts only, and in mode `replace` one for every pass. -/
structure HistInv (M : Greedy) (s : State) : Prop where
  mem : ∀ cuts ∈ s.cutsHist, cuts ∈ M.allCuts
  size : s.mode = .replace → s.cutsHist.size = s.passes

theorem Ended.histInv (h : Ended M s s') (hchanged : s.changed = true) (hinv : Inv M s)
    (hhist : HistInv M s) : HistInv M s' := by
  by_cases hknown : s.cuts ∈ s.cutsHist
  · obtain ⟨hmode, heq⟩ := h.known hchanged hknown
    refine ⟨by rw [heq]; exact hhist.mem, fun hreplace => ?_⟩
    rw [hmode] at hreplace
    cases hreplace
  · obtain ⟨heq, hmode⟩ := h.fresh hchanged hknown
    refine ⟨fun cuts hcuts => ?_, fun hreplace => ?_⟩
    · rw [heq] at hcuts
      rcases OrdSet.mem_insert.mp hcuts with rfl | hcuts
      · exact hinv.mem_allCuts
      · exact hhist.mem cuts hcuts
    · rcases hmode with hmode | hmode
      · rw [heq, OrdSet.size_insert hknown, h.passes, hhist.size (hmode ▸ hreplace)]
      · rw [hmode] at hreplace
        cases hreplace

theorem Reached.histInv (hsolve : M.SolvesEdges) (h : M.Reached s i) :
    HistInv M s := by
  induction h with
  | start => exact ⟨fun _ h => absurd h List.not_mem_nil, fun _ => rfl⟩
  | st h hi hstep ih =>
    obtain ⟨G₀, tmp, hstepped, -⟩ := stepSt_ok hsolve (h.inv hsolve) hi (List.getElem_mem hi) hstep
    refine ⟨by rw [hstepped.hist]; exact ih.mem, fun hmode => ?_⟩
    rw [hstepped.hist, hstepped.passes]
    exact ih.size (hstepped.mode ▸ hmode)
  | pass h hend ih =>
    obtain ⟨hagain, hended⟩ := endPass_ok hend
    have hhist := hended.histInv hagain.symm (h.inv hsolve) ih
    exact ⟨hhist.mem, hhist.size⟩

/-- After as many passes as there are cuts, a pass changes nothing or its cuts are known. -/
theorem Reached.known (hsolve : M.SolvesEdges) (h : M.Reached s i)
    (hmode : s.mode = .replace) (hpasses : M.allCuts.length ≤ s.passes) : s.cuts ∈ s.cutsHist := by
  by_contra hfresh
  have hhist := h.histInv hsolve
  have hmem : ∀ cuts ∈ s.cutsHist.insert s.cuts, cuts ∈ M.allCuts := by
    intro cuts hcuts
    rcases OrdSet.mem_insert.mp hcuts with rfl | hcuts
    · exact (h.inv hsolve).mem_allCuts
    · exact hhist.mem cuts hcuts
  have hle := OrdSet.size_le_length hmem
  rw [OrdSet.size_insert hfresh, hhist.size hmode] at hle
  omega

/-! ## Passes That Return -/

theorem SolvesCuts.stepSt (hcuts : M.SolvesCuts)
    (h : Inv M s) (hi : i < M.sts.length) :
    ∃ s' G₀ tmp, M.stepSt s (M.sts[i], i) = .ok s' ∧ Stepped M s s' M.sts[i] i G₀ tmp ∧
      Inv M s' ∧ IsCut G₀ M.sts[i].waypoints tmp := by
  obtain ⟨G₀, hminus, -, hok⟩ := stepSt_spec hcuts.solvesEdges h hi (List.getElem_mem hi)
  obtain ⟨tmp, hret, hcut⟩ := hcuts G₀ _ hminus _ (List.getElem_mem hi)
  obtain ⟨s', hstep, hstepped, hinv⟩ := hok tmp hret
  exact ⟨s', G₀, tmp, hstep, hstepped, hinv, hcut⟩

/-- A pass returns when its steps do; `Q` may speak of the STs that have been processed. -/
theorem foldlM_returns {Q : Nat → State → Prop}
    (hstep : ∀ i s, (hi : i < M.sts.length) → Q i s →
      ∃ s', M.stepSt s (M.sts[i], i) = .ok s' ∧ Q (i + 1) s') (h : Q 0 s) :
    ∃ s', M.sts.zipIdx.foldlM M.stepSt s = .ok s' ∧ Q M.sts.length s' := by
  have key (sts : List IdxST) (i : Nat) (s : State) (hsts : M.sts.drop i = sts)
      (hle : i ≤ M.sts.length) (h : Q i s) :
      ∃ s', (sts.zipIdx i).foldlM M.stepSt s = .ok s' ∧ Q M.sts.length s' := by
    induction sts generalizing i s with
    | nil =>
      have hi : i = M.sts.length := Nat.le_antisymm hle (List.drop_eq_nil_iff.mp hsts)
      exact ⟨s, rfl, hi ▸ h⟩
    | cons st sts ih =>
      have hi : i < M.sts.length := by
        by_contra hge
        rw [List.drop_eq_nil_of_le (Nat.le_of_not_lt hge)] at hsts
        cases hsts
      rw [List.drop_eq_getElem_cons hi] at hsts
      obtain ⟨rfl, hrest⟩ := List.cons.inj hsts
      obtain ⟨s₁, hs₁, hQ⟩ := hstep i s hi h
      rw [List.zipIdx_cons, List.foldlM_cons, hs₁]
      exact ih (i + 1) s₁ hrest hi hQ
  exact key M.sts 0 s (List.drop_zero ..) (Nat.zero_le _) h

theorem pass_eq {s₁ : State}
    (hfold : M.sts.zipIdx.foldlM M.stepSt { s with changed := false } = .ok s₁) : M.pass s = M.endPass s₁ := by
  simp only [pass, hfold, bind, Except.bind]

/-- Every pass returns. When it asks for another one in mode `replace`, the passes
have not outnumbered the cuts. -/
theorem SolvesCuts.pass (hcuts : M.SolvesCuts)
    (hndebug : M.ndebug = true) (h : M.Reached { s with changed := false } 0) :
    ∃ s' again, M.pass s = .ok (s', again) ∧ (again = true → s'.mode = .replace →
      s.passes < M.allCuts.length ∧ s'.passes = s.passes + 1) := by
  let Q (i : Nat) (s' : State) : Prop := M.Reached s' i ∧ s'.passes = s.passes
  obtain ⟨s₁, hfold, hs₁, hpasses⟩ := foldlM_returns (Q := Q) (fun i s₀ hi hQ => by
    obtain ⟨hreached, hpasses⟩ := hQ
    obtain ⟨s', _, _, hstep, hstepped, -⟩ := hcuts.stepSt (hreached.inv hcuts.solvesEdges) hi
    exact ⟨s', hstep, hreached.st hi hstep, hstepped.passes.trans hpasses⟩) ⟨h, rfl⟩
  obtain ⟨s₂, hend⟩ := endPass_returns hndebug s₁
  obtain ⟨-, hended⟩ := endPass_ok hend
  refine ⟨s₂, s₁.changed, by rw [pass_eq hfold, hend], fun hchanged hmode => ?_⟩
  have hfresh : s₁.cuts ∉ s₁.cutsHist := by
    intro hknown
    rw [(hended.known hchanged hknown).1] at hmode
    cases hmode
  have hmode₁ : s₁.mode = .replace := by
    rcases (hended.fresh hchanged hfresh).2 with heq | heq
    · exact heq ▸ hmode
    · rw [heq] at hmode
      cases hmode
  rw [hended.passes, hpasses]
  refine ⟨Nat.lt_of_not_le fun hle => hfresh ?_, rfl⟩
  exact hs₁.known hcuts.solvesEdges hmode₁ (hpasses ▸ hle)

/-! ## Augmenting -/

/-- No walk through the waypoints of `st` is left. -/
def Separated (s : State) (st : IdxST) : Prop := ¬ Walk.HasWalk s.G.Edge st.waypoints

/-- A pass in mode `augment` separates all STs. -/
theorem SolvesCuts.augment_pass (hcuts : M.SolvesCuts) (hndebug : M.ndebug = true)
    (h : Inv M { s with changed := false }) (hmode : s.mode = .augment) :
    ∃ s' again, M.pass s = .ok (s', again) ∧ Inv M s' ∧
      s'.mode = .augment ∧ ∀ st ∈ M.sts, Separated s' st := by
  let Q (i : Nat) (s : State) : Prop := Inv M s ∧ s.mode = .augment ∧
    ∀ j (hj : j < M.sts.length), j < i → Separated s M.sts[j]
  obtain ⟨s₁, hfold, hinv, hmode₁, hsep⟩ := foldlM_returns (Q := Q) (fun i s hi hQ => by
    obtain ⟨hinv, hmode, hsep⟩ := hQ
    obtain ⟨s', G₀, tmp, hstep, hstepped, hinv', hcut⟩ := hcuts.stepSt hinv hi
    have hedge := hstepped.edge_eq hcuts.solvesEdges hinv hinv' hi (List.getElem_mem hi)
    refine ⟨s', hstep, hinv', hstepped.mode.trans hmode, fun j hj hlt hwalk => ?_⟩
    rw [hedge] at hwalk
    rcases Nat.lt_or_eq_of_le (Nat.le_of_lt_succ hlt) with hlt | rfl
    · -- the working graph only loses edges
      refine hsep j hj hlt (hwalk.mono fun u v huv => ?_)
      rw [← hstepped.edge_eq_of_augment hinv hi hmode]
      exact huv.1
    · exact hcut.separates hwalk) ⟨h, hmode, fun _ _ h => absurd h (Nat.not_lt_zero _)⟩
  obtain ⟨s₂, hend⟩ := endPass_returns hndebug s₁
  obtain ⟨-, hended⟩ := endPass_ok hend
  refine ⟨s₂, s₁.changed, by rw [pass_eq hfold, hend], hended.inv hinv, ?_, fun st hst => ?_⟩
  · cases hchanged : s₁.changed with
    | false => exact (hended.unchanged hchanged).1.trans hmode₁
    | true =>
      by_cases hknown : s₁.cuts ∈ s₁.cutsHist
      · exact (hended.known hchanged hknown).1
      · exact (hended.fresh hchanged hknown).2.elim (·.trans hmode₁) id
  · obtain ⟨j, hj, rfl⟩ := List.mem_iff_getElem.mp hst
    unfold Separated
    rw [hended.G]
    exact hsep j hj hj

/-- When all STs are separated, a pass in mode `augment` is the last one. -/
theorem SolvesCuts.augment_last (hcuts : M.SolvesCuts) (hndebug : M.ndebug = true)
    (h : Inv M { s with changed := false }) (hmode : s.mode = .augment)
    (hsep : ∀ st ∈ M.sts, Separated s st) : ∃ s', M.pass s = .ok (s', false) := by
  let Q (_ : Nat) (s : State) : Prop := Inv M s ∧ s.mode = .augment ∧ s.changed = false ∧
    ∀ st ∈ M.sts, Separated s st
  obtain ⟨s₁, hfold, -, -, hchanged, -⟩ := foldlM_returns (Q := Q) (fun i s hi hQ => by
    obtain ⟨hinv, hmode, hchanged, hsep⟩ := hQ
    obtain ⟨s', G₀, tmp, hstep, hstepped, hinv', hcut⟩ := hcuts.stepSt hinv hi
    have hedge := hstepped.edge_eq hcuts.solvesEdges hinv hinv' hi (List.getElem_mem hi)
    have hsame := hstepped.edge_eq_of_augment hinv hi hmode
    -- the ST is separated already, so the solver answers nothing
    have htmp : tmp = [] := by
      refine hcut.empty ?_
      rw [hsame]
      exact hsep _ (List.getElem_mem hi)
    have hold := (hinv.split hi).sorted _ (.head _)
    refine ⟨s', hstep, hinv', hstepped.mode.trans hmode, ?_, fun st hst hwalk => hsep st hst ?_⟩
    · rw [hstepped.changed, hmode, htmp, newCut_augment_nil hold, hchanged]
      simp
    · rw [hedge, hsame] at hwalk
      exact hwalk.mono fun _ _ huv => huv.1) ⟨h, hmode, rfl, hsep⟩
  obtain ⟨s₂, hend⟩ := endPass_returns hndebug s₁
  rw [hchanged] at hend
  exact ⟨s₂, by rw [pass_eq hfold, hend]⟩

/-- Behind the mode switch two passes are enough. -/
theorem SolvesCuts.augment (hcuts : M.SolvesCuts) (hndebug : M.ndebug = true)
    (h : Inv M { s with changed := false }) (hmode : s.mode = .augment) :
    ∃ s', doWhile M.pass 2 s = .ok s' := by
  obtain ⟨s₁, again, hpass, hinv, hmode₁, hsep⟩ :=
    hcuts.augment_pass hndebug h hmode
  cases again with
  | false => exact ⟨s₁, by simp [doWhile, hpass, bind, Except.bind, pure, Except.pure]⟩
  | true =>
    obtain ⟨s₂, hlast⟩ :=
      hcuts.augment_last hndebug ⟨hinv.length_eq, hinv.cuts⟩ hmode₁ hsep
    exact ⟨s₂, by simp [doWhile, hpass, hlast, bind, Except.bind, pure, Except.pure]⟩

/-! ## The Whole Loop -/

/-- The loop returns from every pass: `n` is what the passes lack of the number of cuts. -/
theorem SolvesCuts.returns (hcuts : M.SolvesCuts) (hndebug : M.ndebug = true) {n : Nat}
    (h : M.Reached { s with changed := false } 0) (hn : M.allCuts.length ≤ s.passes + n) :
    ∃ s', doWhile M.pass (n + 3) s = .ok s' := by
  induction n using Nat.strongRecOn generalizing s with
  | ind n ih =>
    obtain ⟨s₁, again, hpass, hreplace⟩ := hcuts.pass hndebug h
    cases again with
    | false => exact ⟨s₁, by simp [doWhile, hpass, bind, Except.bind, pure, Except.pure]⟩
    | true =>
      have hagain := pass_again h hpass
      cases hmode : s₁.mode with
      | augment =>
        obtain ⟨s', hret⟩ := hcuts.augment hndebug (hagain.inv hcuts.solvesEdges) hmode
        exact ⟨s', by rw [doWhile, hpass]; exact doWhile_mono (Nat.le_add_left 2 n) hret⟩
      | replace =>
        obtain ⟨hlt, hpasses⟩ := hreplace rfl hmode
        obtain ⟨m, rfl⟩ := Nat.exists_eq_succ_of_ne_zero (show n ≠ 0 by omega)
        obtain ⟨s', hret⟩ := ih m (Nat.lt_succ_self m) hagain (by omega)
        exact ⟨s', by rw [doWhile, hpass]; exact hret⟩

/-- Whatever the clock reads, the loop terminates. In mode `replace` some pass by a
fixed number at the latest changes nothing or ends with known cuts, and behind the mode
switch the loop makes at most two more passes. -/
theorem loop_terminates (hcuts : M.SolvesCuts) (hndebug : M.ndebug = true) :
    (∃ fuel₀, ∀ fuel, fuel₀ ≤ fuel → ∃ s, M.loop fuel = .ok s) ∧
    (∃ bound, ∀ s, M.Reached s M.sts.length → s.mode = .replace → bound ≤ s.passes →
      s.changed = false ∨ s.cuts ∈ s.cutsHist) ∧
    ∀ s, M.Reached s 0 → s.mode = .augment → ∃ s', doWhile M.pass 2 s = .ok s' := by
  refine ⟨⟨M.allCuts.length + 3, fun fuel hfuel => ?_⟩, ⟨M.allCuts.length, fun s hs hmode hle => ?_⟩,
    fun s hs hmode => ?_⟩
  · obtain ⟨s, hret⟩ := hcuts.returns hndebug (s := M.init) .start (Nat.le_add_left _ _)
    exact ⟨s, doWhile_mono hfuel hret⟩
  · exact .inr (hs.known hcuts.solvesEdges hmode hle)
  · have hinv := hs.inv hcuts.solvesEdges
    exact hcuts.augment hndebug ⟨hinv.length_eq, hinv.cuts⟩ hmode

/-! ## The Solver for Pairs -/

/-- A graph weighs no more than the one that it lacks edges of. -/
theorem totalWeight_le_of_minus {OrigG G : IdxGraph} {X : Set (Idx × Idx)}
    (h : Minus OrigG G X) : G.totalWeight ≤ OrigG.totalWeight := by
  unfold IdxGraph.totalWeight
  rw [h.length_eq]
  refine Finset.sum_le_sum fun u _ => Finset.sum_le_sum fun v _ => ?_
  unfold IdxGraph.weight
  by_cases hX : (u, v) ∈ X
  · rw [h.gone u v hX]
    exact Nat.zero_le _
  · rw [h.kept u v hX]

/-- The solver itself returns valid cuts for STs of two waypoint sets. -/
theorem solvesCuts_of_pairs {ndebug : Bool} {fuel : Nat}
    (hsolve : M.solve = fordFulkersonMulti ndebug fuel) (hG : M.OrigG.WF)
    (hfuel : M.OrigG.totalWeight < fuel) (htotal : M.OrigG.totalWeight < 2 ^ 32 - 1)
    (hpairs : ∀ st ∈ M.sts, st.waypoints.length = 2 ∧
      ∀ S ∈ st.waypoints, ∀ u ∈ S, u < M.OrigG.length) : M.SolvesCuts := by
  intro G X hminus st hst
  obtain ⟨hlen, hlt⟩ := hpairs st hst
  obtain ⟨S, T, hST⟩ := List.length_eq_two.mp hlen
  rw [← hminus.length_eq, hST] at hlt
  have hwf := hminus.wf hG
  have hle := totalWeight_le_of_minus hminus
  obtain ⟨cut, hret⟩ := fordFulkersonMulti_returns ndebug hwf (hlt S (.head _))
    (hlt T (.tail _ (.head _))) (hle.trans_lt htotal)
  have hcut := hret fuel (hle.trans_lt hfuel)
  rw [hsolve, hST]
  exact ⟨cut, hcut, fordFulkersonMulti_isCut hwf le_rfl hlt hcut⟩

/-- Three STs whose cuts run in a circle, with the solver itself: the sixth pass meets known cuts,
and two passes in mode `augment` follow. -/
theorem loop_terminates_circle :
    let M : Greedy := ⟨
      [⟨[(1, 1)], by decide⟩, ⟨[(2, 1)], by decide⟩, ⟨[(0, 1), (1, 1)], by decide⟩],
      [⟨[.ofList [0, 2], .ofList [2]]⟩, ⟨[.ofList [1], .ofList [0]]⟩, ⟨[.ofList [2], .ofList [1]]⟩],
      fordFulkersonMulti true 5, fun _ => false, true⟩
    (M.loop 8).map (fun s => (s.passes, s.mode)) = .ok (8, .augment) ∧
    (∃ fuel₀, ∀ fuel, fuel₀ ≤ fuel → ∃ s, M.loop fuel = .ok s) ∧
    (∃ bound, ∀ s, M.Reached s M.sts.length → s.mode = .replace → bound ≤ s.passes →
      s.changed = false ∨ s.cuts ∈ s.cutsHist) ∧
    ∀ s, M.Reached s 0 → s.mode = .augment → ∃ s', doWhile M.pass 2 s = .ok s' :=
  ⟨by decide +kernel, loop_terminates (solvesCuts_of_pairs rfl (by decide) (by decide +kernel)
    (by decide +kernel) (by decide)) rfl⟩

end Greedy

end Clou
