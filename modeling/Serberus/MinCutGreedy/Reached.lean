-- SUMMARY: Step and run lemmas of the greedy loop: what processing one ST does, and what every run keeps.
import Serberus.MinCutGreedy.Cuts

/-!
# Runs of the Greedy Loop

`stepSt_ok` inverts the processing of one ST, `endPass_ok` the end of a pass. A run
of the loop passes through states in `Reached` only, so what these two steps keep
holds throughout every run, and a run that fails does so in a reached state.
-/

namespace Clou

namespace Greedy

variable {M : Greedy} {s s' : State} {i : Nat} {st : IdxST}

/-! ## One ST -/

/-- The solver returns sorted edges of the graphs that the loop may hand it. -/
def SolvesEdges (M : Greedy) : Prop :=
  ∀ G X, Minus M.OrigG G X → ∀ st ∈ M.sts, ∀ cut, M.solve G st.waypoints = .ok cut →
    cut.Pairwise (· < ·) ∧ ∀ e ∈ cut, G.Edge e.src e.dst

/-- What holds between the processing of two STs. -/
structure Inv (M : Greedy) (s : State) : Prop where
  length_eq : s.cuts.length = M.sts.length
  cuts : CutsInv M.OrigG s.G s.cuts

/-- `s'` is what processing `st` at position `i` makes of `s` when the solver, asked
about `G₀`, answers `tmp`. -/
structure Stepped (M : Greedy) (s s' : State) (st : IdxST) (i : Nat) (G₀ : IdxGraph)
    (tmp : List IdxEdge) : Prop where
  solve : M.solve G₀ st.waypoints = .ok tmp
  minus : Minus M.OrigG G₀
    (edgeSet (hidden s.mode (s.cuts.getD i []) (s.cuts.eraseIdx i)).flatten)
  mode : s'.mode = s.mode
  hist : s'.cutsHist = s.cutsHist
  passes : s'.passes = s.passes
  cuts : s'.cuts = s.cuts.set i (newCut s.mode (s.cuts.getD i []) tmp)
  changed : s'.changed =
    (s.changed || decide (s.cuts.getD i [] ≠ newCut s.mode (s.cuts.getD i []) tmp))

theorem Inv.split (h : Inv M s) (hi : i < M.sts.length) :
    CutsInv M.OrigG s.G (s.cuts.getD i [] :: s.cuts.eraseIdx i) := by
  have hi' : i < s.cuts.length := h.length_eq ▸ hi
  rw [List.getD_eq_getElem?_getD, List.getElem?_eq_getElem hi', Option.getD_some]
  exact h.cuts.perm (List.getElem_cons_eraseIdx_perm hi').symm

/-- Processing an ST fails only when the solver does, and otherwise keeps the invariant. -/
theorem stepSt_spec (hsolve : M.SolvesEdges) (h : Inv M s) (hi : i < M.sts.length)
    (hst : st ∈ M.sts) :
    ∃ G₀, Minus M.OrigG G₀
        (edgeSet (hidden s.mode (s.cuts.getD i []) (s.cuts.eraseIdx i)).flatten) ∧
      (∀ f, M.solve G₀ st.waypoints = .error f → M.stepSt s (st, i) = .error f) ∧
      ∀ tmp, M.solve G₀ st.waypoints = .ok tmp →
        ∃ s', M.stepSt s (st, i) = .ok s' ∧ Stepped M s s' st i G₀ tmp ∧ Inv M s' := by
  have hsplit := h.split hi
  obtain ⟨G₀, hadd, hminus⟩ := addOldCut_spec s.mode hsplit
  refine ⟨G₀, hminus, fun f hf => ?_, fun tmp htmp => ?_⟩
  · simp only [stepSt, hadd, hf, bind, Except.bind]
  · obtain ⟨hsorted, hedge⟩ := hsolve _ _ hminus _ hst _ htmp
    obtain ⟨G₁, hremove, hinv⟩ := newCut_spec hsplit hminus hsorted hedge
    have hi' : i < s.cuts.length := h.length_eq ▸ hi
    let s₁ : State := { s with
      G := G₁
      cuts := s.cuts.set i (newCut s.mode (s.cuts.getD i []) tmp)
      changed := s.changed || decide (s.cuts.getD i [] ≠ newCut s.mode (s.cuts.getD i []) tmp) }
    refine ⟨s₁, ?_, ⟨htmp, hminus, rfl, rfl, rfl, rfl, rfl⟩, ?_, ?_⟩
    · simp only [stepSt, hadd, htmp, hremove, bind, Except.bind, pure, Except.pure]
      rfl
    · exact List.length_set.trans h.length_eq
    · exact hinv.perm (List.set_perm_cons_eraseIdx hi' _).symm

theorem stepSt_ok (hsolve : M.SolvesEdges) (h : Inv M s) (hi : i < M.sts.length)
    (hst : st ∈ M.sts) (hstep : M.stepSt s (st, i) = .ok s') :
    ∃ G₀ tmp, Stepped M s s' st i G₀ tmp ∧ Inv M s' := by
  obtain ⟨G₀, -, hfault, hok⟩ := stepSt_spec hsolve h hi hst
  cases hret : M.solve G₀ st.waypoints with
  | error f =>
    rw [hfault f hret] at hstep
    cases hstep
  | ok tmp =>
    obtain ⟨s'', hstep', hstepped, hinv⟩ := hok tmp hret
    obtain rfl : s'' = s' := Except.ok.inj (hstep'.symm.trans hstep)
    exact ⟨G₀, tmp, hstepped, hinv⟩

theorem stepSt_fault (hsolve : M.SolvesEdges) (h : Inv M s) (hi : i < M.sts.length)
    (hst : st ∈ M.sts) {f : Fault} (hstep : M.stepSt s (st, i) = .error f) :
    ∃ G₀, M.solve G₀ st.waypoints = .error f := by
  obtain ⟨G₀, -, hfault, hok⟩ := stepSt_spec hsolve h hi hst
  refine ⟨G₀, ?_⟩
  cases hret : M.solve G₀ st.waypoints with
  | error f' =>
    obtain rfl : f' = f := Except.error.inj ((hfault f' hret).symm.trans hstep)
    rfl
  | ok tmp =>
    obtain ⟨s'', hstep', -⟩ := hok tmp hret
    rw [hstep'] at hstep
    cases hstep

section Stepped

variable {G₀ : IdxGraph} {tmp : List IdxEdge}

/-- The edges cut behind a step are those that were hidden from the solver and those
that it answered. -/
theorem Stepped.mem_cuts (hsolve : M.SolvesEdges) (h : Inv M s) (hi : i < M.sts.length)
    (hst : st ∈ M.sts) (hstep : Stepped M s s' st i G₀ tmp) {p : Idx × Idx} :
    p ∈ edgeSet s'.cuts.flatten ↔ p ∈ edgeSet tmp ∨
      p ∈ edgeSet (hidden s.mode (s.cuts.getD i []) (s.cuts.eraseIdx i)).flatten := by
  have hi' : i < s.cuts.length := h.length_eq ▸ hi
  obtain ⟨hsorted, hedge⟩ := hsolve _ _ hstep.minus _ hst _ hstep.solve
  have hset : p ∈ edgeSet s'.cuts.flatten ↔
      p ∈ edgeSet (newCut s.mode (s.cuts.getD i []) tmp :: s.cuts.eraseIdx i).flatten := by
    rw [hstep.cuts]
    exact (List.set_perm_cons_eraseIdx hi' _).flatten.mem_iff
  rw [hset, mem_edgeSet_flatten_cons]
  have hminus := hstep.minus
  cases hmode : s.mode with
  | replace =>
    rw [newCut_replace hsorted]
    exact Iff.rfl
  | augment =>
    rw [hmode] at hminus
    have hold := (h.split hi).sorted _ (.head _)
    have hdisj : tmp.Disjoint (s.cuts.getD i []) := fun e he hin =>
      (hminus.edge_iff.mp (hedge e he)).2 (mem_edgeSet_flatten_cons.mpr (.inl hin))
    have hnew : p ∈ edgeSet (newCut .augment (s.cuts.getD i []) tmp) ↔
        p ∈ edgeSet tmp ∨ p ∈ edgeSet (s.cuts.getD i []) :=
      (newCut_augment hsorted hold hdisj).2 _
    unfold hidden
    rw [hnew, mem_edgeSet_flatten_cons]
    exact or_assoc

/-- The working graph behind a step is the one the solver saw, without its answer. -/
theorem Stepped.edge_eq (hsolve : M.SolvesEdges) (h : Inv M s) (h' : Inv M s')
    (hi : i < M.sts.length) (hst : st ∈ M.sts) (hstep : Stepped M s s' st i G₀ tmp) :
    s'.G.Edge = Walk.without G₀.Edge (edgeSet tmp) := by
  funext u v
  refine propext ?_
  rw [h'.cuts.minus.edge_iff, hstep.mem_cuts hsolve h hi hst]
  unfold Walk.without
  rw [hstep.minus.edge_iff]
  tauto

/-- In mode `augment` the solver sees the working graph. -/
theorem Stepped.edge_eq_of_augment (h : Inv M s) (hi : i < M.sts.length)
    (hmode : s.mode = .augment) (hstep : Stepped M s s' st i G₀ tmp) : G₀.Edge = s.G.Edge := by
  have hminus := hstep.minus
  rw [hmode] at hminus
  rw [hminus.edge_eq, (h.split hi).minus.edge_eq]
  rfl

/-- A step that reports no change leaves the cuts as they were. -/
theorem Stepped.cuts_of_unchanged (h : Inv M s) (hi : i < M.sts.length)
    (hstep : Stepped M s s' st i G₀ tmp) (hchanged : s'.changed = false) :
    s.changed = false ∧ s'.cuts = s.cuts := by
  have hi' : i < s.cuts.length := h.length_eq ▸ hi
  rw [hstep.changed, Bool.or_eq_false_iff, decide_eq_false_iff_not, not_not] at hchanged
  refine ⟨hchanged.1, ?_⟩
  rw [hstep.cuts, ← hchanged.2, List.getD_eq_getElem?_getD, List.getElem?_eq_getElem hi',
    Option.getD_some, List.set_getElem_self]

end Stepped

/-! ## The End of a Pass -/

theorem checkRedundant_ok (cuts : Cuts) : M.checkRedundant cuts = .ok () :=
  assert_of (length_uniqueInPlace _).symm

/-- What the end of a pass makes of `s`. -/
structure Ended (M : Greedy) (s s' : State) : Prop where
  G : s'.G = s.G
  cuts : s'.cuts = s.cuts
  changed : s'.changed = s.changed
  passes : s'.passes = s.passes + 1
  unchanged : s.changed = false → s'.mode = s.mode ∧ s'.cutsHist = s.cutsHist
  known : s.changed = true → s.cuts ∈ s.cutsHist →
    s'.mode = .augment ∧ s'.cutsHist = s.cutsHist
  fresh : s.changed = true → s.cuts ∉ s.cutsHist →
    s'.cutsHist = s.cutsHist.insert s.cuts ∧ (s'.mode = s.mode ∨ s'.mode = .augment)

theorem remember_ok (h : M.remember s = .ok s') :
    Ended M s { s' with passes := s'.passes + 1 } := by
  unfold remember at h
  split_ifs at h with hchanged hknown htime
  · obtain ⟨-, -, h⟩ := Exec.bind_eq_ok.mp h
    cases h
    exact ⟨rfl, rfl, rfl, rfl, by simp [hchanged], fun _ _ => ⟨rfl, rfl⟩,
      fun _ hfresh => absurd hknown hfresh⟩
  · cases h
    exact ⟨rfl, rfl, rfl, rfl, by simp [hchanged], fun _ hin => absurd hin hknown,
      fun _ _ => ⟨rfl, .inr rfl⟩⟩
  · cases h
    exact ⟨rfl, rfl, rfl, rfl, by simp [hchanged], fun _ hin => absurd hin hknown,
      fun _ _ => ⟨rfl, .inl rfl⟩⟩
  · cases h
    exact ⟨rfl, rfl, rfl, rfl, fun _ => ⟨rfl, rfl⟩, fun hc => absurd hc hchanged,
      fun hc => absurd hc hchanged⟩

theorem endPass_ok {again : Bool} (h : M.endPass s = .ok (s', again)) :
    again = s.changed ∧ Ended M s s' := by
  obtain ⟨s₁, hremember, h⟩ := Exec.bind_eq_ok.mp h
  rw [checkRedundant_ok] at h
  cases h
  have hended := remember_ok hremember
  exact ⟨hended.changed, hended⟩

/-- Builds with `ndebug` get to the end of every pass. -/
theorem endPass_returns (hndebug : M.ndebug = true) (s : State) :
    ∃ s', M.endPass s = .ok (s', s.changed) := by
  obtain ⟨s₁, hremember⟩ : ∃ s₁, M.remember s = .ok s₁ := by
    unfold remember
    split_ifs <;> simp [assert, hndebug, bind, Except.bind, pure, Except.pure]
  have hret : M.endPass s = .ok ({ s₁ with passes := s₁.passes + 1 }, s₁.changed) := by
    simp only [endPass, hremember, checkRedundant_ok, bind, Except.bind, pure, Except.pure]
  exact ⟨_, by rw [hret, (endPass_ok hret).1]⟩

/-- The only assertion that can stop a pass at its end is the one about the mode. -/
theorem endPass_fault {f : Fault} (h : M.endPass s = .error f) : f = .assertion .modeReplace := by
  have hfaults : Exec.Faults (· = .assertion .modeReplace) (M.endPass s) := by
    refine Exec.Faults.bind ?_ fun s₁ => ?_
    · unfold remember
      split_ifs
      · exact Exec.Faults.bind (Exec.faults_assert rfl) fun _ => Exec.faults_pure _
      all_goals exact Exec.faults_pure _
    · rw [checkRedundant_ok]
      exact Exec.faults_pure _
  exact hfaults f h

/-! ## Runs -/

theorem Reached.le (h : M.Reached s i) : i ≤ M.sts.length := by
  cases h with
  | start => exact Nat.zero_le _
  | st _ hi _ => exact hi
  | pass _ _ => exact Nat.zero_le _

theorem inv_init (M : Greedy) : Inv M M.init := by
  refine ⟨List.length_replicate, fun cut hcut => ?_, fun cut hcut => ?_, ?_, ?_⟩
  · rw [List.eq_of_mem_replicate hcut]
    exact .nil
  · rw [List.eq_of_mem_replicate hcut]
    simp
  · simp [init, List.pairwise_replicate]
  · refine (Minus.refl M.OrigG).congr fun u v => ?_
    simp [init]

theorem Ended.inv (h : Ended M s s') (hinv : Inv M s) : Inv M s' :=
  ⟨by rw [h.cuts, hinv.length_eq], by rw [h.cuts, h.G]; exact hinv.cuts⟩

/-- The invariant holds in every reached state. -/
theorem Reached.inv (hsolve : M.SolvesEdges) (h : M.Reached s i) :
    Inv M s := by
  induction h with
  | start => exact inv_init M
  | st _ hi hstep ih =>
    obtain ⟨-, -, -, hinv⟩ := stepSt_ok hsolve ih hi (List.getElem_mem hi) hstep
    exact hinv
  | pass _ hend ih =>
    have hinv := (endPass_ok hend).2.inv ih
    exact ⟨hinv.length_eq, hinv.cuts⟩

/-- The rest of a pass goes through reached states. -/
theorem foldlM_reached {sts : List IdxST} (hsts : M.sts.drop i = sts) (h : M.Reached s i) :
    (∀ s', (sts.zipIdx i).foldlM M.stepSt s = .ok s' → M.Reached s' M.sts.length) ∧
      ∀ f, (sts.zipIdx i).foldlM M.stepSt s = .error f →
        ∃ s' j, M.Reached s' j ∧ ∃ hj : j < M.sts.length, M.stepSt s' (M.sts[j], j) = .error f := by
  induction sts generalizing s i with
  | nil =>
    have hi : i = M.sts.length := Nat.le_antisymm h.le (List.drop_eq_nil_iff.mp hsts)
    refine ⟨fun s' hret => ?_, fun f hret => ?_⟩
    · cases hret
      exact hi ▸ h
    · cases hret
  | cons st sts ih =>
    have hi : i < M.sts.length := by
      by_contra hge
      rw [List.drop_eq_nil_of_le (Nat.le_of_not_lt hge)] at hsts
      cases hsts
    rw [List.drop_eq_getElem_cons hi] at hsts
    obtain ⟨rfl, hrest⟩ := List.cons.inj hsts
    rw [List.zipIdx_cons, List.foldlM_cons]
    cases hstep : M.stepSt s (M.sts[i], i) with
    | error f =>
      refine ⟨fun s' hret => ?_, fun f' hret => ?_⟩
      · cases hret
      · cases hret
        exact ⟨s, i, h, hi, hstep⟩
    | ok s₁ => exact ih hrest (h.st hi hstep)

theorem pass_reached (h : M.Reached { s with changed := false } 0) :
    (∀ r, M.pass s = .ok r → ∃ s₁, M.Reached s₁ M.sts.length ∧ M.endPass s₁ = .ok r) ∧
      ∀ f, M.pass s = .error f →
        (∃ s' j, M.Reached s' j ∧ ∃ hj : j < M.sts.length,
          M.stepSt s' (M.sts[j], j) = .error f) ∨
        ∃ s', M.Reached s' M.sts.length ∧ M.endPass s' = .error f := by
  obtain ⟨hok, hfault⟩ := foldlM_reached (List.drop_zero ..) h
  refine ⟨fun r hret => ?_, fun f hret => ?_⟩
  · obtain ⟨s₁, hfold, hend⟩ := Exec.bind_eq_ok.mp hret
    exact ⟨s₁, hok s₁ hfold, hend⟩
  · unfold pass at hret
    cases hfold : M.sts.zipIdx.foldlM M.stepSt { s with changed := false } with
    | error f' =>
      rw [hfold] at hret
      cases hret
      exact .inl (hfault f hfold)
    | ok s₁ =>
      rw [hfold] at hret
      exact .inr ⟨s₁, hok s₁ hfold, hret⟩

theorem pass_again (h : M.Reached { s with changed := false } 0)
    (hpass : M.pass s = .ok (s', true)) : M.Reached { s' with changed := false } 0 := by
  obtain ⟨s₁, hs₁, hend⟩ := (pass_reached h).1 _ hpass
  exact hs₁.pass hend

/-- The loop ends behind a pass that changed nothing. -/
theorem loop_reached {fuel : Nat} (hret : M.loop fuel = .ok s) :
    ∃ s₁, M.Reached s₁ M.sts.length ∧ M.endPass s₁ = .ok (s, false) := by
  obtain ⟨s₀, hs₀, hpass⟩ := doWhile_last (P := fun s => M.Reached { s with changed := false } 0)
    (fun _ _ h hpass => pass_again h hpass) .start hret
  exact (pass_reached hs₀).1 _ hpass

/-- The loop fails where a step of it does, or for lack of fuel. -/
theorem loop_fault {fuel : Nat} {f : Fault} (hret : M.loop fuel = .error f) :
    f = .outOfFuel ∨
      (∃ s' j, M.Reached s' j ∧ ∃ hj : j < M.sts.length, M.stepSt s' (M.sts[j], j) = .error f) ∨
      ∃ s', M.Reached s' M.sts.length ∧ M.endPass s' = .error f := by
  rcases doWhile_fault (P := fun s => M.Reached { s with changed := false } 0)
    (fun _ _ h hpass => pass_again h hpass) .start hret with hfuel | ⟨s₀, hs₀, hpass⟩
  · exact .inl hfuel
  · exact .inr ((pass_reached hs₀).2 f hpass)

/-! ## Another Solver -/

section Solver

variable {solve : IdxGraph → List (OrdSet Idx) → Exec (List IdxEdge)}

/-- What a step does depends on the solver's answer only. -/
theorem stepSt_congr (hsame : ∀ G X, Minus M.OrigG G X → ∀ st ∈ M.sts,
      solve G st.waypoints = M.solve G st.waypoints) (h : Inv M s) (hi : i < M.sts.length)
    (hst : st ∈ M.sts) :
    ({ M with solve := solve } : Greedy).stepSt s (st, i) = M.stepSt s (st, i) := by
  obtain ⟨G₀, hadd, hminus⟩ := addOldCut_spec s.mode (h.split hi)
  have hadd' : ({ M with solve := solve } : Greedy).addOldCut s.mode (s.cuts.getD i []) s.G =
      .ok G₀ := hadd
  simp only [stepSt, hadd, hadd', bind, Except.bind, hsame _ _ hminus _ hst]
  rfl

/-- The loop is the same with a solver that answers alike on the graphs that it is asked about. -/
theorem loop_congr (hsolve : M.SolvesEdges) (hsame : ∀ G X, Minus M.OrigG G X → ∀ st ∈ M.sts,
      solve G st.waypoints = M.solve G st.waypoints) (fuel : Nat) :
    ({ M with solve := solve } : Greedy).loop fuel = M.loop fuel := by
  refine doWhile_congr (P := Inv M) (fun s hs => ?_) (Reached.start.inv hsolve)
  obtain ⟨hfold, hkeep⟩ := Exec.foldlM_congr (P := Inv M) (l := M.sts.zipIdx)
    (f := ({ M with solve := solve } : Greedy).stepSt) (g := M.stepSt)
    (a := { s with changed := false }) (fun e he s hs => by
      obtain ⟨st, i⟩ := e
      have hi : i < M.sts.length := (List.mem_zipIdx' he).1
      have hst : st ∈ M.sts := List.fst_mem_of_mem_zipIdx he
      refine ⟨stepSt_congr hsame hs hi hst, fun s' hret => ?_⟩
      obtain ⟨-, -, -, hinv⟩ := stepSt_ok hsolve hs hi hst hret
      exact hinv) ⟨hs.length_eq, hs.cuts⟩
  refine ⟨?_, fun r hret => ?_⟩
  · change (M.sts.zipIdx.foldlM _ _ >>= _) = (M.sts.zipIdx.foldlM _ _ >>= _)
    rw [hfold]
    rfl
  · obtain ⟨s₁, hs₁, hend⟩ := Exec.bind_eq_ok.mp hret
    obtain ⟨s₂, again⟩ := r
    exact (endPass_ok hend).2.inv (hkeep s₁ hs₁)

end Solver

end Greedy

end Clou
