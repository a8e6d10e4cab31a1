-- SUMMARY: When the history meets a known list in mode augment: a recorded list completes the cuts that a pass starts from.
import Serberus.MinCutGreedy.Terminates
import Serberus.MinCutGreedy.Disjoint

/-!
# Known Cuts in Mode `augment`

Behind the mode switch the cuts only grow, and the loop asserts that they never become
a list it knows. They do when a list of an earlier pass consists of the cuts at the
switch and of what the solver then adds for every ST in turn. `Between` says what a
pass has made of its first state so far, and `run_modeReplace_iff` that a recorded
list of this kind is the only way to fail the assertion.
-/

namespace Clou

namespace Greedy

variable {M : Greedy} {s s' s₀ : State} {i : Nat}

/-! ## Completions -/

/-- The cut in `H` of the ST at position `i` is its cut in `cuts` together with what the
solver answers for it, on the graph without the cuts in `H` of the STs before and those
in `cuts` of the others. -/
def Completed (M : Greedy) (cuts H : Cuts) (i : Nat) (st : IdxST) : Prop :=
  ∃ G new, Minus M.OrigG G (edgeSet (H.take i ++ cuts.drop i).flatten) ∧
    M.solve G st.waypoints = .ok new ∧ (H.getD i []).Perm (cuts.getD i [] ++ new)

/-- `H` is another list than `cuts`, and completes the cut of every ST. -/
structure Completes (M : Greedy) (cuts H : Cuts) : Prop where
  ne : H ≠ cuts
  cut : ∀ i (hi : i < M.sts.length), M.Completed cuts H i M.sts[i]

/-- No pass in mode `augment` starts from cuts that a recorded list completes. -/
def NoCompletion (M : Greedy) : Prop :=
  ∀ s, M.Reached s 0 → s.mode = .augment → ∀ H ∈ s.cutsHist, ¬ M.Completes s.cuts H

/-- It is enough that no other recorded list contains the cuts, ST by ST. -/
theorem noCompletion_of_not_subset
    (h : ∀ s, M.Reached s 0 → s.mode = .augment → ∀ H ∈ s.cutsHist, H ≠ s.cuts →
      ∃ i, i < M.sts.length ∧ ¬ s.cuts.getD i [] ⊆ H.getD i []) : M.NoCompletion := by
  intro s hs hmode H hH hcompletes
  obtain ⟨i, hi, hsub⟩ := h s hs hmode H hH hcompletes.ne
  obtain ⟨-, new, -, -, hperm⟩ := hcompletes.cut i hi
  exact hsub fun e he => hperm.mem_iff.mpr (List.mem_append_left new he)

/-! ## Inside a Pass -/

/-- `s` is what a pass has made of `s₀` behind its first `i` STs. -/
structure Between (M : Greedy) (s₀ s : State) (i : Nat) : Prop where
  mode : s.mode = s₀.mode
  hist : s.cutsHist = s₀.cutsHist
  rest : s.cuts.drop i = s₀.cuts.drop i
  changed : s.changed = true ↔ s.cuts ≠ s₀.cuts
  cut : s₀.mode = .augment → ∀ j (hj : j < M.sts.length), j < i →
    M.Completed s₀.cuts s.cuts j M.sts[j]

theorem Between.refl (hchanged : s.changed = false) : Between M s s 0 where
  mode := rfl
  hist := rfl
  rest := rfl
  changed := by simp [hchanged]
  cut := fun _ _ _ hlt => absurd hlt (Nat.not_lt_zero _)

theorem Between.getD_eq (h : Between M s₀ s i) : s.cuts.getD i [] = s₀.cuts.getD i [] := by
  have hrest := congrArg (fun l => l.getD 0 []) h.rest
  simpa [List.getD_eq_getElem?_getD] using hrest

theorem Between.take_append (h : Between M s₀ s i) : s.cuts.take i ++ s₀.cuts.drop i = s.cuts := by
  rw [← h.rest, List.take_append_drop]

/-- Later STs leave the completed cuts alone. -/
theorem Completed.set {cuts H : Cuts} {j : Nat} {st : IdxST} (h : M.Completed cuts H j st)
    (hlt : j < i) (cut : List IdxEdge) : M.Completed cuts (H.set i cut) j st := by
  obtain ⟨G, new, hminus, hsolve, hperm⟩ := h
  refine ⟨G, new, ?_, hsolve, ?_⟩
  · rwa [List.take_set_of_le (Nat.le_of_lt hlt)]
  · rwa [List.getD_eq_getElem?_getD, List.getElem?_set_ne (Nat.ne_of_gt hlt),
      ← List.getD_eq_getElem?_getD]

/-- In mode `augment` the solver answers new edges only. -/
theorem Stepped.answer (hsolve : M.SolvesEdges) {G₀ : IdxGraph} {tmp : List IdxEdge} {st : IdxST}
    (hst : st ∈ M.sts) (hmode : s.mode = .augment) (hstep : Stepped M s s' st i G₀ tmp) :
    tmp.Pairwise (· < ·) ∧ tmp.Disjoint (s.cuts.getD i []) := by
  have hminus := hstep.minus
  rw [hmode] at hminus
  obtain ⟨hsorted, hedge⟩ := hsolve _ _ hstep.minus _ hst _ hstep.solve
  refine ⟨hsorted, fun e he hin => ?_⟩
  exact (hminus.edge_iff.mp (hedge e he)).2 (mem_edgeSet_flatten_cons.mpr (.inl hin))

/-- In mode `augment` a step completes the cut of its ST. -/
theorem Stepped.completed (hsolve : M.SolvesEdges) {G₀ : IdxGraph} {tmp : List IdxEdge} {st : IdxST}
    (hinv : Inv M s) (h : Between M s₀ s i) (hi : i < M.sts.length) (hst : st ∈ M.sts)
    (hmode : s.mode = .augment) (hstep : Stepped M s s' st i G₀ tmp) :
    M.Completed s₀.cuts s'.cuts i st := by
  have hi' : i < s.cuts.length := hinv.length_eq ▸ hi
  have hminus := hstep.minus
  rw [hmode] at hminus
  obtain ⟨hsorted, hdisj⟩ := hstep.answer hsolve hst hmode
  have hold := (hinv.split hi).sorted _ (.head _)
  refine ⟨G₀, tmp, ?_, hstep.solve, ?_⟩
  · -- the solver sees the graph without the cuts of all STs
    rw [hstep.cuts, List.take_set_of_le (Nat.le_refl i), h.take_append]
    rw [← (hinv.split hi).minus.unique hminus]
    exact hinv.cuts.minus
  · rw [hstep.cuts, List.getD_eq_getElem?_getD, List.getElem?_set_self hi', Option.getD_some,
      hmode, ← h.getD_eq]
    exact (newCut_augment_perm hsorted hold hdisj).2

theorem Between.step (hsolve : M.SolvesEdges) {G₀ : IdxGraph} {tmp : List IdxEdge}
    (hinv : Inv M s) (h : Between M s₀ s i) (hi : i < M.sts.length)
    (hstep : Stepped M s s' M.sts[i] i G₀ tmp) : Between M s₀ s' (i + 1) where
  mode := hstep.mode.trans h.mode
  hist := hstep.hist.trans h.hist
  rest := by
    have hrest := congrArg (List.drop 1) h.rest
    rw [List.drop_drop, List.drop_drop] at hrest
    rw [hstep.cuts, List.drop_set_of_lt (Nat.lt_succ_self i), hrest]
  changed := by
    have hi' : i < s.cuts.length := hinv.length_eq ▸ hi
    have hold : s.cuts.set i (s.cuts.getD i []) = s.cuts := by
      rw [List.getD_eq_getElem?_getD, List.getElem?_eq_getElem hi', Option.getD_some,
        List.set_getElem_self]
    rw [hstep.changed, Bool.or_eq_true, decide_eq_true_eq, h.changed, hstep.cuts, ← not_and_or]
    refine not_congr ⟨fun ⟨heq, hnew⟩ => ?_, fun heq => ?_⟩
    · rw [← hnew, hold, heq]
    · -- the old cut of this ST is the one that the pass started with
      have hat : s₀.cuts.getD i [] = newCut s.mode (s.cuts.getD i []) tmp := by
        rw [← heq, List.getD_eq_getElem?_getD, List.getElem?_set_self hi', Option.getD_some]
      have hnew := h.getD_eq.trans hat
      rw [← hnew, hold] at heq
      exact ⟨heq, hnew⟩
  cut := by
    intro hmode j hj hlt
    rcases Nat.lt_or_eq_of_le (Nat.le_of_lt_succ hlt) with hlt | rfl
    · rw [hstep.cuts]
      exact (h.cut hmode j hj hlt).set hlt _
    · exact hstep.completed hsolve hinv h hi (List.getElem_mem hi) (h.mode.trans hmode)

/-- Every reached state lies in a pass from a reached state. -/
theorem Reached.between (hsolve : M.SolvesEdges) (h : M.Reached s i) :
    ∃ s₀, M.Reached s₀ 0 ∧ Between M s₀ s i := by
  induction h with
  | start => exact ⟨M.init, .start, .refl rfl⟩
  | pass h hend => exact ⟨_, h.pass hend, .refl rfl⟩
  | st h hi hstep ih =>
    obtain ⟨s₀, hs₀, hbetween⟩ := ih
    obtain ⟨G₀, tmp, hstepped, -⟩ := stepSt_ok hsolve (h.inv hsolve) hi (List.getElem_mem hi) hstep
    exact ⟨s₀, hs₀, hbetween.step hsolve (h.inv hsolve) hi hstepped⟩

/-! ## Completing Passes -/

theorem Reached.unchanged (h : M.Reached s 0) : s.changed = false := by
  cases h with
  | start => rfl
  | pass => rfl

/-- The recorded lists have a sorted cut for every ST. -/
theorem Reached.sorted_of_hist (hsolve : M.SolvesEdges) (h : M.Reached s i) {H : Cuts}
    (hH : H ∈ s.cutsHist) : H.length = M.sts.length ∧ ∀ cut ∈ H, cut.Pairwise (· < ·) := by
  have hmem := List.mem_sections.mp ((h.histInv hsolve).mem H hH)
  have hlen := hmem.length_eq
  rw [List.length_replicate] at hlen
  refine ⟨hlen, fun cut hcut => ?_⟩
  obtain ⟨j, hj, rfl⟩ := List.mem_iff_getElem.mp hcut
  have hsub := List.forall₂_iff_get.mp hmem |>.2 j hj (by rwa [List.length_replicate, ← hlen])
  simp only [List.get_eq_getElem, List.getElem_replicate, List.mem_sublists] at hsub
  exact (sortUnique_sorted _).sublist hsub

/-- On the answer for the completed graph, a step in mode `augment` makes the cut that of `H`. -/
theorem Stepped.cuts_take (hsolve : M.SolvesEdges) {G₀ : IdxGraph} {new : List IdxEdge} {st : IdxST}
    (hinv : Inv M s) (hi : i < M.sts.length) (hst : st ∈ M.sts) (hmode : s.mode = .augment)
    (hstep : Stepped M s s' st i G₀ new) {H : Cuts} (hH : i < H.length)
    (hsorted : ∀ cut ∈ H, cut.Pairwise (· < ·)) (htake : s.cuts.take i = H.take i)
    (hperm : (H.getD i []).Perm (s.cuts.getD i [] ++ new)) :
    s'.cuts.take (i + 1) = H.take (i + 1) := by
  have hi' : i < s.cuts.length := hinv.length_eq ▸ hi
  obtain ⟨hnew, hdisj⟩ := hstep.answer hsolve hst hmode
  obtain ⟨hcut, hcutPerm⟩ := newCut_augment_perm hnew ((hinv.split hi).sorted _ (.head _)) hdisj
  rw [List.getD_eq_getElem?_getD, List.getElem?_eq_getElem hH, Option.getD_some] at hperm
  have heq : newCut .augment (s.cuts.getD i []) new = H[i] :=
    List.Perm.eq_of_pairwise' hcut (hsorted _ (List.getElem_mem hH)) (hcutPerm.trans hperm.symm)
  rw [hstep.cuts, hmode, heq, List.take_add_one, List.take_add_one,
    List.take_set_of_le (Nat.le_refl i), htake, List.getElem?_set_self hi',
    List.getElem?_eq_getElem hH]

/-- When a recorded list completes the cuts, the pass makes them this list. -/
theorem Completes.pass (hsolve : M.SolvesEdges) (hs : M.Reached s 0) (hmode : s.mode = .augment)
    {H : Cuts} (hH : H ∈ s.cutsHist) (h : M.Completes s.cuts H) :
    ∃ s₁, M.sts.zipIdx.foldlM M.stepSt s = .ok s₁ ∧ M.Reached s₁ M.sts.length ∧
      Between M s s₁ M.sts.length ∧ s₁.cuts = H := by
  obtain ⟨hlen, hsorted⟩ := hs.sorted_of_hist hsolve hH
  let Q (i : Nat) (s' : State) : Prop :=
    M.Reached s' i ∧ Between M s s' i ∧ s'.cuts.take i = H.take i
  obtain ⟨s₁, hfold, hs₁, hbetween, htake⟩ := foldlM_returns (Q := Q) (fun i s' hi hQ => by
    obtain ⟨hs', hbetween, htake⟩ := hQ
    have hinv := hs'.inv hsolve
    have hi' : i < s'.cuts.length := hinv.length_eq ▸ hi
    obtain ⟨G, new, hminus, hnew, hperm⟩ := h.cut i hi
    obtain ⟨G₀, hminus₀, -, hok⟩ := stepSt_spec hsolve hinv hi (List.getElem_mem hi)
    -- the solver is asked about the graph of the completion
    have hmode' : s'.mode = .augment := hbetween.mode.trans hmode
    have hG : G = G₀ := by
      rw [← htake, hbetween.take_append] at hminus
      rw [hmode'] at hminus₀
      exact (hminus.unique hinv.cuts.minus).trans ((hinv.split hi).minus.unique hminus₀)
    obtain ⟨s'', hstep, hstepped, -⟩ := hok new (hG ▸ hnew)
    refine ⟨s'', hstep, hs'.st hi hstep, hbetween.step hsolve hinv hi hstepped, ?_⟩
    rw [← hbetween.getD_eq] at hperm
    exact hstepped.cuts_take hsolve hinv hi (List.getElem_mem hi) hmode' (hlen ▸ hi) hsorted htake
      hperm) ⟨hs, .refl hs.unchanged, by simp⟩
  refine ⟨s₁, hfold, hs₁, hbetween, ?_⟩
  have hlen₁ := (hs₁.inv hsolve).length_eq
  rwa [← hlen₁, List.take_length, hlen₁, ← hlen, List.take_length] at htake

/-! ## Reached by the Loop -/

/-- A pass does not look at `changed`. -/
theorem doWhile_pass_changed (fuel : Nat) (s : State) :
    doWhile M.pass fuel { s with changed := false } = doWhile M.pass fuel s := by
  cases fuel <;> rfl

/-- The loop gets to the pass of every reached state. -/
theorem Reached.loop (h : M.Reached s i) :
    ∃ s₀ n, (∀ fuel, M.loop (n + fuel) = doWhile M.pass fuel s₀) ∧ s₀.changed = false ∧
      (M.sts.take i).zipIdx.foldlM M.stepSt s₀ = .ok s := by
  induction h with
  | start => exact ⟨M.init, 0, fun fuel => by rw [Nat.zero_add]; rfl, rfl, rfl⟩
  | @st s s' i h hi hstep ih =>
    obtain ⟨s₀, n, hloop, hchanged, hfold⟩ := ih
    refine ⟨s₀, n, hloop, hchanged, ?_⟩
    rw [← List.take_append_getElem hi, List.zipIdx_append, List.foldlM_append, hfold,
      List.length_take_of_le (Nat.le_of_lt hi), Nat.zero_add]
    change List.foldlM M.stepSt s [(M.sts[i], i)] = .ok s'
    rw [List.foldlM_cons, hstep]
    rfl
  | @pass s s' h hend ih =>
    obtain ⟨s₀, n, hloop, hchanged, hfold⟩ := ih
    refine ⟨{ s' with changed := false }, n + 1, fun fuel => ?_, rfl, rfl⟩
    rw [List.take_length] at hfold
    have hpass : M.pass s₀ = .ok (s', true) := by
      rw [pass_eq (s := s₀) (by rwa [← hchanged]), hend]
    rw [Nat.add_assoc, hloop, Nat.add_comm 1 fuel, doWhile_pass_changed]
    simp only [doWhile, hpass, bind, Except.bind, if_true]

/-- The end of a pass fails only where the loop does. -/
theorem Reached.loop_fault (h : M.Reached s M.sts.length) {f : Fault}
    (hend : M.endPass s = .error f) : ∃ n, M.loop n = .error f := by
  obtain ⟨s₀, n, hloop, hchanged, hfold⟩ := h.loop
  rw [List.take_length] at hfold
  have hpass : M.pass s₀ = .error f := by
    rw [pass_eq (s := s₀) (by rwa [← hchanged]), hend]
  exact ⟨n + 1, by simp only [hloop, doWhile, hpass, bind, Except.bind]⟩

/-! ## The Assertion -/

/-- The end of a pass fails in mode `augment` only, on changed cuts that are known. -/
theorem endPass_error_iff (hndebug : M.ndebug = false) :
    M.endPass s = .error (.assertion .modeReplace) ↔
      s.changed = true ∧ s.cuts ∈ s.cutsHist ∧ s.mode = .augment := by
  unfold endPass remember
  constructor
  · intro h
    split_ifs at h with hchanged hknown htime
    · refine ⟨hchanged, hknown, ?_⟩
      cases hmode : s.mode with
      | augment => rfl
      | replace =>
        rw [assert_of hmode] at h
        simp [checkRedundant_ok, bind, Except.bind, pure, Except.pure] at h
    all_goals simp [checkRedundant_ok, bind, Except.bind, pure, Except.pure] at h
  · rintro ⟨hchanged, hknown, hmode⟩
    rw [if_pos hchanged, if_pos hknown]
    simp [assert, hmode, hndebug, bind, Except.bind, throw, throwThe, MonadExceptOf.throw]

/-- The loop fails the assertion about the mode exactly when a pass in mode `augment`
starts from cuts that a recorded list completes. -/
theorem loop_modeReplace_iff (hsolve : M.SolvesEdges) (hndebug : M.ndebug = false)
    (hfault : ∀ G W, M.solve G W ≠ .error (.assertion .modeReplace)) :
    (∀ n, M.loop n ≠ .error (.assertion .modeReplace)) ↔ M.NoCompletion := by
  refine ⟨fun hloop s hs hmode H hH hcompletes => ?_, fun hnone n hret => ?_⟩
  · obtain ⟨s₁, -, hs₁, hbetween, hcuts⟩ := hcompletes.pass hsolve hs hmode hH
    have hend : M.endPass s₁ = .error (.assertion .modeReplace) := by
      refine (endPass_error_iff hndebug).mpr ⟨?_, ?_, hbetween.mode.trans hmode⟩
      · rw [hbetween.changed, hcuts]
        exact hcompletes.ne
      · rwa [hcuts, hbetween.hist]
    obtain ⟨n, hret⟩ := hs₁.loop_fault hend
    exact hloop n hret
  · rcases loop_fault hret with hfuel | ⟨s, i, hs, hi, hstep⟩ | ⟨s, hs, hend⟩
    · cases hfuel
    · obtain ⟨G₀, hsolver⟩ :=
        stepSt_fault hsolve (hs.inv hsolve) hi (List.getElem_mem hi) hstep
      exact hfault _ _ hsolver
    · obtain ⟨hchanged, hknown, hmode⟩ := (endPass_error_iff hndebug).mp hend
      obtain ⟨s₀, hs₀, hbetween⟩ := hs.between hsolve
      have hmode₀ : s₀.mode = .augment := hbetween.mode.symm.trans hmode
      refine hnone s₀ hs₀ hmode₀ s.cuts (hbetween.hist ▸ hknown) ⟨hbetween.changed.mp hchanged, ?_⟩
      exact fun j hj => hbetween.cut hmode₀ j hj hj

end Greedy

/-! ## The Whole Run -/

section Run

variable {Node : Type} [LinearOrder Node] {ndebug : Bool} {fuel : Nat} {timedOut : Nat → Bool}
  {G : NodeGraph Node} {sts : List (ST Node)} {M : Greedy}

theorem prepare_ndebug (h : prepare ndebug fuel timedOut G sts = .ok M) : M.ndebug = ndebug := by
  obtain ⟨IG, -, h⟩ := Exec.bind_eq_ok.mp h
  obtain ⟨ists, -, h⟩ := Exec.bind_eq_ok.mp h
  obtain ⟨opt, -, h⟩ := Exec.bind_eq_ok.mp h
  cases h
  rfl

theorem Prepared.solve_modeReplace (h : Prepared ndebug fuel G sts M) (G' : IdxGraph)
    (W : List (OrdSet Idx)) : M.solve G' W ≠ .error (.assertion .modeReplace) := by
  intro hsolve
  rw [h.solve] at hsolve
  have hfault := faults_fordFulkersonMulti _ _ _ hsolve
  simp [SolverFault] at hfault

/-- Behind the loop nothing asks for the mode. -/
theorem run_modeReplace (hM : prepare ndebug fuel timedOut G sts = .ok M)
    (hret : run ndebug fuel timedOut G sts = .error (.assertion .modeReplace)) :
    M.loop fuel = .error (.assertion .modeReplace) := by
  unfold run at hret
  rw [hM] at hret
  change (M.loop fuel >>= fun s => s.cuts.flatten.mapM (nodeEdge ndebug (getNodes G).toList)) = _
    at hret
  cases hloop : M.loop fuel with
  | error f =>
    rw [hloop] at hret
    cases hret
    rfl
  | ok s =>
    rw [hloop] at hret
    have hnode (e : IdxEdge) : Exec.Faults (· ≠ .assertion .modeReplace)
        (nodeEdge ndebug (getNodes G).toList e) := faults_nodeEdge (by simp) (by simp) _ e
    exact absurd rfl (Exec.Faults.mapM hnode _ _ hret)

/-- Known cuts are met in mode `replace` only, as the loop asserts, exactly when no pass
in mode `augment` starts from cuts that a list recorded before completes. -/
theorem run_modeReplace_iff (hM : prepare false fuel timedOut G sts = .ok M) :
    ((∀ n, M.loop n ≠ .error (.assertion .modeReplace)) ↔ M.NoCompletion) ∧
      (M.NoCompletion → run false fuel timedOut G sts ≠ .error (.assertion .modeReplace)) := by
  have hprepared := prepare_ok hM
  have hiff := Greedy.loop_modeReplace_iff hprepared.solvesEdges (prepare_ndebug hM)
    hprepared.solve_modeReplace
  exact ⟨hiff, fun hnone hret => hiff.mpr hnone fuel (run_modeReplace hM hret)⟩

end Run

/-- The three STs of the run below. -/
theorem run_modeReplace_iff_circle :
    let G : NodeGraph Nat := ⟨[(0, ⟨[(1, 1)], by decide⟩), (1, ⟨[(2, 1)], by decide⟩),
      (2, ⟨[(0, 1), (1, 1)], by decide⟩)], by decide⟩
    let sts : List (ST Nat) := [⟨[.ofList [0, 2], .ofList [2]]⟩, ⟨[.ofList [1], .ofList [0]]⟩,
      ⟨[.ofList [2], .ofList [1]]⟩]
    ∃ M, prepare false 15 (fun _ => false) G sts = .ok M ∧
      ((∀ n, M.loop n ≠ .error (.assertion .modeReplace)) ↔ M.NoCompletion) ∧
      (M.NoCompletion → run false 15 (fun _ => false) G sts ≠ .error (.assertion .modeReplace)) := by
  intro G sts
  have hok : (prepare false 15 (fun _ => false) G sts).isOk = true := by decide +kernel
  cases hM : prepare false 15 (fun _ => false) G sts with
  | error f =>
    rw [hM] at hok
    cases hok
  | ok M => exact ⟨M, rfl, run_modeReplace_iff hM⟩

/-- Three STs whose cuts run in a circle. The sixth pass meets the cuts of the second one,
and the first pass in mode `augment` makes them those of the third one. -/
theorem run_modeReplace_fails :
    let G : NodeGraph Nat := ⟨[(0, ⟨[(1, 1)], by decide⟩), (1, ⟨[(2, 1)], by decide⟩),
      (2, ⟨[(0, 1), (1, 1)], by decide⟩)], by decide⟩
    let sts : List (ST Nat) := [⟨[.ofList [0, 2], .ofList [2]]⟩, ⟨[.ofList [1], .ofList [0]]⟩,
      ⟨[.ofList [2], .ofList [1]]⟩]
    run false 15 (fun _ => false) G sts = .error (.assertion .modeReplace) := by
  decide +kernel

end Clou
