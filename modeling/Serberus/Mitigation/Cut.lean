-- SUMMARY: Cutting the S-CFG and mitigating the cut edges: the check of the cut always passes, and no trace along the waypoints of a pair is without a fence.
import Serberus.Mitigation.Graph
import Serberus.Mitigation.Traces
import Serberus.MinCutGreedy.CheckCut
import Serberus.MinCutGreedy.Words

/-!
# Cutting and Mitigating

Behind the collection of the ST pairs the pass is one pipeline: it builds the S-CFG, runs the
min-cut algorithm on it, checks the cut when `CHECKCUT` is set, and puts a fence on every
cut edge.
-/

namespace Clou.Mitigation

open ControlFlow CFG Subdivision

variable {β ι : Type} [DecidableEq β] [LinearOrder ι]

/-- How the pass runs: the assertions, the loops and the clock of the min-cut algorithm, the
weights, and whether `CHECKCUT` is set. -/
structure Setup (ι : Type) where
  ndebug : Bool
  fuel : Nat
  timedOut : Nat → Bool
  weighting : Weighting ι
  checkCut : Bool

/-- `checkCut` -/
def checkCut (S : Setup ι) (F : CFG β ι) (sts : List (List (OrdSet ι)))
    (cutset : List (NodeEdge ι)) : Exec Unit :=
  if S.checkCut then
    sts.forM fun st => CheckCut.instCheckCutST S.ndebug S.fuel F.successorsInst st cutset
  else pure ()

/-- What the pass does with the pairs it has collected. -/
def IR.cutAndMitigate (ir : IR β ι) (S : Setup ι) (F : CFG β ι) (sts : List (List (OrdSet ι))) :
    Exec (CFG β ι) := do
  let cutEdges ← Words.run S.ndebug S.fuel S.timedOut (ir.graph S.weighting F) (sts.map ST.mk)
  checkCut S F sts cutEdges
  ir.mitigate S.ndebug F (cutEdges.map fun e => (e.src, e.dst))

/-- Pairs of at least two sets of instructions of the function. -/
def PairsOver (F : CFG β ι) (sts : List (List (OrdSet ι))) : Prop :=
  ∀ st ∈ sts, 2 ≤ st.length ∧ ∀ W ∈ st, ∀ u ∈ W, u ∈ F.instructions

instance (F : CFG β ι) (sts : List (List (OrdSet ι))) : Decidable (PairsOver F sts) :=
  inferInstanceAs (Decidable (∀ _ ∈ _, _))

/-- The instructions of the function can be numbered once for each set of a pair. -/
def PairsFit (F : CFG β ι) (sts : List (List (OrdSet ι))) : Prop :=
  ∀ st ∈ sts, F.instructions.length * st.length < UInt32.size

instance (F : CFG β ι) (sts : List (List (OrdSet ι))) : Decidable (PairsFit F sts) :=
  inferInstanceAs (Decidable (∀ _ ∈ _, _))

/-- The positive scores that the min-cut algorithm relies on. -/
def Weighting.Positive (W : Weighting ι) : Prop :=
  W.weightGraph = true → ∀ i j, 0 < W.score i j

section Cut

variable {ir : IR β ι} {S : Setup ι} {F F' : CFG β ι} {sts : List (List (OrdSet ι))}
  {st : List (OrdSet ι)} {cutEdges : List (NodeEdge ι)} {os w : List ι}

/-! ## The Cut -/

/-- The steps of the S-CFG that are not cut. -/
def Uncut (ir : IR β ι) (F : CFG β ι) (cutEdges : List (NodeEdge ι)) : ι → ι → Prop :=
  Walk.without (fun i j => InGraph ir F (i, j)) (nodeEdgeSet cutEdges)

/-- What the algorithm returns are distinct edges of the S-CFG that separate all pairs. -/
theorem run_separates (hpos : S.weighting.Positive) (hsts : PairsOver F sts) (hfit : PairsFit F sts)
    (hret : Words.run S.ndebug S.fuel S.timedOut (ir.graph S.weighting F) (sts.map ST.mk) =
      .ok cutEdges) :
    cutEdges.Nodup ∧ (∀ e ∈ cutEdges, InGraph ir F (e.src, e.dst)) ∧
      ∀ st ∈ sts, ¬ Walk.HasWalk (Uncut ir F cutEdges) st := by
  have hover : ∀ st ∈ sts.map ST.mk, st.Over (ir.graph S.weighting F) := by
    intro st hst
    obtain ⟨Ws, hWs, rfl⟩ := List.mem_map.mp hst
    exact ⟨(hsts Ws hWs).1, fun W hW u hu => mem_getNodes_graph.mpr ((hsts Ws hWs).2 W hW u hu)⟩
  have hsize : (getNodes (ir.graph S.weighting F)).size ≤ F.instructions.length :=
    OrdSet.size_le_length fun u hu => mem_getNodes_graph.mp hu
  have hfits : Words.StsFit (ir.graph S.weighting F) (sts.map ST.mk) := by
    intro st hst
    obtain ⟨Ws, hWs, rfl⟩ := List.mem_map.mp hst
    exact (Nat.mul_le_mul_right _ hsize).trans_lt (hfit Ws hWs)
  have hedges : (ir.graph S.weighting F).Edge = fun i j => InGraph ir F (i, j) := by
    funext i j
    exact propext edge_graph
  rw [Words.run_eq (positive_graph hpos) hover (.inl hfits)] at hret
  obtain ⟨hnodup, hedge, hnot⟩ := Clou.run_separates (positive_graph hpos) hover hret
  rw [hedges] at hedge hnot
  exact ⟨hnodup, hedge, fun st hst => hnot _ (List.mem_map_of_mem hst)⟩

/-! ## The Check -/

/-- A check of separated pairs does not abort. -/
theorem checkCut_ok (hfuel : 2 * F.instructions.length ≤ S.fuel) (hsts : PairsOver F sts)
    (hnot : ∀ st ∈ sts, ¬ Walk.HasWalk (Uncut ir F cutEdges) st) :
    checkCut S F sts cutEdges = .ok () := by
  have hclosed : ∀ u ∈ F.instructions.toFinset, ∀ v ∈ F.successorsInst u,
      v ∈ F.instructions.toFinset := fun u _ v hv =>
    List.mem_toFinset.mpr (mem_successorsInst.mp hv).mem.2
  have hcheck {st : List (OrdSet ι)} (hst : st ∈ sts) :
      CheckCut.instCheckCutST S.ndebug S.fuel F.successorsInst st cutEdges = .ok () := by
    obtain ⟨succ, hanswers, hsucc⟩ := CheckCut.instSuccs_answers cutEdges hclosed
    obtain ⟨T, hret, hT⟩ : ∃ T,
        CheckCut.instLastReached S.ndebug S.fuel F.successorsInst st cutEdges = .ok T ∧
          ((∃ v, v ∈ T) ↔ Walk.HasWalk (fun u v => v ∈ succ u) st) :=
      CheckCut.lastReached_spec hanswers
        (le_trans (Nat.mul_le_mul_left 2 (List.toFinset_card_le _)) hfuel) (hsts st hst).1
        fun W hW u hu => List.mem_toFinset.mpr ((hsts st hst).2 W hW u hu)
    have hempty : T.isEmpty = true := by
      refine OrdSet.isEmpty_iff.mpr (not_exists.mp fun hreached => hnot st hst ?_)
      refine (hT.mp hreached).mono fun u v hv => ?_
      obtain ⟨hv, hkept⟩ := (hsucc u v).mp hv
      exact ⟨⟨(mem_successorsInst.mp hv).mem.1, List.mem_append_left _ hv⟩, hkept⟩
    unfold CheckCut.instCheckCutST
    rw [hret]
    unfold CheckCut.abortIfReached
    exact if_pos hempty
  unfold checkCut
  split_ifs
  · exact Exec.forM_ok fun st hst => hcheck hst
  · rfl

/-- Setting `CHECKCUT` does not change what the pass does: the check never finds a path. -/
theorem cutAndMitigate_checkCut (ir : IR β ι) (S : Setup ι) (F : CFG β ι)
    (sts : List (List (OrdSet ι))) (hpos : S.weighting.Positive) (hsts : PairsOver F sts)
    (hfit : PairsFit F sts) (hfuel : 2 * F.instructions.length ≤ S.fuel) :
    ir.cutAndMitigate { S with checkCut := true } F sts =
      ir.cutAndMitigate { S with checkCut := false } F sts := by
  have hskip (b : Bool) : ir.cutAndMitigate { S with checkCut := b } F sts =
      Words.run S.ndebug S.fuel S.timedOut (ir.graph S.weighting F) (sts.map ST.mk) >>= fun cutEdges =>
        ir.mitigate S.ndebug F (cutEdges.map fun e => (e.src, e.dst)) := by
    unfold IR.cutAndMitigate
    dsimp only
    cases hret : Words.run S.ndebug S.fuel S.timedOut (ir.graph S.weighting F) (sts.map ST.mk) with
    | error f => rfl
    | ok cutEdges =>
      obtain ⟨-, -, hnot⟩ := run_separates hpos hsts hfit hret
      have hcheck : checkCut { S with checkCut := b } F sts cutEdges = .ok () :=
        checkCut_ok hfuel hsts hnot
      simp only [hcheck, bind, Except.bind]
  rw [hskip, hskip]

/-! ## The Fences -/

theorem cutAndMitigate_placed (hir : ir.Lawful) (hF : ir.WellFormed F) (hpos : S.weighting.Positive)
    (hsts : PairsOver F sts) (hfit : PairsFit F sts) (hret : ir.cutAndMitigate S F sts = .ok F') :
    ∃ cutEdges A, Placed ir F (cutEdges.map fun e => (e.src, e.dst)) F' A ∧
      ∀ st ∈ sts, ¬ Walk.HasWalk (Uncut ir F cutEdges) st := by
  obtain ⟨cutEdges, hrun, hret⟩ := Exec.bind_eq_ok.mp hret
  obtain ⟨-, -, hret⟩ := Exec.bind_eq_ok.mp hret
  obtain ⟨hnodup, hgraph, hnot⟩ := run_separates hpos hsts hfit hrun
  have hinj : Function.Injective fun e : NodeEdge ι => (e.src, e.dst) := by
    rintro ⟨src, dst⟩ ⟨src', dst'⟩ heq
    obtain ⟨rfl, rfl⟩ := Prod.mk.inj heq
    rfl
  have hmem : ∀ e ∈ cutEdges.map fun e => (e.src, e.dst), InGraph ir F e := by
    intro e he
    obtain ⟨ne, hne, rfl⟩ := List.mem_map.mp he
    exact hgraph ne hne
  obtain ⟨F'', A, hret', hplaced⟩ :=
    mitigate_placed hir hF S.ndebug (List.Nodup.map hinj hnodup) hmem
  obtain rfl : F' = F'' := Except.ok.inj (hret.symm.trans hret')
  exact ⟨cutEdges, A, hplaced, hnot⟩

/-- What the pass relies on of the function: no terminator names a block twice, and PHIs are
neither calls nor returns. -/
structure Fit (ir : IR β ι) (F : CFG β ι) : Prop where
  wellFormed : ir.WellFormed F
  slots : ∀ P ∈ F.blocks, P.succs.Nodup
  phi : ∀ i, ir.isPHINode i = true → ir.isExit i = false

/-- Traces along a pair that the cut edges separate are guarded. -/
theorem Placed.guarded_pair {γ : Type} [Membership ι γ] {Ws : List γ} {A : Decoration ι}
    (hF : Fit ir F) (h : Placed ir F (cutEdges.map fun e => (e.src, e.dst)) F' A)
    (hnot : ¬ Walk.HasWalk (Uncut ir F cutEdges) Ws) (halong : Walk.Along Ws os)
    (htrace : Trace ir F F' os w) (hstart : ∀ s ∈ os.head?, LoneJump F s → Arrives F F' w)
    (hlast : ∀ t ∈ os.getLast?, ir.isPHINode t = false) : Guarded ir F w := by
  refine h.guarded_along hF.wellFormed hF.phi hF.slots (fun hwalk => hnot ?_) halong htrace hstart
    hlast
  refine hwalk.mono fun u v huv => ⟨huv.1, fun hcut => huv.2 ?_⟩
  exact List.mem_map_of_mem (f := fun e : NodeEdge ι => (e.src, e.dst)) hcut

/-- When the pass returns, every trace along the waypoints of a pair is guarded. It may
begin at its first waypoint; only before a lone jump it has to begin with what was
inserted there. -/
theorem cutAndMitigate_guards (hir : ir.Lawful) (hF : Fit ir F) (hpos : S.weighting.Positive)
    (hsts : PairsOver F sts) (hfit : PairsFit F sts) (hret : ir.cutAndMitigate S F sts = .ok F')
    (hst : st ∈ sts)
    (halong : Walk.Along st os) (htrace : Trace ir F F' os w)
    (hstart : ∀ s ∈ os.head?, LoneJump F s → Arrives F F' w)
    (hlast : ∀ t ∈ os.getLast?, ir.isPHINode t = false) : Guarded ir F w := by
  obtain ⟨cutEdges, A, hplaced, hnot⟩ :=
    cutAndMitigate_placed hir hF.wellFormed hpos hsts hfit hret
  exact hplaced.guarded_pair hF (hnot st hst) halong htrace hstart hlast

end Cut

section Return

omit [DecidableEq β] [LinearOrder ι] in
/-- A function is determined by its blocks. -/
theorem eq_of_blocks {F F' : CFG β ι} (h : F.blocks = F'.blocks) : F = F' := by
  cases F
  cases F'
  obtain ⟨rfl, rfl⟩ := List.cons.inj h
  rfl

omit [LinearOrder ι] in
instance [DecidableEq ι] (F : CFG β ι) (i j : ι) : Decidable (F.Edge i j) :=
  decidable_of_iff (j ∈ F.successorsInst i) mem_successorsInst

/-- A block with a call in it. -/
def callBlock (fences : List Instr) : BasicBlock Nat Instr where
  label := 0
  body := [⟨.op, 0⟩, ⟨.call, 1⟩, ⟨.op, 2⟩] ++ fences
  terminator := ⟨.ret, 3⟩
  succs := []

/-- A function of this block. -/
def callRet (fences : List Instr) (hnodup : (callBlock fences).instructions.Nodup) :
    CFG Nat Instr where
  entry := callBlock fences
  rest := []
  labels_nodup := List.nodup_singleton 0
  instructions_nodup := by simpa using hnodup
  succs_mem := by simp [callBlock]
  entry_not_succ := by simp [callBlock]

/-- All weights are 1, and the cut is checked. -/
def checkedSetup : Setup Instr := ⟨false, 40, fun _ => false, ⟨false, fun _ _ => 1⟩, true⟩

theorem checkedSetup_positive : checkedSetup.weighting.Positive := fun h => by cases h

theorem fit_callRet : Fit (numberedIR false) (callRet [] (by decide)) where
  wellFormed := by decide
  slots := by decide
  phi i hphi := by
    have hopcode : i.opcode = .phi := of_decide_eq_true hphi
    simp [IR.isExit, numberedIR, hopcode]

theorem cutAndMitigate_checkCut_callRet :
    (numberedIR false).cutAndMitigate { checkedSetup with checkCut := true }
        (callRet [] (by decide)) [[.ofList [⟨.op, 2⟩], .ofList [⟨.op, 0⟩]]] =
      (numberedIR false).cutAndMitigate { checkedSetup with checkCut := false }
        (callRet [] (by decide)) [[.ofList [⟨.op, 2⟩], .ofList [⟨.op, 0⟩]]] :=
  cutAndMitigate_checkCut _ _ _ _ checkedSetup_positive (by decide) (by decide) (by decide)

theorem cutAndMitigate_callRet : (numberedIR false).cutAndMitigate checkedSetup
    (callRet [] (by decide)) [[.ofList [⟨.op, 2⟩], .ofList [⟨.op, 0⟩]]] =
      .ok (callRet [⟨.lfence, 7⟩] (by decide)) := by
  have hblocks : ((numberedIR false).cutAndMitigate checkedSetup (callRet [] (by decide))
      [[.ofList [⟨.op, 2⟩], .ofList [⟨.op, 0⟩]]]).map (·.blocks) =
        .ok (callRet [⟨.lfence, 7⟩] (by decide)).blocks := by
    decide +kernel
  cases hret : (numberedIR false).cutAndMitigate checkedSetup (callRet [] (by decide))
      [[.ofList [⟨.op, 2⟩], .ofList [⟨.op, 0⟩]]] with
  | error f =>
    rw [hret] at hblocks
    cases hblocks
  | ok F' =>
    rw [hret] at hblocks
    rw [eq_of_blocks (Except.ok.inj hblocks)]

/-- A pair that only a return joins: the trace goes from the end of one activation to the
beginning of the next. -/
theorem cutAndMitigate_guards_callRet : Guarded (numberedIR false) (callRet [] (by decide))
    [⟨.op, 2⟩, ⟨.lfence, 7⟩, ⟨.ret, 3⟩, ⟨.op, 0⟩] := by
  have halong : Walk.Along [OrdSet.ofList [(⟨.op, 2⟩ : Instr)], .ofList [⟨.op, 0⟩]]
      [⟨.op, 2⟩, ⟨.ret, 3⟩, ⟨.op, 0⟩] := by
    have hsink : Walk.Along [OrdSet.ofList [(⟨.op, 0⟩ : Instr)]] [⟨.op, 0⟩] :=
      Walk.along_single (by decide)
    exact hsink.cons (by decide) [⟨.ret, 3⟩]
  have htrace : Trace (numberedIR false) (callRet [] (by decide))
      (callRet [⟨.lfence, 7⟩] (by decide)) ([⟨.op, 2⟩] ++ ⟨.ret, 3⟩ :: ⟨.op, 0⟩ :: [])
        ([⟨.op, 2⟩, ⟨.lfence, 7⟩, ⟨.ret, 3⟩] ++ [⟨.op, 0⟩]) := by
    refine .leave ⟨by decide, by decide, rfl⟩ (by decide) (by decide) (by decide) ?_
      (.piece ⟨.singleton _, by decide, rfl⟩)
    -- nothing leads to the first instruction
    intro j hj
    obtain rfl := Option.some.inj hj
    exact .inr fun p => not_edge_first (F := callRet [⟨.lfence, 7⟩] (by decide))
  have hstart : ∀ s ∈ [(⟨.op, 2⟩ : Instr), ⟨.ret, 3⟩, ⟨.op, 0⟩].head?,
      ¬ LoneJump (callRet [] (by decide)) s := by
    decide
  exact cutAndMitigate_guards (numberedIR_lawful false) fit_callRet checkedSetup_positive
    (by decide) (by decide) cutAndMitigate_callRet (List.mem_singleton_self _) halong htrace
    (fun s hs hlone => absurd hlone (hstart s hs)) (by decide)

end Return

end Clou.Mitigation
