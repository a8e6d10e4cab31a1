-- SUMMARY: The whole pass: every run of the function that it leaves meets a fence on its way along what a mode asks for.
import Serberus.Mitigation.Collected

/-!
# What the Pass Protects

The collection, the min-cut algorithm and the insertion of the fences put together. Whatever
a mode asks to keep apart, no run of the function that the pass leaves gets from the one to
the other without a fence.
-/

open Relation

namespace Clou.Mitigation

open ControlFlow Leakage

variable {β ν : Type} [DecidableEq β] [LinearOrder ν] {L : IR β ν} {S : Setup ν} {o : Options}
  {m : Modes} {F : Function β ν} {Q : Queries ν} {F' : CFG β ν} {p : List (Set ν)} {os w : List ν}

/-- `isa<PHINode>` -/
def isPHINode (I : Instruction ν) : Bool :=
  match I.kind with
  | .operation .phi _ => true
  | _ => false

/-- What `L` says fits the function, and no terminator of it names a block twice. -/
structure Describes (L : IR β ν) (F : Function β ν) : Prop where
  lawful : L.Lawful
  wellFormed : L.WellFormed F.cfg
  slots : ∀ P ∈ F.cfg.blocks, P.succs.Nodup
  phi : ∀ I ∈ F.ir.instructions, L.isPHINode I.id = isPHINode I

/-! ## The Function as the Insertion Sees It -/

omit [LinearOrder ν] in
theorem not_phi_of_isReturn {I : Instruction ν} (h : isReturn I = true) : isPHINode I = false := by
  unfold isReturn at h
  unfold isPHINode
  split at h
  · rename_i hkind
    rw [hkind]
  · cases h

omit [DecidableEq β] in
theorem not_phi_of_isFunctionCall {A : Answers ν} {I : Instruction ν} (hI : I ∈ F.ir.instructions)
    (h : A.isFunctionCall F I.id = true) : isPHINode I = false := by
  obtain ⟨id, isVoidTy, isPointerTy, kind⟩ := I
  unfold Answers.isFunctionCall at h
  rw [IRFunction.instruction?_eq_some.mpr ⟨hI, rfl⟩] at h
  cases kind <;> first | rfl | cases h

theorem Describes.lawful_passIR (hL : Describes L F) : (passIR F Q.toAnswers L).Lawful where
  lfence_mitigation := hL.lawful.lfence_mitigation
  lfence_phi := hL.lawful.lfence_phi
  mfence_phi := hL.lawful.mfence_phi
  phi_mitigation := hL.lawful.phi_mitigation
  critical := hL.lawful.critical
  single := hL.lawful.single

/-- The PHIs of a function are neither returns nor calls. -/
theorem Describes.fit_passIR (hL : Describes L F) : Fit (passIR F Q.toAnswers L) F.cfg where
  wellFormed := hL.wellFormed
  slots := hL.slots
  phi i hphi := by
    change ((F.ir.instruction? i).any isReturn || Q.isFunctionCall F i) = false
    cases hfind : F.ir.instruction? i with
    | none => simp [Answers.isFunctionCall, hfind]
    | some I =>
      obtain ⟨hI, rfl⟩ := IRFunction.instruction?_eq_some.mp hfind
      have hphi : isPHINode I = true := (hL.phi I hI).symm.trans hphi
      have hreturn : isReturn I = false := Bool.eq_false_of_not_eq_true fun h => by
        simp [not_phi_of_isReturn h] at hphi
      have hcall : Q.isFunctionCall F I.id = false := Bool.eq_false_of_not_eq_true fun h => by
        simp [not_phi_of_isFunctionCall hI h] at hphi
      simp [hreturn, hcall]

/-! ## The Last Instructions of Pairs -/

omit [LinearOrder ν] in
/-- PHIs transmit nothing. -/
theorem not_sensitive_phi {T : Instruction ν} (h : isPHINode T = true) (V : ν) :
    ¬ Sensitive T V := by
  rintro ⟨ops, hops, op, hop, -⟩
  unfold getTransmitterSensitiveOperands at hops
  unfold isPHINode at h
  split at h
  · rename_i hkind
    split_ifs at hops
    · cases hops
      cases hop
    · simp only [hkind] at hops
      cases hops
      cases hop
  · cases h

omit [LinearOrder ν] in
theorem not_phi_of_sensitive {T : Instruction ν} {V : ν} (h : Sensitive T V) :
    isPHINode T = false :=
  Bool.eq_false_of_not_eq_true fun hphi => not_sensitive_phi hphi V h

/-- No PHI is the last instruction of a pair, unless it has no other instructions. -/
theorem IsPair.last_not_phi (hp : IsPair F o m Q p) (hsome : ∀ W ∈ p, ∃ u, u ∈ W) {W : Set ν}
    (hW : p.getLast? = some W) {t : ν} (ht : t ∈ W) :
    ∃ T ∈ F.ir.instructions, T.id = t ∧ isPHINode T = false := by
  have hvulnerable {I : ν} (h : IsVulnerable F I t) :
      ∃ T ∈ F.ir.instructions, T.id = t ∧ isPHINode T = false := by
    obtain ⟨-, T, hT, hid, L, ⟨V, hsensitive, -⟩, -⟩ := h
    exact ⟨T, hT, hid, not_phi_of_sensitive hsensitive⟩
  cases hp <;> obtain rfl := Option.some.inj hW
  case ncasXmit => exact hvulnerable ht
  case ncasXmitExpanded => exact hvulnerable ht
  case ncasCtrl =>
    obtain ⟨C, hC, hid, hctrl⟩ := ht
    refine ⟨C, hC, hid, ?_⟩
    rcases Bool.or_eq_true_iff.mp hctrl with hcall | hreturn
    · exact not_phi_of_isFunctionCall hC hcall
    · exact not_phi_of_isReturn hreturn
  case ncalXmit T L hmode hplain hT hL =>
    obtain ⟨V, hsensitive, -⟩ := hL
    exact ⟨T, hT, ht.symm, not_phi_of_sensitive hsensitive⟩
  case ncalXmitExpanded T L hmode hexpand hne hT hL =>
    obtain ⟨V, hsensitive, -⟩ := hL
    exact ⟨T, hT, ht.symm, not_phi_of_sensitive hsensitive⟩
  case ncalGlob i L hmode hi hleak =>
    obtain ⟨SV, ptr, hkind, -⟩ := hleak
    exact ⟨i, hi, ht.symm, by rw [isPHINode, hkind]⟩
  case entryXmit =>
    obtain ⟨T, hT, hid, ⟨-, -, L, ⟨V, hsensitive, -⟩, -⟩ | ⟨-, V, hsensitive, -⟩⟩ := ht
    · exact ⟨T, hT, hid, not_phi_of_sensitive hsensitive⟩
    · exact ⟨T, hT, hid, not_phi_of_sensitive hsensitive⟩
  case loadXmit T hmode hT =>
    obtain ⟨L, V, hsensitive, -⟩ := hsome _ (.head _)
    exact ⟨T, hT, ht.symm, not_phi_of_sensitive hsensitive⟩
  case calls =>
    obtain ⟨T, hT, hid, V, hsensitive, -⟩ := ht
    exact ⟨T, hT, hid, not_phi_of_sensitive hsensitive⟩
  case leaving i hmode hi hleaves =>
    refine ⟨i, hi, ht.symm, ?_⟩
    rcases hleaves with hreturn | hopen
    · exact not_phi_of_isReturn hreturn
    · exact not_phi_of_isFunctionCall hi (Bool.and_eq_true_iff.mp hopen).1

/-! ## The Pass -/

omit [DecidableEq β] in
theorem hasWalk_setsOf {E : ν → ν → Prop} {st : List (OrdSet ν)} :
    Walk.HasWalk E (setsOf st) ↔ Walk.HasWalk E st := by
  unfold Walk.HasWalk setsOf
  simp only [List.forall₂_map_right_iff]
  rfl

theorem pairsOver_of_collected (hQ : Prepared F Q) {s : PassState ν} {ndebug : Bool}
    (hret : collectPairs F ndebug o m Q = .ok s) : PairsOver F.cfg s.sts := by
  intro st hst
  obtain ⟨hlength, hover⟩ := ((mem_collectPairs hret).mp hst).within hQ
  refine ⟨by simpa [setsOf] using hlength, fun W hW u hu => hover {u | u ∈ W} ?_ u hu⟩
  exact List.mem_map_of_mem hW

theorem IsPair.length_le (hp : IsPair F o m Q p) : p.length ≤ 3 := by
  cases hp <;> simp

/-- Three numbers for each instruction are enough for the pairs. -/
theorem pairsFit_of_collected (hsize : 3 * F.cfg.instructions.length < UInt32.size)
    {s : PassState ν} {ndebug : Bool} (hret : collectPairs F ndebug o m Q = .ok s) :
    PairsFit F.cfg s.sts := by
  intro st hst
  have hlength := ((mem_collectPairs hret).mp hst).length_le
  rw [setsOf, List.length_map] at hlength
  calc F.cfg.instructions.length * st.length ≤ F.cfg.instructions.length * 3 :=
        Nat.mul_le_mul_left _ hlength
    _ = 3 * F.cfg.instructions.length := Nat.mul_comm _ _
    _ < UInt32.size := hsize

/-- The pass puts fences on edges that separate all pairs that the modes ask for. -/
theorem mitigatePass_placed (hL : Describes L F) (hQ : Prepared F Q) (hpos : S.weighting.Positive)
    (hsize : 3 * F.cfg.instructions.length < UInt32.size)
    (hret : mitigatePass F L S false o m Q = .ok F') :
    ∃ cutEdges A, Placed (passIR F Q.toAnswers L) F.cfg
        (cutEdges.map fun e => (e.src, e.dst)) F' A ∧
      ∀ p, IsPair F o m Q p →
        ¬ Walk.HasWalk (Uncut (passIR F Q.toAnswers L) F.cfg cutEdges) p := by
  obtain ⟨s, hcollect, hret⟩ := Exec.bind_eq_ok.mp hret
  obtain ⟨cutEdges, A, hplaced, hnot⟩ := cutAndMitigate_placed hL.lawful_passIR
    hL.fit_passIR.wellFormed hpos (pairsOver_of_collected hQ hcollect)
    (pairsFit_of_collected hsize hcollect) hret
  refine ⟨cutEdges, A, hplaced, fun p hp hwalk => ?_⟩
  obtain ⟨st, rfl⟩ := exists_setsOf (hp.within hQ).2
  exact hnot st ((mem_collectPairs hcollect).mpr hp) (hasWalk_setsOf.mp hwalk)

/-- The last instruction of a trace along a pair is no PHI. -/
theorem IsPair.last_of_along (hL : Describes L F) (hp : IsPair F o m Q p)
    (halong : Walk.Along p os) :
    ∀ t ∈ os.getLast?, (passIR F Q.toAnswers L).isPHINode t = false := by
  intro t ht
  obtain ⟨W, hW, htW⟩ := halong.last ht
  obtain ⟨T, hT, rfl, hphi⟩ := hp.last_not_phi halong.nonempty hW htW
  exact (hL.phi T hT).trans hphi

/-- Every run of the function that the pass leaves is guarded on its way along a pair that a mode
asks for. -/
theorem mitigatePass_guards (hL : Describes L F) (hQ : Prepared F Q)
    (hpos : S.weighting.Positive) (hsize : 3 * F.cfg.instructions.length < UInt32.size)
    (hret : mitigatePass F L S false o m Q = .ok F')
    (hp : IsPair F o m Q p) (halong : Walk.Along p os)
    (htrace : Trace (passIR F Q.toAnswers L) F.cfg F' os w)
    (hstart : ∀ s ∈ os.head?, LoneJump F.cfg s → Arrives F.cfg F' w) :
    Guarded (passIR F Q.toAnswers L) F.cfg w := by
  obtain ⟨cutEdges, A, hplaced, hnot⟩ := mitigatePass_placed hL hQ hpos hsize hret
  exact hplaced.guarded_pair hL.fit_passIR (hnot p hp) halong htrace hstart
    (hp.last_of_along hL halong)

/-! ## The Gadget, Mitigated -/

/-- The gadget with a fence before the load from an address that the caller chooses. -/
def mitigatedGadget : CFG Nat Instr where
  entry := ⟨0, [⟨.op, 0⟩, ⟨.lfence, 7⟩, ⟨.op, 1⟩, ⟨.op, 2⟩], ⟨.ret, 3⟩, []⟩
  rest := []
  labels_nodup := by decide
  instructions_nodup := by decide
  succs_mem := by decide
  entry_not_succ := by decide

def ncalOnly : Modes := ⟨false, false, false, false, false⟩

theorem mitigatePass_gadget : mitigatePass gadget (numberedIR false) checkedSetup false gadgetOptions
    ncalOnly gadgetQueries = .ok mitigatedGadget := by
  have hblocks : (mitigatePass gadget (numberedIR false) checkedSetup false gadgetOptions ncalOnly
      gadgetQueries).map (·.blocks) = .ok mitigatedGadget.blocks := by
    decide +kernel
  cases hret : mitigatePass gadget (numberedIR false) checkedSetup false gadgetOptions ncalOnly
      gadgetQueries with
  | error f =>
    rw [hret] at hblocks
    cases hblocks
  | ok F' =>
    rw [hret] at hblocks
    rw [eq_of_blocks (Except.ok.inj hblocks)]

theorem describes_gadget : Describes (numberedIR false) gadget where
  lawful := numberedIR_lawful false
  wellFormed := by decide
  slots := by decide
  phi := by decide

/-- The first instruction is a source of the load, since the address is an argument. -/
theorem isSource_gadget : IsSource gadget gadgetQueries.toAnswers ⟨.op, 1⟩ ⟨.op, 0⟩ := by
  have hedge : gadget.cfg.Edge ⟨.op, 0⟩ ⟨.op, 1⟩ := by decide
  exact ⟨.single hedge, .inl ⟨⟨.op, 9⟩, ⟨.op, 9⟩, rfl, by decide, .refl, rfl⟩⟩

theorem along_gadget :
    Walk.Along [{J | IsSource gadget gadgetQueries.toAnswers ⟨.op, 1⟩ J}, {⟨.op, 1⟩}, {⟨.op, 2⟩}]
      [⟨.op, 0⟩, ⟨.op, 1⟩, ⟨.op, 2⟩] := by
  have hsink : Walk.Along [({⟨.op, 2⟩} : Set Instr)] [⟨.op, 2⟩] := Walk.along_single rfl
  have hload : Walk.Along [({⟨.op, 1⟩} : Set Instr), {⟨.op, 2⟩}] [⟨.op, 1⟩, ⟨.op, 2⟩] :=
    hsink.cons rfl []
  exact hload.cons isSource_gadget []

theorem trace_gadget :
    Trace (passIR gadget gadgetQueries.toAnswers (numberedIR false)) gadget.cfg mitigatedGadget
      [⟨.op, 0⟩, ⟨.op, 1⟩, ⟨.op, 2⟩] [⟨.op, 0⟩, ⟨.lfence, 7⟩, ⟨.op, 1⟩, ⟨.op, 2⟩] :=
  .piece ⟨by decide, by decide, rfl⟩

theorem start_gadget : ∀ s ∈ [(⟨.op, 0⟩ : Instr), ⟨.op, 1⟩, ⟨.op, 2⟩].head?,
    ¬ LoneJump gadget.cfg s := by
  decide

theorem mitigatePass_guards_gadget :
    Guarded (passIR gadget gadgetQueries.toAnswers (numberedIR false)) gadget.cfg
      [⟨.op, 0⟩, ⟨.lfence, 7⟩, ⟨.op, 1⟩, ⟨.op, 2⟩] := by
  have htransmits : Transmits gadget gadgetQueries.toAnswers
      ⟨⟨.op, 2⟩, false, false, .load ⟨.op, 1⟩ true⟩ ⟨.op, 1⟩ :=
    ⟨⟨.op, 1⟩, ⟨_, rfl, _, .head _, rfl⟩, rfl, _, rfl, by decide⟩
  have hpair : IsPair gadget gadgetOptions ncalOnly gadgetQueries
      [{J | IsSource gadget gadgetQueries.toAnswers ⟨.op, 1⟩ J}, {⟨.op, 1⟩}, {⟨.op, 2⟩}] :=
    .ncalXmitExpanded rfl rfl (by decide) (by decide) htransmits
  exact mitigatePass_guards describes_gadget prepared_gadget checkedSetup_positive (by decide)
    mitigatePass_gadget hpair along_gadget trace_gadget
    fun s hs hlone => absurd hlone (start_gadget s hs)

end Clou.Mitigation
