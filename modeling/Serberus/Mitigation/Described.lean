-- SUMMARY: What each mode asks for: the sources of an access, the transmitters, and the pairs of sets of instructions.
import Mathlib.Data.Set.Insert
import Serberus.Mitigation.Pairs

/-!
# What the Modes Ask For

`IsPair` says what the modes are for: it describes the pairs by data flow and reachability
instead of searches and loops. The searches of the pass find what the descriptions say.
-/

open Relation

namespace Clou.Mitigation

open ControlFlow Leakage

/-! ## The Descriptions -/

section Descriptions

variable {β ν : Type} [DecidableEq β] [LinearOrder ν] (F : Function β ν)

/-- `V` is computed from the load `L`. -/
def LoadedFrom (V L : ν) : Prop := isLoad F L = true ∧ ReflTransGen F.ir.OperandEdge V L

/-- The instruction transmits a value that is computed from the load `L`. -/
def TransmitsLoad (T : Instruction ν) (L : ν) : Prop := ∃ V, Sensitive T V ∧ LoadedFrom F V L

def TransmitsNonConstant (A : Answers ν) (T : Instruction ν) : Prop :=
  ∃ V, Sensitive T V ∧ A.isConstant V = false

/-- Where a value that an address is computed from becomes known. An argument is known from the
first instruction on. -/
def Function.sourceOf (V : ν) : ν := if (F.ir.instruction? V).isSome then V else F.cfg.first

/-- `J` is a source of the access `I`: it leads to the access, and it is what the address is
computed from, a terminator that may miss the access, or a call. -/
def IsSource (A : Answers ν) (I J : ν) : Prop :=
  TransGen F.cfg.Edge J I ∧
    ((∃ ptr V, (F.ir.instruction? I).bind getPointerOperand = some ptr ∧ F.ir.IsIncomingLoad V ∧
        ReflTransGen F.ir.OperandEdge ptr V ∧ J = F.sourceOf V) ∨
      (F.isTerminator J = true ∧ ∃ K, F.cfg.Edge J K ∧ ¬ TransGen F.cfg.Edge K I) ∨
      A.isFunctionCall F J = true)

/-- A transmitter that the access leads to, of a value from a load that it leads to. -/
def IsVulnerable (I T : ν) : Prop :=
  ReflTransGen F.cfg.Edge I T ∧
    ∃ t ∈ F.ir.instructions, t.id = T ∧ ∃ L, TransmitsLoad F t L ∧ ReflTransGen F.cfg.Edge I L

/-- An access that secrets may be written with. -/
def IsNcas (o : Options) (A : Answers ν) (I : Instruction ν) : Prop :=
  IsAccess o F A I ∨ A.isMemCpyInlineInst I = true

/-- A transmitter of a constant-address load that no call comes before, or of anything but a
constant behind a call. -/
def IsEntryXmit (A : Answers ν) (T : ν) : Prop :=
  ∃ t ∈ F.ir.instructions, t.id = T ∧
    ((ReflTransGen (fun I J => J ∈ preCallSuccs F A I) F.cfg.first T ∧
        A.isFunctionCall F T = false ∧
        ∃ L, TransmitsLoad F t L ∧ isConstantLoad F A L = true) ∨
      ((∃ C ∈ F.cfg.instructions, isCallBase F C = true ∧ ReflTransGen F.cfg.Edge C T) ∧
        TransmitsNonConstant A t))

/-- `J` comes directly before `I`; the first instruction does when nothing else does. -/
def IsBefore (I J : ν) : Prop := F.cfg.Edge J I ∨ (∀ K, ¬ F.cfg.Edge K I) ∧ J = F.cfg.first

/-- What `ncal_glob` counts as a leak of the load `L` to a global variable. -/
def LeaksToGlobal (Q : Queries ν) (SI : Instruction ν) (L : ν) : Prop :=
  ∃ SV ptr, SI.kind = .store SV ptr ∧ Q.isConstantAddress ptr = true ∧
    (∀ W, IsBaseOf Q.addressKind ptr W → (Q.addressKind W).isGlobalVariable = true) ∧
    Q.nonspeculativelySecret SV = false ∧ Q.secret F SV = true ∧
    ∃ orgs, Q.taints.find? SV = some orgs ∧ L ∈ orgs

/-- The pairs of the modes, as lists of sets. -/
inductive IsPair (o : Options) (m : Modes) (Q : Queries ν) : List (Set ν) → Prop where
  | ncasXmit {i : Instruction ν} (hmode : o.ncasXmit = true) (hexpand : o.expandSTs = false)
      (hi : i ∈ F.ir.instructions) (hncas : IsNcas F o Q.toAnswers i) :
      IsPair o m Q [{i.id}, {T | IsVulnerable F i.id T}]
  | ncasXmitExpanded {i : Instruction ν} (hmode : o.ncasXmit = true) (hexpand : o.expandSTs = true)
      (hi : i ∈ F.ir.instructions) (hncas : IsNcas F o Q.toAnswers i) :
      IsPair o m Q [{J | IsSource F Q.toAnswers i.id J}, {i.id}, {T | IsVulnerable F i.id T}]
  | ncasCtrl (hmode : m.ncasCtrl = true) :
      IsPair o m Q [{I | ∃ i ∈ F.ir.instructions, i.id = I ∧ IsNcas F o Q.toAnswers i},
        {C | ∃ c ∈ F.ir.instructions, c.id = C ∧ isCtrl F Q.toAnswers c = true}]
  | ncalXmit {T : Instruction ν} {L : ν} (hmode : o.ncalXmit = true)
      (hplain : o.expandSTs = false ∨ L = F.cfg.first) (hT : T ∈ F.ir.instructions)
      (hL : Transmits F Q.toAnswers T L) : IsPair o m Q [{L}, {T.id}]
  | ncalXmitExpanded {T : Instruction ν} {L : ν} (hmode : o.ncalXmit = true)
      (hexpand : o.expandSTs = true) (hne : L ≠ F.cfg.first) (hT : T ∈ F.ir.instructions)
      (hL : Transmits F Q.toAnswers T L) :
      IsPair o m Q [{J | IsSource F Q.toAnswers L J}, {L}, {T.id}]
  | ncalGlob {i : Instruction ν} {L : ν} (hmode : m.ncalGlob = true) (hi : i ∈ F.ir.instructions)
      (hleak : LeaksToGlobal F Q i L) : IsPair o m Q [{L}, {i.id}]
  | entryXmit (hmode : m.entryXmit = true) :
      IsPair o m Q [{F.cfg.first}, {T | IsEntryXmit F Q.toAnswers T}]
  | loadXmit {T : Instruction ν} (hmode : m.loadXmit = true) (hT : T ∈ F.ir.instructions) :
      IsPair o m Q [{L | TransmitsLoad F T L}, {T.id}]
  | calls (hmode : m.loadXmit = true ∨ m.callXmit = true) :
      IsPair o m Q [{C | C ∈ F.cfg.instructions ∧ Q.isFunctionCall F C = true},
        {T | ∃ t ∈ F.ir.instructions, t.id = T ∧ TransmitsNonConstant Q.toAnswers t}]
  | leaving {i : Instruction ν} (hmode : m.loadXmit = true) (hi : i ∈ F.ir.instructions)
      (hleaves : isReturn i = true ∨ Q.isOpenCall F i = true) :
      IsPair o m Q [{J | IsBefore F i.id J}, {i.id}]

end Descriptions

/-! ## Sources -/

section Sources

variable {β ν : Type} [DecidableEq β] [LinearOrder ν] {F : Function β ν} {A : Answers ν}
  {ndebug : Bool} {I J V L ptr : ν}

omit [DecidableEq β] in
theorem mem_incomingLoads {loads : OrdSet ν} (hret : F.incomingLoads V = .ok loads) :
    L ∈ loads ↔ F.ir.IsIncomingLoad L ∧ ReflTransGen F.ir.OperandEdge V L := by
  obtain ⟨loads', hret', hmem⟩ := getIncomingLoads_spec F.ir V le_rfl
  obtain rfl : loads = loads' := Except.ok.inj (hret.symm.trans hret')
  exact hmem L

omit [DecidableEq β] in
theorem isLoad_iff : isLoad F L = true ↔
    ∃ i ∈ F.ir.instructions, i.id = L ∧ ∃ p isUnordered, i.kind = .load p isUnordered := by
  unfold isLoad
  constructor
  · intro h
    split at h
    · rename_i hfind
      obtain ⟨hi, hid⟩ := IRFunction.instruction?_eq_some.mp hfind
      exact ⟨_, hi, hid, _, _, rfl⟩
    · cases h
  · rintro ⟨⟨id, isVoidTy, isPointerTy, kind⟩, hi, rfl, p, isUnordered, hkind⟩
    rw [IRFunction.instruction?_eq_some.mpr ⟨hi, rfl⟩]
    cases hkind
    rfl

omit [DecidableEq β] in
/-- The incoming loads that are loads. -/
theorem mem_loads {loads : OrdSet ν} (hret : F.incomingLoads V = .ok loads) :
    L ∈ loads ∧ isLoad F L = true ↔ LoadedFrom F V L := by
  rw [mem_incomingLoads hret]
  unfold LoadedFrom
  constructor
  · rintro ⟨⟨-, hchain⟩, hload⟩
    exact ⟨hload, hchain⟩
  · rintro ⟨hload, hchain⟩
    obtain ⟨i, hi, hid, p, isUnordered, hkind⟩ := isLoad_iff.mp hload
    exact ⟨⟨.inr ⟨i, hi, hid, by rw [Instruction.isLoadOrCall, hkind]⟩, hchain⟩, hload⟩

omit [DecidableEq β] in
theorem mem_addAddressSource {reach sources sources' : OrdSet ν}
    (hret : addAddressSource ndebug F I reach sources V = .ok sources') :
    J ∈ sources' ↔ J ∈ sources ∨ J = F.sourceOf V := by
  unfold addAddressSource at hret
  unfold Function.sourceOf
  by_cases hinst : (F.ir.instruction? V).isSome = true
  · rw [if_pos hinst] at hret ⊢
    cases hret
    rw [OrdSet.mem_insert, or_comm]
  · rw [if_neg hinst] at hret ⊢
    by_cases harg : F.ir.isArgument V = true
    · rw [if_pos harg] at hret
      obtain ⟨-, -, hret⟩ := Exec.bind_eq_ok.mp hret
      obtain ⟨-, -, hret⟩ := Exec.bind_eq_ok.mp hret
      cases hret
      rw [OrdSet.mem_insert, or_comm]
    · rw [if_neg harg] at hret
      cases hret

/-- The sources of an access are the described ones. -/
theorem mem_getSourcesForNCAAccess {sources : OrdSet ν}
    (hret : getSourcesForNCAAccess ndebug F A I = .ok sources) :
    J ∈ sources ↔ IsSource F A I J := by
  unfold getSourcesForNCAAccess at hret
  obtain ⟨-, -, hret⟩ := Exec.bind_eq_ok.mp hret
  obtain ⟨-, -, hret⟩ := Exec.bind_eq_ok.mp hret
  cases hptr : (F.ir.instruction? I).bind getPointerOperand with
  | none =>
    rw [hptr] at hret
    cases hret
  | some ptr =>
    rw [hptr] at hret
    obtain ⟨loads, hloads, hret⟩ := Exec.bind_eq_ok.mp hret
    obtain ⟨address, haddress, hret⟩ := Exec.bind_eq_ok.mp hret
    cases hret
    have hmem : J ∈ address ↔ ∃ V, F.ir.IsIncomingLoad V ∧ ReflTransGen F.ir.OperandEdge ptr V ∧
        J = F.sourceOf V := by
      rw [Exec.foldlM_adds (P := (J ∈ ·)) (fun V _ _ _ => mem_addAddressSource) haddress]
      simp [mem_incomingLoads hloads, and_assoc]
    unfold IsSource
    rw [hptr]
    simp only [OrdSet.mem_filter, mem_insertAll, List.mem_filter, OrdSet.mem_toList, hmem,
      decide_eq_true_eq, Function.mem_reach, Bool.and_eq_true, List.any_eq_true,
      CFG.mem_successorsInst, Option.some.injEq]
    rw [and_comm]
    refine and_congr_right fun hreach => ?_
    simp [hreach, or_assoc]

end Sources

/-! ## Transmitters -/

section Transmitters

variable {β ν : Type} [DecidableEq β] [LinearOrder ν] {F : Function β ν} {A : Answers ν}
  {I : Instruction ν} {C L T V : ν} {b : Bool}

omit [DecidableEq β] in
/-- A test of the loads that a transmitted value is computed from. -/
theorem anyM_loads {ops : List (TransmitterOperand ν)} {q : ν → Bool}
    (hq : ∀ L, q L = true → isLoad F L = true)
    (hops : getTransmitterSensitiveOperands I = .ok ops)
    (hret : (ops.anyM fun op => do
      let loads ← F.incomingLoads op.V
      pure (loads.toList.any q)) = .ok b) :
    b = true ↔ ∃ L, TransmitsLoad F I L ∧ q L = true := by
  rw [Exec.anyM_ok hret]
  constructor
  · rintro ⟨op, hop, htest⟩
    obtain ⟨loads, hloads, htest⟩ := Exec.bind_eq_ok.mp htest
    obtain ⟨L, hL, hqL⟩ := List.any_eq_true.mp (Except.ok.inj htest)
    exact ⟨L, ⟨op.V, ⟨ops, hops, op, hop, rfl⟩, (mem_loads hloads).mp ⟨hL, hq L hqL⟩⟩, hqL⟩
  · rintro ⟨L, ⟨V, ⟨ops', hops', op, hop, rfl⟩, hloaded⟩, hqL⟩
    obtain rfl : ops = ops' := Except.ok.inj (hops.symm.trans hops')
    obtain ⟨loads, hloads⟩ := incomingLoads_returns F op.V
    refine ⟨op, hop, Exec.bind_eq_ok.mpr ⟨loads, hloads, ?_⟩⟩
    exact congrArg Except.ok (List.any_eq_true.mpr ⟨L, ((mem_loads hloads).mpr hloaded).1, hqL⟩)

omit [DecidableEq β] in
theorem isVulnerable_iff {seen : OrdSet ν} (hret : isVulnerable F seen I = .ok b) :
    b = true ↔ ∃ L, TransmitsLoad F I L ∧ L ∈ seen := by
  obtain ⟨ops, hops, hret⟩ := Exec.bind_eq_ok.mp hret
  rw [anyM_loads (fun L hL => (Bool.and_eq_true_iff.mp hL).1) hops hret]
  refine exists_congr fun L => and_congr_right fun htransmits => ?_
  obtain ⟨V, hV, hload, hchain⟩ := htransmits
  simp [hload]

omit [DecidableEq β] in
theorem isConstantLoad_isLoad (h : isConstantLoad F A L = true) : isLoad F L = true := by
  unfold isConstantLoad at h
  split at h
  · rename_i hfind
    rw [isLoad, hfind]
  · cases h

omit [DecidableEq β] in
theorem transmitsConstantLoad_iff (hret : transmitsConstantLoad F A I = .ok b) :
    b = true ↔ ∃ L, TransmitsLoad F I L ∧ isConstantLoad F A L = true := by
  obtain ⟨ops, hops, hret⟩ := Exec.bind_eq_ok.mp hret
  exact anyM_loads (fun L => isConstantLoad_isLoad) hops hret

theorem transmitsNonConstant_iff (hret : transmitsNonConstant A I = .ok b) :
    b = true ↔ TransmitsNonConstant A I := by
  obtain ⟨ops, hops, hret⟩ := Exec.bind_eq_ok.mp hret
  cases hret
  simp [TransmitsNonConstant, Sensitive, hops]

omit [DecidableEq β] in
/-- A loop collects the instructions that it comes to and that pass its test. -/
theorem mem_foldlM_addXmitIf {test : Instruction ν → Exec Bool} {P : Instruction ν → Prop}
    (htest : ∀ i b, test i = .ok b → (b = true ↔ P i)) {l : List ν} {xmits xmits' : OrdSet ν}
    (hret : l.foldlM (addXmitIf F test) xmits = .ok xmits') :
    T ∈ xmits' ↔ T ∈ xmits ∨ T ∈ l ∧ ∃ t ∈ F.ir.instructions, t.id = T ∧ P t := by
  have hadds := Exec.foldlM_adds (P := (T ∈ ·))
    (Q := fun V => V = T ∧ ∃ t ∈ F.ir.instructions, t.id = T ∧ P t)
    (fun V _ xmits xmits' hret => by
      unfold addXmitIf at hret
      cases hfind : F.ir.instruction? V with
      | none =>
        rw [hfind] at hret
        cases hret
        refine ⟨.inl, fun h => h.elim id ?_⟩
        rintro ⟨rfl, t, ht, hid, -⟩
        rw [IRFunction.instruction?_eq_some.mpr ⟨ht, hid⟩] at hfind
        cases hfind
      | some i =>
        rw [hfind] at hret
        obtain ⟨found, hfound, hret⟩ := Exec.bind_eq_ok.mp hret
        obtain ⟨hi, hid⟩ := IRFunction.instruction?_eq_some.mp hfind
        have hP : found = true ↔ ∃ t ∈ F.ir.instructions, t.id = V ∧ P t := by
          rw [htest i found hfound]
          refine ⟨fun hP => ⟨i, hi, hid, hP⟩, ?_⟩
          rintro ⟨t, ht, hid', hP⟩
          rwa [IRFunction.eq_of_id hi ht (hid.trans hid'.symm)]
        cases hret
        by_cases hT : V = T
        · subst hT
          rw [← hP]
          cases found <;> simp
        · cases found <;> simp [hT, Ne.symm hT]) hret
  rw [hadds]
  refine or_congr_right ⟨?_, ?_⟩
  · rintro ⟨V, hV, rfl, hP⟩
    exact ⟨hV, hP⟩
  · rintro ⟨hT, hP⟩
    exact ⟨T, hT, rfl, hP⟩

/-- The transmitters of an access under `ncas_xmit`. -/
theorem mem_vulnerable {SI : ν} (hSI : SI ∈ F.cfg.instructions) {xmits : OrdSet ν}
    (hret : (F.reached SI).toList.foldlM (addVulnerable F (F.reached SI)) ∅ = .ok xmits) :
    T ∈ xmits ↔ IsVulnerable F SI T := by
  rw [mem_foldlM_addXmitIf (P := fun t => ∃ L, TransmitsLoad F t L ∧ L ∈ F.reached SI)
    (fun i b => isVulnerable_iff) hret]
  simp only [OrdSet.not_mem_empty, false_or, OrdSet.mem_toList, Function.mem_reached hSI]
  rfl

/-- A forward search comes to what it can reach. -/
theorem Function.mem_sweepFrom {succs : ν → List ν} {todo : List ν}
    (hsuccs : ∀ I, (succs I).Sublist (F.cfg.successorsInst I))
    (htodo : ∀ I ∈ todo, I ∈ F.cfg.instructions) :
    V ∈ F.sweepFrom succs todo ↔ ∃ I ∈ todo, ReflTransGen (fun I J => J ∈ succs I) I V := by
  have hclosed : ∀ u ∈ F.cfg.instructions.toFinset, ∀ v ∈ succs u,
      v ∈ F.cfg.instructions.toFinset := fun u _ v hv =>
    List.mem_toFinset.mpr (CFG.mem_successorsInst.mp ((hsuccs u).subset hv)).mem.2
  have hfuel : todo.length + ∑ u ∈ F.cfg.instructions.toFinset, (succs u).length ≤
      todo.length + (F.cfg.instructions.map fun i => (F.cfg.successorsInst i).length).sum := by
    have hnodup : F.cfg.instructions.Nodup := F.cfg.instructions_nodup
    rw [← List.sum_toFinset _ hnodup]
    exact Nat.add_le_add_left (Finset.sum_le_sum fun u _ => (hsuccs u).length_le) _
  exact Search.mem_sweep hclosed (by simpa using htodo) hfuel

/-- The transmitters under `entry_xmit`. -/
theorem mem_getEntryXmits {xmits : OrdSet ν} (hret : getEntryXmits F A = .ok xmits) :
    T ∈ xmits ↔ IsEntryXmit F A T := by
  obtain ⟨preXmits, hpre, hpost⟩ := Exec.bind_eq_ok.mp hret
  have hsub (I : ν) : (preCallSuccs F A I).Sublist (F.cfg.successorsInst I) := by
    unfold preCallSuccs
    split_ifs
    · exact List.nil_sublist _
    · exact List.Sublist.refl _
  have hpreCall : T ∈ preCall F A ↔
      ReflTransGen (fun I J => J ∈ preCallSuccs F A I) F.cfg.first T ∧
        A.isFunctionCall F T = false := by
    rw [preCall, List.mem_filter, Function.mem_sweepFrom hsub (by simp [CFG.first_mem])]
    simp
  have hpostCall : T ∈ postCall F ↔
      ∃ C ∈ F.cfg.instructions, isCallBase F C = true ∧ ReflTransGen F.cfg.Edge C T := by
    rw [postCall, Function.mem_sweepFrom (fun _ => List.Sublist.refl _)
      (fun C hC => (List.mem_filter.mp hC).1)]
    simp only [List.mem_filter, CFG.mem_successorsInst, and_assoc]
  rw [mem_foldlM_addXmitIf (fun i b => transmitsNonConstant_iff) hpost,
    mem_foldlM_addXmitIf (fun i b => transmitsConstantLoad_iff) hpre, hpreCall, hpostCall]
  unfold IsEntryXmit
  simp only [OrdSet.not_mem_empty, false_or]
  constructor
  · rintro (⟨⟨hreach, hcall⟩, t, ht, hid, hload⟩ | ⟨hreach, t, ht, hid, hxmit⟩)
    · exact ⟨t, ht, hid, .inl ⟨hreach, hcall, hload⟩⟩
    · exact ⟨t, ht, hid, .inr ⟨hreach, hxmit⟩⟩
  · rintro ⟨t, ht, hid, ⟨hreach, hcall, hload⟩ | ⟨hreach, hxmit⟩⟩
    · exact .inl ⟨⟨hreach, hcall⟩, t, ht, hid, hload⟩
    · exact .inr ⟨hreach, t, ht, hid, hxmit⟩

end Transmitters

end Clou.Mitigation
