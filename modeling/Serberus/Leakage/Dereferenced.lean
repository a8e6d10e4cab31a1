-- SUMMARY: Which dereferenced addresses are treated as transmitted: all but those of the memory intrinsics that return nothing.
import Serberus.Leakage.LeakExact
import Serberus.Leakage.NonspeculativeLeast

/-!
# Dereferenced Addresses

An instruction that accesses memory reveals the addresses that it accesses, and how many
bytes. The transmitter operands are to contain them, and both analyses start from the
transmitter operands and only ever add to them.
-/

namespace Clou.Leakage

variable {ν : Type}

/-! ## Memory Accesses -/

/-- The arguments of a memory intrinsic that are addresses or the length. -/
def accessArgs : Intrinsic → List Nat
  | .memset => [0, 2]
  | .memcpy => [0, 1, 2]
  | .other .maskedLoad => [0]
  | .other .maskedGather => [0]
  | _ => []

/-- The addresses and lengths that an instruction accesses memory with. -/
def dereferenced (I : Instruction ν) : List ν :=
  match I.kind with
  | .intrinsic id _ args _ => (accessArgs id).filterMap (args[·]?)
  | _ => (getPointerOperand I).toList

/-- `memset` and `memcpy` -/
def copiesMemory : Kind ν → Bool
  | .intrinsic .memset _ _ _ => true
  | .intrinsic .memcpy _ _ _ => true
  | _ => false

/-- The declarations that LLVM has of the memory intrinsics: each has four arguments, none is
assume-like, and `memset` and `memcpy` return nothing. -/
def DeclaredAs (I : Instruction ν) : Prop :=
  match I.kind with
  | .intrinsic id assumeLike args _ => accessArgs id ≠ [] →
      assumeLike = false ∧ args.length = 4 ∧ I.isVoidTy = copiesMemory I.kind
  | _ => True

/-- `NST.secret(V)` -/
def secret [LinearOrder ν] (F : IRFunction ν) (s : TaintState ν) (V : ν) : Bool :=
  (F.instruction? V).isSome && !decide (V ∈ s.pubVals)

/-- What is dereferenced is transmitted, so it may leak and is no secret. -/
structure Transmits [LinearOrder ν] (O : Oracles ν) (F : IRFunction ν) (I : Instruction ν) (V : ν) :
    Prop where
  sensitive : Sensitive I V
  leaks : ∀ fuel leaks, leakAnalysis O fuel F = .ok leaks → mayLeak leaks V = true
  notSecret : ∀ ndebug fuel s, nonspeculativeTaint ndebug O fuel F = .ok s → secret F s V = false

/-! ## The Analyses Only Add -/

section Grows

variable [LinearOrder ν] {O : Oracles ν} {F : IRFunction ν} {I : Instruction ν} {V : ν}
  {ndebug : Bool} {fuel : Nat}

/-- A fold that returns keeps what its steps keep. -/
theorem foldlM_keeps {α β : Type} {P : α → Prop} {f : α → β → Exec α} {l : List β} {a a' : α}
    (hstep : ∀ b a a', P a → f a b = .ok a' → P a') (ha : P a) (hret : l.foldlM f a = .ok a') :
    P a' :=
  Exec.foldlM_inv (P := fun _ => P) (fun _ b a a' _ ha hstep' => hstep b a a' ha hstep') ha hret

theorem LeakState.mem_insertAll {s : LeakState ν} {Vs : List ν} (hV : V ∈ s.leaks) :
    V ∈ (s.insertAll Vs).leaks := Leakage.mem_insertAll.mpr (.inl hV)

theorem leakStores_keeps {Load : Instruction ν} {s s' : LeakState ν} (hV : V ∈ s.leaks)
    (hret : leakStores O F Load s = .ok s') : V ∈ s'.leaks := by
  obtain ⟨⟨Stores, s₁⟩, hstores, hret⟩ := Exec.bind_eq_ok.mp hret
  have hV₁ : V ∈ s₁.leaks := by
    unfold getAliasingStores at hstores
    split at hstores
    · cases hstores
      exact hV
    · obtain ⟨_, -, heq⟩ := Exec.bind_eq_ok.mp hstores
      cases heq
      exact hV
  refine foldlM_keeps (P := fun s => V ∈ s.leaks) (fun Store s s' hV hret => ?_) hV₁ hret
  unfold leakStore at hret
  split at hret
  · cases hret
  · split at hret
    · cases hret
      exact hV
    · obtain ⟨Vs, -, heq⟩ := Exec.bind_eq_ok.mp hret
      cases heq
      exact LeakState.mem_insertAll hV

theorem visitLeak_keeps {s s' : LeakState ν} (hV : V ∈ s.leaks)
    (hret : visitLeak O F I s = .ok s') : V ∈ s'.leaks := by
  unfold visitLeak at hret
  cases hkind : I.kind with
  | intrinsic id assumeLike args calledOperand =>
    simp only [hkind] at hret
    split_ifs at hret
    · cases hret
      exact LeakState.mem_insertAll hV
    · obtain ⟨W, -, heq⟩ := Exec.bind_eq_ok.mp hret
      cases heq
      exact LeakState.mem_insertAll hV
  | load ptr isUnordered =>
    simp only [hkind] at hret
    exact leakStores_keeps hV hret
  | atomicRMW ptr val =>
    simp only [hkind] at hret
    exact leakStores_keeps (LeakState.mem_insertAll hV) hret
  | unaryOperator fneg operand =>
    simp only [hkind] at hret
    split_ifs at hret
    cases hret
    exact LeakState.mem_insertAll hV
  | operation op operands =>
    simp only [hkind] at hret
    split_ifs at hret
    · cases hret
      exact LeakState.mem_insertAll hV
    · cases op <;> cases hret <;> exact hV
  | call | binaryOperator =>
    simp only [hkind] at hret
    cases hret
    exact LeakState.mem_insertAll hV
  | _ =>
    simp only [hkind] at hret
    cases hret

/-- What an instruction transmits may leak. -/
theorem leakAnalysis_transmitters (hI : I ∈ F.instructions) (hV : Sensitive I V)
    {leaks : OrdSet ν} (hret : leakAnalysis O fuel F = .ok leaks) : mayLeak leaks V = true := by
  obtain ⟨leaks₀, hinit, hret⟩ := Exec.bind_eq_ok.mp hret
  obtain ⟨s, hrounds, heq⟩ := Exec.bind_eq_ok.mp hret
  cases heq
  have hV₀ : V ∈ leaks₀ := by
    refine Exec.foldlM_inv (P := fun done leaks => ∀ J ∈ done, ∀ V, Sensitive J V → V ∈ leaks)
      (fun done J leaks leaks' _ hdone hstep => ?_) (by simp) hinit I hI V hV
    obtain ⟨ops, hops, heq⟩ := Exec.bind_eq_ok.mp hstep
    cases heq
    intro J' hJ' V hV
    rw [Leakage.mem_insertAll]
    rcases List.mem_append.mp hJ' with hJ' | hJ'
    · exact .inl (hdone J' hJ' V hV)
    · obtain rfl := List.mem_singleton.mp hJ'
      obtain ⟨ops', hops', op, hop, rfl⟩ := hV
      cases hops.symm.trans hops'
      exact .inr (List.mem_map_of_mem hop)
  refine decide_eq_true (rounds_inv (P := fun s => V ∈ s.leaks) (fun s s' hV hround => ?_) hV₀ hrounds)
  refine Sweep.sweep_inv (P := fun s => V ∈ s.leaks) (fun W s s' hV hvisit => ?_) hV hround
  unfold visitLeakedValue at hvisit
  split at hvisit
  · exact visitLeak_keeps hV hvisit
  · cases hvisit
    exact hV

theorem TaintState.mem_insertAll {s : TaintState ν} {Vs : List ν} (hV : V ∈ s.pubVals) :
    V ∈ (s.insertAll Vs).pubVals := Leakage.mem_insertAll.mpr (.inl hV)

theorem propagateCall_keeps {s s' : TaintState ν} (hV : V ∈ s.pubVals)
    (hret : propagateCall ndebug O s I = .ok s') : V ∈ s'.pubVals := by
  unfold propagateCall at hret
  cases hkind : I.kind with
  | intrinsic id assumeLike args calledOperand =>
    simp only [hkind] at hret
    by_cases hguard : (!I.isVoidTy && !assumeLike) = true
    · rw [if_pos hguard] at hret
      cases hrule : taintRule id with
      | none =>
        simp only [hrule] at hret
        cases hret
      | some rule =>
        cases rule with
        | passthrough =>
          simp only [hrule] at hret
          split_ifs at hret <;> cases hret
          · exact TaintState.mem_insertAll hV
          · exact hV
        | handled =>
          simp only [hrule] at hret
          split_ifs at hret
          · obtain ⟨W, -, heq⟩ := Exec.bind_eq_ok.mp hret
            cases heq
            exact TaintState.mem_insertAll hV
          · cases hret
            exact hV
        | invalid =>
          simp only [hrule] at hret
          obtain ⟨-, -, heq⟩ := Exec.bind_eq_ok.mp hret
          cases heq
          exact hV
    · rw [if_neg hguard] at hret
      cases hret
      exact hV
  | call args rest calledOperand =>
    simp only [hkind] at hret
    split_ifs at hret <;> cases hret
    · exact TaintState.mem_insertAll hV
    · exact hV
  | _ =>
    simp only [hkind] at hret
    cases hret
    exact hV

theorem propagatePartner_keeps {ptr : ν} {s s' : TaintState ν} (hV : V ∈ s.pubVals)
    (hret : propagatePartner O ptr s I = .ok s') : V ∈ s'.pubVals := by
  unfold propagatePartner at hret
  cases hptr : getPointerOperand I with
  | none =>
    simp only [hptr] at hret
    cases hret
    exact hV
  | some ptr' =>
    simp only [hptr] at hret
    obtain ⟨mustAlias, -, heq⟩ := Exec.bind_eq_ok.mp hret
    cases heq
    split_ifs
    · exact TaintState.mem_insertAll hV
    · exact hV

theorem propagateMemory_keeps {s s' : TaintState ν} (hV : V ∈ s.pubVals)
    (hret : propagateMemory O F s I = .ok s') : V ∈ s'.pubVals := by
  unfold propagateMemory at hret
  by_cases hseen : I.id ∈ s.seen
  · rw [if_pos hseen] at hret
    cases hret
    exact hV
  · rw [if_neg hseen] at hret
    cases hptr : getPointerOperand I with
    | none =>
      simp only [hptr] at hret
      cases hret
      exact hV
    | some ptr =>
      simp only [hptr] at hret
      split_ifs at hret
      · exact foldlM_keeps (P := fun s => V ∈ s.pubVals) (fun _ _ _ => propagatePartner_keeps)
          (TaintState.mem_insertAll hV) hret
      · cases hret
        exact hV

theorem propagateReturns_keeps {s s' : TaintState ν} (hV : V ∈ s.pubVals)
    (hret : propagateReturns O F s = .ok s') : V ∈ s'.pubVals := by
  unfold propagateReturns at hret
  split_ifs at hret
  · refine foldlM_keeps (P := fun s => V ∈ s.pubVals) (fun J s s' hV hstep => ?_) hV hret
    unfold propagateReturn at hstep
    split at hstep <;> cases hstep
    · exact TaintState.mem_insertAll hV
    · exact hV
    · exact hV
  · cases hret
    exact hV

theorem propagateOperands_keeps {s s' : TaintState ν} (hV : V ∈ s.pubVals)
    (hret : propagateOperands ndebug s I = .ok s') : V ∈ s'.pubVals := by
  unfold propagateOperands at hret
  by_cases hvoid : I.isVoidTy = true
  · rw [if_pos hvoid] at hret
    cases hret
    exact hV
  · rw [if_neg hvoid] at hret
    cases hkind : I.kind with
    | operation op operands =>
      simp only [hkind] at hret
      split_ifs at hret <;> cases hret
      · exact TaintState.mem_insertAll hV
      · exact TaintState.mem_insertAll hV
      · exact hV
      · exact hV
    | binaryOperator division operands =>
      simp only [hkind] at hret
      split_ifs at hret <;> cases hret
      · exact TaintState.mem_insertAll hV
      · exact hV
    | unaryOperator fneg operand =>
      simp only [hkind] at hret
      obtain ⟨-, -, hret⟩ := Exec.bind_eq_ok.mp hret
      split_ifs at hret <;> cases hret
      · exact TaintState.mem_insertAll hV
      · exact hV
    | intrinsic | call | load | atomicRMW | atomicCmpXchg =>
      simp only [hkind] at hret
      cases hret
      exact hV
    | _ =>
      simp only [hkind] at hret
      cases hret

theorem taintRound_keeps {s s' : TaintState ν} (hV : V ∈ s.pubVals)
    (hret : taintRound ndebug O F s = .ok s') : V ∈ s'.pubVals := by
  obtain ⟨s₁, hcalls, hret⟩ := Exec.bind_eq_ok.mp hret
  obtain ⟨s₂, hmemory, hret⟩ := Exec.bind_eq_ok.mp hret
  obtain ⟨s₃, hreturns, hret⟩ := Exec.bind_eq_ok.mp hret
  have hV₁ := foldlM_keeps (P := fun s => V ∈ s.pubVals) (fun _ _ _ => propagateCall_keeps) hV hcalls
  have hV₂ := foldlM_keeps (P := fun s => V ∈ s.pubVals) (fun _ _ _ => propagateMemory_keeps) hV₁ hmemory
  have hV₃ := propagateReturns_keeps hV₂ hreturns
  exact foldlM_keeps (P := fun s => V ∈ s.pubVals) (fun _ _ _ => propagateOperands_keeps) hV₃ hret

/-- What an instruction transmits is no secret. -/
theorem nonspeculativeTaint_transmitters (hI : I ∈ F.instructions) (hV : Sensitive I V)
    {s : TaintState ν} (hret : nonspeculativeTaint ndebug O fuel F = .ok s) :
    secret F s V = false := by
  obtain ⟨pubVals, hinit, hrounds⟩ := Exec.bind_eq_ok.mp hret
  cases hinst : (F.instruction? V).isSome with
  | false => simp [secret, hinst]
  | true =>
    obtain ⟨pubVals₀, htransmitters, heq⟩ := Exec.bind_eq_ok.mp hinit
    have hV₀ : V ∈ pubVals₀ := by
      refine Exec.foldlM_inv (P := fun done pubVals => ∀ J ∈ done, Sensitive J V → V ∈ pubVals)
        (fun done J pubVals pubVals' _ hdone hstep => ?_) (by simp) htransmitters I hI hV
      obtain ⟨ops, hops, heq⟩ := Exec.bind_eq_ok.mp hstep
      cases heq
      intro J' hJ' hV
      rw [Leakage.mem_insertAll]
      rcases List.mem_append.mp hJ' with hJ' | hJ'
      · exact .inl (hdone J' hJ' hV)
      · obtain rfl := List.mem_singleton.mp hJ'
        obtain ⟨ops', hops', op, hop, rfl⟩ := hV
        cases hops.symm.trans hops'
        exact .inr (List.mem_filter.mpr ⟨List.mem_map_of_mem hop, hinst⟩)
    have hV₁ : V ∈ pubVals := by
      have hmem : V ∈ F.instructions.foldl (initOperands O F)
          (F.instructions.foldl initPointer pubVals₀) :=
        mem_foldl_initOperands.mpr (.inl (mem_foldl_initPointer.mpr (.inl hV₀)))
      cases heq
      split_ifs
      · exact Leakage.mem_insertAll.mpr (.inl hmem)
      · exact hmem
    have hpub : V ∈ s.pubVals :=
      rounds_inv (P := fun s => V ∈ s.pubVals) (fun _ _ => taintRound_keeps) hV₁ hrounds
    simp [secret, hpub]

end Grows

/-! ## The Result -/

section Result

variable [LinearOrder ν] {O : Oracles ν} {F : IRFunction ν} {I : Instruction ν} {V : ν}

theorem transmits_of_sensitive (hI : I ∈ F.instructions) (hV : Sensitive I V) :
    Transmits O F I V where
  sensitive := hV
  leaks := fun _ _ hret => leakAnalysis_transmitters hI hV hret
  notSecret := fun _ _ _ hret => nonspeculativeTaint_transmitters hI hV hret

omit [LinearOrder ν] in
/-- The rules for `memset` and `memcpy` are behind a guard that no instruction without a result
passes. -/
theorem not_sensitive_of_copiesMemory (hdecl : DeclaredAs I) (hcopies : copiesMemory I.kind = true)
    (V : ν) : ¬ Sensitive I V := by
  rintro ⟨ops, hret, op, hop, -⟩
  unfold DeclaredAs at hdecl
  unfold getTransmitterSensitiveOperands at hret
  cases hkind : I.kind with
  | intrinsic id assumeLike args calledOperand =>
    simp only [hkind] at hdecl hret hcopies
    have hargs : accessArgs id ≠ [] := by
      unfold copiesMemory at hcopies
      split at hcopies <;> simp_all [accessArgs]
    have hvoid : I.isVoidTy = true := (hdecl hargs).2.2.trans hcopies
    rw [hvoid] at hret
    simp only [Bool.not_true, Bool.and_false, Bool.false_and, Bool.false_eq_true, if_false] at hret
    split_ifs at hret <;> cases hret <;> cases hop
  | _ => simp [hkind, copiesMemory] at hcopies

omit [LinearOrder ν] in
theorem sensitive_of_dereferenced (hdecl : DeclaredAs I) (hcopies : copiesMemory I.kind = false)
    (hV : V ∈ dereferenced I) : Sensitive I V := by
  unfold DeclaredAs at hdecl
  unfold dereferenced at hV
  cases hkind : I.kind with
  | load | store | atomicRMW | atomicCmpXchg =>
    simp only [hkind, getPointerOperand, Option.toList_some, List.mem_singleton] at hV
    refine ⟨[⟨.true, V⟩], ?_, _, .head [], rfl⟩
    simp [getTransmitterSensitiveOperands, Instruction.operands, Kind.operands, hkind, hV, pure,
      Except.pure]
  | intrinsic id assumeLike args calledOperand =>
    simp only [hkind] at hV hdecl hcopies
    obtain ⟨n, hn, hget⟩ := List.mem_filterMap.mp hV
    obtain ⟨rfl, hlength, hvoid⟩ := hdecl (List.ne_nil_of_mem hn)
    obtain ⟨a, b, c, d, rfl⟩ : ∃ a b c d, args = [a, b, c, d] := by
      rcases args with - | ⟨a, - | ⟨b, - | ⟨c, - | ⟨d, - | ⟨e, args⟩⟩⟩⟩⟩ <;> simp_all
    -- the first argument is the address, and the second is in the table, too
    have hrule : id = .other .maskedLoad ∨ id = .other .maskedGather := by
      unfold accessArgs at hn
      split at hn <;> simp_all [copiesMemory]
    refine ⟨[⟨.pseudo, a⟩, ⟨.pseudo, b⟩], ?_, _, .head _, ?_⟩
    · unfold getTransmitterSensitiveOperands
      rcases hrule with rfl | rfl <;>
        simp_all [Instruction.operands, Kind.operands, leakedArgs, getArgOperand, copiesMemory, pure,
          Except.pure, bind, Except.bind]
    · rcases hrule with rfl | rfl <;> simp_all [accessArgs]
  | _ => simp [hkind, getPointerOperand] at hV

/-- All that an instruction dereferences is treated as transmitted, unless it is a `memset` or
a `memcpy`. -/
theorem dereferenced_transmits_iff (O : Oracles ν) (F : IRFunction ν) (I : Instruction ν)
    (hI : I ∈ F.instructions) (hdecl : DeclaredAs I) (haccess : dereferenced I ≠ []) :
    (∀ V ∈ dereferenced I, Transmits O F I V) ↔ copiesMemory I.kind = false := by
  constructor
  · intro hall
    by_contra hcopies
    obtain ⟨V, hV⟩ := List.exists_mem_of_ne_nil _ haccess
    exact not_sensitive_of_copiesMemory hdecl (by simpa using hcopies) V (hall V hV).sensitive
  · exact fun hcopies V hV => transmits_of_sensitive hI (sensitive_of_dereferenced hdecl hcopies hV)

end Result

/-- The load of the address `0`. -/
theorem dereferenced_transmits_iff_load :
    (∀ V ∈ dereferenced (⟨11, false, false, .load 0 true⟩ : Instruction Nat),
      Transmits anyAlias branchOnLoad ⟨11, false, false, .load 0 true⟩ V) ↔
    copiesMemory (Kind.load 0 true : Kind Nat) = false :=
  dereferenced_transmits_iff anyAlias branchOnLoad _ (by decide) trivial (by decide)

/-- `memset(0, 3, 1, 4); ret void`, with the address and the length as arguments. -/
def clearBuffer : IRFunction Nat where
  blocks := [[⟨10, true, false, .intrinsic .memset false [0, 3, 1, 4] 5⟩, ⟨11, true, false, .ret none⟩]]
  args := [0, 1]
  nodup := by decide

/-- The address and the length of a `memset` are no transmitter operands. -/
theorem dereferenced_transmits_fails :
    ¬ ∀ I ∈ clearBuffer.instructions, DeclaredAs I → ∀ V ∈ dereferenced I,
      Transmits anyAlias clearBuffer I V := by
  intro hall
  have hmemset := hall ⟨10, true, false, .intrinsic .memset false [0, 3, 1, 4] 5⟩ (by decide)
    (fun _ => ⟨rfl, rfl, rfl⟩) 0 (by decide)
  obtain ⟨ops, hret, op, hop, -⟩ := hmemset.sensitive
  cases hret
  cases hop

end Clou.Leakage
