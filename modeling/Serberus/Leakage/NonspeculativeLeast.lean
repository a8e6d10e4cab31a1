-- SUMMARY: The nonspeculative taint analysis ends with the least set of public values that is closed under its rules.
import Serberus.Leakage.LeakExact
import Serberus.Leakage.NonspeculativeTaint

/-!
# The Least Closed Set

A set of values is closed when it holds the initial public values and what the rules for
calls, memory accesses, returns and operands ask for. Every step of the analysis inserts
only what a rule asks for. That a memory access is propagated once only does no harm, as
what its rule asks for does not depend on the set.
-/

namespace Clou.Leakage

/-! ## The Rules -/

section Rules

variable {ν : Type} [LinearOrder ν]

/-- The answers of the alias analysis for which two accesses count as to the same address. -/
def Oracles.MustAlias (O : Oracles ν) (p q : ν) : Prop :=
  match O.aliasResult p q with
  | .mustAlias => True
  | .mayAlias => O.unsafeAA = true
  | _ => False

/-- What is public from the start. -/
inductive Initial (O : Oracles ν) (F : IRFunction ν) : ν → Prop
  | transmitter {I J : Instruction ν} (hI : I ∈ F.instructions) (hJ : J ∈ F.instructions)
      (h : Sensitive I J.id) : Initial O F J.id
  | pointer {I : Instruction ν} (hI : I ∈ F.instructions) (h : I.isPointerTy = true) :
      Initial O F I.id
  | operand {I : Instruction ν} {V : ν} (hI : I ∈ F.instructions) (hV : V ∈ I.operands)
      (h : O.isConstantLike V = true ∨ isLandingPad F V = true) : Initial O F V
  | argument {V : ν} (h : O.strictCallingConv = true) (hV : V ∈ F.args) : Initial O F V

/-- A public intrinsic makes its arguments public; a call makes its arguments and itself
public under the strict calling convention. -/
def CallRule (O : Oracles ν) (S : Set ν) (I : Instruction ν) (V : ν) : Prop :=
  match I.kind with
  | .intrinsic id assumeLike args _ => I.isVoidTy = false ∧ assumeLike = false ∧ I.id ∈ S ∧
      (taintRule id = some .passthrough ∧ V ∈ args ∨
        taintRule id = some .handled ∧ args.head? = some V)
  | .call args _ _ => O.strictCallingConv = true ∧ (V ∈ args ∨ V = I.id)
  | _ => False

/-- `J` accesses the address that `I` accesses. -/
def SameAddress (O : Oracles ν) (I J : Instruction ν) : Prop :=
  ∃ p q, getPointerOperand I = some p ∧ getPointerOperand J = some q ∧ O.MustAlias p q

/-- A public memory access makes its access operands public, and those of all accesses to the
same address. -/
def MemoryRule (O : Oracles ν) (F : IRFunction ν) (I : Instruction ν) (V : ν) : Prop :=
  isLoading I.kind = true ∧ (V ∈ getAccessOperands I ∨
    ∃ J ∈ F.instructions, SameAddress O I J ∧ V ∈ getAccessOperands J)

/-- Returned values are public under the strict calling convention. -/
def ReturnRule (O : Oracles ν) (I : Instruction ν) (V : ν) : Prop :=
  O.strictCallingConv = true ∧ I.kind = .ret (some V)

/-- The operands of address computations are public, and those of public operations. -/
def OperandRule (S : Set ν) (I : Instruction ν) (V : ν) : Prop :=
  I.isVoidTy = false ∧ match I.kind with
    | .operation op operands =>
      (op = .getElementPtr ∨ taintsOperands op = true ∧ I.id ∈ S) ∧ V ∈ operands
    | .binaryOperator _ operands => I.id ∈ S ∧ V ∈ operands
    | .unaryOperator _ operand => I.id ∈ S ∧ V = operand
    | _ => False

structure Closed (O : Oracles ν) (F : IRFunction ν) (S : Set ν) : Prop where
  initial : ∀ V, Initial O F V → V ∈ S
  calls : ∀ I ∈ F.instructions, ∀ V, CallRule O S I V → V ∈ S
  memory : ∀ I ∈ F.instructions, I.id ∈ S → ∀ V, MemoryRule O F I V → V ∈ S
  returns : ∀ I ∈ F.instructions, ∀ V, ReturnRule O I V → V ∈ S
  operands : ∀ I ∈ F.instructions, ∀ V, OperandRule S I V → V ∈ S

/-- The instructions that the rounds know what to do with. -/
def TaintHandled (I : Instruction ν) : Prop :=
  match I.kind with
  | .intrinsic id assumeLike args _ => I.isVoidTy = true ∨ assumeLike = true ∨
      taintRule id = some .passthrough ∨ taintRule id = some .handled ∧ args ≠ []
  | .unaryOperator fneg _ => I.isVoidTy = true ∨ fneg = true
  | .operation op _ => I.isVoidTy = true ∨ op = .getElementPtr ∨ taintsOperands op = true ∨
      ignoresOperands op = true
  | .binaryOperator _ _ => True
  | .call _ _ _ => True
  | .load _ _ => True
  | .atomicRMW _ _ => True
  | .atomicCmpXchg _ _ _ => True
  | _ => I.isVoidTy = true

/-- All instructions are handled, by the search for transmitters and in the rounds. -/
structure TaintAssumptions (O : Oracles ν) (F : IRFunction ν) : Prop where
  noPartialAlias : ∀ p q, O.aliasResult p q ≠ .partialAlias
  transmitters : ∀ I ∈ F.instructions, ∃ ops, getTransmitterSensitiveOperands I = .ok ops
  handled : ∀ I ∈ F.instructions, TaintHandled I

/-- The values that occur in the function are closed. -/
theorem closed_values (O : Oracles ν) (F : IRFunction ν) : Closed O F {V | V ∈ F.values} where
  initial V h := by
    cases h with
    | transmitter _ hJ _ => exact IRFunction.id_mem_values hJ
    | pointer hI _ => exact IRFunction.id_mem_values hI
    | operand hI hV _ => exact IRFunction.operand_mem_values hI hV
    | argument _ hV => exact List.mem_append_left _ hV
  calls I hI V h := by
    have hoperand : V ∈ I.operands ∨ V = I.id := by
      unfold CallRule at h
      unfold Instruction.operands
      cases hkind : I.kind <;> rw [hkind] at h <;> simp_all [Kind.operands]
      · rcases h.2.2.2 with ⟨-, hV⟩ | ⟨-, hV⟩
        · exact .inl (.inl hV)
        · exact .inl (.inl (List.mem_of_head? hV))
      · tauto
    rcases hoperand with hV | rfl
    · exact IRFunction.operand_mem_values hI hV
    · exact IRFunction.id_mem_values hI
  memory I hI _ V h := by
    have haccess {J : Instruction ν} (hJ : J ∈ F.instructions) (hV : V ∈ getAccessOperands J) :
        V ∈ F.values := by
      rcases getAccessOperands_mem hV with rfl | hV
      · exact IRFunction.id_mem_values hJ
      · exact IRFunction.operand_mem_values hJ hV
    rcases h.2 with hV | ⟨J, hJ, -, hV⟩
    · exact haccess hI hV
    · exact haccess hJ hV
  returns I hI V h := IRFunction.operand_mem_values hI (by
    simp [Instruction.operands, h.2, Kind.operands])
  operands I hI V h := by
    refine IRFunction.operand_mem_values hI ?_
    obtain ⟨-, h⟩ := h
    unfold Instruction.operands
    cases hkind : I.kind <;> rw [hkind] at h <;> simp_all [Kind.operands]

end Rules

/-! ## Steps -/

section Steps

variable {ν : Type} [LinearOrder ν] {O : Oracles ν} {F : IRFunction ν} {I : Instruction ν}

/-- What holds between two steps: the initial values are public, only what every closed set
holds is public, and what the propagated memory accesses ask for has been inserted. -/
structure TaintInv (O : Oracles ν) (F : IRFunction ν) (s : TaintState ν) : Prop where
  initial : ∀ V, Initial O F V → V ∈ s.pubVals
  least : ∀ S, Closed O F S → ∀ V ∈ s.pubVals, V ∈ S
  null : s.nullPub = true → O.strictCallingConv = true ∧ ∃ I ∈ F.instructions, I.kind = .ret none
  seen : ∀ I ∈ F.instructions, I.id ∈ s.seen → ∀ V, MemoryRule O F I V → V ∈ s.pubVals

/-- Every closed set holds what the rule asks for on any part of it. -/
def SoundRule (O : Oracles ν) (F : IRFunction ν) (rule : Set ν → ν → Prop) : Prop :=
  ∀ S, Closed O F S → ∀ T ⊆ S, ∀ V, rule T V → V ∈ S

/-- A step has inserted what the rule asks for, and nothing else. -/
structure Applied (O : Oracles ν) (F : IRFunction ν) (rule : Set ν → ν → Prop)
    (s s' : TaintState ν) : Prop where
  pubVals : ∀ V, V ∈ s'.pubVals ↔ V ∈ s.pubVals ∨ rule {W | W ∈ s.pubVals} V
  nullStays : s.nullPub = true → s'.nullPub = true
  null : s'.nullPub = true →
    s.nullPub = true ∨ O.strictCallingConv = true ∧ ∃ I ∈ F.instructions, I.kind = .ret none
  seen : ∀ I ∈ F.instructions, I.id ∈ s'.seen →
    I.id ∈ s.seen ∨ ∀ V, MemoryRule O F I V → V ∈ s'.pubVals

theorem applied_insertAll {rule : Set ν → ν → Prop} {s : TaintState ν} {Vs : List ν}
    (hVs : ∀ V, rule {W | W ∈ s.pubVals} V ↔ V ∈ Vs) : Applied O F rule s (s.insertAll Vs) where
  pubVals V := by
    change V ∈ insertAll s.pubVals Vs ↔ _
    rw [mem_insertAll, hVs]
  nullStays h := h
  null := .inl
  seen _ _ hI := .inl hI

theorem applied_self {rule : Set ν → ν → Prop} {s : TaintState ν}
    (h : ∀ V, rule {W | W ∈ s.pubVals} V → V ∈ s.pubVals) : Applied O F rule s s where
  pubVals V := ⟨.inl, fun hV => hV.elim id (h V)⟩
  nullStays h := h
  null := .inl
  seen _ _ hI := .inl hI

theorem Applied.inv {rule : Set ν → ν → Prop} {s s' : TaintState ν} (h : Applied O F rule s s')
    (hrule : SoundRule O F rule) (hs : TaintInv O F s) : TaintInv O F s' where
  initial V hV := (h.pubVals V).mpr (.inl (hs.initial V hV))
  least S hS V hV := by
    rcases (h.pubVals V).mp hV with hV | hV
    · exact hs.least S hS V hV
    · exact hrule S hS _ (hs.least S hS) V hV
  null hnull := (h.null hnull).elim hs.null id
  seen I hI hseen V hV := by
    rcases h.seen I hI hseen with hseen | h
    · exact (h.pubVals V).mpr (.inl (hs.seen I hI hseen V hV))
    · exact h V hV

/-- What is not yet public, the null pointer included. -/
def untainted (F : IRFunction ν) (s : TaintState ν) : Nat :=
  (F.values.toFinset.filter (· ∉ s.pubVals)).card + if s.nullPub then 0 else 1

theorem untainted_key (s s' : TaintState ν) (h : s'.key = s.key) :
    untainted F s' = untainted F s := by
  obtain ⟨hpub, hnull⟩ := Prod.mk.inj h
  unfold untainted
  rw [hpub, hnull]

theorem TaintInv.mem_values {s : TaintState ν} (hs : TaintInv O F s) {V : ν} (hV : V ∈ s.pubVals) :
    V ∈ F.values := hs.least _ (closed_values O F) V hV

/-- A step that inserts something lowers the measure. -/
theorem Applied.lowers {rule : Set ν → ν → Prop} {s s' : TaintState ν} (h : Applied O F rule s s')
    (hs' : TaintInv O F s') : s'.key = s.key ∨ untainted F s' < untainted F s := by
  have hsub : ∀ V ∈ s.pubVals, V ∈ s'.pubVals := fun V hV => (h.pubVals V).mpr (.inl hV)
  have hfilter : F.values.toFinset.filter (· ∉ s'.pubVals) ⊆
      F.values.toFinset.filter (· ∉ s.pubVals) :=
    Finset.monotone_filter_right _ fun V _ hV hmem => hV (hsub V hmem)
  have hnull : (if s'.nullPub then 0 else 1) ≤ if s.nullPub then 0 else 1 := by
    split_ifs with h₁ h₂ <;> first | omega | exact absurd (h.nullStays ‹_›) ‹_›
  unfold untainted
  rw [or_iff_not_imp_left]
  intro hne
  rcases eq_or_ssubset_of_subset hfilter with heq | hlt
  · have hpub : s'.pubVals = s.pubVals := by
      refine OrdSet.ext fun V => ⟨fun hV => ?_, hsub V⟩
      by_contra hnot
      have hmem : V ∈ F.values.toFinset.filter (· ∉ s'.pubVals) :=
        heq ▸ Finset.mem_filter.mpr ⟨List.mem_toFinset.mpr (hs'.mem_values hV), hnot⟩
      exact (Finset.mem_filter.mp hmem).2 hV
    have hneNull : s'.nullPub ≠ s.nullPub := fun hnull => hne (Prod.ext hpub hnull)
    rw [heq]
    cases hold : s.nullPub with
    | true => exact absurd ((h.nullStays hold).trans hold.symm) hneNull
    | false =>
      cases hnew : s'.nullPub with
      | true => simp
      | false => exact absurd (hnew.trans hold.symm) hneNull
  · exact Nat.add_lt_add_of_lt_of_le (Finset.card_lt_card hlt) hnull

/-- A loop whose every step applies a rule. -/
theorem lowers_of_applied {rule : Set ν → ν → Prop} {step : TaintState ν → Exec (TaintState ν)}
    (hrule : SoundRule O F rule)
    (hstep : ∀ s, TaintInv O F s → ∃ s', step s = .ok s' ∧ Applied O F rule s s') :
    Lowers (TaintInv O F) TaintState.key (untainted F) step := by
  intro s hs
  obtain ⟨s', hret, h⟩ := hstep s hs
  have hs' := h.inv hrule hs
  exact ⟨s', hret, hs', h.lowers hs'⟩

/-! ### The Loops -/

theorem callRule_sound (hI : I ∈ F.instructions) : SoundRule O F fun S => CallRule O S I := by
  intro S hS T hT V hV
  refine hS.calls I hI V ?_
  unfold CallRule at hV ⊢
  cases hkind : I.kind with
  | intrinsic id assumeLike args calledOperand =>
    rw [hkind] at hV
    exact ⟨hV.1, hV.2.1, hT hV.2.2.1, hV.2.2.2⟩
  | call args rest calledOperand =>
    rw [hkind] at hV
    exact hV
  | _ =>
    rw [hkind] at hV
    exact hV.elim

theorem operandRule_sound (hI : I ∈ F.instructions) :
    SoundRule O F fun S => OperandRule S I := by
  intro S hS T hT V ⟨hvoid, hV⟩
  refine hS.operands I hI V ⟨hvoid, ?_⟩
  cases hkind : I.kind with
  | operation op operands =>
    rw [hkind] at hV
    exact ⟨hV.1.imp_right fun h => ⟨h.1, hT h.2⟩, hV.2⟩
  | binaryOperator division operands =>
    rw [hkind] at hV
    exact ⟨hT hV.1, hV.2⟩
  | unaryOperator fneg operand =>
    rw [hkind] at hV
    exact ⟨hT hV.1, hV.2⟩
  | _ =>
    rw [hkind] at hV
    exact hV.elim

theorem memoryRule_sound (hI : I ∈ F.instructions) :
    SoundRule O F fun S V => I.id ∈ S ∧ MemoryRule O F I V :=
  fun _ hS _ hT V hV => hS.memory I hI (hT hV.1) V hV.2

theorem returnRule_sound (hI : I ∈ F.instructions) : SoundRule O F fun _ => ReturnRule O I :=
  fun _ hS _ _ V hV => hS.returns I hI V hV

/-- A step that inserts what its rule asks for, -/
theorem returns_insertAll {rule : Set ν → ν → Prop} {s : TaintState ν} {Vs : List ν}
    (hVs : ∀ V, rule {W | W ∈ s.pubVals} V ↔ V ∈ Vs) :
    ∃ s', (pure (s.insertAll Vs) : Exec (TaintState ν)) = .ok s' ∧ Applied O F rule s s' :=
  ⟨_, rfl, applied_insertAll hVs⟩

/-- one that has nothing to do, -/
theorem returns_self {rule : Set ν → ν → Prop} {s : TaintState ν}
    (h : ∀ V, ¬rule {W | W ∈ s.pubVals} V) :
    ∃ s', (pure s : Exec (TaintState ν)) = .ok s' ∧ Applied O F rule s s' :=
  ⟨s, rfl, applied_self fun V hV => absurd hV (h V)⟩

/-- and one that inserts values when `i` is public. -/
theorem returns_public {rule : Set ν → ν → Prop} {s : TaintState ν} {i : ν} {Vs : List ν}
    (hVs : ∀ V, rule {W | W ∈ s.pubVals} V ↔ i ∈ s.pubVals ∧ V ∈ Vs) :
    ∃ s', (if i ∈ s.pubVals then pure (s.insertAll Vs) else pure s : Exec (TaintState ν)) = .ok s' ∧
      Applied O F rule s s' := by
  split_ifs with hpub
  · exact returns_insertAll fun V => (hVs V).trans (and_iff_right hpub)
  · exact returns_self fun V hV => hpub ((hVs V).mp hV).1

theorem propagateCall_spec (ndebug : Bool) (hI : TaintHandled I) (s : TaintState ν) :
    ∃ s', propagateCall ndebug O s I = .ok s' ∧ Applied O F (fun S => CallRule O S I) s s' := by
  unfold propagateCall
  unfold TaintHandled at hI
  cases hkind : I.kind with
  | intrinsic id assumeLike args calledOperand =>
    have hrule (S : Set ν) (V : ν) : CallRule O S I V ↔ I.isVoidTy = false ∧ assumeLike = false ∧
        I.id ∈ S ∧ (taintRule id = some .passthrough ∧ V ∈ args ∨
          taintRule id = some .handled ∧ args.head? = some V) := by
      unfold CallRule
      rw [hkind]
    rw [hkind] at hI
    dsimp only
    cases hlooked : !I.isVoidTy && !assumeLike with
    | false => exact returns_self fun V hV => by simp [hrule] at hV; simp [hV.1, hV.2.1] at hlooked
    | true =>
      obtain ⟨hvoid, hassume⟩ : I.isVoidTy = false ∧ assumeLike = false := by simpa using hlooked
      have hlisted := (hI.resolve_left (by simp [hvoid])).resolve_left (by simp [hassume])
      rw [if_pos rfl]
      rcases hlisted with hpass | ⟨hhandled, hargs⟩
      · rw [hpass]
        exact returns_public fun V => by simp [hrule, hvoid, hassume, hpass]
      · rw [hhandled]
        obtain ⟨V, args, rfl⟩ := List.exists_cons_of_ne_nil hargs
        exact returns_public fun W => by simp [hrule, hvoid, hassume, hhandled, eq_comm]
  | call args rest calledOperand =>
    have hrule (S : Set ν) (V : ν) : CallRule O S I V ↔
        O.strictCallingConv = true ∧ (V ∈ args ∨ V = I.id) := by
      unfold CallRule
      rw [hkind]
    dsimp only
    split_ifs with hstrict
    · exact returns_insertAll fun V => by simp [hrule, hstrict]
    · exact returns_self fun V hV => hstrict ((hrule _ V).mp hV).1
  | _ =>
    refine returns_self fun V hV => ?_
    unfold CallRule at hV
    rw [hkind] at hV
    exact hV

theorem propagateOperands_spec (ndebug : Bool) (hI : TaintHandled I) (s : TaintState ν) :
    ∃ s', propagateOperands ndebug s I = .ok s' ∧
      Applied O F (fun S => OperandRule S I) s s' := by
  have hrule (S : Set ν) (V : ν) := Iff.of_eq (OperandRule.eq_1 S I V)
  unfold propagateOperands
  unfold TaintHandled at hI
  cases hvoid : I.isVoidTy with
  | true => exact returns_self fun V hV => by simp [hrule, hvoid] at hV
  | false =>
    rw [if_neg (by simp)]
    cases hkind : I.kind with
    | operation op operands =>
      rw [hkind] at hrule hI
      dsimp only
      split_ifs with hgep htaints hpub hignores
      · exact returns_insertAll fun V => by simp [hrule, hvoid, hgep]
      · exact returns_insertAll fun V => by simp [hrule, hvoid, htaints, hpub]
      · exact returns_self fun V hV => by simp_all
      · exact returns_self fun V hV => by simp_all
      · simp_all
    | binaryOperator division operands =>
      rw [hkind] at hrule
      exact returns_public fun V => by simp [hrule, hvoid]
    | unaryOperator fneg operand =>
      rw [hkind] at hrule hI
      obtain rfl : fneg = true := by simpa [hvoid] using hI
      dsimp only
      rw [assert_of rfl]
      exact returns_public fun V => by simp [hrule, hvoid]
    | intrinsic | call | load | atomicRMW | atomicCmpXchg =>
      rw [hkind] at hrule
      exact returns_self fun V hV => ((hrule _ V).mp hV).2
    | _ =>
      rw [hkind] at hI
      simp [hvoid] at hI

omit [LinearOrder ν] in
/-- Without partial aliases the question is answered. -/
theorem isDefinitelyMustAlias_spec {p q : ν} (h : O.aliasResult p q ≠ .partialAlias) :
    ∃ b, isDefinitelyMustAlias O.unsafeAA (O.aliasResult p q) = .ok b ∧
      (b = true ↔ O.MustAlias p q) := by
  unfold Oracles.MustAlias
  cases halias : O.aliasResult p q with
  | partialAlias => exact absurd halias h
  | noAlias => exact ⟨false, rfl, by simp⟩
  | mayAlias => exact ⟨O.unsafeAA, rfl, Iff.rfl⟩
  | mustAlias => exact ⟨true, rfl, by simp⟩

/-- The partners of an access make the access operands of all accesses to its address public. -/
theorem propagatePartners_spec (halias : ∀ p q, O.aliasResult p q ≠ .partialAlias)
    {p : ν} (hp : getPointerOperand I = some p) (s : TaintState ν) :
    ∃ s', F.instructions.foldlM (propagatePartner O p) s = .ok s' ∧ s'.nullPub = s.nullPub ∧
      s'.seen = s.seen ∧ ∀ V, V ∈ s'.pubVals ↔ V ∈ s.pubVals ∨
        ∃ J ∈ F.instructions, SameAddress O I J ∧ V ∈ getAccessOperands J := by
  refine Exec.foldlM_returns (P := fun done (s' : TaintState ν) => s'.nullPub = s.nullPub ∧
    s'.seen = s.seen ∧ ∀ V, V ∈ s'.pubVals ↔ V ∈ s.pubVals ∨
      ∃ J ∈ done, SameAddress O I J ∧ V ∈ getAccessOperands J)
    ?_ ⟨rfl, rfl, by simp⟩
  rintro done J s' - ⟨hnull, hseen, hpub⟩
  unfold propagatePartner
  cases hq : getPointerOperand J with
  | none =>
    refine ⟨s', rfl, hnull, hseen, fun V => (hpub V).trans (or_congr_right ?_)⟩
    simp [SameAddress, hq, or_and_right, exists_or]
  | some q =>
    obtain ⟨mustAlias, hret, hmust⟩ := isDefinitelyMustAlias_spec (halias p q)
    have hsame : SameAddress O I J ↔ mustAlias = true := by
      simp [SameAddress, hp, hq, hmust]
    refine ⟨_, Exec.bind_eq_ok.mpr ⟨mustAlias, hret, rfl⟩, ?_⟩
    cases mustAlias with
    | false =>
      refine ⟨hnull, hseen, fun V => (hpub V).trans (or_congr_right ?_)⟩
      simp [hsame, or_and_right, exists_or]
    | true =>
      refine ⟨hnull, hseen, fun V => ?_⟩
      change V ∈ insertAll s'.pubVals _ ↔ _
      rw [mem_insertAll, hpub, or_assoc]
      simp [hsame, or_and_right, exists_or]

theorem propagateMemory_spec (halias : ∀ p q, O.aliasResult p q ≠ .partialAlias)
    (hI : I ∈ F.instructions) {s : TaintState ν} (hs : TaintInv O F s) :
    ∃ s', propagateMemory O F s I = .ok s' ∧
      Applied O F (fun S V => I.id ∈ S ∧ MemoryRule O F I V) s s' := by
  unfold propagateMemory
  by_cases hseen : I.id ∈ s.seen
  · rw [if_pos hseen]
    exact ⟨s, rfl, applied_self fun V hV => hs.seen I hI hseen V hV.2⟩
  · rw [if_neg hseen]
    cases hp : getPointerOperand I with
    | none =>
      refine ⟨s, rfl, applied_self fun V hV => ?_⟩
      have hload := hV.2.1
      unfold getPointerOperand at hp
      cases hkind : I.kind <;> simp_all [isLoading]
    | some p =>
      dsimp only
      split_ifs with hpublic
      · obtain ⟨hload, hpub⟩ : isLoading I.kind = true ∧ I.id ∈ s.pubVals := by simpa using hpublic
        obtain ⟨s', hret, hnull, hseen', hmem⟩ := propagatePartners_spec (F := F) halias hp
          ({ s with seen := s.seen.insert I.id }.insertAll (getAccessOperands I))
        have hrule (V : ν) : V ∈ s'.pubVals ↔ V ∈ s.pubVals ∨ MemoryRule O F I V := by
          rw [hmem]
          change V ∈ insertAll s.pubVals _ ∨ _ ↔ _
          rw [mem_insertAll, or_assoc]
          exact or_congr_right (and_iff_right hload).symm
        refine ⟨s', hret, fun V => (hrule V).trans (or_congr_right (and_iff_right hpub).symm),
          fun h => hnull.trans h, fun h => .inl (hnull.symm.trans h), fun J hJ hJseen => ?_⟩
        rw [hseen'] at hJseen
        rcases OrdSet.mem_insert.mp hJseen with hid | hJseen
        · obtain rfl := IRFunction.eq_of_id hJ hI hid
          exact .inr fun V hV => (hrule V).mpr (.inr hV)
        · exact .inl hJseen
      · refine ⟨s, rfl, applied_self fun V hV => absurd ?_ hpublic⟩
        simpa using ⟨hV.2.1, hV.1⟩

theorem propagateReturn_spec (hstrict : O.strictCallingConv = true) (hI : I ∈ F.instructions)
    (s : TaintState ν) : ∃ s', propagateReturn s I = .ok s' ∧
      Applied O F (fun _ => ReturnRule O I) s s' ∧ (I.kind = .ret none → s'.nullPub = true) := by
  have hrule (V : ν) : ReturnRule O I V ↔ I.kind = .ret (some V) := and_iff_right hstrict
  unfold propagateReturn
  split
  · next value hkind =>
    exact ⟨_, rfl, applied_insertAll fun V => by simp [hrule, hkind, eq_comm],
      fun h => by simp [hkind] at h⟩
  · next hkind =>
    refine ⟨_, rfl, ⟨fun V => ?_, fun _ => rfl, fun _ => .inr ⟨hstrict, I, hI, hkind⟩,
      fun J _ hJ => .inl hJ⟩, fun _ => rfl⟩
    simp [hrule, hkind]
  · next hvalue hnone =>
    exact ⟨s, rfl, applied_self fun V hV => absurd ((hrule V).mp hV) (hvalue V),
      fun h => absurd h hnone⟩

end Steps

/-! ## Rounds -/

section Rounds

variable {ν : Type} [LinearOrder ν] {O : Oracles ν} {F : IRFunction ν}

theorem propagateCalls_lowers (ndebug : Bool) (h : TaintAssumptions O F) :
    ∀ I ∈ F.instructions, Lowers (TaintInv O F) TaintState.key (untainted F)
      fun s => propagateCall ndebug O s I :=
  fun I hI => lowers_of_applied (callRule_sound hI) fun s _ =>
    propagateCall_spec ndebug (h.handled I hI) s

theorem propagateMemory_lowers (h : TaintAssumptions O F) :
    ∀ I ∈ F.instructions, Lowers (TaintInv O F) TaintState.key (untainted F)
      fun s => propagateMemory O F s I :=
  fun _ hI => lowers_of_applied (memoryRule_sound hI) fun _ hs =>
    propagateMemory_spec h.noPartialAlias hI hs

theorem propagateReturn_lowers (hstrict : O.strictCallingConv = true) :
    ∀ I ∈ F.instructions, Lowers (TaintInv O F) TaintState.key (untainted F)
      fun s => propagateReturn s I := by
  refine fun I hI => lowers_of_applied (returnRule_sound hI) fun s _ => ?_
  obtain ⟨s', hret, happlied, -⟩ := propagateReturn_spec hstrict hI s
  exact ⟨s', hret, happlied⟩

theorem propagateReturns_lowers :
    Lowers (TaintInv O F) TaintState.key (untainted F) (propagateReturns O F) := by
  unfold propagateReturns
  split_ifs with hstrict
  · exact Lowers.foldlM (propagateReturn_lowers hstrict) untainted_key
  · exact .pure

theorem propagateOperands_lowers (ndebug : Bool) (h : TaintAssumptions O F) :
    ∀ I ∈ F.instructions, Lowers (TaintInv O F) TaintState.key (untainted F)
      fun s => propagateOperands ndebug s I :=
  fun I hI => lowers_of_applied (operandRule_sound hI) fun s _ =>
    propagateOperands_spec ndebug (h.handled I hI) s

theorem taintRound_lowers (ndebug : Bool) (h : TaintAssumptions O F) :
    Lowers (TaintInv O F) TaintState.key (untainted F) (taintRound ndebug O F) := by
  have hcalls := Lowers.foldlM (propagateCalls_lowers ndebug h) untainted_key
  have hmemory := Lowers.foldlM (propagateMemory_lowers h) untainted_key
  have hoperands := Lowers.foldlM (propagateOperands_lowers ndebug h) untainted_key
  have hreturns := propagateReturns_lowers.bind hoperands untainted_key
  exact hcalls.bind (hmemory.bind hreturns untainted_key) untainted_key

/-- A step that has changed nothing had nothing to insert. -/
theorem rule_of_fixed {R : Set ν → ν → Prop}
    {f : TaintState ν → Instruction ν → Exec (TaintState ν)} {s s' : TaintState ν}
    (hlowers : ∀ I ∈ F.instructions,
      Lowers (TaintInv O F) TaintState.key (untainted F) fun s => f s I)
    (hs : TaintInv O F s) (hret : F.instructions.foldlM f s = .ok s') (hfixed : s'.key = s.key)
    {I : Instruction ν} (hI : I ∈ F.instructions)
    (hstep : ∀ s, TaintInv O F s → ∃ s', f s I = .ok s' ∧ Applied O F R s s') :
    ∀ V, R {W | W ∈ s.pubVals} V → V ∈ s.pubVals := by
  obtain ⟨s₁, s₂, hs₁, hf, -, hkey₁, hkey₂⟩ :=
    Lowers.fixed hlowers untainted_key hs hret hfixed I hI
  obtain ⟨s₂', hf', happlied⟩ := hstep s₁ hs₁
  obtain rfl : s₂' = s₂ := Except.ok.inj (hf'.symm.trans hf)
  have hpub₁ : s₁.pubVals = s.pubVals := congrArg Prod.fst hkey₁
  have hpub₂ : s₂'.pubVals = s.pubVals := congrArg Prod.fst hkey₂
  intro V hV
  rw [← hpub₂]
  exact (happlied.pubVals V).mpr (.inr (hpub₁ ▸ hV))

/-- What a round that changes nothing starts from is closed. -/
theorem taintRound_closed {ndebug : Bool} (h : TaintAssumptions O F) {s s' : TaintState ν}
    (hs : TaintInv O F s) (hret : taintRound ndebug O F s = .ok s') (hfixed : s'.key = s.key) :
    Closed O F {V | V ∈ s.pubVals} ∧ (O.strictCallingConv = true →
      ∀ I ∈ F.instructions, I.kind = .ret none → s.nullPub = true) := by
  have hmemory := Lowers.foldlM (propagateMemory_lowers h) untainted_key
  have hoperands := Lowers.foldlM (propagateOperands_lowers ndebug h) untainted_key
  have hreturns := propagateReturns_lowers.bind hoperands untainted_key
  -- No loop of the round has changed the public values.
  obtain ⟨s₁, hret₁, hret, hs₁, -, hkey₁⟩ := Lowers.bind_fixed
    (Lowers.foldlM (propagateCalls_lowers ndebug h) untainted_key)
    (hmemory.bind hreturns untainted_key) untainted_key hs hret hfixed
  obtain ⟨s₂, hret₂, hret, hs₂, -, hkey₂⟩ := hmemory.bind_fixed hreturns untainted_key hs₁ hret
    (hfixed.trans hkey₁.symm)
  obtain ⟨s₃, hret₃, hret₄, hs₃, -, hkey₃⟩ := propagateReturns_lowers.bind_fixed hoperands
    untainted_key hs₂ hret (hfixed.trans (hkey₂.trans hkey₁).symm)
  have hfixed₄ : s'.key = s₃.key := hfixed.trans (hkey₃.trans (hkey₂.trans hkey₁)).symm
  obtain ⟨hpub₁, -⟩ := Prod.mk.inj hkey₁
  obtain ⟨hpub₂, hnull₂⟩ := Prod.mk.inj (hkey₂.trans hkey₁)
  obtain ⟨hpub₃, -⟩ := Prod.mk.inj (hkey₃.trans (hkey₂.trans hkey₁))
  refine ⟨⟨hs.initial, fun I hI => ?_, fun I hI hpub V hV => ?_, fun I hI V hV => ?_,
    fun I hI => ?_⟩, fun hstrict I hI hkind => ?_⟩
  · exact rule_of_fixed (propagateCalls_lowers ndebug h) hs hret₁ hkey₁ hI fun s _ =>
      propagateCall_spec ndebug (h.handled I hI) s
  · have hrule := rule_of_fixed (propagateMemory_lowers h) hs₁ hret₂ hkey₂ hI fun s hs =>
      propagateMemory_spec h.noPartialAlias hI hs
    rw [hpub₁] at hrule
    exact hrule V ⟨hpub, hV⟩
  · have hstrict := hV.1
    unfold propagateReturns at hret₃
    rw [if_pos hstrict] at hret₃
    have hrule := rule_of_fixed (R := fun _ => ReturnRule O I) (propagateReturn_lowers hstrict)
      hs₂ hret₃ hkey₃ hI fun s _ => by
        obtain ⟨s', hret, happlied, -⟩ := propagateReturn_spec hstrict hI s
        exact ⟨s', hret, happlied⟩
    rw [hpub₂] at hrule
    exact hrule V hV
  · have hrule := rule_of_fixed (propagateOperands_lowers ndebug h) hs₃ hret₄ hfixed₄ hI fun s _ =>
      propagateOperands_spec ndebug (h.handled I hI) s
    rw [hpub₃] at hrule
    exact hrule
  · unfold propagateReturns at hret₃
    rw [if_pos hstrict] at hret₃
    obtain ⟨a₁, a₂, -, hret, -, -, hkey⟩ :=
      Lowers.fixed (propagateReturn_lowers hstrict) untainted_key hs₂ hret₃ hkey₃ I hI
    obtain ⟨a₂', hret', -, hnull⟩ := propagateReturn_spec (F := F) hstrict hI a₁
    obtain rfl : a₂' = a₂ := Except.ok.inj (hret'.symm.trans hret)
    have hnull₃ : a₂'.nullPub = s₂.nullPub := congrArg Prod.snd hkey
    rw [← hnull₂, ← hnull₃]
    exact hnull hkind

end Rounds

/-! ## The Result -/

section Result

variable {ν : Type} [LinearOrder ν] {O : Oracles ν} {F : IRFunction ν}

theorem initTransmitters_spec (h : TaintAssumptions O F) :
    ∃ pubVals, F.instructions.foldlM (initTransmitters F) ∅ = .ok pubVals ∧
      ∀ V, V ∈ pubVals ↔ ∃ I ∈ F.instructions, Sensitive I V ∧ ∃ J ∈ F.instructions, J.id = V := by
  refine Exec.foldlM_returns (P := fun done pubVals => ∀ V, V ∈ pubVals ↔
    ∃ I ∈ done, Sensitive I V ∧ ∃ J ∈ F.instructions, J.id = V) ?_
    fun V => ⟨fun hV => absurd hV (OrdSet.not_mem_empty V), by simp⟩
  intro done I pubVals hI hpub
  obtain ⟨ops, hret⟩ := h.transmitters I hI
  refine ⟨insertAll pubVals ((ops.map (·.V)).filter fun V => (F.instruction? V).isSome),
    by unfold initTransmitters; rw [hret]; rfl, fun V => ?_⟩
  have hsensitive : Sensitive I V ↔ V ∈ ops.map (·.V) := by
    simp [Sensitive, hret]
  have hinstruction : (F.instruction? V).isSome = true ↔ ∃ J ∈ F.instructions, J.id = V := by
    simp only [Option.isSome_iff_exists, IRFunction.instruction?_eq_some]
  rw [mem_insertAll, hpub, List.mem_filter, hinstruction, ← hsensitive]
  simp only [List.mem_append, List.mem_singleton, or_and_right, exists_or, exists_eq_left]

theorem mem_foldl_initPointer {V : ν} {Is : List (Instruction ν)} {pubVals : OrdSet ν} :
    V ∈ Is.foldl initPointer pubVals ↔
      V ∈ pubVals ∨ ∃ I ∈ Is, I.isPointerTy = true ∧ I.id = V := by
  induction Is generalizing pubVals with
  | nil => simp
  | cons I Is ih =>
    rw [List.foldl_cons, ih]
    unfold initPointer
    split_ifs with hpointer
    · have hid : V = I.id ↔ I.id = V := eq_comm
      simp [hpointer, hid, or_assoc, or_left_comm]
    · simp [hpointer]

theorem mem_foldl_initOperands {V : ν} {Is : List (Instruction ν)} {pubVals : OrdSet ν} :
    V ∈ Is.foldl (initOperands O F) pubVals ↔ V ∈ pubVals ∨
      ∃ I ∈ Is, V ∈ I.operands ∧ (O.isConstantLike V = true ∨ isLandingPad F V = true) := by
  induction Is generalizing pubVals with
  | nil => simp
  | cons I Is ih =>
    rw [List.foldl_cons, ih]
    unfold initOperands
    simp [or_assoc]

theorem initialPubVals_spec (h : TaintAssumptions O F) :
    ∃ pubVals, initialPubVals O F = .ok pubVals ∧ ∀ V, V ∈ pubVals ↔ Initial O F V := by
  obtain ⟨pubVals, hret, hpub⟩ := initTransmitters_spec h
  refine ⟨_, Exec.bind_eq_ok.mpr ⟨pubVals, hret, rfl⟩, fun V => ?_⟩
  set vals := F.instructions.foldl (initOperands O F) (F.instructions.foldl initPointer pubVals)
    with hvals
  have hmem : V ∈ vals ↔
      (∃ I ∈ F.instructions, Sensitive I V ∧ ∃ J ∈ F.instructions, J.id = V) ∨
      (∃ I ∈ F.instructions, I.isPointerTy = true ∧ I.id = V) ∨
      ∃ I ∈ F.instructions, V ∈ I.operands ∧
        (O.isConstantLike V = true ∨ isLandingPad F V = true) := by
    rw [hvals, mem_foldl_initOperands, mem_foldl_initPointer, hpub, or_assoc]
  have hargs : V ∈ (if O.strictCallingConv = true then insertAll vals F.args else vals) ↔
      V ∈ vals ∨ O.strictCallingConv = true ∧ V ∈ F.args := by
    split_ifs with hstrict <;> simp [hstrict]
  refine hargs.trans ⟨fun hV => ?_, fun hV => ?_⟩
  · rcases hV with hV | ⟨hstrict, hV⟩
    · rcases hmem.mp hV with ⟨I, hI, hsensitive, J, hJ, rfl⟩ | ⟨I, hI, hpointer, rfl⟩ |
        ⟨I, hI, hV, hconst⟩
      · exact .transmitter hI hJ hsensitive
      · exact .pointer hI hpointer
      · exact .operand hI hV hconst
    · exact .argument hstrict hV
  · cases hV with
    | transmitter hI hJ hsensitive => exact .inl (hmem.mpr (.inl ⟨_, hI, hsensitive, _, hJ, rfl⟩))
    | pointer hI hpointer => exact .inl (hmem.mpr (.inr (.inl ⟨_, hI, hpointer, rfl⟩)))
    | operand hI hV hconst => exact .inl (hmem.mpr (.inr (.inr ⟨_, hI, hV, hconst⟩)))
    | argument hstrict hV => exact .inr ⟨hstrict, hV⟩

/-- The set `vals` is the least closed set, and `nullPub` tells whether the function returns
nothing where return values are public. -/
structure IsLeastClosed (O : Oracles ν) (F : IRFunction ν) (vals : OrdSet ν)
    (nullPub : Bool) : Prop where
  closed : Closed O F {V | V ∈ vals}
  least : ∀ S, Closed O F S → ∀ V ∈ vals, V ∈ S
  null : nullPub = true ↔ O.strictCallingConv = true ∧ ∃ I ∈ F.instructions, I.kind = .ret none

theorem IsLeastClosed.unique {vals vals' : OrdSet ν} {nullPub nullPub' : Bool}
    (h : IsLeastClosed O F vals nullPub) (h' : IsLeastClosed O F vals' nullPub') :
    (vals', nullPub') = (vals, nullPub) := by
  refine Prod.ext (OrdSet.ext fun V => ⟨?_, ?_⟩) (Bool.eq_iff_iff.mpr (h'.null.trans h.null.symm))
  · exact h'.least _ h.closed V
  · exact h.least _ h'.closed V

theorem nonspeculativeTaint_spec (ndebug : Bool) (h : TaintAssumptions O F) :
    ∃ s, (∀ fuel, F.values.toFinset.card + 1 < fuel → nonspeculativeTaint ndebug O fuel F = .ok s) ∧
      IsLeastClosed O F s.pubVals s.nullPub := by
  obtain ⟨pubVals, hinit, hpub⟩ := initialPubVals_spec h
  have hinv : TaintInv O F ⟨pubVals, false, ∅⟩ := {
    initial := fun V hV => (hpub V).mpr hV
    least := fun S hS V hV => hS.initial V ((hpub V).mp hV)
    null := fun h => by cases h
    seen := fun I _ hI => absurd hI (OrdSet.not_mem_empty I.id)
  }
  obtain ⟨s, s', hs, hround, hs', hkey, hret⟩ := rounds_spec (taintRound_lowers ndebug h) hinv
  obtain ⟨hclosed, hnull⟩ := taintRound_closed h hs hround hkey
  obtain ⟨hpubEq, hnullEq⟩ := Prod.mk.inj hkey
  refine ⟨s', fun fuel hfuel => ?_, ?_, hs'.least, hs'.null, fun ⟨hstrict, I, hI, hkind⟩ => ?_⟩
  · unfold nonspeculativeTaint
    rw [hinit]
    refine hret fuel (lt_of_le_of_lt (Nat.add_le_add ?_ (le_refl 1)) hfuel)
    exact Finset.card_filter_le _ _
  · rwa [hpubEq]
  · rw [hnullEq]
    exact hnull hstrict I hI hkind

/-- The analysis ends, and its public values are the least closed set. -/
theorem nonspeculativeTaint_least (O : Oracles ν) (F : IRFunction ν) (h : TaintAssumptions O F) :
    ∃ N vals nullPub, (∀ ndebug, ∀ fuel ≥ N,
      TaintState.key <$> nonspeculativeTaint ndebug O fuel F = .ok (vals, nullPub)) ∧
      IsLeastClosed O F vals nullPub := by
  obtain ⟨s, -, hleast⟩ := nonspeculativeTaint_spec false h
  refine ⟨F.values.toFinset.card + 2, s.pubVals, s.nullPub, fun ndebug fuel hfuel => ?_, hleast⟩
  obtain ⟨s', hret, hleast'⟩ := nonspeculativeTaint_spec ndebug h
  rw [hret fuel hfuel, ← hleast.unique hleast']
  rfl

end Result

/-- Any two pointers are the same. -/
def oneAddress : Oracles Nat := ⟨fun _ _ => .mustAlias, fun V => 3 ≤ V ∧ V ≤ 5, false, false⟩

theorem branchOnLoad_taintAssumptions : TaintAssumptions oneAddress branchOnLoad where
  noPartialAlias _ _ h := by cases h
  transmitters I hI := by
    rcases mem_branchOnLoad hI with rfl | rfl | rfl | rfl <;> exact ⟨_, rfl⟩
  handled I hI := by
    rcases mem_branchOnLoad hI with rfl | rfl | rfl | rfl
    · exact rfl
    · exact trivial
    · exact .inr (.inr (.inl rfl))
    · exact rfl

/-- The branch makes its condition public, so what is compared, so what was stored where it was
loaded from. -/
theorem nonspeculativeTaint_least_branchOnLoad : ∃ N vals nullPub, (∀ ndebug, ∀ fuel ≥ N,
    TaintState.key <$> nonspeculativeTaint ndebug oneAddress fuel branchOnLoad =
      .ok (vals, nullPub)) ∧ 2 ∈ vals := by
  obtain ⟨N, vals, nullPub, hret, hleast⟩ :=
    nonspeculativeTaint_least oneAddress branchOnLoad branchOnLoad_taintAssumptions
  refine ⟨N, vals, nullPub, hret, ?_⟩
  have hcondition : 12 ∈ vals := hleast.closed.initial _
    (.transmitter (I := ⟨13, true, false, .branch (some 12) [4, 5]⟩)
      (J := ⟨12, false, false, .operation .cmp [11, 3]⟩) (by decide) (by decide)
      ⟨_, rfl, _, .head _, rfl⟩)
  have hloaded : 11 ∈ vals :=
    hleast.closed.operands ⟨12, false, false, .operation .cmp [11, 3]⟩ (by decide) 11
      ⟨rfl, .inr ⟨rfl, hcondition⟩, .head _⟩
  exact hleast.closed.memory ⟨11, false, false, .load 0 true⟩ (by decide) hloaded 2
    ⟨rfl, .inr ⟨⟨10, true, false, .store 2 1⟩, by decide, ⟨0, 1, rfl, rfl, trivial⟩, .head _⟩⟩

end Clou.Leakage
