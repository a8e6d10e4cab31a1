-- SUMMARY: The leak analysis is exact: it ends with the values from which a chain leads to a transmitter operand.
import Serberus.Leakage.LeakAnalysis

/-!
# What Leaks

A value leaks when it is transmitted, or when a leaked instruction computes from it or
loads it from memory. The analysis finds these values and no others, in whatever order
it meets them.
-/

namespace Clou.Leakage

/-! ## Chains -/

section Chains

variable {ν : Type}

/-- The answers of the alias analysis for which a store counts as aliasing a load. -/
def Oracles.MayAlias (O : Oracles ν) (p q : ν) : Prop :=
  match O.aliasResult p q with
  | .mayAlias => O.unsafeAA = false
  | .mustAlias => True
  | _ => False

/-- The values that an instruction stores. -/
def storedValues : Kind ν → List ν
  | .store value _ => [value]
  | .atomicRMW _ val => [val]
  | .atomicCmpXchg _ cmp newVal => [cmp, newVal]
  | _ => []

/-- What the result of an instruction is computed or loaded from. -/
inductive FeedsFrom (O : Oracles ν) (F : IRFunction ν) (I : Instruction ν) : ν → Prop
  | operand {op : Operation} {operands : List ν} {V : ν} (hkind : I.kind = .operation op operands)
      (hop : leaksOperands op = true) (hV : V ∈ operands) : FeedsFrom O F I V
  | binaryOperator {division : Bool} {operands : List ν} {V : ν}
      (hkind : I.kind = .binaryOperator division operands) (hV : V ∈ operands) : FeedsFrom O F I V
  | fneg {V : ν} (hkind : I.kind = .unaryOperator true V) : FeedsFrom O F I V
  | intrinsicArgument {id : Intrinsic} {assumeLike : Bool} {args : List ν} {calledOperand V : ν}
      (hkind : I.kind = .intrinsic id assumeLike args calledOperand) (hid : leaksArgs id = true)
      (hV : V ∈ args) : FeedsFrom O F I V
  | annotatedValue {assumeLike : Bool} {args : List ν} {calledOperand V : ν}
      (hkind : I.kind = .intrinsic (.other .annotationIntrinsic) assumeLike (V :: args) calledOperand) :
      FeedsFrom O F I V
  | argument {args rest : List ν} {calledOperand V : ν} (hkind : I.kind = .call args rest calledOperand)
      (hV : V ∈ args) : FeedsFrom O F I V
  | rmwValue {ptr V : ν} (hkind : I.kind = .atomicRMW ptr V) : FeedsFrom O F I V
  | memory {S : Instruction ν} {p q V : ν}
      (hkind : (∃ isUnordered, I.kind = .load p isUnordered) ∨ ∃ val, I.kind = .atomicRMW p val)
      (hS : S ∈ F.instructions) (hptr : getPointerOperand S = some q) (halias : O.MayAlias p q)
      (hV : V ∈ storedValues S.kind) : FeedsFrom O F I V

/-- A value that may be loaded from `p`. -/
def StoredAt (O : Oracles ν) (F : IRFunction ν) (p V : ν) : Prop :=
  ∃ S ∈ F.instructions, (∃ q, getPointerOperand S = some q ∧ O.MayAlias p q) ∧ V ∈ storedValues S.kind

theorem feedsFrom_iff {O : Oracles ν} {F : IRFunction ν} {I : Instruction ν} {V : ν} :
    FeedsFrom O F I V ↔ match I.kind with
      | .operation op operands => leaksOperands op = true ∧ V ∈ operands
      | .binaryOperator _ operands => V ∈ operands
      | .unaryOperator fneg operand => fneg = true ∧ V = operand
      | .intrinsic id _ args _ => leaksArgs id = true ∧ V ∈ args ∨
          id = .other .annotationIntrinsic ∧ args.head? = some V
      | .call args _ _ => V ∈ args
      | .load p _ => StoredAt O F p V
      | .atomicRMW p val => V = val ∨ StoredAt O F p V
      | _ => False := by
  constructor
  · intro h
    cases h with
    | memory hkind hS hptr halias hV =>
      rcases hkind with ⟨_, hkind⟩ | ⟨_, hkind⟩
      · rw [hkind]
        exact ⟨_, hS, ⟨_, hptr, halias⟩, hV⟩
      · rw [hkind]
        exact .inr ⟨_, hS, ⟨_, hptr, halias⟩, hV⟩
    | _ => simp_all
  · intro h
    cases hkind : I.kind with
    | operation op operands =>
      rw [hkind] at h
      exact .operand hkind h.1 h.2
    | binaryOperator division operands =>
      rw [hkind] at h
      exact .binaryOperator hkind h
    | unaryOperator fneg operand =>
      rw [hkind] at h
      obtain ⟨rfl, rfl⟩ := h
      exact .fneg hkind
    | intrinsic id assumeLike args calledOperand =>
      rw [hkind] at h
      rcases h with ⟨hid, hV⟩ | ⟨rfl, hV⟩
      · exact .intrinsicArgument hkind hid hV
      · obtain ⟨rest, rfl⟩ := List.head?_eq_some_iff.mp hV
        exact .annotatedValue hkind
    | call args rest calledOperand =>
      rw [hkind] at h
      exact .argument hkind h
    | load p isUnordered =>
      rw [hkind] at h
      obtain ⟨S, hS, ⟨q, hq, halias⟩, hV⟩ := h
      exact .memory (.inl ⟨isUnordered, hkind⟩) hS hq halias hV
    | atomicRMW p val =>
      rw [hkind] at h
      rcases h with rfl | ⟨S, hS, ⟨q, hq, halias⟩, hV⟩
      · exact .rmwValue hkind
      · exact .memory (.inr ⟨val, hkind⟩) hS hq halias hV
    | _ =>
      rw [hkind] at h
      exact h.elim

def Feeds (O : Oracles ν) (F : IRFunction ν) (V W : ν) : Prop :=
  ∃ I ∈ F.instructions, I.id = V ∧ FeedsFrom O F I W

/-- A chain leads from a transmitter operand back to the value. -/
inductive Leaks (O : Oracles ν) (F : IRFunction ν) : ν → Prop
  | transmitter {I : Instruction ν} {V : ν} (hI : I ∈ F.instructions) (h : Sensitive I V) : Leaks O F V
  | step {V W : ν} (hV : Leaks O F V) (h : Feeds O F V W) : Leaks O F W

/-- The instructions that the analysis knows what to do with when they leak. -/
def LeakHandled : Kind ν → Prop
  | .load _ _ => True
  | .atomicRMW _ _ => True
  | .intrinsic id _ args _ => leaksArgs id = true ∨ id = .other .annotationIntrinsic ∧ args ≠ []
  | .call _ _ _ => True
  | .binaryOperator _ _ => True
  | .unaryOperator fneg _ => fneg = true
  | .operation op _ => leaksOperands op = true ∨ op = .alloca ∨ op = .landingPad
  | _ => False

/-- All instructions are handled: by the search for transmitters, in the search for aliasing
stores, and, if they leak, by the analysis itself. -/
structure LeakAssumptions (O : Oracles ν) (F : IRFunction ν) : Prop where
  noPartialAlias : ∀ p q, O.aliasResult p q ≠ .partialAlias
  transmitters : ∀ I ∈ F.instructions, ∃ ops, getTransmitterSensitiveOperands I = .ok ops
  writes : ∀ I ∈ F.instructions, ∀ operands, I.kind ≠ .operation (.unlisted true) operands
  leaked : ∀ I ∈ F.instructions, Leaks O F I.id → LeakHandled I.kind

variable {O : Oracles ν} {F : IRFunction ν}

theorem storedValues_mem {I : Instruction ν} {V : ν} (h : V ∈ storedValues I.kind) :
    V ∈ I.operands := by
  unfold Instruction.operands
  cases hkind : I.kind <;> rw [hkind] at h <;> simp_all [storedValues, Kind.operands]

theorem FeedsFrom.mem_operands {I : Instruction ν} (hI : I ∈ F.instructions) {V : ν}
    (h : FeedsFrom O F I V) : ∃ J ∈ F.instructions, V ∈ J.operands := by
  cases h with
  | memory _ hS _ _ hV => exact ⟨_, hS, storedValues_mem hV⟩
  | _ => exact ⟨I, hI, by simp_all [Instruction.operands, Kind.operands]⟩

theorem Leaks.mem_operands {V : ν} (h : Leaks O F V) : ∃ I ∈ F.instructions, V ∈ I.operands := by
  cases h with
  | transmitter hI h => exact ⟨_, hI, h.mem_operands⟩
  | step _ h =>
    obtain ⟨I, hI, rfl, h⟩ := h
    exact h.mem_operands hI

theorem Leaks.mem_values {V : ν} (h : Leaks O F V) : V ∈ F.values := by
  obtain ⟨I, hI, hV⟩ := h.mem_operands
  exact IRFunction.operand_mem_values hI hV

end Chains

/-! ## Aliasing Stores -/

section Aliases

variable {ν : Type} [LinearOrder ν] {O : Oracles ν} {F : IRFunction ν} {I L : Instruction ν} {p : ν}

/-- What `computeAliases` keeps for a load from `p`. -/
def IsAliasing (O : Oracles ν) (p : ν) (I : Instruction ν) : Prop :=
  I.kind.mayWriteToMemory = true ∧ isCallOrFence I.kind = false ∧
    ∃ q, getPointerOperand I = some q ∧ O.MayAlias p q

def AliasingStores (O : Oracles ν) (F : IRFunction ν) (p : ν) (Stores : OrdSet ν) : Prop :=
  ∀ S, S ∈ Stores ↔ ∃ I ∈ F.instructions, I.id = S ∧ IsAliasing O p I

omit [LinearOrder ν] in
theorem isDefinitelyNoAlias_spec {p q : ν} (h : O.aliasResult p q ≠ .partialAlias) :
    ∃ b, SpeculativeTaint.isDefinitelyNoAlias O.unsafeAA (O.aliasResult p q) = .ok b ∧
      (b = false ↔ O.MayAlias p q) := by
  unfold Oracles.MayAlias
  cases halias : O.aliasResult p q with
  | partialAlias => exact absurd halias h
  | noAlias => exact ⟨true, rfl, by simp⟩
  | mayAlias => exact ⟨O.unsafeAA, rfl, Iff.rfl⟩
  | mustAlias => exact ⟨false, rfl, by simp⟩

omit [LinearOrder ν] in
/-- What may write to memory and is neither a call nor a fence accesses a pointer. -/
theorem exists_pointerOperand (hwrites : I.kind.mayWriteToMemory = true)
    (hcall : isCallOrFence I.kind = false)
    (hlisted : ∀ operands, I.kind ≠ .operation (.unlisted true) operands) :
    ∃ q, getPointerOperand I = some q := by
  unfold getPointerOperand
  cases hkind : I.kind with
  | load | store | atomicRMW | atomicCmpXchg => exact ⟨_, rfl⟩
  | intrinsic | call =>
    rw [hkind] at hcall
    cases hcall
  | operation op operands =>
    rw [hkind] at hwrites hcall
    cases op with
    | fence => cases hcall
    | unlisted mayWrite =>
      cases mayWrite with
      | true => exact absurd hkind (hlisted operands)
      | false => cases hwrites
    | _ => cases hwrites
  | _ =>
    rw [hkind] at hwrites
    cases hwrites

theorem addAliasingStore_spec (h : LeakAssumptions O F) (hI : I ∈ F.instructions)
    (hp : getPointerOperand L = some p) (Stores : OrdSet ν) :
    ∃ Stores', addAliasingStore O L Stores I = .ok Stores' ∧
      ∀ S, S ∈ Stores' ↔ S ∈ Stores ∨ I.id = S ∧ IsAliasing O p I := by
  unfold addAliasingStore IsAliasing
  split_ifs with hwrites hcall
  · exact ⟨Stores, rfl, fun S => by simp_all⟩
  · exact ⟨Stores, rfl, fun S => by simp_all⟩
  · obtain ⟨q, hq⟩ := exists_pointerOperand (by simpa using hwrites) (by simpa using hcall)
      (h.writes I hI)
    obtain ⟨b, hb, hmay⟩ := isDefinitelyNoAlias_spec (h.noPartialAlias p q)
    simp only [hp, hq, hb]
    refine ⟨_, rfl, fun S => ?_⟩
    cases b with
    | true => simp [← hmay]
    | false =>
      simp only [Bool.false_eq_true, if_false, OrdSet.mem_insert]
      rw [or_comm, eq_comm]
      refine or_congr_right (iff_self_and.mpr fun _ => ⟨?_, ?_, q, rfl, hmay.mp rfl⟩)
      · simpa using hwrites
      · simpa using hcall

theorem computeAliases_spec (h : LeakAssumptions O F) (hp : getPointerOperand L = some p) :
    ∃ Stores, computeAliases O F L = .ok Stores ∧ AliasingStores O F p Stores := by
  unfold computeAliases
  refine Exec.foldlM_returns (P := fun done Stores =>
    ∀ S, S ∈ Stores ↔ ∃ I ∈ done, I.id = S ∧ IsAliasing O p I) ?_
    fun S => ⟨fun hS => absurd hS (OrdSet.not_mem_empty S), by simp⟩
  intro done I Stores hI hStores
  obtain ⟨Stores', hret, hmem⟩ := addAliasingStore_spec h hI hp Stores
  refine ⟨Stores', hret, fun S => (hmem S).trans ?_⟩
  rw [hStores]
  simp only [List.mem_append, List.mem_singleton, or_and_right, exists_or, exists_eq_left]

/-- The cached sets are the aliasing stores. -/
def CacheCorrect (O : Oracles ν) (F : IRFunction ν) (aliases : OrdMap ν (OrdSet ν)) : Prop :=
  ∀ L ∈ F.instructions, ∀ Stores, aliases.find? L.id = some Stores →
    ∀ p, getPointerOperand L = some p → AliasingStores O F p Stores

theorem getAliasingStores_spec (h : LeakAssumptions O F) (hL : L ∈ F.instructions)
    (hp : getPointerOperand L = some p) {s : LeakState ν} (hs : CacheCorrect O F s.aliases) :
    ∃ Stores s', getAliasingStores O F L s = .ok (Stores, s') ∧ AliasingStores O F p Stores ∧
      s'.leaks = s.leaks ∧ CacheCorrect O F s'.aliases := by
  unfold getAliasingStores
  cases hfind : s.aliases.find? L.id with
  | some Stores => exact ⟨Stores, s, rfl, hs L hL Stores hfind p hp, rfl, hs⟩
  | none =>
    obtain ⟨Stores, hret, hStores⟩ := computeAliases_spec h hp
    simp only [hret]
    refine ⟨Stores, _, rfl, hStores, rfl, fun L' hL' Stores' hfind' p' hp' => ?_⟩
    change (s.aliases.insert L.id Stores).find? L'.id = some Stores' at hfind'
    rw [OrdMap.find?_insert] at hfind'
    split_ifs at hfind' with hid
    · obtain rfl := IRFunction.eq_of_id hL' hL hid
      obtain rfl : p' = p := Option.some.inj (hp'.symm.trans hp)
      exact Option.some.inj hfind' ▸ hStores
    · exact hs L' hL' Stores' hfind' p' hp'

theorem leakStore_spec (hI : I ∈ F.instructions) (haliasing : IsAliasing O p I) (s : LeakState ν) :
    leakStore F s I.id = .ok (s.insertAll (storedValues I.kind)) := by
  obtain ⟨-, -, q, hq, -⟩ := haliasing
  unfold leakStore
  rw [IRFunction.instruction?_eq_some.mpr ⟨hI, rfl⟩]
  unfold getPointerOperand at hq
  unfold getValueOperands
  dsimp only
  cases hkind : I.kind <;> simp only [hkind] at hq ⊢ <;> first | rfl | cases hq

/-- The stored values of the aliasing stores leak, and nothing else. -/
theorem leakStores_spec (h : LeakAssumptions O F) (hL : L ∈ F.instructions)
    (hp : getPointerOperand L = some p) {s : LeakState ν} (hs : CacheCorrect O F s.aliases) :
    ∃ s', leakStores O F L s = .ok s' ∧ CacheCorrect O F s'.aliases ∧
      ∀ W, W ∈ s'.leaks ↔ W ∈ s.leaks ∨
        ∃ I ∈ F.instructions, IsAliasing O p I ∧ W ∈ storedValues I.kind := by
  obtain ⟨Stores, s₁, hret, hStores, hleaks, hcache⟩ := getAliasingStores_spec h hL hp hs
  obtain ⟨s', hfold, haliases, hmem⟩ := Exec.foldlM_returns (f := leakStore F) (l := Stores.toList)
    (a := s₁) (P := fun done s' => s'.aliases = s₁.aliases ∧ ∀ W, W ∈ s'.leaks ↔ W ∈ s.leaks ∨
      ∃ S ∈ done, ∃ I ∈ F.instructions, I.id = S ∧ W ∈ storedValues I.kind) (by
        intro done S s' hS hinv
        obtain ⟨I, hI, rfl, haliasing⟩ := (hStores S).mp hS
        refine ⟨_, leakStore_spec hI haliasing s', hinv.1, fun W => ?_⟩
        change W ∈ insertAll s'.leaks _ ↔ _
        rw [mem_insertAll, hinv.2, or_assoc]
        simp only [List.mem_append, List.mem_singleton, or_and_right, exists_or, exists_eq_left]
        refine or_congr_right (or_congr_right ?_)
        constructor
        · exact fun hW => ⟨I, hI, rfl, hW⟩
        · rintro ⟨J, hJ, hid, hW⟩
          rwa [IRFunction.eq_of_id hI hJ hid.symm]) ⟨rfl, fun W => by simp [hleaks]⟩
  refine ⟨s', ?_, haliases ▸ hcache, fun W => (hmem W).trans (or_congr_right ?_)⟩
  · unfold leakStores
    rw [hret]
    exact hfold
  · constructor
    · rintro ⟨S, hS, I, hI, rfl, hW⟩
      obtain ⟨J, hJ, hid, haliasing⟩ := (hStores I.id).mp hS
      obtain rfl := IRFunction.eq_of_id hJ hI hid
      exact ⟨J, hJ, haliasing, hW⟩
    · rintro ⟨I, hI, haliasing, hW⟩
      exact ⟨I.id, (hStores I.id).mpr ⟨I, hI, rfl, haliasing⟩, I, hI, rfl, hW⟩

end Aliases

/-! ## Rounds -/

section Rounds

variable {ν : Type} [LinearOrder ν] {O : Oracles ν} {F : IRFunction ν} {I : Instruction ν}

/-- What holds between two visits: only values that leak are in the set, the transmitter
operands are in it, and the cache is right. -/
structure LeakInv (O : Oracles ν) (F : IRFunction ν) (s : LeakState ν) : Prop where
  sound : ∀ V ∈ s.leaks, Leaks O F V
  transmitters : ∀ I ∈ F.instructions, ∀ V, Sensitive I V → V ∈ s.leaks
  cache : CacheCorrect O F s.aliases

/-- A visit has done what it should: it has added what the instruction is fed from. -/
structure Visited (O : Oracles ν) (F : IRFunction ν) (I : Instruction ν) (s s' : LeakState ν) : Prop where
  cache : CacheCorrect O F s'.aliases
  leaks : ∀ W, W ∈ s'.leaks ↔ W ∈ s.leaks ∨ FeedsFrom O F I W

theorem visited_insertAll {s : LeakState ν} {Vs : List ν} (hs : CacheCorrect O F s.aliases)
    (hVs : ∀ W, FeedsFrom O F I W ↔ W ∈ Vs) : Visited O F I s (s.insertAll Vs) where
  cache := hs
  leaks W := by
    change W ∈ insertAll s.leaks Vs ↔ _
    rw [mem_insertAll, hVs]

omit [LinearOrder ν] in
/-- What may be loaded from `p`. -/
theorem isAliasing_stored {p : ν} {W : ν} :
    (∃ S ∈ F.instructions, IsAliasing O p S ∧ W ∈ storedValues S.kind) ↔ StoredAt O F p W := by
  refine exists_congr fun S => and_congr_right fun _ => and_congr_left fun hW => ?_
  refine ⟨fun h => h.2.2, fun h => ⟨?_, ?_, h⟩⟩ <;>
    cases hkind : S.kind <;> rw [hkind] at hW <;> first | rfl | simp [storedValues] at hW

theorem visitLeak_spec (h : LeakAssumptions O F) (hI : I ∈ F.instructions)
    (hhandled : LeakHandled I.kind) {s : LeakState ν} (hs : CacheCorrect O F s.aliases) :
    ∃ s', visitLeak O F I s = .ok s' ∧ Visited O F I s s' := by
  have hinsert {s : LeakState ν} (Vs : List ν) (hs : CacheCorrect O F s.aliases)
      (hVs : ∀ W, FeedsFrom O F I W ↔ W ∈ Vs) :
      ∃ s', (pure (s.insertAll Vs) : Exec (LeakState ν)) = .ok s' ∧ Visited O F I s s' :=
    ⟨_, rfl, visited_insertAll hs hVs⟩
  simp only [feedsFrom_iff] at hinsert
  unfold visitLeak
  cases hkind : I.kind with
  | load p isUnordered =>
    have hp : getPointerOperand I = some p := by simp [getPointerOperand, hkind]
    obtain ⟨s', hret, hcache, hleaks⟩ := leakStores_spec h hI hp hs
    refine ⟨s', hret, hcache, fun W => (hleaks W).trans (or_congr_right ?_)⟩
    rw [isAliasing_stored, feedsFrom_iff, hkind]
  | atomicRMW p val =>
    have hp : getPointerOperand I = some p := by simp [getPointerOperand, hkind]
    have hs' : CacheCorrect O F (s.insertAll [val]).aliases := hs
    obtain ⟨s', hret, hcache, hleaks⟩ := leakStores_spec h hI hp hs'
    refine ⟨s', hret, hcache, fun W => (hleaks W).trans ?_⟩
    change W ∈ insertAll s.leaks [val] ∨ _ ↔ _
    rw [isAliasing_stored, feedsFrom_iff, hkind, mem_insertAll, List.mem_singleton, or_assoc]
  | call args rest calledOperand =>
    rw [hkind] at hinsert
    exact hinsert args hs fun W => Iff.rfl
  | binaryOperator division operands =>
    rw [hkind] at hinsert
    exact hinsert operands hs fun W => Iff.rfl
  | unaryOperator fneg operand =>
    rw [hkind] at hinsert hhandled
    cases fneg with
    | true => exact hinsert [operand] hs fun W => by simp
    | false => cases hhandled
  | operation op operands =>
    rw [hkind] at hinsert hhandled
    dsimp only
    split_ifs with hop
    · exact hinsert operands hs fun W => by simp [hop]
    · have hignore : op = .alloca ∨ op = .landingPad := hhandled.resolve_left hop
      obtain ⟨s', hret, hvisited⟩ := hinsert [] hs fun W => by simp [hop]
      rcases hignore with rfl | rfl <;> exact ⟨s', hret, hvisited⟩
  | intrinsic id assumeLike args calledOperand =>
    rw [hkind] at hinsert hhandled
    dsimp only
    split_ifs with hid hannotation
    · refine hinsert args hs fun W => ?_
      have hne : id ≠ .other .annotationIntrinsic := by
        rintro rfl
        cases hid
      simp [hid, hne]
    · subst hannotation
      cases args with
      | nil => exact absurd rfl ((hhandled.resolve_left hid).2)
      | cons V args => exact hinsert [V] hs fun W => by simp [leaksArgs, eq_comm]
    · exact absurd (hhandled.resolve_left hid).1 hannotation
  | _ =>
    rw [hkind] at hhandled
    cases hhandled

theorem visitLeakedValue_spec (h : LeakAssumptions O F) {V : ν} {s : LeakState ν}
    (hs : LeakInv O F s) (hV : V ∈ s.leaks) :
    ∃ s', visitLeakedValue O F V s = .ok s' ∧ LeakInv O F s' ∧ (∀ W ∈ s.leaks, W ∈ s'.leaks) ∧
      ∀ W, Feeds O F V W → W ∈ s'.leaks := by
  unfold visitLeakedValue
  cases hfind : F.instruction? V with
  | none =>
    refine ⟨s, rfl, hs, fun W hW => hW, fun W ⟨I, hI, hid, _⟩ => ?_⟩
    rw [IRFunction.instruction?_eq_some.mpr ⟨hI, hid⟩] at hfind
    cases hfind
  | some I =>
    obtain ⟨hI, rfl⟩ := IRFunction.instruction?_eq_some.mp hfind
    have hleak := hs.sound I.id hV
    obtain ⟨s', hret, hvisited⟩ := visitLeak_spec h hI (h.leaked I hI hleak) hs.cache
    have hsub : ∀ W ∈ s.leaks, W ∈ s'.leaks := fun W hW => (hvisited.leaks W).mpr (.inl hW)
    refine ⟨s', hret, ⟨fun W hW => ?_, fun J hJ W hW => hsub W (hs.transmitters J hJ W hW),
      hvisited.cache⟩, hsub, fun W ⟨J, hJ, hid, hW⟩ => ?_⟩
    · rcases (hvisited.leaks W).mp hW with hW | hW
      · exact hs.sound W hW
      · exact .step hleak ⟨I, hI, rfl, hW⟩
    · obtain rfl := IRFunction.eq_of_id hJ hI hid
      exact (hvisited.leaks W).mpr (.inr hW)

/-- The values of the function that are not known to leak. -/
def unleaked (F : IRFunction ν) (s : LeakState ν) : Nat :=
  (F.values.toFinset.filter (· ∉ s.leaks)).card

/-- A round ends, and what was in the set before it has been visited. -/
theorem leakRound_spec (h : LeakAssumptions O F) {fuel : Nat}
    (hfuel : F.values.toFinset.card < fuel) {s : LeakState ν} (hs : LeakInv O F s) :
    ∃ s', leakRound O F fuel s = .ok s' ∧ LeakInv O F s' ∧ (∀ W ∈ s.leaks, W ∈ s'.leaks) ∧
      ∀ V ∈ s.leaks, ∀ W, Feeds O F V W → W ∈ s'.leaks := by
  refine Sweep.sweep_all (U := F.values.toFinset) (P := LeakInv O F)
    (Q := fun V s => ∀ W, Feeds O F V W → W ∈ s.leaks) _ (fun s hs V hV => ?_)
    (fun V s hs hV => ?_) hs hfuel
  · exact List.mem_toFinset.mpr (hs.sound V hV).mem_values
  · obtain ⟨s', hret, hs', hsub, hfeeds⟩ := visitLeakedValue_spec h hs hV
    exact ⟨s', hret, hs', hsub, hfeeds, fun U hU W hW => hsub W (hU W hW)⟩

theorem leakRound_lowers (h : LeakAssumptions O F) {fuel : Nat}
    (hfuel : F.values.toFinset.card < fuel) :
    Lowers (LeakInv O F) LeakState.leaks (unleaked F) (leakRound O F fuel) := by
  intro s hs
  obtain ⟨s', hret, hs', hsub, -⟩ := leakRound_spec h hfuel hs
  refine ⟨s', hret, hs', or_iff_not_imp_left.mpr fun hne => Finset.card_lt_card ⟨?_, ?_⟩⟩
  · intro V hV
    rw [Finset.mem_filter] at hV ⊢
    exact ⟨hV.1, fun hmem => hV.2 (hsub V hmem)⟩
  · intro hsubset
    refine hne (OrdSet.ext fun V => ⟨fun hV => ?_, hsub V⟩)
    by_contra hnot
    have hmem := hsubset (Finset.mem_filter.mpr
      ⟨List.mem_toFinset.mpr (hs'.sound V hV).mem_values, hnot⟩)
    exact (Finset.mem_filter.mp hmem).2 hV

end Rounds

/-! ## The Result -/

section Result

variable {ν : Type} [LinearOrder ν] {O : Oracles ν} {F : IRFunction ν}

theorem addTransmitters_spec (h : LeakAssumptions O F) :
    ∃ leaks, F.instructions.foldlM addTransmitters ∅ = .ok leaks ∧
      ∀ V, V ∈ leaks ↔ ∃ I ∈ F.instructions, Sensitive I V := by
  refine Exec.foldlM_returns (P := fun done leaks => ∀ V, V ∈ leaks ↔ ∃ I ∈ done, Sensitive I V) ?_
    fun V => ⟨fun hV => absurd hV (OrdSet.not_mem_empty V), by simp⟩
  intro done I leaks hI hleaks
  obtain ⟨ops, hret⟩ := h.transmitters I hI
  refine ⟨insertAll leaks (ops.map (·.V)), by unfold addTransmitters; rw [hret]; rfl, fun V => ?_⟩
  have hsensitive : Sensitive I V ↔ ∃ op ∈ ops, op.V = V := by
    simp [Sensitive, hret]
  rw [mem_insertAll, hleaks, List.mem_map, ← hsensitive]
  simp only [List.mem_append, List.mem_singleton, or_and_right, exists_or, exists_eq_left]

/-- With enough fuel the analysis ends, and what it leaves leaks and is closed. -/
theorem leakAnalysis_spec (h : LeakAssumptions O F) {fuel : Nat}
    (hfuel : F.values.toFinset.card < fuel) :
    ∃ leaks, leakAnalysis O fuel F = .ok leaks ∧ ∀ V, V ∈ leaks ↔ Leaks O F V := by
  obtain ⟨leaks, hinit, hleaks⟩ := addTransmitters_spec h
  have hinv : LeakInv O F ⟨leaks, ∅⟩ := by
    refine ⟨fun V hV => ?_, fun I hI V hV => (hleaks V).mpr ⟨I, hI, hV⟩, fun L _ Stores hfind => ?_⟩
    · obtain ⟨I, hI, hV⟩ := (hleaks V).mp hV
      exact .transmitter hI hV
    · rw [OrdMap.find?_empty] at hfind
      cases hfind
  obtain ⟨s, s', hs, hround, hs', hkey, hret⟩ := rounds_spec (leakRound_lowers h hfuel) hinv
  refine ⟨s'.leaks, ?_, fun V => ⟨hs'.sound V, fun hV => ?_⟩⟩
  · unfold leakAnalysis
    rw [hinit]
    change (rounds LeakState.leaks (leakRound O F fuel) fuel ⟨leaks, ∅⟩ >>= _) = _
    rw [hret fuel (lt_of_le_of_lt (Finset.card_filter_le _ _) hfuel)]
    rfl
  · induction hV with
    | transmitter hI hV => exact hs'.transmitters _ hI _ hV
    | step _ hfeeds ih =>
      obtain ⟨s'', hround', -, -, hclosed⟩ := leakRound_spec h hfuel hs
      obtain rfl : s'' = s' := Except.ok.inj (hround'.symm.trans hround)
      exact hclosed _ (hkey ▸ ih) _ hfeeds

/-- The leak analysis is exact: it ends, and a value may leak just when a chain leads to it
from a transmitter operand. -/
theorem leakAnalysis_exact (O : Oracles ν) (F : IRFunction ν) (h : LeakAssumptions O F) :
    ∃ N leaks, (∀ fuel ≥ N, leakAnalysis O fuel F = .ok leaks) ∧
      ∀ V, mayLeak leaks V = true ↔ Leaks O F V := by
  obtain ⟨leaks, -, hleaks⟩ := leakAnalysis_spec h (Nat.lt_succ_self _)
  refine ⟨F.values.toFinset.card + 1, leaks, fun fuel hfuel => ?_, fun V => ?_⟩
  · obtain ⟨leaks', hret, hleaks'⟩ := leakAnalysis_spec h hfuel
    obtain rfl : leaks' = leaks := OrdSet.ext fun V => (hleaks' V).trans (hleaks V).symm
    exact hret
  · unfold mayLeak
    rw [decide_eq_true_iff, hleaks]

end Result

/-- `store 2, *1; v = load *0; c = cmp v, 3; br c` -/
def branchOnLoad : IRFunction Nat where
  blocks := [[⟨10, true, false, .store 2 1⟩, ⟨11, false, false, .load 0 true⟩,
    ⟨12, false, false, .operation .cmp [11, 3]⟩, ⟨13, true, false, .branch (some 12) [4, 5]⟩]]
  args := [0, 1, 2]
  nodup := by decide

/-- Any two pointers may alias. -/
def anyAlias : Oracles Nat := ⟨fun _ _ => .mayAlias, fun V => 3 ≤ V ∧ V ≤ 5, false, false⟩

theorem mem_branchOnLoad {I : Instruction Nat} (hI : I ∈ branchOnLoad.instructions) :
    I = ⟨10, true, false, .store 2 1⟩ ∨ I = ⟨11, false, false, .load 0 true⟩ ∨
      I = ⟨12, false, false, .operation .cmp [11, 3]⟩ ∨
      I = ⟨13, true, false, .branch (some 12) [4, 5]⟩ := by
  simpa [branchOnLoad, IRFunction.instructions] using hI

theorem branchOnLoad_assumptions : LeakAssumptions anyAlias branchOnLoad where
  noPartialAlias _ _ h := by cases h
  transmitters I hI := by
    rcases mem_branchOnLoad hI with rfl | rfl | rfl | rfl <;> exact ⟨_, rfl⟩
  writes I hI operands h := by
    rcases mem_branchOnLoad hI with rfl | rfl | rfl | rfl <;> cases h
  leaked I hI hleaks := by
    obtain ⟨J, hJ, hoperand⟩ := hleaks.mem_operands
    rcases mem_branchOnLoad hI with rfl | rfl | rfl | rfl
    -- Nothing has the store or the branch as its operand.
    · rcases mem_branchOnLoad hJ with rfl | rfl | rfl | rfl <;>
        simp [Instruction.operands, Kind.operands] at hoperand
    · exact trivial
    · exact .inl rfl
    · rcases mem_branchOnLoad hJ with rfl | rfl | rfl | rfl <;>
        simp [Instruction.operands, Kind.operands] at hoperand

/-- The branch leaks its condition, so what is compared, so what may have been stored where
it was loaded from. -/
theorem leakAnalysis_exact_branchOnLoad : ∃ N leaks,
    (∀ fuel ≥ N, leakAnalysis anyAlias fuel branchOnLoad = .ok leaks) ∧ mayLeak leaks 2 = true := by
  obtain ⟨N, leaks, hret, hleaks⟩ := leakAnalysis_exact anyAlias branchOnLoad branchOnLoad_assumptions
  refine ⟨N, leaks, hret, (hleaks 2).mpr ?_⟩
  have hcondition : Leaks anyAlias branchOnLoad 12 :=
    .transmitter (I := ⟨13, true, false, .branch (some 12) [4, 5]⟩) (by decide)
      ⟨_, rfl, _, .head _, rfl⟩
  have hloaded : Leaks anyAlias branchOnLoad 11 :=
    .step hcondition ⟨⟨12, false, false, .operation .cmp [11, 3]⟩, by decide, rfl,
      .operand rfl rfl (.head _)⟩
  exact .step hloaded ⟨⟨11, false, false, .load 0 true⟩, by decide, rfl,
    .memory (S := ⟨10, true, false, .store 2 1⟩) (.inl ⟨true, rfl⟩) (by decide) rfl rfl (.head _)⟩

end Clou.Leakage
