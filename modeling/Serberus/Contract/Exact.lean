-- SUMMARY: The contract checker finds exactly the values that the rules make public, and rejects a function exactly if it does not obey the contract.
import Serberus.Contract.Rules
import Serberus.Saturation

/-!
# What the Contract Checker Decides

Every step of a round adds what some of the rules derive, so the rounds end with what the
rules justify.
-/

namespace Clou.Contract

open Leakage

/-! ## The Steps -/

/-- What a state says. -/
def State.Holds {ν : Type} [LinearOrder ν] (s : State ν) : Fact ν → Prop
  | .value V => V ∈ s.vals
  | .memory ptr => ptr ∈ s.mem

def State.facts {ν : Type} [LinearOrder ν] (s : State ν) : Set (Fact ν) := {e | s.Holds e}

section Steps

variable {ν : Type} [LinearOrder ν] {Q : Queries ν} {F : IRFunction ν} {I : Instruction ν}
  {A : Set (Fact ν)} {s : State ν} {V : ν}

/-- The values of a list. -/
def valuesOf (Vs : List ν) : Set (Fact ν) := {e | ∃ V ∈ Vs, e = .value V}

@[simp] theorem value_mem_facts : .value V ∈ s.facts ↔ V ∈ s.vals := Iff.rfl

@[simp] theorem memory_mem_facts : .memory V ∈ s.facts ↔ V ∈ s.mem := Iff.rfl

theorem facts_inj {s' : State ν} : s.facts = s'.facts ↔ s = s' := by
  refine ⟨fun h => ?_, fun h => h ▸ rfl⟩
  cases s
  cases s'
  congr 1
  · exact OrdSet.ext fun ptr => Set.ext_iff.mp h (.memory ptr)
  · exact OrdSet.ext fun V => Set.ext_iff.mp h (.value V)

theorem facts_insertVals (s : State ν) (Vs : List ν) :
    (s.insertVals Vs).facts = s.facts ∪ valuesOf Vs := by
  ext e
  cases e <;> simp [State.facts, State.Holds, State.insertVals, valuesOf]

theorem facts_insertMem (s : State ν) (ptr : ν) :
    { s with mem := s.mem.insert ptr }.facts = s.facts ∪ {.memory ptr} := by
  ext e
  cases e <;> simp [State.facts, State.Holds]

theorem isPub_iff : isPub Q s V = true ↔ Q.isConstant V = false → .value V ∈ s.facts := by
  unfold isPub
  cases Q.isConstant V <;> simp

theorem all_isPub_iff {Vs : List ν} : Vs.all (isPub Q s) = true ↔
    ∀ V ∈ Vs, Q.isConstant V = false → .value V ∈ s.facts := by
  simp only [List.all_eq_true, isPub_iff]

/-- A step that inserts the values that its rule derives. -/
theorem saturates_insert {R : Set (Fact ν) → Set (Fact ν)} {f : State ν → Exec (State ν)}
    (hR : ∀ S, S ⊆ {e | Public Q F e} → R S ⊆ {e | Public Q F e})
    (hf : ∀ s, A ⊆ s.facts → s.facts ⊆ {e | Public Q F e} →
      ∃ Vs, f s = .ok (s.insertVals Vs) ∧ valuesOf Vs = R s.facts) :
    Saturates State.facts A {e | Public Q F e} R f := by
  refine .of_union hR fun s hA hs => ?_
  obtain ⟨Vs, hret, hVs⟩ := hf s hA hs
  exact ⟨_, hret, by rw [facts_insertVals, hVs]⟩

/-- A step that inserts a value when a condition holds. -/
theorem saturates_insertIf {P : Set (Fact ν) → Prop} {c : State ν → Bool}
    (hc : ∀ s, c s = true ↔ P s.facts)
    (hP : ∀ S, S ⊆ {e | Public Q F e} → P S → Public Q F (.value V)) :
    Saturates State.facts A {e | Public Q F e} (fun S => {e | P S ∧ e = .value V})
      fun s => pure (if c s = true then s.insertVals [V] else s) := by
  refine saturates_insert (fun S hS e he => ?_) fun s _ _ => ?_
  · obtain ⟨hpublic, rfl⟩ := he
    exact hP S hS hpublic
  · by_cases hcond : c s = true
    · exact ⟨[V], congrArg Except.ok (if_pos hcond), by simp [valuesOf, (hc s).mp hcond]⟩
    · have hnot : ¬ P s.facts := fun h => hcond ((hc s).mpr h)
      exact ⟨[], congrArg Except.ok (if_neg hcond), by simp [valuesOf, hnot]⟩

def pointerRule (I : Instruction ν) : Set (Fact ν) :=
  {e | I.isPointerTy = true ∧ e = .value I.id}

def transmitterRule (I : Instruction ν) : Set (Fact ν) :=
  {e | ∃ V, TransmitsTrue I V ∧ e = .value V}

def callRule (I : Instruction ν) : Set (Fact ν) :=
  {e | ∃ args rest called, I.kind = .call args rest called ∧
    ((∃ V ∈ args, e = .value V) ∨ I.isVoidTy = false ∧ e = .value I.id)}

def backwardRule (I : Instruction ν) (S : Set (Fact ν)) : Set (Fact ν) :=
  {e | .value I.id ∈ S ∧ ((∃ ptr isUnordered, I.kind = .load ptr isUnordered ∧ e = .memory ptr) ∨
    ∃ ops, backwardOperands I = .ok ops ∧ ∃ V ∈ ops, e = .value V)}

def forwardRule (Q : Queries ν) (I : Instruction ν) (S : Set (Fact ν)) : Set (Fact ν) :=
  {e | (I.isVoidTy = false ∧ 0 < I.operands.length ∧ ∃ ops, forwardOperands I = .ok (some ops) ∧
    ∀ V ∈ ops, Q.isConstant V = false → .value V ∈ S) ∧ e = .value I.id}

def loadedRule (Q : Queries ν) (F : IRFunction ν) (I : Instruction ν) (S : Set (Fact ν)) :
    Set (Fact ν) :=
  {e | ∃ V, storedValue Q F I = .ok (some V) ∧ (Q.isConstant V = false → .value V ∈ S) ∧
    e = .value I.id}

def storedRule (Q : Queries ν) (F : IRFunction ν) (I : Instruction ν) (S : Set (Fact ν)) :
    Set (Fact ν) :=
  {e | ∃ V, storedValue Q F I = .ok (some V) ∧ (Q.isConstant I.id = false → .value I.id ∈ S) ∧
    e = .value V}

theorem visitPointer_saturates (hI : I ∈ F.instructions) :
    Saturates State.facts A {e | Public Q F e} (fun _ => pointerRule I) (visitPointer · I) :=
  saturates_insertIf (fun _ => Iff.rfl) fun _ _ hpointer => .pointer hI hpointer

theorem visitTransmitter_saturates (h : Assumptions Q F) (hI : I ∈ F.instructions) :
    Saturates State.facts A {e | Public Q F e} (fun _ => transmitterRule I)
      (visitTransmitter · I) := by
  obtain ⟨ops, hops⟩ := h.transmitters I hI
  refine saturates_insert (fun S hS e he => ?_) fun s _ _ => ?_
  · obtain ⟨V, hV, rfl⟩ := he
    exact .transmitted hI hV
  · refine ⟨_, by unfold visitTransmitter; rw [hops]; rfl, Set.ext fun e => ?_⟩
    have hmem (V : ν) : V ∈ (ops.filter fun op => op.kind = .true).map (·.V) ↔
        TransmitsTrue I V := by
      simp only [TransmitsTrue, hops, Except.ok.injEq, exists_eq_left', List.mem_map,
        List.mem_filter, decide_eq_true_eq]
      constructor
      · rintro ⟨⟨kind, W⟩, ⟨hop, rfl⟩, rfl⟩
        exact hop
      · exact fun hop => ⟨_, ⟨hop, rfl⟩, rfl⟩
    exact exists_congr fun V => and_congr_left fun _ => hmem V

theorem visitCall_saturates (hI : I ∈ F.instructions) :
    Saturates State.facts A {e | Public Q F e} (fun _ => callRule I) (visitCall · I) := by
  refine saturates_insert (fun S hS e he => ?_) fun s _ _ => ?_
  · obtain ⟨args, rest, called, hkind, ⟨V, hV, rfl⟩ | ⟨hvoid, rfl⟩⟩ := he
    · exact .callArg hI hkind hV
    · exact .callResult hI hkind hvoid
  · unfold visitCall
    cases hkind : I.kind with
    | call args rest called =>
      cases hvoid : I.isVoidTy with
      | true =>
        exact ⟨args, rfl, by simp [valuesOf, callRule, hkind, hvoid]⟩
      | false =>
        refine ⟨args ++ [I.id], ?_, ?_⟩
        · simp [State.insertVals, insertAll, pure, Except.pure]
        · ext e
          simp [valuesOf, callRule, hkind, hvoid, or_and_right, exists_or]
    | _ => exact ⟨[], rfl, by simp [valuesOf, callRule, hkind]⟩

omit [LinearOrder ν] in
theorem getArgOperand_zero {args : List ν} (h : args ≠ []) : ∃ V, getArgOperand args 0 = .ok V := by
  cases args with
  | nil => exact absurd rfl h
  | cons V args => exact ⟨V, rfl⟩

omit [LinearOrder ν] in
theorem backwardOperands_returns (h : Handled I)
    (hload : ∀ ptr isUnordered, I.kind ≠ .load ptr isUnordered) :
    ∃ ops, backwardOperands I = .ok ops := by
  unfold Handled at h
  unfold backwardOperands
  cases hkind : I.kind with
  | load ptr isUnordered => exact absurd hkind (hload ptr isUnordered)
  | binaryOperator division operands => exact ⟨_, rfl⟩
  | call args rest called => exact ⟨_, rfl⟩
  | operation op operands =>
    simp only [hkind] at h
    dsimp only
    split_ifs with hback hnothing
    · exact ⟨_, rfl⟩
    · exact ⟨_, rfl⟩
    · rcases h with hforward | hcarries | ⟨hcarries, -⟩
      · cases op <;> simp [carriesForwards] at hforward <;> exact absurd rfl hback
      · exact absurd hcarries hnothing
      · exact absurd hcarries hback
  | intrinsic id assumeLike args called =>
    simp only [hkind] at h
    dsimp only
    split_ifs with hcarries hannotation
    · exact ⟨_, rfl⟩
    · rcases h with hcarries' | ⟨-, hargs⟩
      · exact absurd hcarries' hcarries
      · obtain ⟨V, hV⟩ := getArgOperand_zero hargs
        exact Exec.bind_returns hV ⟨_, rfl⟩
    · rcases h with hcarries' | ⟨hid, -⟩
      · exact absurd hcarries' hcarries
      · exact absurd hid hannotation
  | _ => simp [hkind] at h

omit [LinearOrder ν] in
theorem forwardOperands_returns (h : Handled I) (hpointer : I.isPointerTy = false) :
    ∃ ops, forwardOperands I = .ok ops := by
  unfold Handled at h
  unfold forwardOperands
  cases hkind : I.kind with
  | load ptr isUnordered => exact ⟨_, rfl⟩
  | binaryOperator division operands => exact ⟨_, rfl⟩
  | call args rest called => exact ⟨_, rfl⟩
  | operation op operands =>
    simp only [hkind, hpointer, Bool.false_eq_true, and_false, or_false] at h
    dsimp only
    split_ifs with hforward hnothing
    · exact ⟨_, rfl⟩
    · exact ⟨_, rfl⟩
    · exact absurd h (not_or.mpr ⟨hforward, hnothing⟩)
  | intrinsic id assumeLike args called =>
    simp only [hkind] at h
    dsimp only
    split_ifs with hcarries hannotation
    · exact ⟨_, rfl⟩
    · rcases h with hcarries' | ⟨-, hargs⟩
      · exact absurd hcarries' hcarries
      · obtain ⟨V, hV⟩ := getArgOperand_zero hargs
        exact Exec.bind_returns hV ⟨_, rfl⟩
    · rcases h with hcarries' | ⟨hid, -⟩
      · exact absurd hcarries' hcarries
      · exact absurd hid hannotation
  | _ => simp [hkind] at h

theorem visitBackward_saturates (h : Assumptions Q F) (hI : I ∈ F.instructions) :
    Saturates State.facts A {e | Public Q F e} (backwardRule I) (visitBackward · I) := by
  refine .of_union (fun S hS e he => ?_) fun s _ hs => ?_
  · obtain ⟨hpublic, ⟨ptr, isUnordered, hkind, rfl⟩ | ⟨ops, hops, V, hV, rfl⟩⟩ := he
    · exact .loadMemory hI hkind (hS hpublic)
    · exact .backward hI hops (hS hpublic) hV
  · unfold visitBackward
    split_ifs with hvisit
    · obtain ⟨hpublic, hlength⟩ := hvisit
      have hhandled := h.handled I hI (Public.not_void h hI (hs hpublic)) hlength
      by_cases hload : ∃ ptr isUnordered, I.kind = .load ptr isUnordered
      · obtain ⟨ptr, isUnordered, hkind⟩ := hload
        refine ⟨_, by rw [hkind]; rfl, ?_⟩
        rw [facts_insertMem]
        congr 1
        ext e
        simp [backwardRule, backwardOperands, hpublic, hkind, throw, throwThe, MonadExceptOf.throw]
      · have hload : ∀ ptr isUnordered, I.kind ≠ .load ptr isUnordered :=
          fun ptr isUnordered hkind => hload ⟨ptr, isUnordered, hkind⟩
        obtain ⟨ops, hops⟩ := backwardOperands_returns hhandled hload
        refine ⟨s.insertVals ops, ?_, ?_⟩
        · split
          · next ptr isUnordered hkind => exact absurd hkind (hload ptr isUnordered)
          · rw [hops]
            rfl
        · rw [facts_insertVals]
          congr 1
          ext e
          simp [backwardRule, valuesOf, hpublic, hload, hops]
    · refine ⟨s, rfl, (Set.union_eq_left.mpr fun e he => ?_).symm⟩
      obtain ⟨hpublic, he⟩ := he
      have hlength : ¬ 0 < I.operands.length := fun hlength => hvisit ⟨hpublic, hlength⟩
      have hnil : I.operands = [] := List.eq_nil_of_length_eq_zero (Nat.eq_zero_of_not_pos hlength)
      rcases he with ⟨ptr, isUnordered, hkind, -⟩ | ⟨ops, hops, V, hV, -⟩
      · simp [Instruction.operands, hkind, Kind.operands] at hnil
      · have hmem := mem_operands_of_backwardOperands hops hV
        simp [hnil] at hmem

/-- Behind the first step, which makes pointers public. -/
theorem visitForward_saturates (h : Assumptions Q F) (hI : I ∈ F.instructions) :
    Saturates State.facts (pointerRule I) {e | Public Q F e} (forwardRule Q I)
      (visitForward Q · I) := by
  refine .of_union (fun S hS e he => ?_) fun s hA hs => ?_
  · obtain ⟨⟨hvoid, hlength, ops, hops, hpublic⟩, rfl⟩ := he
    exact .forward hI hvoid hlength hops fun V hV hconst => hS (hpublic V hV hconst)
  have hnothing (h : ∀ e ∈ forwardRule Q I s.facts, e ∈ s.facts) :
      s.facts = s.facts ∪ forwardRule Q I s.facts := (Set.union_eq_left.mpr h).symm
  unfold visitForward
  split_ifs with hvisit
  · obtain ⟨hvoid, hlength, hpublic⟩ := hvisit
    have hpointer : I.isPointerTy = false := by
      by_contra hpointer
      exact hpublic (hA ⟨Bool.eq_true_of_not_eq_false hpointer, rfl⟩)
    obtain ⟨ops, hops⟩ := forwardOperands_returns (h.handled I hI hvoid hlength) hpointer
    rw [hops]
    cases ops with
    | none =>
      refine ⟨s, rfl, hnothing fun e he => ?_⟩
      obtain ⟨⟨-, -, ops, hops', -⟩, -⟩ := he
      cases hops.symm.trans hops'
    | some ops =>
      by_cases hpub : ops.all (isPub Q s) = true
      · refine ⟨s.insertVals [I.id], congrArg Except.ok (if_pos hpub), ?_⟩
        rw [facts_insertVals]
        congr 1
        ext e
        have hall := all_isPub_iff.mp hpub
        simp only [valuesOf, List.mem_singleton, exists_eq_left, Set.mem_ofPred_eq, forwardRule]
        exact (and_iff_right ⟨hvoid, hlength, ops, hops, hall⟩).symm
      · refine ⟨s, congrArg Except.ok (if_neg hpub), hnothing fun e he => ?_⟩
        obtain ⟨⟨-, -, ops', hops', hpublic⟩, rfl⟩ := he
        cases hops.symm.trans hops'
        exact absurd (all_isPub_iff.mpr hpublic) hpub
  · refine ⟨s, rfl, hnothing fun e he => ?_⟩
    obtain ⟨⟨hvoid, hlength, -⟩, rfl⟩ := he
    by_contra hpublic
    exact hvisit ⟨hvoid, hlength, hpublic⟩

theorem visitMemory_saturates (h : Assumptions Q F) (hI : I ∈ F.instructions) :
    Saturates State.facts A {e | Public Q F e}
      (fun S => loadedRule Q F I S ∪ storedRule Q F I S) (visitMemory Q F · I) := by
  obtain ⟨r, hr⟩ := h.stores I hI
  cases r with
  | none =>
    have hnothing (S : Set (Fact ν)) : loadedRule Q F I S ∪ storedRule Q F I S = ∅ := by
      refine Set.eq_empty_of_forall_notMem fun e he => ?_
      rcases he with ⟨V, hV, -⟩ | ⟨V, hV, -⟩ <;> cases hr.symm.trans hV
    refine .of_union (fun S _ => ?_) fun s _ _ => ⟨s, ?_, ?_⟩
    · rw [hnothing]
      exact Set.empty_subset _
    · unfold visitMemory
      rw [hr]
      rfl
    · rw [hnothing, Set.union_empty]
  | some V =>
    have hvisit : (visitMemory Q F · I) = fun s =>
        (pure (if isPub Q s V = true then s.insertVals [I.id] else s) : Exec (State ν)) >>= fun s =>
          pure (if isPub Q s I.id = true then s.insertVals [V] else s) := by
      funext s
      unfold visitMemory
      rw [hr]
      rfl
    rw [hvisit]
    have hloaded : Saturates State.facts A {e | Public Q F e}
        (fun S => {e | (Q.isConstant V = false → .value V ∈ S) ∧ e = .value I.id})
        fun s => pure (if isPub Q s V = true then s.insertVals [I.id] else s) :=
      saturates_insertIf (P := fun S => Q.isConstant V = false → .value V ∈ S)
        (fun _ => isPub_iff) fun S hS hV => .loaded hI hr fun hconst => hS (hV hconst)
    have hstored : Saturates State.facts A {e | Public Q F e}
        (fun S => {e | (Q.isConstant I.id = false → .value I.id ∈ S) ∧ e = .value V})
        fun s => pure (if isPub Q s I.id = true then s.insertVals [V] else s) :=
      saturates_insertIf (P := fun S => Q.isConstant I.id = false → .value I.id ∈ S)
        (fun _ => isPub_iff) fun S hS hV => .stored hI hr fun hconst => hS (hV hconst)
    refine (hloaded.bind hstored).of_subset fun S e he => ?_
    rcases he with ⟨W, hW, he⟩ | ⟨W, hW, he⟩ <;> cases hr.symm.trans hW
    · exact .inl he
    · exact .inr he

/-- What an iteration of the loop over the instructions derives. -/
def visitRule (Q : Queries ν) (F : IRFunction ν) (I : Instruction ν) (S : Set (Fact ν)) :
    Set (Fact ν) :=
  pointerRule I ∪ (transmitterRule I ∪ (callRule I ∪ (backwardRule I S ∪
    (forwardRule Q I S ∪ (loadedRule Q F I S ∪ storedRule Q F I S)))))

theorem visit_saturates (h : Assumptions Q F) (hI : I ∈ F.instructions) :
    Saturates State.facts ∅ {e | Public Q F e} (visitRule Q F I) (visit Q F · I) := by
  have hadds : ∀ s s', ∅ ⊆ s.facts → s.facts ⊆ {e | Public Q F e} →
      visitPointer s I = .ok s' → pointerRule I ⊆ s'.facts := by
    rintro s s' - - hret e ⟨hpointer, rfl⟩
    unfold visitPointer at hret
    rw [if_pos hpointer] at hret
    cases hret
    simp [State.insertVals]
  have hmemory := visitMemory_saturates (A := pointerRule I) h hI
  have hbackward := (visitBackward_saturates h hI).bind ((visitForward_saturates h hI).bind hmemory)
  exact (visitPointer_saturates hI).bind_of hadds
    ((visitTransmitter_saturates h hI).bind ((visitCall_saturates hI).bind hbackward))

/-! ## The Initial State -/

theorem annotatedPublicReturnValue_spec {l : List (AnnotatedValue ν)}
    (h : ∀ CS ∈ l, 2 ≤ CS.numOperands → ∃ G, CS.annotated = some G) :
    ∃ b, annotatedPublicReturnValue Q l = .ok b ∧ (b = true ↔ ∃ CS ∈ l, 2 ≤ CS.numOperands ∧
      CS.annotated = some Q.function ∧ CS.text = some "public") := by
  induction l with
  | nil => exact ⟨false, rfl, by simp⟩
  | cons CS rest ih =>
    obtain ⟨hCS, hrest⟩ := List.forall_mem_cons.mp h
    obtain ⟨b, hret, hb⟩ := ih hrest
    simp only [List.exists_mem_cons_iff]
    unfold annotatedPublicReturnValue
    split_ifs with hoperands
    · obtain ⟨G, hG⟩ := hCS hoperands
      simp only [hG]
      split_ifs with hfound
      · exact ⟨true, rfl, by simp [hoperands, hfound.1, hfound.2]⟩
      · refine ⟨b, hret, hb.trans (or_iff_right ?_).symm⟩
        rintro ⟨-, hfunction, htext⟩
        exact hfound ⟨(Option.some.inj hfunction).symm, htext⟩
    · exact ⟨b, hret, hb.trans (or_iff_right fun hfound => hoperands hfound.1).symm⟩

theorem initAnnotated_spec (h : Assumptions Q F) (hI : I ∈ F.instructions) (s : State ν) :
    ∃ s', initAnnotated Q s I = .ok s' ∧
      s'.facts = s.facts ∪ {e | ∃ V, AnnotatesPublic Q I V ∧ e = .value V} := by
  have hnothing (hnot : ∀ V, ¬ AnnotatesPublic Q I V) :
      s.facts = s.facts ∪ {e | ∃ V, AnnotatesPublic Q I V ∧ e = .value V} := by
    simp [hnot]
  unfold initAnnotated
  split
  · next assumeLike args called hkind =>
    have hlength := h.annotation I hI assumeLike args called hkind
    obtain ⟨V, string, rest, rfl⟩ : ∃ V string rest, args = V :: string :: rest := by
      rcases args with - | ⟨V, - | ⟨string, rest⟩⟩
      · simp at hlength
      · simp at hlength
      · exact ⟨V, string, rest, rfl⟩
    have hannotates (W : ν) : AnnotatesPublic Q I W ↔ Q.cString string = some "public" ∧ V = W := by
      simp [AnnotatesPublic, hkind]
    change ∃ s', (if Q.cString string = some "public" then pure (s.insertVals [V]) else pure s :
      Exec (State ν)) = .ok s' ∧ _
    split_ifs with hpublic
    · refine ⟨s.insertVals [V], rfl, ?_⟩
      rw [facts_insertVals]
      simp [valuesOf, hannotates, hpublic]
    · exact ⟨s, rfl, hnothing fun W hW => hpublic ((hannotates W).mp hW).1⟩
  · next hkind =>
    refine ⟨s, rfl, hnothing ?_⟩
    rintro V ⟨assumeLike, args, called, string, hkind', -⟩
    exact hkind assumeLike args called hkind'

/-- What is public before the first round. -/
def initialRule (Q : Queries ν) (F : IRFunction ν) : Set (Fact ν) :=
  {e | ∃ V, (V ∈ F.args ∧ Q.isPointerTy V = true ∨ (∃ I ∈ F.instructions, AnnotatesPublic Q I V) ∨
    ReturnsPublic Q ∧ ∃ I ∈ F.instructions, getReturnValue I = some V) ∧ e = .value V}

theorem initialState_spec (h : Assumptions Q F) :
    ∃ s, initialState Q F = .ok s ∧ s.facts = initialRule Q F := by
  obtain ⟨s, hret, hs⟩ := Exec.foldlM_returns (f := initAnnotated Q) (l := F.instructions)
    (a := State.insertVals ⟨∅, ∅⟩ (F.args.filter Q.isPointerTy))
    (P := fun done s => s.facts = valuesOf (F.args.filter Q.isPointerTy) ∪
      {e | ∃ V, (∃ I ∈ done, AnnotatesPublic Q I V) ∧ e = .value V})
    (fun done I s hI hs => by
      obtain ⟨s', hret, hfacts⟩ := initAnnotated_spec h hI s
      refine ⟨s', hret, ?_⟩
      rw [hfacts, hs, Set.union_assoc]
      congr 1
      ext e
      simp only [Set.mem_union, Set.mem_ofPred_eq, List.mem_append, List.mem_singleton, or_and_right,
        exists_or, exists_eq_left])
    (by
      rw [facts_insertVals]
      ext e
      cases e <;> simp [State.facts, State.Holds, valuesOf])
  obtain ⟨b, hreturned, hb⟩ := annotatedPublicReturnValue_spec h.functions
  have hb : b = true ↔ ReturnsPublic Q := hb
  refine ⟨_, Exec.bind_eq_ok.mpr ⟨s, hret, Exec.bind_eq_ok.mpr ⟨b, hreturned, rfl⟩⟩, ?_⟩
  have hif : (if b = true then s.insertVals (F.instructions.filterMap getReturnValue) else s).facts =
      s.facts ∪ {e | ReturnsPublic Q ∧ ∃ V, (∃ I ∈ F.instructions, getReturnValue I = some V) ∧
        e = .value V} := by
    split_ifs with hreturns
    · rw [facts_insertVals]
      simp [valuesOf, hb.mp hreturns]
    · have hnot : ¬ ReturnsPublic Q := fun h => hreturns (hb.mpr h)
      simp [hnot]
  rw [hif, hs]
  ext e
  simp only [Set.mem_union, Set.mem_ofPred_eq, valuesOf, List.mem_filter, initialRule, or_and_right,
    exists_or, or_assoc, and_assoc, exists_and_left]

theorem initialRule_sound : initialRule Q F ⊆ {e | Public Q F e} := by
  rintro e ⟨V, ⟨hV, hpointer⟩ | ⟨I, hI, hV⟩ | ⟨hreturns, I, hI, hV⟩, rfl⟩
  · exact .argument hV hpointer
  · exact .annotated hI hV
  · exact .returned hreturns hI hV

/-- The rules justify nothing that is not in every closed set. -/
theorem Public.mem_of_closed {S : Set (Fact ν)} (hinit : initialRule Q F ⊆ S)
    (hclosed : {e | ∃ I ∈ F.instructions, e ∈ visitRule Q F I S} ⊆ S) {e : Fact ν}
    (h : Public Q F e) : e ∈ S := by
  have hvisit {I : Instruction ν} (hI : I ∈ F.instructions) : visitRule Q F I S ⊆ S :=
    fun e he => hclosed ⟨I, hI, he⟩
  induction h with
  | argument hA hpointer => exact hinit ⟨_, .inl ⟨hA, hpointer⟩, rfl⟩
  | annotated hI hV => exact hinit ⟨_, .inr (.inl ⟨_, hI, hV⟩), rfl⟩
  | returned hreturns hI hV => exact hinit ⟨_, .inr (.inr ⟨hreturns, _, hI, hV⟩), rfl⟩
  | pointer hI hpointer => exact hvisit hI (.inl ⟨hpointer, rfl⟩)
  | transmitted hI hV => exact hvisit hI (.inr (.inl ⟨_, hV, rfl⟩))
  | callArg hI hkind hV =>
    exact hvisit hI (.inr (.inr (.inl ⟨_, _, _, hkind, .inl ⟨_, hV, rfl⟩⟩)))
  | callResult hI hkind hvoid =>
    exact hvisit hI (.inr (.inr (.inl ⟨_, _, _, hkind, .inr ⟨hvoid, rfl⟩⟩)))
  | loadMemory hI hkind _ ih =>
    exact hvisit hI (.inr (.inr (.inr (.inl ⟨ih, .inl ⟨_, _, hkind, rfl⟩⟩))))
  | backward hI hops _ hV ih =>
    exact hvisit hI (.inr (.inr (.inr (.inl ⟨ih, .inr ⟨_, hops, _, hV, rfl⟩⟩))))
  | forward hI hvoid hlength hops _ ih =>
    exact hvisit hI (.inr (.inr (.inr (.inr (.inl ⟨⟨hvoid, hlength, _, hops, ih⟩, rfl⟩)))))
  | loaded hI hV _ ih =>
    exact hvisit hI (.inr (.inr (.inr (.inr (.inr (.inl ⟨_, hV, ih, rfl⟩))))))
  | stored hI hV _ ih =>
    exact hvisit hI (.inr (.inr (.inr (.inr (.inr (.inr ⟨_, hV, ih, rfl⟩))))))

/-! ## The Verdict -/

theorem publicState_spec (h : Assumptions Q F) :
    ∃ s, (∀ fuel, 2 * F.values.length < fuel → publicState Q fuel F = .ok s) ∧
      s.facts = {e | Public Q F e} := by
  obtain ⟨s, hinit, hs⟩ := initialState_spec h
  obtain ⟨hfinite, hcard⟩ := finite_public h
  have hround : Saturates State.facts ∅ {e | Public Q F e}
      (fun S => {e | ∃ I ∈ F.instructions, e ∈ visitRule Q F I S})
      fun s => F.instructions.foldlM (visit Q F) s :=
    .foldlM fun I hI => visit_saturates h hI
  obtain ⟨s', hret, hs'⟩ := hround.rounds_least hfinite (fun _ _ => facts_inj)
    (hs ▸ initialRule_sound) fun S hS hclosed e he => he.mem_of_closed (hs ▸ hS) hclosed
  exact ⟨s', fun fuel hfuel => Exec.bind_eq_ok.mpr ⟨s, hinit, hret fuel (hcard.trans_lt hfuel)⟩, hs'⟩

/-- The errors that the rules call for: one for each argument that is not public, then one for each
return of a value that is neither constant nor public. -/
noncomputable def errors (Q : Queries ν) (F : IRFunction ν) : List Diagnostic :=
  open Classical in
  ((F.args.zipIdx.filter fun A => ¬ Public Q F (.value A.1)).map fun A =>
    argumentDiagnostic Q A.1 A.2) ++
  (F.instructions.filter fun RI => ∃ RV, getReturnValue RI = some RV ∧ Q.isConstant RV = false ∧
    ¬ Public Q F (.value RV)).map fun RI => returnDiagnostic Q RI.id

theorem filterMap_eq_map_filter {α β : Type} {f : α → Option β} {g : α → β} {p : α → Bool}
    {l : List α} (h : ∀ a, f a = if p a then some (g a) else none) :
    l.filterMap f = (l.filter p).map g := by
  induction l with
  | nil => rfl
  | cons a l ih =>
    rw [List.filterMap_cons, List.filter_cons, h a, ih]
    split_ifs <;> rfl

/-- The errors that are printed are those that the rules call for. -/
theorem diagnostics_eq (hs : s.facts = {e | Public Q F e}) : diagnostics Q F s = errors Q F := by
  have hpublic (V : ν) : V ∈ s.vals ↔ Public Q F (.value V) := Set.ext_iff.mp hs (.value V)
  refine congrArg₂ (· ++ ·) (filterMap_eq_map_filter fun A => ?_)
    (filterMap_eq_map_filter fun RI => ?_)
  · unfold checkArgument
    by_cases hA : Public Q F (.value A.1) <;> simp [hpublic, hA]
  · unfold checkReturn
    cases hvalue : getReturnValue RI with
    | none => simp
    | some RV =>
      by_cases hRV : Public Q F (.value RV) <;> cases hconst : Q.isConstant RV <;>
        simp [isPub, hpublic, hRV, hconst]

theorem errors_eq_nil : errors Q F = [] ↔ Obeys Q F := by
  unfold errors
  rw [List.append_eq_nil_iff, List.map_eq_nil_iff, List.map_eq_nil_iff, List.filter_eq_nil_iff,
    List.filter_eq_nil_iff]
  simp only [decide_eq_true_eq, not_not]
  constructor
  · rintro ⟨hargs, hreturns⟩
    refine ⟨fun A hA => ?_, fun RI hRI RV hRV hconst => ?_⟩
    · obtain ⟨argNo, hargNo⟩ := List.getElem?_of_mem hA
      exact hargs (A, argNo) (List.mem_zipIdx_iff_getElem?.mpr hargNo)
    · by_contra hsecret
      exact hreturns RI hRI ⟨RV, hRV, hconst, hsecret⟩
  · rintro ⟨hargs, hreturns⟩
    refine ⟨fun A hA => hargs A.1 (List.fst_mem_of_mem_zipIdx hA), ?_⟩
    rintro RI hRI ⟨RV, hRV, hconst, hsecret⟩
    exact hsecret (hreturns RI hRI RV hRV hconst)

/-- The rounds end with the public values and memory that the rules justify, whatever the
order of the instructions. -/
theorem publicState_exact (Q : Queries ν) (F : IRFunction ν) (h : Assumptions Q F) (fuel : Nat)
    (hfuel : 2 * F.values.length < fuel) :
    ∃ s, publicState Q fuel F = .ok s ∧ (∀ V, V ∈ s.vals ↔ Public Q F (.value V)) ∧
      ∀ ptr, ptr ∈ s.mem ↔ Public Q F (.memory ptr) := by
  obtain ⟨s, hret, hs⟩ := publicState_spec h
  exact ⟨s, hret fuel hfuel, fun V => Set.ext_iff.mp hs (.value V),
    fun ptr => Set.ext_iff.mp hs (.memory ptr)⟩

/-- The checker prints exactly the errors that the rules call for, and rejects a function unless it
obeys the contract. -/
theorem contract_exact (Q : Queries ν) (F : IRFunction ν) (h : Assumptions Q F) (fuel : Nat)
    (hfuel : 2 * F.values.length < fuel) :
    (∃ s, publicState Q fuel F = .ok s ∧ diagnostics Q F s = errors Q F) ∧
      (runOnFunction Q fuel F = .ok () ↔ Obeys Q F) ∧
      (runOnFunction Q fuel F = .error .exit ↔ ¬ Obeys Q F) := by
  obtain ⟨s, hret, hs⟩ := publicState_spec h
  have hret := hret fuel hfuel
  have hobeys : diagnostics Q F s = [] ↔ Obeys Q F := by
    rw [diagnostics_eq hs]
    exact errors_eq_nil
  have hrun : runOnFunction Q fuel F =
      if diagnostics Q F s = [] then .ok () else .error .exit := by
    unfold runOnFunction
    rw [hret]
    rfl
  refine ⟨⟨s, hret, diagnostics_eq hs⟩, ?_, ?_⟩ <;> rw [hrun, ← hobeys] <;>
    split_ifs with hnil <;> simp [hnil]

end Steps

/-- A function that stores its second argument, branches on what it loads back, and returns it. -/
def branchOnStored : IRFunction Nat where
  blocks := [[⟨10, true, false, .store 1 0⟩, ⟨11, false, false, .load 0 true⟩,
    ⟨12, false, false, .operation .cmp [11, 3]⟩, ⟨13, true, false, .branch (some 12) [4]⟩],
    [⟨14, true, false, .ret (some 1)⟩]]
  args := [0, 1]
  nodup := by decide

/-- The load reads what the store has written. -/
def storedQueries : Queries Nat where
  function := 5
  isConstant V := V = 3
  isPointerTy V := V = 0
  annotations := []
  cString _ := none
  getDependency _ := .definition 10
  name _ := ""
  location _ := ""

theorem mem_branchOnStored {I : Instruction Nat} (hI : I ∈ branchOnStored.instructions) :
    I = ⟨10, true, false, .store 1 0⟩ ∨ I = ⟨11, false, false, .load 0 true⟩ ∨
      I = ⟨12, false, false, .operation .cmp [11, 3]⟩ ∨
      I = ⟨13, true, false, .branch (some 12) [4]⟩ ∨ I = ⟨14, true, false, .ret (some 1)⟩ := by
  simpa [branchOnStored, IRFunction.instructions] using hI

theorem branchOnStored_assumptions : Assumptions storedQueries branchOnStored where
  void := by decide
  load I hI ptr isUnordered hkind := by
    rcases mem_branchOnStored hI with rfl | rfl | rfl | rfl | rfl <;> first | rfl | cases hkind
  functions CS hCS := by cases hCS
  annotation I hI assumeLike args called hkind := by
    rcases mem_branchOnStored hI with rfl | rfl | rfl | rfl | rfl <;> cases hkind
  transmitters I hI := by
    rcases mem_branchOnStored hI with rfl | rfl | rfl | rfl | rfl <;> exact ⟨_, rfl⟩
  handled I hI hvoid _ := by
    rcases mem_branchOnStored hI with rfl | rfl | rfl | rfl | rfl
    · cases hvoid
    · exact trivial
    · exact .inl rfl
    · cases hvoid
    · cases hvoid
  stores I hI := by
    rcases mem_branchOnStored hI with rfl | rfl | rfl | rfl | rfl <;> exact ⟨_, rfl⟩

/-- The branch makes its condition public, so what is compared, so what was stored. -/
theorem public_branchOnStored : Public storedQueries branchOnStored (.value 1) := by
  have hcondition : Public storedQueries branchOnStored (.value 12) :=
    .transmitted (I := ⟨13, true, false, .branch (some 12) [4]⟩) (by decide) ⟨_, rfl, .head _⟩
  have hloaded : Public storedQueries branchOnStored (.value 11) :=
    .backward (I := ⟨12, false, false, .operation .cmp [11, 3]⟩) (by decide) rfl hcondition
      (.head _)
  exact .stored (I := ⟨11, false, false, .load 0 true⟩) (by decide) rfl fun _ => hloaded

theorem publicState_exact_branchOnStored :
    ∃ s, publicState storedQueries 50 branchOnStored = .ok s ∧ 1 ∈ s.vals ∧ 0 ∈ s.mem := by
  obtain ⟨s, hret, hvals, hmem⟩ := publicState_exact storedQueries branchOnStored
    branchOnStored_assumptions 50 (by decide)
  refine ⟨s, hret, (hvals 1).mpr public_branchOnStored, (hmem 0).mpr ?_⟩
  have hloaded : Public storedQueries branchOnStored (.value 11) :=
    .loaded (I := ⟨11, false, false, .load 0 true⟩) (by decide) rfl fun _ => public_branchOnStored
  exact .loadMemory (I := ⟨11, false, false, .load 0 true⟩) (by decide) rfl hloaded

theorem contract_exact_branchOnStored :
    runOnFunction storedQueries 50 branchOnStored = .ok () := by
  refine (contract_exact storedQueries branchOnStored branchOnStored_assumptions 50
    (by decide)).2.1.mpr ⟨fun A hA => ?_, fun I hI V hV _ => ?_⟩
  · obtain rfl | rfl : A = 0 ∨ A = 1 := by simpa [branchOnStored] using hA
    · exact .argument (.head _) rfl
    · exact public_branchOnStored
  · rcases mem_branchOnStored hI with rfl | rfl | rfl | rfl | rfl <;> cases hV
    exact public_branchOnStored

end Clou.Contract
