-- SUMMARY: One visit of an instruction, as a step of marks that are propagated over the function.
import Mathlib.Data.List.Sort
import Serberus.Lib.Propagate
import Serberus.SpeculativeTaint.Taints

/-!
# Visits

The instructions of the function are the sites of `Propagate`: loads from addresses that
are not constant make marks, the other instructions carry them along `Step`, and stores
are the sites that are tested. A visit of the code is a visit there.
-/

namespace Clou.SpeculativeTaint

variable {ι : Type} [LinearOrder ι] {O : Oracles ι} {F : IRFunction ι} {ndebug : Bool}

/-! ## Indices of Loads -/

theorem mem_ncals {l : ι} : l ∈ ncals O F ↔ ∃ I ∈ F.instructions, O.isNcal I = true ∧ I.id = l := by
  unfold ncals
  rw [List.mem_insertionSort, List.mem_map]
  simp [and_assoc]

theorem ncals_sorted (O : Oracles ι) (F : IRFunction ι) : (ncals O F).Pairwise (· < ·) := by
  unfold ncals
  have hle := List.pairwise_insertionSort (· ≤ ·) ((F.instructions.filter O.isNcal).map (·.id))
  have hnodup : (((F.instructions.filter O.isNcal).map (·.id)).insertionSort (· ≤ ·)).Nodup := by
    rw [(List.perm_insertionSort _ _).nodup_iff]
    exact F.nodup.sublist (List.filter_sublist.map _)
  exact hle.imp₂ (fun _ _ => lt_of_le_of_ne) hnodup

theorem getElem?_ncals {l : ι} (h : l ∈ ncals O F) :
    (ncals O F)[lowerBound (ncals O F) l]? = some l := getElem?_lowerBound (ncals_sorted O F) h

theorem lowerBound_lt {l : ι} (h : l ∈ ncals O F) :
    lowerBound (ncals O F) l < (ncals O F).length :=
  (List.getElem?_eq_some_iff.mp (getElem?_ncals h)).1

/-! ## Loads that Stores Feed -/

/-- `l` is a load from a constant address that may read what a store to `storePtr` stores. -/
def Reads (O : Oracles ι) (F : IRFunction ι) (storePtr : Value ι) (l : ι) : Prop :=
  ∃ loadPtr, ⟨l, .load loadPtr⟩ ∈ F.instructions ∧ O.isConstantAddress loadPtr = true ∧
    O.MayRead storePtr loadPtr

/-- `rfs` gives the loads that each store may feed. -/
def RfsOf (O : Oracles ι) (F : IRFunction ι) (R : OrdMap ι (OrdSet ι)) : Prop :=
  ∀ i value ptr, ⟨i, .store value ptr⟩ ∈ F.instructions → ∀ l,
    l ∈ (R.find? i).getD ∅ ↔ Reads O F ptr l

omit [LinearOrder ι] in
theorem isDefinitelyNoAlias_ok {storePtr loadPtr : Value ι}
    (h : O.aliasResult storePtr loadPtr ≠ .partialAlias) :
    ∃ b, isDefinitelyNoAlias O.unsafeAA (O.aliasResult storePtr loadPtr) = .ok b ∧
      (b = false ↔ O.MayRead storePtr loadPtr) := by
  unfold Oracles.MayRead
  cases hresult : O.aliasResult storePtr loadPtr with
  | noAlias => exact ⟨true, rfl, by simp⟩
  | mayAlias => exact ⟨O.unsafeAA, rfl, Iff.rfl⟩
  | partialAlias => exact absurd hresult h
  | mustAlias => exact ⟨false, rfl, by simp⟩

theorem addLoad_ok (halias : ∀ p q, O.aliasResult p q ≠ .partialAlias) (storePtr : Value ι)
    (loads : OrdSet ι) (LI : Instruction ι) :
    ∃ loads', addLoad O storePtr loads LI = .ok loads' ∧ ∀ l, l ∈ loads' ↔ l ∈ loads ∨
      ∃ ptr, LI = ⟨l, .load ptr⟩ ∧ O.isConstantAddress ptr = true ∧ O.MayRead storePtr ptr := by
  obtain ⟨i, kind⟩ := LI
  unfold addLoad
  cases kind with
  | load ptr =>
    by_cases hconst : O.isConstantAddress ptr = true
    · obtain ⟨b, hb, hread⟩ := isDefinitelyNoAlias_ok (halias storePtr ptr)
      refine ⟨if b then loads else loads.insert i, ?_, fun l => ?_⟩
      · simp only [hconst, hb, if_true]
        rfl
      · simp only [Instruction.mk.injEq, Kind.load.injEq, and_assoc, exists_and_left,
          exists_eq_left', hconst, true_and, ← hread]
        cases b with
        | true => simp
        | false => simp [eq_comm, or_comm]
    · refine ⟨loads, ?_, fun l => ?_⟩
      · simp only [hconst]
        rfl
      · constructor
        · exact .inl
        · rintro (hl | ⟨ptr', heq, hconst', -⟩)
          · exact hl
          · cases heq
            exact absurd hconst' hconst
  | _ => exact ⟨loads, rfl, by simp⟩

theorem readers_ok (halias : ∀ p q, O.aliasResult p q ≠ .partialAlias) (storePtr : Value ι) :
    ∃ loads, F.instructions.foldlM (addLoad O storePtr) ∅ = .ok loads ∧
      ∀ l, l ∈ loads ↔ Reads O F storePtr l := by
  obtain ⟨loads, hret, hloads⟩ := Exec.foldlM_returns
    (P := fun done (loads : OrdSet ι) => ∀ l, l ∈ loads ↔ ∃ ptr, ⟨l, .load ptr⟩ ∈ done ∧
      O.isConstantAddress ptr = true ∧ O.MayRead storePtr ptr)
    (fun done LI loads _ hloads => by
      obtain ⟨loads', hadd, hloads'⟩ := addLoad_ok halias storePtr loads LI
      refine ⟨loads', hadd, fun l => ?_⟩
      rw [hloads', hloads]
      simp only [List.mem_append, List.mem_singleton, or_and_right, exists_or,
        eq_comm (a := LI)])
    (a := ∅) (by simp) (l := F.instructions)
  exact ⟨loads, hret, hloads⟩

omit [LinearOrder ι] in
theorem Instruction.eq_of_id {I J : Instruction ι} (hI : I ∈ F.instructions)
    (hJ : J ∈ F.instructions) (h : I.id = J.id) : I = J :=
  List.inj_on_of_nodup_map F.nodup hI hJ h

theorem rfs_ok (halias : ∀ p q, O.aliasResult p q ≠ .partialAlias) :
    ∃ R, rfs O F = .ok R ∧ RfsOf O F R := by
  let P (done : List (Instruction ι)) (R : OrdMap ι (OrdSet ι)) : Prop :=
    ∀ i value ptr, ⟨i, .store value ptr⟩ ∈ F.instructions → ⟨i, .store value ptr⟩ ∈ done →
      ∀ l, l ∈ (R.find? i).getD ∅ ↔ Reads O F ptr l
  have hstep (done : List (Instruction ι)) (SI : Instruction ι) (R : OrdMap ι (OrdSet ι))
      (hSI : SI ∈ F.instructions) (hR : P done R) :
      ∃ R', addStore O F R SI = .ok R' ∧ P (done ++ [SI]) R' := by
    obtain ⟨i, kind⟩ := SI
    by_cases hstore : ∃ value ptr, kind = .store value ptr
    · obtain ⟨value, ptr, rfl⟩ := hstore
      obtain ⟨loads, hloads, hreads⟩ := readers_ok (F := F) halias ptr
      refine ⟨R.insert i loads, ?_, fun i' value' ptr' h hdone l => ?_⟩
      · simp only [addStore, hloads]
        rfl
      · rw [OrdMap.find?_insert]
        split_ifs with hi
        · subst hi
          cases Instruction.eq_of_id hSI h rfl
          exact hreads l
        · refine hR i' value' ptr' h ?_ l
          simpa [hi] using hdone
    · refine ⟨R, ?_, fun i' value' ptr' h hdone l => hR i' value' ptr' h ?_ l⟩
      · cases kind with
        | store value ptr => exact absurd ⟨value, ptr, rfl⟩ hstore
        | _ => rfl
      · rcases List.mem_append.mp hdone with hdone | hdone
        · exact hdone
        · cases List.mem_singleton.mp hdone
          exact absurd ⟨value', ptr', rfl⟩ hstore
  obtain ⟨R, hret, hR⟩ := Exec.foldlM_returns hstep (a := ∅) (by simp [P])
  exact ⟨R, hret, fun i value ptr h => hR i value ptr h h⟩

/-! ## Instructions as Sites -/

/-- The marks of the loads, and how the instructions carry them. -/
def sites (O : Oracles ι) (F : IRFunction ι) : Propagate.Sites (Instruction ι) ι Idx where
  gen I y e := O.isNcal I = true ∧ y = I.id ∧ e = lowerBound (ncals O F) I.id
  flow := Step O F
  tested I := ∃ value ptr, I.kind = .store (.inst value) ptr
  not_gen := by
    rintro ⟨i, kind⟩ y e ⟨value, ptr, rfl⟩ ⟨hncal, -⟩
    simp [Oracles.isNcal] at hncal
  source_unique := by
    rintro ⟨i, kind⟩ x x' y y' ⟨value, ptr, rfl⟩ h h'
    cases h
    cases h'
    rfl

omit [LinearOrder ι] in
theorem step_store {i value x y : ι} {ptr : Value ι} :
    Step O F ⟨i, .store (.inst value) ptr⟩ x y ↔ x = value ∧ Reads O F ptr y := by
  constructor
  · intro h
    cases h with
    | stored hl hconst hread => exact ⟨rfl, _, hl, hconst, hread⟩
  · rintro ⟨rfl, _, hl, hconst, hread⟩
    exact .stored hl hconst hread

/-- The instructions that occur in the function, be it as operands. -/
def IRFunction.mentioned (F : IRFunction ι) : List ι := F.instructions.flatMap fun I =>
  I.id :: I.kind.operands.filterMap Value.instruction?

omit [LinearOrder ι] in
theorem Instruction.id_mentioned {I : Instruction ι} (hI : I ∈ F.instructions) :
    I.id ∈ F.mentioned := List.mem_flatMap.mpr ⟨I, hI, .head _⟩

omit [LinearOrder ι] in
theorem Instruction.operand_mentioned {I : Instruction ι} {x : ι} (hI : I ∈ F.instructions)
    (hx : .inst x ∈ I.kind.operands) : x ∈ F.mentioned :=
  List.mem_flatMap.mpr ⟨I, hI, .tail _ (List.mem_filterMap.mpr ⟨_, hx, rfl⟩)⟩

/-! ## Visits -/

/-- What a visit of `I` does to the marks and to the keys of the two maps. -/
structure Visited (O : Oracles ι) (F : IRFunction ι) (I : Instruction ι) (s s' : State ι) :
    Prop where
  visit : Propagate.Visit (sites O F) I s.taintsBak.marks s.taints.marks s'.taints.marks
  bak : s'.taintsBak.marks = s.taintsBak.marks
  keys : ∀ k ∈ s'.taints.keys, k ∈ s.taints.keys ∨ k ∈ F.mentioned
  keys_mono : ∀ k ∈ s.taints.keys, k ∈ s'.taints.keys
  bak_keys : ∀ k ∈ s'.taintsBak.keys, k ∈ s.taintsBak.keys ∨ k ∈ s'.taints.keys
  bak_mono : ∀ k ∈ s.taintsBak.keys, k ∈ s'.taintsBak.keys

section Visited

variable {I : Instruction ι} {s : State ι}

/-- A visit that leaves the backup alone, by what it does to the bits and to the keys. -/
theorem Visited.of_taints {t : Taints ι} (htest : ¬ (sites O F).tested I)
    (hmarks : ∀ y e, e ∈ t.get y ↔ e ∈ s.taints.get y ∨ (sites O F).gen I y e ∨
      ∃ x, Step O F I x y ∧ e ∈ s.taints.get x)
    (hkeys : ∀ k ∈ t.keys, k ∈ s.taints.keys ∨ k ∈ F.mentioned)
    (hmono : ∀ k ∈ s.taints.keys, k ∈ t.keys) : Visited O F I s { s with taints := t } where
  visit := by
    intro y e
    change e ∈ t.get y ↔ _
    rw [hmarks y e]
    simp only [Taints.mem_marks, htest, false_imp_iff, true_and]
    rfl
  bak := rfl
  keys := hkeys
  keys_mono := hmono
  bak_keys := fun k hk => .inl hk
  bak_mono := fun k hk => hk

/-- A visit that joins the bits of some operands into those of the instruction. -/
theorem Visited.of_operands {ops : List (Value ι)} {t : Taints ι} (hI : I ∈ F.instructions)
    (htest : ¬ (sites O F).tested I) (hncal : O.isNcal I = false)
    (hops : ∀ x, .inst x ∈ ops → .inst x ∈ I.kind.operands)
    (hstep : ∀ x y, Step O F I x y ↔ y = I.id ∧ .inst x ∈ ops)
    (hget : ∀ y, t.get y = s.taints.get y) (hkeys : ∀ k ∈ t.keys, k = I.id ∨ k ∈ s.taints.keys)
    (hmono : ∀ k ∈ s.taints.keys, k ∈ t.keys) :
    Visited O F I s { s with taints := ops.foldl (joinOperand I.id) t } := by
  refine Visited.of_taints htest (fun y e => ?_) (fun k hk => ?_) fun k hk => ?_
  · simp only [Taints.mem_get_joinOperands, hget, sites, hncal, hstep, Bool.false_eq_true,
      false_and, false_or, and_assoc, exists_and_left]
  · rcases (Taints.mem_keys_joinOperands ops).mp hk with hk | ⟨x, hx, rfl | rfl⟩
    · rcases hkeys k hk with rfl | hk
      · exact .inr (Instruction.id_mentioned hI)
      · exact .inl hk
    · exact .inr (Instruction.id_mentioned hI)
    · exact .inr (Instruction.operand_mentioned hI (hops _ hx))
  · exact (Taints.mem_keys_joinOperands ops).mpr (.inl (hmono k hk))

/-- A visit that changes nothing. -/
theorem Visited.refl (htest : ¬ (sites O F).tested I)
    (hncal : O.isNcal I = false) (hstep : ∀ x y, ¬ Step O F I x y) : Visited O F I s s :=
  Visited.of_taints htest (fun y e => by simp [sites, hncal, hstep]) (fun _ => .inl) fun _ => id

theorem visited_store {i value : ι} {ptr : Value ι} {loads : OrdSet ι}
    (hI : ⟨i, .store (.inst value) ptr⟩ ∈ F.instructions)
    (hloads : ∀ l, l ∈ loads ↔ Reads O F ptr l) :
    Visited O F ⟨i, .store (.inst value) ptr⟩ s (visitStore loads value s) := by
  have hvalue : value ∈ F.mentioned := Instruction.operand_mentioned hI (.head _)
  have htested : (sites O F).tested ⟨i, .store (.inst value) ptr⟩ := ⟨value, ptr, rfl⟩
  have hgen (y : ι) (e : Idx) : ¬ (sites O F).gen ⟨i, .store (.inst value) ptr⟩ y e :=
    (sites O F).not_gen _ y e htested
  have hread {l : ι} (hl : l ∈ loads) : l ∈ F.mentioned := by
    obtain ⟨loadPtr, hl, -⟩ := (hloads l).mp hl
    exact Instruction.id_mentioned hl
  have hflow (x y : ι) : (sites O F).flow ⟨i, .store (.inst value) ptr⟩ x y ↔
      x = value ∧ y ∈ loads := step_store.trans (and_congr_right fun _ => (hloads y).symm)
  unfold visitStore
  simp only [Taints.get_touch]
  split_ifs with hchanged
  · have htest : s.taints.marks value ≠ s.taintsBak.marks value := by
      rwa [ne_eq, Taints.marks_inj]
    have hkeys (k : ι) : k ∈ (loads.toList.foldl (fun t LI => t.join LI value)
        (s.taints.touch value)).keys ↔ (k = value ∨ k ∈ s.taints.keys) ∨ k ∈ loads := by
      rw [Taints.mem_keys_joinLoads _ (Taints.mem_keys_touch.mpr (.inl rfl)),
        Taints.mem_keys_touch]
      rfl
    refine ⟨fun y e => ?_, ?_, fun k hk => ?_, fun k hk => ?_, fun k hk => ?_, fun k hk => ?_⟩
    · simp only [Taints.mem_marks, Taints.mem_get_joinLoads, Taints.get_touch, hgen, hflow,
        false_or, OrdSet.mem_toList, and_assoc, exists_eq_left]
      tauto
    · funext y
      rw [Taints.marks_inj, Taints.get_touch]
    · rcases (hkeys k).mp hk with (rfl | hk) | hk
      · exact .inr hvalue
      · exact .inl hk
      · exact .inr (hread hk)
    · exact (hkeys k).mpr (.inl (.inr hk))
    · rcases Taints.mem_keys_touch.mp hk with rfl | hk
      · exact .inr ((hkeys k).mpr (.inl (.inl rfl)))
      · exact .inl hk
    · exact Taints.mem_keys_touch.mpr (.inr hk)
  · have htest : s.taints.marks value = s.taintsBak.marks value :=
      Taints.marks_inj.mpr (not_not.mp hchanged)
    refine ⟨fun y e => ?_, ?_, fun k hk => ?_, fun k hk => ?_, fun k hk => ?_, fun k hk => ?_⟩
    · simp only [Taints.mem_marks, Taints.get_touch, hgen, hflow, false_or]
      constructor
      · exact .inl
      · rintro (he | ⟨x, ⟨rfl, -⟩, hchanged, -⟩)
        · exact he
        · exact absurd htest (hchanged htested)
    · funext y
      rw [Taints.marks_inj, Taints.get_touch]
    · rcases Taints.mem_keys_touch.mp hk with rfl | hk
      · exact .inr hvalue
      · exact .inl hk
    · exact Taints.mem_keys_touch.mpr (.inr hk)
    · rcases Taints.mem_keys_touch.mp hk with rfl | hk
      · exact .inr (Taints.mem_keys_touch.mpr (.inl rfl))
      · exact .inl hk
    · exact Taints.mem_keys_touch.mpr (.inr hk)

theorem visit_load {R : OrdMap ι (OrdSet ι)} {i : ι} {ptr : Value ι}
    (hI : ⟨i, .load ptr⟩ ∈ F.instructions) (s : State ι) :
    ∃ s', visit ndebug O (ncals O F) R s ⟨i, .load ptr⟩ = .ok s' ∧
      Visited O F ⟨i, .load ptr⟩ s s' := by
  have htest : ¬ (sites O F).tested ⟨i, .load ptr⟩ := by rintro ⟨_, _, h⟩; cases h
  have hstep (x y : ι) : ¬ Step O F ⟨i, .load ptr⟩ x y := by rintro ⟨⟩
  by_cases hconst : O.isConstantAddress ptr = true
  · refine ⟨s, ?_, .refl htest (by simp [Oracles.isNcal, hconst]) hstep⟩
    simp only [visit, hconst, if_true]
    rfl
  · have hncal : O.isNcal ⟨i, .load ptr⟩ = true := by simpa [Oracles.isNcal] using hconst
    have hmem : i ∈ ncals O F := mem_ncals.mpr ⟨_, hI, hncal, rfl⟩
    refine ⟨{ s with taints := s.taints.set i (lowerBound (ncals O F) i) }, ?_, ?_⟩
    · simp only [visit, hconst, ncalToIdx, positionOf_mem (ncals_sorted O F) hmem]
      rfl
    · refine .of_taints htest (fun y e => ?_) (fun k hk => ?_) fun k hk => ?_
      · simp only [Taints.mem_get_set, sites, hncal, true_and, hstep, false_and, exists_false,
          or_false]
      · rcases Taints.mem_keys_set.mp hk with rfl | hk
        · exact .inr (Instruction.id_mentioned hI)
        · exact .inl hk
      · exact Taints.mem_keys_set.mpr (.inr hk)

theorem visit_intrinsic {R : OrdMap ι (OrdSet ι)} {i : ι} {id : IntrinsicID}
    {void assumeLike : Bool} {args : List (Value ι)}
    (hI : ⟨i, .intrinsic id void assumeLike args⟩ ∈ F.instructions)
    (hhandled : (⟨i, .intrinsic id void assumeLike args⟩ : Instruction ι).Handled) (s : State ι) :
    ∃ s', visit ndebug O (ncals O F) R s ⟨i, .intrinsic id void assumeLike args⟩ = .ok s' ∧
      Visited O F ⟨i, .intrinsic id void assumeLike args⟩ s s' := by
  have htest : ¬ (sites O F).tested ⟨i, .intrinsic id void assumeLike args⟩ := by
    rintro ⟨_, _, h⟩
    cases h
  by_cases hskip : void = true ∨ assumeLike = true
  · refine ⟨s, ?_, .refl htest rfl ?_⟩
    · simp only [visit, hskip, if_true]
      rfl
    · rintro x y ⟨⟩ <;> simp at hskip
  · obtain ⟨rfl, rfl⟩ : void = false ∧ assumeLike = false := by simpa using hskip
    by_cases hpass : id.passthrough = true
    · refine ⟨{ s with taints := args.foldl (joinOperand i) s.taints }, ?_, ?_⟩
      · simp only [visit, hskip, hpass, if_true, if_false]
        rfl
      · refine .of_operands hI htest rfl (fun x hx => hx) (fun x y => ⟨?_, ?_⟩) (fun y => rfl)
          (fun k hk => .inr hk) fun k hk => hk
        · rintro (⟨hx⟩ | ⟨-, hx⟩ | ⟨⟩ | ⟨⟩)
          · exact ⟨rfl, hx⟩
          · cases hpass
        · rintro ⟨rfl, hx⟩
          exact .argument hpass hx
    · obtain ⟨rfl, hargs⟩ : id = .annotationIntrinsic ∧ args ≠ [] := by
        simpa [Instruction.Handled, hpass] using hhandled
      obtain ⟨arg, args, rfl⟩ := List.exists_cons_of_ne_nil hargs
      refine ⟨{ s with taints := [arg].foldl (joinOperand i) s.taints }, rfl, ?_⟩
      refine .of_operands hI htest rfl (fun x hx => ?_) (fun x y => ⟨?_, ?_⟩) (fun y => rfl)
        (fun k hk => .inr hk) fun k hk => hk
      · rw [List.mem_singleton.mp hx]
        exact .head _
      · rintro (⟨hx⟩ | ⟨hid, hx⟩ | ⟨⟩ | ⟨⟩)
        · cases hid
        · exact ⟨rfl, .head _⟩
      · rintro ⟨rfl, hx⟩
        cases List.mem_singleton.mp hx
        exact .firstArgument

theorem visit_other {R : OrdMap ι (OrdSet ι)} {i : ι} {void : Bool} {operands : List (Value ι)}
    (hI : ⟨i, .other void operands⟩ ∈ F.instructions) (s : State ι) :
    ∃ s', visit ndebug O (ncals O F) R s ⟨i, .other void operands⟩ = .ok s' ∧
      Visited O F ⟨i, .other void operands⟩ s s' := by
  have htest : ¬ (sites O F).tested ⟨i, .other void operands⟩ := by rintro ⟨_, _, h⟩; cases h
  cases void with
  | true => exact ⟨s, rfl, .refl htest rfl (by rintro _ _ ⟨⟩)⟩
  | false =>
    refine ⟨_, rfl, .of_operands hI htest rfl (fun x hx => hx) (fun x y => ⟨?_, ?_⟩)
      (fun y => Taints.get_touch) (fun k hk => Taints.mem_keys_touch.mp hk)
      fun k hk => Taints.mem_keys_touch.mpr (.inr hk)⟩
    · rintro ⟨hx⟩
      exact ⟨rfl, hx⟩
    · rintro ⟨rfl, hx⟩
      exact .operand hx

/-- Every visit returns, and does what the instruction does as a site. -/
theorem visit_ok {R : OrdMap ι (OrdSet ι)} (hR : RfsOf O F R) (hI : I ∈ F.instructions)
    (hhandled : I.Handled) (s : State ι) :
    ∃ s', visit ndebug O (ncals O F) R s I = .ok s' ∧ Visited O F I s s' := by
  obtain ⟨i, kind⟩ := I
  cases kind with
  | load ptr => exact visit_load hI s
  | store value ptr =>
    cases value with
    | inst value => exact ⟨_, rfl, visited_store hI (hR i _ ptr hI)⟩
    | other n =>
      exact ⟨s, rfl, .refl (by rintro ⟨_, _, h⟩; cases h) rfl (by rintro _ _ ⟨⟩)⟩
  | intrinsic id void assumeLike args => exact visit_intrinsic hI hhandled s
  | call =>
    exact ⟨s, rfl, .refl (by rintro ⟨_, _, h⟩; cases h) rfl (by rintro _ _ ⟨⟩)⟩
  | other void operands => exact visit_other hI s

end Visited

end Clou.SpeculativeTaint
