-- SUMMARY: Which values the two passes keep in registers, and when what they insert comes behind what it uses.
import Serberus.NoSpill.Passes

/-!
# Values That Are Kept

The loop of the lowering ends although it lengthens the list that it goes through, since what it
inserts is not marked. It keeps exactly the values that leak by the rules of the leak analysis and
are not secret. A marked terminator is used before it has computed anything.
-/

namespace Clou.NoSpill

open Leakage (IRFunction Instruction Leaks LeakAssumptions leakAnalysis mayLeak)

section Loop

variable {ν : Type} {low : Instruction ν → Option ν} {B : List (Instruction ν)}

/-- A block with the uses of its values before the terminator. -/
def withUses (low : Instruction ν → Option ν) (B : List (Instruction ν)) : List (Inst ν) :=
  B.dropLast.map .source ++ (B.filterMap low).map .use ++ B.getLast?.toList.map .source

theorem insertBeforeTerminator_append (J T : Inst ν) (l : List (Inst ν)) :
    insertBeforeTerminator J (l ++ [T]) = l ++ [J, T] := by
  induction l with
  | nil => rfl
  | cons I l ih =>
    cases l with
    | nil => rfl
    | cons I' l =>
      change I :: insertBeforeTerminator J (I' :: l ++ [T]) = _
      rw [ih]
      rfl

theorem lowerLoop_use (fuel : Nat) (done rest : List (Inst ν)) (V : ν) :
    lowerLoop low (fuel + 1) done (.use V :: rest) =
      lowerLoop low fuel (done ++ [.use V]) rest := rfl

theorem lowerLoop_none {I : Instruction ν} (h : low I = none) (fuel : Nat)
    (done rest : List (Inst ν)) : lowerLoop low (fuel + 1) done (.source I :: rest) =
      lowerLoop low fuel (done ++ [.source I]) rest := by
  conv_lhs => unfold lowerLoop
  rw [h]

theorem lowerLoop_some {I : Instruction ν} {V : ν} (h : low I = some V) (fuel : Nat)
    (done : List (Inst ν)) (l : List (Inst ν)) (T : Inst ν) :
    lowerLoop low (fuel + 1) done (.source I :: (l ++ [T])) =
      lowerLoop low fuel (done ++ [.source I]) (l ++ [.use V, T]) >>= fun s => pure (true, s.2) := by
  obtain ⟨J, rest, hcons⟩ := List.exists_cons_of_ne_nil (List.append_ne_nil_of_right_ne_nil l
    (List.cons_ne_nil T []))
  rw [← insertBeforeTerminator_append, hcons]
  conv_lhs => unfold lowerLoop
  rw [h]

/-- The uses that have been inserted are passed over. -/
theorem lowerLoop_uses (low : Instruction ν → Option ν) (T : Instruction ν) (us : List ν)
    (fuel : Nat) (hfuel : us.length + 1 < fuel) (done : List (Inst ν)) :
    ∃ changed, lowerLoop low fuel done (us.map .use ++ [.source T]) =
      .ok (changed, done ++ us.map .use ++ (low T).toList.map .use ++ [.source T]) := by
  induction us generalizing fuel done with
  | nil =>
    obtain ⟨n, rfl⟩ : ∃ n, fuel = n + 2 := ⟨fuel - 2, by simp at hfuel; omega⟩
    cases hlow : low T with
    | none =>
      refine ⟨false, ?_⟩
      rw [List.map_nil, List.nil_append, lowerLoop_none hlow]
      simp [lowerLoop, pure, Except.pure]
    | some V =>
      refine ⟨true, ?_⟩
      simp [lowerLoop, hlow, pure, Except.pure]
  | cons V us ih =>
    obtain ⟨n, rfl⟩ : ∃ n, fuel = n + 1 := ⟨fuel - 1, by omega⟩
    obtain ⟨changed, hret⟩ := ih n (by simpa using hfuel) (done ++ [.use V])
    refine ⟨changed, ?_⟩
    rw [List.map_cons, List.cons_append, lowerLoop_use, hret]
    simp

/-- From an instruction on, behind which uses have been inserted before. -/
theorem lowerLoop_body (low : Instruction ν → Option ν) (T : Instruction ν)
    (body : List (Instruction ν)) (us : List ν) (fuel : Nat)
    (hfuel : 2 * body.length + us.length + 1 < fuel) (done : List (Inst ν)) : ∃ changed,
    lowerLoop low fuel done (body.map .source ++ us.map .use ++ [.source T]) =
      .ok (changed, done ++ body.map .source ++ us.map .use ++ (body.filterMap low).map .use ++
        (low T).toList.map .use ++ [.source T]) := by
  induction body generalizing fuel us done with
  | nil =>
    obtain ⟨changed, hret⟩ := lowerLoop_uses low T us fuel (by simpa using hfuel) done
    exact ⟨changed, by simpa using hret⟩
  | cons I body ih =>
    obtain ⟨n, rfl⟩ : ∃ n, fuel = n + 1 := ⟨fuel - 1, by omega⟩
    rw [List.map_cons, List.cons_append, List.cons_append]
    cases hlow : low I with
    | none =>
      obtain ⟨changed, hret⟩ := ih us n (by simp at hfuel; omega) (done ++ [.source I])
      refine ⟨changed, ?_⟩
      rw [lowerLoop_none hlow, hret]
      simp [hlow]
    | some V =>
      obtain ⟨changed, hret⟩ := ih (us ++ [V]) n (by simp at hfuel ⊢; omega) (done ++ [.source I])
      have hlist : body.map Inst.source ++ us.map .use ++ [.use V, .source T] =
          body.map .source ++ (us ++ [V]).map .use ++ [.source T] := by simp
      refine ⟨true, ?_⟩
      rw [lowerLoop_some hlow, hlist, hret]
      simp [hlow, bind, Except.bind, pure, Except.pure]

/-- The loop ends, and it has inserted a use of each marked value before the terminator. -/
theorem lowerLoop_eq (low : Instruction ν → Option ν) (B : List (Instruction ν)) {fuel : Nat}
    (hfuel : 2 * B.length < fuel) :
    ∃ changed, lowerLoop low fuel [] (B.map .source) = .ok (changed, withUses low B) := by
  rcases List.eq_nil_or_concat' B with rfl | ⟨body, T, rfl⟩
  · obtain ⟨n, rfl⟩ : ∃ n, fuel = n + 1 := ⟨fuel - 1, by omega⟩
    exact ⟨false, rfl⟩
  · obtain ⟨changed, hret⟩ := lowerLoop_body low T body [] fuel (by simp at hfuel ⊢; omega) []
    refine ⟨changed, ?_⟩
    unfold withUses
    cases hlow : low T <;> simpa [hlow, List.filterMap_append] using hret

end Loop

section Order

variable {ν : Type} {low : Instruction ν → Option ν} {B : List (Instruction ν)}

/-- Everything that is used has been computed before in the block. -/
def UsesBehind (l : List (Inst ν)) : Prop :=
  ∀ pre V post, l = pre ++ .use V :: post → ∃ I, .source I ∈ pre ∧ I.id = V

/-- Uses behind all that they use. -/
theorem usesBehind_append {l l' : List (Inst ν)} (hl : ∀ V, .use V ∉ l)
    (hl' : ∀ V, .use V ∈ l' → ∃ I, .source I ∈ l ∧ I.id = V) : UsesBehind (l ++ l') := by
  intro pre V post heq
  rcases List.append_eq_append_iff.mp heq with ⟨mid, rfl, hmid⟩ | ⟨mid, rfl, hmid⟩
  · obtain ⟨I, hI, hid⟩ := hl' V (hmid ▸ List.mem_append_right _ List.mem_cons_self)
    exact ⟨I, List.mem_append_left _ hI, hid⟩
  · cases mid with
    | nil =>
      obtain ⟨I, hI, hid⟩ := hl' V (by
        rw [List.nil_append] at hmid
        rw [← hmid]
        exact List.mem_cons_self)
      exact ⟨I, by simpa using hI, hid⟩
    | cons J mid =>
      cases hmid
      exact absurd (List.mem_append_right _ List.mem_cons_self) (hl V)

/-- What is inserted comes behind what it uses exactly if nothing is inserted for the terminator. -/
theorem usesBehind_withUses (hlow : ∀ I V, low I = some V → I.id = V) (hnodup : (B.map (·.id)).Nodup) :
    UsesBehind (withUses low B) ↔ ∀ T ∈ B.getLast?, low T = none := by
  rcases List.eq_nil_or_concat' B with rfl | ⟨body, T, rfl⟩
  · simp [UsesBehind, withUses]
  · have huses : withUses low (body ++ [T]) =
        body.map .source ++ ((body.filterMap low).map .use ++
          ((low T).toList.map .use ++ [.source T])) := by
      unfold withUses
      cases hT : low T <;> simp [hT, List.filterMap_append]
    rw [huses]
    constructor
    · intro hbehind T' hT'
      obtain rfl : T = T' := by simpa using hT'
      by_contra hne
      obtain ⟨V, hV⟩ := Option.ne_none_iff_exists'.mp hne
      rw [hV] at hbehind
      obtain ⟨I, hI, hid⟩ := hbehind (body.map .source ++ (body.filterMap low).map .use) V [.source T]
        (by simp)
      have hmem : I ∈ body := by simpa using hI
      rw [List.map_append, List.nodup_append] at hnodup
      refine hnodup.2.2 I.id (List.mem_map_of_mem hmem) T.id (by simp) ?_
      rw [hid, hlow T V hV]
    · intro hnone
      rw [hnone T (by simp)]
      refine usesBehind_append (by simp) fun V hV => ?_
      obtain ⟨I, hI, hV⟩ : ∃ I ∈ body, low I = some V := by simpa using hV
      exact ⟨I, by simpa using hI, hlow I V hV⟩

end Order

section Kept

variable {ν : Type} [LinearOrder ν] {O : Leakage.Oracles ν} {F : IRFunction ν}
  {secret isSingleValueType leak : ν → Bool}

/-- The values that the first pass marks. -/
theorem mem_noSpillPublic {nospill : OrdSet ν} {V : ν} :
    V ∈ (noSpillPublic leak secret F nospill).2 ↔ V ∈ nospill ∨
      ∃ I ∈ F.instructions, I.id = V ∧ I.isVoidTy = false ∧ leak V = true ∧ secret V = false := by
  unfold noSpillPublic
  have key (l : List (Instruction ν)) (s : Bool × OrdSet ν) :
      V ∈ (l.foldl (fun s I => if leak I.id && !secret I.id then (true, s.2.insert I.id) else s)
        s).2 ↔ V ∈ s.2 ∨ ∃ I ∈ l, I.id = V ∧ leak V = true ∧ secret V = false := by
    induction l generalizing s with
    | nil => simp
    | cons I l ih =>
      rw [List.foldl_cons, ih, List.exists_mem_cons_iff]
      cases hmark : leak I.id && !secret I.id with
      | true =>
        obtain ⟨hleak, hsecret⟩ : leak I.id = true ∧ secret I.id = false := by simpa using hmark
        rw [if_pos rfl, OrdSet.mem_insert]
        constructor
        · rintro ((rfl | hV) | hrest)
          · exact .inr (.inl ⟨rfl, hleak, hsecret⟩)
          · exact .inl hV
          · exact .inr (.inr hrest)
        · rintro (hV | ⟨rfl, -⟩ | hrest)
          · exact .inl (.inr hV)
          · exact .inl (.inl rfl)
          · exact .inr hrest
      | false =>
        rw [if_neg Bool.false_ne_true]
        refine or_congr_right (or_iff_right ?_).symm
        rintro ⟨rfl, hleak, hsecret⟩
        simp [hleak, hsecret] at hmark
  rw [key]
  simp [and_assoc, and_left_comm]

/-- What the rules of the leak analysis derive for an instruction that is not secret. -/
def Keeps (O : Leakage.Oracles ν) (secret isSingleValueType : ν → Bool) (F : IRFunction ν)
    (I : Instruction ν) : Prop :=
  I.isVoidTy = false ∧ isSingleValueType I.id = true ∧ Leaks O F I.id ∧ secret I.id = false

omit [LinearOrder ν] in
theorem source_withUses (low : Instruction ν → Option ν) (B : List (Instruction ν)) :
    (withUses low B).filterMap Inst.source? = B := by
  rcases List.eq_nil_or_concat' B with rfl | ⟨body, T, rfl⟩
  · rfl
  · unfold withUses
    simp [List.filterMap_append, List.filterMap_map, Function.comp_def]

omit [LinearOrder ν] in
theorem mem_withUses {low : Instruction ν → Option ν} {B : List (Instruction ν)} {V : ν} :
    .use V ∈ withUses low B ↔ ∃ I ∈ B, low I = some V := by
  unfold withUses
  simp only [List.mem_append, List.mem_map, List.mem_filterMap, reduceCtorEq, and_false,
    exists_false, false_or, or_false, Inst.use.injEq, exists_eq_right]

/-- What the loops leave of all blocks. -/
theorem noSpillLowering_eq (isSingleValueType : ν → Bool) (nospill : OrdSet ν) {fuel : Nat}
    (hfuel : ∀ B ∈ F.blocks, 2 * B.length < fuel) : ∃ changed,
    noSpillLowering fuel isSingleValueType nospill F =
      .ok (changed, F.blocks.map (withUses (lowered isSingleValueType nospill))) := by
  obtain ⟨blocks, hret⟩ := Exec.mapM_returns (l := F.blocks)
    (f := fun B => lowerLoop (lowered isSingleValueType nospill) fuel [] (B.map .source))
    fun B hB =>
      let ⟨changed, hloop⟩ := lowerLoop_eq (lowered isSingleValueType nospill) B (hfuel B hB)
      ⟨(changed, _), hloop⟩
  refine ⟨blocks.any (·.1), Exec.bind_eq_ok.mpr ⟨blocks, hret, ?_⟩⟩
  have hall := (List.forall₂_and_left _ _).mpr ⟨hfuel, Exec.mapM_eq_ok hret⟩
  have hblocks : blocks.map (·.2) =
      F.blocks.map (withUses (lowered isSingleValueType nospill)) := by
    clear hret hfuel
    generalize F.blocks = Bs at hall
    induction hall with
    | nil => rfl
    | @cons B s Bs ss hB _ ih =>
      obtain ⟨changed, hloop⟩ := lowerLoop_eq (lowered isSingleValueType nospill) B hB.1
      have hs := Except.ok.inj (hB.2.symm.trans hloop)
      rw [List.map_cons, List.map_cons, hs, ih]
  rw [← hblocks]
  rfl

theorem lowered_eq_some {nospill : OrdSet ν} {I : Instruction ν} {V : ν} :
    lowered isSingleValueType nospill I = some V ↔
      I.id = V ∧ I.id ∈ nospill ∧ isSingleValueType I.id = true := by
  unfold lowered
  split_ifs with hmem hsingle
  · simp [hmem, hsingle]
  · simp [hsingle]
  · simp [hmem]

/-- After both passes the values that are used before a terminator are exactly those of instructions
that leak by the rules of the leak analysis and are not secret; nothing else has changed. Every use
comes behind what it uses exactly if no terminator is among these instructions. -/
theorem noSpill_exact (O : Leakage.Oracles ν) (F : IRFunction ν) (h : LeakAssumptions O F)
    (secret isSingleValueType : ν → Bool) (fuel : Nat) (hfuel : F.values.toFinset.card < fuel)
    (hlower : ∀ B ∈ F.blocks, 2 * B.length < fuel) : ∃ leaks changed blocks,
    leakAnalysis O fuel F = .ok leaks ∧
      noSpillLowering fuel isSingleValueType (noSpillPublic (mayLeak leaks) secret F ∅).2 F =
        .ok (changed, blocks) ∧
      (∀ V, (∃ B ∈ blocks, .use V ∈ B) ↔
        ∃ I ∈ F.instructions, I.id = V ∧ Keeps O secret isSingleValueType F I) ∧
      blocks.map (·.filterMap Inst.source?) = F.blocks ∧
      ((∀ B ∈ blocks, UsesBehind B) ↔ ∀ B ∈ F.blocks, ∀ T ∈ B.getLast?,
        ¬ Keeps O secret isSingleValueType F T) := by
  obtain ⟨leaks, hleaks, hmem⟩ := Leakage.leakAnalysis_spec h hfuel
  have hnospill : ∀ I ∈ F.instructions, I.id ∈ (noSpillPublic (mayLeak leaks) secret F ∅).2 ↔
      I.isVoidTy = false ∧ Leaks O F I.id ∧ secret I.id = false := by
    intro I hI
    rw [mem_noSpillPublic]
    have hleak : mayLeak leaks I.id = true ↔ Leaks O F I.id := by
      unfold mayLeak
      rw [decide_eq_true_iff, hmem]
    constructor
    · rintro (hnone | ⟨J, hJ, hid, hvoid, hleaks, hsecret⟩)
      · exact absurd hnone (OrdSet.not_mem_empty _)
      · obtain rfl := IRFunction.eq_of_id hJ hI hid
        exact ⟨hvoid, hleak.mp hleaks, hsecret⟩
    · rintro ⟨hvoid, hleaks, hsecret⟩
      exact .inr ⟨I, hI, rfl, hvoid, hleak.mpr hleaks, hsecret⟩
  have hlow : ∀ I ∈ F.instructions, ∀ V, lowered isSingleValueType
      (noSpillPublic (mayLeak leaks) secret F ∅).2 I = some V ↔
        I.id = V ∧ Keeps O secret isSingleValueType F I := by
    intro I hI V
    rw [lowered_eq_some, hnospill I hI]
    unfold Keeps
    tauto
  have hin {B : List (Instruction ν)} {I : Instruction ν} (hB : B ∈ F.blocks) (hI : I ∈ B) :
      I ∈ F.instructions := List.mem_flatten.mpr ⟨B, hB, hI⟩
  obtain ⟨changed, hret⟩ := noSpillLowering_eq isSingleValueType
    (noSpillPublic (mayLeak leaks) secret F ∅).2 hlower
  refine ⟨leaks, changed, _, hleaks, hret, fun V => ?_, ?_, ?_⟩
  · constructor
    · rintro ⟨B', hB', hV⟩
      obtain ⟨B, hB, rfl⟩ := List.mem_map.mp hB'
      obtain ⟨I, hI, hV⟩ := mem_withUses.mp hV
      exact ⟨I, hin hB hI, (hlow I (hin hB hI) V).mp hV⟩
    · rintro ⟨I, hI, hV⟩
      obtain ⟨B, hB, hIB⟩ := List.mem_flatten.mp hI
      exact ⟨_, List.mem_map_of_mem hB, mem_withUses.mpr ⟨I, hIB, (hlow I hI V).mpr hV⟩⟩
  · rw [List.map_map]
    exact (List.map_congr_left fun B _ => source_withUses _ B).trans (List.map_id _)
  · rw [List.forall_mem_map]
    refine forall₂_congr fun B hB => ?_
    have hnodup : (B.map (·.id)).Nodup :=
      F.nodup.sublist ((List.sublist_flatten_of_mem hB).map _)
    rw [usesBehind_withUses (fun I V hV => (lowered_eq_some.mp hV).1) hnodup]
    refine forall₂_congr fun T hT => ?_
    have hT' : T ∈ F.instructions := hin hB (List.mem_of_getLast? hT)
    rw [← not_iff_not, not_not, ← ne_eq, Option.ne_none_iff_exists']
    constructor
    · rintro ⟨V, hV⟩
      exact ((hlow T hT' V).mp hV).2
    · exact fun hkeeps => ⟨T.id, (hlow T hT' T.id).mpr ⟨rfl, hkeeps⟩⟩

end Kept

/-- The result of the comparison that the branch leaks is kept, the secret that is loaded is not. -/
theorem noSpill_exact_branchOnLoad : ∃ leaks changed blocks,
    leakAnalysis Leakage.anyAlias 20 Leakage.branchOnLoad = .ok leaks ∧
      noSpillLowering 20 (fun _ => true)
        (noSpillPublic (mayLeak leaks) (fun V => V == 11) Leakage.branchOnLoad ∅).2
        Leakage.branchOnLoad = .ok (changed, blocks) ∧
      (∃ B ∈ blocks, .use 12 ∈ B) ∧ ∀ B ∈ blocks, .use 11 ∉ B := by
  obtain ⟨leaks, changed, blocks, hleaks, hret, huses, -⟩ :=
    noSpill_exact Leakage.anyAlias Leakage.branchOnLoad Leakage.branchOnLoad_assumptions
      (fun V => V == 11) (fun _ => true) 20
      ((List.toFinset_card_le _).trans_lt (by decide)) (by decide)
  refine ⟨leaks, changed, blocks, hleaks, hret, (huses 12).mpr ?_, fun B hB hV => ?_⟩
  · refine ⟨⟨12, false, false, .operation .cmp [11, 3]⟩, by decide, rfl, rfl, rfl, ?_, rfl⟩
    exact .transmitter (I := ⟨13, true, false, .branch (some 12) [4, 5]⟩) (by decide)
      ⟨_, rfl, _, .head _, rfl⟩
  · obtain ⟨I, -, hid, -, -, -, hsecret⟩ := (huses 11).mp ⟨B, hB, hV⟩
    rw [hid] at hsecret
    cases hsecret

end Clou.NoSpill
