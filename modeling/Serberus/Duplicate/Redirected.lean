-- SUMMARY: The duplication pass redirects exactly the direct calls of the functions with one suitable call.
import Mathlib.Data.List.Perm.Basic
import Serberus.Duplicate.Pass

/-!
# Redirected Calls

The loop sets one operand at most: it takes the first use that is operand 0 of a call, and
goes on in the list of the clone, which ends there. The called operand is operand 0 only of
calls without other operands. So the pass does what it is for just when the function has one
call, without other operands, and nothing that the loop takes for a call comes before it.
-/

namespace Clou.Duplicate

open UseLists

variable {φ ι : Type}

/-! ## What the Pass Is For -/

/-- The operand of the module that an operand is, or is a clone of. -/
def useBase (U : Use (Copy ι)) : Use ι := ⟨U.user.base, U.operandNo⟩

/-- The operand itself. -/
def useOriginal (U : Use ι) : Use (Copy ι) := ⟨.original U.user, U.operandNo⟩

/-- The use is the called operand of a call. -/
def Module.IsCalledUse (M : Module φ ι) (U : Use ι) : Prop :=
  M.isCall U.user = true ∧ U.operandNo + 1 = (M.heap.operands U.user).length

/-- The direct calls of `F`, and only these, call its clone; its other uses refer to `F`. -/
structure Redirected (M : Module φ ι) (s : State φ ι) (F : φ) : Prop where
  noCalls : ∀ C, M.isCall C.base = true → calledOperand s C ≠ some (.original F)
  calls : ∀ i, M.isCall i = true → calledOperand M.heap i = some F →
    calledOperand s (.original i) = some (.clone F)
  others : ∀ U, M.heap.value U = some F → ¬ M.IsCalledUse U →
    s.value (useOriginal U) = some (.original F)
  only : ∀ U, s.value U = some (.clone F) → M.IsCalledUse (useBase U)

/-- What the loop takes for a direct call. -/
def Module.isFirstOperand (M : Module φ ι) (U : Use ι) : Bool := M.isCall U.user && U.operandNo = 0

/-- The functions of the worklist up to `F`. -/
def upTo [DecidableEq φ] (Fs : List φ) (F : φ) : List φ := Fs.takeWhile (· ≠ F) ++ [F]

/-- The function has one direct call, which has no other operands; in its use list no use as
first operand of a call comes before; and no such use is in the body of one of the cloned
functions. -/
structure OneCall (M : Module φ ι) (cloned : List φ) (F : φ) (C : Use ι) : Prop where
  first : (M.heap.uses F).find? M.isFirstOperand = some C
  only : ∀ U ∈ M.heap.uses F, M.IsCalledUse U ↔ U = C
  notCloned : ∀ U ∈ M.heap.uses F, M.isFirstOperand U = true →
    ∀ G ∈ cloned, M.parent U.user ≠ some G

/-- One call for the functions that are cloned by the time the function is. -/
def Redirectable [DecidableEq φ] [DecidableEq ι] (M : Module φ ι) (F : φ) : Prop :=
  ∃ C, OneCall M (upTo (M.worklist.map (·.id)) F) F C

theorem isFirstOperand_iff {M : Module φ ι} {U : Use ι} :
    M.isFirstOperand U = true ↔ M.isCall U.user = true ∧ U.operandNo = 0 := by
  simp [Module.isFirstOperand]

/-! ## Cloning -/

section Cloning

variable [DecidableEq φ] [DecidableEq ι] {M : Module φ ι} {order : CloneOrder φ ι} {F : φ}
  {s : State φ ι}

omit [DecidableEq φ] [DecidableEq ι] in
theorem value_init (U : Use (Copy ι)) : M.init.value U = match U.user with
    | .original i => (M.heap.value ⟨i, U.operandNo⟩).map .original
    | .clone _ => none := by
  obtain ⟨a, n⟩ := U
  unfold Heap.value Module.init
  cases a with
  | original i =>
    dsimp only
    rw [List.getElem?_map]
    cases (M.heap.operands i)[n]? <;> rfl
  | clone i => rfl

omit [DecidableEq φ] [DecidableEq ι] in
theorem init_wf : M.init.WF where
  mem_uses {f U} := by
    rw [value_init]
    obtain ⟨a, n⟩ := U
    cases f with
    | original f =>
      change _ ∈ (M.heap.uses f).map _ ↔ _
      rw [List.mem_map]
      cases a with
      | original i =>
        dsimp only
        rw [Option.map_eq_some_iff]
        constructor
        · rintro ⟨V, hV, heq⟩
          cases heq
          exact ⟨f, M.wf.mem_uses.mp hV, rfl⟩
        · rintro ⟨g, hg, heq⟩
          cases heq
          exact ⟨⟨i, n⟩, M.wf.mem_uses.mpr hg, rfl⟩
      | clone i =>
        refine ⟨fun ⟨V, _, heq⟩ => ?_, fun h => by cases h⟩
        cases heq
    | clone f =>
      refine ⟨fun h => absurd h List.not_mem_nil, fun h => ?_⟩
      cases a with
      | original i =>
        obtain ⟨g, -, heq⟩ := Option.map_eq_some_iff.mp h
        cases heq
      | clone i => cases h
  nodup f := by
    cases f with
    | original f =>
      refine (M.wf.nodup f).map fun U V heq => ?_
      cases U
      cases V
      cases heq
      rfl
    | clone f => exact List.nodup_nil

omit [DecidableEq ι] in
theorem value_cloneBody (U : Use (Copy ι)) : (cloneBody M order F s).value U = match U.user with
    | .original _ => s.value U
    | .clone i =>
      if M.parent i = some F then s.value ⟨.original i, U.operandNo⟩ else s.value U := by
  obtain ⟨a, n⟩ := U
  unfold Heap.value cloneBody
  cases a with
  | original i => rfl
  | clone i =>
    dsimp only
    split_ifs with h <;> rfl

omit [DecidableEq ι] in
/-- The new uses of `g`. -/
theorem mem_clonedUses {g : Copy φ} {U : Use (Copy ι)} (h : s.WF) :
    U ∈ ((s.uses g).filter (inBody M F)).map cloneUse ↔
    ∃ i, U.user = .clone i ∧ M.parent i = some F ∧
      s.value ⟨.original i, U.operandNo⟩ = some g := by
  rw [List.mem_map]
  constructor
  · rintro ⟨⟨a, n⟩, hV, rfl⟩
    obtain ⟨hV, hbody⟩ := List.mem_filter.mp hV
    cases a with
    | original i => exact ⟨i, rfl, of_decide_eq_true hbody, h.mem_uses.mp hV⟩
    | clone i => cases hbody
  · rintro ⟨i, hi, hparent, hvalue⟩
    refine ⟨⟨.original i, U.operandNo⟩, List.mem_filter.mpr ⟨h.mem_uses.mpr hvalue, ?_⟩, ?_⟩
    · exact decide_eq_true hparent
    · obtain ⟨a, n⟩ := U
      cases hi
      rfl

omit [DecidableEq ι] in
theorem cloneBody_wf (horder : ∀ F g l, (order F g l).Perm l) (h : s.WF)
    (hnew : ∀ i, M.parent i = some F → s.operands (.clone i) = []) :
    (cloneBody M order F s).WF where
  mem_uses {g U} := by
    rw [value_cloneBody]
    change U ∈ order F g _ ++ s.uses g ↔ _
    rw [List.mem_append, (horder F g _).mem_iff, mem_clonedUses h, h.mem_uses]
    obtain ⟨a, n⟩ := U
    cases a with
    | original i =>
      refine ⟨fun hU => hU.resolve_left ?_, .inr⟩
      rintro ⟨j, hj, -⟩
      cases hj
    | clone i =>
      dsimp only
      split_ifs with hparent
      · have hnone : s.value ⟨.clone i, n⟩ = none := by simp [Heap.value, hnew i hparent]
        rw [hnone]
        constructor
        · rintro (⟨j, hj, -, hvalue⟩ | hU)
          · cases hj
            exact hvalue
          · cases hU
        · exact fun hvalue => .inl ⟨i, rfl, hparent, hvalue⟩
      · refine ⟨fun hU => hU.resolve_left ?_, .inr⟩
        rintro ⟨j, hj, hj', -⟩
        cases hj
        exact hparent hj'
  nodup g := by
    change (order F g _ ++ s.uses g).Nodup
    rw [List.nodup_append]
    refine ⟨(horder F g _).nodup_iff.mpr (((h.nodup g).filter _).map_on ?_), h.nodup g, ?_⟩
    · rintro ⟨a, m⟩ hU ⟨b, n⟩ hV heq
      have hU' := (List.mem_filter.mp hU).2
      have hV' := (List.mem_filter.mp hV).2
      cases a with
      | clone i => cases hU'
      | original i =>
        cases b with
        | clone j => cases hV'
        | original j =>
          cases heq
          rfl
    · rintro U hU V hV rfl
      obtain ⟨i, hi, hparent, -⟩ := (mem_clonedUses h).mp ((horder F g _).mem_iff.mp hU)
      rw [h.mem_uses] at hV
      unfold Heap.value at hV
      rw [hi, hnew i hparent] at hV
      cases hV

omit [DecidableEq ι] in
/-- Cloning puts clones of uses in front of the use lists. -/
theorem cloneBody_uses (horder : ∀ F g l, (order F g l).Perm l) {g : Copy φ}
    {pre l : List (Use (Copy ι))} (hpre : s.uses g = pre ++ l)
    (hclones : ∀ U ∈ pre, ∃ i, U.user = .clone i) :
    ∃ pre', (cloneBody M order F s).uses g = pre' ++ l ∧ ∀ U ∈ pre', ∃ i, U.user = .clone i := by
  refine ⟨order F g (((s.uses g).filter (inBody M F)).map cloneUse) ++ pre, ?_, fun U hU => ?_⟩
  · change order F g _ ++ s.uses g = _
    rw [hpre, List.append_assoc]
  · rcases List.mem_append.mp hU with hU | hU
    · obtain ⟨V, -, rfl⟩ := List.mem_map.mp ((horder F g _).mem_iff.mp hU)
      exact ⟨V.user.base, rfl⟩
    · exact hclones U hU

end Cloning

/-! ## The Loop -/

section Loop

variable [DecidableEq φ] [DecidableEq ι] {M : Module φ ι} {F : φ} {s : State φ ι}

/-- What the loop over the uses leaves: the first use that it takes for a direct call is set. -/
def redirectFirst (M : Module φ ι) (F : φ) (l : List (Use (Copy ι))) (s : State φ ι) : State φ ι :=
  match l.find? fun U => M.isFirstOperand (useBase U) with
  | some U => s.set U (.clone F)
  | none => s

/-- Behind the first use that is set the loop is in the list of the clone, which ends there. -/
theorem redirectUses_eq (h : s.WF) (hclone : s.uses (.clone F) = []) {fuel : Nat}
    {l₁ l₂ : List (Use (Copy ι))} (hl : s.uses (.original F) = l₁ ++ l₂)
    (hfuel : l₂.length ≤ fuel) :
    redirectUses M F fuel l₂.head? s = .ok (redirectFirst M F l₂ s) := by
  induction l₂ generalizing fuel l₁ with
  | nil => cases fuel <;> rfl
  | cons U l₂ ih =>
    cases fuel with
    | zero => simp at hfuel
    | succ fuel =>
      have hvalue : s.value U = some (.original F) := h.mem_uses.mp (hl ▸ by simp)
      unfold redirectFirst redirectUses
      rw [List.find?_cons]
      dsimp only [List.head?_cons]
      by_cases hfirst : M.isCall U.user.base = true ∧ U.operandNo = 0
      · have htaken : M.isFirstOperand (useBase U) = true := isFirstOperand_iff.mpr hfirst
        have huses : (s.set U (.clone F)).uses (.clone F) = [] ++ U :: [] := by
          rw [Heap.uses_set hvalue (by simp), if_pos rfl, hclone]
          rfl
        rw [if_pos hfirst, htaken, (h.set hvalue (by simp)).next_eq huses]
        cases fuel <;> rfl
      · have hpassed : M.isFirstOperand (useBase U) = false :=
          Bool.eq_false_iff.mpr fun htaken => hfirst (isFirstOperand_iff.mp htaken)
        have hl' : s.uses (.original F) = (l₁ ++ [U]) ++ l₂ := by simp [hl]
        rw [if_neg hfirst, hpassed, h.next_eq hl]
        exact ih hl' (Nat.le_of_succ_le_succ hfuel)

end Loop

/-! ## The Worklist -/

section Worklist

variable [DecidableEq φ] [DecidableEq ι] {M : Module φ ι} {order : CloneOrder φ ι} {F G : φ}
  {s s' : State φ ι} {done : List φ}

/-- A user of the module, or the clone of a user in a function that has been cloned. -/
def Module.Present (M : Module φ ι) (done : List φ) : Copy ι → Prop
  | .original _ => True
  | .clone i => ∃ F ∈ done, M.parent i = some F

/-- What holds when the functions in `done` have been cloned. An operand refers to what it refers
to in the module, or to the clone of that. The use lists of the other functions have only
clones of uses in front of their uses in the module. -/
structure Inv (M : Module φ ι) (done : List φ) (s : State φ ι) : Prop where
  wf : s.WF
  length : ∀ a, M.Present done a → (s.operands a).length = (M.heap.operands a.base).length
  absent : ∀ a, ¬ M.Present done a → s.operands a = []
  value : ∀ U, M.Present done U.user →
    s.value U = (M.heap.value (useBase U)).map .original ∨
    ∃ F ∈ done, M.heap.value (useBase U) = some F ∧ s.value U = some (.clone F)
  uses : ∀ F ∉ done, ∃ pre, s.uses (.original F) = pre ++ (M.heap.uses F).map useOriginal ∧
    ∀ U ∈ pre, ∃ i, U.user = .clone i

omit [DecidableEq φ] [DecidableEq ι] in
theorem init_inv : Inv M [] M.init where
  wf := init_wf
  length a ha := by
    cases a with
    | original i => exact List.length_map _
    | clone i => simp [Module.Present] at ha
  absent a ha := by
    cases a with
    | original i => exact absurd trivial ha
    | clone i => rfl
  value U hU := by
    rw [value_init]
    obtain ⟨a, n⟩ := U
    cases a with
    | original i => exact .inl rfl
    | clone i => simp [Module.Present] at hU
  uses F _ := ⟨[], rfl, by simp⟩

namespace Inv

omit [DecidableEq φ] [DecidableEq ι] in
theorem present (h : Inv M done s) {U : Use (Copy ι)} {f : Copy φ} (hU : s.value U = some f) :
    M.Present done U.user := by
  by_contra hnot
  unfold Heap.value at hU
  rw [h.absent _ hnot] at hU
  cases hU

omit [DecidableEq φ] [DecidableEq ι] in
/-- What refers to a function did so in the module. -/
theorem value_base (h : Inv M done s) {U : Use (Copy ι)}
    (hU : s.value U = some (.original F) ∨ s.value U = some (.clone F)) :
    M.heap.value (useBase U) = some F := by
  have hpresent : M.Present done U.user := hU.elim h.present h.present
  rcases h.value U hpresent with heq | ⟨G, -, hbase, heq⟩
  · rw [heq] at hU
    simpa using hU
  · rw [heq] at hU
    simpa [hbase] using hU

omit [DecidableEq φ] [DecidableEq ι] in
/-- What referred to a function still does, or refers to its clone. -/
theorem value_original (h : Inv M done s) {U : Use ι} (hU : M.heap.value U = some F) :
    s.value (useOriginal U) = some (.original F) ∨ s.value (useOriginal U) = some (.clone F) := by
  rcases h.value (useOriginal U) trivial with heq | ⟨G, -, hbase, heq⟩
  · exact .inl (heq.trans (congrArg (Option.map Copy.original) hU))
  · obtain rfl : F = G := Option.some.inj (hU.symm.trans hbase)
    exact .inr heq

omit [DecidableEq φ] [DecidableEq ι] in
theorem not_clone (h : Inv M done s) (hF : F ∉ done) (U : Use (Copy ι)) :
    s.value U ≠ some (.clone F) := by
  intro hU
  rcases h.value U (h.present hU) with heq | ⟨G, hG, -, heq⟩
  · rw [hU] at heq
    obtain ⟨G, -, hG⟩ := Option.map_eq_some_iff.mp heq.symm
    cases hG
  · rw [hU] at heq
    cases heq
    exact hF hG

omit [DecidableEq ι] in
theorem cloned (horder : ∀ F g l, (order F g l).Perm l) (h : Inv M done s) (hF : F ∉ done) :
    Inv M (F :: done) (Duplicate.cloneBody M order F s) := by
  have hnew : ∀ i, M.parent i = some F → s.operands (.clone i) = [] := by
    refine fun i hi => h.absent _ ?_
    rintro ⟨G, hG, hparent⟩
    exact hF (Option.some.inj (hi.symm.trans hparent) ▸ hG)
  have hpresent (i : ι) : M.Present (F :: done) (.clone i) ↔
      M.parent i = some F ∨ M.Present done (.clone i) := by
    simp [Module.Present]
  refine ⟨cloneBody_wf horder h.wf hnew, fun a ha => ?_, fun a ha => ?_, fun U hU => ?_,
    fun G hG => ?_⟩
  · cases a with
    | original i => exact h.length (.original i) trivial
    | clone i =>
      change (if M.parent i = some F then s.operands (.original i)
        else s.operands (.clone i)).length = _
      split_ifs with hparent
      · exact h.length (.original i) trivial
      · exact h.length (.clone i) (((hpresent i).mp ha).resolve_left hparent)
  · cases a with
    | original i => exact absurd trivial ha
    | clone i =>
      change (if M.parent i = some F then s.operands (.original i)
        else s.operands (.clone i)) = []
      obtain ⟨hparent, habsent⟩ := not_or.mp (mt (hpresent i).mpr ha)
      rw [if_neg hparent]
      exact h.absent _ habsent
  · have hmore {V : Use (Copy ι)} (hV : M.Present done V.user) :
        s.value V = (M.heap.value (useBase V)).map .original ∨
        ∃ G ∈ F :: done, M.heap.value (useBase V) = some G ∧ s.value V = some (.clone G) :=
      (h.value V hV).imp_right fun ⟨G, hG, hvalue⟩ => ⟨G, .tail _ hG, hvalue⟩
    rw [value_cloneBody]
    obtain ⟨a, n⟩ := U
    cases a with
    | original i => exact hmore (V := ⟨.original i, n⟩) trivial
    | clone i =>
      dsimp only
      split_ifs with hparent
      · exact hmore (V := ⟨.original i, n⟩) trivial
      · exact hmore (V := ⟨.clone i, n⟩) (((hpresent i).mp hU).resolve_left hparent)
  · obtain ⟨pre, hpre, hclones⟩ := h.uses G fun hmem => hG (.tail _ hmem)
    exact cloneBody_uses horder hpre hclones

theorem set (h : Inv M done s) (hF : F ∈ done) {U : Use (Copy ι)}
    (hU : s.value U = some (.original F)) : Inv M done (s.set U (.clone F)) := by
  have hvalue := Heap.value_set (f := .clone F) hU
  refine ⟨h.wf.set hU (by simp), fun a ha => ?_, fun a ha => ?_, fun V hV => ?_, fun G hG => ?_⟩
  · rw [Heap.length_operands_set]
    exact h.length a ha
  · apply List.eq_nil_of_length_eq_zero
    rw [Heap.length_operands_set, h.absent a ha]
    rfl
  · rw [hvalue]
    split_ifs with heq
    · subst heq
      exact .inr ⟨F, hF, h.value_base (.inl hU), rfl⟩
    · exact h.value V hV
  · obtain ⟨pre, hpre, hclones⟩ := h.uses G hG
    refine ⟨pre, ?_, hclones⟩
    have hne : Copy.original G ≠ .original F := fun heq => hG (by cases heq; exact hF)
    rw [Heap.uses_set hU (by simp), if_neg (by simp), if_neg hne, hpre]

end Inv

/-- Of the operands that refer to `F` or to its clone, the called ones refer to the clone. -/
def CallsClone (M : Module φ ι) (s : State φ ι) (F : φ) : Prop :=
  ∀ U, s.value U = some (.original F) ∨ s.value U = some (.clone F) →
    (M.IsCalledUse (useBase U) ↔ s.value U = some (.clone F))

omit [DecidableEq φ] [DecidableEq ι] in
theorem calledOperand_eq {α κ : Type} (H : Heap α κ) (C : κ) :
    calledOperand H C = H.value ⟨C, (H.operands C).length - 1⟩ := by
  unfold calledOperand Heap.value
  rw [List.getLast?_eq_getElem?]

omit [DecidableEq φ] [DecidableEq ι] in
/-- The last operand of a call is its called operand. -/
theorem called_of_last {α κ : Type} {H : Heap α κ} {a : κ} {i : ι} {f : α}
    (hi : M.isCall i = true) (hlength : (H.operands a).length = (M.heap.operands i).length)
    (hvalue : H.value ⟨a, (H.operands a).length - 1⟩ = some f) :
    M.IsCalledUse ⟨i, (H.operands a).length - 1⟩ := by
  refine ⟨hi, ?_⟩
  have hne : (H.operands a).length ≠ 0 := fun hzero => by
    unfold Heap.value at hvalue
    rw [List.eq_nil_of_length_eq_zero hzero] at hvalue
    cases hvalue
  dsimp only
  omega

omit [DecidableEq φ] [DecidableEq ι] in
theorem redirected_iff (h : Inv M done s) : Redirected M s F ↔ CallsClone M s F := by
  constructor
  · rintro ⟨hnoCalls, hcalls, hothers, honly⟩ U hU
    refine ⟨fun hcalled => hU.resolve_left fun horiginal => ?_, honly U⟩
    refine hnoCalls U.user hcalled.1 ?_
    have hlast : (s.operands U.user).length - 1 = U.operandNo := by
      have hlength := hcalled.2
      rw [h.length _ (h.present horiginal)]
      simp only [useBase] at hlength
      omega
    rw [calledOperand_eq, hlast]
    exact horiginal
  · intro h'
    refine ⟨fun C hC hcall => ?_, fun i hi hcall => ?_, fun U hU hcalled => ?_, fun U hU => ?_⟩
    · rw [calledOperand_eq] at hcall
      have hclone := (h' _ (.inl hcall)).mp (called_of_last hC (h.length _ (h.present hcall)) hcall)
      rw [hcall] at hclone
      cases hclone
    · rw [calledOperand_eq] at hcall ⊢
      rw [h.length (.original i) trivial]
      have hvalue := h.value_original hcall
      exact (h' _ hvalue).mp (called_of_last hi rfl hcall)
    · have hvalue := h.value_original hU
      exact hvalue.resolve_right (mt (h' _ hvalue).mpr hcalled)
    · exact (h' U (.inr hU)).mpr hU

/-! ### One Step -/

omit [DecidableEq ι] in
/-- After cloning an operand refers to what one with the same base referred to. -/
theorem exists_value_cloneBody (M : Module φ ι) (order : CloneOrder φ ι) (F : φ) (s : State φ ι)
    (U : Use (Copy ι)) :
    ∃ V, useBase V = useBase U ∧ (cloneBody M order F s).value U = s.value V := by
  rw [value_cloneBody]
  obtain ⟨a, n⟩ := U
  cases a with
  | original i => exact ⟨⟨.original i, n⟩, rfl, rfl⟩
  | clone i =>
    dsimp only
    split_ifs with hparent
    · exact ⟨⟨.original i, n⟩, rfl, rfl⟩
    · exact ⟨⟨.clone i, n⟩, rfl, rfl⟩

omit [DecidableEq ι] in
/-- What refers to something before cloning still does. -/
theorem value_cloneBody_of_some (order : CloneOrder φ ι) (h : Inv M done s) (hF : F ∉ done)
    {U : Use (Copy ι)} {f : Copy φ} (hU : s.value U = some f) :
    (cloneBody M order F s).value U = some f := by
  have hpresent := h.present hU
  rw [value_cloneBody]
  obtain ⟨a, n⟩ := U
  cases a with
  | original i => exact hU
  | clone i =>
    obtain ⟨G, hG, hparent⟩ := hpresent
    have hne : M.parent i ≠ some F := fun heq => hF (Option.some.inj (heq.symm.trans hparent) ▸ hG)
    dsimp only
    rw [if_neg hne]
    exact hU

omit [DecidableEq ι] in
/-- Cloning a body does not change how the calls of a function stand. -/
theorem callsClone_cloneBody (h : Inv M done s) (hF : F ∉ done) :
    CallsClone M (cloneBody M order F s) G ↔ CallsClone M s G := by
  constructor
  · intro h' U hU
    have hsame {f : Copy φ} (hU : s.value U = some f) := value_cloneBody_of_some order h hF hU
    rw [h' U (hU.imp hsame hsame)]
    rcases hU with hU | hU
    · rw [hsame hU, hU]
    · rw [hsame hU, hU]
  · intro h' U hU
    obtain ⟨V, hbase, hvalue⟩ := exists_value_cloneBody M order F s U
    rw [hvalue] at hU ⊢
    rw [← hbase]
    exact h' V hU

theorem redirectFirst_inv (h : Inv M done s) (hF : F ∈ done) :
    Inv M done (redirectFirst M F (s.uses (.original F)) s) := by
  unfold redirectFirst
  split
  · next U hfind => exact h.set hF (h.wf.mem_uses.mp (List.mem_of_find?_eq_some hfind))
  · exact h

/-- The loop over the uses of one function leaves the calls of the others as they are. -/
theorem callsClone_redirectFirst_of_ne (h : Inv M done s) (hne : G ≠ F) :
    CallsClone M (redirectFirst M F (s.uses (.original F)) s) G ↔ CallsClone M s G := by
  unfold redirectFirst
  split
  · next U hfind =>
    have hU : s.value U = some (.original F) :=
      h.wf.mem_uses.mp (List.mem_of_find?_eq_some hfind)
    refine forall_congr' fun V => ?_
    rw [Heap.value_set hU]
    split_ifs with heq
    · subst heq
      rw [hU]
      simp [Ne.symm hne]
    · exact Iff.rfl
  · exact Iff.rfl

/-- The loop over the uses of a function that no operand has been redirected from. -/
theorem callsClone_redirectFirst (h : Inv M done s) (hclone : ∀ U, s.value U ≠ some (.clone F)) :
    CallsClone M (redirectFirst M F (s.uses (.original F)) s) F ↔
      match (s.uses (.original F)).find? fun U => M.isFirstOperand (useBase U) with
      | some C => ∀ U ∈ s.uses (.original F), M.IsCalledUse (useBase U) ↔ U = C
      | none => ∀ U ∈ s.uses (.original F), ¬ M.IsCalledUse (useBase U) := by
  unfold redirectFirst
  split
  · next C hfind =>
    have hC : s.value C = some (.original F) :=
      h.wf.mem_uses.mp (List.mem_of_find?_eq_some hfind)
    refine forall_congr' fun U => ?_
    rw [Heap.value_set hC, h.wf.mem_uses]
    split_ifs with heq
    · subst heq
      simp [hC]
    · simp [hclone U, heq]
  · refine forall_congr' fun U => ?_
    rw [h.wf.mem_uses]
    simp [hclone U]

omit [DecidableEq φ] [DecidableEq ι] in
/-- The uses of a function that is being cloned, in terms of the module: the clones of uses come
first, and they are those of the uses in the cloned functions. -/
theorem Inv.uses_eq (h : Inv M done s) (hclone : ∀ U, s.value U ≠ some (.clone F))
    {pre : List (Use (Copy ι))}
    (hpre : s.uses (.original F) = pre ++ (M.heap.uses F).map useOriginal) :
    (∀ U ∈ pre, useBase U ∈ M.heap.uses F ∧ M.Present done U.user) ∧
      ∀ U ∈ M.heap.uses F, ∀ G ∈ done, M.parent U.user = some G →
        ⟨.clone U.user, U.operandNo⟩ ∈ s.uses (.original F) := by
  constructor
  · intro U hU
    have hvalue : s.value U = some (.original F) :=
      h.wf.mem_uses.mp (hpre ▸ List.mem_append_left _ hU)
    exact ⟨M.wf.mem_uses.mpr (h.value_base (.inl hvalue)), h.present hvalue⟩
  · intro U hU G hG hparent
    have hbase : M.heap.value U = some F := M.wf.mem_uses.mp hU
    rw [h.wf.mem_uses]
    rcases h.value ⟨.clone U.user, U.operandNo⟩ ⟨G, hG, hparent⟩ with heq | ⟨G', -, hbase', heq⟩
    · exact heq.trans (congrArg (Option.map Copy.original) hbase)
    · obtain rfl : F = G' := Option.some.inj (hbase.symm.trans hbase')
      exact absurd heq (hclone _)

omit [DecidableEq φ] [DecidableEq ι] in
theorem useOriginal_injective : Function.Injective (useOriginal : Use ι → Use (Copy ι)) := by
  rintro ⟨i, m⟩ ⟨j, n⟩ h
  cases h
  rfl

omit [DecidableEq φ] [DecidableEq ι] in
/-- Behind the clones of uses, the loop finds what it finds in the module. -/
theorem find?_uses {pre : List (Use (Copy ι))} {Us : List (Use ι)}
    (hpre : ∀ U ∈ pre, M.isFirstOperand (useBase U) = false) :
    (pre ++ Us.map useOriginal).find? (fun U => M.isFirstOperand (useBase U)) =
      (Us.find? M.isFirstOperand).map useOriginal := by
  rw [List.find?_append, List.find?_eq_none.mpr fun U hU => by simp [hpre U hU], Option.none_or,
    List.find?_map]
  rfl

omit [DecidableEq φ] [DecidableEq ι] in
/-- The loop redirects just the one call of a function, if it has one call. -/
theorem oneCall_iff (h : Inv M done s) (hclone : ∀ U, s.value U ≠ some (.clone F))
    {pre : List (Use (Copy ι))}
    (hpre : s.uses (.original F) = pre ++ (M.heap.uses F).map useOriginal)
    (hclones : ∀ U ∈ pre, ∃ i, U.user = .clone i)
    (hcall : ∃ U ∈ M.heap.uses F, M.IsCalledUse U) :
    (∃ C, (s.uses (.original F)).find? (fun U => M.isFirstOperand (useBase U)) = some C ∧
      ∀ U ∈ s.uses (.original F), M.IsCalledUse (useBase U) ↔ U = C) ↔
      ∃ C, OneCall M done F C := by
  obtain ⟨hpreUses, hcloned⟩ := h.uses_eq hclone hpre
  have horiginal {U : Use ι} (hU : U ∈ M.heap.uses F) : useOriginal U ∈ s.uses (.original F) :=
    hpre ▸ List.mem_append_right _ (List.mem_map_of_mem hU)
  have hnotPre (U : Use ι) : useOriginal U ∉ pre := fun hU => by
    obtain ⟨i, hi⟩ := hclones _ hU
    cases hi
  constructor
  · rintro ⟨C, hfind, honly⟩
    obtain ⟨c, hc, hcalled⟩ := hcall
    obtain rfl : useOriginal c = C := (honly _ (horiginal hc)).mp hcalled
    -- No clone is taken for the call, as the call is not a clone.
    have hpassed : ∀ U ∈ pre, M.isFirstOperand (useBase U) = false := by
      intro U hU
      rw [Bool.eq_false_iff]
      intro htaken
      obtain ⟨V, hV⟩ : ∃ V, pre.find? (fun U => M.isFirstOperand (useBase U)) = some V :=
        Option.isSome_iff_exists.mp (List.find?_isSome.mpr ⟨U, hU, htaken⟩)
      rw [hpre, List.find?_append, hV, Option.some_or] at hfind
      cases hfind
      exact hnotPre c (List.mem_of_find?_eq_some hV)
    refine ⟨c, ?_, fun U hU => (honly _ (horiginal hU)).trans useOriginal_injective.eq_iff,
      fun U hU htaken G hG hparent => ?_⟩
    · rw [hpre, find?_uses hpassed, Option.map_eq_some_iff] at hfind
      obtain ⟨C, hC, heq⟩ := hfind
      rwa [useOriginal_injective heq] at hC
    · have hmem := hcloned U hU G hG hparent
      rw [hpre, List.mem_append, List.mem_map] at hmem
      rcases hmem with hmem | ⟨V, -, heq⟩
      · exact Bool.eq_false_iff.mp (hpassed _ hmem) htaken
      · cases heq
  · rintro ⟨C, hfirst, honly, hnot⟩
    have hpassed : ∀ U ∈ pre, M.isFirstOperand (useBase U) = false := by
      intro U hU
      rw [Bool.eq_false_iff]
      intro htaken
      obtain ⟨hbase, hpresent⟩ := hpreUses U hU
      obtain ⟨i, hi⟩ := hclones U hU
      rw [hi] at hpresent
      obtain ⟨G, hG, hparent⟩ := hpresent
      refine hnot _ hbase htaken G hG ?_
      simp only [useBase, hi]
      exact hparent
    refine ⟨useOriginal C, ?_, fun U hU => ?_⟩
    · rw [hpre, find?_uses hpassed, hfirst]
      rfl
    · rw [hpre, List.mem_append, List.mem_map] at hU
      rcases hU with hU | ⟨V, hV, rfl⟩
      · -- A clone is not a called operand, as it is not taken for the call.
        have hnotC : useBase U ≠ C := fun heq => by
          have htaken := List.find?_some hfirst
          rw [← heq] at htaken
          exact Bool.eq_false_iff.mp (hpassed U hU) htaken
        rw [honly _ (hpreUses U hU).1]
        exact iff_of_false hnotC fun heq => hnotPre C (heq ▸ hU)
      · exact (honly V hV).trans useOriginal_injective.eq_iff.symm

/-- One function of the worklist: it gets its turn, and the functions before it keep theirs. -/
theorem cloneFunction_spec {ndebug : Bool} (horder : ∀ F g l, (order F g l).Perm l)
    (h : Inv M done s) {F : Function φ} (hF : F.id ∉ done)
    (hname : ndebug = true ∨ F.hasSuffix = false)
    (hcall : ∃ U ∈ M.heap.uses F.id, M.IsCalledUse U) :
    ∃ N s', (∀ fuel ≥ N, cloneFunction ndebug M order fuel s F = .ok s') ∧
      Inv M (F.id :: done) s' ∧
      (∀ G ≠ F.id, CallsClone M s' G ↔ CallsClone M s G) ∧
      (CallsClone M s' F.id ↔ ∃ C, OneCall M (F.id :: done) F.id C) := by
  set s₁ := cloneBody M order F.id s with hs₁
  have h₁ : Inv M (F.id :: done) s₁ := h.cloned horder hF
  have hclone : ∀ U, s₁.value U ≠ some (.clone F.id) := by
    intro U
    obtain ⟨V, -, hvalue⟩ := exists_value_cloneBody M order F.id s U
    rw [hs₁, hvalue]
    exact h.not_clone hF V
  have hfresh : s₁.uses (.clone F.id) = [] :=
    List.eq_nil_iff_forall_not_mem.mpr fun U hU => hclone U (h₁.wf.mem_uses.mp hU)
  obtain ⟨pre, hpre, hclones⟩ : ∃ pre, s₁.uses (.original F.id) =
      pre ++ (M.heap.uses F.id).map useOriginal ∧ ∀ U ∈ pre, ∃ i, U.user = .clone i := by
    obtain ⟨pre, hpre, hclones⟩ := h.uses F.id hF
    exact cloneBody_uses horder hpre hclones
  refine ⟨(s₁.uses (.original F.id)).length, redirectFirst M F.id (s₁.uses (.original F.id)) s₁,
    fun fuel hfuel => ?_, redirectFirst_inv h₁ (.head _), fun G hG => ?_, ?_⟩
  · unfold cloneFunction
    have hassert : assert ndebug .noCloningLoop (F.hasSuffix = false) = .ok () := by
      unfold assert
      rw [if_pos hname]
      rfl
    rw [hassert]
    exact redirectUses_eq h₁.wf hfresh (List.nil_append _).symm hfuel
  · rw [callsClone_redirectFirst_of_ne h₁ hG, callsClone_cloneBody h hF]
  · rw [callsClone_redirectFirst h₁ hclone, ← oneCall_iff h₁ hclone hpre hclones hcall]
    cases hfind : (s₁.uses (.original F.id)).find? fun U => M.isFirstOperand (useBase U) with
    | some C => simp
    | none =>
      obtain ⟨U, hU, hcalled⟩ := hcall
      have hmem : useOriginal U ∈ s₁.uses (.original F.id) :=
        hpre ▸ List.mem_append_right _ (List.mem_map_of_mem hU)
      refine iff_of_false (fun hnone => hnone _ hmem hcalled) ?_
      rintro ⟨C, hC, -⟩
      cases hC

omit [DecidableEq φ] [DecidableEq ι] in
theorem OneCall.congr {cloned cloned' : List φ} (h : ∀ G, G ∈ cloned ↔ G ∈ cloned') {C : Use ι} :
    OneCall M cloned F C ↔ OneCall M cloned' F C :=
  ⟨fun ⟨h₁, h₂, h₃⟩ => ⟨h₁, h₂, fun U hU hfirst G hG => h₃ U hU hfirst G ((h G).mpr hG)⟩,
    fun ⟨h₁, h₂, h₃⟩ => ⟨h₁, h₂, fun U hU hfirst G hG => h₃ U hU hfirst G ((h G).mp hG)⟩⟩

/-- A run over a list of functions. -/
theorem foldlM_cloneFunction {ndebug : Bool} (horder : ∀ F g l, (order F g l).Perm l)
    {Fs : List (Function φ)} (hnodup : (Fs.map (·.id)).Nodup)
    (hdone : ∀ F ∈ Fs, F.id ∉ done) (hnames : ∀ F ∈ Fs, ndebug = true ∨ F.hasSuffix = false)
    (hcalls : ∀ F ∈ Fs, ∃ U ∈ M.heap.uses F.id, M.IsCalledUse U) (h : Inv M done s) :
    ∃ N s', (∀ fuel ≥ N, Fs.foldlM (cloneFunction ndebug M order fuel) s = .ok s') ∧
      (∃ done', Inv M done' s') ∧
      (∀ G, G ∉ Fs.map (·.id) → (CallsClone M s' G ↔ CallsClone M s G)) ∧
      ∀ F ∈ Fs, CallsClone M s' F.id ↔
        ∃ C, OneCall M (upTo (Fs.map (·.id)) F.id ++ done) F.id C := by
  induction Fs generalizing done s with
  | nil => exact ⟨0, s, fun _ _ => rfl, ⟨done, h⟩, fun _ _ => Iff.rfl, by simp⟩
  | cons F Fs ih =>
    obtain ⟨hF, hdone⟩ := List.forall_mem_cons.mp hdone
    obtain ⟨hname, hnames⟩ := List.forall_mem_cons.mp hnames
    obtain ⟨hcall, hcalls⟩ := List.forall_mem_cons.mp hcalls
    rw [List.map_cons, List.nodup_cons] at hnodup
    obtain ⟨hnew, hnodup⟩ := hnodup
    obtain ⟨N₁, s₁, hret₁, h₁, hothers, hown⟩ :=
      cloneFunction_spec horder h hF hname hcall
    have hne : ∀ G ∈ Fs, G.id ≠ F.id := fun G hG heq =>
      hnew (heq ▸ List.mem_map_of_mem hG)
    have hdone' : ∀ G ∈ Fs, G.id ∉ F.id :: done := fun G hG hmem =>
      (List.mem_cons.mp hmem).elim (hne G hG) (hdone G hG)
    obtain ⟨N₂, s₂, hret₂, hinv, hkept, hrest⟩ := ih hnodup hdone' hnames hcalls h₁
    refine ⟨max N₁ N₂, s₂, fun fuel hfuel => ?_, hinv, fun G hG => ?_, ?_⟩
    · rw [List.foldlM_cons, hret₁ fuel (Nat.max_le.mp hfuel).1]
      exact hret₂ fuel (Nat.max_le.mp hfuel).2
    · rw [List.map_cons, List.mem_cons, not_or] at hG
      rw [hkept G hG.2, hothers G hG.1]
    · rw [List.forall_mem_cons]
      constructor
      · rw [hkept F.id hnew, hown]
        simp [upTo]
      · intro G hG
        rw [hrest G hG]
        refine exists_congr fun C => OneCall.congr fun K => ?_
        have hskip : upTo ((F :: Fs).map (·.id)) G.id = F.id :: upTo (Fs.map (·.id)) G.id := by
          unfold upTo
          rw [List.map_cons, List.takeWhile_cons_of_pos (by simpa using (hne G hG).symm)]
          rfl
        rw [hskip]
        simp only [List.mem_append, List.mem_cons, or_left_comm]
        tauto

end Worklist

/-! ## The Result -/

section Result

variable [DecidableEq φ] [DecidableEq ι] {M : Module φ ι}

omit [DecidableEq ι] in
/-- A function that should be duplicated has a direct call. -/
theorem exists_call {F : Function φ} (h : shouldDuplicate M F = true) :
    ∃ U ∈ M.heap.uses F.id, M.IsCalledUse U := by
  unfold shouldDuplicate at h
  split_ifs at h
  obtain ⟨U, hU, hcall⟩ := List.any_eq_true.mp h
  obtain ⟨hisCall, hvalue⟩ : M.isCall U.user = true ∧
      M.heap.value U = calledOperand M.heap U.user := by simpa using hcall
  rw [M.wf.mem_uses.mp hU, calledOperand_eq] at hvalue
  exact ⟨_, M.wf.mem_uses.mpr hvalue.symm, called_of_last hisCall rfl hvalue.symm⟩

/-- The pass ends, and it has redirected exactly the direct calls of a function on the worklist
just when the function has the one call that the loop can redirect. -/
theorem runOnModule_redirected_iff (M : Module φ ι) (order : CloneOrder φ ι)
    (horder : ∀ F g l, (order F g l).Perm l) (ndebug : Bool)
    (hnames : ∀ F ∈ M.worklist, ndebug = true ∨ F.hasSuffix = false) :
    ∃ N s, (∀ fuel ≥ N, runOnModule ndebug order fuel M = .ok (s, !M.worklist.isEmpty)) ∧
      ∀ F ∈ M.worklist, Redirected M s F.id ↔ Redirectable M F.id := by
  have hnodup : (M.worklist.map (·.id)).Nodup :=
    M.ids_nodup.sublist (List.filter_sublist.map _)
  obtain ⟨N, s, hret, ⟨done, hinv⟩, -, hcalls⟩ := foldlM_cloneFunction horder hnodup
    (fun _ _ => List.not_mem_nil) hnames (fun F hF => exists_call (List.mem_filter.mp hF).2)
    (init_inv (M := M))
  refine ⟨N, s, fun fuel hfuel => ?_, fun F hF => ?_⟩
  · unfold runOnModule
    rw [hret fuel hfuel]
    rfl
  · rw [redirected_iff hinv, hcalls F hF, List.append_nil]
    exact Iff.rfl

end Result

theorem join_lastOperand (n m : Nat) :
    (List.replicate n (none : Option Nat) ++ [some 0])[m]?.join = if m = n then some 0 else none := by
  rcases Nat.lt_trichotomy m n with hm | rfl | hm
  · rw [List.getElem?_append_left (by simpa using hm), List.getElem?_replicate_of_lt hm,
      if_neg (Nat.ne_of_lt hm)]
    rfl
  · simp
  · rw [List.getElem?_eq_none (by simpa using Nat.succ_le_of_lt hm), if_neg (Nat.ne_of_gt hm)]
    rfl

/-- Function 1 calls function 0, which is visible elsewhere, with `n` arguments. -/
def callWithArguments (n : Nat) : Module Nat Nat where
  functions := [0, 1].map (⟨·, false, .externalLinkage, false, false⟩)
  ids_nodup := by decide
  isCall i := i = 0
  parent i := if i = 0 then some 1 else none
  heap := {
    operands := fun i => if i = 0 then List.replicate n none ++ [some 0] else []
    uses := fun f => if f = 0 then [⟨0, n⟩] else [] }
  wf := {
    mem_uses := by
      rintro f ⟨i, m⟩
      unfold Heap.value
      by_cases hi : i = 0
      · subst hi
        simp only [if_true, join_lastOperand]
        have hsymm : 0 = f ↔ f = 0 := eq_comm
        by_cases hf : f = 0 <;> by_cases hm : m = n <;> simp [hf, hm, hsymm]
      · by_cases hf : f = 0 <;> simp [hi, hf]
    nodup := fun f => by
      dsimp only
      split_ifs <;> simp }

/-- The call has no arguments, and nothing else. -/
theorem runOnModule_redirected_iff_noArguments : ∃ N s, (∀ fuel ≥ N,
    runOnModule false (fun _ _ l => l) fuel (callWithArguments 0) = .ok (s, true)) ∧
      Redirected (callWithArguments 0) s 0 := by
  obtain ⟨N, s, hret, hiff⟩ := runOnModule_redirected_iff (callWithArguments 0) (fun _ _ l => l)
    (fun _ _ l => .refl l) false (by decide)
  have hmem : ⟨0, false, .externalLinkage, false, false⟩ ∈ (callWithArguments 0).worklist := by
    decide
  refine ⟨N, s, hret, (hiff _ hmem).mpr ⟨⟨0, 0⟩, rfl, fun U hU => ?_, fun U hU _ G hG => ?_⟩⟩
  · obtain rfl : U = ⟨0, 0⟩ := List.mem_singleton.mp hU
    exact iff_of_true ⟨rfl, rfl⟩ rfl
  · obtain rfl : U = ⟨0, 0⟩ := List.mem_singleton.mp hU
    have hG0 : G = 0 := List.mem_singleton.mp hG
    rintro heq
    cases heq
    cases hG0

/-- The call has an argument, which is its operand 0. -/
theorem runOnModule_misses : ∃ s, runOnModule false (fun _ _ l => l) 5 (callWithArguments 1) =
    .ok (s, true) ∧ ¬ Redirected (callWithArguments 1) s 0 :=
  ⟨_, rfl, fun h => h.noCalls (.original 0) rfl rfl⟩

end Clou.Duplicate
