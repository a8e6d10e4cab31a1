-- SUMMARY: The recursion check gives the same answers when instructions that it passes over are inserted.
import Serberus.CallGraph.DoesNotRecurse

/-!
# Instructions That the Recursion Check Passes Over

A pass that asks the recursion check while it changes the module gets the answers that it would
have got at the start, as long as it inserts only intrinsics and instructions that are no
calls.
-/

namespace Clou.CallGraph

section Definitions

variable {φ ι : Type} [DecidableEq φ]

/-- No call, or an intrinsic. -/
def Module.passesOver (M : Module φ ι) : Instruction φ ι → Bool
  | .call _ kind _ calledOperand => M.isIntrinsicInst kind calledOperand
  | _ => true

/-- The second list is the first one with instructions inserted that `M` passes over. -/
inductive Inserts (M : Module φ ι) : List (Instruction φ ι) → List (Instruction φ ι) → Prop
  | nil : Inserts M [] []
  | keep {I : Instruction φ ι} {l l' : List (Instruction φ ι)} (h : Inserts M l l') :
      Inserts M (I :: l) (I :: l')
  | insert {I : Instruction φ ι} {l l' : List (Instruction φ ι)} (hI : M.passesOver I = true)
      (h : Inserts M l l') : Inserts M l (I :: l')

/-- `F'` is `F` with instructions inserted that `M` passes over. -/
structure Padded (M : Module φ ι) (F F' : Function φ ι) : Prop where
  name : F'.name = F.name
  norecurse : F'.norecurse = F.norecurse
  isIntrinsic : F'.isIntrinsic = F.isIntrinsic
  isDeclaration : F'.isDeclaration = F.isDeclaration
  instructions : Inserts M F.instructions F'.instructions

end Definitions

section Padded

variable {φ ι : Type} [DecidableEq φ] {M M' N : Module φ ι} {F F' F'' : Function φ ι}

theorem Inserts.refl (l : List (Instruction φ ι)) : Inserts M l l := by
  induction l with
  | nil => exact .nil
  | cons I l ih => exact .keep ih

theorem Inserts.trans {l l' l'' : List (Instruction φ ι)} (h : Inserts M l l')
    (h' : Inserts M l' l'') : Inserts M l l'' := by
  induction h' generalizing l with
  | nil => exact h
  | @keep I l' l'' _ ih =>
    cases h with
    | keep h => exact .keep (ih h)
    | insert hI h => exact .insert hI (ih h)
  | insert hI _ ih => exact .insert hI (ih h)

theorem Inserts.append {l₁ l₁' l₂ l₂' : List (Instruction φ ι)} (h₁ : Inserts M l₁ l₁')
    (h₂ : Inserts M l₂ l₂') : Inserts M (l₁ ++ l₂) (l₁' ++ l₂') := by
  induction h₁ with
  | nil => exact h₂
  | keep _ ih => exact .keep ih
  | insert hI _ ih => exact .insert hI ih

theorem Inserts.of_passesOver {l : List (Instruction φ ι)} (h : ∀ I ∈ l, M.passesOver I = true) :
    Inserts M [] l := by
  induction l with
  | nil => exact .nil
  | cons I l ih =>
    obtain ⟨hI, hl⟩ := List.forall_mem_cons.mp h
    exact .insert hI (ih hl)

theorem Inserts.flatMap {γ : Type} {f f' : γ → List (Instruction φ ι)} {l : List γ}
    (h : ∀ b ∈ l, Inserts M (f b) (f' b)) : Inserts M (l.flatMap f) (l.flatMap f') := by
  induction l with
  | nil => exact .nil
  | cons b l ih =>
    obtain ⟨hb, hl⟩ := List.forall_mem_cons.mp h
    simp only [List.flatMap_cons]
    exact hb.append (ih hl)

theorem Padded.refl (F : Function φ ι) : Padded M F F := ⟨rfl, rfl, rfl, rfl, .refl _⟩

theorem Padded.trans (h : Padded M F F') (h' : Padded M F' F'') : Padded M F F'' :=
  ⟨h'.name.trans h.name, h'.norecurse.trans h.norecurse, h'.isIntrinsic.trans h.isIntrinsic,
    h'.isDeclaration.trans h.isDeclaration, h.instructions.trans h'.instructions⟩

/-- Functions are found in place of each other. -/
theorem function?_padded (h : List.Forall₂ (Padded N) M.functions M'.functions) (f : φ) :
    (M.function? f = none ∧ M'.function? f = none) ∨
      ∃ F F', M.function? f = some F ∧ M'.function? f = some F' ∧ Padded N F F' := by
  unfold Module.function?
  generalize M.functions = fs, M'.functions = fs' at h
  induction h with
  | nil => exact .inl ⟨rfl, rfl⟩
  | @cons F F' fs fs' hF _ ih =>
    simp only [List.find?_cons, hF.name]
    by_cases hname : F.name = f
    · exact .inr ⟨F, F', by simp [hname], by simp [hname], hF⟩
    · simpa [hname] using ih

theorem isIntrinsicInst_padded (h : List.Forall₂ (Padded N) M.functions M'.functions)
    (kind : CallKind) (V : Value φ ι) : M'.isIntrinsicInst kind V = M.isIntrinsicInst kind V := by
  unfold Module.isIntrinsicInst
  split
  · next f =>
    rcases function?_padded h f with ⟨hnone, hnone'⟩ | ⟨F, F', hF, hF', hpadded⟩
    · rw [hnone, hnone']
    · rw [hF, hF', Option.any_some, Option.any_some, hpadded.isIntrinsic]
  · rfl

end Padded

section Check

variable {φ ι : Type} [LinearOrder φ] {M M' : Module φ ι} {F F' : Function φ ι}

theorem passesOver_padded (h : List.Forall₂ (Padded M) M.functions M'.functions)
    (I : Instruction φ ι) : M'.passesOver I = M.passesOver I := by
  cases I with
  | call i kind args V => exact isIntrinsicInst_padded h kind V
  | _ => rfl

theorem checkInstruction_of_passesOver {I : Instruction φ ι} (hI : M.passesOver I = true)
    (rec : Function φ ι → OrdSet φ → Exec (Bool × OrdSet φ)) (seen : OrdSet φ) :
    checkInstruction M rec I seen = .ok (true, seen) := by
  cases I with
  | call i kind args V => exact if_pos hI
  | _ => rfl

theorem allOf_inserts {p p' : Instruction φ ι → OrdSet φ → Exec (Bool × OrdSet φ)}
    {l l' : List (Instruction φ ι)} (hp : ∀ I seen, p' I seen = p I seen)
    (hpass : ∀ I, M.passesOver I = true → ∀ seen, p' I seen = .ok (true, seen))
    (h : Inserts M l l') (seen : OrdSet φ) : allOf p' l' seen = allOf p l seen := by
  induction h generalizing seen with
  | nil => rfl
  | @keep I l l' _ ih =>
    unfold allOf
    rw [hp]
    refine congrArg (p I seen >>= ·) (funext fun r => ?_)
    obtain ⟨b, seen'⟩ := r
    cases b with
    | true => exact ih seen'
    | false => rfl
  | @insert I l l' hI _ ih =>
    conv_lhs => unfold allOf
    rw [hpass I hI]
    exact ih seen

/-- The recursion check gives the same answer. -/
theorem doesNotRecurseRec_padded (h : List.Forall₂ (Padded M) M.functions M'.functions)
    (fuel : Nat) (hF : Padded M F F') (seen : OrdSet φ) :
    doesNotRecurseRec M' fuel F' seen = doesNotRecurseRec M fuel F seen := by
  induction fuel generalizing F F' seen with
  | zero => rfl
  | succ fuel ih =>
    unfold doesNotRecurseRec
    simp only [hF.name, hF.norecurse, hF.isDeclaration]
    split_ifs
    · rfl
    · rfl
    · rfl
    · refine allOf_inserts (fun I seen => ?_) (fun I hI => ?_) hF.instructions _
      · unfold checkInstruction
        cases I with
        | call i kind args V =>
          simp only [isIntrinsicInst_padded h]
          split_ifs
          · rfl
          · refine congrArg (getCalledFunction V >>= ·) (funext fun target => ?_)
            cases target with
            | none => rfl
            | some f =>
              rcases function?_padded h f with ⟨hnone, hnone'⟩ | ⟨G, G', hG, hG', hpadded⟩
              · simp only [hnone, hnone']
              · simp only [hG, hG']
                exact ih hpadded seen
        | _ => rfl
      · exact checkInstruction_of_passesOver ((passesOver_padded h I).trans hI) _

theorem doesNotRecurse_padded (h : List.Forall₂ (Padded M) M.functions M'.functions) (fuel : Nat)
    (hF : Padded M F F') : doesNotRecurse fuel M' F' = doesNotRecurse fuel M F := by
  unfold doesNotRecurse
  rw [doesNotRecurseRec_padded h fuel hF]

end Check

end Clou.CallGraph
