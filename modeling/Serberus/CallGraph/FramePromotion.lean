-- SUMMARY: Frame promotion: only functions that are never active twice have their stack slots turned into globals.
import Serberus.CallGraph.DoesNotRecurse

/-!
# Frame Promotion

The static stack slots of a function that passes the recursion check become global
variables. Neither the functions nor their calls change, so what the check says about the
module at hand it says about the module at the start and at the end as well.
-/

open Relation

namespace Clou.CallGraph

section Definitions

variable {φ ι : Type} [DecidableEq ι]

/-- `AI->replaceAllUsesWith(GV)`, on a value. -/
def Value.replace (i : ι) (GV : Nat) : Value φ ι → Value φ ι
  | .inst j => if j = i then .globalVariable GV else .inst j
  | .bitCast V => .bitCast (V.replace i GV)
  | V => V

/-- `AI->replaceAllUsesWith(GV)`, on an instruction. -/
def Instruction.replace (i : ι) (GV : Nat) : Instruction φ ι → Instruction φ ι
  | .call j kind args calledOperand =>
    .call j kind (args.map (·.replace i GV)) (calledOperand.replace i GV)
  | .alloca j AI => .alloca j AI
  | .other j operands => .other j (operands.map (·.replace i GV))

def Instruction.isAllocaOf (i : ι) : Instruction φ ι → Bool
  | .alloca j _ => j = i
  | _ => false

/-- Replaces the uses of a stack slot, and erases it. -/
def Function.promote (i : ι) (GV : Nat) (F : Function φ ι) : Function φ ι :=
  { F with body := F.body.map fun is =>
      (is.filter fun I => !I.isAllocaOf i).map (Instruction.replace i GV) }

/-- The global variable that takes the place of a stack slot. -/
def newGlobal (AI : AllocaInst) : GlobalVariable where
  valueType := AI.allocatedType
  isConstant := false
  linkage := .internal
  nullInitializer := true
  align := AI.align
  dsoLocal := true

def Function.staticAllocas (F : Function φ ι) : List (ι × AllocaInst) :=
  F.instructions.filterMap fun
    | .alloca i AI => if AI.isStatic then some (i, AI) else none
    | _ => none

variable [LinearOrder φ]

omit [DecidableEq ι] [LinearOrder φ] in
theorem names_map {fs : List (Function φ ι)} {g : Function φ ι → Function φ ι}
    (hg : ∀ F, (g F).name = F.name) : (fs.map g).map (·.name) = fs.map (·.name) := by
  rw [List.map_map]
  exact List.map_congr_left fun F _ => hg F

def Module.promote (M : Module φ ι) (f : φ) (i : ι) (AI : AllocaInst) : Module φ ι where
  functions := M.functions.map fun F => if F.name = f then F.promote i M.globals.length else F
  globals := M.globals ++ [newGlobal AI]
  names_nodup := by
    rw [names_map fun F => by split_ifs <;> rfl]
    exact M.names_nodup

def promoteAll (M : Module φ ι) (f : φ) (worklist : List (ι × AllocaInst)) : Bool × Module φ ι :=
  worklist.foldl (fun (changed, M) (i, AI) =>
    if AI.isStatic then (true, M.promote f i AI) else (changed, M)) (false, M)

def runOnFunction (fuel : Nat) (M : Module φ ι) (F : Function φ ι) : Exec (Bool × Module φ ι) := do
  if ← doesNotRecurse fuel M F then pure (promoteAll M F.name F.staticAllocas)
  else pure (false, M)

/-- The body of the loop over the functions of the module. -/
def visitFunction (fuel : Nat) (s : Bool × Module φ ι) (f : φ) : Exec (Bool × Module φ ι) :=
  match s.2.function? f with
  | none => throw .outOfRange
  | some F =>
    if F.isDeclaration then pure s
    else do
      let (changed, M) ← runOnFunction fuel s.2 F
      pure (s.1 || changed, M)

def runOnModule (fuel : Nat) (M : Module φ ι) : Exec (Bool × Module φ ι) :=
  (M.functions.map (·.name)).foldlM (visitFunction fuel) (false, M)

end Definitions

/-! ## What Promotion Keeps -/

section Alike

variable {φ ι : Type} [DecidableEq ι]

theorem Value.target_replace (i : ι) (GV : Nat) (V : Value φ ι) :
    (V.replace i GV).target = V.target := by
  induction V with
  | inst j =>
    unfold replace
    split_ifs <;> rfl
  | bitCast V ih => exact ih
  | _ => rfl

theorem Instruction.callSite_replace (i : ι) (GV : Nat) (I : Instruction φ ι) :
    (I.replace i GV).callSite = I.callSite := by
  cases I with
  | call j kind args V => exact congrArg (fun t => some (j, t)) (V.target_replace i GV)
  | _ => rfl

/-- Erasing a stack slot erases no call. -/
theorem Instruction.callSite_of_keep (i : ι) (GV : Nat) (I : Instruction φ ι) :
    (if !I.isAllocaOf i then (I.replace i GV).callSite else none) = I.callSite := by
  rw [callSite_replace]
  cases I with
  | alloca j AI => exact ite_self none
  | _ => rfl

theorem Function.alike_promote (i : ι) (GV : Nat) (F : Function φ ι) : F.Alike (F.promote i GV) := by
  refine ⟨rfl, rfl, rfl, Option.isNone_map .., ?_⟩
  unfold callSites instructions promote
  cases F.body with
  | none => rfl
  | some is =>
    simp only [Option.map_some, Option.getD_some, List.filterMap_map, List.filterMap_filter,
      Function.comp_apply]
    exact List.filterMap_congr fun I _ => I.callSite_of_keep i GV

variable [LinearOrder φ]

theorem Module.alike_promote (M : Module φ ι) (f : φ) (i : ι) (AI : AllocaInst) :
    M.Alike (M.promote f i AI) := by
  have hlike (F : Function φ ι) :
      F.Alike (if F.name = f then F.promote i M.globals.length else F) := by
    split_ifs
    · exact F.alike_promote i _
    · exact .refl F
  refine ⟨fun F hF => ⟨_, List.mem_map.mpr ⟨F, hF, rfl⟩, hlike F⟩, fun F' hF' => ?_⟩
  obtain ⟨F, hF, rfl⟩ := List.mem_map.mp hF'
  exact ⟨F, hF, hlike F⟩

/-- The stack slots of the other functions stay. -/
theorem Module.mem_functions_promote {M : Module φ ι} {f : φ} {i : ι} {AI : AllocaInst}
    {F : Function φ ι} (hF : F ∈ M.functions) (hname : F.name ≠ f) :
    F ∈ (M.promote f i AI).functions :=
  List.mem_map.mpr ⟨F, hF, if_neg hname⟩

/-- Promotion in one function: the module stays alike, and the other functions as they are. -/
structure Promoted (f : φ) (M M' : Module φ ι) : Prop where
  alike : M.Alike M'
  others : ∀ F ∈ M.functions, F.name ≠ f → F ∈ M'.functions

omit [DecidableEq ι] [LinearOrder φ] in
theorem Promoted.refl (f : φ) (M : Module φ ι) : Promoted f M M :=
  ⟨.refl M, fun _ hF _ => hF⟩

theorem promoteAll_promoted (M : Module φ ι) (f : φ) (worklist : List (ι × AllocaInst)) :
    Promoted f M (promoteAll M f worklist).2 := by
  unfold promoteAll
  generalize false = changed
  induction worklist generalizing M changed with
  | nil => exact .refl f M
  | cons slot worklist ih =>
    rw [List.foldl_cons]
    dsimp only
    split_ifs
    · have hrest := ih (M.promote f slot.1 slot.2) true
      exact ⟨(M.alike_promote ..).trans hrest.alike, fun F hF hname =>
        hrest.others F (Module.mem_functions_promote hF hname) hname⟩
    · exact ih M changed

end Alike

/-! ## Soundness -/

section Soundness

variable {φ ι : Type} [DecidableEq ι] [LinearOrder φ] {M M' : Module φ ι} {env : Env φ ι}

/-- What is assumed of the attribute `norecurse` and of intrinsics. -/
structure Assumptions (M : Module φ ι) (env : Env φ ι) : Prop where
  norecurse : ∀ F ∈ M.functions, F.norecurse = true → ¬ TransGen (M.Calls env) F.name F.name
  intrinsic : ∀ F ∈ M.functions, F.isIntrinsic = true → ∀ g, ¬ M.Calls env F.name g

omit [DecidableEq ι] [LinearOrder φ] in
theorem Assumptions.alike (h : Assumptions M env) (hlike : M.Alike M') : Assumptions M' env where
  norecurse F' hF' hattr := by
    obtain ⟨F, hF, hFF'⟩ := hlike.right F' hF'
    rw [hlike.calls, hFF'.name]
    exact h.norecurse F hF (hFF'.norecurse ▸ hattr)
  intrinsic F' hF' hattr g := by
    obtain ⟨F, hF, hFF'⟩ := hlike.right F' hF'
    rw [hlike.calls, hFF'.name]
    exact h.intrinsic F hF (hFF'.isIntrinsic ▸ hattr) g

omit [DecidableEq ι] in
theorem Assumptions.not_transGen {F : Function φ ι} {fuel : Nat} (h : Assumptions M env)
    (hF : F ∈ M.functions) (hret : doesNotRecurse fuel M F = .ok true) :
    ¬ TransGen (M.Calls env) F.name F.name := by
  refine not_transGen_of_doesNotRecurse hF h.norecurse ?_ hret
  rintro f ⟨G, hG, rfl, hattr⟩
  exact h.intrinsic G hG hattr

/-- The module so far: alike the one at the start, and only functions that cannot be
re-entered have lost stack slots. -/
structure SoFar (env : Env φ ι) (M M' : Module φ ι) : Prop where
  alike : M.Alike M'
  lost : ∀ F ∈ M.functions, F ∉ M'.functions → ¬ TransGen (M.Calls env) F.name F.name

theorem SoFar.runOnFunction {M₁ M₂ : Module φ ι} {F₁ : Function φ ι} {fuel : Nat} {changed : Bool}
    (h : SoFar env M M₁) (hassume : Assumptions M env) (hF₁ : F₁ ∈ M₁.functions)
    (hret : runOnFunction fuel M₁ F₁ = .ok (changed, M₂)) : SoFar env M M₂ := by
  unfold CallGraph.runOnFunction at hret
  obtain ⟨b, hcheck, hret⟩ := Exec.bind_eq_ok.mp hret
  cases b with
  | false =>
    cases hret
    exact h
  | true =>
    have hpromoted := promoteAll_promoted M₁ F₁.name F₁.staticAllocas
    have hM₂ : (promoteAll M₁ F₁.name F₁.staticAllocas).2 = M₂ :=
      congrArg Prod.snd (Except.ok.inj hret)
    rw [hM₂] at hpromoted
    refine ⟨h.alike.trans hpromoted.alike, fun F hF hlost => ?_⟩
    by_cases hbefore : F ∈ M₁.functions
    · have hname : F.name = F₁.name := by
        by_contra hne
        exact hlost (hpromoted.others F hbefore hne)
      rw [hname, ← h.alike.calls]
      exact (hassume.alike h.alike).not_transGen hF₁ hcheck
    · exact h.lost F hF hbefore

theorem runOnModule_soFar {fuel : Nat} {changed : Bool} (hassume : Assumptions M env)
    (hret : runOnModule fuel M = .ok (changed, M')) : SoFar env M M' := by
  unfold runOnModule at hret
  refine Exec.foldlM_inv (P := fun _ s => SoFar env M s.2) ?_
    ⟨.refl M, fun F hF hnot => absurd hF hnot⟩ hret
  rintro - f ⟨changed₁, M₁⟩ ⟨changed₂, M₂⟩ - h hstep
  unfold visitFunction at hstep
  cases hfind : M₁.function? f with
  | none =>
    simp only [hfind] at hstep
    cases hstep
  | some F₁ =>
    simp only [hfind] at hstep
    split_ifs at hstep with hdecl
    · cases hstep
      exact h
    · obtain ⟨⟨changed', M₂'⟩, hrun, hstep⟩ := Exec.bind_eq_ok.mp hstep
      cases hstep
      exact SoFar.runOnFunction h hassume (Module.function?_eq_some hfind).1 hrun

/-- No chain of calls from a function that the check accepts leads back to it. Frame
promotion changes no calls, and a function whose stack slots it has replaced is active at
most once on every call stack. -/
theorem framePromotion_sound (M : Module φ ι) (env : Env φ ι) (hassume : Assumptions M env) :
    (∀ F ∈ M.functions, ∀ fuel, doesNotRecurse fuel M F = .ok true →
      ¬ TransGen (M.Calls env) F.name F.name) ∧
    ∀ fuel changed M', runOnModule fuel M = .ok (changed, M') →
      M'.Calls env = M.Calls env ∧
      ∀ F ∈ M.functions, F ∉ M'.functions →
        ∀ stack, CallStack.Reachable (M'.Calls env) stack → stack.count F.name ≤ 1 := by
  refine ⟨fun F hF fuel hret => hassume.not_transGen hF hret, fun fuel changed M' hret => ?_⟩
  have hsoFar := runOnModule_soFar hassume hret
  refine ⟨hsoFar.alike.calls, fun F hF hlost stack hstack => ?_⟩
  rw [hsoFar.alike.calls] at hstack
  exact hstack.count_le_one (hsoFar.lost F hF hlost)

/-- A function with a stack slot that calls a declaration with the attribute `norecurse`. -/
def leafCaller : Module Nat Nat where
  functions := [⟨0, false, false, some [.alloca 0 ⟨0, 8, true⟩, .call 1 .call [.inst 0] (.function 1)]⟩,
    ⟨1, true, false, none⟩]
  globals := []
  names_nodup := by decide

/-- Nothing is called but what the module names. -/
def noEnv : Env Nat Nat := ⟨fun _ _ _ => False, fun _ _ => False⟩

theorem leafCaller_calls {f g : Nat} (h : leafCaller.Calls noEnv f g) : f = 0 := by
  cases h with
  | @direct F i _ hF hsite =>
    rcases List.mem_pair.mp hF with rfl | rfl
    · rfl
    · cases hsite
  | indirect _ _ hg => exact hg.elim
  | external _ _ hg => exact hg.elim

theorem leafCaller_assumptions : Assumptions leafCaller noEnv where
  norecurse F hF hattr hcycle := by
    obtain ⟨g, hg, -⟩ := TransGen.head'_iff.mp hcycle
    have hname := leafCaller_calls hg
    rcases List.mem_pair.mp hF with rfl | rfl
    · cases hattr
    · cases hname
  intrinsic F hF hattr := by
    rcases List.mem_pair.mp hF with rfl | rfl <;> cases hattr

theorem framePromotion_sound_leafCaller : ∃ F ∈ leafCaller.functions, ∃ M',
    doesNotRecurse 3 leafCaller F = .ok true ∧ ¬ TransGen (leafCaller.Calls noEnv) F.name F.name ∧
    runOnModule 3 leafCaller = .ok (true, M') ∧ F ∉ M'.functions ∧
    ∀ stack, CallStack.Reachable (M'.Calls noEnv) stack → stack.count F.name ≤ 1 := by
  obtain ⟨hcheck, hpromote⟩ := framePromotion_sound leafCaller noEnv leafCaller_assumptions
  have hF : leafCaller.functions[0] ∈ leafCaller.functions := by decide
  have hret : doesNotRecurse 3 leafCaller leafCaller.functions[0] = .ok true := by decide +kernel
  obtain ⟨M', hrun, hlost⟩ : ∃ M', runOnModule 3 leafCaller = .ok (true, M') ∧
      leafCaller.functions[0] ∉ M'.functions := ⟨_, rfl, by decide +kernel⟩
  exact ⟨_, hF, M', hret, hcheck _ hF 3 hret, hrun, hlost, (hpromote 3 true M' hrun).2 _ hF hlost⟩

end Soundness

end Clou.CallGraph
