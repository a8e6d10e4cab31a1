-- SUMMARY: The recursion check: when it accepts a function, no chain of calls leads back to it.
import Mathlib.Logic.Relation
import Serberus.CallGraph.Module
import Serberus.Lib.OrdSet

/-!
# Recursion

`doesNotRecurse` goes through the call graph depth first, with one set of seen functions
for the whole search. It gives up at the second visit of a function, at a declaration and
at a call that names no function, and does not look into functions with the attribute
`norecurse`.
-/

open Relation

namespace Clou.CallGraph

section Definitions

variable {φ ι : Type}

def getCalledFunctionRec : Value φ ι → Exec (Option φ)
  | .function f => pure (some f)
  | .bitCast V => getCalledFunctionRec V
  | .inst _ => pure none
  | .argument _ => pure none
  | .inlineAsm => pure none
  | .globalVariable _ => throw .exit
  | .constant _ => throw .exit

def getCalledFunction (calledOperand : Value φ ι) : Exec (Option φ) :=
  getCalledFunctionRec calledOperand

/-- `llvm::all_of`: stops at the first element that fails. -/
def allOf {α σ : Type} (p : α → σ → Exec (Bool × σ)) : List α → σ → Exec (Bool × σ)
  | [], s => pure (true, s)
  | a :: l, s => do
    let (b, s) ← p a s
    if b then allOf p l s else pure (false, s)

variable [LinearOrder φ]

/-- What is asked of an instruction; `rec` is the recursive call. -/
def checkInstruction (M : Module φ ι) (rec : Function φ ι → OrdSet φ → Exec (Bool × OrdSet φ))
    (I : Instruction φ ι) (seen : OrdSet φ) : Exec (Bool × OrdSet φ) :=
  match I with
  | .call _ kind _ calledOperand =>
    if M.isIntrinsicInst kind calledOperand then pure (true, seen)
    else do
      match ← getCalledFunction calledOperand with
      | none => pure (false, seen)
      | some f =>
        match M.function? f with
        | some CalledF => rec CalledF seen
        | none => throw .outOfRange
  | _ => pure (true, seen)

def doesNotRecurseRec (M : Module φ ι) :
    Nat → Function φ ι → OrdSet φ → Exec (Bool × OrdSet φ)
  | 0, _, _ => throw .outOfFuel
  | fuel + 1, F, seen =>
    if F.name ∈ seen then pure (false, seen)
    else
      let seen := seen.insert F.name
      if F.norecurse then pure (true, seen)
      else if F.isDeclaration then pure (false, seen)
      else allOf (checkInstruction M (doesNotRecurseRec M fuel)) F.instructions seen

def doesNotRecurse (fuel : Nat) (M : Module φ ι) (F : Function φ ι) : Exec Bool := do
  let (b, _) ← doesNotRecurseRec M fuel F ∅
  pure b

end Definitions

/-! ## What an Accepting Search Has Seen -/

theorem getCalledFunction_ok {φ ι : Type} {V : Value φ ι} {f : Option φ}
    (h : getCalledFunction V = .ok f) : V.target = f := by
  unfold getCalledFunction at h
  induction V with
  | bitCast V ih => exact ih h
  | globalVariable n => cases h
  | constant n => cases h
  | _ => cases h; rfl

/-- When all elements pass, each was reached from the start and leads to the end. -/
theorem allOf_true {α σ : Type} {p : α → σ → Exec (Bool × σ)} {R : σ → σ → Prop} {l : List α}
    {s s' : σ} (hrefl : ∀ s, R s s) (htrans : ∀ {s₁ s₂ s₃}, R s₁ s₂ → R s₂ s₃ → R s₁ s₃)
    (hstep : ∀ a s s', p a s = .ok (true, s') → R s s') (h : allOf p l s = .ok (true, s')) :
    R s s' ∧ ∀ a ∈ l, ∃ s₁ s₂, R s s₁ ∧ p a s₁ = .ok (true, s₂) ∧ R s₂ s' := by
  induction l generalizing s with
  | nil =>
    cases h
    exact ⟨hrefl _, by simp⟩
  | cons a l ih =>
    unfold allOf at h
    obtain ⟨⟨b, s₁⟩, hp, h⟩ := Exec.bind_eq_ok.mp h
    cases b with
    | false => cases h
    | true =>
      obtain ⟨hrest, hall⟩ := ih h
      have hfirst := hstep a s s₁ hp
      refine ⟨htrans hfirst hrest, List.forall_mem_cons.mpr ⟨⟨s, s₁, hrefl s, hp, hrest⟩, ?_⟩⟩
      intro a' ha'
      obtain ⟨s₂, s₃, hs₂, hp', hs₃⟩ := hall a' ha'
      exact ⟨s₂, s₃, htrans hfirst hs₂, hp', hs₃⟩

section Search

variable {φ ι : Type} [LinearOrder φ] {M : Module φ ι} {F : Function φ ι}
  {seen seen' seen'' : OrdSet φ}

/-- The target of a call is an intrinsic, or a function seen after `seen`. -/
def NewTarget (M : Module φ ι) (seen seen' : OrdSet φ) (g : Option φ) : Prop :=
  ∃ f, g = some f ∧ (M.Intrinsic f ∨ f ∈ seen' ∧ f ∉ seen)

/-- A function that the search has looked into and found no fault with. -/
def Passed (M : Module φ ι) (seen seen' : OrdSet φ) (F : Function φ ι) : Prop :=
  F.norecurse = false →
    F.isDeclaration = false ∧ ∀ site ∈ F.callSites, NewTarget M seen seen' site.2

/-- A search that accepted went from `seen` to `seen'`. -/
structure Accepted (M : Module φ ι) (seen seen' : OrdSet φ) : Prop where
  subset : ∀ f ∈ seen, f ∈ seen'
  passed : ∀ F ∈ M.functions, F.name ∈ seen' → F.name ∉ seen → Passed M seen seen' F

theorem NewTarget.mono {g : Option φ} (h : NewTarget M seen' seen'' g) {seen₀ seen₁ : OrdSet φ}
    (hbefore : ∀ f ∈ seen₀, f ∈ seen') (hafter : ∀ f ∈ seen'', f ∈ seen₁) :
    NewTarget M seen₀ seen₁ g := by
  obtain ⟨f, hf, htarget⟩ := h
  exact ⟨f, hf, htarget.imp_right fun h => ⟨hafter f h.1, fun hmem => h.2 (hbefore f hmem)⟩⟩

theorem Passed.mono (h : Passed M seen' seen'' F) {seen₀ seen₁ : OrdSet φ}
    (hbefore : ∀ f ∈ seen₀, f ∈ seen') (hafter : ∀ f ∈ seen'', f ∈ seen₁) :
    Passed M seen₀ seen₁ F := fun hopen =>
  ⟨(h hopen).1, fun site hsite => ((h hopen).2 site hsite).mono hbefore hafter⟩

theorem Accepted.refl (M : Module φ ι) (seen : OrdSet φ) : Accepted M seen seen :=
  ⟨fun _ h => h, fun _ _ h hnot => absurd h hnot⟩

theorem Accepted.trans (h : Accepted M seen seen') (h' : Accepted M seen' seen'') :
    Accepted M seen seen'' where
  subset f hf := h'.subset f (h.subset f hf)
  passed F hF hmem hnot := by
    by_cases hmem' : F.name ∈ seen'
    · exact (h.passed F hF hmem' hnot).mono (fun _ h => h) h'.subset
    · exact (h'.passed F hF hmem hmem').mono h.subset fun _ h => h

/-- What a search from `F` leaves: it has accepted `F`, and what it went on to. -/
structure AcceptedFrom (M : Module φ ι) (F : Function φ ι) (seen seen' : OrdSet φ) : Prop where
  new : F.name ∉ seen
  rest : Accepted M (seen.insert F.name) seen'
  passed : Passed M (seen.insert F.name) seen' F

theorem AcceptedFrom.mem (h : AcceptedFrom M F seen seen') : F.name ∈ seen' :=
  h.rest.subset _ (OrdSet.mem_insert.mpr (.inl rfl))

theorem AcceptedFrom.accepted (hF : F ∈ M.functions) (h : AcceptedFrom M F seen seen') :
    Accepted M seen seen' := by
  have hsub : ∀ f ∈ seen, f ∈ seen.insert F.name := fun f hf => OrdSet.mem_insert.mpr (.inr hf)
  refine ⟨fun f hf => h.rest.subset f (hsub f hf), fun G hG hmem hnot => ?_⟩
  by_cases hname : G.name = F.name
  · rw [Module.eq_of_name hG hF hname]
    exact h.passed.mono hsub fun _ h => h
  · refine (h.rest.passed G hG hmem fun hmem => ?_).mono hsub fun _ h => h
    exact (OrdSet.mem_insert.mp hmem).elim hname hnot

/-- An instruction passes only if it is no call, or its target is new. -/
theorem checkInstruction_true {rec : Function φ ι → OrdSet φ → Exec (Bool × OrdSet φ)}
    {I : Instruction φ ι}
    (hrec : ∀ G ∈ M.functions, ∀ s s', rec G s = .ok (true, s') → AcceptedFrom M G s s')
    (h : checkInstruction M rec I seen = .ok (true, seen')) :
    Accepted M seen seen' ∧ ∀ site, I.callSite = some site → NewTarget M seen seen' site.2 := by
  unfold checkInstruction at h
  cases I with
  | alloca | other =>
    cases h
    exact ⟨.refl M _, fun site hsite => by cases hsite⟩
  | call i kind args V =>
    simp only [Instruction.callSite, Option.some.injEq, forall_eq'] at h ⊢
    split_ifs at h with hintrinsic
    · cases h
      obtain ⟨f, hf, hintr⟩ := Module.isIntrinsicInst_eq_true hintrinsic
      exact ⟨.refl M _, f, hf, .inl hintr⟩
    · obtain ⟨g, hg, h⟩ := Exec.bind_eq_ok.mp h
      cases g with
      | none => cases h
      | some f =>
        cases hfind : M.function? f with
        | none =>
          simp only [hfind] at h
          cases h
        | some G =>
          simp only [hfind] at h
          obtain ⟨hG, rfl⟩ := Module.function?_eq_some hfind
          have hG' := hrec G hG _ _ h
          exact ⟨hG'.accepted hG, G.name, getCalledFunction_ok hg, .inr ⟨hG'.mem, hG'.new⟩⟩

theorem doesNotRecurseRec_true {fuel : Nat} (hF : F ∈ M.functions)
    (h : doesNotRecurseRec M fuel F seen = .ok (true, seen')) : AcceptedFrom M F seen seen' := by
  induction fuel generalizing F seen seen' with
  | zero => cases h
  | succ fuel ih =>
    unfold doesNotRecurseRec at h
    split_ifs at h with hseen hattr hdecl
    · cases h
    · cases h
      exact ⟨hseen, .refl M _, fun hopen => absurd hattr (by simp [hopen])⟩
    · cases h
    · have hcheck {I : Instruction φ ι} {s s' : OrdSet φ}
          (h : checkInstruction M (doesNotRecurseRec M fuel) I s = .ok (true, s')) :=
        checkInstruction_true (fun G hG s s' => ih hG) h
      obtain ⟨haccepted, hall⟩ := allOf_true (Accepted.refl M) (fun h h' => h.trans h')
        (fun I s s' h => (hcheck h).1) h
      refine ⟨hseen, haccepted, fun _ => ⟨by simpa using hdecl, fun site hsite => ?_⟩⟩
      obtain ⟨I, hI, hcall⟩ := List.mem_filterMap.mp hsite
      obtain ⟨s₁, s₂, hbefore, hI, hafter⟩ := hall I hI
      exact ((hcheck hI).2 site hcall).mono hbefore.subset hafter.subset

end Search

/-! ## Soundness -/

section Soundness

variable {φ ι : Type} [LinearOrder φ] {M : Module φ ι} {env : Env φ ι} {F : Function φ ι}

/-- What a function that has passed calls is an intrinsic or new. -/
theorem Passed.calls {seen seen' : OrdSet φ} {f : φ} (h : Passed M seen seen' F)
    (hF : F ∈ M.functions) (hopen : F.norecurse = false) (hf : M.Calls env F.name f) :
    M.Intrinsic f ∨ f ∈ seen' ∧ f ∉ seen := by
  obtain ⟨hdecl, hsites⟩ := h hopen
  generalize hname : F.name = g at hf
  cases hf with
  | direct hG hsite =>
    obtain rfl := Module.eq_of_name hF hG hname
    obtain ⟨f', hf', htarget⟩ := hsites _ hsite
    cases hf'
    exact htarget
  | indirect hG hsite _ =>
    obtain rfl := Module.eq_of_name hF hG hname
    obtain ⟨f', hf', -⟩ := hsites _ hsite
    cases hf'
  | external hG hdecl' _ =>
    obtain rfl := Module.eq_of_name hF hG hname
    simp [hdecl] at hdecl'

omit [LinearOrder φ] in
theorem Module.Calls.exists_function {f g : φ} (h : M.Calls env f g) :
    ∃ F ∈ M.functions, F.name = f := by
  cases h with
  | direct hF _ => exact ⟨_, hF, rfl⟩
  | indirect hF _ _ => exact ⟨_, hF, rfl⟩
  | external hF _ _ => exact ⟨_, hF, rfl⟩

/-- Where calls lead from a function that the search has accepted: to a function seen after
it, to an intrinsic, or on through a function with the attribute. -/
theorem AcceptedFrom.calls {seen : OrdSet φ} {f : φ} (h : AcceptedFrom M F ∅ seen)
    (hF : F ∈ M.functions) (hintrinsic : ∀ f, M.Intrinsic f → ∀ g, ¬ M.Calls env f g)
    (hf : TransGen (M.Calls env) F.name f) : M.Intrinsic f ∨ f ∈ seen ∧ f ∉ OrdSet.insert F.name ∅ ∨
      ∃ G ∈ M.functions, G.norecurse = true ∧ ReflTransGen (M.Calls env) F.name G.name ∧
        TransGen (M.Calls env) G.name f := by
  have hstep {G : Function φ ι} {f : φ} (hG : G ∈ M.functions)
      (hpassed : Passed M (OrdSet.insert F.name ∅) seen G)
      (hreach : ReflTransGen (M.Calls env) F.name G.name) (hf : M.Calls env G.name f) :
      M.Intrinsic f ∨ f ∈ seen ∧ f ∉ OrdSet.insert F.name ∅ ∨
        ∃ G ∈ M.functions, G.norecurse = true ∧ ReflTransGen (M.Calls env) F.name G.name ∧
          TransGen (M.Calls env) G.name f := by
    cases hattr : G.norecurse with
    | true => exact .inr (.inr ⟨G, hG, hattr, hreach, .single hf⟩)
    | false => exact (hpassed.calls hG hattr hf).imp_right .inl
  induction hf with
  | single hf => exact hstep hF h.passed .refl hf
  | @tail g f hg hf ih =>
    rcases ih with hintr | ⟨hmem, hnot⟩ | ⟨G, hG, hattr, hreach, hg'⟩
    · exact absurd hf (hintrinsic g hintr f)
    · obtain ⟨G, hG, rfl⟩ := hf.exists_function
      exact hstep hG (h.rest.passed G hG hmem hnot) hg.to_reflTransGen hf
    · exact .inr (.inr ⟨G, hG, hattr, hreach, hg'.tail hf⟩)

/-- No chain of calls leads from an accepted function back to it. -/
theorem not_transGen_of_doesNotRecurse {fuel : Nat} (hF : F ∈ M.functions)
    (hnorecurse : ∀ G ∈ M.functions, G.norecurse = true → ¬ TransGen (M.Calls env) G.name G.name)
    (hintrinsic : ∀ f, M.Intrinsic f → ∀ g, ¬ M.Calls env f g)
    (h : doesNotRecurse fuel M F = .ok true) : ¬ TransGen (M.Calls env) F.name F.name := by
  intro hcycle
  unfold doesNotRecurse at h
  obtain ⟨⟨b, seen⟩, hrec, h⟩ := Exec.bind_eq_ok.mp h
  cases h
  have haccepted := doesNotRecurseRec_true hF hrec
  rcases haccepted.calls hF hintrinsic hcycle with hintr | ⟨-, hnot⟩ | ⟨G, hG, hattr, hreach, hback⟩
  · obtain ⟨g, hg, -⟩ := TransGen.head'_iff.mp hcycle
    exact hintrinsic F.name hintr g hg
  · exact hnot (OrdSet.mem_insert.mpr (.inl rfl))
  · -- A function with the attribute would lie on the cycle.
    exact hnorecurse G hG hattr (hback.trans_left hreach)

end Soundness

end Clou.CallGraph
