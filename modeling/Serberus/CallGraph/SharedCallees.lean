-- SUMMARY: When the recursion check accepts a function that it can see through: no callee is shared.
import Serberus.CallGraph.DoesNotRecurse
import Serberus.Lib.Unfolding

/-!
# Shared Callees

A function that calls only functions with a body, all of them directly, and from which no
cycle of calls can be reached, does not recurse. The search keeps one set of seen functions
and takes nothing out of it again, so it takes the second call of a function for a
recursion. It accepts exactly if no function is the target of two of the calls it meets.
-/

open Relation

namespace Clou.CallGraph

section Definitions

variable {φ ι : Type} [DecidableEq φ]

/-- The function that a call names, if the call is no intrinsic. -/
def Instruction.callee? (M : Module φ ι) : Instruction φ ι → Option φ
  | .call _ kind _ calledOperand =>
    if M.isIntrinsicInst kind calledOperand then none else calledOperand.target
  | _ => none

/-- One function for each of the calls, in their order. -/
def Function.callees (M : Module φ ι) (F : Function φ ι) : List φ :=
  F.instructions.filterMap (·.callee? M)

/-- A function has a call of another. -/
def Module.CallsDirectly (M : Module φ ι) (f g : φ) : Prop :=
  ∃ F ∈ M.functions, F.name = f ∧ g ∈ F.callees M

/-- Every function that can be reached has a body and calls functions directly, and none
can be reached from itself. -/
structure Module.SeesThrough (M : Module φ ι) (F : Function φ ι) : Prop where
  defined : ∀ f, ReflTransGen M.CallsDirectly F.name f →
    ∃ G ∈ M.functions, G.name = f ∧ G.isDeclaration = false
  direct : ∀ G ∈ M.functions, ReflTransGen M.CallsDirectly F.name G.name →
    ∀ site ∈ G.callSites, site.2.isSome = true
  acyclic : ∀ f, ReflTransGen M.CallsDirectly F.name f → ¬ TransGen M.CallsDirectly f f

/-- The calls that the search follows: those of functions without the attribute. -/
def Module.searched (M : Module φ ι) (f : φ) : List φ :=
  match M.function? f with
  | some F => if F.norecurse then [] else F.callees M
  | none => []

theorem Module.function?_of_mem {M : Module φ ι} {F : Function φ ι} (hF : F ∈ M.functions) :
    M.function? F.name = some F := by
  cases hfind : M.function? F.name with
  | none => simpa using List.find?_eq_none.mp hfind F hF
  | some G =>
    obtain ⟨hG, hname⟩ := function?_eq_some hfind
    rw [Module.eq_of_name hG hF hname]

theorem Module.searched_of_mem {M : Module φ ι} {F : Function φ ι} (hF : F ∈ M.functions) :
    M.searched F.name = if F.norecurse then [] else F.callees M := by
  rw [searched, function?_of_mem hF]

/-- What the search follows is a call. -/
theorem Module.CallsDirectly.of_searched {M : Module φ ι} {f g : φ}
    (h : Unfolding.Step M.searched f g) : M.CallsDirectly f g := by
  unfold Unfolding.Step Module.searched at h
  cases hfind : M.function? f with
  | none => simp [hfind] at h
  | some F =>
    obtain ⟨hF, hname⟩ := Module.function?_eq_some hfind
    simp only [hfind] at h
    split_ifs at h with hattr
    · cases h
    · exact ⟨F, hF, hname, h⟩

theorem Module.reaches_of_searched {M : Module φ ι} {f g : φ}
    (h : ReflTransGen (Unfolding.Step M.searched) f g) : ReflTransGen M.CallsDirectly f g :=
  h.lift id fun _ _ => Module.CallsDirectly.of_searched

end Definitions

section Search

variable {φ ι : Type} [LinearOrder φ] {M : Module φ ι} {F : Function φ ι} {seen : OrdSet φ}

/-- A search came to an answer: whether it met the functions of the list once each and none
that had been seen. When it did it has added them. -/
def Meets (l : List φ) (seen : OrdSet φ) (r : Exec (Bool × OrdSet φ)) : Prop :=
  ∃ b seen', r = .ok (b, seen') ∧ (b = true ↔ l.Nodup ∧ ∀ f ∈ l, f ∉ seen) ∧
    (b = true → ∀ f, f ∈ seen' ↔ f ∈ seen ∨ f ∈ l)

theorem Meets.nil (seen : OrdSet φ) : Meets [] seen (pure (true, seen)) :=
  ⟨true, seen, rfl, by simp, by simp⟩

/-- The function where a search starts, and what it meets from there. -/
theorem Meets.cons {l : List φ} {f : φ} {r : Exec (Bool × OrdSet φ)} (hf : f ∉ seen)
    (h : Meets l (seen.insert f) r) : Meets (f :: l) seen r := by
  obtain ⟨b, seen', hret, htrue, hadds⟩ := h
  refine ⟨b, seen', hret, htrue.trans ?_, fun hb g => ?_⟩
  · rw [List.nodup_cons, List.forall_mem_cons]
    constructor
    · rintro ⟨hnodup, hnew⟩
      exact ⟨⟨fun hmem => hnew f hmem (OrdSet.mem_insert.mpr (.inl rfl)), hnodup⟩, hf,
        fun g hg hmem => hnew g hg (OrdSet.mem_insert.mpr (.inr hmem))⟩
    · rintro ⟨⟨hnot, hnodup⟩, -, hnew⟩
      refine ⟨hnodup, fun g hg hmem => ?_⟩
      rcases OrdSet.mem_insert.mp hmem with rfl | hmem
      · exact hnot hg
      · exact hnew g hg hmem
  · rw [hadds hb g, OrdSet.mem_insert, List.mem_cons, or_right_comm, or_comm, ← or_assoc]

/-- Elements that are gone through one after the other. -/
theorem Meets.allOf {α : Type} {p : α → OrdSet φ → Exec (Bool × OrdSet φ)} {visits : α → List φ}
    {l : List α} (hp : ∀ a ∈ l, ∀ s, Meets (visits a) s (p a s)) :
    Meets (l.flatMap visits) seen (allOf p l seen) := by
  induction l generalizing seen with
  | nil => exact Meets.nil seen
  | cons a l ih =>
    obtain ⟨ha, hl⟩ := List.forall_mem_cons.mp hp
    obtain ⟨b, s, hret, htrue, hadds⟩ := ha seen
    have hrun : CallGraph.allOf p (a :: l) seen =
        if b then CallGraph.allOf p l s else pure (false, s) := by
      rw [CallGraph.allOf, hret]
      rfl
    rw [List.flatMap_cons, hrun]
    cases b with
    | false =>
      refine ⟨false, s, rfl, ⟨Bool.noConfusion, fun h => htrue.mpr ?_⟩, Bool.noConfusion⟩
      exact ⟨h.1.of_append_left, fun f hf => h.2 f (List.mem_append_left _ hf)⟩
    | true =>
      obtain ⟨hnodup, hnew⟩ := htrue.mp rfl
      have hs := hadds rfl
      have hrest : Meets (l.flatMap visits) s (CallGraph.allOf p l s) := ih hl
      obtain ⟨b', s', hret', htrue', hadds'⟩ := hrest
      refine ⟨b', s', hret', htrue'.trans ?_, fun hb' f => ?_⟩
      · -- What the rest may not meet is what was seen and what `a` has added.
        rw [List.nodup_append']
        constructor
        · rintro ⟨hrest, hnot⟩
          refine ⟨⟨hnodup, hrest, fun f hf hf' => hnot f hf' ((hs f).mpr (.inr hf))⟩, fun f hf => ?_⟩
          rcases List.mem_append.mp hf with hf | hf
          · exact hnew f hf
          · exact fun hmem => hnot f hf ((hs f).mpr (.inl hmem))
        · rintro ⟨⟨-, hrest, hdisj⟩, hnot⟩
          refine ⟨hrest, fun f hf hmem => ?_⟩
          rcases (hs f).mp hmem with hmem | hmem
          · exact hnot f (List.mem_append_right _ hf) hmem
          · exact hdisj hmem hf
      · rw [hadds' hb' f, hs f, List.mem_append, or_assoc]

omit [LinearOrder φ] in
theorem getCalledFunction_of_target {V : Value φ ι} {f : φ} (h : V.target = some f) :
    getCalledFunction V = .ok (some f) := by
  unfold getCalledFunction
  induction V with
  | function g =>
    cases h
    rfl
  | bitCast V ih => exact ih h
  | _ => cases h

/-- The instructions of a function that calls directly: a call of a function is a search
from that function. -/
theorem checkInstruction_meets {rec : Function φ ι → OrdSet φ → Exec (Bool × OrdSet φ)}
    {visits : φ → List φ} {I : Instruction φ ι}
    (hdirect : ∀ site, I.callSite = some site → site.2.isSome = true)
    (hrec : ∀ g, I.callee? M = some g →
      ∃ G, M.function? g = some G ∧ ∀ s, Meets (visits g) s (rec G s)) :
    Meets ((I.callee? M).toList.flatMap visits) seen (checkInstruction M rec I seen) := by
  cases I with
  | alloca | other => exact Meets.nil seen
  | call i kind args V =>
    obtain ⟨g, hg⟩ := Option.isSome_iff_exists.mp (hdirect _ rfl)
    have hg' : V.target = some g := hg
    unfold checkInstruction
    by_cases hintrinsic : M.isIntrinsicInst kind V = true
    · simp only [hintrinsic, if_true, Instruction.callee?]
      exact Meets.nil seen
    · have hcallee : (Instruction.call i kind args V).callee? M = some g := by
        rw [Instruction.callee?, if_neg hintrinsic, hg']
      obtain ⟨G, hG, hmeets⟩ := hrec g hcallee
      simpa [hcallee, hintrinsic, getCalledFunction_of_target hg', hG, bind, Except.bind] using
        hmeets seen

/-- The search accepts what it can see through exactly if it meets every function once. -/
theorem doesNotRecurseRec_meets {n : Nat} (hF : F ∈ M.functions)
    (hshort : Unfolding.Short M.searched n F.name)
    (hdefined : ∀ f, ReflTransGen M.CallsDirectly F.name f →
      ∃ G ∈ M.functions, G.name = f ∧ G.isDeclaration = false)
    (hdirect : ∀ G ∈ M.functions, ReflTransGen M.CallsDirectly F.name G.name →
      ∀ site ∈ G.callSites, site.2.isSome = true) :
    Meets (Unfolding.unfold M.searched n F.name) seen (doesNotRecurseRec M n F seen) := by
  induction n generalizing F seen with
  | zero => exact absurd hshort id
  | succ n ih =>
    rw [doesNotRecurseRec, Unfolding.unfold, Module.searched_of_mem hF]
    by_cases hseen : F.name ∈ seen
    · rw [if_pos hseen]
      exact ⟨false, seen, rfl, by simp [hseen], Bool.noConfusion⟩
    rw [if_neg hseen]
    refine Meets.cons hseen ?_
    by_cases hattr : F.norecurse = true
    · rw [if_pos hattr, if_pos hattr]
      exact Meets.nil _
    obtain ⟨F', hF', hname, hbody⟩ := hdefined F.name .refl
    obtain rfl := Module.eq_of_name hF' hF hname
    rw [if_neg hattr, if_neg hattr, if_neg (by simp [hbody]), Function.callees,
      List.filterMap_eq_flatMap_toList, List.flatMap_assoc]
    refine Meets.allOf fun I hI s => checkInstruction_meets (fun site hsite => ?_) fun g hg => ?_
    · exact hdirect F' hF .refl site (List.mem_filterMap.mpr ⟨I, hI, hsite⟩)
    · -- The called function has a body, and what it reaches was reached before.
      have hmem : g ∈ F'.callees M := List.mem_filterMap.mpr ⟨I, hI, hg⟩
      have hcall : M.CallsDirectly F'.name g := ⟨F', hF, rfl, hmem⟩
      obtain ⟨G, hG, rfl, -⟩ := hdefined g (.single hcall)
      have hG' : Unfolding.Short M.searched n G.name :=
        hshort G.name (by rwa [Module.searched_of_mem hF, if_neg hattr])
      exact ⟨G, Module.function?_of_mem hG, fun s => ih hG hG'
        (fun f hf => hdefined f (.head hcall hf)) fun H hH hreach => hdirect H hH (.head hcall hreach)⟩

/-- The recursion check accepts a function that it can see through exactly if no function is
the target of two of the calls that it follows. -/
theorem doesNotRecurse_iff_unshared {fuel : Nat} (hF : F ∈ M.functions) (h : M.SeesThrough F)
    (hfuel : M.functions.length < fuel) :
    doesNotRecurse fuel M F = .ok true ↔ Unfolding.Unshared M.searched F.name := by
  have hacyclic (f : φ) (hf : ReflTransGen (Unfolding.Step M.searched) F.name f) :
      ¬ TransGen (Unfolding.Step M.searched) f f := fun hcycle =>
    h.acyclic f (Module.reaches_of_searched hf)
      (hcycle.lift id fun _ _ => Module.CallsDirectly.of_searched)
  have hshort : Unfolding.Short M.searched fuel F.name := by
    refine Unfolding.short_of_acyclic (U := (M.functions.map (·.name)).toFinset) (fun f hf => ?_)
      hacyclic ?_
    · obtain ⟨G, hG, hname, -⟩ := h.defined f (Module.reaches_of_searched hf.to_reflTransGen)
      exact List.mem_toFinset.mpr (List.mem_map.mpr ⟨G, hG, hname⟩)
    · refine lt_of_le_of_lt (List.toFinset_card_le _) ?_
      rwa [List.length_map]
  have hmeets : Meets (Unfolding.unfold M.searched fuel F.name) ∅ (doesNotRecurseRec M fuel F ∅) :=
    doesNotRecurseRec_meets hF hshort h.defined h.direct
  obtain ⟨b, seen, hret, htrue, -⟩ := hmeets
  have hrun : doesNotRecurse fuel M F = .ok b := by
    unfold doesNotRecurse
    rw [hret]
    rfl
  rw [hrun, Except.ok.injEq, htrue, ← Unfolding.nodup_unfold_iff hshort (hacyclic F.name .refl)]
  simp

end Search

/-! ## Modules in Which Callees Come Later -/

section Ordered

variable {φ ι : Type} [LinearOrder φ] {M : Module φ ι} {F : Function φ ι}

theorem Function.mem_callSites_of_callee {g : φ} (hg : g ∈ F.callees M) :
    ∃ site ∈ F.callSites, site.2 = some g := by
  obtain ⟨I, hI, hcallee⟩ := List.mem_filterMap.mp hg
  cases I with
  | alloca | other => cases hcallee
  | call i kind args V =>
    rw [Instruction.callee?] at hcallee
    split_ifs at hcallee
    exact ⟨_, List.mem_filterMap.mpr ⟨_, hI, rfl⟩, hcallee⟩

/-- The functions have bodies and call functions of the module with greater names. -/
def Module.Ordered (M : Module φ ι) : Prop :=
  ∀ F ∈ M.functions, F.isDeclaration = false ∧
    ∀ site ∈ F.callSites, ∃ G ∈ M.functions, site.2 = some G.name ∧ F.name < G.name

instance (M : Module φ ι) : Decidable M.Ordered :=
  inferInstanceAs (Decidable (∀ F ∈ M.functions, _))

theorem Module.Ordered.calls {f g : φ} (h : M.Ordered) (hf : M.CallsDirectly f g) :
    f < g ∧ ∃ G ∈ M.functions, G.name = g ∧ G.isDeclaration = false := by
  obtain ⟨F, hF, rfl, hg⟩ := hf
  obtain ⟨site, hsite, htarget⟩ := Function.mem_callSites_of_callee hg
  obtain ⟨G, hG, hname, hlt⟩ := (h F hF).2 site hsite
  obtain rfl := Option.some.inj (hname.symm.trans htarget)
  exact ⟨hlt, G, hG, rfl, (h G hG).1⟩

theorem Module.Ordered.seesThrough (h : M.Ordered) (hF : F ∈ M.functions) : M.SeesThrough F where
  defined f hf := by
    cases hf with
    | refl => exact ⟨F, hF, rfl, (h F hF).1⟩
    | tail _ hcall => exact (h.calls hcall).2
  direct G hG _ site hsite := by
    obtain ⟨G', -, htarget, -⟩ := (h G hG).2 site hsite
    rw [htarget, Option.isSome_some]
  acyclic f _ hcycle := by
    have hlt {g : φ} (hg : TransGen M.CallsDirectly f g) : f < g := by
      induction hg with
      | single hcall => exact (h.calls hcall).1
      | tail _ hcall ih => exact ih.trans (h.calls hcall).1
    exact lt_irrefl f (hlt hcycle)

/-- A function with a body that is nothing but calls. -/
def caller (f : Nat) (callees : List Nat) : Function Nat Nat :=
  ⟨f, false, false, some (callees.map fun g => .call g .call [] (.function g))⟩

/-- A function that calls two others. -/
def forked : Module Nat Nat where
  functions := [caller 0 [1, 2], caller 1 [], caller 2 []]
  globals := []
  names_nodup := by decide

/-- Two callees of a function share a callee. -/
def diamond : Module Nat Nat where
  functions := [caller 0 [1, 2], caller 1 [3], caller 2 [3], caller 3 []]
  globals := []
  names_nodup := by decide

theorem doesNotRecurse_iff_unshared_forked :
    doesNotRecurse 4 forked (caller 0 [1, 2]) = .ok true ∧ Unfolding.Unshared forked.searched 0 := by
  have hF : caller 0 [1, 2] ∈ forked.functions := List.mem_cons_self
  have hsees : forked.SeesThrough (caller 0 [1, 2]) :=
    Module.Ordered.seesThrough (by decide +kernel) hF
  have hret : doesNotRecurse 4 forked (caller 0 [1, 2]) = .ok true := by decide +kernel
  exact ⟨hret, (doesNotRecurse_iff_unshared hF hsees (by decide)).mp hret⟩

theorem doesNotRecurse_shared_fails : caller 0 [1, 2] ∈ diamond.functions ∧
    diamond.SeesThrough (caller 0 [1, 2]) ∧
    doesNotRecurse 5 diamond (caller 0 [1, 2]) = .ok false :=
  ⟨List.mem_cons_self, Module.Ordered.seesThrough (by decide +kernel) List.mem_cons_self,
    by decide +kernel⟩

end Ordered

end Clou.CallGraph
