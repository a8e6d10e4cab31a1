-- SUMMARY: What the pass makes of a module: all answers that it gets while it changes the module are those about the module at the start.
import Serberus.Stacks.FunctionLocalStacks

/-!
# The Instrumented Module

The pass asks of a module that it is changing. What it inserts are intrinsics and instructions
that are no calls, so the answers do not change, and each function is instrumented after one
answer of the recursion check and one on its calls.
-/

namespace Clou.Stacks

section Definitions

variable {φ β ι : Type}

/-- What is inserted on entry. -/
def prologue (restore save : Bool) : List Inserted :=
  (if restore then [.oldSP] else []) ++ if save then saved else []

/-- What is inserted where control leaves a block. -/
def epilogue (restore : Bool) (exit : Exit β) : List Inserted :=
  if restore && exit.isReturn then restored else []

def Block.instrument (restore : Bool) (ks : List Inserted)
    (B : Block β (CallGraph.Instruction φ ι)) : Block β (Inst φ ι) where
  label := B.label
  body := ks.map .inserted ++ B.body.map .source ++ (epilogue restore B.exit).map .inserted
  exit := B.exit

def Function.instrument (restore save : Bool) (F : Function φ β (CallGraph.Instruction φ ι)) :
    Function φ β (Inst φ ι) where
  name := F.name
  norecurse := F.norecurse
  isIntrinsic := F.isIntrinsic
  stackrealign := true
  fpsUsestack := F.fpsUsestack || !restore
  blocks :=
    match F.blocks with
    | [] => []
    | B :: Bs => B.instrument restore (prologue restore save) :: Bs.map (·.instrument restore [])

/-- What the pass does to a function, after the two answers. -/
def Function.insertAll (restore save : Bool) (F : Function φ β (Inst φ ι)) :
    Function φ β (Inst φ ι) :=
  let F := F.addStackRealign
  let F := if restore then F else F.addUsestack
  let F := if restore then F.insertEntry 0 [.oldSP] else F
  let F := if save then F.insertEntry (if restore then 1 else 0) saved else F
  if restore then F.insertReturns restored else F

theorem name_insertAll (restore save : Bool) (F : Function φ β (Inst φ ι)) :
    (F.insertAll restore save).name = F.name := by
  cases restore <;> cases save <;> rfl

/-- Inserting before the returns adds the epilogues. -/
theorem insertReturn_instrument (ks : List Inserted) (B : Block β (CallGraph.Instruction φ ι)) :
    (if B.exit.isReturn = true then
      { B with body := ks.map Inst.inserted ++ B.body.map .source ++ restored.map .inserted }
    else { B with body := ks.map .inserted ++ B.body.map .source } : Block β (Inst φ ι)) =
      B.instrument true ks := by
  unfold Block.instrument epilogue
  cases B.exit.isReturn <;> simp

theorem insertAll_map (restore save : Bool) (F : Function φ β (CallGraph.Instruction φ ι)) :
    (F.map Inst.source).insertAll restore save = F.instrument restore save := by
  cases hblocks : F.blocks with
  | nil =>
    cases restore <;> cases save <;>
      simp [Function.insertAll, Function.addStackRealign, Function.addUsestack,
        Function.instrument, Function.map, Function.insertEntry, Function.insertReturns, hblocks]
  | cons B Bs =>
    cases restore with
    | false =>
      cases save <;>
        simp [Function.insertAll, Function.addStackRealign, Function.addUsestack,
          Function.instrument, Function.map, Function.insertEntry, hblocks, prologue,
          Block.instrument, epilogue]
    | true =>
      cases save <;>
        simp [Function.insertAll, Function.addStackRealign, Function.instrument, Function.map,
          Function.insertEntry, Function.insertReturns, hblocks, prologue,
          ← insertReturn_instrument]

end Definitions

/-! ## The Answers -/

section Answers

variable {φ β ι : Type} [LinearOrder φ] {S : Setup φ ι} {M M₀ : Module φ β (Inst φ ι)}
  {F : Function φ β (Inst φ ι)} {N : CallGraph.Module φ ι} {f : φ}

/-- What is inserted as a call are intrinsics of the module. -/
structure NamesIntrinsics (S : Setup φ ι) (N : CallGraph.Module φ ι) : Prop where
  readRegister : N.isIntrinsicInst .call (.function S.readRegister) = true
  umin : N.isIntrinsicInst .call (.function S.umin) = true

theorem passesOver_inserted (h : NamesIntrinsics S N) (f : φ) (k : Inserted) :
    N.passesOver (Inst.toCallGraph S f (.inserted k)) = true := by
  cases k with
  | readRegister => exact h.readRegister
  | clippedOldSPI => exact h.umin
  | _ => rfl

theorem inserts_inserted (h : NamesIntrinsics S N) (f : φ) (ks : List Inserted) :
    CallGraph.Inserts N [] ((ks.map Inst.inserted).map (Inst.toCallGraph S f)) := by
  refine .of_passesOver fun I hI => ?_
  rw [List.map_map] at hI
  obtain ⟨k, -, rfl⟩ := List.mem_map.mp hI
  exact passesOver_inserted h f k

omit [LinearOrder φ] in
theorem instructions_toCallGraph :
    (F.toCallGraph S).instructions = F.instructions.map (Inst.toCallGraph S F.name) := by
  unfold CallGraph.Function.instructions Function.toCallGraph
  dsimp only
  split_ifs with hdecl
  · have hnil : F.blocks = [] := List.isEmpty_iff.mp hdecl
    simp [Function.instructions, hnil]
  · rfl

omit [LinearOrder φ] in
theorem isDeclaration_toCallGraph : (F.toCallGraph S).isDeclaration = F.isDeclaration := by
  unfold CallGraph.Function.isDeclaration Function.toCallGraph
  cases F.isDeclaration <;> rfl

/-- Functions with the same attributes, one of them with instructions inserted. -/
theorem padded_toCallGraph {F' : Function φ β (Inst φ ι)} (hname : F'.name = F.name)
    (hnorecurse : F'.norecurse = F.norecurse) (hintrinsic : F'.isIntrinsic = F.isIntrinsic)
    (hdecl : F'.isDeclaration = F.isDeclaration)
    (h : CallGraph.Inserts N (F.instructions.map (Inst.toCallGraph S F.name))
      (F'.instructions.map (Inst.toCallGraph S F.name))) :
    CallGraph.Padded N (F.toCallGraph S) (F'.toCallGraph S) := by
  refine ⟨hname, hnorecurse, hintrinsic, ?_, ?_⟩
  · rw [isDeclaration_toCallGraph, isDeclaration_toCallGraph, hdecl]
  · rw [instructions_toCallGraph, instructions_toCallGraph, hname]
    exact h

theorem padded_insertEntry (h : NamesIntrinsics S N) (n : Nat) (ks : List Inserted) :
    CallGraph.Padded N (F.toCallGraph S) ((F.insertEntry n ks).toCallGraph S) := by
  refine padded_toCallGraph rfl rfl rfl ?_ ?_
  · unfold Function.isDeclaration Function.insertEntry
    cases F.blocks <;> rfl
  · unfold Function.instructions Function.insertEntry
    cases F.blocks with
    | nil => exact .nil
    | cons B Bs =>
      simp only [List.modifyHead_cons, List.flatMap_cons, List.map_append]
      have hbody : B.body.map (Inst.toCallGraph S F.name) =
          (B.body.take n).map (Inst.toCallGraph S F.name) ++ [] ++
            (B.body.drop n).map (Inst.toCallGraph S F.name) := by
        rw [List.append_nil, ← List.map_append, List.take_append_drop]
      rw [hbody]
      exact (((CallGraph.Inserts.refl _).append (inserts_inserted h F.name ks)).append
        (.refl _)).append (.refl _)

theorem padded_insertReturns (h : NamesIntrinsics S N) (ks : List Inserted) :
    CallGraph.Padded N (F.toCallGraph S) ((F.insertReturns ks).toCallGraph S) := by
  refine padded_toCallGraph rfl rfl rfl ?_ ?_
  · unfold Function.isDeclaration Function.insertReturns
    cases F.blocks <;> rfl
  · unfold Function.instructions Function.insertReturns
    simp only [List.flatMap_map, List.map_flatMap]
    refine .flatMap fun B _ => ?_
    split_ifs
    · have hinserts := (CallGraph.Inserts.refl (M := N)
        (B.body.map (Inst.toCallGraph S F.name))).append (inserts_inserted h F.name ks)
      rw [List.append_nil, ← List.map_append] at hinserts
      exact hinserts
    · exact .refl _

/-- The module at hand is the one at the start with instructions inserted that the recursion check
passes over. -/
def Grown (S : Setup φ ι) (M₀ M : Module φ β (Inst φ ι)) : Prop :=
  List.Forall₂ (fun F₀ F =>
    CallGraph.Padded (M₀.toCallGraph S) (F₀.toCallGraph S) (F.toCallGraph S))
    M₀.functions M.functions

theorem Grown.refl (S : Setup φ ι) (M₀ : Module φ β (Inst φ ι)) : Grown S M₀ M₀ :=
  List.forall₂_same.mpr fun _ _ => .refl _

theorem Grown.toCallGraph (h : Grown S M₀ M) : List.Forall₂
    (CallGraph.Padded (M₀.toCallGraph S)) (M₀.toCallGraph S).functions
      (M.toCallGraph S).functions :=
  List.forall₂_map_left_iff.mpr (List.forall₂_map_right_iff.mpr h)

theorem Grown.update (h : Grown S M₀ M) {g : Function φ β (Inst φ ι) → Function φ β (Inst φ ι)}
    (hg : ∀ F, (g F).name = F.name) (hpadded : ∀ F,
      CallGraph.Padded (M₀.toCallGraph S) (F.toCallGraph S) ((g F).toCallGraph S)) :
    Grown S M₀ (M.update f g hg) := by
  refine List.forall₂_map_right_iff.mpr (h.imp fun F F' hF => ?_)
  split_ifs
  · exact hF.trans (hpadded F')
  · exact hF

theorem function?_toCallGraph (S : Setup φ ι) (M : Module φ β (Inst φ ι)) (f : φ) :
    (M.toCallGraph S).function? f = (M.function? f).map (·.toCallGraph S) := by
  unfold CallGraph.Module.function? Module.function? Module.toCallGraph
  rw [List.find?_map]
  rfl

/-- What there is of a function at the start and later. -/
theorem Grown.function? (h : Grown S M₀ M) (f : φ) :
    (M₀.function? f = none ∧ M.function? f = none) ∨
      ∃ F₀ F, M₀.function? f = some F₀ ∧ M.function? f = some F ∧
        CallGraph.Padded (M₀.toCallGraph S) (F₀.toCallGraph S) (F.toCallGraph S) := by
  have hfound := CallGraph.function?_padded h.toCallGraph f
  simp only [function?_toCallGraph, Option.map_eq_none_iff, Option.map_eq_some_iff] at hfound
  rcases hfound with hnone | ⟨-, -, ⟨F₀, hF₀, rfl⟩, ⟨F, hF, rfl⟩, hpadded⟩
  · exact .inl hnone
  · exact .inr ⟨F₀, F, hF₀, hF, hpadded⟩

/-- The recursion check gives the answer that it gives at the start. -/
theorem Grown.shouldRestoreOldSP (h : Grown S M₀ M) (f : φ) :
    shouldRestoreOldSP S M f = shouldRestoreOldSP S M₀ f := by
  unfold Stacks.shouldRestoreOldSP
  rcases h.function? f with ⟨hnone, hnone'⟩ | ⟨F₀, F, hF₀, hF, hpadded⟩
  · rw [hnone, hnone']
  · rw [hF₀, hF]
    dsimp only
    rw [CallGraph.doesNotRecurse_padded h.toCallGraph S.fuel hpadded]

/-- The load on entry is no call. -/
theorem Grown.shouldSaveNewSP (h : Grown S M₀ M) {F₀ : Function φ β (Inst φ ι)}
    (hF₀ : M₀.function? f = some F₀) (hF : M.function? f = some F) (hname : F.name = F₀.name)
    (hinst : F.instructions = F₀.instructions ∨
      F.instructions = .inserted .oldSP :: F₀.instructions) :
    shouldSaveNewSP S M f = shouldSaveNewSP S M₀ f := by
  unfold Stacks.shouldSaveNewSP mayLowerToFunctionCall
  simp only [hF, hF₀, instructions_toCallGraph, hname,
    CallGraph.isIntrinsicInst_padded h.toCallGraph]
  rcases hinst with heq | heq
  · rw [heq]
  · rw [heq]
    rfl

theorem function?_update (M : Module φ β (Inst φ ι)) (f : φ)
    (g : Function φ β (Inst φ ι) → Function φ β (Inst φ ι)) (hg : ∀ F, (g F).name = F.name) :
    (M.update f g hg).function? f = (M.function? f).map g := by
  change (M.functions.map fun F => if F.name = f then g F else F).find? (·.name = f) = _
  have hpred : (fun F : Function φ β (Inst φ ι) => decide (F.name = f)) ∘
      (fun F => if F.name = f then g F else F) = fun F => decide (F.name = f) := by
    funext F
    simp only [Function.comp_apply]
    split_ifs with hname
    · rw [hg F]
    · rfl
  rw [List.find?_map, hpred]
  refine Option.map_congr fun F hF => if_pos ?_
  simpa using List.find?_some hF

theorem update_update {M : Module φ β (Inst φ ι)}
    {g g' : Function φ β (Inst φ ι) → Function φ β (Inst φ ι)} {hg : ∀ F, (g F).name = F.name}
    {hg' : ∀ F, (g' F).name = F.name} : (M.update f g hg).update f g' hg' =
      M.update f (fun F => g' (g F)) fun F => (hg' (g F)).trans (hg F) := by
  unfold Module.update
  congr 1
  rw [List.map_map]
  refine List.map_congr_left fun F _ => ?_
  by_cases hname : F.name = f
  · simp [hname, hg]
  · simp [hname]

omit [LinearOrder φ] in
theorem instructions_insertEntry (F : Function φ β (Inst φ ι)) :
    (F.insertEntry 0 [.oldSP]).instructions = F.instructions ∨
      (F.insertEntry 0 [.oldSP]).instructions = .inserted .oldSP :: F.instructions := by
  unfold Function.instructions Function.insertEntry
  cases F.blocks with
  | nil => exact .inl rfl
  | cons B Bs => exact .inr rfl

/-- Changing attributes changes no call. -/
theorem padded_attributes {F F' : Function φ β (Inst φ ι)} (hname : F'.name = F.name)
    (hnorecurse : F'.norecurse = F.norecurse) (hintrinsic : F'.isIntrinsic = F.isIntrinsic)
    (hblocks : F'.blocks = F.blocks) :
    CallGraph.Padded N (F.toCallGraph S) (F'.toCallGraph S) := by
  refine padded_toCallGraph hname hnorecurse hintrinsic ?_ ?_
  · unfold Function.isDeclaration
    rw [hblocks]
  · unfold Function.instructions
    rw [hblocks]
    exact .refl _

/-- The rest of a function's instrumentation, once it has its attributes. -/
theorem Grown.insert {restore : Bool} (hN : NamesIntrinsics S (M₀.toCallGraph S))
    (h : Grown S M₀ M) {F₀ F : Function φ β (Inst φ ι)} (hF₀ : M₀.function? f = some F₀)
    (hF : M.function? f = some F) (hname : F.name = F₀.name)
    (hinst : F.instructions = F₀.instructions ∨
      F.instructions = .inserted .oldSP :: F₀.instructions)
    (hrestore : Stacks.shouldRestoreOldSP S M₀ f = .ok restore) (n : Nat) :
    (do
      let save ← Stacks.shouldSaveNewSP S M f
      let M := if save then M.update f (.insertEntry n saved) (name_insertEntry n _) else M
      let restore ← Stacks.shouldRestoreOldSP S M f
      let M := if restore then M.update f (.insertReturns restored) (name_insertReturns _) else M
      pure (M, [GlobalVariable.stack f, .sp f]) : Exec _) =
    Stacks.shouldSaveNewSP S M₀ f >>= fun save =>
      let M := if save then M.update f (.insertEntry n saved) (name_insertEntry n _) else M
      let M := if restore then M.update f (.insertReturns restored) (name_insertReturns _) else M
      pure (M, [.stack f, .sp f]) := by
  rw [h.shouldSaveNewSP hF₀ hF hname hinst]
  cases Stacks.shouldSaveNewSP S M₀ f with
  | error fault => rfl
  | ok save =>
    have hsaved : Grown S M₀
        (if save then M.update f (.insertEntry n saved) (name_insertEntry n _) else M) := by
      split_ifs
      · exact h.update (name_insertEntry n saved) fun F => padded_insertEntry hN n saved
      · exact h
    change (Stacks.shouldRestoreOldSP S (if save then _ else M) f >>= _) = _
    rw [hsaved.shouldRestoreOldSP, hrestore]
    rfl

/-- A function that has not been changed yet is instrumented after two answers about the module at
the start. -/
theorem runOnFunction_eq (hN : NamesIntrinsics S (M₀.toCallGraph S)) (h : Grown S M₀ M)
    {F₀ : Function φ β (Inst φ ι)} (hF₀ : M₀.function? f = some F₀) (hF : M.function? f = some F₀) :
    runOnFunction S M f =
      shouldRestoreOldSP S M₀ f >>= fun restore => shouldSaveNewSP S M₀ f >>= fun save =>
        pure (M.update f (.insertAll restore save) (name_insertAll restore save),
          [.stack f, .sp f]) := by
  have h₁ : Grown S M₀ (M.update f .addStackRealign name_addStackRealign) :=
    h.update name_addStackRealign fun F => padded_attributes rfl rfl rfl rfl
  have hF₁ : (M.update f .addStackRealign name_addStackRealign).function? f =
      some F₀.addStackRealign := by
    rw [function?_update, hF]
    rfl
  unfold runOnFunction
  dsimp only
  rw [h₁.shouldRestoreOldSP]
  cases hrestore : shouldRestoreOldSP S M₀ f with
  | error fault => rfl
  | ok restore =>
    cases restore with
    | true =>
      have h₂ := h₁.update (f := f) (name_insertEntry 0 [.oldSP]) fun F =>
        padded_insertEntry hN 0 [.oldSP]
      have hF₂ : ((M.update f .addStackRealign name_addStackRealign).update f
          (.insertEntry 0 [.oldSP]) (name_insertEntry 0 [.oldSP])).function? f =
          some (F₀.addStackRealign.insertEntry 0 [.oldSP]) := by
        rw [function?_update, hF₁]
        rfl
      change (shouldRestoreOldSP S (M.update f .addStackRealign name_addStackRealign) f >>= _) = _
      rw [h₁.shouldRestoreOldSP, hrestore]
      refine (h₂.insert hN hF₀ hF₂ rfl (instructions_insertEntry _) hrestore 1).trans ?_
      refine congrArg _ (funext fun save => ?_)
      cases save <;> simp only [update_update, if_true, Bool.false_eq_true, if_false] <;> rfl
    | false =>
      have h₂ := h₁.update (f := f) name_addUsestack fun F =>
        padded_attributes rfl rfl rfl rfl
      have hF₂ : ((M.update f .addStackRealign name_addStackRealign).update f .addUsestack
          name_addUsestack).function? f = some F₀.addStackRealign.addUsestack := by
        rw [function?_update, hF₁]
        rfl
      change (shouldRestoreOldSP S ((M.update f .addStackRealign name_addStackRealign).update f
        .addUsestack name_addUsestack) f >>= _) = _
      rw [h₂.shouldRestoreOldSP, hrestore]
      refine (h₂.insert hN hF₀ hF₂ rfl (.inl rfl) hrestore 0).trans ?_
      refine congrArg _ (funext fun save => ?_)
      cases save <;> simp only [update_update, if_true, Bool.false_eq_true, if_false] <;> rfl

theorem padded_insertAll (hN : NamesIntrinsics S N) (restore save : Bool) :
    CallGraph.Padded N (F.toCallGraph S) ((F.insertAll restore save).toCallGraph S) := by
  have hattr (F : Function φ β (Inst φ ι)) :
      CallGraph.Padded N (F.toCallGraph S) (F.addStackRealign.toCallGraph S) :=
    padded_attributes rfl rfl rfl rfl
  have husestack (F : Function φ β (Inst φ ι)) :
      CallGraph.Padded N (F.toCallGraph S) (F.addUsestack.toCallGraph S) :=
    padded_attributes rfl rfl rfl rfl
  have hentry (F : Function φ β (Inst φ ι)) (n : Nat) (ks : List Inserted) :
      CallGraph.Padded N (F.toCallGraph S) ((F.insertEntry n ks).toCallGraph S) :=
    padded_insertEntry hN n ks
  have hreturns (F : Function φ β (Inst φ ι)) :
      CallGraph.Padded N (F.toCallGraph S) ((F.insertReturns restored).toCallGraph S) :=
    padded_insertReturns hN restored
  cases restore <;> cases save
  · exact (hattr F).trans (husestack _)
  · exact ((hattr F).trans (husestack _)).trans (hentry _ 0 saved)
  · exact ((hattr F).trans (hentry _ 0 _)).trans (hreturns _)
  · exact (((hattr F).trans (hentry _ 0 _)).trans (hentry _ 1 saved)).trans (hreturns _)

/-- The pass leaves a declaration as it is and instruments any other function, after two answers
about the module at the start. -/
def Instruments (S : Setup φ ι) (M₀ : Module φ β (CallGraph.Instruction φ ι))
    (F : Function φ β (CallGraph.Instruction φ ι)) (G : Function φ β (Inst φ ι)) : Prop :=
  if F.isDeclaration then G = F.map .source
  else ∃ restore save, shouldRestoreOldSP S M₀.embed F.name = .ok restore ∧
    shouldSaveNewSP S M₀.embed F.name = .ok save ∧ G = F.instrument restore save

theorem Instruments.name {M₀ : Module φ β (CallGraph.Instruction φ ι)}
    {F : Function φ β (CallGraph.Instruction φ ι)} {G : Function φ β (Inst φ ι)}
    (h : Instruments S M₀ F G) : G.name = F.name := by
  unfold Instruments at h
  split_ifs at h
  · rw [h]
    rfl
  · obtain ⟨restore, save, -, -, rfl⟩ := h
    rfl

/-- The module when the functions of `done` have been visited. -/
structure Partly (S : Setup φ ι) (M₀ : Module φ β (CallGraph.Instruction φ ι)) (done : List φ)
    (M : Module φ β (Inst φ ι)) : Prop where
  grown : Grown S M₀.embed M
  functions : List.Forall₂ (fun F G =>
    if F.name ∈ done then Instruments S M₀ F G else G = F.map .source) M₀.functions M.functions

section Visits

variable {M₀ : Module φ β (CallGraph.Instruction φ ι)} {done : List φ}

theorem function?_embed (M₀ : Module φ β (CallGraph.Instruction φ ι)) (f : φ) :
    M₀.embed.function? f = (M₀.function? f).map (·.map .source) := by
  unfold Module.function? Module.embed
  rw [List.find?_map]
  rfl

omit [LinearOrder φ] in
theorem isDeclaration_map (F : Function φ β (CallGraph.Instruction φ ι)) :
    (F.map Inst.source).isDeclaration = F.isDeclaration := by
  unfold Function.isDeclaration Function.map
  cases F.blocks <;> rfl

theorem Module.function?_eq_some {κ : Type} {M : Module φ β κ} {F : Function φ β κ}
    (h : M.function? f = some F) : F ∈ M.functions ∧ F.name = f :=
  ⟨List.mem_of_find?_eq_some h, by simpa using List.find?_some h⟩

theorem Partly.refl (S : Setup φ ι) (M₀ : Module φ β (CallGraph.Instruction φ ι)) :
    Partly S M₀ [] M₀.embed where
  grown := .refl S M₀.embed
  functions := by
    refine List.forall₂_map_right_iff.mpr (List.forall₂_same.mpr fun F _ => ?_)
    rw [if_neg List.not_mem_nil]

/-- A function that has not been visited is as it was. -/
theorem Partly.function? (h : Partly S M₀ done M) (hf : f ∉ done) :
    M.function? f = M₀.embed.function? f := by
  rw [function?_embed]
  unfold Module.function?
  have hfunctions := h.functions
  generalize M₀.functions = Fs, M.functions = Gs at hfunctions
  induction hfunctions with
  | nil => rfl
  | @cons F G Fs Gs hG _ ih =>
    by_cases hname : F.name = f
    · subst hname
      rw [if_neg hf] at hG
      subst hG
      have hname' : (F.map (Inst.source (φ := φ) (ι := ι))).name = F.name := rfl
      rw [List.find?_cons_of_pos (by simpa using hname'), List.find?_cons_of_pos (by simp)]
      rfl
    · have hname' : G.name ≠ f := by
        split_ifs at hG
        · rwa [hG.name]
        · rw [hG]
          exact hname
      rw [List.find?_cons_of_neg (by simpa using hname'),
        List.find?_cons_of_neg (by simpa using hname), ih]

/-- Visiting a function leaves the others as they are. -/
theorem Partly.tail {M' : Module φ β (Inst φ ι)} {F₀ : Function φ β (CallGraph.Instruction φ ι)}
    (h : Partly S M₀ done M) (hf : f ∉ done) (hF₀ : M₀.function? f = some F₀)
    (hgrown : Grown S M₀.embed M') {g : Function φ β (Inst φ ι) → Function φ β (Inst φ ι)}
    (hfunctions : M'.functions = M.functions.map fun G => if G.name = f then g G else G)
    (hg : Instruments S M₀ F₀ (g (F₀.map .source))) : Partly S M₀ (done ++ [f]) M' where
  grown := hgrown
  functions := by
    have hunique : ∀ F ∈ M₀.functions, F.name = f → F = F₀ := fun F hF hname =>
      List.inj_on_of_nodup_map M₀.names_nodup hF (Module.function?_eq_some hF₀).1
        (hname.trans (Module.function?_eq_some hF₀).2.symm)
    rw [hfunctions, List.forall₂_map_right_iff]
    refine ((List.forall₂_and_left _ _).mpr ⟨hunique, h.functions⟩).imp fun F G hFG => ?_
    obtain ⟨heq, hFG⟩ := hFG
    by_cases hname : F.name = f
    · obtain rfl := heq hname
      rw [if_neg (hname ▸ hf)] at hFG
      subst hFG
      rw [if_pos (List.mem_append_right _ (List.mem_singleton.mpr hname))]
      change Instruments S M₀ F (if F.name = f then _ else _)
      rw [if_pos hname]
      exact hg
    · have hmem : F.name ∈ done ++ [f] ↔ F.name ∈ done := by simp [hname]
      simp only [hmem]
      have hname' : G.name ≠ f := by
        split_ifs at hFG
        · rwa [hFG.name]
        · rw [hFG]
          exact hname
      rw [if_neg hname']
      exact hFG

theorem Partly.visitFunction (hN : NamesIntrinsics S (M₀.embed.toCallGraph S))
    (h : Partly S M₀ done M) (hf : f ∉ done) {GVs : List (GlobalVariable φ)}
    {s : Module φ β (Inst φ ι) × List (GlobalVariable φ)}
    (hret : visitFunction S (M, GVs) f = .ok s) : Partly S M₀ (done ++ [f]) s.1 := by
  unfold Stacks.visitFunction at hret
  dsimp only at hret
  rw [h.function? hf, function?_embed] at hret
  cases hF₀ : M₀.function? f with
  | none =>
    rw [hF₀] at hret
    cases hret
  | some F₀ =>
    have hname : F₀.name = f := (Module.function?_eq_some hF₀).2
    have hmap : M₀.embed.function? f = some (F₀.map .source) := by rw [function?_embed, hF₀]; rfl
    have hM : M.function? f = some (F₀.map .source) := (h.function? hf).trans hmap
    rw [hF₀] at hret
    simp only [Option.map_some, isDeclaration_map] at hret
    split_ifs at hret with hdeclared
    · cases hret
      refine h.tail hf hF₀ h.grown (g := id) ?_ ?_
      · simp
      · unfold Instruments
        rw [if_pos hdeclared]
        rfl
    · rw [runOnFunction_eq hN h.grown hmap hM] at hret
      obtain ⟨s', hrun, hret⟩ := Exec.bind_eq_ok.mp hret
      obtain ⟨restore, hrestore, hrun⟩ := Exec.bind_eq_ok.mp hrun
      obtain ⟨save, hsave, hrun⟩ := Exec.bind_eq_ok.mp hrun
      cases hrun
      cases hret
      refine h.tail hf hF₀ (h.grown.update (name_insertAll restore save) fun F =>
        padded_insertAll hN restore save) rfl ?_
      unfold Instruments
      rw [if_neg hdeclared, insertAll_map, hname]
      exact ⟨restore, save, hrestore, hsave, rfl⟩

theorem Partly.foldlM (hN : NamesIntrinsics S (M₀.embed.toCallGraph S)) {fs : List φ}
    {s s' : Module φ β (Inst φ ι) × List (GlobalVariable φ)} (hnodup : (done ++ fs).Nodup)
    (h : Partly S M₀ done s.1) (hret : fs.foldlM (Stacks.visitFunction S) s = .ok s') :
    Partly S M₀ (done ++ fs) s'.1 := by
  induction fs generalizing done s with
  | nil =>
    cases hret
    rwa [List.append_nil]
  | cons f fs ih =>
    rw [List.foldlM_cons, Exec.bind_eq_ok] at hret
    obtain ⟨s₁, hvisit, hret⟩ := hret
    have hf : f ∉ done := fun hmem =>
      List.disjoint_of_nodup_append hnodup hmem List.mem_cons_self
    rw [List.append_cons] at hnodup ⊢
    exact ih hnodup (h.visitFunction hN hf hvisit) hret

/-- The pass asks of a module that it is changing, but every answer is the one about the module at
the start, and it makes of every function what these answers say. -/
theorem runOnModule_instruments (hN : NamesIntrinsics S (M₀.embed.toCallGraph S))
    (hfps : S.fps = true) {changed : Bool} {P : Module φ β (Inst φ ι)}
    (hret : runOnModule S M₀.embed = .ok (changed, P)) :
    changed = true ∧ List.Forall₂ (Instruments S M₀) M₀.functions P.functions := by
  unfold runOnModule at hret
  rw [if_pos hfps] at hret
  obtain ⟨s, hfold, hret⟩ := Exec.bind_eq_ok.mp hret
  cases hret
  have hnames : M₀.embed.functions.map (·.name) = M₀.functions.map (·.name) := by
    unfold Module.embed
    rw [List.map_map]
    rfl
  rw [hnames] at hfold
  have hpartly : Partly S M₀ (M₀.functions.map (·.name)) s.1 :=
    (Partly.refl S M₀).foldlM hN (by simpa using M₀.names_nodup) hfold
  refine ⟨rfl, ((List.forall₂_and_left _ _).mpr ⟨fun F hF => hF, hpartly.functions⟩).imp ?_⟩
  intro F G hFG
  have hG := hFG.2
  rwa [if_pos (List.mem_map_of_mem hFG.1)] at hG

end Visits

end Answers

end Clou.Stacks
