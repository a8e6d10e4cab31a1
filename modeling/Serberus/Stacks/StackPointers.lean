-- SUMMARY: At every call a stack pointer is what the innermost activation of its function has saved.
import Serberus.CallGraph.FramePromotion
import Serberus.Stacks.Machine

/-!
# The Stack Pointers of a Run

The invariant speaks of what is the case once the inserted instructions that are next have run.
An activation begins with its prologue before it, and is before its epilogue when the
instructions of its last block are at their end.
-/

open Relation

namespace Clou.Stacks

section Invariant

variable {φ β ι α : Type} [LinearOrder φ] [LinearOrder α] {restore save : φ → Bool}
  {P : Module φ β (Inst φ ι)} {env : CallGraph.Env φ ι} {stackEnd sp : φ → α}
  {vals : Inserted → α} {f : φ} {rsp : α} {a : Activation φ β ι α}
  {below : List (Activation φ β ι α)} {s s' : State φ β ι α}

/-- A module each of whose functions is a declaration or instrumented. -/
def IsInstrumented (restore save : φ → Bool) (P : Module φ β (Inst φ ι)) : Prop :=
  ∀ G ∈ P.functions, (G.blocks = [] ∧ save G.name = false) ∨
    ∃ F : Function φ β (CallGraph.Instruction φ ι), F.blocks ≠ [] ∧
      G = F.instrument (restore G.name) (save G.name)

/-- Each stack pointer that is restored is what the innermost activation saved, up to what is cut
off at the end of the stack. -/
def Kept (restore save : φ → Bool) (stackEnd sp : φ → α) (as : List (Activation φ β ι α)) : Prop :=
  ∀ g, restore g = true → min (stackEnd g) (sp g) = min (stackEnd g) (innermost stackEnd (save g) g as)

/-- An activation that restores has loaded what was saved below it. -/
def Loaded (restore save : φ → Bool) (stackEnd : φ → α) (f : φ) (vals : Inserted → α)
    (below : List (Activation φ β ι α)) : Prop :=
  restore f = true →
    min (stackEnd f) (vals .oldSP) = min (stackEnd f) (innermost stackEnd (save f) f below)

/-- What is left of a block. -/
def rest (restore : φ → Bool) (f : φ) (l : List (CallGraph.Instruction φ ι)) (exit : Exit β) :
    List (Inst φ ι) :=
  l.map .source ++ (epilogue (restore f) exit).map .inserted

/-- An activation that has called another. -/
def Suspended (restore save : φ → Bool) (stackEnd : φ → α) (a : Activation φ β ι α)
    (below : List (Activation φ β ι α)) : Prop :=
  (a.control = .outside ∧ save a.fn = false) ∨
    ∃ l exit, a.control = .inside (rest restore a.fn l exit) exit ∧
      Loaded restore save stackEnd a.fn a.vals below

def AllSuspended (restore save : φ → Bool) (stackEnd : φ → α) : List (Activation φ β ι α) → Prop
  | [] => True
  | a :: below =>
    Suspended restore save stackEnd a below ∧ AllSuspended restore save stackEnd below

/-- The running activation. -/
inductive Running (restore save : φ → Bool) (stackEnd sp : φ → α) (f : φ) (rsp : α)
    (vals : Inserted → α) (below : List (Activation φ β ι α)) : Control φ β ι → Prop
  | outside (hsave : save f = false) (hkept : Kept restore save stackEnd sp below) :
      Running restore save stackEnd sp f rsp vals below .outside
  /-- The prologue, or what is left of it, and instructions of the block. -/
  | body {ks : List Inserted} {l : List (CallGraph.Instruction φ ι)} {exit : Exit β}
      (hloaded : Loaded restore save stackEnd f (evals stackEnd f rsp ks (vals, sp)).1 below)
      (hkept : Kept restore save stackEnd (evals stackEnd f rsp ks (vals, sp)).2
        (⟨f, rsp, vals, .outside⟩ :: below)) :
      Running restore save stackEnd sp f rsp vals below
        (.inside (ks.map .inserted ++ rest restore f l exit) exit)
  /-- What is left of the epilogue. -/
  | epilogue {ks : List Inserted}
      (hkept : Kept restore save stackEnd (evals stackEnd f rsp ks (vals, sp)).2 below) :
      Running restore save stackEnd sp f rsp vals below (.inside (ks.map .inserted) .ret)

/-- What holds in every state that is reached. -/
def Invariant (restore save : φ → Bool) (stackEnd : φ → α) (s : State φ β ι α) : Prop :=
  match s.activations with
  | [] => Kept restore save stackEnd s.sp ([] : List (Activation φ β ι α))
  | a :: below => Running restore save stackEnd s.sp a.fn a.rsp a.vals below a.control ∧
      AllSuspended restore save stackEnd below

/-! ## The Inserted Code -/

theorem evals_prologue (stackEnd : φ → α) (f : φ) (rsp : α) (restore save : Bool)
    (m : (Inserted → α) × (φ → α)) : (evals stackEnd f rsp (prologue restore save) m).1 .oldSP =
        (if restore then m.2 f else m.1 .oldSP) ∧
      (evals stackEnd f rsp (prologue restore save) m).2 =
        if save then Function.update m.2 f rsp else m.2 := by
  cases restore <;> cases save <;> simp [evals, prologue, saved, Inserted.eval]

theorem evals_restored (m : (Inserted → α) × (φ → α)) :
    (evals stackEnd f rsp restored m).2 =
      Function.update m.2 f (min (stackEnd f) (m.1 .oldSP)) := by
  simp [evals, restored, Inserted.eval]

omit [LinearOrder α] in
theorem innermost_cons_of_ne {v : Bool} (h : a.fn ≠ f) :
    innermost stackEnd v f (a :: below) = innermost stackEnd v f below :=
  if_neg fun heq => h heq.1

/-- An activation that saves nothing changes nothing. -/
theorem kept_cons (hsave : save a.fn = false) :
    Kept restore save stackEnd sp (a :: below) ↔ Kept restore save stackEnd sp below := by
  refine forall₂_congr fun g _ => ?_
  have hinnermost : innermost stackEnd (save g) g (a :: below) =
      innermost stackEnd (save g) g below := by
    refine if_neg ?_
    rintro ⟨rfl, htrue⟩
    simp [hsave] at htrue
  rw [hinnermost]

theorem Kept.tail (h : Kept restore save stackEnd sp (a :: below)) (hrestore : restore a.fn = false) :
    Kept restore save stackEnd sp below := by
  intro g hg
  have hkept := h g hg
  rwa [innermost_cons_of_ne] at hkept
  rintro rfl
  simp [hrestore] at hg

/-- The prologue loads the stack pointer that was saved last and saves the new one. -/
theorem Kept.enter (h : Kept restore save stackEnd sp below) {c : Control φ β ι} :
    Loaded restore save stackEnd f
        (evals stackEnd f rsp (prologue (restore f) (save f)) (vals, sp)).1 below ∧
      Kept restore save stackEnd
        (evals stackEnd f rsp (prologue (restore f) (save f)) (vals, sp)).2
        (⟨f, rsp, vals, c⟩ :: below) := by
  obtain ⟨hload, hstore⟩ := evals_prologue stackEnd f rsp (restore f) (save f) (vals, sp)
  refine ⟨fun hrestore => ?_, ?_⟩
  · rw [hload, if_pos hrestore]
    exact h f hrestore
  · rw [hstore]
    cases hsave : save f with
    | false => exact (kept_cons hsave).mpr h
    | true =>
      intro g hg
      by_cases hgf : f = g
      · subst hgf
        simp [innermost, hsave]
      · rw [innermost_cons_of_ne hgf]
        simpa [Function.update_of_ne (Ne.symm hgf)] using h g hg

/-- The epilogue stores what the prologue has loaded. -/
theorem Kept.restored (h : Kept restore save stackEnd sp (a :: below)) (hf : a.fn = f)
    (hloaded : Loaded restore save stackEnd f vals below) (hrestore : restore f = true) :
    Kept restore save stackEnd (evals stackEnd f rsp restored (vals, sp)).2 below := by
  intro g hg
  rw [evals_restored]
  by_cases hgf : g = f
  · subst hgf
    rw [Function.update_self, ← min_assoc, min_self]
    exact hloaded hrestore
  · rw [Function.update_of_ne hgf]
    have hkept := h g hg
    rwa [innermost_cons_of_ne fun heq => hgf (heq.symm.trans hf)] at hkept

/-! ## One Step -/

omit [LinearOrder φ] in
theorem mem_tail_instrument {F : Function φ β (CallGraph.Instruction φ ι)} {r v : Bool}
    {B : Block β (Inst φ ι)} (hB : B ∈ (F.instrument r v).blocks.tail) :
    ∃ B₀ ∈ F.blocks, B = B₀.instrument r [] := by
  unfold Function.instrument at hB
  cases hblocks : F.blocks with
  | nil =>
    rw [hblocks] at hB
    cases hB
  | cons B₁ Bs =>
    rw [hblocks] at hB
    obtain ⟨B₀, hB₀, rfl⟩ := List.mem_map.mp hB
    exact ⟨B₀, List.mem_cons_of_mem _ hB₀, rfl⟩

omit [LinearOrder φ] in
theorem start_instrument {F : Function φ β (CallGraph.Instruction φ ι)}
    {B : Block β (CallGraph.Instruction φ ι)} {Bs : List (Block β (CallGraph.Instruction φ ι))}
    (hblocks : F.blocks = B :: Bs) (r v : Bool) : (F.instrument r v).start =
      .inside ((prologue r v).map .inserted ++
        (B.body.map .source ++ (epilogue r B.exit).map .inserted)) B.exit := by
  unfold Function.start Function.instrument
  rw [hblocks, ← List.append_assoc]
  rfl

/-- An activation begins with its prologue before it. -/
theorem Kept.start (hP : IsInstrumented restore save P) {G : Function φ β (Inst φ ι)}
    (hG : G ∈ P.functions) (h : Kept restore save stackEnd sp below) :
    Running restore save stackEnd sp G.name rsp vals below G.start := by
  rcases hP G hG with ⟨hblocks, hsave⟩ | ⟨F, hblocks, heq⟩
  · have hstart : G.start = .outside := by
      unfold Function.start
      rw [hblocks]
    rw [hstart]
    exact .outside hsave h
  · obtain ⟨B, Bs, hcons⟩ := List.exists_cons_of_ne_nil hblocks
    have hstart := start_instrument hcons (restore G.name) (save G.name)
    rw [← heq] at hstart
    rw [hstart]
    obtain ⟨hloaded, hkept⟩ := h.enter
    exact .body hloaded hkept

/-- A running activation that calls is suspended. -/
theorem Running.suspend {I : CallGraph.Instruction φ ι} {code : List (Inst φ ι)} {exit : Exit β}
    (h : Running restore save stackEnd sp f rsp vals below (.inside (.source I :: code) exit)) :
    Kept restore save stackEnd sp (⟨f, rsp, vals, .inside code exit⟩ :: below) ∧
      Suspended restore save stackEnd ⟨f, rsp, vals, .inside code exit⟩ below := by
  generalize hc : Control.inside (.source I :: code) exit = c at h
  cases h with
  | outside => cases hc
  | @epilogue ks hkept =>
    cases ks with
    | nil => cases hc
    | cons k ks => cases hc
  | @body ks l exit' hloaded hkept =>
    cases ks with
    | cons k ks => cases hc
    | nil =>
      cases l with
      | nil =>
        injection hc with hcode
        unfold rest at hcode
        cases hepilogue : (Stacks.epilogue (restore f) exit') with
        | nil =>
          rw [hepilogue] at hcode
          cases hcode
        | cons k ks =>
          rw [hepilogue] at hcode
          cases hcode
      | cons I' l =>
        cases hc
        exact ⟨hkept, .inr ⟨l, exit, rfl, hloaded⟩⟩

theorem Running.of_rest {l : List (CallGraph.Instruction φ ι)} {exit : Exit β}
    (hloaded : Loaded restore save stackEnd f vals below)
    (hkept : Kept restore save stackEnd sp (⟨f, rsp, vals, .outside⟩ :: below)) :
    Running restore save stackEnd sp f rsp vals below (.inside (rest restore f l exit) exit) := by
  have hbody : Running restore save stackEnd sp f rsp vals below
      (.inside ([].map .inserted ++ rest restore f l exit) exit) := .body hloaded hkept
  exact hbody

/-- A suspended activation runs again once what it has called has returned. -/
theorem Suspended.resume (h : Suspended restore save stackEnd a below)
    (hkept : Kept restore save stackEnd sp (a :: below)) :
    Running restore save stackEnd sp a.fn a.rsp a.vals below a.control := by
  rcases h with ⟨hcontrol, hsave⟩ | ⟨l, exit, hcontrol, hloaded⟩
  · rw [hcontrol]
    exact .outside hsave ((kept_cons hsave).mp hkept)
  · rw [hcontrol]
    exact .of_rest hloaded hkept

/-- Before an inserted instruction the activation is in its prologue or its epilogue. -/
theorem Running.inserted {k : Inserted} {code : List (Inst φ ι)} {exit : Exit β}
    (h : Running restore save stackEnd sp f rsp vals below (.inside (.inserted k :: code) exit)) :
    Running restore save stackEnd (k.eval stackEnd f rsp (vals, sp)).2 f rsp
      (k.eval stackEnd f rsp (vals, sp)).1 below (.inside code exit) := by
  generalize hc : Control.inside (.inserted k :: code) exit = c at h
  cases h with
  | outside => cases hc
  | @epilogue ks hkept =>
    cases ks with
    | nil => cases hc
    | cons k ks =>
      cases hc
      exact .epilogue hkept
  | @body ks l exit' hloaded hkept =>
    cases ks with
    | cons k ks =>
      cases hc
      exact .body hloaded hkept
    | nil =>
      cases l with
      | cons I l => cases hc
      | nil =>
        -- the instructions of the block are at their end
        unfold rest Stacks.epilogue at hc
        split_ifs at hc with hreturns
        · rw [Bool.and_eq_true] at hreturns
          cases exit' with
          | ret =>
            cases hc
            exact .epilogue (hkept.restored rfl hloaded hreturns.1)
          | jump | other => cases hreturns.2
        · cases hc

theorem Running.source {I : CallGraph.Instruction φ ι} {code : List (Inst φ ι)} {exit : Exit β}
    (h : Running restore save stackEnd sp f rsp vals below (.inside (.source I :: code) exit)) :
    Running restore save stackEnd sp f rsp vals below (.inside code exit) :=
  h.suspend.2.resume h.suspend.1

/-- A return is reached after the epilogue if there is one. -/
theorem Running.ret
    (h : Running restore save stackEnd sp f rsp vals below (.inside [] (.ret : Exit β))) :
    Kept restore save stackEnd sp below := by
  generalize hc : Control.inside [] (.ret : Exit β) = c at h
  cases h with
  | outside => cases hc
  | @epilogue ks hkept =>
    injection hc with hcode
    obtain rfl := List.map_eq_nil_iff.mp hcode.symm
    exact hkept
  | @body ks l exit' hloaded hkept =>
    injection hc with hcode hexit
    subst hexit
    obtain ⟨hks, hrest⟩ := List.append_eq_nil_iff.mp hcode.symm
    obtain rfl := List.map_eq_nil_iff.mp hks
    have hepilogue := List.map_eq_nil_iff.mp (List.append_eq_nil_iff.mp hrest).2
    refine hkept.tail ?_
    cases hrestore : restore f with
    | false => rfl
    | true =>
      rw [hrestore] at hepilogue
      cases hepilogue

/-- Nothing is inserted before a jump. -/
theorem Running.jump {l : List (CallGraph.Instruction φ ι)} {succs : List β} {exit : Exit β}
    (h : Running restore save stackEnd sp f rsp vals below (.inside [] (.jump succs))) :
    Running restore save stackEnd sp f rsp vals below (.inside (rest restore f l exit) exit) := by
  generalize hc : Control.inside [] (.jump succs) = c at h
  cases h with
  | outside => cases hc
  | @epilogue ks hkept => injection hc with _ hexit; cases hexit
  | @body ks l exit' hloaded hkept =>
    injection hc with hcode hexit
    obtain ⟨hks, -⟩ := List.append_eq_nil_iff.mp hcode.symm
    obtain rfl := List.map_eq_nil_iff.mp hks
    exact .of_rest hloaded hkept

/-- Every step keeps the invariant. -/
theorem Step.invariant (hP : IsInstrumented restore save P) (h : Step P env stackEnd s s')
    (hs : Invariant restore save stackEnd s) : Invariant restore save stackEnd s' := by
  -- what is below runs again
  have hresume {sp : φ → α} {as : List (Activation φ β ι α)}
      (hkept : Kept restore save stackEnd sp as) (hall : AllSuspended restore save stackEnd as) :
      Invariant restore save stackEnd ⟨sp, as⟩ := by
    cases as with
    | nil => exact hkept
    | cons a below => exact ⟨hall.1.resume hkept, hall.2⟩
  cases h with
  | enter hF rsp vals => exact ⟨Kept.start hP hF hs, trivial⟩
  | inserted => exact ⟨hs.1.inserted, hs.2⟩
  | source hI => exact ⟨hs.1.source, hs.2⟩
  | call hI hG htarget rsp' vals' =>
    obtain ⟨hkept, hsuspended⟩ := hs.1.suspend
    exact ⟨Kept.start hP hG hkept, hsuspended, hs.2⟩
  | callOutside hG hcall rsp' vals' =>
    obtain ⟨hrunning, hall⟩ := hs
    cases hrunning with
    | outside hsave hkept =>
      exact ⟨Kept.start hP hG ((kept_cons hsave).mpr hkept), .inl ⟨rfl, hsave⟩, hall⟩
  | retOutside =>
    obtain ⟨hrunning, hall⟩ := hs
    cases hrunning with
    | outside hsave hkept => exact hresume hkept hall
  | @jump F _ _ _ _ _ B hF hB hlabel =>
    rcases hP F hF with ⟨hblocks, -⟩ | ⟨F₀, -, heq⟩
    · rw [hblocks] at hB
      cases hB
    · rw [heq] at hB
      obtain ⟨B₀, -, rfl⟩ := mem_tail_instrument hB
      exact ⟨hs.1.jump, hs.2⟩
  | ret => exact hresume hs.1.ret hs.2

theorem Reachable.invariant (hP : IsInstrumented restore save P) (h : Reachable P env stackEnd s) :
    Invariant restore save stackEnd s := by
  induction h with
  | refl => exact fun g _ => rfl
  | tail _ hstep ih => exact hstep.invariant hP ih

theorem Reachable.kept (hP : IsInstrumented restore save P) (h : Reachable P env stackEnd s)
    (hsource : s.AtSource) : Kept restore save stackEnd s.sp s.activations := by
  have hs := h.invariant hP
  obtain ⟨sp, activations⟩ := s
  cases activations with
  | nil => exact hs
  | cons a below =>
    obtain ⟨hrunning, -⟩ := hs
    obtain ⟨f, rsp, vals, control⟩ := a
    cases control with
    | outside =>
      cases hrunning with
      | outside hsave hkept => exact (kept_cons hsave).mpr hkept
    | inside code exit =>
      obtain ⟨I, code, rfl⟩ := hsource _ rfl code exit rfl
      exact hrunning.suspend.1

end Invariant

/-! ## The Call Stack -/

section CallStack

variable {φ β ι α : Type} [LinearOrder φ] [LinearOrder α] {S : Setup φ ι}
  {M₀ : Module φ β (CallGraph.Instruction φ ι)} {P : Module φ β (Inst φ ι)}
  {env : CallGraph.Env φ ι} {stackEnd : φ → α} {s s' : State φ β ι α}

theorem exists_instruments {Fs : List (Function φ β (CallGraph.Instruction φ ι))}
    {Gs : List (Function φ β (Inst φ ι))} (h : List.Forall₂ (Instruments S M₀) Fs Gs)
    {G : Function φ β (Inst φ ι)} (hG : G ∈ Gs) : ∃ F ∈ Fs, Instruments S M₀ F G := by
  induction h with
  | nil => cases hG
  | @cons F G' Fs Gs hF _ ih =>
    rcases List.mem_cons.mp hG with rfl | hG
    · exact ⟨F, List.mem_cons_self, hF⟩
    · obtain ⟨F', hF', hinst⟩ := ih hG
      exact ⟨F', List.mem_cons_of_mem _ hF', hinst⟩

/-- The instructions that are left are those of the function. -/
def Control.Within (F : Function φ β (CallGraph.Instruction φ ι)) : Control φ β ι → Prop
  | .outside => F.isDeclaration = true
  | .inside code _ => ∀ I, .source I ∈ code → I ∈ F.instructions

def Activation.Within (M₀ : Module φ β (CallGraph.Instruction φ ι))
    (a : Activation φ β ι α) : Prop :=
  ∃ F ∈ M₀.functions, F.name = a.fn ∧ a.control.Within F

omit [LinearOrder φ] in
theorem mem_instrument {B : Block β (CallGraph.Instruction φ ι)} {r : Bool} {ks : List Inserted}
    {I : CallGraph.Instruction φ ι} (h : .source I ∈ (B.instrument r ks).body) : I ∈ B.body := by
  unfold Block.instrument at h
  simpa using h

/-- Where an activation begins. -/
theorem Instruments.start {F : Function φ β (CallGraph.Instruction φ ι)}
    {G : Function φ β (Inst φ ι)} (h : Instruments S M₀ F G) : G.start.Within F := by
  unfold Instruments at h
  unfold Function.isDeclaration at h
  cases hblocks : F.blocks with
  | nil =>
    rw [hblocks, List.isEmpty_nil, if_pos rfl] at h
    have hstart : G.start = .outside := by
      rw [h]
      unfold Function.start Function.map
      rw [hblocks]
      rfl
    rw [hstart]
    change F.isDeclaration = true
    unfold Function.isDeclaration
    rw [hblocks]
    rfl
  | cons B Bs =>
    rw [hblocks, List.isEmpty_cons, if_neg Bool.false_ne_true] at h
    obtain ⟨r, v, -, -, rfl⟩ := h
    rw [start_instrument hblocks]
    intro I hI
    have hbody : I ∈ B.body := by simpa using hI
    exact List.mem_flatMap.mpr ⟨B, hblocks ▸ List.mem_cons_self, hbody⟩

/-- Where an activation goes on. -/
theorem Instruments.jump {F : Function φ β (CallGraph.Instruction φ ι)}
    {G : Function φ β (Inst φ ι)} (h : Instruments S M₀ F G) {B : Block β (Inst φ ι)}
    (hB : B ∈ G.blocks.tail) : (Control.inside B.body B.exit).Within F := by
  unfold Instruments at h
  split_ifs at h with hdecl
  · have hnil : F.blocks = [] := List.isEmpty_iff.mp hdecl
    rw [h] at hB
    simp [Function.map, hnil] at hB
  · obtain ⟨r, v, -, -, rfl⟩ := h
    obtain ⟨B₀, hB₀, rfl⟩ := mem_tail_instrument hB
    exact fun I hI => List.mem_flatMap.mpr ⟨B₀, hB₀, mem_instrument hI⟩

omit [LinearOrder φ] in
/-- A call that the instructions of a function make. -/
theorem calls_of_mem {F : Function φ β (CallGraph.Instruction φ ι)} (hF : F ∈ M₀.functions)
    {I : CallGraph.Instruction φ ι} (hI : I ∈ F.instructions) {i : ι} {target : Option φ}
    (hsite : I.callSite = some (i, target)) {g : φ}
    (htarget : target = some g ∨ target = none ∧ env.indirect F.name i g) :
    (M₀.embed.toCallGraph S).Calls env F.name g := by
  have hmem : (F.map Inst.source).toCallGraph S ∈ (M₀.embed.toCallGraph S).functions :=
    List.mem_map_of_mem (List.mem_map_of_mem hF)
  have hcall : (i, target) ∈ ((F.map Inst.source).toCallGraph S).callSites := by
    refine List.mem_filterMap.mpr ⟨I, ?_, hsite⟩
    rw [instructions_toCallGraph]
    refine List.mem_map.mpr ⟨.source I, ?_, rfl⟩
    obtain ⟨B, hB, hI⟩ := List.mem_flatMap.mp hI
    exact List.mem_flatMap.mpr ⟨_, List.mem_map_of_mem hB, List.mem_map_of_mem hI⟩
  rcases htarget with rfl | ⟨rfl, hindirect⟩
  · exact .direct hmem hcall
  · exact .indirect hmem hcall hindirect

/-- A step calls along the call relation, returns, or leaves the active functions as they are. -/
theorem Step.callStack (hP : List.Forall₂ (Instruments S M₀) M₀.functions P.functions)
    (h : Step P env stackEnd s s') (hs : ∀ a ∈ s.activations, a.Within M₀) :
    (∀ a ∈ s'.activations, a.Within M₀) ∧
      ReflTransGen (CallStack.Step ((M₀.embed.toCallGraph S).Calls env))
        (s.activations.map (·.fn)) (s'.activations.map (·.fn)) := by
  have hstart {G : Function φ β (Inst φ ι)} (hG : G ∈ P.functions) (rsp : α)
      (vals : Inserted → α) : Activation.Within M₀ ⟨G.name, rsp, vals, G.start⟩ := by
    obtain ⟨F, hF, hinst⟩ := exists_instruments hP hG
    exact ⟨F, hF, hinst.name.symm, hinst.start⟩
  cases h with
  | enter hF rsp vals =>
    exact ⟨List.forall_mem_cons.mpr ⟨hstart hF rsp vals, hs⟩, .single (.enter _)⟩
  | inserted =>
    obtain ⟨⟨F, hF, hname, hwithin⟩, hbelow⟩ := List.forall_mem_cons.mp hs
    exact ⟨List.forall_mem_cons.mpr ⟨⟨F, hF, hname, fun I hI => hwithin I (.tail _ hI)⟩, hbelow⟩,
      .refl⟩
  | source _ =>
    obtain ⟨⟨F, hF, hname, hwithin⟩, hbelow⟩ := List.forall_mem_cons.mp hs
    exact ⟨List.forall_mem_cons.mpr ⟨⟨F, hF, hname, fun I hI => hwithin I (.tail _ hI)⟩, hbelow⟩,
      .refl⟩
  | call hI hG htarget rsp' vals' =>
    obtain ⟨⟨F, hF, hname, hwithin⟩, hbelow⟩ := List.forall_mem_cons.mp hs
    refine ⟨List.forall_mem_cons.mpr ⟨hstart hG rsp' vals', List.forall_mem_cons.mpr
      ⟨⟨F, hF, hname, fun I hI => hwithin I (.tail _ hI)⟩, hbelow⟩⟩, .single (.call ?_)⟩
    dsimp only at hname ⊢
    rw [← hname] at htarget ⊢
    exact calls_of_mem hF (hwithin _ List.mem_cons_self) hI htarget
  | callOutside hG hcall rsp' vals' =>
    obtain ⟨⟨F, hF, hname, hdecl⟩, hbelow⟩ := List.forall_mem_cons.mp hs
    refine ⟨List.forall_mem_cons.mpr ⟨hstart hG rsp' vals', hs⟩, .single (.call ?_)⟩
    dsimp only at hname ⊢
    rw [← hname] at hcall ⊢
    refine .external (F := (F.map Inst.source).toCallGraph S)
      (List.mem_map_of_mem (List.mem_map_of_mem hF)) ?_ hcall
    rw [isDeclaration_toCallGraph, isDeclaration_map]
    exact hdecl
  | retOutside => exact ⟨(List.forall_mem_cons.mp hs).2, .single .ret⟩
  | jump hF hB hlabel =>
    obtain ⟨-, hbelow⟩ := List.forall_mem_cons.mp hs
    obtain ⟨F, hF, hinst⟩ := exists_instruments hP hF
    exact ⟨List.forall_mem_cons.mpr ⟨⟨F, hF, hinst.name.symm, hinst.jump hB⟩, hbelow⟩, .refl⟩
  | ret => exact ⟨(List.forall_mem_cons.mp hs).2, .single .ret⟩

/-- The active functions of a run are a call stack. -/
theorem Reachable.callStack (hP : List.Forall₂ (Instruments S M₀) M₀.functions P.functions)
    (h : Reachable P env stackEnd s) : (∀ a ∈ s.activations, a.Within M₀) ∧
      CallStack.Reachable ((M₀.embed.toCallGraph S).Calls env) (s.activations.map (·.fn)) := by
  induction h with
  | refl => exact ⟨List.forall_mem_nil _, .refl⟩
  | tail _ hstep ih =>
    obtain ⟨hwithin, hstack⟩ := hstep.callStack hP ih.1
    exact ⟨hwithin, ih.2.trans hstack⟩

/-- An answer, if there is one. -/
def answer (x : Exec Bool) : Bool :=
  match x with
  | .ok b => b
  | .error _ => false

theorem Module.function?_of_mem {κ : Type} {M : Module φ β κ} {F : Function φ β κ}
    (hF : F ∈ M.functions) : M.function? F.name = some F := by
  cases hfind : M.function? F.name with
  | none =>
    have hnone := List.find?_eq_none.mp hfind F hF
    simp at hnone
  | some G =>
    obtain ⟨hG, hname⟩ := Module.function?_eq_some hfind
    rw [List.inj_on_of_nodup_map M.names_nodup hG hF hname]

/-- A declaration saves nothing. -/
theorem shouldSaveNewSP_declaration {F : Function φ β (CallGraph.Instruction φ ι)}
    (hF : F ∈ M₀.functions) (hdecl : F.isDeclaration = true) :
    shouldSaveNewSP S M₀.embed F.name = .ok false := by
  have hnil : F.blocks = [] := List.isEmpty_iff.mp hdecl
  unfold shouldSaveNewSP
  rw [function?_embed, Module.function?_of_mem hF]
  simp only [Option.map_some, instructions_toCallGraph, Function.instructions, Function.map, hnil]
  rfl

theorem isInstrumented (hP : List.Forall₂ (Instruments S M₀) M₀.functions P.functions) :
    IsInstrumented (fun f => answer (shouldRestoreOldSP S M₀.embed f))
      (fun f => answer (shouldSaveNewSP S M₀.embed f)) P := by
  intro G hG
  obtain ⟨F, hF, hinst⟩ := exists_instruments hP hG
  have hname := hinst.name
  unfold Instruments at hinst
  dsimp only
  split_ifs at hinst with hdecl
  · have hnil : F.blocks = [] := List.isEmpty_iff.mp hdecl
    rw [hname, shouldSaveNewSP_declaration hF hdecl]
    refine .inl ⟨?_, rfl⟩
    rw [hinst]
    unfold Function.map
    rw [hnil]
    rfl
  · obtain ⟨restore, save, hrestore, hsave, heq⟩ := hinst
    refine .inr ⟨F, fun hnil => hdecl (List.isEmpty_iff.mpr hnil), ?_⟩
    rw [hname, hrestore, hsave]
    exact heq

end CallStack

/-! ## What the Stack Pointers Are -/

section StackPointers

variable {φ β ι α : Type} [LinearOrder φ] [LinearOrder α] {S : Setup φ ι}
  {M₀ : Module φ β (CallGraph.Instruction φ ι)} {P : Module φ β (Inst φ ι)}
  {env : CallGraph.Env φ ι} {stackEnd : φ → α} {s : State φ β ι α}

/-- Wherever no inserted instruction is next, a function with a stack of its own either begins at
the end of it and is active at most once, or its stack pointer is what the innermost activation has
saved, up to what is cut off at the end of the stack. -/
theorem stackPointer_innermost (hN : NamesIntrinsics S (M₀.embed.toCallGraph S))
    (hfps : S.fps = true) (hassume : CallGraph.Assumptions (M₀.embed.toCallGraph S) env)
    {changed : Bool} (hret : runOnModule S M₀.embed = .ok (changed, P))
    (h : Reachable P env stackEnd s) (hsource : s.AtSource) {G : Function φ β (Inst φ ι)}
    (hG : G ∈ P.functions) (hdef : G.isDeclaration = false) :
    (G.fpsUsestack = true ∧ (s.activations.map (·.fn)).count G.name ≤ 1) ∨
      ∃ save, shouldSaveNewSP S M₀.embed G.name = .ok save ∧
        min (stackEnd G.name) (s.sp G.name) =
          min (stackEnd G.name) (innermost stackEnd save G.name s.activations) := by
  obtain ⟨-, hP⟩ := runOnModule_instruments hN hfps hret
  obtain ⟨F, hF, hinst⟩ := exists_instruments hP hG
  have hname := hinst.name
  unfold Instruments at hinst
  split_ifs at hinst with hdecl
  · rw [hinst, isDeclaration_map, hdecl] at hdef
    cases hdef
  · obtain ⟨restore, save, hrestore, hsave, heq⟩ := hinst
    cases restore with
    | true =>
      have hkept := h.kept (isInstrumented hP) hsource G.name
      rw [hname, hrestore, hsave] at hkept
      rw [hname]
      exact .inr ⟨save, hsave, hkept rfl⟩
    | false =>
      refine .inl ⟨by rw [heq]; simp [Function.instrument], ?_⟩
      unfold shouldRestoreOldSP at hrestore
      rw [function?_embed, Module.function?_of_mem hF] at hrestore
      obtain ⟨b, hcheck, hb⟩ := Exec.bind_eq_ok.mp hrestore
      have hb' : b = true := by simpa using Except.ok.inj hb
      rw [hb'] at hcheck
      have hacyclic := hassume.not_transGen (List.mem_map_of_mem (List.mem_map_of_mem hF)) hcheck
      rw [hname]
      exact (h.callStack hP).2.count_le_one hacyclic

/-- A function that calls itself, and the intrinsics. -/
def selfCall : Module Nat Nat (CallGraph.Instruction Nat Nat) where
  functions :=
    [⟨0, false, false, false, false, [⟨0, [.call 0 .call [] (.function 0), .other 1 []], .ret⟩]⟩,
      ⟨1, false, true, false, false, []⟩, ⟨2, false, true, false, false, []⟩]
  names_nodup := by decide

def selfCallSetup : Setup Nat Nat where
  fps := true
  fuel := 4
  isAssumeLikeIntrinsic _ := false
  intrinsicID _ := .trap
  readRegister := 1
  umin := 2
  id _ _ := 2

def selfCallEnv : CallGraph.Env Nat Nat where
  indirect _ _ _ := False
  external _ _ := False

theorem selfCall_assumptions :
    CallGraph.Assumptions (selfCall.embed.toCallGraph selfCallSetup) selfCallEnv where
  norecurse F hF hattr := by
    have hnone : ∀ G ∈ (selfCall.embed.toCallGraph selfCallSetup).functions,
        G.norecurse = false := by decide
    rw [hnone F hF] at hattr
    cases hattr
  intrinsic F hF hintrinsic g hcalls := by
    have hsites : ∀ G ∈ (selfCall.embed.toCallGraph selfCallSetup).functions,
        G.isIntrinsic = true → G.callSites = [] := by decide
    generalize hname : F.name = f at hcalls
    cases hcalls with
    | direct hG h =>
      obtain rfl := CallGraph.Module.eq_of_name hF hG hname
      rw [hsites F hF hintrinsic] at h
      cases h
    | indirect _ _ h => exact h
    | external _ _ h => exact h

theorem stackPointer_innermost_selfCall : ∃ P,
    runOnModule selfCallSetup selfCall.embed = .ok (true, P) ∧
      ∃ s : State Nat Nat Nat Nat, Reachable P selfCallEnv (fun _ => 100) s ∧ s.AtSource ∧
        s.activations.map (·.fn) = [0, 0] ∧ ∀ G ∈ P.functions, G.isDeclaration = false →
          (G.fpsUsestack = true ∧ (s.activations.map (·.fn)).count G.name ≤ 1) ∨
            ∃ save, shouldSaveNewSP selfCallSetup selfCall.embed G.name = .ok save ∧
              min 100 (s.sp G.name) =
                min 100 (innermost (fun _ => 100) save G.name s.activations) := by
  let P : Module Nat Nat (Inst Nat Nat) :=
    ⟨selfCall.functions.map fun F =>
      if F.isDeclaration then F.map .source else F.instrument true true, by decide⟩
  have hret : runOnModule selfCallSetup selfCall.embed = .ok (true, P) := rfl
  let F : Function Nat Nat (Inst Nat Nat) :=
    ⟨0, false, false, true, false, [⟨0, (prologue true true).map .inserted ++
      [.source (.call 0 .call [] (.function 0)), .source (.other 1 [])] ++
        restored.map .inserted, .ret⟩]⟩
  have hF : F ∈ P.functions := .head _
  -- the function is entered and calls itself
  obtain ⟨s, hrun, hsource, hactive⟩ : ∃ s : State Nat Nat Nat Nat,
      Reachable P selfCallEnv (fun _ => 100) s ∧ s.AtSource ∧ s.activations.map (·.fn) = [0, 0] := by
    refine ⟨_, (((ReflTransGen.single (.enter hF 90 fun _ => 0)).trans
      (reflTransGen_evals (prologue true true))).tail
        (.call (i := 0) rfl hF (.inl rfl) 80 fun _ => 0)).trans
          (reflTransGen_evals (prologue true true)), ?_, rfl⟩
    intro a ha code exit hcontrol
    cases ha
    cases hcontrol
    exact ⟨_, _, rfl⟩
  exact ⟨P, hret, s, hrun, hsource, hactive, fun G hG hdef =>
    stackPointer_innermost ⟨rfl, rfl⟩ rfl selfCall_assumptions hret hrun hsource hG hdef⟩

end StackPointers

end Clou.Stacks
