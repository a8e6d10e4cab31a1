-- SUMMARY: A chain of functions at whose end the inline counts overflow, and the loop does not keep to its limit.
import Serberus.Inlining.Terminates

/-!
# Inline Counts That Overflow

The counts are `unsigned`. A function that calls an empty function 99 times, and then the
function before it, gets a count that is 100 greater than the count of that function. At the
end of a chain of such functions a count is the greatest that there is: to inline a call of
that function adds nothing to the count of the caller, and the limit never stops the loop.
-/

namespace Clou.Inlining

open CallGraph (Value getCalledFunction)
open ControlFlow

/-! ## Stores and Calls -/

section Lines

variable {φ : Type} {f : φ} {targets targets' : List φ} {ks ks' : List (Kind φ Nat)}
  {B C : Body Unit φ Nat}

/-- Instructions that are stores, and calls of the given functions. -/
inductive Line : List φ → List (Kind φ Nat) → Prop
  | nil : Line [] []
  | store {targets : List φ} {ks : List (Kind φ Nat)} {value ptr : Value φ Nat}
      (h : Line targets ks) : Line targets (.store value ptr :: ks)
  | call {f : φ} {targets : List φ} {ks : List (Kind φ Nat)} (h : Line targets ks) :
      Line (f :: targets) (.call true (.function f) :: ks)

theorem Line.append (h : Line targets ks) (h' : Line targets' ks') :
    Line (targets ++ targets') (ks ++ ks') := by
  induction h with
  | nil => exact h'
  | store _ ih => exact ih.store
  | call _ ih => exact ih.call

theorem Line.first (h : Line (f :: targets) ks) : ∃ pre post,
    ks = pre ++ .call true (.function f) :: post ∧ Line [] pre ∧ Line targets post := by
  generalize hcalls : f :: targets = calls at h
  induction h with
  | nil => cases hcalls
  | store _ ih =>
    obtain ⟨pre, post, rfl, hpre, hpost⟩ := ih hcalls
    exact ⟨_ :: pre, post, rfl, hpre.store, hpost⟩
  | @call _ _ ks h _ =>
    cases hcalls
    exact ⟨[], ks, rfl, .nil, h⟩

theorem Line.isStore {k : Kind φ Nat} (h : Line ([] : List φ) ks) (hk : k ∈ ks) :
    ∃ value ptr, k = .store value ptr := by
  generalize hcalls : ([] : List φ) = calls at h
  induction h with
  | nil => cases hk
  | @store _ _ value ptr _ ih =>
    rcases List.mem_cons.mp hk with rfl | hk
    · exact ⟨value, ptr, rfl⟩
    · exact ih hk hcalls
  | call => cases hcalls

theorem Line.shift (h : Line ([] : List φ) ks) (base : Nat) :
    Line [] (ks.map (shiftKind base)) := by
  generalize hcalls : ([] : List φ) = calls at h ⊢
  induction h with
  | nil => exact .nil
  | store _ ih => exact (ih hcalls).store
  | call => cases hcalls

theorem line_calls (targets : List φ) :
    Line targets (targets.map fun f => .call true (.function f)) := by
  induction targets with
  | nil => exact .nil
  | cons f targets ih => exact ih.call

/-- A body of one block: a store, then stores and calls of the given functions, and a return. -/
structure Shape (targets : List φ) (B : Body Unit φ Nat) : Prop where
  straight : B.IsStraight
  starts : ∃ value ptr, (B.cfg.entry.body.map B.kind).head? = some (.store value ptr)
  calls : Line targets (B.cfg.entry.body.map B.kind)
  ends : B.kind B.cfg.entry.terminator = .ret

theorem shape_line (targets : List φ) : Shape targets (line targets) := by
  have hkinds : (line targets).cfg.entry.body.map (line targets).kind =
      .store (.argument 0) (.argument 1) :: targets.map fun f => .call true (.function f) := by
    have hbody : (line targets).cfg.entry.body = 0 :: (List.range targets.length).map (· + 1) :=
      List.range_succ_eq_map
    rw [hbody, List.map_cons, List.map_map]
    refine congrArg (_ :: ·) (List.ext_getElem (by simp) fun i hi _ => ?_)
    have hi : i < targets.length := by simpa using hi
    simp [line, hi]
  refine ⟨rfl, ⟨.argument 0, .argument 1, by rw [hkinds]; rfl⟩, ?_, ?_⟩
  · exact hkinds ▸ (line_calls targets).store
  · simp [line]

/-- Where a body calls its first function. -/
structure FirstCall (B : Body Unit φ Nat) (f : φ) (targets : List φ) (pre : List Nat) (CB : Nat)
    (post : List Nat) : Prop where
  body : B.cfg.entry.body = pre ++ CB :: post
  nonempty : pre ≠ []
  before : Line ([] : List φ) (pre.map B.kind)
  call : B.kind CB = .call true (.function f)
  behind : Line targets (post.map B.kind)

theorem Shape.firstCall (h : Shape (f :: targets) B) :
    ∃ pre CB post, FirstCall B f targets pre CB post := by
  obtain ⟨preKinds, postKinds, hkinds, hpre, hpost⟩ := h.calls.first
  obtain ⟨pre, rest, hbody, rfl, hrest⟩ := List.map_eq_append_iff.mp hkinds
  obtain ⟨CB, post, rfl, hcall, rfl⟩ := List.map_eq_cons_iff.mp hrest
  refine ⟨pre, CB, post, hbody, fun hnil => ?_, hpre, hcall, hpost⟩
  obtain ⟨value, ptr, hstarts⟩ := h.starts
  subst hnil
  simp [hbody, hcall] at hstarts

theorem FirstCall.instructions {pre post : List Nat} {CB : Nat} (hB : B.IsStraight)
    (h : FirstCall B f targets pre CB post) :
    B.cfg.instructions = pre ++ CB :: (post ++ [B.cfg.entry.terminator]) := by
  rw [hB.instructions, h.body, List.append_assoc, List.cons_append]

theorem FirstCall.not_mem {pre post : List Nat} {CB : Nat} (h : FirstCall B f targets pre CB post) :
    CB ∉ pre := by
  intro hmem
  obtain ⟨value, ptr, hstore⟩ := h.before.isStore (List.mem_map_of_mem hmem)
  rw [h.call] at hstore
  cases hstore

/-- Inlining a body without calls takes the first call out of the body of the caller. -/
theorem Shape.splice {pre post : List Nat} {CB : Nat} (hB : Shape (f :: targets) B)
    (h : FirstCall B f targets pre CB post) (hC : Shape [] C) :
    Shape targets (splice B C hB.straight hC.straight CB) := by
  have hinstructions := h.instructions hB.straight
  have hbody : spliceList B.cfg.entry.body CB B.fresh C.cfg.entry.body =
      pre ++ C.cfg.entry.body.map (B.fresh + ·) ++ post := by
    have hpre : ∀ i ∈ pre, decide (i ≠ CB) = true := fun i hi =>
      decide_eq_true fun heq => h.not_mem (heq ▸ hi)
    rw [spliceList, h.body, List.takeWhile_append_of_pos hpre, List.dropWhile_append_of_pos hpre]
    simp
  -- The instructions of the caller keep their kinds, and copies are above all of them.
  have hold {l : List Nat} (hl : ∀ i ∈ l, i ∈ B.cfg.instructions) :
      l.map (Inlining.splice B C hB.straight hC.straight CB).kind = l.map B.kind :=
    List.map_congr_left fun i hi => if_pos (hl i hi)
  have hnew : (C.cfg.entry.body.map (B.fresh + ·)).map
      (Inlining.splice B C hB.straight hC.straight CB).kind =
      (C.cfg.entry.body.map C.kind).map (shiftKind B.fresh) := by
    rw [List.map_map, List.map_map]
    refine List.map_congr_left fun i _ => ?_
    have hmem : B.fresh + i ∉ B.cfg.instructions := fun hi => by
      have hlt := Body.lt_fresh hi
      omega
    exact (if_neg hmem).trans (by rw [Nat.add_sub_cancel_left]; rfl)
  have hkinds : (Inlining.splice B C hB.straight hC.straight CB).cfg.entry.body.map
      (Inlining.splice B C hB.straight hC.straight CB).kind =
      pre.map B.kind ++ (C.cfg.entry.body.map C.kind).map (shiftKind B.fresh) ++ post.map B.kind := by
    change (spliceList B.cfg.entry.body CB B.fresh C.cfg.entry.body).map _ = _
    rw [hbody, List.map_append, List.map_append, hnew, hold, hold]
    · exact fun i hi => by simp [hinstructions, hi]
    · exact fun i hi => by simp [hinstructions, hi]
  obtain ⟨value, ptr, hstarts⟩ := hB.starts
  refine ⟨rfl, ⟨value, ptr, ?_⟩, ?_, ?_⟩
  · obtain ⟨i, pre, rfl⟩ := List.exists_cons_of_ne_nil h.nonempty
    rw [hkinds]
    simpa [h.body] using hstarts
  · rw [hkinds]
    exact (h.before.append (hC.calls.shift _)).append h.behind
  · have hlast : B.cfg.entry.terminator ∈ B.cfg.instructions := by simp [hinstructions]
    exact (if_pos hlast).trans hB.ends

end Lines

/-! ## The Call That Is Picked -/

section Picked

variable {φ : Type} {f : φ} {targets : List φ} {B : Body Unit φ Nat}
  {bodies : Bodies Unit φ Nat}

/-- Up to the first call control goes from one instruction to the next. -/
theorem FirstCall.successorsInst {pre post before behind : List Nat} {CB i j : Nat}
    (h : FirstCall B f targets pre CB post) (heq : pre ++ [CB] = before ++ i :: j :: behind) :
    B.cfg.successorsInst i = [j] := by
  have hentry : B.cfg.entry.instructions = (pre ++ [CB]) ++ (post ++ [B.cfg.entry.terminator]) := by
    rw [BasicBlock.instructions, h.body]
    simp
  have hnext : B.cfg.entry.instructions = before ++ i :: j ::
      (behind ++ (post ++ [B.cfg.entry.terminator])) := by
    rw [hentry, heq]
    simp
  rw [CFG.successorsInst_eq, CFG.getNextNode_eq List.mem_cons_self hnext]

/-- From the first instruction the search comes to the first call. -/
theorem Shape.handleSecretStore {pre post : List Nat} {CB : Nat} (hB : Shape (f :: targets) B)
    (h : FirstCall B f targets pre CB post) (hf : (bodies f).isSome = true) {SI : Nat}
    (hSI : pre.head? = some SI) : handleSecretStore allSecret bodies ∅ B SI = .ok (some CB) := by
  have hinstructions := h.instructions hB.straight
  have hnodup : B.cfg.instructions.Nodup := B.cfg.instructions_nodup
  have hstart : [SI] = (pre ++ [CB]).head?.toList := by
    rw [List.head?_append, hSI]
    rfl
  have hgo : ∀ i ∈ pre, visitFromStore allSecret bodies ∅ B i = .go := by
    intro i hi
    obtain ⟨value, ptr, hstore⟩ := h.before.isStore (List.mem_map_of_mem hi)
    simp [visitFromStore, hstore]
  have hstop : visitFromStore allSecret bodies ∅ B CB = .stop (.ok CB) := by
    have hsome : (bodies f).isNone = false := by simpa using hf
    have hempty : CB ∉ (∅ : OrdSet Nat) := OrdSet.not_mem_empty CB
    simp [visitFromStore, h.call, getCalledFunction, CallGraph.getCalledFunctionRec, pure,
      Except.pure, hsome, hempty]
  have hsweep : Search.sweepFor (visitFromStore allSecret bodies ∅ B) B.cfg.successorsInst
      B.searchFuel (pre ++ [CB]).head?.toList [] = some (some (.ok CB)) := by
    refine Search.sweepFor_chain ?_ (by simp) hgo (fun _ _ _ _ heq => h.successorsInst heq) hstop ?_
    · refine hnodup.sublist ?_
      rw [hinstructions]
      exact (List.sublist_append_left [CB] _).append_left pre
    · have hlength := congrArg List.length hinstructions
      simp only [List.length_append, List.length_cons] at hlength
      unfold Body.searchFuel
      omega
  rw [← hstart] at hsweep
  simp only [Inlining.handleSecretStore, Body.search, hsweep]
  rfl

theorem Shape.getCallToInline {pre post : List Nat} {CB : Nat} (hB : Shape (f :: targets) B)
    (h : FirstCall B f targets pre CB post) (hf : (bodies f).isSome = true) :
    getCallToInline allSecret bodies ∅ B = .ok (some CB) := by
  obtain ⟨i, pre, rfl⟩ := List.exists_cons_of_ne_nil h.nonempty
  obtain ⟨value, ptr, hstore⟩ := h.before.isStore (List.mem_map_of_mem List.mem_cons_self)
  have hsecret : B.isSecretStore allSecret i = true := by
    simp [Body.isSecretStore, hstore, allSecret]
  simp [Inlining.getCallToInline, h.instructions hB.straight, firstFromStores, hsecret,
    hB.handleSecretStore h hf rfl, bind, Except.bind, pure, Except.pure]

/-- A body without calls: nothing stops a search. -/
theorem Shape.noCall (hB : Shape [] B) : ∀ i ∈ B.cfg.instructions,
    (∃ value ptr, B.kind i = .store value ptr) ∨ B.kind i = .ret := by
  intro i hi
  rw [hB.straight.instructions] at hi
  rcases List.mem_append.mp hi with hi | hi
  · exact .inl (hB.calls.isStore (List.mem_map_of_mem hi))
  · exact .inr (List.mem_singleton.mp hi ▸ hB.ends)

/-- So no search finds a call. -/
theorem Shape.handleSecretStore_nil (hB : Shape [] B) {SI : Nat} (hSI : SI ∈ B.cfg.instructions) :
    Inlining.handleSecretStore allSecret bodies ∅ B SI = .ok none := by
  obtain ⟨r, hret, hstop⟩ := B.search_spec (visitFromStore allSecret bodies ∅ B)
    (List.nodup_singleton SI) (fun i hi => List.mem_singleton.mp hi ▸ hSI)
  unfold Inlining.handleSecretStore
  rw [hret]
  cases r with
  | none => rfl
  | some CB =>
    obtain ⟨i, hi, hvisit⟩ := hstop CB rfl
    rcases hB.noCall i hi with ⟨value, ptr, hkind⟩ | hkind
    · simp [visitFromStore, hkind] at hvisit
    · simp [visitFromStore, hkind] at hvisit

theorem Shape.getCallToInline_nil (hB : Shape [] B) :
    Inlining.getCallToInline allSecret bodies ∅ B = .ok none := by
  have hfirst (is : List Nat) (his : ∀ i ∈ is, i ∈ B.cfg.instructions) :
      firstFromStores allSecret bodies ∅ B is = .ok none := by
    induction is with
    | nil => rfl
    | cons i is ih =>
      obtain ⟨hi, his⟩ := List.forall_mem_cons.mp his
      unfold firstFromStores
      rw [hB.handleSecretStore_nil hi]
      split_ifs
      · exact ih his
      · exact ih his
  have hbeneficial (is : List Nat) (his : ∀ i ∈ is, i ∈ B.cfg.instructions) :
      firstBeneficial allSecret bodies ∅ B is = .ok none := by
    induction is with
    | nil => rfl
    | cons i is ih =>
      obtain ⟨hi, his⟩ := List.forall_mem_cons.mp his
      unfold firstBeneficial
      rcases hB.noCall i hi with ⟨value, ptr, hkind⟩ | hkind
      · rw [hkind]
        exact ih his
      · rw [hkind]
        exact ih his
  unfold Inlining.getCallToInline
  rw [hfirst _ fun _ hi => hi]
  exact hbeneficial _ fun _ hi => hi

end Picked

/-! ## Counts -/

section Counts

variable {φ : Type} [DecidableEq φ] {F f : φ} {targets : List φ} {counts : φ → UInt32} {c c' d : UInt32}

/-- The count after the calls have been inlined one after the other, when the limit does not
stop the loop before. -/
def charge (counts : φ → UInt32) : List φ → UInt32 → Option UInt32
  | [], c => some c
  | f :: targets, c =>
    if c < inlineLimit then charge counts targets (c + (counts f + 1)) else none

omit [DecidableEq φ] in
theorem charge_congr {counts' : φ → UInt32} (h : ∀ f ∈ targets, counts f = counts' f) :
    charge counts targets c = charge counts' targets c := by
  induction targets generalizing c with
  | nil => rfl
  | cons f targets ih =>
    obtain ⟨hf, h⟩ := List.forall_mem_cons.mp h
    rw [charge, charge, hf, ih h]

omit [DecidableEq φ] in
theorem charge_replicate {n : Nat} (hd : counts f + 1 = d)
    (hlimit : ∀ j < n, c + UInt32.ofNat j * d < inlineLimit) :
    charge counts (List.replicate n f ++ targets) c = charge counts targets (c + UInt32.ofNat n * d) := by
  induction n generalizing c with
  | zero => simp
  | succ n ih =>
    have hzero : c < inlineLimit := by simpa using hlimit 0 (Nat.succ_pos n)
    have hnext (j : Nat) : c + d + UInt32.ofNat j * d = c + UInt32.ofNat (j + 1) * d := by
      rw [UInt32.ofNat_add, UInt32.add_mul, UInt32.add_assoc, UInt32.add_comm d]
      simp
    rw [List.replicate_succ, List.cons_append, charge, if_pos hzero, hd, ih fun j hj => ?_, hnext]
    exact hnext j ▸ hlimit (j + 1) (Nat.succ_lt_succ hj)

variable {s : State Unit φ Nat} {B : Body Unit φ Nat}

/-- A call of a function without calls is inlined while the count is below the limit. -/
theorem step_inlines (hskip : s.skip = ∅) (hB : s.bodies F = some B) (hshape : Shape (f :: targets) B)
    (hne : f ≠ F) {C : Body Unit φ Nat} (hC : s.bodies f = some C) (hCshape : Shape [] C)
    (hlimit : s.counts F < inlineLimit) :
    ∃ CB B', Shape targets B' ∧ step false allSecret inlineStraight F s = .ok (some (.inlined CB f,
      { s with
        bodies := Function.update s.bodies F (some B')
        counts := Function.update s.counts F (s.counts F + (s.counts f + 1)) })) := by
  obtain ⟨pre, CB, post, hfirst⟩ := hshape.firstCall
  refine ⟨CB, _, hshape.splice hfirst hCshape, ?_⟩
  have hpick : getCallToInline allSecret s.bodies s.skip B = .ok (some CB) := by
    rw [hskip]
    exact hshape.getCallToInline hfirst (by rw [hC]; rfl)
  have hempty : CB ∉ s.skip := hskip ▸ OrdSet.not_mem_empty CB
  have hcallee : B.callee CB = some f := by
    simp [Body.callee, hfirst.call, CallGraph.Value.target]
  have hinline : inlineStraight s.bodies F CB =
      some (splice B C hshape.straight hCshape.straight CB) := by
    simp [inlineStraight, hB, hcallee, hC, hshape.straight, hCshape.straight]
  unfold step
  rw [hB]
  simp [hpick, UInt32.not_le.mpr hlimit, hfirst.call, handleCall, assert_of hempty,
    getCalledFunction, CallGraph.getCalledFunctionRec, hC, hne, inlineCall, hinline, bind,
    Except.bind, pure, Except.pure]

/-- The induction is on the calls: each iteration inlines the first of them. -/
theorem loop_inlines (hskip : s.skip = ∅) (hB : s.bodies F = some B) (hshape : Shape targets B)
    (hcallees : ∀ f ∈ targets, f ≠ F ∧ ∃ C, s.bodies f = some C ∧ Shape [] C)
    (hcharge : charge s.counts targets (s.counts F) = some c) :
    ∃ fuel actions B', Shape [] B' ∧ actions.countP (·.isInlined) = targets.length ∧
      loop false allSecret inlineStraight F fuel s = .ok (actions,
        { s with
          bodies := Function.update s.bodies F (some B')
          counts := Function.update s.counts F c }) := by
  induction targets generalizing s B with
  | nil =>
    cases hcharge
    refine ⟨1, [], B, hshape, rfl, ?_⟩
    have hover : step false allSecret inlineStraight F s = .ok none := by
      unfold step
      rw [hB, hskip]
      simp [hshape.getCallToInline_nil, bind, Except.bind, pure, Except.pure]
    rw [loop, hover, Function.update_eq_self, ← hB, Function.update_eq_self]
    rfl
  | cons f targets ih =>
    obtain ⟨⟨hne, C, hC, hCshape⟩, hcallees⟩ := List.forall_mem_cons.mp hcallees
    rw [charge] at hcharge
    split_ifs at hcharge with hlimit
    obtain ⟨CB, B₁, hB₁, hstep⟩ := step_inlines hskip hB hshape hne hC hCshape hlimit
    have hother {g : φ} (hg : g ∈ targets) : g ≠ F := (hcallees g hg).1
    have hrest := ih (s := { s with
        bodies := Function.update s.bodies F (some B₁)
        counts := Function.update s.counts F (s.counts F + (s.counts f + 1)) })
      hskip (Function.update_self ..) hB₁ (fun g hg => ⟨hother hg, ?_⟩) ?_
    · obtain ⟨fuel, actions, B', hB', hcount, hloop⟩ := hrest
      refine ⟨fuel + 1, .inlined CB f :: actions, B', hB', ?_, ?_⟩
      · rw [List.countP_cons, hcount]
        rfl
      · rw [loop, hstep]
        simp [hloop, bind, Except.bind, pure, Except.pure]
    · obtain ⟨-, C', hC', hCshape'⟩ := hcallees g hg
      exact ⟨C', (Function.update_of_ne (hother hg) _ _).trans hC', hCshape'⟩
    · dsimp only
      rw [Function.update_self, ← hcharge]
      exact charge_congr fun g hg => Function.update_of_ne (hother hg) _ _

end Counts

/-! ## The Chain -/

section Chain

/-- The functions that a function of the chain calls; `N + 2` is the last function. -/
def targets (N k : Nat) : List Nat :=
  if k = 0 then []
  else if k ≤ N then List.replicate 99 0 ++ [k - 1]
  else if k = N + 1 then List.replicate 94 0 ++ [N]
  else List.replicate 101 (N + 1)

def chain (N : Nat) : Bodies Unit Nat Nat := fun k =>
  if k ≤ N + 2 then some (line (targets N k)) else none

/-- A function has been processed: no calls are left in it, and this is its count. -/
def Done (m : Module Unit Nat Nat) (k : Nat) (c : UInt32) : Prop :=
  m.counts k = c ∧ ∃ C, m.bodies k = some C ∧ Shape [] C

/-- The functions below `k` have been processed, and all others are as they were. -/
structure ChainInv (N k : Nat) (m : Module Unit Nat Nat) : Prop where
  done : ∀ j < k, j ≤ N → Done m j (UInt32.ofNat (100 * j))
  fresh : ∀ j ≥ k, m.counts j = 0 ∧ m.bodies j = chain N j

variable {N k : Nat} {m : Module Unit Nat Nat} {c : UInt32}

/-- A function is processed when those that it calls are. -/
theorem runOnFunction_line {F : Nat} {callees : List Nat} (hcount : m.counts F = 0)
    (hF : m.bodies F = some (line callees))
    (hcallees : ∀ f ∈ callees, f ≠ F ∧ ∃ C, m.bodies f = some C ∧ Shape [] C)
    (hcharge : charge m.counts callees 0 = some c) :
    ∃ fuel actions m', runOnFunction false allSecret inlineStraight id fuel F m = .ok (actions, m') ∧
      actions.countP (·.isInlined) = callees.length ∧ Done m' F c ∧
      ∀ j ≠ F, m'.counts j = m.counts j ∧ m'.bodies j = m.bodies j := by
  obtain ⟨fuel, actions, B', hB', hinlined, hloop⟩ :=
    loop_inlines (s := m.start) rfl hF (shape_line callees) hcallees (hcount.symm ▸ hcharge)
  refine ⟨fuel, actions, ⟨Function.update m.bodies F (some B'), Function.update m.counts F c⟩, ?_,
    hinlined, ⟨Function.update_self .., B', Function.update_self .., hB'⟩, fun j hj => ?_⟩
  · rw [runOnFunction, hloop]
    simp [Module.start, bind, Except.bind, pure, Except.pure]
  · exact ⟨Function.update_of_ne hj _ _, Function.update_of_ne hj _ _⟩

theorem charge_chain (hinv : ChainInv N k m) (hk : k ≤ N) :
    charge m.counts (targets N k) 0 = some (UInt32.ofNat (100 * k)) := by
  cases k with
  | zero => rfl
  | succ j =>
    have htargets : targets N (j + 1) = List.replicate 99 0 ++ [j] := by simp [targets, hk]
    have hzero : m.counts 0 + 1 = 1 := by simp [(hinv.done 0 (Nat.succ_pos j) (Nat.zero_le N)).1]
    have hj : m.counts j = UInt32.ofNat (100 * j) := (hinv.done j (Nat.lt_succ_self j) (by omega)).1
    rw [htargets, charge_replicate hzero (by decide), charge, if_pos (by decide), charge, hj,
      Nat.mul_succ, UInt32.ofNat_add]
    grind

/-- The functions of the chain are processed in order. -/
theorem processed_chain (hk : k ≤ N + 1) :
    ∃ m, Processed false inlineStraight id (chain N) (List.range k) m ∧ ChainInv N k m := by
  induction k with
  | zero => exact ⟨_, .nil, fun j hj => absurd hj (Nat.not_lt_zero j), fun j _ => ⟨rfl, rfl⟩⟩
  | succ k ih =>
    obtain ⟨m, hm, hinv⟩ := ih (by omega)
    have hbody : m.bodies k = some (line (targets N k)) := by
      rw [(hinv.fresh k (Nat.le_refl k)).2, chain, if_pos (by omega)]
    have hcallees : ∀ f ∈ targets N k, f ≠ k ∧ ∃ C, m.bodies f = some C ∧ Shape [] C := by
      intro f hf
      have hlt : f < k := by
        unfold targets at hf
        split_ifs at hf <;> simp at hf <;> omega
      exact ⟨hlt.ne, (hinv.done f hlt (by omega)).2⟩
    obtain ⟨fuel, actions, m', hret, -, hdone, hothers⟩ := runOnFunction_line
      (hinv.fresh k (Nat.le_refl k)).1 hbody hcallees (charge_chain hinv (by omega))
    refine ⟨m', List.range_succ ▸ hm.snoc hret, fun j hj hjN => ?_, fun j hj => ?_⟩
    · rcases Nat.lt_succ_iff_lt_or_eq.mp hj with hj | rfl
      · unfold Done
        rw [(hothers j hj.ne).1, (hothers j hj.ne).2]
        exact hinv.done j hj hjN
      · exact hdone
    · have hne : j ≠ k := by omega
      rw [(hothers j hne).1, (hothers j hne).2]
      exact hinv.fresh j (by omega)

/-- The last but one of a chain of the right length gets the greatest count that there is. -/
theorem processed_chain_max (hN : UInt32.ofNat (100 * N) + 95 = -1) : ∃ m,
    Processed false inlineStraight id (chain N) (List.range (N + 2)) m ∧ Done m (N + 1) (-1) ∧
      m.counts (N + 2) = 0 ∧ m.bodies (N + 2) = some (line (List.replicate 101 (N + 1))) := by
  obtain ⟨m, hm, hinv⟩ := processed_chain (Nat.le_refl (N + 1))
  have hbody : m.bodies (N + 1) = some (line (List.replicate 94 0 ++ [N])) := by
    rw [(hinv.fresh _ (Nat.le_refl _)).2]
    simp [chain, targets]
  have hcallees : ∀ f ∈ List.replicate 94 0 ++ [N],
      f ≠ N + 1 ∧ ∃ C, m.bodies f = some C ∧ Shape [] C := by
    intro f hf
    have hle : f ≤ N := by
      simp at hf
      omega
    exact ⟨by omega, (hinv.done f (by omega) hle).2⟩
  have hcharge : charge m.counts (List.replicate 94 0 ++ [N]) 0 = some (-1) := by
    have hzero : m.counts 0 + 1 = 1 := by simp [(hinv.done 0 (Nat.succ_pos N) (Nat.zero_le N)).1]
    have hcount : m.counts N = UInt32.ofNat (100 * N) :=
      (hinv.done N (Nat.lt_succ_self N) (Nat.le_refl N)).1
    rw [charge_replicate hzero (by decide), charge, if_pos (by decide), charge, hcount, ← hN]
    grind
  obtain ⟨fuel, actions, m', hret, -, hdone, hothers⟩ :=
    runOnFunction_line (hinv.fresh _ (Nat.le_refl _)).1 hbody hcallees hcharge
  refine ⟨m', ?_, hdone, ?_, ?_⟩
  · rw [List.range_succ]
    exact hm.snoc hret
  · rw [(hothers (N + 2) (by omega)).1, (hinv.fresh _ (by omega)).1]
  · rw [(hothers (N + 2) (by omega)).2, (hinv.fresh _ (by omega)).2]
    simp [chain, targets]

/-- To inline a call of that function adds nothing to the count of the last one. -/
theorem chain_overflows (hN : UInt32.ofNat (100 * N) + 95 = -1) : ∃ fuel actions m m',
    Processed false inlineStraight id (chain N) (List.range (N + 2)) m ∧
    runOnFunction false allSecret inlineStraight id fuel (N + 2) m = .ok (actions, m') ∧
    actions.countP (·.isInlined) = 101 := by
  obtain ⟨m, hm, ⟨hcount, C, hC, hshape⟩, hlast, hbody⟩ := processed_chain_max hN
  have hcallees : ∀ f ∈ List.replicate 101 (N + 1),
      f ≠ N + 2 ∧ ∃ C, m.bodies f = some C ∧ Shape [] C := by
    intro f hf
    obtain rfl : f = N + 1 := List.eq_of_mem_replicate hf
    exact ⟨by omega, C, hC, hshape⟩
  have hcharge : charge m.counts (List.replicate 101 (N + 1)) 0 = some 0 := by
    have hzero : m.counts (N + 1) + 1 = 0 := by
      rw [hcount]
      rfl
    rw [← List.append_nil (List.replicate 101 (N + 1)), charge_replicate hzero (by decide)]
    rfl
  obtain ⟨fuel, actions, m', hret, hinlined, -, -⟩ :=
    runOnFunction_line hlast hbody hcallees hcharge
  exact ⟨fuel, actions, m, m', hm, hret, hinlined.trans List.length_replicate⟩

/-- With 42949675 functions a count can overflow. -/
theorem inlining_overflows : ∃ fuel actions m m',
    Processed false inlineStraight id (chain 42949672) (List.range 42949674) m ∧
    runOnFunction false allSecret inlineStraight id fuel 42949674 m = .ok (actions, m') ∧
    ¬ Safe 42949674 actions := by
  obtain ⟨fuel, actions, m, m', hm, hret, hinlined⟩ := chain_overflows (N := 42949672) (by decide)
  refine ⟨fuel, actions, m, m', hm, hret, fun hsafe => ?_⟩
  exact absurd (hinlined ▸ hsafe.limit) (by decide)

end Chain

end Clou.Inlining
