-- SUMMARY: The inlining loop ends and keeps to its limit as long as no inline count overflows.
import Serberus.Inlining.Straight
import Serberus.Lib.DepthFirst

/-!
# Termination

The measure of the loop is lexicographic: an inlined call raises the count of the function,
which stays below the limit until the last one; a call that is not inlined stays in the
body, and is skipped from then on. The count grows by the count of the callee, so it can
pass the limit by far, and an addition that overflows can take it back.
-/

namespace Clou.Inlining

open CallGraph (Value getCalledFunction)
open ControlFlow

/-! ## The Call That Is Picked -/

section Candidates

variable {β φ ι : Type} [DecidableEq β] [LinearOrder ι] {A : Answers φ ι} {bodies : Bodies β φ ι}
  {skip : OrdSet ι} {B : Body β φ ι} {CB : ι}

/-- A search ends, and what stops it is the answer at an instruction of the body. -/
theorem Body.search_spec {α : Type} (visit : ι → Search.Visit α) {start : List ι}
    (hnodup : start.Nodup) (hstart : ∀ i ∈ start, i ∈ B.cfg.instructions) :
    ∃ r, B.search visit start = .ok r ∧
      ∀ a, r = some a → ∃ i ∈ B.cfg.instructions, visit i = .stop a := by
  have hinstructions : B.cfg.instructions.Nodup := B.cfg.instructions_nodup
  have hclosed : ∀ u ∈ B.cfg.instructions.toFinset, ∀ v ∈ B.cfg.successorsInst u,
      v ∈ B.cfg.instructions.toFinset := fun u _ v hv =>
    List.mem_toFinset.mpr (CFG.mem_successorsInst.mp hv).mem.2
  have hfuel : Search.sweepMeasure B.cfg.successorsInst B.cfg.instructions.toFinset start [] <
      B.searchFuel := by
    have hlength : start.length ≤ B.cfg.instructions.length :=
      (hnodup.subperm hstart).length_le
    have hsum := List.sum_toFinset (fun i => (B.cfg.successorsInst i).length) hinstructions
    simp only [Search.sweepMeasure, List.not_mem_nil, not_false_eq_true, Finset.filter_true, hsum,
      Body.searchFuel]
    omega
  have hsweep : ∃ r, Search.sweepFor visit B.cfg.successorsInst B.searchFuel start [] = some r ∧
      ∀ a, r = some a → ∃ i ∈ B.cfg.instructions.toFinset, visit i = .stop a :=
    Search.sweepFor_spec hclosed (fun u hu => List.mem_toFinset.mpr (hstart u hu)) hfuel
  obtain ⟨r, hret, hstop⟩ := hsweep
  refine ⟨r, by simp [Body.search, hret]; rfl, fun a ha => ?_⟩
  obtain ⟨i, hi, hvisit⟩ := hstop a ha
  exact ⟨i, List.mem_toFinset.mp hi, hvisit⟩

/-- An instruction of the body calls a function that has a body. -/
structure Calls (bodies : Bodies β φ ι) (B : Body β φ ι) (CB : ι) (CalledF : φ) : Prop where
  mem : CB ∈ B.cfg.instructions
  call : ∃ lowers V, B.kind CB = .call lowers V ∧ getCalledFunction V = .ok (some CalledF)
  body : (bodies CalledF).isSome = true

/-- A call of a function with a body that is not skipped. -/
def Candidate (bodies : Bodies β φ ι) (skip : OrdSet ι) (B : Body β φ ι) (CB : ι) : Prop :=
  CB ∉ skip ∧ ∃ CalledF, Calls bodies B CB CalledF

/-- What a choice of a call comes to: a candidate, no call, or the exit of the program. -/
def Picks (bodies : Bodies β φ ι) (skip : OrdSet ι) (B : Body β φ ι) : Exec (Option ι) → Prop
  | .ok (some CB) => Candidate bodies skip B CB
  | .ok none => True
  | .error fault => fault = .exit

omit [LinearOrder ι] in
theorem getCalledFunction_error {V : Value φ ι} {fault : Fault}
    (h : getCalledFunction V = .error fault) : fault = .exit := by
  unfold getCalledFunction at h
  induction V with
  | bitCast V ih => exact ih h
  | globalVariable | constant =>
    cases h
    rfl
  | _ => cases h

omit [DecidableEq β] in
/-- The search from a store stops at a candidate, or because the program exits. -/
theorem visitFromStore_stop {i : ι} {r : Exec ι} (hi : i ∈ B.cfg.instructions)
    (h : visitFromStore A bodies skip B i = .stop r) : Picks bodies skip B (r.map some) := by
  unfold visitFromStore at h
  cases hkind : B.kind i with
  | call lowers V =>
    cases lowers with
    | false => simp [hkind] at h
    | true =>
      simp only [hkind] at h
      cases hcalled : getCalledFunction V with
      | error fault =>
        simp only [hcalled, Search.Visit.stop.injEq] at h
        subst h
        exact getCalledFunction_error hcalled
      | ok f =>
        cases f with
        | none => simp [hcalled] at h
        | some CalledF =>
          simp only [hcalled] at h
          split_ifs at h with hbody hskip
          cases h
          refine ⟨hskip, CalledF, hi, ⟨true, V, hkind, hcalled⟩, ?_⟩
          cases hfind : bodies CalledF with
          | none => simp [hfind] at hbody
          | some callee => rfl
  | load =>
    simp only [hkind] at h
    split_ifs at h
  | _ => simp [hkind] at h

theorem handleSecretStore_picks {SI : ι} (hSI : SI ∈ B.cfg.instructions) :
    Picks bodies skip B (handleSecretStore A bodies skip B SI) := by
  obtain ⟨r, hret, hstop⟩ := B.search_spec (visitFromStore A bodies skip B)
    (List.nodup_singleton SI) (fun i hi => List.mem_singleton.mp hi ▸ hSI)
  unfold handleSecretStore
  rw [hret]
  cases r with
  | none => trivial
  | some CB =>
    obtain ⟨i, hi, hvisit⟩ := hstop CB rfl
    exact visitFromStore_stop hi hvisit

theorem firstFromStores_picks {is : List ι} (his : ∀ i ∈ is, i ∈ B.cfg.instructions) :
    Picks bodies skip B (firstFromStores A bodies skip B is) := by
  induction is with
  | nil => trivial
  | cons i is ih =>
    obtain ⟨hi, his⟩ := List.forall_mem_cons.mp his
    unfold firstFromStores
    split_ifs
    · have hpicks : Picks bodies skip B (handleSecretStore A bodies skip B i) :=
        handleSecretStore_picks hi
      cases hret : handleSecretStore A bodies skip B i with
      | error fault =>
        rw [hret] at hpicks
        exact hpicks
      | ok r =>
        rw [hret] at hpicks
        cases r with
        | some CB => exact hpicks
        | none => exact ih his
    · exact ih his

/-- The callee's instructions are searched to the end, or to a return. -/
theorem calleeWouldBenefitFromInlining_returns (A : Answers φ ι) (B : Body β φ ι) :
    ∃ benefits, calleeWouldBenefitFromInlining A B = .ok benefits := by
  obtain ⟨r, hret, -⟩ := B.search_spec (visitCallee A B)
    (List.nodup_reverse.mpr (computeNcaStores A B).nodup) (fun i hi => by
      have hmem : i ∈ computeNcaStores A B := List.mem_reverse.mp hi
      simp only [computeNcaStores, OrdSet.mem_ofList, List.mem_filter] at hmem
      exact hmem.1)
  exact Exec.bind_returns hret ⟨_, rfl⟩

theorem firstBeneficial_picks {is : List ι} :
    Picks bodies skip B (firstBeneficial A bodies skip B is) := by
  induction is with
  | nil => trivial
  | cons i is ih =>
    unfold firstBeneficial
    cases hkind : B.kind i with
    | call lowers V =>
      dsimp only
      split_ifs with hskip
      · exact ih
      · cases hcalled : getCalledFunction V with
        | error fault => exact getCalledFunction_error hcalled
        | ok f =>
          cases f with
          | none => exact ih
          | some CalledF =>
            simp only [bind, Except.bind]
            cases bodies CalledF with
            | none => exact ih
            | some callee =>
              obtain ⟨benefits, hbenefits⟩ := calleeWouldBenefitFromInlining_returns A callee
              simpa [hbenefits, bind, Except.bind] using ih
    | _ => exact ih

/-- The call that is picked is a candidate. -/
theorem getCallToInline_picks : Picks bodies skip B (getCallToInline A bodies skip B) := by
  have hpicks : Picks bodies skip B (firstFromStores A bodies skip B B.cfg.instructions) :=
    firstFromStores_picks fun _ hi => hi
  unfold getCallToInline
  cases hret : firstFromStores A bodies skip B B.cfg.instructions with
  | error fault =>
    rw [hret] at hpicks
    exact hpicks
  | ok r =>
    rw [hret] at hpicks
    cases r with
    | some CB => exact hpicks
    | none => exact firstBeneficial_picks

end Candidates

/-! ## One Iteration -/

section Steps

variable {β φ ι : Type} [DecidableEq β] [DecidableEq φ] [LinearOrder ι] {ndebug : Bool}
  {A : Answers φ ι} {inlineFunction : InlineFunction β φ ι} {F : φ} {s s' s'' : State β φ ι}
  {a : Action φ ι} {actions actions' : List (Action φ ι)}

/-- What an iteration that did not end the loop has done. -/
inductive Stepped (F : φ) (s : State β φ ι) (B : Body β φ ι) (CB : ι) :
    Action φ ι → State β φ ι → Prop
  | skipped : Stepped F s B CB (.skipped CB) (s.skipCall CB)
  | failed {G : φ} (hG : G ≠ F) (hcall : Calls s.bodies B CB G) :
      Stepped F s B CB (.failed CB G) (s.skipCall CB)
  | inlined {G : φ} {body : Body β φ ι} (hG : G ≠ F) (hcall : Calls s.bodies B CB G) :
      Stepped F s B CB (.inlined CB G)
        { s with
          bodies := Function.update s.bodies F (some body)
          counts := Function.update s.counts F (s.counts F + (s.counts G + 1)) }

/-- How an iteration can come out. -/
inductive StepResult (A : Answers φ ι) (F : φ) (s : State β φ ι) :
    Exec (Option (Action φ ι × State β φ ι)) → Prop
  | exit : StepResult A F s (.error .exit)
  | stopped : StepResult A F s (.ok none)
  | on {B : Body β φ ι} {CB : ι} {a : Action φ ι} {s' : State β φ ι} (hB : s.bodies F = some B)
      (hpick : getCallToInline A s.bodies s.skip B = .ok (some CB))
      (hCB : Candidate s.bodies s.skip B CB) (hcount : s.counts F < inlineLimit)
      (hs' : Stepped F s B CB a s') : StepResult A F s (.ok (some (a, s')))

omit [DecidableEq β] in
theorem inlineCall_stepped {B : Body β φ ι} {CB : ι} {G : φ} (hG : G ≠ F)
    (hcall : Calls s.bodies B CB G) :
    Stepped F s B CB (inlineCall inlineFunction F s CB G).1 (inlineCall inlineFunction F s CB G).2 := by
  unfold inlineCall
  cases inlineFunction s.bodies F CB with
  | none => exact .failed hG hcall
  | some body => exact .inlined hG hcall

theorem step_result : StepResult A F s (step ndebug A inlineFunction F s) := by
  unfold step
  cases hB : s.bodies F with
  | none => exact .stopped
  | some B =>
    have hpicks : Picks s.bodies s.skip B (getCallToInline A s.bodies s.skip B) :=
      getCallToInline_picks
    dsimp only
    cases hret : getCallToInline A s.bodies s.skip B with
    | error fault =>
      rw [hret] at hpicks
      cases hpicks
      exact .exit
    | ok r =>
      rw [hret] at hpicks
      cases r with
      | none => exact .stopped
      | some CB =>
        have hCB : Candidate s.bodies s.skip B CB := hpicks
        obtain ⟨hskip, G, hcall⟩ := hCB
        obtain ⟨lowers, V, hkind, hcalled⟩ := hcall.call
        simp only [bind, Except.bind, hkind, handleCall, assert_of hskip, hcalled]
        by_cases hlimit : inlineLimit ≤ s.counts F
        · rw [if_pos hlimit]
          exact .stopped
        rw [if_neg hlimit]
        have hcount : s.counts F < inlineLimit := UInt32.not_le.mp hlimit
        by_cases hself : (s.bodies G).isNone = true ∨ G = F
        · rw [if_pos hself]
          exact .on hB hret hpicks hcount .skipped
        · rw [if_neg hself]
          exact .on hB hret hpicks hcount (inlineCall_stepped (fun h => hself (.inr h)) hcall)

end Steps

/-! ## Runs of the Loop -/

section Actions

variable {φ ι : Type}

def Action.isInlined : Action φ ι → Bool
  | .inlined _ _ => true
  | _ => false

/-- What `InlineFunction` was called with: the call, and the function that it names. -/
def Action.handed : Action φ ι → Option (ι × φ)
  | .skipped _ => none
  | .failed CB G => some (CB, G)
  | .inlined CB G => some (CB, G)

/-- The call that goes into `skip`. -/
def Action.skips : Action φ ι → Option ι
  | .skipped CB => some CB
  | .failed CB _ => some CB
  | .inlined _ _ => none

/-- The loop on `F` keeps to the limit, inlines `F` nowhere into itself, and hands no call that
it skips to `InlineFunction`. -/
structure Safe (F : φ) (actions : List (Action φ ι)) : Prop where
  limit : actions.countP (·.isInlined) ≤ inlineLimit.toNat
  notSelf : ∀ a ∈ actions, ∀ CB G, a.handed = some (CB, G) → G ≠ F
  notSkipped : actions.Pairwise fun a a' => ∀ CB, a.skips = some CB → ∀ G, a'.handed ≠ some (CB, G)

theorem Safe.snoc {F : φ} {actions : List (Action φ ι)} {a : Action φ ι} (h : Safe F actions)
    (hlimit : (actions ++ [a]).countP (·.isInlined) ≤ inlineLimit.toNat)
    (hself : ∀ CB G, a.handed = some (CB, G) → G ≠ F)
    (hskip : ∀ a' ∈ actions, ∀ CB, a'.skips = some CB → ∀ G, a.handed ≠ some (CB, G)) :
    Safe F (actions ++ [a]) where
  limit := hlimit
  notSelf a' ha' := by
    rcases List.mem_append.mp ha' with ha' | ha'
    · exact h.notSelf a' ha'
    · exact List.mem_singleton.mp ha' ▸ hself
  notSkipped := List.pairwise_append.mpr ⟨h.notSkipped, List.pairwise_singleton _ _,
    fun a' ha' b hb => List.mem_singleton.mp hb ▸ hskip a' ha'⟩

end Actions

section Runs

variable {β φ ι : Type} [DecidableEq β] [DecidableEq φ] [LinearOrder ι] (ndebug : Bool)
  (A : Answers φ ι) (inlineFunction : InlineFunction β φ ι) (F : φ)

/-- The loop may go from one state to another with these actions. -/
inductive Path (s : State β φ ι) : List (Action φ ι) → State β φ ι → Prop
  | nil : Path s [] s
  | snoc {actions : List (Action φ ι)} {a : Action φ ι} {s' s'' : State β φ ι}
      (h : Path s actions s')
      (hstep : step ndebug A inlineFunction F s' = .ok (some (a, s''))) :
      Path s (actions ++ [a]) s''

/-- To inline the call that is picked now does not overflow the count of `F`. -/
def Room (s : State β φ ι) : Prop :=
  s.counts F < inlineLimit → ∀ B, s.bodies F = some B →
    ∀ CB, getCallToInline A s.bodies s.skip B = .ok (some CB) →
      ∀ G, G ≠ F → Calls s.bodies B CB G →
        (s.counts F).toNat + (s.counts G).toNat + 1 < 2 ^ 32

variable {ndebug A inlineFunction F} {s s' s'' : State β φ ι} {a : Action φ ι}
  {actions actions' : List (Action φ ι)}

theorem Path.trans (h : Path ndebug A inlineFunction F s actions s')
    (h' : Path ndebug A inlineFunction F s' actions' s'') :
    Path ndebug A inlineFunction F s (actions ++ actions') s'' := by
  induction h' with
  | nil => rwa [List.append_nil]
  | snoc _ hstep ih =>
    rw [← List.append_assoc]
    exact ih.snoc hstep

/-- The count of `F` after a call has been inlined. -/
theorem toNat_count {c d : UInt32} (h : c.toNat + d.toNat + 1 < 2 ^ 32) :
    (c + (d + 1)).toNat = c.toNat + d.toNat + 1 := by
  simp only [UInt32.toNat_add, UInt32.reduceToNat]
  omega

/-- What holds of the actions of a run and of the state in which it is. -/
structure RunInv (F : φ) (actions : List (Action φ ι)) (s : State β φ ι) : Prop where
  safe : Safe F actions
  count : actions.countP (·.isInlined) ≤ (s.counts F).toNat
  skipped : ∀ a ∈ actions, ∀ CB, a.skips = some CB → CB ∈ s.skip

omit [DecidableEq β] [DecidableEq φ] in
/-- An action hands over the call that has been picked only, and that was not skipped before. -/
theorem RunInv.not_handed {CB : ι} (h : RunInv F actions s) (hCB : CB ∉ s.skip)
    (hhanded : ∀ CB' G, a.handed = some (CB', G) → CB' = CB ∧ G ≠ F) :
    ∀ a' ∈ actions, ∀ CB', a'.skips = some CB' → ∀ G, a.handed ≠ some (CB', G) := by
  intro a' ha' CB' hskips G heq
  exact hCB ((hhanded CB' G heq).1 ▸ h.skipped a' ha' CB' hskips)

omit [DecidableEq β] [DecidableEq φ] in
/-- A call that is not inlined goes into `skip`. -/
theorem RunInv.skip {CB : ι} (h : RunInv F actions s) (hCB : CB ∉ s.skip)
    (hinlined : a.isInlined = false) (hskips : a.skips = some CB)
    (hhanded : ∀ CB' G, a.handed = some (CB', G) → CB' = CB ∧ G ≠ F) :
    RunInv F (actions ++ [a]) (s.skipCall CB) := by
  have hsame : (actions ++ [a]).countP (·.isInlined) = actions.countP (·.isInlined) := by
    simp [List.countP_append, hinlined]
  refine ⟨h.safe.snoc (hsame.trans_le h.safe.limit) (fun CB' G heq => (hhanded CB' G heq).2)
    (h.not_handed hCB hhanded), hsame.trans_le h.count, fun a' ha' CB' hskips' => ?_⟩
  rcases List.mem_append.mp ha' with ha' | ha'
  · exact OrdSet.mem_insert.mpr (.inr (h.skipped a' ha' CB' hskips'))
  · obtain rfl := List.mem_singleton.mp ha'
    exact OrdSet.mem_insert.mpr (.inl (Option.some.inj (hskips'.symm.trans hskips)))

omit [DecidableEq β] in
/-- A call that is inlined raises the count, which was below the limit. -/
theorem RunInv.inline {CB : ι} {G : φ} {bodies : Bodies β φ ι} (h : RunInv F actions s)
    (hCB : CB ∉ s.skip) (hG : G ≠ F) (hcount : s.counts F < inlineLimit)
    (hroom : (s.counts F).toNat + (s.counts G).toNat + 1 < 2 ^ 32) :
    RunInv F (actions ++ [.inlined CB G]) { s with
      bodies := bodies
      counts := Function.update s.counts F (s.counts F + (s.counts G + 1)) } := by
  have hmore : (actions ++ [Action.inlined CB G]).countP (·.isInlined) =
      actions.countP (·.isInlined) + 1 := by
    simp [List.countP_append, Action.isInlined]
  have hhanded : ∀ CB' G', (Action.inlined CB G).handed = some (CB', G') → CB' = CB ∧ G' ≠ F := by
    intro CB' G' heq
    cases heq
    exact ⟨rfl, hG⟩
  have hlt : (s.counts F).toNat < inlineLimit.toNat := UInt32.lt_iff_toNat_lt.mp hcount
  have hold := h.count
  have hadd := toNat_count hroom
  refine ⟨h.safe.snoc (by omega) (fun CB' G' heq => (hhanded CB' G' heq).2)
    (h.not_handed hCB hhanded), ?_, fun a' ha' CB' hskips => ?_⟩
  · dsimp only
    rw [Function.update_self]
    omega
  · rcases List.mem_append.mp ha' with ha' | ha'
    · exact h.skipped a' ha' CB' hskips
    · cases List.mem_singleton.mp ha'
      cases hskips

theorem RunInv.step (h : RunInv F actions s) (hroom : Room A F s)
    (hstep : step ndebug A inlineFunction F s = .ok (some (a, s'))) :
    RunInv F (actions ++ [a]) s' := by
  have hresult : StepResult A F s (Inlining.step ndebug A inlineFunction F s) := step_result
  rw [hstep] at hresult
  cases hresult with
  | @on B CB _ _ hB hpick hCB hcount hs' =>
    cases hs' with
    | skipped => exact h.skip hCB.1 rfl rfl fun _ _ heq => nomatch heq
    | failed hG hcall =>
      refine h.skip hCB.1 rfl rfl fun _ _ heq => ?_
      cases heq
      exact ⟨rfl, hG⟩
    | inlined hG hcall => exact h.inline hCB.1 hG hcount (hroom hcount B hB CB hpick _ hG hcall)

/-- A run in which nothing overflows is safe. -/
theorem Path.runInv (h : Path ndebug A inlineFunction F s actions s')
    (hroom : ∀ actions s', Path ndebug A inlineFunction F s actions s' → Room A F s') :
    RunInv F actions s' := by
  induction h with
  | nil => exact ⟨⟨Nat.zero_le _, by simp, .nil⟩, Nat.zero_le _, by simp⟩
  | @snoc actions a s' s'' h hstep ih => exact ih.step (hroom _ _ h) hstep

/-! ## The Loop Ends -/

/-- What is left of the limit. -/
def budget (F : φ) (s : State β φ ι) : Nat := inlineLimit.toNat - (s.counts F).toNat

/-- The instructions of `F` that are not skipped. -/
def unskipped (F : φ) (s : State β φ ι) : Nat :=
  match s.bodies F with
  | some B => (B.cfg.instructions.toFinset.filter (· ∉ s.skip)).card
  | none => 0

omit [DecidableEq β] [DecidableEq φ] in
theorem unskipped_skipCall {B : Body β φ ι} {CB : ι} (hB : s.bodies F = some B)
    (hCB : Candidate s.bodies s.skip B CB) : unskipped F (s.skipCall CB) < unskipped F s := by
  obtain ⟨hskip, G, hcall⟩ := hCB
  have hB' : (s.skipCall CB).bodies F = some B := hB
  simp only [unskipped, hB, hB']
  exact DepthFirst.card_unmarked_lt (List.mem_toFinset.mpr hcall.mem) hskip fun _ h => h

/-- An iteration uses up some of the limit, or it leaves the limit and skips a call. -/
theorem Stepped.decreases {B : Body β φ ι} {CB : ι} (h : Stepped F s B CB a s')
    (hroom : Room A F s) (hB : s.bodies F = some B)
    (hpick : getCallToInline A s.bodies s.skip B = .ok (some CB))
    (hCB : Candidate s.bodies s.skip B CB) (hcount : s.counts F < inlineLimit) :
    budget F s' < budget F s ∨ budget F s' = budget F s ∧ unskipped F s' < unskipped F s := by
  cases h with
  | skipped => exact .inr ⟨rfl, unskipped_skipCall hB hCB⟩
  | failed => exact .inr ⟨rfl, unskipped_skipCall hB hCB⟩
  | @inlined G body hG hcall =>
    have hlt : (s.counts F).toNat < inlineLimit.toNat := UInt32.lt_iff_toNat_lt.mp hcount
    have hadd := toNat_count (hroom hcount B hB CB hpick G hG hcall)
    refine .inl ?_
    simp only [budget, Function.update_self]
    omega

/-- The loop fails when it fails from the next state on. -/
theorem loop_error_succ {fuel : Nat} {fault : Fault}
    (hstep : Inlining.step ndebug A inlineFunction F s = .ok (some (a, s'))) :
    loop ndebug A inlineFunction F (fuel + 1) s = .error fault ↔
      loop ndebug A inlineFunction F fuel s' = .error fault := by
  rw [loop, hstep]
  change (loop ndebug A inlineFunction F fuel s' >>= fun r => pure (a :: r.1, r.2)) = _ ↔ _
  cases loop ndebug A inlineFunction F fuel s' with
  | error fault' => exact Iff.rfl
  | ok r => exact iff_of_false nofun nofun

/-- The induction is lexicographic: on what is left of the limit, and on the calls that are not
skipped. -/
theorem loop_ends_of_measure (n m : Nat) (hn : budget F s = n) (hm : unskipped F s = m)
    (hroom : ∀ actions s', Path ndebug A inlineFunction F s actions s' → Room A F s') :
    ∃ N, ∀ fuel ≥ N, ∀ fault, loop ndebug A inlineFunction F fuel s = .error fault →
      fault = .exit := by
  induction n using Nat.strong_induction_on generalizing m s with
  | _ n ihn =>
    induction m using Nat.strong_induction_on generalizing s with
    | _ m ihm =>
      have hresult : StepResult A F s (Inlining.step ndebug A inlineFunction F s) := step_result
      cases hstep : Inlining.step ndebug A inlineFunction F s with
      | error fault =>
        rw [hstep] at hresult
        cases hresult
        refine ⟨1, fun fuel hfuel fault hret => ?_⟩
        obtain ⟨fuel, rfl⟩ := Nat.exists_eq_add_of_le' hfuel
        rw [loop, hstep] at hret
        cases hret
        rfl
      | ok r =>
        rw [hstep] at hresult
        cases hresult with
        | stopped =>
          refine ⟨1, fun fuel hfuel fault hret => ?_⟩
          obtain ⟨fuel, rfl⟩ := Nat.exists_eq_add_of_le' hfuel
          rw [loop, hstep] at hret
          cases hret
        | @on B CB a s' hB hpick hCB hcount hs' =>
          have hroom' : ∀ actions s'', Path ndebug A inlineFunction F s' actions s'' →
              Room A F s'' :=
            fun actions s'' h => hroom _ s'' (Path.trans (.snoc .nil hstep) h)
          have hrest : ∃ N, ∀ fuel ≥ N, ∀ fault,
              loop ndebug A inlineFunction F fuel s' = .error fault → fault = .exit := by
            rcases hs'.decreases (hroom [] s .nil) hB hpick hCB hcount with hlt | ⟨heq, hlt⟩
            · exact ihn _ (hn ▸ hlt) _ rfl rfl hroom'
            · exact ihm _ (hm ▸ hlt) (heq.trans hn) rfl hroom'
          obtain ⟨N, hN⟩ := hrest
          refine ⟨N + 1, fun fuel hfuel fault hret => ?_⟩
          obtain ⟨fuel, rfl⟩ : ∃ n, fuel = n + 1 := ⟨fuel - 1, by omega⟩
          exact hN fuel (by omega) fault ((loop_error_succ hstep).mp hret)

/-- What the loop returns is the end of a run of it. -/
theorem loop_path {fuel : Nat} (h : loop ndebug A inlineFunction F fuel s = .ok (actions, s')) :
    Path ndebug A inlineFunction F s actions s' := by
  induction fuel generalizing s actions with
  | zero => cases h
  | succ fuel ih =>
    rw [loop] at h
    obtain ⟨r, hstep, h⟩ := Exec.bind_eq_ok.mp h
    cases r with
    | none =>
      cases h
      exact .nil
    | some r =>
      obtain ⟨⟨rest, s₁⟩, hloop, h⟩ := Exec.bind_eq_ok.mp h
      cases h
      exact Path.trans (.snoc .nil hstep) (ih hloop)

end Runs

/-! ## Runs over a Module -/

section Modules

variable {β φ ι : Type} [DecidableEq β] [DecidableEq φ] [LinearOrder ι] (ndebug : Bool)
  (inlineFunction : InlineFunction β φ ι) (eraseMitigations : Body β φ ι → Body β φ ι)

/-- The functions of the list have been processed one after the other, with no counts at first.
The analyses may say anything of each of them. -/
inductive Processed (bodies : Bodies β φ ι) : List φ → Module β φ ι → Prop
  | nil : Processed bodies [] ⟨bodies, fun _ => 0⟩
  | snoc {order : List φ} {m m' : Module β φ ι} {A : Answers φ ι} {fuel : Nat} {F : φ}
      {actions : List (Action φ ι)} (h : Processed bodies order m)
      (hret : runOnFunction ndebug A inlineFunction eraseMitigations fuel F m = .ok (actions, m')) :
      Processed bodies (order ++ [F]) m'

variable {ndebug inlineFunction eraseMitigations} {bodies : Bodies β φ ι} {order : List φ}
  {m m' : Module β φ ι} {A : Answers φ ι} {F : φ} {s : State β φ ι} {actions : List (Action φ ι)}

/-- The counts along a run on `F`, when there was room in the beginning. -/
theorem Path.counts {C : Nat} (h : Path ndebug A inlineFunction F m.start actions s)
    (hm : ∀ G, (m.counts G).toNat ≤ C) (hC : C + 100 < 2 ^ 32) :
    (∀ G, G ≠ F → s.counts G = m.counts G) ∧ (s.counts F).toNat ≤ C + 100 := by
  induction h with
  | nil => exact ⟨fun _ _ => rfl, (hm F).trans (Nat.le_add_right _ _)⟩
  | @snoc actions a s' s'' _ hstep ih =>
    have hresult : StepResult A F s' (Inlining.step ndebug A inlineFunction F s') := step_result
    rw [hstep] at hresult
    cases hresult with
    | on hB hpick hCB hcount hs' =>
      cases hs' with
      | skipped => exact ih
      | failed => exact ih
      | @inlined G body hG hcall =>
        have hlt : (s'.counts F).toNat < 100 := UInt32.lt_iff_toNat_lt.mp hcount
        have hGC : (s'.counts G).toNat ≤ C := ih.1 G hG ▸ hm G
        have hadd : (s'.counts F + (s'.counts G + 1)).toNat = _ := toNat_count (by omega)
        refine ⟨fun H hH => ?_, ?_⟩
        · exact (Function.update_of_ne hH _ _).trans (ih.1 H hH)
        · dsimp only
          rw [Function.update_self]
          omega

/-- A function adds at most the limit to the counts. -/
theorem Processed.counts_le
    (h : Processed ndebug inlineFunction eraseMitigations bodies order m)
    (hlength : 100 * order.length < 2 ^ 32) (G : φ) : (m.counts G).toNat ≤ 100 * order.length := by
  induction h generalizing G with
  | nil => exact Nat.le_refl _
  | @snoc order m m' A fuel F actions _ hret ih =>
    rw [List.length_append, List.length_singleton] at hlength ⊢
    obtain ⟨⟨actions', s⟩, hloop, hret⟩ := Exec.bind_eq_ok.mp hret
    cases hret
    have hcounts := (loop_path hloop).counts (ih (by omega)) (by omega)
    by_cases hG : G = F
    · subst hG
      exact hcounts.2.trans_eq (by omega)
    · exact (hcounts.1 G hG ▸ ih (by omega) G).trans (by omega)

/-- Whatever `InlineFunction` does, whatever the analyses say, and in whatever order functions
have been processed before: when no inline count overflows in a run on `F`, the loop ends, and
it is safe at every time. No count overflows with fewer than 42949672 functions. -/
theorem inlining_terminates
    (hm : Processed ndebug inlineFunction eraseMitigations bodies order m) (A : Answers φ ι) (F : φ) :
    (100 * (order.length + 1) < 2 ^ 32 → ∀ actions s,
      Path ndebug A inlineFunction F m.start actions s → Room A F s) ∧
    ((∀ actions s, Path ndebug A inlineFunction F m.start actions s → Room A F s) →
      (∃ N, ∀ fuel ≥ N, ∀ fault,
        runOnFunction ndebug A inlineFunction eraseMitigations fuel F m = .error fault →
          fault = .exit) ∧
      ∀ actions s, Path ndebug A inlineFunction F m.start actions s → Safe F actions) := by
  refine ⟨fun hlength actions s hpath hcount B hB CB _ G hG hcall => ?_, fun hroom => ⟨?_, ?_⟩⟩
  · have hcounts := hpath.counts (hm.counts_le (by omega)) (by omega)
    have hlt : (s.counts F).toNat < 100 := UInt32.lt_iff_toNat_lt.mp hcount
    have hGC : (s.counts G).toNat ≤ 100 * order.length :=
      hcounts.1 G hG ▸ hm.counts_le (by omega) G
    omega
  · obtain ⟨N, hN⟩ := loop_ends_of_measure _ _ rfl rfl hroom
    refine ⟨N, fun fuel hfuel fault hret => ?_⟩
    unfold runOnFunction at hret
    cases hloop : loop ndebug A inlineFunction F fuel m.start with
    | error fault' =>
      rw [hloop] at hret
      cases hret
      exact hN fuel hfuel fault hloop
    | ok r =>
      rw [hloop] at hret
      cases hret
  · exact fun actions s hpath => (hpath.runInv fun actions s h => hroom actions s h).safe

/-- Two functions that call each other. -/
def pingPong : Bodies Unit Nat Nat := fun f =>
  if f = 0 then some (line [1]) else if f = 1 then some (line [0]) else none

theorem inlining_terminates_pingPong :
    (∃ N, ∀ fuel ≥ N, ∀ fault,
      runOnFunction false allSecret inlineStraight id fuel 0 ⟨pingPong, fun _ => 0⟩ = .error fault →
        fault = .exit) ∧
    ∀ actions s, Path false allSecret inlineStraight 0
      (Module.start ⟨pingPong, fun _ => 0⟩) actions s → Safe 0 actions := by
  have hm : Processed false inlineStraight id pingPong [] ⟨pingPong, fun _ => 0⟩ := .nil
  obtain ⟨hroom, hsafe⟩ := inlining_terminates hm allSecret 0
  exact hsafe (hroom (by decide))

end Modules

end Clou.Inlining
