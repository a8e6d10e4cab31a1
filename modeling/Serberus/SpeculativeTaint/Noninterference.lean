-- SUMMARY: What taints are for: two runs along a path differ only in what is tainted by a load whose results differ.
import Serberus.SpeculativeTaint.Exact
import Serberus.SpeculativeTaint.Machine

/-!
# Noninterference

Two runs begin alike and take the same path, and loads from addresses that are not constant
may return different values in them. Wherever the runs differ later on, the analysis reports the
taint of a load that has returned different values. For that stores have to stay where the alias
analysis says they do.
-/

namespace Clou.SpeculativeTaint

variable {ι υ : Type} [LinearOrder ι] [DecidableEq υ]

section Definitions

variable (O : Oracles ι) (F : IRFunction ι)

/-- One of the loads `D` taints `i`. -/
def TaintedBy (T : TaintMap ι) (D : Set ι) (i : ι) : Prop := ∃ L ∈ D, T.Has L i

/-- The taints are closed under the steps of all instructions. -/
structure Closed (T : TaintMap ι) : Prop where
  ncal : ∀ {L}, IsNcal O F L → T.Has L L
  step : ∀ {L I x y}, I ∈ F.instructions → Step O F I x y → T.Has L x → T.Has L y

variable (sem : Semantics ι υ)

/-- The instruction does not store to the address of a load that the alias analysis says the
store has nothing to do with. -/
def InBounds (s : Machine ι υ) (I : Instruction ι) : Prop :=
  ∀ value ptr, I.kind = .store value ptr → ∀ l loadPtr, ⟨l, .load loadPtr⟩ ∈ F.instructions →
    O.isConstantAddress loadPtr = true → O.aliasResult ptr loadPtr = .noAlias →
      sem.eval s.vals ptr ≠ sem.address loadPtr

/-- Both runs store to the same address. -/
def SameAddress (s s' : Machine ι υ) (I : Instruction ι) : Prop :=
  ∀ value ptr, I.kind = .store value ptr → sem.eval s.vals ptr = sem.eval s'.vals ptr

/-- The states differ at most in what the loads `D` taint. -/
structure Agree (T : TaintMap ι) (D : Set ι) (s s' : Machine ι υ) : Prop where
  past : s'.past = s.past
  vals : ∀ i, s.vals i ≠ s'.vals i → TaintedBy T D i
  entered : ∀ i, s.entered i ≠ s'.entered i → TaintedBy T D i
  mem : ∀ l ptr, ⟨l, .load ptr⟩ ∈ F.instructions → O.isConstantAddress ptr = true →
    s.mem (sem.address ptr) ≠ s'.mem (sem.address ptr) → TaintedBy T D l

/-- The loads of a path that return different values in two runs. -/
def Differing (loaded loaded' : List ι → υ) (past : List ι) (path : List (Instruction ι)) : Set ι :=
  {L | ∃ pre I post, path = pre ++ I :: post ∧ O.isNcal I = true ∧ I.id = L ∧
    loaded ((pre.map (·.id)).reverse ++ past) ≠ loaded' ((pre.map (·.id)).reverse ++ past)}

/-- All stores of a path are in bounds. -/
def InBoundsAlong (loaded : List ι → υ) (s : Machine ι υ) (path : List (Instruction ι)) : Prop :=
  ∀ pre I post, path = pre ++ I :: post → InBounds O F sem (sem.run O loaded s pre) I

end Definitions

variable {O : Oracles ι} {F : IRFunction ι} {sem : Semantics ι υ} {T : TaintMap ι} {D D' : Set ι}
  {loaded loaded' : List ι → υ} {s s' : Machine ι υ} {I : Instruction ι}
  {path pre post : List (Instruction ι)} {past : List ι} {i x y : ι} {V : Value ι}

omit [LinearOrder ι] [DecidableEq υ] in
theorem differing_concat : Differing O loaded loaded' past (path ++ [I]) =
    Differing O loaded loaded' past path ∪ {L | O.isNcal I = true ∧ I.id = L ∧
      loaded ((path.map (·.id)).reverse ++ past) ≠ loaded' ((path.map (·.id)).reverse ++ past)} := by
  ext L
  constructor
  · rintro ⟨pre, J, post, hpath, hdiffer⟩
    rcases List.eq_nil_or_concat' post with rfl | ⟨post, K, rfl⟩
    · obtain ⟨rfl, hlast⟩ := List.append_inj' hpath rfl
      obtain rfl := List.head_eq_of_cons_eq hlast
      exact .inr hdiffer
    · rw [← List.cons_append, ← List.append_assoc] at hpath
      obtain ⟨rfl, -⟩ := List.append_inj' hpath rfl
      exact .inl ⟨pre, J, post, rfl, hdiffer⟩
  · rintro (⟨pre, J, post, rfl, hdiffer⟩ | hdiffer)
    · exact ⟨pre, J, post ++ [I], by simp, hdiffer⟩
    · exact ⟨path, I, [], rfl, hdiffer⟩

/-! ## One Step -/

omit [LinearOrder ι] [DecidableEq υ] in
/-- Operands differ only where instructions do. -/
theorem eval_ne {vals vals' : ι → υ} (h : sem.eval vals V ≠ sem.eval vals' V) :
    ∃ x, V = .inst x ∧ vals x ≠ vals' x := by
  cases V with
  | inst x => exact ⟨x, rfl, h⟩
  | other n => exact absurd rfl h

omit [DecidableEq υ] in
theorem TaintedBy.mono (h : TaintedBy T D i) (hD : D ⊆ D') : TaintedBy T D' i := by
  obtain ⟨L, hL, hhas⟩ := h
  exact ⟨L, hD hL, hhas⟩

omit [DecidableEq υ] in
theorem TaintedBy.step (h : TaintedBy T D x) (hT : Closed O F T) (hI : I ∈ F.instructions)
    (hstep : Step O F I x y) : TaintedBy T D y := by
  obtain ⟨L, hL, hhas⟩ := h
  exact ⟨L, hL, hT.step hI hstep hhas⟩

omit [LinearOrder ι] in
/-- What an instruction computes its result from makes the result depend on it. -/
theorem step_of_input (hhandled : I.Handled) (hvoid : I.kind.isVoid = false)
    (hassume : ∀ id void args, I.kind ≠ .intrinsic id void true args)
    (hload : ∀ ptr, I.kind ≠ .load ptr) (hx : .inst x ∈ I.kind.inputs) : Step O F I x I.id := by
  obtain ⟨id, kind⟩ := I
  cases kind with
  | load ptr => exact absurd rfl (hload ptr)
  | store value ptr => cases hx
  | call => cases hx
  | other void operands =>
    obtain rfl : void = false := hvoid
    exact .operand hx
  | intrinsic iid void assumeLike args =>
    obtain rfl : void = false := hvoid
    cases assumeLike with
    | true => exact absurd rfl (hassume _ _ _)
    | false =>
      rcases hhandled with hcase | hcase | hpass | ⟨rfl, -⟩
      · cases hcase
      · cases hcase
      · refine .argument hpass ?_
        simp only [Kind.inputs] at hx
        split_ifs at hx
        · exact List.mem_of_mem_take hx
        · exact hx
      · cases args with
        | nil => cases hx
        | cons arg args =>
          obtain rfl : Value.inst x = arg := by simpa [Kind.inputs] using hx
          exact .firstArgument

omit [DecidableEq υ] in
theorem Agree.refl (s : Machine ι υ) : Agree O F sem T D s s :=
  ⟨rfl, fun _ hne => absurd rfl hne, fun _ hne => absurd rfl hne, fun _ _ _ _ hne => absurd rfl hne⟩

omit [DecidableEq υ] in
theorem Agree.mono (h : Agree O F sem T D s s') (hD : D ⊆ D') : Agree O F sem T D' s s' :=
  ⟨h.past, fun i hne => (h.vals i hne).mono hD, fun i hne => (h.entered i hne).mono hD,
    fun l ptr hl hconst hne => (h.mem l ptr hl hconst hne).mono hD⟩

omit [DecidableEq υ] in
theorem Agree.operandVals (h : Agree O F sem T D s s')
    (hne : sem.operandVals s i x ≠ sem.operandVals s' i x) : TaintedBy T D x := by
  unfold Semantics.operandVals at hne
  split_ifs at hne
  · exact h.entered x hne
  · exact h.vals x hne

omit [DecidableEq υ] in
/-- Results differ only where the analysis reports it. -/
theorem Agree.result (hT : Closed O F T) (hI : I ∈ F.instructions) (hhandled : I.Handled)
    (hvoid : I.kind.isVoid = false) (h : Agree O F sem T D s s')
    (hnew : O.isNcal I = true → loaded s.past ≠ loaded' s.past → I.id ∈ D)
    (hne : sem.result O loaded s I ≠ sem.result O loaded' s' I) : TaintedBy T D I.id := by
  have hcomputed (hassume : ∀ id void args, I.kind ≠ .intrinsic id void true args)
      (hload : ∀ ptr, I.kind ≠ .load ptr)
      (hne : sem.computed s I ≠ sem.computed s' I) : TaintedBy T D I.id := by
    obtain ⟨V, hV, hneV⟩ : ∃ V ∈ I.kind.inputs,
        sem.eval (sem.operandVals s I.id) V ≠ sem.eval (sem.operandVals s' I.id) V := by
      by_contra hall
      push Not at hall
      exact hne (by rw [Semantics.computed, Semantics.computed, h.past, List.map_congr_left hall])
    obtain ⟨x, rfl, hnex⟩ := eval_ne hneV
    exact (h.operandVals hnex).step hT hI (step_of_input hhandled hvoid hassume hload hV)
  obtain ⟨id, kind⟩ := I
  unfold Semantics.result at hne
  cases kind with
  | load ptr =>
    cases hconst : O.isConstantAddress ptr with
    | true =>
      simp only [hconst, if_true] at hne
      exact h.mem id ptr hI hconst hne
    | false =>
      have hncal : O.isNcal ⟨id, .load ptr⟩ = true := by simp [Oracles.isNcal, hconst]
      simp only [hconst, h.past, Bool.false_eq_true, if_false] at hne
      exact ⟨id, hnew hncal hne, hT.ncal ⟨_, hI, hncal, rfl⟩⟩
  | store value ptr => cases hvoid
  | call => exact absurd (by simp only [h.past]) hne
  | other void operands => exact hcomputed (fun _ _ _ h => by cases h) (fun _ h => by cases h) hne
  | intrinsic iid void assumeLike args =>
    cases assumeLike with
    | true => exact absurd (by simp only [h.past, if_true]) hne
    | false => exact hcomputed (fun _ _ _ h => by cases h) (fun _ h => by cases h) hne

/-- Memory at constant addresses differs only where the analysis reports it. -/
theorem Agree.write (hT : Closed O F T) (halias : ∀ p q, O.aliasResult p q ≠ .partialAlias)
    (hmay : O.unsafeAA = false) (hI : I ∈ F.instructions) (h : Agree O F sem T D s s')
    (hbounds : InBounds O F sem s I) (hsame : SameAddress sem s s' I) {l : ι} {ptr : Value ι}
    (hl : ⟨l, .load ptr⟩ ∈ F.instructions) (hconst : O.isConstantAddress ptr = true)
    (hne : sem.write s I (sem.address ptr) ≠ sem.write s' I (sem.address ptr)) :
    TaintedBy T D l := by
  have hother (writes : υ → Option υ)
      (hne : (writes (sem.address ptr)).getD (s.mem (sem.address ptr)) ≠
        (writes (sem.address ptr)).getD (s'.mem (sem.address ptr))) : TaintedBy T D l := by
    refine h.mem l ptr hl hconst fun heq => hne ?_
    rw [heq]
  obtain ⟨id, kind⟩ := I
  unfold Semantics.write at hne
  rw [h.past] at hne
  cases kind with
  | load _ => exact h.mem l ptr hl hconst hne
  | intrinsic => exact hother _ hne
  | call => exact hother _ hne
  | other => exact hother _ hne
  | store value storePtr =>
    simp only at hne
    rw [← hsame value storePtr rfl] at hne
    by_cases haddress : sem.address ptr = sem.eval s.vals storePtr
    · rw [haddress, Function.update_self, Function.update_self] at hne
      obtain ⟨x, rfl, hnex⟩ := eval_ne hne
      have hread : O.MayRead storePtr ptr := by
        have hbound := hbounds _ _ rfl l ptr hl hconst
        unfold Oracles.MayRead
        cases hcase : O.aliasResult storePtr ptr with
        | noAlias => exact absurd haddress.symm (hbound hcase)
        | partialAlias => exact absurd hcase (halias _ _)
        | mayAlias => exact hmay
        | mustAlias => trivial
      exact (h.vals x hnex).step hT hI (.stored hl hconst hread)
    · rw [Function.update_of_ne haddress, Function.update_of_ne haddress] at hne
      exact h.mem l ptr hl hconst hne

/-- A step keeps the agreement. A load that returns different values has to be among those that
taint. -/
theorem Agree.step (hT : Closed O F T) (halias : ∀ p q, O.aliasResult p q ≠ .partialAlias)
    (hmay : O.unsafeAA = false) (hI : I ∈ F.instructions) (hhandled : I.Handled)
    (h : Agree O F sem T D s s') (hbounds : InBounds O F sem s I)
    (hsame : SameAddress sem s s' I) (hD : D ⊆ D')
    (hnew : O.isNcal I = true → loaded s.past ≠ loaded' s.past → I.id ∈ D') :
    Agree O F sem T D' (sem.step O loaded s I) (sem.step O loaded' s' I) := by
  have hmore : Agree O F sem T D' s s' := h.mono hD
  have hvals (i : ι) (hne : (sem.step O loaded s I).vals i ≠ (sem.step O loaded' s' I).vals i) :
      TaintedBy T D' i := by
    rw [Semantics.step_vals, Semantics.step_vals] at hne
    cases hvoid : I.kind.isVoid with
    | true =>
      rw [if_pos hvoid, if_pos hvoid] at hne
      exact hmore.vals i hne
    | false =>
      rw [if_neg (by simp [hvoid]), if_neg (by simp [hvoid])] at hne
      by_cases hi : i = I.id
      · subst hi
        rw [Function.update_self, Function.update_self] at hne
        exact hmore.result hT hI hhandled hvoid hnew hne
      · rw [Function.update_of_ne hi, Function.update_of_ne hi] at hne
        exact hmore.vals i hne
  refine ⟨?_, hvals, fun i hne => ?_, fun l ptr hl hconst hne => ?_⟩
  · exact congrArg (I.id :: ·) h.past
  · rw [Semantics.step_entered, Semantics.step_entered] at hne
    split_ifs at hne
    · exact hmore.entered i hne
    · exact hvals i hne
  · exact hmore.write hT halias hmay hI hbounds hsame hl hconst hne

/-! ## Whole Runs -/

theorem Semantics.run_past : (sem.run O loaded s path).past =
    (path.map (·.id)).reverse ++ s.past := by
  induction path using List.reverseRecOn with
  | nil => rfl
  | append_singleton path I ih =>
    rw [Semantics.run_concat]
    change I.id :: (sem.run O loaded s path).past = _
    rw [ih]
    simp

/-- Two runs along a path agree but for what the loads taint that have returned different
values. -/
theorem Agree.run (hT : Closed O F T) (halias : ∀ p q, O.aliasResult p q ≠ .partialAlias)
    (hmay : O.unsafeAA = false) (hhandled : ∀ I ∈ F.instructions, I.Handled)
    (h : Agree O F sem T ∅ s s') (hpath : ∀ I ∈ path, I ∈ F.instructions)
    (hbounds : InBoundsAlong O F sem loaded s path)
    (hsame : ∀ pre I post, path = pre ++ I :: post →
      SameAddress sem (sem.run O loaded s pre) (sem.run O loaded' s' pre) I) :
    Agree O F sem T (Differing O loaded loaded' s.past path) (sem.run O loaded s path)
      (sem.run O loaded' s' path) := by
  induction path using List.reverseRecOn with
  | nil => exact h.mono (Set.empty_subset _)
  | append_singleton path I ih =>
    have hlonger {pre J post} (hsplit : path = pre ++ J :: post) :
        path ++ [I] = pre ++ J :: (post ++ [I]) := by
      rw [hsplit, List.append_assoc]
      rfl
    have hI : I ∈ F.instructions := hpath I (by simp)
    have hagree := ih (fun J hJ => hpath J (List.mem_append_left _ hJ))
      (fun pre J post hsplit => hbounds pre J _ (hlonger hsplit))
      (fun pre J post hsplit => hsame pre J _ (hlonger hsplit))
    rw [Semantics.run_concat, Semantics.run_concat, differing_concat]
    refine hagree.step hT halias hmay hI (hhandled I hI) (hbounds path I [] rfl)
      (hsame path I [] rfl) Set.subset_union_left fun hncal hne => .inr ⟨hncal, rfl, ?_⟩
    rwa [Semantics.run_past] at hne

theorem Final.closed {t : State ι} (h : Final O F t T) (hrerouted : Rerouted O F) :
    Closed O F T where
  ncal hL := h.complete hL .refl
  step hI hstep hhas := by
    obtain ⟨hL, hchain⟩ := h.sound hhas
    exact h.complete hL (hrerouted _ _ hL (hchain.tail ⟨_, hI, hstep⟩))

/-- Let two runs begin alike, take the same path and store to the same addresses, in bounds. Then
they differ at most in what the analysis reports as tainted by loads of the path that have
returned different values. -/
theorem runOnFunction_noninterference (ndebug : Bool) (fuel : Nat) (O : Oracles ι)
    (F : IRFunction ι) (halias : ∀ p q, O.aliasResult p q ≠ .partialAlias)
    (hmay : O.unsafeAA = false) (hhandled : ∀ I ∈ F.instructions, I.Handled)
    (hrerouted : Rerouted O F) (hret : runOnFunction ndebug O fuel F = .ok T)
    (sem : Semantics ι υ) (loaded loaded' : List ι → υ) (s : Machine ι υ)
    (path : List (Instruction ι)) (hpath : ∀ I ∈ path, I ∈ F.instructions)
    (hbounds : InBoundsAlong O F sem loaded s path)
    (hsame : ∀ pre I post, path = pre ++ I :: post →
      SameAddress sem (sem.run O loaded s pre) (sem.run O loaded' s pre) I) :
    Agree O F sem T (Differing O loaded loaded' s.past path) (sem.run O loaded s path)
      (sem.run O loaded' s path) := by
  obtain ⟨t, hfinal⟩ := exists_final halias hhandled hret
  exact Agree.run (hfinal.closed hrerouted) halias hmay hhandled (.refl s) hpath hbounds hsame

/-! ## A Loop -/

/-- A loop that reads back what it has stored in the iteration before. -/
def storeLoop : IRFunction Nat where
  blocks := [entryBlock, [⟨4, .load (.other 1)⟩, ⟨2, .load (.other 0)⟩,
    ⟨1, .store (.inst 4) (.other 0)⟩, ⟨5, .other true []⟩]]
  nodup := by decide

theorem mem_storeLoop {I : Instruction Nat} : I ∈ storeLoop.instructions ↔
    I = ⟨0, .other true []⟩ ∨ I = ⟨4, .load (.other 1)⟩ ∨ I = ⟨2, .load (.other 0)⟩ ∨
      I = ⟨1, .store (.inst 4) (.other 0)⟩ ∨ I = ⟨5, .other true []⟩ := by
  simp [storeLoop, entryBlock, IRFunction.instructions]

/-- Behind the store there is only the jump to the beginning of the loop. -/
theorem rerouted_storeLoop : Rerouted oneAddress storeLoop := by
  have horder (L : Nat) (S : Instruction Nat) (hS : S.IsStore) (hmem : S ∈ storeLoop.instructions) :
      InOrder oneAddress storeLoop L S := by
    intro pre post hsplit x y hstep J hJ hbrings
    obtain ⟨value, ptr, hkind⟩ := hS
    have hS : S = ⟨1, .store (.inst 4) (.other 0)⟩ := by
      rcases mem_storeLoop.mp hmem with rfl | rfl | rfl | rfl | rfl <;> first | rfl | cases hkind
    subst hS
    have hpost : behind storeLoop ⟨1, .store (.inst 4) (.other 0)⟩ = [⟨5, .other true []⟩] := by
      decide
    rw [behind_eq hsplit] at hpost
    rw [hpost, List.mem_singleton] at hJ
    subst hJ
    rcases hbrings with ⟨hncal, -⟩ | ⟨w, hstep', -⟩
    · cases hncal
    · cases hstep'
  intro L i _ hchain
  induction hchain with
  | refl => exact .refl
  | tail _ hlast ih =>
    obtain ⟨I, hI, hstep⟩ := hlast
    exact ih.tail ⟨I, hI, fun hS => horder L I hS hI, hstep⟩

def plainSemantics : Semantics Nat Nat where
  isPHINode _ := false
  constant n := n
  address _ := 0
  compute _ _ vals := vals.headD 0
  returns _ _ := 0
  writes _ _ _ := none

/-- One iteration of the loop, and the next one up to what it reads back. -/
def loopPath : List (Instruction Nat) :=
  [⟨4, .load (.other 1)⟩, ⟨2, .load (.other 0)⟩, ⟨1, .store (.inst 4) (.other 0)⟩,
    ⟨5, .other true []⟩, ⟨4, .load (.other 1)⟩, ⟨2, .load (.other 0)⟩]

/-- What is read back differs in two runs, and the analysis has reported it. -/
theorem runOnFunction_noninterference_storeLoop :
    ∃ T, runOnFunction false oneAddress 4 storeLoop = .ok T ∧ ∃ L, T.Has L 2 := by
  have hhandled : ∀ I ∈ storeLoop.instructions, I.Handled := fun I hI => by
    rcases mem_storeLoop.mp hI with rfl | rfl | rfl | rfl | rfl <;> trivial
  let T : TaintMap Nat := ⟨[(2, ⟨[4], by decide⟩), (4, ⟨[4], by decide⟩)], by decide⟩
  have hret : runOnFunction false oneAddress 4 storeLoop = .ok T := by decide +kernel
  have hagree := runOnFunction_noninterference false 4 oneAddress storeLoop
    (fun _ _ h => by cases h) rfl hhandled rerouted_storeLoop hret plainSemantics (fun _ => 0)
    (fun _ => 1) ⟨[], fun _ => 0, fun _ => 0, fun _ => 0⟩ loopPath (by
      intro I hI
      simp only [loopPath, List.mem_cons, List.not_mem_nil, or_false] at hI
      rw [mem_storeLoop]
      tauto) (fun _ _ _ _ _ _ _ _ _ _ _ halias => by cases halias) (by
      intro pre I post hsplit value ptr hkind
      have hI : I ∈ loopPath := by simp [hsplit]
      simp only [loopPath, List.mem_cons, List.not_mem_nil, or_false] at hI
      rcases hI with rfl | rfl | rfl | rfl | rfl | rfl <;> cases hkind
      rfl)
  obtain ⟨L, -, hhas⟩ := hagree.vals 2 (by decide)
  exact ⟨T, hret, L, hhas⟩

end Clou.SpeculativeTaint
