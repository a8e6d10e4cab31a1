-- SUMMARY: How a run of the program can fail to return, and the assertions it checks on its way.
import Mathlib.Data.List.Forall2
import Mathlib.Tactic.Common

/-!
# Execution

A call returns a value or fails. It fails when a loop has used up the fuel that
the model gives it, when `at` is asked for a key that is not there, or when an
assertion does not hold. Builds with `NDEBUG` skip the assertions.
-/

namespace Clou

/-- The assertions of the modelled functions. -/
inductive Assertion where
  /-- `assert(waypoint_sets.size() >= 2)` -/
  | enoughWaypoints
  /-- `assert(st.size() >= 2)` -/
  | enoughGroups
  /-- `assert(w > 0)` -/
  | weightPositive
  /-- `assert(path.size() >= 2)` -/
  | pathSize
  /-- `assert(path_flow > 0 && path_flow < std::numeric_limits<unsigned>::max())` -/
  | pathFlow
  /-- `assert(inserted && "Cut edge still in graph G!")` -/
  | cutEdgeInserted
  /-- `assert(G.at(e.src).find(e.dst) != G.at(e.src).end())` -/
  | newCutEdgePresent
  /-- `assert(erased > 0)` -/
  | cutEdgeErased
  /-- `assert(mode == Mode::Replace)` -/
  | modeReplace
  /-- `assert(orig_size == uniq_size)` -/
  | noRedundantEdges
  /-- `assert(it != nodes.end() && *it == node)` -/
  | nodeFound
  /-- `assert(idx < nodes.size())` -/
  | indexInRange
  /-- `assert(it != ncals.end() && *it == LI)` -/
  | ncalFound
  /-- `assert(idx < ncals.size())` -/
  | ncalInRange
  /-- `assert(II->getType()->isVoidTy())` -/
  | invalidIsVoid
  /-- `assert(!F.getName().endswith(suffix) && "Infinite cloning loop!")` -/
  | noCloningLoop
  /-- `assert(src->isTerminator())` -/
  | srcIsTerminator
  /-- `assert(llvm::isa<MitigationInst>(I))` -/
  | prevIsMitigation
  /-- `assert(UI->getOpcode() == llvm::UnaryOperator::UnaryOps::FNeg)` -/
  | unaryIsFNeg
  /-- `assert(I != EntryInst)` -/
  | notEntryInst
  /-- `assert(reach.contains(EntryInst))` -/
  | entryInstReaches
  /-- `assert(!skip.contains(CB))` -/
  | callNotSkipped
  deriving DecidableEq

/-- Why a call did not return. -/
inductive Fault where
  | outOfFuel
  /-- The back-tracing of a path met a node without a parent. -/
  | noParent
  /-- `at` or `operator[]` behind the last element, or without the key. -/
  | outOfRange
  /-- `llvm::isa` of a null pointer. -/
  | nullPointer
  /-- `std::abort` -/
  | abort
  /-- `std::_Exit(EXIT_FAILURE)` -/
  | exit
  | assertion (a : Assertion)
  deriving DecidableEq

abbrev Exec := Except Fault

/-- `assert(p)`; a build with `ndebug` does not check it. -/
def assert (ndebug : Bool) (a : Assertion) (p : Prop) [Decidable p] : Exec Unit :=
  if ndebug = true ∨ p then pure () else throw (.assertion a)

@[simp] theorem assert_of {ndebug : Bool} {a : Assertion} {p : Prop} [Decidable p] (h : p) :
    assert ndebug a p = .ok () := by
  simp [assert, h, pure, Except.pure]

/-- A sequence returns when its parts do. -/
theorem Exec.bind_eq_ok {α β : Type} {x : Exec α} {f : α → Exec β} {b : β} :
    x >>= f = .ok b ↔ ∃ a, x = .ok a ∧ f a = .ok b := by
  cases x <;> simp [bind, Except.bind]

theorem Exec.bind_returns {α β : Type} {x : Exec α} {f : α → Exec β} {a : α} (hx : x = .ok a)
    (hf : ∃ b, f a = .ok b) : ∃ b, x >>= f = .ok b :=
  let ⟨b, hb⟩ := hf
  ⟨b, Exec.bind_eq_ok.mpr ⟨a, hx, hb⟩⟩

/-- A fold that returns keeps what its steps keep; `P` may speak of the elements
that have been folded. -/
theorem Exec.foldlM_inv {α β : Type} {f : α → β → Exec α} {P : List β → α → Prop} {l : List β}
    {a a' : α} (hstep : ∀ done b a a', b ∈ l → P done a → f a b = .ok a' → P (done ++ [b]) a')
    (ha : P [] a) (hret : l.foldlM f a = .ok a') : P l a' := by
  have key (done rest : List β) (a : α) (hrest : ∀ b ∈ rest, b ∈ l) (ha : P done a)
      (hret : rest.foldlM f a = .ok a') : P (done ++ rest) a' := by
    induction rest generalizing done a with
    | nil =>
      cases hret
      rwa [List.append_nil]
    | cons b rest ih =>
      obtain ⟨hb, hrest⟩ := List.forall_mem_cons.mp hrest
      rw [List.foldlM_cons, Exec.bind_eq_ok] at hret
      obtain ⟨a₁, hstep₁, hret⟩ := hret
      have hfinal := ih (done ++ [b]) a₁ hrest (hstep done b a a₁ hb ha hstep₁) hret
      rwa [List.append_assoc] at hfinal
  exact key [] l a (fun _ h => h) ha hret

/-- A fold whose steps all return, and keep `P`, returns with `P`. -/
theorem Exec.foldlM_returns {α β : Type} {f : α → β → Exec α} {P : List β → α → Prop}
    {l : List β} {a : α}
    (hstep : ∀ done b a, b ∈ l → P done a → ∃ a', f a b = .ok a' ∧ P (done ++ [b]) a')
    (ha : P [] a) : ∃ a', l.foldlM f a = .ok a' ∧ P l a' := by
  have key (done rest : List β) (a : α) (hrest : ∀ b ∈ rest, b ∈ l) (ha : P done a) :
      ∃ a', rest.foldlM f a = .ok a' ∧ P (done ++ rest) a' := by
    induction rest generalizing done a with
    | nil =>
      rw [List.append_nil]
      exact ⟨a, rfl, ha⟩
    | cons b rest ih =>
      obtain ⟨hb, hrest⟩ := List.forall_mem_cons.mp hrest
      obtain ⟨a₁, hf, ha₁⟩ := hstep done b a hb ha
      obtain ⟨a', hret, ha'⟩ := ih (done ++ [b]) a₁ hrest ha₁
      rw [List.append_assoc] at ha'
      rw [List.foldlM_cons, hf]
      exact ⟨a', hret, ha'⟩
  exact key [] l a (fun _ h => h) ha

/-- A fold whose steps all return, returns. -/
theorem Exec.foldlM_total {α β : Type} {f : α → β → Exec α} {l : List β}
    (hstep : ∀ b ∈ l, ∀ a, ∃ a', f a b = .ok a') (a : α) : ∃ a', l.foldlM f a = .ok a' := by
  induction l generalizing a with
  | nil => exact ⟨a, rfl⟩
  | cons b l ih =>
    obtain ⟨hb, hl⟩ := List.forall_mem_cons.mp hstep
    obtain ⟨a₁, hf⟩ := hb a
    rw [List.foldlM_cons]
    exact Exec.bind_returns hf (ih hl a₁)

/-- `P` holds after a fold when it held before or one of the elements has brought it about. -/
theorem Exec.foldlM_adds {α β : Type} {f : α → β → Exec α} {P : α → Prop} {Q : β → Prop} {l : List β}
    {a a' : α} (hstep : ∀ b ∈ l, ∀ a a', f a b = .ok a' → (P a' ↔ P a ∨ Q b))
    (hret : l.foldlM f a = .ok a') : P a' ↔ P a ∨ ∃ b ∈ l, Q b := by
  induction l generalizing a with
  | nil =>
    cases hret
    simp
  | cons b l ih =>
    obtain ⟨hb, hl⟩ := List.forall_mem_cons.mp hstep
    rw [List.foldlM_cons] at hret
    obtain ⟨a₁, hf, hret⟩ := Exec.bind_eq_ok.mp hret
    rw [ih hl hret, hb a a₁ hf, List.exists_mem_cons_iff, or_assoc]

/-- A loop whose steps all return, returns. -/
theorem Exec.forM_ok {α : Type} {f : α → Exec Unit} {l : List α} (h : ∀ a ∈ l, f a = .ok ()) :
    l.forM f = .ok () := by
  induction l with
  | nil => rfl
  | cons a l ih =>
    obtain ⟨ha, hl⟩ := List.forall_mem_cons.mp h
    change (f a >>= fun _ => l.forM f) = _
    rw [ha]
    exact ih hl

/-- A test of the elements that returns says whether one of them passes. -/
theorem Exec.anyM_ok {α : Type} {p : α → Exec Bool} {l : List α} {b : Bool}
    (hret : l.anyM p = .ok b) : b = true ↔ ∃ a ∈ l, p a = .ok true := by
  induction l with
  | nil =>
    cases hret
    simp
  | cons a l ih =>
    obtain ⟨found, hfound, hret⟩ := Exec.bind_eq_ok.mp hret
    rw [List.exists_mem_cons_iff, hfound]
    cases found with
    | true =>
      cases hret
      simp
    | false =>
      rw [ih hret]
      simp

/-- A map that returns has mapped every element. -/
theorem Exec.mapM_eq_ok {α β : Type} {f : α → Exec β} {l : List α} {l' : List β}
    (hret : l.mapM f = .ok l') : List.Forall₂ (fun a b => f a = .ok b) l l' := by
  induction l generalizing l' with
  | nil =>
    cases hret
    exact .nil
  | cons a l ih =>
    rw [List.mapM_cons] at hret
    obtain ⟨b, hb, hret⟩ := Exec.bind_eq_ok.mp hret
    obtain ⟨bs, hbs, hret⟩ := Exec.bind_eq_ok.mp hret
    cases hret
    exact .cons hb (ih hbs)

/-- An element of the result of a map comes from an element of the list. -/
theorem Exec.exists_of_mem_mapM {α β : Type} {f : α → Exec β} {l : List α} {l' : List β} {b : β}
    (hret : l.mapM f = .ok l') (hb : b ∈ l') : ∃ a ∈ l, f a = .ok b := by
  have hall := Exec.mapM_eq_ok hret
  clear hret
  induction hall with
  | nil => cases hb
  | @cons a b' l l' hf _ ih =>
    rcases List.mem_cons.mp hb with rfl | hb
    · exact ⟨a, .head _, hf⟩
    · obtain ⟨a', ha', hf'⟩ := ih hb
      exact ⟨a', .tail _ ha', hf'⟩

/-- A map returns when every element is mapped. -/
theorem Exec.mapM_returns {α β : Type} {f : α → Exec β} {l : List α}
    (h : ∀ a ∈ l, ∃ b, f a = .ok b) : ∃ l', l.mapM f = .ok l' := by
  induction l with
  | nil => exact ⟨[], rfl⟩
  | cons a l ih =>
    obtain ⟨⟨b, hb⟩, hl⟩ := List.forall_mem_cons.mp h
    obtain ⟨bs, hbs⟩ := ih hl
    refine ⟨b :: bs, ?_⟩
    rw [List.mapM_cons, hb]
    change (l.mapM f >>= fun bs => pure (b :: bs)) = _
    rw [hbs]
    rfl

/-! ## Faults -/

/-- A call that fails does so with a fault in `P`. -/
def Exec.Faults {α : Type} (P : Fault → Prop) (x : Exec α) : Prop := ∀ f, x = .error f → P f

section Faults

variable {α β : Type} {P : Fault → Prop}

theorem Exec.faults_pure (a : α) : Exec.Faults P (pure a) := by
  intro f h
  cases h

theorem Exec.faults_throw {f : Fault} (h : P f) : Exec.Faults P (throw f : Exec α) := by
  intro f' h'
  cases h'
  exact h

theorem Exec.faults_assert {ndebug : Bool} {a : Assertion} {p : Prop} [Decidable p]
    (h : P (.assertion a)) : Exec.Faults P (assert ndebug a p) := by
  unfold assert
  split_ifs
  · exact faults_pure ()
  · exact faults_throw h

theorem Exec.Faults.bind_of {x : Exec α} {f : α → Exec β} (hx : Exec.Faults P x)
    (hf : ∀ a, x = .ok a → Exec.Faults P (f a)) : Exec.Faults P (x >>= f) := by
  cases x with
  | error e => exact fun f' h => hx f' (by cases h; rfl)
  | ok a => exact hf a rfl

theorem Exec.Faults.bind {x : Exec α} {f : α → Exec β} (hx : Exec.Faults P x)
    (hf : ∀ a, Exec.Faults P (f a)) : Exec.Faults P (x >>= f) := hx.bind_of fun a _ => hf a

theorem Exec.Faults.foldlM {f : α → β → Exec α} (hf : ∀ a b, Exec.Faults P (f a b)) (l : List β)
    (a : α) : Exec.Faults P (l.foldlM f a) := by
  induction l generalizing a with
  | nil => exact faults_pure a
  | cons b l ih =>
    rw [List.foldlM_cons]
    exact (hf a b).bind ih

theorem Exec.Faults.mapM {f : α → Exec β} (hf : ∀ a, Exec.Faults P (f a)) (l : List α) :
    Exec.Faults P (l.mapM f) := by
  induction l with
  | nil => exact faults_pure []
  | cons a l ih =>
    rw [List.mapM_cons]
    exact (hf a).bind fun b => ih.bind fun bs => faults_pure _

theorem Exec.Faults.mono {Q : Fault → Prop} {x : Exec α} (h : Exec.Faults P x)
    (hPQ : ∀ f, P f → Q f) : Exec.Faults Q x := fun f hf => hPQ f (h f hf)

end Faults

/-! ## Loops -/

/-- Two loops over a list agree when their bodies do in every state that is kept. -/
theorem Exec.foldlM_congr {α β : Type} {f g : α → β → Exec α} {P : α → Prop} {l : List β} {a : α}
    (hstep : ∀ b ∈ l, ∀ a, P a → f a b = g a b ∧ ∀ a', g a b = .ok a' → P a') (ha : P a) :
    l.foldlM f a = l.foldlM g a ∧ ∀ a', l.foldlM g a = .ok a' → P a' := by
  induction l generalizing a with
  | nil =>
    refine ⟨rfl, fun a' hret => ?_⟩
    cases hret
    exact ha
  | cons b l ih =>
    obtain ⟨hb, hl⟩ := List.forall_mem_cons.mp hstep
    obtain ⟨heq, hkeep⟩ := hb a ha
    rw [List.foldlM_cons, List.foldlM_cons, heq]
    cases hret : g a b with
    | error fault =>
      refine ⟨rfl, fun a' h => ?_⟩
      cases h
    | ok a' => exact ih hl (hkeep a' hret)

/-- `do { … } while (again)` -/
def doWhile {α : Type} (body : α → Exec (α × Bool)) : Nat → α → Exec α
  | 0, _ => throw .outOfFuel
  | fuel + 1, a => do
    let (a, again) ← body a
    if again then doWhile body fuel a else pure a

section DoWhile

variable {α : Type} {body : α → Exec (α × Bool)} {P : α → Prop}

/-- The result of a loop comes from a last round, which asked for no other. -/
theorem doWhile_last {fuel : Nat} {a b : α}
    (hstep : ∀ a a', P a → body a = .ok (a', true) → P a') (ha : P a)
    (hret : doWhile body fuel a = .ok b) : ∃ a', P a' ∧ body a' = .ok (b, false) := by
  induction fuel generalizing a with
  | zero => simp [doWhile, throw, throwThe, MonadExceptOf.throw] at hret
  | succ fuel ih =>
    simp only [doWhile, Exec.bind_eq_ok] at hret
    obtain ⟨⟨a', again⟩, hbody, hret⟩ := hret
    cases again with
    | true => exact ih (hstep a a' ha hbody) hret
    | false =>
      obtain rfl : a' = b := by simpa [pure, Except.pure] using hret
      exact ⟨a, ha, hbody⟩

/-- A loop that returns keeps what its body keeps. -/
theorem doWhile_inv {fuel : Nat} {a b : α} (hstep : ∀ a r, P a → body a = .ok r → P r.1) (ha : P a)
    (hret : doWhile body fuel a = .ok b) : P b ∧ ∃ a', P a' ∧ body a' = .ok (b, false) := by
  obtain ⟨a', ha', hlast⟩ := doWhile_last (fun a a' h hbody => hstep a _ h hbody) ha hret
  exact ⟨hstep a' _ ha' hlast, a', ha', hlast⟩

/-- A loop fails in a round that was reached, or for lack of fuel. -/
theorem doWhile_fault {fuel : Nat} {a : α} {f : Fault}
    (hstep : ∀ a a', P a → body a = .ok (a', true) → P a') (ha : P a)
    (hret : doWhile body fuel a = .error f) : f = .outOfFuel ∨ ∃ a', P a' ∧ body a' = .error f := by
  induction fuel generalizing a with
  | zero =>
    cases hret
    exact .inl rfl
  | succ fuel ih =>
    unfold doWhile at hret
    cases hbody : body a with
    | error f' =>
      rw [hbody] at hret
      cases hret
      exact .inr ⟨a, ha, hbody⟩
    | ok r =>
      obtain ⟨a', again⟩ := r
      rw [hbody] at hret
      cases again with
      | true => exact ih (hstep a a' ha hbody) hret
      | false => cases hret

/-- Two loops agree when their bodies do in every state that is kept. -/
theorem doWhile_congr {body' : α → Exec (α × Bool)} {fuel : Nat} {a : α}
    (hstep : ∀ a, P a → body a = body' a ∧ ∀ r, body' a = .ok r → P r.1) (ha : P a) :
    doWhile body fuel a = doWhile body' fuel a := by
  induction fuel generalizing a with
  | zero => rfl
  | succ fuel ih =>
    obtain ⟨heq, hkeep⟩ := hstep a ha
    unfold doWhile
    rw [heq]
    cases hret : body' a with
    | error fault => rfl
    | ok r =>
      obtain ⟨a', again⟩ := r
      cases again with
      | true => exact ih (hkeep _ hret)
      | false => rfl

/-- More fuel does not change the result. -/
theorem doWhile_mono {fuel fuel' : Nat} {a b : α} (hle : fuel ≤ fuel')
    (hret : doWhile body fuel a = .ok b) : doWhile body fuel' a = .ok b := by
  induction fuel generalizing fuel' a with
  | zero => simp [doWhile, throw, throwThe, MonadExceptOf.throw] at hret
  | succ fuel ih =>
    cases fuel' with
    | zero => exact absurd hle (Nat.not_succ_le_zero fuel)
    | succ fuel' =>
      simp only [doWhile, Exec.bind_eq_ok] at hret ⊢
      obtain ⟨⟨a', again⟩, hbody, hret⟩ := hret
      refine ⟨(a', again), hbody, ?_⟩
      cases again with
      | true => exact ih (Nat.le_of_succ_le_succ hle) hret
      | false => exact hret

/-- A loop returns when every round that asks for another one lowers a measure. -/
theorem doWhile_returns {μ : α → Nat} {fuel : Nat} {a : α}
    (hbody : ∀ a, P a → ∃ r, body a = .ok r ∧ P r.1 ∧ (r.2 = true → μ r.1 < μ a)) (ha : P a)
    (hfuel : μ a < fuel) : ∃ b, doWhile body fuel a = .ok b := by
  induction fuel generalizing a with
  | zero => exact absurd hfuel (Nat.not_lt_zero _)
  | succ fuel ih =>
    obtain ⟨⟨a', again⟩, hret, ha', hlt⟩ := hbody a ha
    simp only [doWhile, hret, bind, Except.bind]
    cases again with
    | true =>
      have := hlt rfl
      exact ih ha' (by simp only at this; omega)
    | false => exact ⟨a', rfl⟩

end DoWhile

end Clou
