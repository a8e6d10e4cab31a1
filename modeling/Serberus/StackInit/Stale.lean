-- SUMMARY: Runs of a function that the pass leaves do not depend on what memory holds where nothing is allocated.
import Mathlib.Algebra.GroupWithZero.Nat
import Serberus.StackInit.Machine

/-!
# Stale Memory

Two runs begin with memories that agree where something is allocated. They stay in agreement
wherever no inserted instruction is next: behind an `alloca` its bytes are still stale, but the
inserted instructions that are next clear them. A store of an integer leaves the padding of its
type as it is, so the types of slots that are cleared by a store must have none.
-/

open Relation

namespace Clou.StackInit

section Slots

variable {κ ι β ε ρ υ : Type} [Zero υ] {sem : Semantics κ ι β ε ρ υ} {AI : AllocaInst ι}
  {ks : List (Inserted ι)} {r : ρ} {s : Scratch υ}

/-- A slot that a store clears is no larger than what the store writes. -/
def AllocaInst.NoPadding (AI : AllocaInst ι) : Prop :=
  AI.isArrayAllocation = false → AI.allocatedType.isIntOrPtrTy = true →
    AI.allocatedType.allocSize ≤ AI.allocatedType.storeSize

/-- How many bytes are cleared behind an `alloca`. -/
def clearedSize (sem : Semantics κ ι β ε ρ υ) (r : ρ) (AI : AllocaInst ι) : Nat :=
  if AI.isArrayAllocation then slotSize sem r AI
  else if AI.allocatedType.isIntOrPtrTy then AI.allocatedType.storeSize
  else AI.allocatedType.allocSize

omit [Zero υ] in
/-- The size of a slot does not depend on its address. -/
theorem slotSize_bind (p : Nat) : slotSize sem (sem.bind r AI.id p) AI = slotSize sem r AI := by
  unfold slotSize
  cases hsize : AI.arraySize with
  | constantInt n => rfl
  | value V =>
    have hne : V ≠ AI.id := fun heq => AI.arraySize_ne (heq ▸ hsize)
    simp only [sem.value_bind r AI.id p V hne]

theorem evals_initializers (hret : initializers AI = .ok ks) : (evals sem r ks s).mem =
    clear (sem.address r AI.id) (clearedSize sem r AI) s.mem := by
  unfold initializers at hret
  unfold clearedSize slotSize
  dsimp only at hret
  split_ifs at hret ⊢ with harray hbits hint
  · cases hsize : AI.arraySize with
    | constantInt n | value V =>
      rw [hsize] at hret
      cases hret
      rfl
  all_goals
    cases hret
    rfl

omit [Zero υ] in
/-- A slot that is no array is as large as its type. -/
theorem slotSize_of_not_isArrayAllocation (sem : Semantics κ ι β ε ρ υ) (r : ρ)
    (h : AI.isArrayAllocation = false) : slotSize sem r AI = AI.allocatedType.allocSize % UInt64.size := by
  unfold AllocaInst.isArrayAllocation at h
  unfold slotSize
  cases hsize : AI.arraySize with
  | constantInt n =>
    rw [hsize] at h
    obtain rfl : n = 1 := by simpa using h
    dsimp only
    rw [Nat.mul_one]
  | value V =>
    rw [hsize] at h
    cases h

omit [Zero υ] in
/-- All of a slot without padding is cleared. -/
theorem slotSize_le_clearedSize (h : AI.NoPadding) : slotSize sem r AI ≤ clearedSize sem r AI := by
  unfold clearedSize
  split_ifs with harray hint
  · exact le_rfl
  · rw [slotSize_of_not_isArrayAllocation sem r (Bool.eq_false_of_not_eq_true harray)]
    exact (Nat.mod_le _ _).trans (h (Bool.eq_false_of_not_eq_true harray) hint)
  · rw [slotSize_of_not_isArrayAllocation sem r (Bool.eq_false_of_not_eq_true harray)]
    exact Nat.mod_le _ _

/-- What is inserted behind an `alloca` clears its bytes, whatever they held, exactly if a store
leaves none of them out. -/
theorem initializers_clear_iff {v : υ} (hv : v ≠ 0) (hret : initializers AI = .ok ks)
    (hsize : AI.allocatedType.allocSize < UInt64.size) (r : ρ) :
    (∀ (s : Scratch υ) (a : Nat), sem.address r AI.id ≤ a →
      a < sem.address r AI.id + slotSize sem r AI → (evals sem r ks s).mem a = 0) ↔
        AI.NoPadding := by
  constructor
  · intro hclear harray hint
    by_contra hpadding
    have hslot := slotSize_of_not_isArrayAllocation sem r harray
    rw [Nat.mod_eq_of_lt hsize] at hslot
    have hzero := hclear ⟨0, 0, fun _ => v⟩ (sem.address r AI.id + AI.allocatedType.storeSize)
      (Nat.le_add_right _ _) (by omega)
    rw [evals_initializers hret] at hzero
    unfold clear clearedSize at hzero
    simp [harray, hint, hv] at hzero
  · intro h s a hle hlt
    rw [evals_initializers hret]
    exact if_pos ⟨hle, hlt.trans_le (Nat.add_le_add_left (slotSize_le_clearedSize h) _)⟩

end Slots

section Runs

variable {κ ι β ε ρ υ : Type} [Zero υ] {sem : Semantics κ ι β ε ρ υ}
  {F : Function (Instruction κ ι) β ε} {F' : Function (Inst κ ι) β ε} {c c' d : State κ ι ε ρ υ}

/-- Two states that agree once the inserted instructions that are next have run. -/
structure Pending (sem : Semantics κ ι β ε ρ υ) (c c' : State κ ι ε ρ υ) (ks : List (Inserted ι))
    (l : List (Instruction κ ι)) (rest : List (Inst κ ι)) : Prop where
  regs : c'.regs = c.regs
  live : c'.live = c.live
  terminator : c'.terminator = c.terminator
  code : c.code = ks.map .inserted ++ rest
  code' : c'.code = c.code
  body : initBody l = .ok rest
  noPadding : ∀ AI, .alloca AI ∈ l → AI.NoPadding
  mem : ∀ a ∈ c.live, (evals sem c.regs ks c'.scratch).mem a = (evals sem c.regs ks c.scratch).mem a

/-- Behind an `alloca` the bytes of its slot are about to be cleared. -/
theorem mem_pending {live : Set Nat} {m m' : Nat → υ} (h : ∀ a ∈ live, m' a = m a) {p size n : Nat}
    (hsize : size ≤ n) : ∀ a ∈ live ∪ {a | p ≤ a ∧ a < p + size}, clear p n m' a = clear p n m a := by
  intro a ha
  unfold clear
  split_ifs with hin
  · rfl
  · rcases ha with hlive | ⟨hle, hlt⟩
    · exact h a hlive
    · exact absurd ⟨hle, hlt.trans_le (Nat.add_le_add_left hsize p)⟩ hin

omit [Zero υ] in
/-- What an instruction leaves on memory where both runs may access it. -/
theorem mem_exec {I : κ} {r : ρ} {live : Set Nat} {m m' : Nat → υ} (haccess : sem.access I r ⊆ live)
    (h : ∀ a ∈ live, m' a = m a) : (sem.exec I r m').1 = (sem.exec I r m).1 ∧
      ∀ a ∈ live, (sem.exec I r m').2 a = (sem.exec I r m).2 a := by
  obtain ⟨hregs, hmem⟩ := sem.exec_congr I r m' m fun a ha => h a (haccess ha)
  refine ⟨hregs, fun a ha => ?_⟩
  by_cases hin : a ∈ sem.access I r
  · exact hmem a hin
  · rw [sem.exec_frame I r m' a hin, sem.exec_frame I r m a hin]
    exact h a ha

omit [Zero υ] in
theorem initBody_alloca {AI : AllocaInst ι} {l : List (Instruction κ ι)} {code : List (Inst κ ι)}
    (h : initBody l = .ok (.source (.alloca AI) :: code)) : ∃ ks l' rest, l = .alloca AI :: l' ∧
      initializers AI = .ok ks ∧ code = ks.map .inserted ++ rest ∧ initBody l' = .ok rest := by
  unfold initBody at h
  cases l with
  | nil => cases h
  | cons I l =>
    cases I with
    | alloca AI' =>
      obtain ⟨ks, hks, h⟩ := Exec.bind_eq_ok.mp h
      obtain ⟨rest, hrest, h⟩ := Exec.bind_eq_ok.mp h
      cases h
      exact ⟨ks, l, rest, rfl, hks, rfl, hrest⟩
    | other I =>
      obtain ⟨rest, -, h⟩ := Exec.bind_eq_ok.mp h
      cases h

omit [Zero υ] in
theorem initBody_other {I : κ} {l : List (Instruction κ ι)} {code : List (Inst κ ι)}
    (h : initBody l = .ok (.source (.other I) :: code)) :
    ∃ l', l = .other I :: l' ∧ initBody l' = .ok code := by
  unfold initBody at h
  cases l with
  | nil => cases h
  | cons J l =>
    cases J with
    | alloca AI =>
      obtain ⟨ks, -, h⟩ := Exec.bind_eq_ok.mp h
      obtain ⟨rest, -, h⟩ := Exec.bind_eq_ok.mp h
      cases h
    | other J =>
      obtain ⟨rest, hrest, h⟩ := Exec.bind_eq_ok.mp h
      cases h
      exact ⟨l, rfl, hrest⟩

omit [Zero υ] in
/-- An inserted instruction comes behind an `alloca`. -/
theorem initBody_ne_inserted {k : Inserted ι} {l : List (Instruction κ ι)}
    {code : List (Inst κ ι)} : initBody l ≠ .ok (.inserted k :: code) := by
  intro h
  unfold initBody at h
  cases l with
  | nil => cases h
  | cons J l =>
    cases J with
    | alloca AI =>
      obtain ⟨ks, -, h⟩ := Exec.bind_eq_ok.mp h
      obtain ⟨rest, -, h⟩ := Exec.bind_eq_ok.mp h
      cases h
    | other J =>
      obtain ⟨rest, -, h⟩ := Exec.bind_eq_ok.mp h
      cases h

/-- A function without padding in its slots. -/
def Function.NoPadding (F : Function (Instruction κ ι) β ε) : Prop :=
  ∀ B ∈ F.blocks, ∀ AI, .alloca AI ∈ B.body → AI.NoPadding

/-- One run can do what the other one does. -/
theorem Step.pending (hF' : F.blocks.mapM initBlock = .ok F'.blocks) (hpad : F.NoPadding)
    {ks : List (Inserted ι)} {l : List (Instruction κ ι)} {rest : List (Inst κ ι)}
    (h : Step sem F' c d) (hc : Pending sem c c' ks l rest) :
    ∃ d' ks l rest, Step sem F' c' d' ∧ Pending sem d d' ks l rest := by
  obtain ⟨r', s', live', code', e'⟩ := c'
  obtain ⟨hregs, hlive, hterm, hcode, hcode', hbody, hnopad, hmem⟩ := hc
  dsimp only at hregs hlive hterm hcode' hmem
  subst hregs hlive hterm hcode'
  cases h with
  | @alloca r s live AI code e p hfree =>
    cases ks with
    | cons k ks => cases hcode
    | nil =>
      obtain rfl : _ = rest := hcode
      obtain ⟨ks, l, rest, rfl, hks, rfl, hrest⟩ := initBody_alloca hbody
      refine ⟨_, ks, l, rest, .alloca p hfree, rfl, rfl, rfl, rfl, rfl, hrest,
        fun AI hAI => hnopad AI (.tail _ hAI), ?_⟩
      dsimp only
      rw [evals_initializers hks, evals_initializers hks, sem.address_bind]
      refine mem_pending hmem ?_
      rw [← slotSize_bind p]
      exact slotSize_le_clearedSize (hnopad AI (.head _))
  | @other r s live I code e haccess =>
    cases ks with
    | cons k ks => cases hcode
    | nil =>
      obtain rfl : _ = rest := hcode
      obtain ⟨l, rfl, hrest⟩ := initBody_other hbody
      obtain ⟨hexec, hmem'⟩ := mem_exec haccess hmem
      exact ⟨_, [], l, _, .other haccess, hexec, rfl, rfl, rfl, rfl, hrest,
        fun AI hAI => hnopad AI (.tail _ hAI), fun a ha => hmem' a ha.1⟩
  | @inserted r s live k code e =>
    cases ks with
    | cons k ks =>
      cases hcode
      exact ⟨_, ks, l, rest, .inserted, rfl, rfl, rfl, rfl, rfl, hbody, hnopad, hmem⟩
    | nil =>
      obtain rfl : _ = rest := hcode
      exact absurd hbody initBody_ne_inserted
  | @jump r s live e B hB hnext =>
    obtain ⟨B₀, hB₀, hblock⟩ := Exec.exists_of_mem_mapM hF' hB
    obtain ⟨body, hinit, hblock⟩ := Exec.bind_eq_ok.mp hblock
    cases hblock
    obtain ⟨hks, -⟩ := List.append_eq_nil_iff.mp hcode.symm
    obtain rfl := List.map_eq_nil_iff.mp hks
    exact ⟨_, [], B₀.body, body, .jump hB hnext, rfl, rfl, rfl, rfl, rfl, hinit, hpad B₀ hB₀, hmem⟩

/-- What memory held where nothing was allocated is not observed: a run that begins with other
bytes there can take the same steps, and is in the same state wherever no inserted instruction is
next. -/
theorem stale_unobserved {changed : Bool} (hret : runOnFunction F = .ok (changed, F'))
    (hpad : F.NoPadding) {B : Block (Inst κ ι) β ε} (hB : B ∈ F'.blocks) (hcode : c.code = B.body)
    (hc : Agree c c') (hrun : ReflTransGen (Step sem F') c d) (hsource : d.AtSource) :
    ∃ d', ReflTransGen (Step sem F') c' d' ∧ Agree d d' := by
  obtain ⟨blocks, hblocks, hret⟩ := Exec.bind_eq_ok.mp hret
  cases hret
  obtain ⟨B₀, hB₀, hblock⟩ := Exec.exists_of_mem_mapM hblocks hB
  obtain ⟨body, hinit, hblock⟩ := Exec.bind_eq_ok.mp hblock
  cases hblock
  obtain ⟨d', ks, l, rest, hrun', hd⟩ : ∃ d' ks l rest,
      ReflTransGen (Step sem ⟨blocks⟩) c' d' ∧ Pending sem d d' ks l rest := by
    clear hsource
    induction hrun with
    | refl => exact ⟨c', [], B₀.body, body, .refl, hc.regs, hc.live, hc.terminator, hcode, hc.code,
        hinit, hpad B₀ hB₀, hc.mem⟩
    | tail _ hstep ih =>
      obtain ⟨d', ks, l, rest, hrun', hd⟩ := ih
      obtain ⟨d'', ks, l, rest, hstep', hd⟩ := hstep.pending hblocks hpad hd
      exact ⟨d'', ks, l, rest, hrun'.tail hstep', hd⟩
  cases ks with
  | cons k ks => exact absurd hd.code (hsource k _)
  | nil => exact ⟨d', hrun', hd.regs, hd.live, hd.code', hd.terminator, hd.mem⟩

end Runs

/-- Registers with an address and a value, and an instruction that loads from the address. -/
def loadSemantics : Semantics Unit Nat Nat Unit (Nat × Nat) Nat where
  bind r _ p := (p, r.2)
  address r _ := r.1
  value _ _ := 0
  access _ r := {r.1}
  exec _ r m := ((r.1, m r.1), m)
  released _ _ := ∅
  next _ _ := none
  address_bind _ _ _ := rfl
  value_bind _ _ _ _ _ := rfl
  exec_congr _ r _ _ h := ⟨congrArg (Prod.mk r.1) (h r.1 rfl), h⟩
  exec_frame _ _ _ _ _ := rfl

def slot : AllocaInst Nat := ⟨0, ⟨4, 4, true⟩, .constantInt 1, 32, by decide⟩

/-- A function that loads from a stack slot that it has not stored to. -/
def uninitialized : Function (Instruction Unit Nat) Nat Unit :=
  ⟨[⟨0, [.alloca slot, .other ()], ()⟩]⟩

def initialized : Block (Inst Unit Nat) Nat Unit :=
  ⟨0, [.source (.alloca slot), .inserted (.store 0 4), .source (.other ())], ()⟩

theorem stale_unobserved_uninitialized : runOnFunction uninitialized = .ok (true, ⟨[initialized]⟩) ∧
    ∃ d : State Unit Nat Unit (Nat × Nat) Nat, d.regs = (100, 0) ∧
      ReflTransGen (Step loadSemantics ⟨[initialized]⟩)
        ⟨(0, 5), ⟨0, 0, fun _ => 7⟩, ∅, initialized.body, ()⟩ d ∧
      ∃ d', ReflTransGen (Step loadSemantics ⟨[initialized]⟩)
        ⟨(0, 5), ⟨0, 0, fun _ => 9⟩, ∅, initialized.body, ()⟩ d' ∧ Agree d d' := by
  have hret : runOnFunction uninitialized = .ok (true, ⟨[initialized]⟩) := rfl
  have hpad : uninitialized.NoPadding := by
    intro B hB AI hAI
    obtain rfl := List.mem_singleton.mp hB
    simp only [List.mem_cons, Instruction.alloca.injEq, reduceCtorEq, List.not_mem_nil,
      or_false] at hAI
    subst hAI
    intro _ _
    exact le_rfl
  have haccess : loadSemantics.access () (loadSemantics.bind (0, 5) slot.id 100) ⊆
      ∅ ∪ {a | 100 ≤ a ∧ a < 100 + slotSize loadSemantics (0, 5) slot} := by
    rintro a rfl
    exact .inr (by decide)
  have hrun : ReflTransGen (Step loadSemantics ⟨[initialized]⟩)
      ⟨(0, 5), ⟨0, 0, fun _ => 7⟩, ∅, initialized.body, ()⟩ _ :=
    ((ReflTransGen.single (.alloca 100 fun a ha => absurd ha (Set.notMem_empty a))).tail
      .inserted).tail (.other haccess)
  have hagree : Agree (⟨(0, 5), ⟨0, 0, fun _ => 7⟩, ∅, initialized.body, ()⟩ :
      State Unit Nat Unit (Nat × Nat) Nat) ⟨(0, 5), ⟨0, 0, fun _ => 9⟩, ∅, initialized.body, ()⟩ :=
    ⟨rfl, rfl, rfl, rfl, fun a ha => absurd ha (Set.notMem_empty a)⟩
  exact ⟨hret, _, rfl, hrun, stale_unobserved hret hpad (.head _) rfl hagree hrun fun k rest =>
    (List.cons_ne_nil (.inserted k) rest).symm⟩

end Clou.StackInit
