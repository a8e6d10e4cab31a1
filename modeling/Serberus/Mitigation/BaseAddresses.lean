-- SUMMARY: The base addresses of a pointer: when the recursion over its operands returns, and what it answers.
import Mathlib.Logic.Relation
import Mathlib.Order.WellFounded
import Serberus.Exec

/-!
# Base Addresses

`getBaseAddresses` follows the pointers that a pointer is computed from, down to the values
that are addresses by themselves. It keeps no set of seen values, so it returns only when
the operands form no cycle.
-/

open Relation

namespace Clou.Mitigation

/-- What `getBaseAddresses` tells apart. -/
inductive AddressKind (ν : Type) where
  | argument
  | load
  | callBase
  | globalVariable
  | alloca
  /-- `GetElementPtrInst` and `GEPOperator` -/
  | getElementPtr (pointerOperand : ν)
  /-- `BitCastInst` and `BitCastOperator` -/
  | bitCast (operand : ν)
  | select (trueValue falseValue : ν)
  | intToPtr
  /-- Any other kind of value. -/
  | other
  deriving DecidableEq

variable {ν : Type}

/-- The pointers that a pointer is computed from. -/
def AddressKind.operands : AddressKind ν → List ν
  | .getElementPtr pointerOperand => [pointerOperand]
  | .bitCast operand => [operand]
  | .select trueValue falseValue => [trueValue, falseValue]
  | _ => []

/-- A value of this kind is an address by itself. -/
def AddressKind.isBase : AddressKind ν → Bool
  | .argument => true
  | .load => true
  | .callBase => true
  | .globalVariable => true
  | .alloca => true
  | .intToPtr => true
  | _ => false

/-- `isa<GlobalVariable>` -/
def AddressKind.isGlobalVariable : AddressKind ν → Bool
  | .globalVariable => true
  | _ => false

variable (kind : ν → AddressKind ν)

def getBaseAddresses : Nat → ν → Exec (List ν)
  | 0, _ => throw .outOfFuel
  | fuel + 1, V =>
    match kind V with
    | .argument => pure [V]
    | .load => pure [V]
    | .callBase => pure [V]
    | .globalVariable => pure [V]
    | .alloca => pure [V]
    | .getElementPtr pointerOperand => getBaseAddresses fuel pointerOperand
    | .bitCast operand => getBaseAddresses fuel operand
    | .select trueValue falseValue => do
      let ts ← getBaseAddresses fuel trueValue
      let fs ← getBaseAddresses fuel falseValue
      pure (ts ++ fs)
    | .intToPtr => pure [V]
    | .other => throw .exit

def isGlobalAddress (fuel : Nat) (V : ν) : Exec Bool := do
  let bases ← getBaseAddresses kind fuel V
  pure (bases.all fun V => (kind V).isGlobalVariable)

/-! ## The Operand Tree -/

/-- `V` is computed from `W`. -/
def ComputedFrom (V W : ν) : Prop := W ∈ (kind V).operands

variable {kind} {fuel fuel' : Nat} {V W : ν} {bases : List ν}

/-- `W` is an address that `V` is computed from. -/
def IsBaseOf (kind : ν → AddressKind ν) (V W : ν) : Prop :=
  ReflTransGen (ComputedFrom kind) V W ∧ (kind W).isBase = true

theorem isBaseOf_of_isBase (h : (kind V).isBase = true) : IsBaseOf kind V W ↔ W = V := by
  constructor
  · rintro ⟨hreach, -⟩
    rcases ReflTransGen.cases_head hreach with rfl | ⟨U, hU, -⟩
    · rfl
    · unfold ComputedFrom at hU
      cases hkind : kind V <;> simp [hkind, AddressKind.isBase, AddressKind.operands] at h hU
  · rintro rfl
    exact ⟨.refl, h⟩

theorem isBaseOf_iff_operands (h : (kind V).isBase = false) :
    IsBaseOf kind V W ↔ ∃ U ∈ (kind V).operands, IsBaseOf kind U W := by
  constructor
  · rintro ⟨hreach, hbase⟩
    rcases ReflTransGen.cases_head hreach with rfl | ⟨U, hU, hreach⟩
    · rw [h] at hbase
      cases hbase
    · exact ⟨U, hU, hreach, hbase⟩
  · rintro ⟨U, hU, hreach, hbase⟩
    exact ⟨.head hU hreach, hbase⟩

/-- More fuel does not change what is returned. -/
theorem getBaseAddresses_mono (hle : fuel ≤ fuel') (hret : getBaseAddresses kind fuel V = .ok bases) :
    getBaseAddresses kind fuel' V = .ok bases := by
  induction fuel generalizing fuel' V bases with
  | zero => cases hret
  | succ fuel ih =>
    obtain ⟨fuel', rfl⟩ := Nat.exists_eq_add_one_of_ne_zero (show fuel' ≠ 0 by omega)
    have hle : fuel ≤ fuel' := Nat.le_of_succ_le_succ hle
    rw [getBaseAddresses] at hret ⊢
    cases hkind : kind V with
    | getElementPtr pointerOperand =>
      rw [hkind] at hret
      exact ih hle hret
    | bitCast operand =>
      rw [hkind] at hret
      exact ih hle hret
    | select trueValue falseValue =>
      rw [hkind] at hret
      obtain ⟨ts, hts, hret⟩ := Exec.bind_eq_ok.mp hret
      obtain ⟨fs, hfs, hret⟩ := Exec.bind_eq_ok.mp hret
      exact Exec.bind_eq_ok.mpr ⟨ts, ih hle hts, Exec.bind_eq_ok.mpr ⟨fs, ih hle hfs, hret⟩⟩
    | other =>
      rw [hkind] at hret
      cases hret
    | _ => simpa [hkind] using hret

/-- What is returned are the addresses that the pointer is computed from. -/
theorem mem_getBaseAddresses (hret : getBaseAddresses kind fuel V = .ok bases) :
    W ∈ bases ↔ IsBaseOf kind V W := by
  induction fuel generalizing V bases with
  | zero => cases hret
  | succ fuel ih =>
    rw [getBaseAddresses] at hret
    cases hkind : kind V with
    | getElementPtr pointerOperand =>
      rw [hkind] at hret
      rw [ih hret, isBaseOf_iff_operands (V := V) (by rw [hkind]; rfl), hkind]
      simp [AddressKind.operands]
    | bitCast operand =>
      rw [hkind] at hret
      rw [ih hret, isBaseOf_iff_operands (V := V) (by rw [hkind]; rfl), hkind]
      simp [AddressKind.operands]
    | select trueValue falseValue =>
      rw [hkind] at hret
      obtain ⟨ts, hts, hret⟩ := Exec.bind_eq_ok.mp hret
      obtain ⟨fs, hfs, hret⟩ := Exec.bind_eq_ok.mp hret
      cases hret
      rw [List.mem_append, ih hts, ih hfs, isBaseOf_iff_operands (V := V) (by rw [hkind]; rfl),
        hkind]
      simp [AddressKind.operands]
    | other =>
      rw [hkind] at hret
      cases hret
    | _ =>
      rw [hkind] at hret
      cases hret
      rw [isBaseOf_of_isBase (V := V) (by rw [hkind]; rfl), List.mem_singleton]

/-- The pointer is computed from finitely many levels of handled values. -/
structure Handled (kind : ν → AddressKind ν) (V : ν) : Prop where
  acc : Acc (Function.swap (ComputedFrom kind)) V
  notOther : ∀ W, ReflTransGen (ComputedFrom kind) V W → kind W ≠ .other

theorem Handled.operand (h : Handled kind V) (hW : ComputedFrom kind V W) : Handled kind W :=
  ⟨h.acc.inv hW, fun U hU => h.notOther U (.head hW hU)⟩

theorem handled_of_operands (hother : kind V ≠ .other)
    (h : ∀ W ∈ (kind V).operands, Handled kind W) : Handled kind V where
  acc := ⟨V, fun W hW => (h W hW).acc⟩
  notOther U hU := by
    rcases ReflTransGen.cases_head hU with rfl | ⟨W, hW, hU⟩
    · exact hother
    · exact (h W hW).notOther U hU

/-- The recursion returns for what is handled, and for nothing else. -/
theorem getBaseAddresses_returns_iff :
    (∃ fuel bases, getBaseAddresses kind fuel V = .ok bases) ↔ Handled kind V := by
  constructor
  · rintro ⟨fuel, bases, hret⟩
    induction fuel generalizing V bases with
    | zero => cases hret
    | succ fuel ih =>
      rw [getBaseAddresses] at hret
      cases hkind : kind V with
      | getElementPtr pointerOperand =>
        rw [hkind] at hret
        exact handled_of_operands (by simp [hkind])
          (by simpa [hkind, AddressKind.operands] using ih bases hret)
      | bitCast operand =>
        rw [hkind] at hret
        exact handled_of_operands (by simp [hkind])
          (by simpa [hkind, AddressKind.operands] using ih bases hret)
      | select trueValue falseValue =>
        rw [hkind] at hret
        obtain ⟨ts, hts, hret⟩ := Exec.bind_eq_ok.mp hret
        obtain ⟨fs, hfs, -⟩ := Exec.bind_eq_ok.mp hret
        exact handled_of_operands (by simp [hkind])
          (by simpa [hkind, AddressKind.operands] using ⟨ih ts hts, ih fs hfs⟩)
      | other =>
        rw [hkind] at hret
        cases hret
      | _ => exact handled_of_operands (by simp [hkind]) (by simp [hkind, AddressKind.operands])
  · intro h
    induction h.acc with
    | intro V _ ih =>
      have hop : ∀ W ∈ (kind V).operands, ∃ fuel bases, getBaseAddresses kind fuel W = .ok bases :=
        fun W hW => ih W hW (h.operand hW)
      cases hkind : kind V with
      | getElementPtr pointerOperand =>
        obtain ⟨fuel, bases, hret⟩ := hop pointerOperand (by simp [hkind, AddressKind.operands])
        exact ⟨fuel + 1, bases, by rw [getBaseAddresses, hkind]; exact hret⟩
      | bitCast operand =>
        obtain ⟨fuel, bases, hret⟩ := hop operand (by simp [hkind, AddressKind.operands])
        exact ⟨fuel + 1, bases, by rw [getBaseAddresses, hkind]; exact hret⟩
      | select trueValue falseValue =>
        obtain ⟨fuel, ts, hts⟩ := hop trueValue (by simp [hkind, AddressKind.operands])
        obtain ⟨fuel', fs, hfs⟩ := hop falseValue (by simp [hkind, AddressKind.operands])
        refine ⟨max fuel fuel' + 1, ts ++ fs, ?_⟩
        rw [getBaseAddresses, hkind]
        exact Exec.bind_eq_ok.mpr ⟨ts, getBaseAddresses_mono (le_max_left _ _) hts,
          Exec.bind_eq_ok.mpr ⟨fs, getBaseAddresses_mono (le_max_right _ _) hfs, rfl⟩⟩
      | other => exact absurd hkind (h.notOther V .refl)
      | _ => exact ⟨1, [V], by rw [getBaseAddresses, hkind]; rfl⟩

theorem isGlobalAddress_iff {b : Bool} (hret : isGlobalAddress kind fuel V = .ok b) :
    b = true ↔ ∀ W, IsBaseOf kind V W → kind W = .globalVariable := by
  obtain ⟨bases, hbases, hret⟩ := Exec.bind_eq_ok.mp hret
  cases hret
  rw [List.all_eq_true]
  refine forall_congr' fun W => imp_congr (mem_getBaseAddresses hbases) ?_
  cases kind W <;> simp [AddressKind.isGlobalVariable]

/-- `isGlobalAddress` returns for some depth of the recursion exactly if the operands of the
pointer form no cycle and are all handled. Whatever it returns, it answers whether all
addresses that the pointer is computed from are global variables. -/
theorem isGlobalAddress_exact (kind : ν → AddressKind ν) (V : ν) :
    ((∃ fuel b, isGlobalAddress kind fuel V = .ok b) ↔ Handled kind V) ∧
      ∀ fuel b, isGlobalAddress kind fuel V = .ok b →
        (b = true ↔ ∀ W, IsBaseOf kind V W → kind W = .globalVariable) := by
  refine ⟨?_, fun fuel b => isGlobalAddress_iff⟩
  rw [← getBaseAddresses_returns_iff]
  refine exists_congr fun fuel => ⟨?_, ?_⟩
  · rintro ⟨b, hret⟩
    obtain ⟨bases, hbases, -⟩ := Exec.bind_eq_ok.mp hret
    exact ⟨bases, hbases⟩
  · rintro ⟨bases, hbases⟩
    exact Exec.bind_returns hbases ⟨_, rfl⟩

end Clou.Mitigation
