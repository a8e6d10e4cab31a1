-- SUMMARY: The pass behind the speculative taint analysis: no run gets from a load to a transmitter of what has been computed from it without a fence.
import Serberus.Mitigation.Protects
import Serberus.SpeculativeTaint.Exact

/-!
# Tainted Loads

The pass gets the taints of the speculative taint analysis, which reads the same function. What
the analysis finds are chains of steps from loads from addresses that are not constant. With
`ncal_xmit`, such a load and a transmitter at the end of one of its chains are kept apart.
-/

open Relation

namespace Clou.Mitigation

open ControlFlow Leakage
open SpeculativeTaint (Value IntrinsicID IsNcal ChainOver InOrder Final)

/-! ## The Function as the Analysis Reads It -/

section Reading

variable {ν : Type} [DecidableEq ν] (F : IRFunction ν) (number : ν → Nat)

/-- A value is an instruction, or any other value, which `number` numbers. -/
def taintValue (V : ν) : Value ν :=
  if (F.instruction? V).isSome then .inst V else .other (number V)

def taintIntrinsic : Intrinsic → IntrinsicID
  | .memset => .unlisted 0
  | .memcpy => .unlisted 1
  | .x86Sse2Lfence => .unlisted 2
  | .other id => id

def taintKind (I : Instruction ν) : SpeculativeTaint.Kind ν :=
  match I.kind with
  | .load ptr _ => .load (taintValue F number ptr)
  | .store value ptr => .store (taintValue F number value) (taintValue F number ptr)
  | .intrinsic id assumeLike args _ =>
    .intrinsic (taintIntrinsic id) I.isVoidTy assumeLike (args.map (taintValue F number))
  | .call _ _ _ => .call
  | _ => .other I.isVoidTy (I.operands.map (taintValue F number))

def taintInstruction (I : Instruction ν) : SpeculativeTaint.Instruction ν :=
  ⟨I.id, taintKind F number I⟩

theorem flatten_taintInstruction :
    (F.blocks.map (·.map (taintInstruction F number))).flatten =
      F.instructions.map (taintInstruction F number) := by
  rw [← List.map_flatten]
  rfl

def taintFunction : SpeculativeTaint.IRFunction ν where
  blocks := F.blocks.map (·.map (taintInstruction F number))
  nodup := by
    rw [flatten_taintInstruction, List.map_map]
    exact F.nodup

variable {F number} {O : SpeculativeTaint.Oracles ν} {L V : ν}

theorem mem_taintFunction {I : SpeculativeTaint.Instruction ν} :
    I ∈ (taintFunction F number).instructions ↔
      ∃ J ∈ F.instructions, taintInstruction F number J = I := by
  unfold SpeculativeTaint.IRFunction.instructions taintFunction
  rw [flatten_taintInstruction, List.mem_map]

theorem isNcal_taintFunction : IsNcal O (taintFunction F number) L ↔
    ∃ I ∈ F.instructions, I.id = L ∧ ∃ ptr isUnordered, I.kind = .load ptr isUnordered ∧
      O.isConstantAddress (taintValue F number ptr) = false := by
  unfold IsNcal
  constructor
  · rintro ⟨I, hI, hncal, rfl⟩
    obtain ⟨J, hJ, rfl⟩ := mem_taintFunction.mp hI
    refine ⟨J, hJ, rfl, ?_⟩
    unfold SpeculativeTaint.Oracles.isNcal taintInstruction taintKind at hncal
    cases hkind : J.kind with
    | load ptr isUnordered =>
      rw [hkind] at hncal
      exact ⟨ptr, isUnordered, rfl, by simpa using hncal⟩
    | _ => simp [hkind] at hncal
  · rintro ⟨J, hJ, rfl, ptr, isUnordered, hkind, hconst⟩
    refine ⟨_, mem_taintFunction.mpr ⟨J, hJ, rfl⟩, ?_, rfl⟩
    simp [SpeculativeTaint.Oracles.isNcal, taintInstruction, taintKind, hkind, hconst]

end Reading

section Pass

variable {β ν : Type} [DecidableEq β] [LinearOrder ν] {L : IR β ν} {S : Setup ν} {o : Options}
  {m : Modes} {F : Function β ν} {Q : Queries ν} {number : ν → Nat}
  {O : SpeculativeTaint.Oracles ν} {F' : CFG β ν} {I T : Instruction ν} {V ptr : ν} {os w : List ν}

/-- The taints that the pass gets are those that the analysis has found, and both ask the same
constant-address analysis. -/
structure Tainted (F : Function β ν) (Q : Queries ν) (number : ν → Nat)
    (O : SpeculativeTaint.Oracles ν) : Prop where
  constant : ∀ V, O.isConstantAddress (taintValue F.ir number V) = Q.isConstantAddress V
  noPartialAlias : ∀ p q, O.aliasResult p q ≠ .partialAlias
  handled : ∀ I ∈ (taintFunction F.ir number).instructions, I.Handled
  taints : ∃ ndebug fuel,
    SpeculativeTaint.runOnFunction ndebug O fuel (taintFunction F.ir number) = .ok Q.taints

omit [DecidableEq β] in
theorem Tainted.final (h : Tainted F Q number O) :
    ∃ s, Final O (taintFunction F.ir number) s Q.taints := by
  obtain ⟨ndebug, fuel, hret⟩ := h.taints
  exact SpeculativeTaint.exists_final h.noPartialAlias h.handled hret

omit [DecidableEq β] in
theorem secret_of_has {K : ν} (h : SpeculativeTaint.TaintMap.Has Q.taints K V)
    (hV : (F.ir.instruction? V).isSome = true) : Q.secret F V = true := by
  obtain ⟨orgs, hfind, hmem⟩ := h
  have hne : orgs.isEmpty = false := OrdSet.isEmpty_eq_false_iff.mpr ⟨K, hmem⟩
  simp [Answers.secret, hV, hfind, hne]

omit [DecidableEq β] in
theorem Tainted.isNcal (h : Tainted F Q number O) (hI : I ∈ F.ir.instructions)
    {isUnordered : Bool} (hkind : I.kind = .load ptr isUnordered)
    (hncal : Q.isConstantAddress ptr = false) : IsNcal O (taintFunction F.ir number) I.id :=
  isNcal_taintFunction.mpr ⟨I, hI, rfl, ptr, isUnordered, hkind, (h.constant ptr).trans hncal⟩

omit [DecidableEq β] in
/-- The assertion of the pass about loads holds of what the analysis has found. -/
theorem checkLoad_of_tainted (ndebug : Bool) (h : Tainted F Q number O) :
    F.ir.instructions.forM (checkLoad F Q.toAnswers ndebug) = .ok () := by
  obtain ⟨s, hfinal⟩ := h.final
  refine Exec.forM_ok fun I hI => ?_
  unfold checkLoad
  cases hkind : I.kind with
  | load ptr isUnordered =>
    cases hconst : Q.isConstantAddress ptr with
    | true => simp [hconst, pure, Except.pure]
    | false =>
      have hsecret : Q.secret F I.id = true :=
        secret_of_has (hfinal.complete (h.isNcal hI hkind hconst) .refl)
          (Option.isSome_iff_exists.mpr ⟨I, IRFunction.instruction?_eq_some.mpr ⟨hI, rfl⟩⟩)
      simp [hsecret, pure, Except.pure]
  | _ => rfl

/-- The analysis of the gadget, which has no stores. -/
def gadgetOracles : SpeculativeTaint.Oracles Instr := ⟨fun _ => false, fun _ _ => .noAlias, false⟩

theorem tainted_gadget : Tainted gadget gadgetQueries (fun _ => 0) gadgetOracles where
  constant _ := rfl
  noPartialAlias _ _ h := by cases h
  handled I hI := by
    obtain ⟨J, hJ, rfl⟩ := mem_taintFunction.mp hI
    simp only [gadget, IRFunction.instructions, List.flatten_cons, List.flatten_nil,
      List.append_nil, List.mem_cons, List.not_mem_nil, or_false] at hJ
    rcases hJ with rfl | rfl | rfl | rfl <;> trivial
  taints := ⟨false, 9, by decide +kernel⟩

theorem checkLoad_of_tainted_gadget :
    gadget.ir.instructions.forM (checkLoad gadget gadgetQueries.toAnswers false) = .ok () :=
  checkLoad_of_tainted false tainted_gadget

end Pass

end Clou.Mitigation
