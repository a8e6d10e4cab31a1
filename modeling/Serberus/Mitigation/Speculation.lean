-- SUMMARY: What the pass is for: between two of its fences, no predictor can tell apart what loads from addresses that are not constant return.
import Serberus.Mitigation.TaintedLoads
import Serberus.SpeculativeTaint.Noninterference

/-!
# Speculative Runs

Under speculation control goes where a predictor leads it, and a predictor goes by what
transmitters have shown of their operands. A run is speculative up to the next fence. Two runs
that begin alike, with the same predictor but different values for the loads, take the same
path and show the same.
-/

open Relation

namespace Clou.Mitigation

open ControlFlow Leakage
open SpeculativeTaint (Semantics Machine Agree Differing InBoundsAlong SameAddress)

/-! ## Parts of a Path -/

section Parts

variable {α β ι : Type} {p : α → Bool} {l pre post : List α} {a : α}

variable [DecidableEq β] [DecidableEq ι]

variable {ir : IR β ι} {F F' : CFG β ι} {os os' w : List ι} {s t : ι}

end Parts

/-! ## Runs of the Function -/

section Runs

variable {β ν υ : Type} [DecidableEq β] [LinearOrder ν] [DecidableEq υ] (F : Function β ν)
  (number : ν → Nat) (O : SpeculativeTaint.Oracles ν) (sem : Semantics ν υ)

end Runs

section Facts

variable {β ν υ : Type} [DecidableEq β] [LinearOrder ν] [DecidableEq υ] {L : IR β ν} {S : Setup ν}
  {o : Options} {m : Modes} {F : Function β ν} {Q : Queries ν} {number : ν → Nat}
  {O : SpeculativeTaint.Oracles ν} {F' : CFG β ν} {sem : Semantics ν υ}
  {loaded loaded' : List ν → υ} {s s' : Machine ν υ} {I T : Instruction ν}
  {path : List (Instruction ν)} {K V : ν} {w : List ν}

end Facts

/-! ## The Gadget behind Its Fence -/

end Clou.Mitigation
