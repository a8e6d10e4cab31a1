-- SUMMARY: Call stacks over a call relation: a function is on a stack twice only when it lies on a cycle.
import Mathlib.Data.List.Chain
import Mathlib.Data.List.Count
import Mathlib.Logic.Relation

/-!
# Call Stacks

A stack is the list of the functions that are active, the running one first. The running
function calls along a relation, or returns; when nothing is active any function may be
entered.
-/

open Relation

namespace CallStack

variable {α : Type*}

inductive Step (Calls : α → α → Prop) : List α → List α → Prop
  | enter (f : α) : Step Calls [] [f]
  | call {f g : α} {fs : List α} (h : Calls f g) : Step Calls (f :: fs) (g :: f :: fs)
  | ret {f : α} {fs : List α} : Step Calls (f :: fs) fs

def Reachable (Calls : α → α → Prop) : List α → Prop := ReflTransGen (Step Calls) []

variable {Calls : α → α → Prop} {stack stack' : List α} {f : α}

/-- A step keeps it that each function on the stack was called by the one below. -/
theorem Step.isChain (h : Step Calls stack stack') (hchain : stack.IsChain fun g f => Calls f g) :
    stack'.IsChain fun g f => Calls f g := by
  cases h with
  | enter f => exact .singleton f
  | call h => exact .cons_cons h hchain
  | ret => exact hchain.tail

theorem Reachable.isChain (h : Reachable Calls stack) : stack.IsChain fun g f => Calls f g := by
  induction h with
  | refl => exact .nil
  | tail _ hstep ih => exact hstep.isChain ih

/-- What is below a function on the stack leads to it by calls. -/
theorem transGen_of_mem {top : α} (hchain : (top :: stack).IsChain fun g f => Calls f g)
    (hf : f ∈ stack) : TransGen Calls f top := by
  induction stack generalizing top with
  | nil => cases hf
  | cons g stack ih =>
    rw [List.isChain_cons_cons] at hchain
    rcases List.mem_cons.mp hf with rfl | hf
    · exact .single hchain.1
    · exact (ih hchain.2 hf).tail hchain.1

/-- A function that calls do not lead back to is active at most once. -/
theorem Reachable.count_le_one [DecidableEq α] (h : Reachable Calls stack) (hf : ¬ TransGen Calls f f) :
    stack.count f ≤ 1 := by
  have hchain := h.isChain
  clear h
  induction stack with
  | nil => exact Nat.zero_le 1
  | cons g stack ih =>
    by_cases hg : g = f
    · subst hg
      rw [List.count_cons_self, List.count_eq_zero.mpr fun hmem => hf (transGen_of_mem hchain hmem)]
    · rw [List.count_cons_of_ne hg]
      exact ih hchain.tail

end CallStack
