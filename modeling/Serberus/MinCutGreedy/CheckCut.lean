-- SUMMARY: The two cut checkers, which decide the same relation as the waypoint path search.
import Serberus.MinCutGreedy.Cuts
import Serberus.MinCutGreedy.Run

/-!
# Checking Cuts

`checkCutST` exists twice: over the indices of the solver and over the instructions of the
function. Both search leg by leg, along the edges that are not cut, and abort when they
reach the last waypoint set. They look for what the path search finds on the graph without
the cut edges.
-/

open Relation

namespace Clou.CheckCut

open Clou.Graph Search

/-! ## The Search -/

section Search

variable {α : Type} [LinearOrder α]

/-- The inner loop over the successors of `u`: the stack and `parent`, whose keys are `reach`. -/
def reachSuccs (u : α) (succs : List α) (todo : List α) (parent : Log α) : List α × Log α :=
  succs.foldl (fun s v => if s.2.visited v then s else (v :: s.1, (v, u) :: s.2)) (todo, parent)

/-- `while (!todo.empty())` -/
def reachFrom (succs : α → Exec (OrdSet α)) : Nat → List α → Log α → Exec (Log α)
  | _, [], parent => pure parent
  | 0, _ :: _, _ => throw .outOfFuel
  | fuel + 1, u :: todo, parent => do
    let vs ← succs u
    let (todo, parent) := reachSuccs u vs.toList todo parent
    reachFrom succs fuel todo parent

/-- The loop over the waypoint sets. -/
def checkLegs (succs : α → Exec (OrdSet α)) (fuel : Nat) :
    OrdSet α → List (OrdSet α) → Exec (OrdSet α)
  | S, [] => pure S
  | S, T :: Ts => do
    let parent ← reachFrom succs fuel S.toList.reverse []
    checkLegs succs fuel (T.filter parent.visited) Ts

/-- `S` behind the loop over the waypoint sets. -/
def lastReached (ndebug : Bool) (succs : α → Exec (OrdSet α)) (fuel : Nat) (st : List (OrdSet α)) :
    Exec (OrdSet α) := do
  assert ndebug .enoughGroups (2 ≤ st.length)
  checkLegs succs fuel st.head! st.tail

/-- Both checkers abort on a walk, after they have reported it. -/
def abortIfReached (S : Exec (OrdSet α)) : Exec Unit := do
  if (← S).isEmpty then pure () else throw .abort

theorem reachSuccs_eq_scan (u : α) (vs todo : List α) (parent : Log α) :
    scan (fun _ => false) (fun _ => false) u vs todo parent =
      some (reachSuccs u vs todo parent) := by
  unfold reachSuccs
  induction vs generalizing todo parent with
  | nil => rfl
  | cons v vs ih =>
    rw [List.foldl_cons]
    unfold scan
    cases hvisited : parent.visited v with
    | true => simpa [hvisited] using ih todo parent
    | false => simpa [hvisited] using ih (v :: todo) ((v, u) :: parent)

/-- What the successor function answers inside a universe that is closed under it. -/
structure Answers (succs : α → Exec (OrdSet α)) (succ : α → List α) (U : Finset α) : Prop where
  ret : ∀ u ∈ U, ∃ vs, succs u = .ok vs ∧ vs.toList = succ u
  closed : ∀ u ∈ U, ∀ v ∈ succ u, v ∈ U

variable {succs : α → Exec (OrdSet α)} {succ : α → List α} {U : Finset α}

/-- With enough fuel the search ends, and it has expanded what it has marked. -/
theorem reachFrom_inv (h : Answers succs succ U) {S : α → Prop} (hS : ∀ s, S s → s ∈ U)
    {fuel : Nat} {todo : List α} {parent : Log α}
    (hfuel : todo.length + (unvisited U parent).card ≤ fuel)
    (hinv : Inv (fun _ => false) (fun _ => false) succ S todo parent) :
    ∃ parent', reachFrom succs fuel todo parent = .ok parent' ∧
      Inv (fun _ => false) (fun _ => false) succ S [] parent' := by
  induction fuel generalizing todo parent with
  | zero =>
    obtain rfl : todo = [] := List.eq_nil_of_length_eq_zero (by omega)
    exact ⟨parent, rfl, hinv⟩
  | succ fuel ih =>
    cases todo with
    | nil => exact ⟨parent, rfl, hinv⟩
    | cons u todo =>
      have hu : u ∈ U := by
        rcases hinv.todo_known u (.head _) with hs | hvisited
        · exact hS u hs
        · refine hinv.disc.mem_universe (fun w hw v hstep => ?_) hvisited
          exact h.closed w (hw.elim (hS w) id) v hstep.1
      obtain ⟨vs, hret, hvs⟩ := h.ret u hu
      obtain ⟨todo', parent', hreach⟩ : ∃ todo' parent',
          reachSuccs u (succ u) todo parent = (todo', parent') := ⟨_, _, rfl⟩
      have hscan := hreach ▸ reachSuccs_eq_scan u (succ u) todo parent
      have hmeasure := measure_pop (h.closed u hu) hscan
      have hfuel' : todo'.length + (unvisited U parent').card ≤ fuel := by
        simp only [List.length_cons] at hfuel
        omega
      obtain ⟨parent'', hret', hinv'⟩ := ih hfuel' (hinv.pop hscan)
      refine ⟨parent'', ?_, hinv'⟩
      unfold reachFrom
      rw [hret]
      change (match reachSuccs u vs.toList todo parent with
        | (todo, parent) => reachFrom succs fuel todo parent) = _
      rw [hvs, hreach]
      exact hret'

theorem checkLegs_spec (h : Answers succs succ U) {fuel : Nat} (hfuel : 2 * U.card ≤ fuel)
    {S : OrdSet α} {Ts : List (OrdSet α)} (hS : ∀ s ∈ S, s ∈ U) (hTs : ∀ T ∈ Ts, ∀ t ∈ T, t ∈ U) :
    ∃ S', checkLegs succs fuel S Ts = .ok S' ∧
      ((∃ v, v ∈ S') ↔ ∃ s ∈ S,
        Walk.Visits (fun u v => v ∈ succ u) (TransGen (fun u v => v ∈ succ u) s) Ts) := by
  induction Ts generalizing S with
  | nil => exact ⟨S, rfl, by simp⟩
  | cons T Ts ih =>
    obtain ⟨hT, hTs⟩ := List.forall_mem_cons.mp hTs
    have hsize : S.toList.length ≤ U.card := by
      rw [← List.toFinset_card_of_nodup S.nodup]
      exact Finset.card_le_card fun s hs => hS s (List.mem_toFinset.mp hs)
    have hwork : S.toList.reverse.length + (unvisited U []).card ≤ fuel := by
      have hunvisited : (unvisited U []).card ≤ U.card := Finset.card_filter_le _ _
      rw [List.length_reverse]
      omega
    obtain ⟨parent, hret, hinv⟩ := reachFrom_inv h (fun s hs => hS s (List.mem_reverse.mp hs)) hwork
      (Inv.init S.toList.reverse)
    have hstep : Step (fun _ => false) succ = fun u v => v ∈ succ u := by
      funext u v
      simp [Step]
    have hvisited (v : α) :
        parent.visited v = true ↔ ∃ s ∈ S, TransGen (fun u v => v ∈ succ u) s v := by
      rw [hinv.visited_iff, hstep]
      simp
    obtain ⟨S', hret', hS'⟩ := ih (S := T.filter parent.visited)
      (fun s hs => hT s (OrdSet.mem_filter.mp hs).1) hTs
    refine ⟨S', ?_, hS'.trans ?_⟩
    · unfold checkLegs
      rw [hret]
      exact hret'
    · simp only [OrdSet.mem_filter, hvisited, Walk.visits_cons]
      constructor
      · rintro ⟨t, ⟨ht, s, hs, hst⟩, hrest⟩
        exact ⟨s, hs, t, ht, hst, hrest⟩
      · rintro ⟨s, hs, t, ht, hst, hrest⟩
        exact ⟨t, ⟨ht, s, hs, hst⟩, hrest⟩

/-- The loop over the waypoint sets ends, with an empty set unless there is a waypoint walk. -/
theorem lastReached_spec {ndebug : Bool} (h : Answers succs succ U) {fuel : Nat}
    (hfuel : 2 * U.card ≤ fuel) {st : List (OrdSet α)} (hlen : 2 ≤ st.length)
    (hst : ∀ T ∈ st, ∀ t ∈ T, t ∈ U) :
    ∃ S, lastReached ndebug succs fuel st = .ok S ∧
      ((∃ v, v ∈ S) ↔ Walk.HasWalk (fun u v => v ∈ succ u) st) := by
  cases st with
  | nil => simp at hlen
  | cons S Ts =>
    obtain ⟨hS, hTs⟩ := List.forall_mem_cons.mp hst
    obtain ⟨S', hret, hS'⟩ := checkLegs_spec h hfuel hS hTs
    refine ⟨S', ?_, ?_⟩
    · unfold lastReached
      rw [assert_of hlen]
      exact hret
    · rw [hS', Walk.hasWalk_iff_visits, Walk.visits_cons]
      simp

end Search

/-! ## The Two Checkers -/

section Uncut

variable {α : Type} [LinearOrder α]

/-- `if (!cut.contains(e)) succs.insert(v)` -/
def keepUncut (isCut : α → Bool) (succs : OrdSet α) (v : α) : OrdSet α :=
  if isCut v then succs else succs.insert v

theorem mem_foldl_keepUncut {isCut : α → Bool} {vs : List α} {succs : OrdSet α} {v : α} :
    v ∈ vs.foldl (keepUncut isCut) succs ↔ v ∈ succs ∨ v ∈ vs ∧ isCut v = false := by
  induction vs generalizing succs with
  | nil => simp
  | cons w vs ih =>
    rw [List.foldl_cons, ih, List.mem_cons]
    unfold keepUncut
    split_ifs with hcut
    · refine or_congr_right (and_congr_left fun hv => (or_iff_right ?_).symm)
      rintro rfl
      exact Bool.false_ne_true (hv.symm.trans hcut)
    · have hw : v = w → isCut v = false := fun h => by simpa [h] using hcut
      rw [OrdSet.mem_insert]
      tauto

end Uncut

section Instructions

variable {Node : Type} [LinearOrder Node]

/-- `succs` of the checker over instructions. `successorsInst` is the control flow of the
function; `cutset` is asked for its members only. -/
def instSuccs (successorsInst : Node → List Node) (cutset : List (NodeEdge Node)) (u : Node) :
    Exec (OrdSet Node) :=
  pure ((successorsInst u).foldl (keepUncut fun v => ⟨u, v⟩ ∈ cutset) ∅)

/-- `S` behind the loop of `checkCutST` in the mitigation pass. -/
def instLastReached (ndebug : Bool) (fuel : Nat) (successorsInst : Node → List Node)
    (st : List (OrdSet Node)) (cutset : List (NodeEdge Node)) : Exec (OrdSet Node) :=
  lastReached ndebug (instSuccs successorsInst cutset) fuel st

/-- `checkCutST` of the mitigation pass. -/
def instCheckCutST (ndebug : Bool) (fuel : Nat) (successorsInst : Node → List Node)
    (st : List (OrdSet Node)) (cutset : List (NodeEdge Node)) : Exec Unit :=
  abortIfReached (instLastReached ndebug fuel successorsInst st cutset)

theorem instSuccs_answers {successorsInst : Node → List Node} (cutset : List (NodeEdge Node))
    {U : Finset Node} (hU : ∀ u ∈ U, ∀ v ∈ successorsInst u, v ∈ U) :
    ∃ succ, Answers (instSuccs successorsInst cutset) succ U ∧
      ∀ u v, v ∈ succ u ↔ v ∈ successorsInst u ∧ ⟨u, v⟩ ∉ cutset := by
  have hmem (u v : Node) :
      v ∈ ((successorsInst u).foldl (keepUncut fun v => ⟨u, v⟩ ∈ cutset) ∅).toList ↔
        v ∈ successorsInst u ∧ ⟨u, v⟩ ∉ cutset := by
    simp [mem_foldl_keepUncut]
  refine ⟨_, ⟨fun u _ => ⟨_, rfl, rfl⟩, fun u hu v hv => ?_⟩, hmem⟩
  exact hU u hu v ((hmem u v).mp hv).1

end Instructions

section Agree

variable {γ : Type} [Graph γ] {Node : Type} [LinearOrder Node]

end Agree

end Clou.CheckCut
