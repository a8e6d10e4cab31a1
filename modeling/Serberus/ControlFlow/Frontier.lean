-- SUMMARY: Frontiers of an instruction: the forward one is exact, the reverse one starts at the wrong end.
import Serberus.ControlFlow.Reachable

/-!
# Frontiers

A frontier search starts at the first instruction, goes on along `nexts`, and stops at
the endpoint and at instructions that satisfy a predicate and can reach the endpoint.
`forward_frontier` follows successors. `reverse_frontier` follows predecessors, but
starts at the first instruction as well, which has none.
-/

open Relation

namespace Clou.ControlFlow

section Definitions

variable {β ι : Type} [DecidableEq β] [LinearOrder ι]

/-- The loops of the frontier searches: pop, mark, and go on where `expand` says. -/
def search {τ : Type} (visit : ι → τ → τ) (expand : ι → List ι) (fuel : Nat) (start : ι) (s : τ) :
    Exec (OrdSet ι × τ) :=
  match Flood.flood visit expand fuel [start] ∅ s with
  | some r => pure r
  | none => throw .outOfFuel

def reachablePredecessors (fuel : Nat) (F : CFG β ι) (root : ι) : Exec (OrdSet ι) := do
  let (seen, _) ← search (fun _ => id) F.predecessors fuel root ()
  pure seen

/-- What the search notes at an instruction: `result` and `frontier`. -/
def frontierVisit (endpoint : ι) (inSet : OrdSet ι) (i : ι) (s : Bool × OrdSet ι) :
    Bool × OrdSet ι :=
  if i = endpoint then (false, s.2)
  else if i ∈ inSet then (s.1, s.2.insert i)
  else s

/-- Where the search goes on. -/
def frontierNexts (endpoint : ι) (inSet : OrdSet ι) (nexts : ι → List ι) (i : ι) : List ι :=
  if i = endpoint then [] else if i ∈ inSet then [] else nexts i

def frontierImpl (fuel : Nat) (F : CFG β ι) (endpoint : ι) (pred : ι → Bool) (frontier : OrdSet ι)
    (nexts : ι → List ι) : Exec (Bool × OrdSet ι) := do
  let subgraph ← reachablePredecessors fuel F endpoint
  let inSet := .ofList (F.instructions.filter fun i => i ∈ subgraph && pred i)
  let (_, s) ← search (frontierVisit endpoint inSet) (frontierNexts endpoint inSet nexts) fuel
    F.first (true, frontier)
  pure s

def forwardFrontier (fuel : Nat) (F : CFG β ι) (endpoint : ι) (pred : ι → Bool)
    (frontier : OrdSet ι) : Exec (Bool × OrdSet ι) :=
  frontierImpl fuel F endpoint pred frontier F.successorsInst

def reverseFrontier (fuel : Nat) (F : CFG β ι) (endpoint : ι) (pred : ι → Bool)
    (frontier : OrdSet ι) : Exec (Bool × OrdSet ι) :=
  frontierImpl fuel F endpoint pred frontier F.predecessors

end Definitions

/-! ## Paths -/

section Paths

variable {β ι : Type} {F : CFG β ι} {P : ι → Prop} {endpoint i j : ι}

def CFG.Reaches (F : CFG β ι) : ι → ι → Prop := ReflTransGen F.Edge

/-- A path on which no instruction before the last satisfies `P`. -/
def CFG.Avoiding (F : CFG β ι) (P : ι → Prop) : ι → ι → Prop :=
  ReflTransGen fun i j => F.Edge i j ∧ ¬ P i

theorem CFG.Avoiding.reaches (h : F.Avoiding P i j) : F.Reaches i j :=
  ReflTransGen.mono (fun _ _ h => h.1) _ _ h

theorem CFG.Avoiding.eq (h : F.Avoiding P i j) (hi : P i) : i = j := by
  rcases h.cases_head with rfl | ⟨k, hstep, _⟩
  · rfl
  · exact absurd hi hstep.2

/-- Nothing but itself reaches the first instruction. -/
theorem CFG.Reaches.eq_first (h : F.Reaches i F.first) : i = F.first := by
  rcases h.cases_tail with h | ⟨k, _, hstep⟩
  · exact h.symm
  · exact absurd hstep not_edge_first

/-- What reaches the endpoint does so without meeting `P`, or else reaches the last
instruction in `P`. -/
theorem CFG.Reaches.avoiding_or (h : F.Reaches i endpoint) : F.Avoiding P i endpoint ∨
    ∃ k, F.Reaches i k ∧ k ≠ endpoint ∧ P k ∧ ∃ j, F.Edge k j ∧ F.Avoiding P j endpoint := by
  induction h using ReflTransGen.head_induction_on with
  | refl => exact .inl .refl
  | @head i j hstep _ ih =>
    rcases ih with havoid | ⟨k, hk, hlast⟩
    · by_cases hi : i = endpoint
      · exact .inl (hi ▸ .refl)
      · by_cases hP : P i
        · exact .inr ⟨i, .refl, hi, hP, j, hstep, havoid⟩
        · exact .inl (.head ⟨hstep, hP⟩ havoid)
    · exact .inr ⟨k, .head hstep hk, hlast⟩

end Paths

section Spec

variable {β ι : Type} [DecidableEq β] [LinearOrder ι] {F : CFG β ι} {endpoint root i : ι}
  {pred : ι → Bool}

omit [DecidableEq β] in
theorem search_spec {τ : Type} (F : CFG β ι) (visit : ι → τ → τ) {expand : ι → List ι} (start : ι)
    (hexpand : ∀ u, ∀ v ∈ expand u, v ∈ F.instructions) :
    ∃ N, ∀ fuel ≥ N, ∀ s, ∃ (seen : OrdSet ι) (order : List ι), (∀ v, v ∈ order ↔ v ∈ seen) ∧
      (∀ v, v ∈ seen ↔ ReflTransGen (fun u v => v ∈ expand u) start v) ∧
      search visit expand fuel start s = .ok (seen, order.foldl (fun s v => visit v s) s) := by
  refine ⟨Flood.enough expand (insert start F.instructions.toFinset) [start],
    fun fuel hfuel s => ?_⟩
  obtain ⟨seen, order, horder, hseen, hret⟩ := Flood.flood_spec visit s
    (fun u _ v hv => Finset.mem_insert_of_mem (List.mem_toFinset.mpr (hexpand u v hv)))
    (by simp) hfuel
  refine ⟨seen, order, horder, fun v => (hseen v).trans (by simp; rfl), ?_⟩
  unfold search
  rw [hret]
  rfl

/-- The predecessors search finds what can reach the root. -/
theorem reachablePredecessors_spec (F : CFG β ι) (root : ι) :
    ∃ N, ∃ seen : OrdSet ι, (∀ i, i ∈ seen ↔ F.Reaches i root) ∧
      ∀ fuel ≥ N, reachablePredecessors fuel F root = .ok seen := by
  obtain ⟨N, hN⟩ := search_spec F (fun _ => id) root
    (fun u v (hv : v ∈ F.predecessors u) => (CFG.mem_predecessors.mp hv).mem.1)
  have hreaches {seen : OrdSet ι}
      (hseen : ∀ v, v ∈ seen ↔ ReflTransGen (fun u v => v ∈ F.predecessors u) root v) (i : ι) :
      i ∈ seen ↔ F.Reaches i root := by
    rw [hseen]
    simp only [CFG.mem_predecessors]
    exact reflTransGen_swap
  obtain ⟨seen, -, -, hseen, -⟩ := hN N le_rfl ()
  refine ⟨N, seen, hreaches hseen, fun fuel hfuel => ?_⟩
  obtain ⟨seen', order, -, hseen', hret⟩ := hN fuel hfuel ()
  obtain rfl : seen' = seen := OrdSet.ext fun i => (hseen' i).trans (hseen i).symm
  unfold reachablePredecessors
  rw [hret]
  rfl

theorem foldl_frontierVisit (endpoint : ι) (inSet : OrdSet ι) (order : List ι)
    (s : Bool × OrdSet ι) :
    ((order.foldl (fun s v => frontierVisit endpoint inSet v s) s).1 = true ↔
      s.1 = true ∧ endpoint ∉ order) ∧
    ∀ i, i ∈ (order.foldl (fun s v => frontierVisit endpoint inSet v s) s).2 ↔
      i ∈ s.2 ∨ i ∈ order ∧ i ≠ endpoint ∧ i ∈ inSet := by
  induction order generalizing s with
  | nil => simp
  | cons v order ih =>
    rw [List.foldl_cons]
    obtain ⟨hresult, hfrontier⟩ := ih (frontierVisit endpoint inSet v s)
    refine ⟨hresult.trans ?_, fun i => (hfrontier i).trans ?_⟩
    · unfold frontierVisit
      split_ifs with hv hin
      · simp [hv]
      · simp [Ne.symm hv]
      · simp [Ne.symm hv]
    · unfold frontierVisit
      split_ifs with hv hin
      · subst hv
        simp only [List.mem_cons]
        tauto
      · simp only [OrdSet.mem_insert, List.mem_cons]
        constructor
        · rintro ((rfl | h) | h)
          · exact .inr ⟨.inl rfl, hv, hin⟩
          · exact .inl h
          · exact .inr ⟨.inr h.1, h.2⟩
        · tauto
      · simp only [List.mem_cons]
        constructor
        · tauto
        · rintro (h | ⟨rfl | h, hne, hi⟩)
          · exact .inl h
          · exact absurd hi hin
          · exact .inr ⟨h, hne, hi⟩

/-- Where a frontier search stops. -/
def Stops (F : CFG β ι) (endpoint : ι) (pred : ι → Bool) (i : ι) : Prop :=
  i = endpoint ∨ pred i = true ∧ F.Reaches i endpoint

/-- A frontier search, for any way to go on that stays in the function. -/
theorem frontierImpl_spec (F : CFG β ι) (endpoint : ι) (pred : ι → Bool) {nexts : ι → List ι}
    (hnexts : ∀ u, ∀ v ∈ nexts u, u ∈ F.instructions ∧ v ∈ F.instructions) :
    ∃ N, ∀ fuel ≥ N, ∀ frontier, ∃ (result : Bool) (frontier' : OrdSet ι),
      frontierImpl fuel F endpoint pred frontier nexts = .ok (result, frontier') ∧
      (result = true ↔
        ¬ ReflTransGen (fun i j => j ∈ nexts i ∧ ¬ Stops F endpoint pred i) F.first endpoint) ∧
      ∀ i, i ∈ frontier' ↔ i ∈ frontier ∨ i ≠ endpoint ∧ pred i = true ∧ F.Reaches i endpoint ∧
        ReflTransGen (fun i j => j ∈ nexts i ∧ ¬ Stops F endpoint pred i) F.first i := by
  obtain ⟨N, subgraph, hsubgraph, hpreds⟩ := reachablePredecessors_spec F endpoint
  let inSet : OrdSet ι := .ofList (F.instructions.filter fun i => i ∈ subgraph && pred i)
  have hin (i : ι) :
      i ∈ inSet ↔ i ∈ F.instructions ∧ pred i = true ∧ F.Reaches i endpoint := by
    simp [inSet, hsubgraph, and_comm]
  have hstep : (fun u v => v ∈ frontierNexts endpoint inSet nexts u) =
      fun i j => j ∈ nexts i ∧ ¬ Stops F endpoint pred i := by
    funext i j
    refine propext ⟨fun h => ?_, fun ⟨h, hstops⟩ => ?_⟩
    · unfold frontierNexts at h
      split_ifs at h with hend hi
      · cases h
      · cases h
      · exact ⟨h, fun hstops =>
          hi ((hin i).mpr ⟨(hnexts i j h).1, hstops.resolve_left hend⟩)⟩
    · unfold frontierNexts
      rw [if_neg fun hend => hstops (.inl hend),
        if_neg fun hi => hstops (.inr ((hin i).mp hi).2)]
      exact h
  have hexpand : ∀ u, ∀ v ∈ frontierNexts endpoint inSet nexts u, v ∈ F.instructions := by
    intro u v hv
    have hv : v ∈ nexts u ∧ ¬ Stops F endpoint pred u := congrFun₂ hstep u v ▸ hv
    exact (hnexts u v hv.1).2
  obtain ⟨M, hM⟩ := search_spec F (frontierVisit endpoint inSet) F.first hexpand
  rw [hstep] at hM
  refine ⟨max N M, fun fuel hfuel frontier => ?_⟩
  obtain ⟨seen, order, horder, hseen, hret⟩ :=
    hM fuel ((le_max_right _ _).trans hfuel) (true, frontier)
  obtain ⟨hresult, hfrontier⟩ := foldl_frontierVisit endpoint inSet order (true, frontier)
  refine ⟨_, _, ?_, hresult.trans ?_, fun i => (hfrontier i).trans (or_congr_right ?_)⟩
  · unfold frontierImpl
    rw [hpreds fuel ((le_max_left _ _).trans hfuel)]
    change (search (frontierVisit endpoint inSet) _ fuel F.first (true, frontier) >>= _) = _
    rw [hret]
    rfl
  · rw [horder, hseen]
    simp
  · rw [horder, hseen, hin]
    constructor
    · exact fun ⟨hpath, hne, _, hpred, hreach⟩ => ⟨hne, hpred, hreach, hpath⟩
    · refine fun ⟨hne, hpred, hreach, hpath⟩ => ⟨hpath, hne, ?_, hpred, hreach⟩
      cases hpath with
      | refl => exact CFG.first_mem
      | tail _ hlast => exact (hnexts _ _ hlast.1).2

/-! ## Forward -/

omit [DecidableEq β] in
/-- A path that stops nowhere before the endpoint is as good as one that avoids `pred`. -/
theorem avoiding_iff :
    ReflTransGen (fun i j => F.Edge i j ∧ ¬ Stops F endpoint pred i) root endpoint ↔
      F.Avoiding (pred · = true) root endpoint := by
  constructor
  · intro h
    induction h using ReflTransGen.head_induction_on with
    | refl => exact .refl
    | head hstep hpath ih =>
      refine .head ⟨hstep.1, fun hpred => hstep.2 (.inr ⟨hpred, .head hstep.1 ?_⟩)⟩ ih
      exact ReflTransGen.mono (fun _ _ h => h.1) _ _ hpath
  · intro h
    induction h using ReflTransGen.head_induction_on with
    | refl => exact .refl
    | @head i j hstep _ ih =>
      -- At the first visit of the endpoint the path is over.
      by_cases hi : i = endpoint
      · rw [hi]
      · exact .head ⟨hstep.1, fun hstops => hstep.2 (hstops.resolve_left hi).1⟩ ih

/-- The forward frontier is exact: `true` when no path from the first instruction to the
endpoint avoids the predicate, and the instructions at which the search stopped. -/
theorem forwardFrontier_exact (F : CFG β ι) (endpoint : ι) (pred : ι → Bool) :
    ∃ N, ∀ fuel ≥ N, ∀ frontier, ∃ (result : Bool) (frontier' : OrdSet ι),
      forwardFrontier fuel F endpoint pred frontier = .ok (result, frontier') ∧
      (result = true ↔ ¬ F.Avoiding (pred · = true) F.first endpoint) ∧
      ∀ i, i ∈ frontier' ↔ i ∈ frontier ∨ i ≠ endpoint ∧ pred i = true ∧ F.Reaches i endpoint ∧
        F.Avoiding (Stops F endpoint pred) F.first i := by
  obtain ⟨N, hN⟩ := frontierImpl_spec F endpoint pred
    fun u v (hv : v ∈ F.successorsInst u) => (CFG.mem_successorsInst.mp hv).mem
  refine ⟨N, fun fuel hfuel frontier => ?_⟩
  obtain ⟨result, frontier', hret, hresult, hfrontier⟩ := hN fuel hfuel frontier
  simp only [CFG.mem_successorsInst] at hresult hfrontier
  exact ⟨result, frontier', hret, hresult.trans (not_congr avoiding_iff), hfrontier⟩

/-! ## Reverse -/

/-- What the reverse frontier should be: `true` when every path from the first instruction
to the endpoint meets the predicate, and the instructions from which a path leads to the
endpoint that does not meet the predicate in between. -/
def Mirrors (F : CFG β ι) (endpoint : ι) (pred : ι → Bool) (frontier : OrdSet ι)
    (r : Bool × OrdSet ι) : Prop :=
  (r.1 = true ↔ ¬ F.Avoiding (pred · = true) F.first endpoint) ∧
  ∀ i, i ∈ r.2 ↔ i ∈ frontier ∨ i ≠ endpoint ∧ pred i = true ∧
    ∃ j, F.Edge i j ∧ F.Avoiding (pred · = true) j endpoint

/-- The reverse search sees the first instruction only. -/
theorem reverseFrontier_spec (pred : ι → Bool) (hendpoint : endpoint ≠ F.first)
    (hreach : F.Reaches F.first endpoint) :
    ∃ N, ∀ fuel ≥ N, ∀ frontier, reverseFrontier fuel F endpoint pred frontier =
      .ok (true, if pred F.first then frontier.insert F.first else frontier) := by
  obtain ⟨N, hN⟩ := frontierImpl_spec F endpoint pred
    fun u v (hv : v ∈ F.predecessors u) => (CFG.mem_predecessors.mp hv).mem.symm
  refine ⟨N, fun fuel hfuel frontier => ?_⟩
  obtain ⟨result, frontier', hret, hresult, hfrontier⟩ := hN fuel hfuel frontier
  have hstay (i : ι) : ReflTransGen (fun i j => j ∈ F.predecessors i ∧ ¬ Stops F endpoint pred i)
      F.first i ↔ i = F.first := by
    refine ⟨fun h => ?_, fun h => h ▸ .refl⟩
    induction h with
    | refl => rfl
    | tail _ hstep ih =>
      subst ih
      exact absurd (CFG.mem_predecessors.mp hstep.1) CFG.not_edge_first
  simp only [hstay] at hresult hfrontier
  obtain rfl : result = true := hresult.mpr hendpoint
  suffices hset : frontier' = if pred F.first then frontier.insert F.first else frontier by
    rw [← hset]
    exact hret
  ext i
  rw [hfrontier]
  split_ifs with hpred
  · rw [OrdSet.mem_insert, or_comm]
    refine or_congr_left ⟨fun h => h.2.2.2, ?_⟩
    rintro rfl
    exact ⟨hendpoint.symm, hpred, hreach, rfl⟩
  · refine or_iff_left ?_
    rintro ⟨-, hi, -, rfl⟩
    exact hpred hi

/-- The condition under which the reverse frontier is what it should be: the first
instruction satisfies the predicate, and no other one that reaches the endpoint does. -/
def OnlyFirst (F : CFG β ι) (endpoint : ι) (pred : ι → Bool) : Prop :=
  pred F.first = true ∧
    ∀ i, i ≠ F.first → i ≠ endpoint → pred i = true → ¬ F.Reaches i endpoint

omit [DecidableEq β] in
theorem OnlyFirst.of_mirrors (hreach : F.Reaches F.first endpoint)
    (h : Mirrors F endpoint pred ∅ (true, if pred F.first then OrdSet.insert F.first ∅ else ∅)) :
    OnlyFirst F endpoint pred := by
  obtain ⟨hresult, hfrontier⟩ := h
  have hlast {k : ι} (hk : k ≠ endpoint) (hpred : pred k = true)
      (hj : ∃ j, F.Edge k j ∧ F.Avoiding (pred · = true) j endpoint) :
      k = F.first ∧ pred F.first = true := by
    have hmem := (hfrontier k).mpr (.inr ⟨hk, hpred, hj⟩)
    split_ifs at hmem with hfirst
    · exact ⟨by simpa using hmem, hfirst⟩
    · exact absurd hmem (OrdSet.not_mem_empty k)
  refine ⟨?_, fun i hi hie hpred hreach' => ?_⟩
  · obtain havoid | ⟨k, -, hk, hpred, hj⟩ := hreach.avoiding_or (P := (pred · = true))
    · exact absurd havoid (hresult.mp rfl)
    · exact (hlast hk hpred hj).2
  · obtain havoid | ⟨k, hik, hk, hpredk, hj⟩ := hreach'.avoiding_or (P := (pred · = true))
    · exact hie (havoid.eq hpred)
    · obtain ⟨rfl, -⟩ := hlast hk hpredk hj
      exact hi hik.eq_first

omit [DecidableEq β] in
theorem OnlyFirst.mirrors (hendpoint : endpoint ≠ F.first) (hreach : F.Reaches F.first endpoint)
    (h : OnlyFirst F endpoint pred) (frontier : OrdSet ι) : Mirrors F endpoint pred frontier
      (true, if pred F.first then frontier.insert F.first else frontier) := by
  obtain ⟨hfirst, honly⟩ := h
  have hedge : ∃ j, F.Edge F.first j ∧ F.Avoiding (pred · = true) j endpoint := by
    obtain heq | ⟨j, hstep, hj⟩ := hreach.cases_head
    · exact absurd heq.symm hendpoint
    · refine ⟨j, hstep, ?_⟩
      obtain havoid | ⟨k, hjk, hk, hpred, l, hkl, hl⟩ :=
        CFG.Reaches.avoiding_or (P := (pred · = true)) hj
      · exact havoid
      · -- A later instruction in `pred` would be the first one, which nothing leads to.
        have hkfirst : k = F.first := by
          by_contra hne
          exact honly k hne hk hpred (.head hkl hl.reaches)
        subst hkfirst
        exact absurd (hjk.eq_first ▸ hstep) CFG.not_edge_first
  refine ⟨⟨fun _ havoid => hendpoint (havoid.eq hfirst).symm, fun _ => rfl⟩, fun i => ?_⟩
  simp only [hfirst, if_true, OrdSet.mem_insert]
  rw [or_comm]
  refine or_congr_right ⟨?_, ?_⟩
  · rintro rfl
    exact ⟨hendpoint.symm, hfirst, hedge⟩
  · rintro ⟨hi, hpred, j, hij, hj⟩
    by_contra hne
    exact honly i hne hi hpred (.head hij hj.reaches)

/-- On a fresh frontier the reverse search is right exactly when the first instruction
satisfies the predicate and no other one that reaches the endpoint does; then it is right
on any frontier. -/
theorem reverseFrontier_exact (F : CFG β ι) (endpoint : ι) (pred : ι → Bool)
    (hendpoint : endpoint ≠ F.first) (hreach : F.Reaches F.first endpoint) :
    ∃ (N : Nat) (f : OrdSet ι → Bool × OrdSet ι),
      (∀ fuel ≥ N, ∀ frontier, reverseFrontier fuel F endpoint pred frontier = .ok (f frontier)) ∧
      (Mirrors F endpoint pred ∅ (f ∅) ↔ OnlyFirst F endpoint pred) ∧
      (OnlyFirst F endpoint pred → ∀ frontier, Mirrors F endpoint pred frontier (f frontier)) := by
  obtain ⟨N, hN⟩ := reverseFrontier_spec pred hendpoint hreach
  have hmirrors (h : OnlyFirst F endpoint pred) := h.mirrors hendpoint hreach
  exact ⟨N, _, hN, ⟨.of_mirrors hreach, fun h => hmirrors h ∅⟩, hmirrors⟩

theorem straightLine_edge {i : Nat} (hi : i + 1 ∈ straightLine.successorsInst i) :
    straightLine.Edge i (i + 1) :=
  CFG.mem_successorsInst.mp hi

theorem straightLine_reaches : straightLine.Reaches straightLine.first 3 :=
  .head (straightLine_edge (i := 0) (by decide)) <|
    .head (straightLine_edge (i := 1) (by decide)) (.single (straightLine_edge (by decide)))

/-- Of four instructions only the first satisfies the predicate. -/
theorem reverseFrontier_exact_straightLine : 3 ≠ straightLine.first ∧
    ∃ (N : Nat) (f : OrdSet Nat → Bool × OrdSet Nat),
      (∀ fuel ≥ N, ∀ frontier,
        reverseFrontier fuel straightLine 3 (· = 0) frontier = .ok (f frontier)) ∧
      Mirrors straightLine 3 (· = 0) ∅ (f ∅) := by
  have hne : 3 ≠ straightLine.first := by decide
  obtain ⟨N, f, hret, hexact, -⟩ :=
    reverseFrontier_exact straightLine 3 (· = 0) hne straightLine_reaches
  exact ⟨hne, N, f, hret, hexact.mpr ⟨by decide, fun i hi _ hpred => absurd (of_decide_eq_true hpred) hi⟩⟩

/-- Of four instructions the second satisfies the predicate, so it should be on the
frontier of the last. -/
theorem reverseFrontier_misses : ∃ r : Bool × OrdSet Nat,
    3 ≠ straightLine.first ∧ straightLine.Reaches straightLine.first 3 ∧
    reverseFrontier 6 straightLine 3 (· = 1) ∅ = .ok r ∧ ¬ Mirrors straightLine 3 (· = 1) ∅ r := by
  refine ⟨(true, ∅), by decide, straightLine_reaches, by decide +kernel, fun h => ?_⟩
  refine absurd ((h.2 1).mpr (.inr ⟨by decide, rfl, 2, straightLine_edge (by decide), ?_⟩))
    (OrdSet.not_mem_empty 1)
  exact .single ⟨straightLine_edge (by decide), by decide⟩

end Spec

end Clou.ControlFlow
