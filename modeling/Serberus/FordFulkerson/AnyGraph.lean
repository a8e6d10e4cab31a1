-- SUMMARY: What the solver returns, and how it can fail, on graphs with any weights.
import Serberus.FordFulkerson.Layered

/-!
# Any Weights

Edges of weight zero break the agreement of `operator[]` and `get_weight`, and with
it the correctness of the solver. Still its result is sorted, and holds only edges
of the graph: every row of the layered graph holds copies of edges, whatever they
weigh.
-/

namespace Clou

open Clou.Graph

/-! ## Rows of Copies -/

/-- Every edge in a row of `g` is a copy of an edge of `G`. -/
def Copies (G : IdxGraph) {γ : Type} [Graph γ] (g : γ) : Prop :=
  ∀ a b, b ∈ succs g a → G.Edge (a % G.length) (b % G.length)

theorem copies_dupGraph {G : IdxGraph} (hG : G.Closed) (k : Nat) :
    Copies G (⟨⟨G⟩, k⟩ : DupGraph ImmutableVectorGraph) := by
  intro a b hb
  obtain ⟨w, hb⟩ := OrdMap.mem_keys.mp hb
  obtain ⟨v, hv, rfl⟩ := OrdMap.mem_mapKeys.mp hb
  have hedge : G.Edge (a % G.length) v := OrdMap.mem_keys.mpr ⟨w, hv⟩
  change G.Edge (a % G.length) ((v + a / G.length * G.length) % G.length)
  rwa [Nat.add_mul_mod_self_right, Nat.mod_eq_of_lt (hG.dst_lt hedge)]

namespace Copies

variable {G : IdxGraph} {γ : Type} [Graph γ] {g : ScopedGraph γ}

theorem putWeight (h : Copies G g) {src dst : Idx} {w : Weight}
    (hput : 0 < w → G.Edge (src % G.length) (dst % G.length)) :
    Copies G (g.putWeight src dst w) := by
  intro a b hb
  rw [succs, ScopedGraph.row_putWeight] at hb
  split_ifs at hb with ha hw
  · subst ha
    obtain ⟨w', hb⟩ := OrdMap.mem_keys.mp hb
    rcases OrdMap.mem_insert.mp hb with heq | ⟨-, hb⟩
    · obtain ⟨rfl, -⟩ := Prod.mk.inj heq
      exact hput hw
    · exact h a b (OrdMap.mem_keys.mpr ⟨w', hb⟩)
  · subst ha
    obtain ⟨w', hb⟩ := OrdMap.mem_keys.mp hb
    exact h a b (OrdMap.mem_keys.mpr ⟨w', (OrdMap.mem_erase.mp hb).2⟩)
  · exact h a b hb

theorem putWeights (h : Copies G g) {puts : List (Idx × Idx × Weight)}
    (hputs : ∀ p ∈ puts, 0 < p.2.2 → G.Edge (p.1 % G.length) (p.2.1 % G.length)) :
    Copies G (g.putWeights puts) := by
  induction puts generalizing g with
  | nil => exact h
  | cons p puts ih =>
    obtain ⟨hput, hputs⟩ := List.forall_mem_cons.mp hputs
    exact ih (h.putWeight hput) hputs

end Copies

theorem levelPuts_copies {G : IdxGraph} (hG : G.Closed) (k : Nat) (S : OrdSet Idx) (i : Nat) :
    ∀ p ∈ levelPuts ⟨⟨G⟩, k⟩ S i, 0 < p.2.2 → G.Edge (p.1 % G.length) (p.2.1 % G.length) := by
  intro p hp hpos
  simp only [levelPuts, List.mem_flatMap, List.mem_range, List.mem_filter, List.mem_cons,
    List.not_mem_nil, or_false] at hp
  obtain ⟨u, hu, e, ⟨hrow, -⟩, hp⟩ := hp
  have hu : u < G.length := hu
  have hedge : G.Edge u e.1 := OrdMap.mem_keys.mpr ⟨e.2, hrow⟩
  rcases hp with rfl | rfl
  · change G.Edge ((u + G.length * (i - 1)) % G.length) ((e.1 + G.length * i) % G.length)
    rwa [Nat.add_mul_mod_self_left, Nat.add_mul_mod_self_left, Nat.mod_eq_of_lt hu,
      Nat.mod_eq_of_lt (hG.dst_lt hedge)]
  · exact absurd rfl (Weight.pos_iff.mp hpos)

theorem copies_modGraphOn {G : IdxGraph} (hG : G.Closed) (k : Nat) (W : List (OrdSet Idx)) :
    Copies G (modGraphOn ⟨⟨G⟩, k⟩ W) := by
  induction W using List.reverseRecOn with
  | nil => exact copies_dupGraph hG k
  | append_singleton W S ih =>
    rw [modGraphOn_concat]
    split_ifs
    · rw [levelUps_eq]
      exact ih.putWeights (levelPuts_copies hG k S W.length)
    · exact ih

/-! ## The Result -/

section Solver

variable {G : IdxGraph} {W : List (OrdSet Idx)} {ndebug : Bool} {fuel : Nat}

/-- The solver returns sorted edges of the graph. -/
theorem fordFulkersonMulti_edges (hG : G.Closed) {cut : List IdxEdge}
    (hret : fordFulkersonMulti ndebug fuel G W = .ok cut) :
    cut.Pairwise (· < ·) ∧ ∀ e ∈ cut, G.Edge e.src e.dst := by
  unfold fordFulkersonMulti fordFulkersonMultiImpl at hret
  obtain ⟨results, himpl, hcut⟩ := Exec.bind_eq_ok.mp hret
  obtain ⟨-, -, himpl⟩ := Exec.bind_eq_ok.mp himpl
  obtain rfl := Except.ok.inj hcut
  refine ⟨sortUnique_sorted _, fun e he => ?_⟩
  obtain ⟨e', he', rfl⟩ := List.mem_map.mp (mem_sortUnique.mp he)
  split_ifs at himpl
  · obtain rfl := Except.ok.inj himpl
    exact absurd he' List.not_mem_nil
  · obtain ⟨resG, -, hresults⟩ := Exec.bind_eq_ok.mp himpl
    obtain rfl := Except.ok.inj hresults
    obtain ⟨u, -, he'⟩ := List.mem_flatMap.mp he'
    obtain ⟨v, hv, rfl⟩ := List.mem_map.mp he'
    exact copies_modGraphOn hG W.length W u v (List.mem_filter.mp hv).1

/-- The faults of the solver. -/
def SolverFault (f : Fault) : Prop :=
  f ∈ [Fault.outOfFuel, .noParent, .assertion .enoughWaypoints, .assertion .pathSize,
    .assertion .pathFlow]

theorem faults_traceLeg (parent : Search.Log Idx) (S : OrdSet Idx) (fuel : Nat) (v : Idx) :
    Exec.Faults SolverFault (traceLeg parent S fuel v) := by
  induction fuel generalizing v with
  | zero => exact Exec.faults_throw (by simp [SolverFault])
  | succ fuel ih =>
    unfold traceLeg
    split
    · exact Exec.faults_throw (by simp [SolverFault])
    · split_ifs
      · exact Exec.faults_pure _
      · exact (ih _).bind fun _ => Exec.faults_pure _

theorem faults_tracePath (legs : List (Search.Log Idx × OrdSet Idx)) (t : Idx) :
    Exec.Faults SolverFault (tracePath legs t) := by
  induction legs generalizing t with
  | nil => exact Exec.faults_pure _
  | cons leg legs ih =>
    refine (faults_traceLeg _ _ _ _).bind fun r => ?_
    exact (ih r.2).bind fun _ => Exec.faults_pure _

theorem faults_findStPathMulti {γ : Type} [Graph γ] (g : γ) (W : List (OrdSet Idx)) :
    Exec.Faults SolverFault (findStPathMulti ndebug g W) := by
  refine (Exec.faults_assert (by simp [SolverFault])).bind fun _ => ?_
  dsimp only
  split
  · exact Exec.faults_pure _
  · exact (faults_tracePath _ _).bind fun _ => Exec.faults_pure _

theorem faults_augment {γ : Type} [Graph γ] (W : List (OrdSet Idx)) (resG : ScopedGraph γ) :
    Exec.Faults SolverFault (augment ndebug W fuel resG) := by
  induction fuel generalizing resG with
  | zero => exact Exec.faults_throw (by simp [SolverFault])
  | succ fuel ih =>
    refine (faults_findStPathMulti _ _).bind fun found => ?_
    cases found with
    | none => exact Exec.faults_pure _
    | some path =>
      refine (Exec.faults_assert (by simp [SolverFault])).bind fun _ => ?_
      exact (Exec.faults_assert (by simp [SolverFault])).bind fun _ => ih _

/-- The solver fails in its own ways only. -/
theorem faults_fordFulkersonMulti (G : IdxGraph) (W : List (OrdSet Idx)) :
    Exec.Faults SolverFault (fordFulkersonMulti ndebug fuel G W) := by
  refine Exec.Faults.bind ?_ fun _ => Exec.faults_pure _
  refine (Exec.faults_assert (by simp [SolverFault])).bind fun _ => ?_
  split_ifs
  · exact Exec.faults_pure _
  · exact (faults_augment _ _).bind fun _ => Exec.faults_pure _

end Solver

end Clou
