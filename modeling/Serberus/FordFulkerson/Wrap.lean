-- SUMMARY: When the flow updates wrap around: exactly when a path crosses an edge more often than its residual weight pays for.
import Mathlib.Algebra.BigOperators.Intervals
import Serberus.FordFulkerson.Cut

/-!
# Wrap-Around

The augmenting loop takes the least residual weight on a path, then moves it once
for every edge of the path. A path through three or more waypoint sets may cross
an edge on several legs. Each crossing moves the path flow again, so an edge has
to pay for its crossings so far, less those of its reverse. `Affordable` says this
in terms of the residual graph before the iteration; it is exactly what keeps the
subtractions and additions of the iteration within a machine word.
-/

namespace Clou

open Clou.Graph

/-! ## Edge by Edge -/

/-- `P` holds of every edge of a list together with the edges before it. -/
def InTurn {α : Type} (P : List α → α → Prop) (es : List α) : Prop :=
  ∀ es₁ e es₂, es = es₁ ++ e :: es₂ → P es₁ e

theorem inTurn_nil {α : Type} {P : List α → α → Prop} : InTurn P [] := by
  intro es₁ e es₂ h
  simp at h

theorem inTurn_concat {α : Type} {P : List α → α → Prop} {es : List α} {x : α} :
    InTurn P (es ++ [x]) ↔ InTurn P es ∧ P es x := by
  constructor
  · intro h
    refine ⟨fun es₁ e es₂ heq => h es₁ e (es₂ ++ [x]) ?_, h es x [] rfl⟩
    simp [heq]
  · rintro ⟨h, hx⟩ es₁ e es₂ heq
    rcases List.eq_nil_or_concat es₂ with rfl | ⟨es₂, y, rfl⟩
    · obtain ⟨rfl, hxe⟩ := List.append_inj' heq rfl
      obtain rfl : x = e := by simpa using hxe
      exact hx
    · rw [List.concat_eq_append, ← List.cons_append, ← List.append_assoc] at heq
      exact h es₁ e es₂ (List.append_inj' heq rfl).1

theorem InTurn.of_append {α : Type} {P : List α → α → Prop} {es es' : List α}
    (h : InTurn P (es ++ es')) : InTurn P es := by
  intro es₁ e es₂ heq
  exact h es₁ e (es₂ ++ es') (by simp [heq])

/-! ## The Conditions -/

section Conditions

variable {γ : Type} [Graph γ]

/-- Residual weights of a pair of distinct nodes add up to its original weights. -/
def SumLaw (g : γ) (resG : ScopedGraph γ) : Prop :=
  ∀ u v, u ≠ v → (getWeight resG u v).toNat + (getWeight resG v u).toNat =
    (getWeight g u v).toNat + (getWeight g v u).toNat

/-- Nothing wraps around when `path` is augmented, and the sum law holds afterwards. -/
structure NoWrap (g : γ) (resG : ScopedGraph γ) (path : List Idx) : Prop where
  sub : InTurn (fun es e => pathFlow resG path ≤
      getWeight (pushEdges (pathFlow resG path) resG es) e.src e.dst) (pathEdges path)
  add : InTurn (fun es e =>
      let resG' := pushEdges (pathFlow resG path) resG es
      let resG' := resG'.putWeight e.src e.dst
        (getWeight resG' e.src e.dst - pathFlow resG path)
      (getWeight resG' e.dst e.src).toNat + (pathFlow resG path).toNat < 2 ^ 32) (pathEdges path)
  sum : SumLaw g (pushPath resG path)

/-- Every edge of the path pays for its crossings so far, less those of its reverse. -/
def Affordable (resG : ScopedGraph γ) (path : List Idx) : Prop :=
  InTurn (fun es e => (pathFlow resG path).toNat * (es.count e + 1) ≤
    (getWeight resG e.src e.dst).toNat + (pathFlow resG path).toNat * es.count e.swap)
    (pathEdges path)

/-- The residual graphs before the iterations of the augmenting loop, as long as
the iterations satisfy `ok`. -/
inductive AugmentRun (ndebug : Bool) (g : γ) (waypointSets : List (OrdSet Idx))
    (ok : ScopedGraph γ → List Idx → Prop) : ScopedGraph γ → Prop where
  | init : AugmentRun ndebug g waypointSets ok (.new g)
  | step {resG : ScopedGraph γ} {path : List Idx} :
      AugmentRun ndebug g waypointSets ok resG →
      findStPathMulti ndebug resG waypointSets = .ok (some path) → ok resG path →
      AugmentRun ndebug g waypointSets ok (pushPath resG path)

/-- The loop ends in the last state of such a run when all its iterations satisfy `ok`. -/
theorem augment_run {ndebug : Bool} {g : γ} {waypointSets : List (OrdSet Idx)} {fuel : Nat}
    {ok : ScopedGraph γ → List Idx → Prop} {resG : ScopedGraph γ}
    (hok : ∀ resG path, AugmentRun ndebug g waypointSets ok resG →
      findStPathMulti ndebug resG waypointSets = .ok (some path) → ok resG path)
    (hret : augment ndebug waypointSets fuel (.new g) = .ok resG) :
    AugmentRun ndebug g waypointSets ok resG :=
  (augment_inv (fun _ _ h hfind => .step h hfind (hok _ _ h hfind)) .init hret).1

end Conditions

/-! ## Counting Crossings -/

section Crossings

variable {γ : Type} [Graph γ] {resG : ScopedGraph γ} {flow : Weight}

theorem lawful_pushEdges (flow : Weight) {es : List IdxEdge} (h : Lawful resG)
    (hes : ∀ e ∈ es, e.src < nodes resG ∧ e.dst < nodes resG) :
    Lawful (pushEdges flow resG es) ∧ nodes (pushEdges flow resG es) = nodes resG := by
  induction es generalizing resG with
  | nil => exact ⟨h, rfl⟩
  | cons e es ih =>
    obtain ⟨⟨hsrc, hdst⟩, hes⟩ := List.forall_mem_cons.mp hes
    exact ih (lawful_pushEdge h hsrc hdst) hes

theorem pushEdges_concat (es : List IdxEdge) (e : IdxEdge) :
    pushEdges flow resG (es ++ [e]) = pushEdge flow (pushEdges flow resG es) e :=
  List.foldl_concat (pushEdge flow) resG e es

/-- A push that does not wrap moves the flow from the edge to its reverse. -/
theorem toNat_pushEdge {e : IdxEdge} (h : Lawful resG) (hdst : e.dst < nodes resG)
    (hsub : flow.toNat ≤ (getWeight resG e.src e.dst).toNat)
    (hadd : e.src ≠ e.dst → (getWeight resG e.dst e.src).toNat + flow.toNat < 2 ^ 32) (u v : Idx) :
    (getWeight (pushEdge flow resG e) u v).toNat + flow.toNat * [e].count ⟨u, v⟩ =
      (getWeight resG u v).toNat + flow.toNat * [e].count ⟨v, u⟩ := by
  have hswap : e = ⟨v, u⟩ ↔ e.swap = ⟨u, v⟩ := by
    obtain ⟨a, b⟩ := e
    simp [IdxEdge.swap, and_comm]
  rw [getWeight_pushEdge h hdst, List.count_singleton, List.count_singleton]
  simp only [beq_iff_eq, hswap]
  by_cases hfwd : e = ⟨u, v⟩
  · by_cases hbwd : e.swap = ⟨u, v⟩
    · rw [hfwd] at hbwd
      simp [hfwd, hbwd]
    · subst hfwd
      change flow.toNat ≤ (getWeight resG u v).toNat at hsub
      simp only [if_true, hbwd, if_false, Nat.mul_zero, Nat.mul_one]
      rw [UInt32.toNat_sub_of_le _ _ (UInt32.le_iff_toNat_le.mpr hsub)]
      omega
  · by_cases hbwd : e.swap = ⟨u, v⟩
    · have hne : e.src ≠ e.dst := by
        intro heq
        refine hfwd (Eq.trans ?_ hbwd)
        obtain ⟨a, b⟩ := e
        simp only at heq
        simp [IdxEdge.swap, heq]
      obtain ⟨rfl, rfl⟩ : e.dst = u ∧ e.src = v := by simpa [IdxEdge.swap] using hbwd
      simp only [hfwd, if_false, hbwd, if_true, Nat.mul_zero, Nat.mul_one]
      rw [UInt32.toNat_add, Nat.mod_eq_of_lt (hadd hne)]
      rfl
    · simp [hfwd, hbwd]

/-- Pushes that do not wrap move the flow once for every crossing. -/
theorem toNat_pushEdges {es : List IdxEdge} (h : Lawful resG)
    (hes : ∀ e ∈ es, e.src < nodes resG ∧ e.dst < nodes resG)
    (hcap : ∀ u v, u ≠ v → (getWeight resG u v).toNat + (getWeight resG v u).toNat < 2 ^ 32)
    (hsub : InTurn (fun es e => flow ≤ getWeight (pushEdges flow resG es) e.src e.dst) es)
    (u v : Idx) : (getWeight (pushEdges flow resG es) u v).toNat + flow.toNat * es.count ⟨u, v⟩ =
      (getWeight resG u v).toNat + flow.toNat * es.count ⟨v, u⟩ := by
  induction es using List.reverseRecOn generalizing u v with
  | nil => rfl
  | append_singleton es e ih =>
    obtain ⟨hes, he⟩ := List.forall_mem_append.mp hes
    obtain ⟨hsub, hlast⟩ := inTurn_concat.mp hsub
    specialize ih hes hsub
    obtain ⟨hlawful, hnodes⟩ := lawful_pushEdges flow h hes
    rw [UInt32.le_iff_toNat_le] at hlast
    have hadd (hne : e.src ≠ e.dst) :
        (getWeight (pushEdges flow resG es) e.dst e.src).toNat + flow.toNat < 2 ^ 32 := by
      have hfwd := ih e.src e.dst
      have hbwd := ih e.dst e.src
      have := hcap _ _ hne
      omega
    have hstep := toNat_pushEdge hlawful (hnodes ▸ (he e (.head _)).2) hlast hadd u v
    have hbefore := ih u v
    rw [pushEdges_concat, List.count_append, List.count_append, Nat.mul_add, Nat.mul_add]
    omega

/-- Whether the subtractions of the next push wrap can be read off the residual
weights before the first one. -/
theorem inTurn_sub_iff {es : List IdxEdge} (h : Lawful resG)
    (hes : ∀ e ∈ es, e.src < nodes resG ∧ e.dst < nodes resG)
    (hcap : ∀ u v, u ≠ v → (getWeight resG u v).toNat + (getWeight resG v u).toNat < 2 ^ 32) :
    InTurn (fun es e => flow ≤ getWeight (pushEdges flow resG es) e.src e.dst) es ↔
      InTurn (fun es e => flow.toNat * (es.count e + 1) ≤
        (getWeight resG e.src e.dst).toNat + flow.toNat * es.count e.swap) es := by
  induction es using List.reverseRecOn with
  | nil => exact iff_of_true inTurn_nil inTurn_nil
  | append_singleton es e ih =>
    obtain ⟨hes, -⟩ := List.forall_mem_append.mp hes
    rw [inTurn_concat, inTurn_concat, ← ih hes, and_congr_right_iff]
    intro hsub
    have hcount := toNat_pushEdges h hes hcap hsub e.src e.dst
    change _ + flow.toNat * es.count e = _ + flow.toNat * es.count e.swap at hcount
    rw [UInt32.le_iff_toNat_le, Nat.mul_succ]
    omega

end Crossings

/-! ## Iterations -/

section Iteration

variable {γ : Type} [Graph γ] {g : γ} {resG : ScopedGraph γ} {path : List Idx}

/-- An iteration from a residual graph with the sum law wraps nothing exactly when
its path is affordable. -/
theorem noWrap_iff (h : Residual g resG) (hsum : SumLaw g resG)
    (hcap : ∀ u v, u ≠ v → (getWeight g u v).toNat + (getWeight g v u).toNat < 2 ^ 32)
    (hpath : ∀ e ∈ pathEdges path, e.src < nodes g ∧ e.dst < nodes g) :
    NoWrap g resG path ↔ Affordable resG path := by
  have hcap' (u v : Idx) (hne : u ≠ v) :
      (getWeight resG u v).toNat + (getWeight resG v u).toNat < 2 ^ 32 := by
    rw [hsum u v hne]
    exact hcap u v hne
  rw [← h.nodes_eq] at hpath
  have hiff := @inTurn_sub_iff _ _ _ (pathFlow resG path) _ h.lawful hpath hcap'
  refine ⟨fun hno => hiff.mp hno.sub, fun hafford => ?_⟩
  have hsub := hiff.mpr hafford
  refine ⟨hsub, fun es₁ e es₂ heq => ?_, fun u v hne => ?_⟩
  · rw [heq] at hsub hpath
    obtain ⟨hbefore, he⟩ := List.forall_mem_append.mp hpath
    have hle := UInt32.le_iff_toNat_le.mp (hsub es₁ e es₂ rfl)
    have hcount := toNat_pushEdges h.lawful hbefore hcap' hsub.of_append
    have hlawful := (lawful_pushEdges (pathFlow resG path) h.lawful hbefore).1
    simp only
    rw [ScopedGraph.getWeight_putWeight hlawful]
    split_ifs with hloop
    · rw [UInt32.toNat_sub_of_le _ _ (UInt32.le_iff_toNat_le.mpr hle), Nat.sub_add_cancel hle]
      exact UInt32.toNat_lt _
    · have hne : e.src ≠ e.dst := fun heq => hloop ⟨heq.symm, heq⟩
      have hfwd := hcount e.src e.dst
      have hbwd := hcount e.dst e.src
      have := hcap' _ _ hne
      omega
  · have hfwd := toNat_pushEdges h.lawful hpath hcap' hsub u v
    have hbwd := toNat_pushEdges h.lawful hpath hcap' hsub v u
    have := hsum u v hne
    change (getWeight (pushEdges (pathFlow resG path) resG (pathEdges path)) u v).toNat +
      (getWeight (pushEdges (pathFlow resG path) resG (pathEdges path)) v u).toNat = _
    omega

/-- A path that crosses no edge twice is affordable. -/
theorem affordable_of_nodup (h : (pathEdges path).Nodup) : Affordable resG path := by
  intro es₁ e es₂ heq
  have hflow : (pathFlow resG path).toNat ≤ (getWeight resG e.src e.dst).toNat :=
    pathFlow_le (by simp [heq])
  have hfirst : e ∉ es₁ := by
    rw [heq] at h
    exact fun hmem => (List.nodup_append.mp h).2.2 e hmem e (.head _) rfl
  rw [List.count_eq_zero_of_not_mem hfirst, Nat.zero_add, Nat.mul_one]
  omega

end Iteration

/-! ## Total Weight -/

/-- The sum of all edge weights. -/
def IdxGraph.totalWeight (G : IdxGraph) : Nat :=
  ∑ u ∈ Finset.range G.length, ∑ v ∈ Finset.range G.length, (G.weight u v).toNat

section TotalWeight

variable {G : IdxGraph} {W : List (OrdSet Idx)}

theorem IdxGraph.WF.weight_le_row (hG : G.WF) (u v : Idx) :
    (G.weight u v).toNat ≤ ∑ v ∈ Finset.range G.length, (G.weight u v).toNat := by
  by_cases hedge : G.Edge u v
  · have hv : v ∈ Finset.range G.length := Finset.mem_range.mpr (hG.dst_lt hedge)
    exact Finset.single_le_sum (f := fun v => (G.weight u v).toNat) (fun _ _ => Nat.zero_le _) hv
  · rw [weight_of_not_edge hedge]
    exact Nat.zero_le _

theorem IdxGraph.WF.weight_le_totalWeight (hG : G.WF) (u v : Idx) :
    (G.weight u v).toNat ≤ G.totalWeight := by
  by_cases hedge : G.Edge u v
  · refine (hG.weight_le_row u v).trans ?_
    exact Finset.single_le_sum (f := fun u => ∑ v ∈ Finset.range G.length, (G.weight u v).toNat)
      (fun _ _ => Nat.zero_le _) (Finset.mem_range.mpr hedge.src_lt)
  · rw [weight_of_not_edge hedge]
    exact Nat.zero_le _

theorem IdxGraph.WF.weight_add_le (hG : G.WF) {u v : Idx} (hne : u ≠ v) :
    (G.weight u v).toNat + (G.weight v u).toNat ≤ G.totalWeight := by
  by_cases huv : G.Edge u v
  · have hu := Finset.mem_range.mpr huv.src_lt
    have hv := Finset.mem_range.mpr (hG.dst_lt huv)
    calc (G.weight u v).toNat + (G.weight v u).toNat
        ≤ ∑ x ∈ {u, v}, ∑ y ∈ Finset.range G.length, (G.weight x y).toNat := by
          rw [Finset.sum_pair hne]
          exact Nat.add_le_add (hG.weight_le_row u v) (hG.weight_le_row v u)
      _ ≤ G.totalWeight := by
          refine Finset.sum_le_sum_of_subset fun x hx => ?_
          rcases Finset.mem_insert.mp hx with rfl | hx
          · exact hu
          · exact Finset.mem_singleton.mp hx ▸ hv
  · rw [weight_of_not_edge huv]
    simpa using hG.weight_le_totalWeight v u

theorem layeredWeight_le (G : IdxGraph) (W : List (OrdSet Idx)) (a b : Idx) :
    (layeredWeight G W a b).toNat ≤
      (G.weight ((dupGraph G W).getBase a) ((dupGraph G W).getBase b)).toNat := by
  simp only [layeredWeight]
  split_ifs
  · exact le_rfl
  · exact Nat.zero_le _

/-- Opposite edges of the layered graph are copies of opposite edges of `G`, or
one of them is missing. -/
theorem layeredWeight_add_le (hG : G.WF) {a b : Idx} (hne : a ≠ b) :
    (layeredWeight G W a b).toNat + (layeredWeight G W b a).toNat ≤ G.totalWeight := by
  by_cases hbase : (dupGraph G W).getBase a = (dupGraph G W).getBase b
  · -- then the levels differ, and an edge leads up in one direction only
    have hlevel : (dupGraph G W).getLevel a ≠ (dupGraph G W).getLevel b := by
      intro hlevel
      refine hne ?_
      rw [← DupGraph.node_eta (g := dupGraph G W) a, hbase, hlevel, DupGraph.node_eta]
    have hzero : layeredWeight G W a b = 0 ∨ layeredWeight G W b a = 0 := by
      by_contra hpos
      obtain ⟨hab, hba⟩ := not_or.mp hpos
      have hup (c d : Idx) (h : layeredWeight G W c d ≠ 0) :
          (dupGraph G W).getLevel c ≤ (dupGraph G W).getLevel d := by
        by_contra hlt
        refine h (if_neg fun heq => ?_)
        have := le_targetLevel W ((dupGraph G W).getLevel c) ((dupGraph G W).getBase d)
        omega
      exact hlevel (Nat.le_antisymm (hup a b hab) (hup b a hba))
    rcases hzero with h | h <;> rw [h]
    · simpa using (layeredWeight_le G W b a).trans (hG.weight_le_totalWeight _ _)
    · simpa using (layeredWeight_le G W a b).trans (hG.weight_le_totalWeight _ _)
  · exact (Nat.add_le_add (layeredWeight_le G W a b) (layeredWeight_le G W b a)).trans
      (hG.weight_add_le hbase)

end TotalWeight

/-! ## Runs -/

section Runs

variable {G : IdxGraph} {W : List (OrdSet Idx)} {ndebug : Bool}
  {resG : ScopedGraph (ScopedGraph (DupGraph ImmutableVectorGraph))}

theorem modGraph_add_le (hG : G.WF) {u v : Idx} (hne : u ≠ v) :
    (getWeight (modGraph G W) u v).toNat + (getWeight (modGraph G W) v u).toNat ≤
      G.totalWeight := by
  rw [getWeight_modGraph hG, getWeight_modGraph hG]
  exact layeredWeight_add_le hG hne

theorem modGraph_add_lt (hG : G.WF) (htotal : G.totalWeight < 2 ^ 32 - 1) (u v : Idx)
    (hne : u ≠ v) :
    (getWeight (modGraph G W) u v).toNat + (getWeight (modGraph G W) v u).toNat < 2 ^ 32 := by
  have := modGraph_add_le (W := W) hG hne
  omega

theorem totalWeight_le_levels (hk : 2 ≤ W.length) : G.totalWeight ≤ W.length * G.totalWeight :=
  Nat.le_mul_of_pos_left _ (by omega)

/-- Affordable iterations keep the residual graph and its sum law. -/
theorem AugmentRun.sumLaw (hG : G.WF) (hk : 2 ≤ W.length)
    (hW : ∀ S ∈ W, ∀ u ∈ S, u < G.length) (hsum : W.length * G.totalWeight < 2 ^ 32 - 1)
    (hrun : AugmentRun ndebug (modGraph G W) (waypointsMod G W) Affordable resG) :
    Residual (modGraph G W) resG ∧ SumLaw (modGraph G W) resG := by
  induction hrun with
  | init => exact ⟨.init (lawful_modGraph hG), fun _ _ _ => rfl⟩
  | step _ hfind hafford ih =>
    obtain ⟨hres, hlaw⟩ := ih
    obtain ⟨-, hres', hnodes⟩ := residual_of_find hk hW hres hfind
    have htotal := (totalWeight_le_levels hk).trans_lt hsum
    exact ⟨hres', ((noWrap_iff hres hlaw (modGraph_add_lt hG htotal) hnodes).mpr hafford).sum⟩

/-- While the iterations are affordable the sum law holds, and the next iteration
wraps nothing exactly when its path is affordable too. When all iterations are, the loop
ends in such a state. -/
theorem augment_noWrap (hG : G.WF) (hk : 2 ≤ W.length) (hW : ∀ S ∈ W, ∀ u ∈ S, u < G.length)
    (hsum : W.length * G.totalWeight < 2 ^ 32 - 1) :
    (∀ resG, AugmentRun ndebug (modGraph G W) (waypointsMod G W) Affordable resG →
      SumLaw (modGraph G W) resG ∧
        ∀ path, findStPathMulti ndebug resG (waypointsMod G W) = .ok (some path) →
          (NoWrap (modGraph G W) resG path ↔ Affordable resG path)) ∧
    ((∀ resG path, AugmentRun ndebug (modGraph G W) (waypointsMod G W) Affordable resG →
        findStPathMulti ndebug resG (waypointsMod G W) = .ok (some path) →
          Affordable resG path) →
      ∀ fuel resG, augment ndebug (waypointsMod G W) fuel (.new (modGraph G W)) = .ok resG →
        AugmentRun ndebug (modGraph G W) (waypointsMod G W) Affordable resG) := by
  refine ⟨fun resG hrun => ?_, fun hafford fuel resG hret => augment_run hafford hret⟩
  obtain ⟨hres, hlaw⟩ := hrun.sumLaw hG hk hW hsum
  refine ⟨hlaw, fun path hfind => ?_⟩
  obtain ⟨-, -, hnodes⟩ := residual_of_find hk hW hres hfind
  have htotal := (totalWeight_le_levels hk).trans_lt hsum
  exact noWrap_iff hres hlaw (modGraph_add_lt hG htotal) hnodes

/-- Two waypoint sets: the first iteration, from the unchanged graph. -/
theorem augment_noWrap_pair :
    let G : IdxGraph := [⟨[(1, 3)], by decide⟩, ⟨[(0, 2), (1, 1)], by decide⟩]
    let W : List (OrdSet Idx) := [.ofList [0], .ofList [1]]
    SumLaw (modGraph G W) (.new (modGraph G W)) ∧
      ∀ path, findStPathMulti false (ScopedGraph.new (modGraph G W)) (waypointsMod G W) =
        .ok (some path) → (NoWrap (modGraph G W) (.new (modGraph G W)) path ↔
          Affordable (.new (modGraph G W)) path) :=
  (augment_noWrap (by decide) (by decide) (by decide) (by decide +kernel)).1 _ .init

/-- Three waypoint sets: the path `0 → 1' → 3' → 4' → 2' → 3' → 4' → 5''` through the
level copies crosses `3' → 4'` twice, and the second subtraction wraps. -/
theorem augment_wraps :
    let G : IdxGraph := [⟨[(1, 1)], by decide⟩, ⟨[(3, 1)], by decide⟩, ⟨[(3, 1)], by decide⟩,
      ⟨[(4, 1)], by decide⟩, ⟨[(2, 1), (5, 1)], by decide⟩, ∅]
    let W : List (OrdSet Idx) := [.ofList [0], .ofList [1, 2], .ofList [5]]
    let resG := ScopedGraph.new (modGraph G W)
    let path := [0, 7, 9, 10, 8, 9, 10, 17]
    (G.WF ∧ 2 ≤ W.length ∧ (∀ S ∈ W, ∀ u ∈ S, u < G.length) ∧
      W.length * G.totalWeight < 2 ^ 32 - 1) ∧
    AugmentRun false (modGraph G W) (waypointsMod G W) (fun _ _ => True) resG ∧
    findStPathMulti false resG (waypointsMod G W) = .ok (some path) ∧
    getWeight (pushPath resG path) 9 10 = 0xFFFFFFFF ∧ ¬ NoWrap (modGraph G W) resG path := by
  refine ⟨⟨by decide, by decide, by decide, by decide +kernel⟩, .init, by decide +kernel,
    by decide +kernel, fun h => ?_⟩
  have hsub := h.sub [⟨0, 7⟩, ⟨7, 9⟩, ⟨9, 10⟩, ⟨10, 8⟩, ⟨8, 9⟩] ⟨9, 10⟩ [⟨10, 17⟩] rfl
  revert hsub
  decide +kernel

end Runs

end Clou
