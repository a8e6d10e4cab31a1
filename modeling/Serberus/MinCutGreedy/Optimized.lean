-- SUMMARY: Optimising a list of STs terminates, and the list it returns protects at least as much.
import Serberus.MinCutGreedy.JoinSts

/-!
# The Optimisation Loop

One round joins the STs, rewrites each of them, and drops those that have an empty
set or stand twice. Every round that reports a change lowers the size of the list,
so the loop ends, and it ends behind a round whose last rewrites left only distinct
STs with non-empty sets.
-/

namespace Clou

section Loop

variable {G : IdxGraph}

/-! ## One Round -/

theorem refines_localOpts (hG : G.Closed) (st : IdxST) :
    Refines (stSubject G) st (applyOpts localOpts st G) := by
  apply Refines.applyOpts
  intro opt hopt st
  simp only [localOpts, List.mem_cons, List.not_mem_nil, or_false] at hopt
  rcases hopt with rfl | rfl | rfl | rfl
  · exact .refl st
  · exact refines_cullUnreachables hG st
  · exact refines_cullSources hG st
  · exact refines_removeRedundant st

theorem refines_optimizeLocals (hG : G.Closed) (sts : List IdxST) :
    Refines (stsSubject G) sts (optimizeLocals sts G) := by
  induction sts with
  | nil => exact .refl []
  | cons st sts ih =>
    have hst := refines_localOpts hG st
    have hsize := hst.size_le
    have hsizes := ih.size_le
    simp only [stSubject, stsSubject, stsSize] at hsize hsizes
    simp only [optimizeLocals]
    refine ⟨fun h => ?_, ?_, ?_, ?_, ?_, fun hc => ?_⟩
    · obtain ⟨hlen, hlens⟩ := List.forall_mem_cons.mp h
      exact List.forall_mem_cons.mpr ⟨hst.ok hlen, ih.ok hlens⟩
    · rintro C ⟨st', hst', hwalk⟩
      rcases List.mem_cons.mp hst' with rfl | hst'
      · exact ⟨_, .head _, hst.walk C hwalk⟩
      · obtain ⟨st'', hst'', hwalk⟩ := ih.walk C ⟨st', hst', hwalk⟩
        exact ⟨st'', .tail _ hst'', hwalk⟩
    · rintro u ⟨st', hst', hu⟩
      rcases List.mem_cons.mp hst' with rfl | hst'
      · exact ⟨st, .head _, hst.nodes u hu⟩
      · obtain ⟨st'', hst'', hu⟩ := ih.nodes u ⟨st', hst', hu⟩
        exact ⟨st'', .tail _ hst'', hu⟩
    · rintro n ⟨st', hst', rfl⟩
      rcases List.mem_cons.mp hst' with rfl | hst'
      · obtain ⟨m, rfl, hle⟩ := hst.length_le _ rfl
        exact ⟨_, ⟨st, .head _, rfl⟩, hle⟩
      · obtain ⟨m, ⟨st'', hst'', rfl⟩, hle⟩ := ih.length_le _ ⟨st', hst', rfl⟩
        exact ⟨_, ⟨st'', .tail _ hst'', rfl⟩, hle⟩
    · simp only [stsSubject, stsSize, List.map_cons, List.sum_cons]
      omega
    · simp only [stsSubject, stsSize, List.map_cons, List.sum_cons]
      rcases Bool.or_eq_true_iff.mp hc with hc | hc
      · have hlt := hst.size_lt hc
        simp only [stSubject] at hlt
        omega
      · have hlt := ih.size_lt hc
        simp only [stsSubject, stsSize] at hlt
        omega

theorem refines_globalOpts (sts : List IdxST) :
    Refines (stsSubject G) sts (applyOpts globalOpts sts G) := by
  apply Refines.applyOpts
  intro opt hopt sts
  simp only [globalOpts, List.mem_cons, List.not_mem_nil, or_false] at hopt
  rcases hopt with rfl | rfl | rfl
  · exact .refl sts
  · exact refines_removeEmptyset sts
  · exact refines_removeDuplicates sts

theorem refines_optimizeRound (hG : G.Closed) (sts : List IdxST) :
    Refines (stsSubject G) sts (optimizeRound G sts) := by
  unfold optimizeRound
  apply Refines.applyOpts
  intro opt hopt sts
  simp only [List.mem_cons, List.not_mem_nil, or_false] at hopt
  rcases hopt with rfl | rfl | rfl
  · exact refines_join sts
  · exact refines_optimizeLocals hG sts
  · exact refines_globalOpts sts

/-- A round ends by dropping STs with an empty set, and then duplicates. -/
theorem optimizeRound_fst (sts : List IdxST) :
    ∃ sts', (optimizeRound G sts).1 = sortUnique (optimizeStsRemoveEmptyset sts' G).1 := ⟨_, rfl⟩

/-! ## All Rounds -/

/-- What is known of the STs `out` that optimising `sts` returns. -/
structure Optimized (G : IdxGraph) (sts out : List IdxST) : Prop where
  enough : ∀ st ∈ out, 2 ≤ st.waypoints.length
  nonempty : ∀ st ∈ out, ∀ S ∈ st.waypoints, ∃ u, u ∈ S
  nodup : out.Nodup
  nodes : ∀ u ∈ stsNodes out, u ∈ stsNodes sts
  length_le : ∀ st ∈ out, ∃ st' ∈ sts, st.waypoints.length ≤ st'.waypoints.length
  walk : ∀ C, (stsSubject G).walk C sts → (stsSubject G).walk C out

theorem optimizeSts_optimized {fuel : Nat} {sts out : List IdxST} (hG : G.Closed)
    (hsts : ∀ st ∈ sts, 2 ≤ st.waypoints.length) (hret : optimizeSts fuel sts G = .ok out) :
    Optimized G sts out := by
  let P (sts' : List IdxST) : Prop := (∀ st ∈ sts', 2 ≤ st.waypoints.length) ∧
    (∀ u ∈ stsNodes sts', u ∈ stsNodes sts) ∧
    (∀ st ∈ sts', ∃ st' ∈ sts, st.waypoints.length ≤ st'.waypoints.length) ∧
    ∀ C, (stsSubject G).walk C sts → (stsSubject G).walk C sts'
  have hstep (sts' : List IdxST) (r : List IdxST × Bool) (h : P sts')
      (hr : (pure (optimizeRound G sts') : Exec (List IdxST × Bool)) = .ok r) : P r.1 := by
    obtain rfl : optimizeRound G sts' = r := by simpa [pure, Except.pure] using hr
    have hround := refines_optimizeRound hG sts'
    obtain ⟨hlen, hnodes, hshort, hwalk⟩ := h
    refine ⟨hround.ok hlen, fun u hu => hnodes u (hround.nodes u hu), fun st hst => ?_,
      fun C h => hround.walk C (hwalk C h)⟩
    obtain ⟨_, ⟨st', hst', rfl⟩, hle⟩ := hround.length_le _ ⟨st, hst, rfl⟩
    obtain ⟨st'', hst'', hle'⟩ := hshort st' hst'
    exact ⟨st'', hst'', hle.trans hle'⟩
  obtain ⟨⟨hlen, hnodes, hshort, hwalk⟩, last, -, hlast⟩ :=
    doWhile_inv hstep ⟨hsts, fun _ h => h, fun st hst => ⟨st, hst, le_rfl⟩, fun _ h => h⟩ hret
  -- the last round leaves no empty set and no duplicate
  obtain ⟨sts', hfst⟩ := optimizeRound_fst (G := G) last
  have hout : out = sortUnique (optimizeStsRemoveEmptyset sts' G).1 := by
    have heq : optimizeRound G last = (out, false) := by simpa [pure, Except.pure] using hlast
    rw [← hfst, heq]
  refine ⟨hlen, fun st hst => ?_, ?_, hnodes, hshort, hwalk⟩
  · rw [hout, mem_sortUnique] at hst
    exact (mem_removeEmptyset.mp hst).2
  · rw [hout]
    exact (sortUnique_sorted _).imp fun h => h.ne

/-- The size of the list is fuel enough. -/
theorem optimizeSts_returns (hG : G.Closed) (sts : List IdxST) :
    ∃ out, ∀ fuel, stsSize sts < fuel → optimizeSts fuel sts G = .ok out := by
  obtain ⟨out, hout⟩ : ∃ out, optimizeSts (stsSize sts + 1) sts G = .ok out := by
    refine doWhile_returns (μ := stsSize) (P := fun _ => True) (fun sts' _ => ?_) trivial
      (Nat.lt_succ_self _)
    exact ⟨_, rfl, trivial, (refines_optimizeRound hG sts').size_lt⟩
  exact ⟨out, fun fuel hfuel => doWhile_mono hfuel hout⟩

/-- Optimising terminates, and the returned STs protect at least as much as the given ones. -/
theorem optimizeSts_protects (hG : G.Closed) {sts : List IdxST}
    (hsts : ∀ st ∈ sts, 2 ≤ st.waypoints.length) :
    ∃ out, (∃ fuel₀, ∀ fuel, fuel₀ ≤ fuel → optimizeSts fuel sts G = .ok out) ∧
      (∀ st ∈ out, 2 ≤ st.waypoints.length ∧ ∀ S ∈ st.waypoints, S.isEmpty = false) ∧
      out.Nodup ∧
      ∀ C : Set (Idx × Idx),
        (∀ st ∈ out, ¬ Walk.HasWalk (Walk.without G.Edge C) st.waypoints) →
        ∀ st ∈ sts, ¬ Walk.HasWalk (Walk.without G.Edge C) st.waypoints := by
  obtain ⟨out, hout⟩ := optimizeSts_returns hG sts
  have hopt := optimizeSts_optimized hG hsts (hout _ (Nat.lt_succ_self _))
  refine ⟨out, ⟨_, hout⟩, fun st hst => ⟨hopt.enough st hst, fun S hS => ?_⟩, hopt.nodup,
    fun C hcut st hst hwalk => ?_⟩
  · exact OrdSet.isEmpty_eq_false_iff.mpr (hopt.nonempty st hst S hS)
  · obtain ⟨st', hst', hwalk'⟩ := hopt.walk C ⟨st, hst, hwalk⟩
    exact hcut st' hst' hwalk'

/-- Two STs that share a node and differ in one set. -/
theorem optimizeSts_protects_shared :
    let G : IdxGraph := [⟨[(1, 1)], by decide⟩, ⟨[(2, 2)], by decide⟩, ⟨[(1, 1)], by decide⟩]
    let sts : List IdxST :=
      [⟨[.ofList [0], .ofList [1], .ofList [1, 2]]⟩, ⟨[.ofList [0], .ofList [1], .ofList [0]]⟩]
    ∃ out, (∃ fuel₀, ∀ fuel, fuel₀ ≤ fuel → optimizeSts fuel sts G = .ok out) ∧
      (∀ st ∈ out, 2 ≤ st.waypoints.length ∧ ∀ S ∈ st.waypoints, S.isEmpty = false) ∧
      out.Nodup ∧
      ∀ C : Set (Idx × Idx),
        (∀ st ∈ out, ¬ Walk.HasWalk (Walk.without G.Edge C) st.waypoints) →
        ∀ st ∈ sts, ¬ Walk.HasWalk (Walk.without G.Edge C) st.waypoints :=
  optimizeSts_protects (by decide) (by decide)

end Loop

end Clou
