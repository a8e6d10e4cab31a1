-- SUMMARY: When dropping middle sets of an ST asks for no more than the ST did.
import Serberus.MinCutGreedy.Protects

/-!
# Dropping Middle Sets, Backwards

The set `B` between `A` and `C` is dropped when the search from `A` around `B` marks
no node of `C`. The search never marks a node of `B`, so it is silent about the
nodes that `B` and `C` share: `A` may lead straight to one of them, and then the
rewritten ST has a walk where the one before had none. `DirectFree` excludes this.
-/

open Relation

namespace Clou

section Rewrite

variable {G : IdxGraph} {E : Idx → Idx → Prop} {A B C : OrdSet Idx}

/-- No node shared by `B` and `C` is entered from another node, one of `A`, by a path
that meets `B` only at its end. -/
def DirectFree (G : IdxGraph) (A B C : OrdSet Idx) : Prop :=
  ∀ c ∈ C, c ∈ B → ∀ a ∈ A, a ≠ c → ¬ ∃ u, ReflTransGen (Around G (· ∈ B)) a u ∧ G.Edge u c

/-- The sets behind `A` are such that every set dropped among them is `DirectFree`. -/
def SafeRun (G : IdxGraph) : OrdSet Idx → List (OrdSet Idx) → Prop
  | A, B :: C :: Ts =>
    if noACPath G A B C then DirectFree G A B C ∧ SafeRun G A (C :: Ts)
    else SafeRun G B (C :: Ts)
  | _, _ => True

def IdxST.Safe (G : IdxGraph) (st : IdxST) : Prop :=
  match st.waypoints with
  | [] => True
  | A :: Ts => SafeRun G A Ts

theorem noACPath_iff (hG : G.Closed) :
    noACPath G A B C = true ↔ ∀ c ∈ C, ∀ a ∈ A, ¬ TransGen (Around G (· ∈ B)) a c := by
  simp only [noACPath, List.all_eq_true, Bool.not_eq_true', ← Bool.not_eq_true,
    reachSkipping_iff hG, decide_eq_true_eq, not_exists, not_and]
  exact Iff.rfl

theorem safe_triple : IdxST.Safe G ⟨[A, B, C]⟩ ↔ (noACPath G A B C = true → DirectFree G A B C) := by
  simp only [IdxST.Safe, SafeRun]
  split_ifs with hno
  · simp [hno]
  · simp [hno]

/-! ## Safe Drops -/

/-- Every leg from `A` to `C` can be split at a node of the dropped set. -/
theorem leg_split (hG : G.Closed) (hE : ∀ u v, E u v → G.Edge u v)
    (hno : noACPath G A B C = true) (hfree : DirectFree G A B C) {a c : Idx} (ha : a ∈ A)
    (hc : c ∈ C) (h : TransGen E a c) : ∃ b ∈ B, TransGen E a b ∧ TransGen E b c := by
  rcases leg_cases (S := B) h with ⟨b, hb, -, hab, hbc⟩ | ⟨u, hau, huc⟩
  · exact ⟨b, hb, hab, hbc⟩
  · have haround : ReflTransGen (Around G (· ∈ B)) a u :=
      ReflTransGen.mono (fun x y hxy => ⟨hE x y hxy.1, hxy.2⟩) _ _ hau
    by_cases hcB : c ∈ B
    · -- the leg closes a cycle, which can be walked twice
      have hac : a = c := by
        by_contra hne
        exact hfree c hc hcB a ha hne ⟨u, haround, hE u c huc⟩
      subst hac
      exact ⟨a, hcB, h, h⟩
    · exact absurd (TransGen.tail' haround ⟨hE u c huc, hcB⟩) ((noACPath_iff hG).mp hno c hc a ha)

theorem visits_of_removeRedundant (hG : G.Closed) (hE : ∀ u v, E u v → G.Edge u v)
    {P : Idx → Prop} {Ts : List (OrdSet Idx)} (hsafe : SafeRun G A Ts)
    (h : Walk.Visits E P (A :: (removeRedundantInternal G A Ts).1)) :
    Walk.Visits E P (A :: Ts) := by
  induction Ts generalizing A P with
  | nil => exact h
  | cons B Ts ih =>
    cases Ts with
    | nil => exact h
    | cons C Ts =>
      simp only [removeRedundantInternal] at h
      unfold SafeRun at hsafe
      split_ifs at h hsafe with hno
      · obtain ⟨hfree, hsafe⟩ := hsafe
        obtain ⟨a, ha, hPa, c, hc, hac, hrest⟩ := ih hsafe h
        obtain ⟨b, hb, hab, hbc⟩ := leg_split hG hE hno hfree ha hc hac
        exact ⟨a, ha, hPa, b, hb, hab, c, hc, hbc, hrest⟩
      · obtain ⟨a, ha, hPa, hrest⟩ := h
        exact ⟨a, ha, hPa, ih hsafe hrest⟩

theorem hasWalk_of_removeRedundant (hG : G.Closed) {st : IdxST} (hsafe : st.Safe G)
    (cut : Set (Idx × Idx))
    (h : Walk.HasWalk (Walk.without G.Edge cut)
      (optimizeStsRemoveRedundantInternalSt st G).1.waypoints) :
    Walk.HasWalk (Walk.without G.Edge cut) st.waypoints := by
  obtain ⟨Ws⟩ := st
  cases Ws with
  | nil => exact h
  | cons A Ts =>
    rw [Walk.hasWalk_iff_visits] at h ⊢
    exact visits_of_removeRedundant hG (fun u v => Walk.without_le cut) hsafe h

/-! ## Unsafe Drops -/

/-- The edges that a direct leg to the shared node `c` is made of. -/
def DirectEdge (G : IdxGraph) (B : OrdSet Idx) (c x y : Idx) : Prop :=
  G.Edge x y ∧ x ≠ c ∧ (y ∉ B ∨ y = c)

theorem directEdge_leg {a c u : Idx} (hcB : c ∈ B) (hne : a ≠ c)
    (hau : ReflTransGen (Around G (· ∈ B)) a u) (huc : G.Edge u c) :
    TransGen (DirectEdge G B c) a c := by
  have key {x : Idx} (hax : ReflTransGen (Around G (· ∈ B)) a x) :
      x ≠ c ∧ ReflTransGen (DirectEdge G B c) a x := by
    induction hax with
    | refl => exact ⟨hne, .refl⟩
    | tail _ hxy ih =>
      obtain ⟨hedge, hy⟩ := hxy
      exact ⟨fun heq => hy (heq ▸ hcB), ih.2.tail ⟨hedge, ih.1, .inl hy⟩⟩
  exact TransGen.tail' (key hau).2 ⟨huc, (key hau).1, .inr rfl⟩

/-- These edges enter `B` at `c` only, and do not leave `c`. -/
theorem directEdge_no_walk {c : Idx} : ¬ Walk.HasWalk (DirectEdge G B c) [A, B, C] := by
  rw [Walk.hasWalk_iff_visits]
  rintro ⟨a, -, -, b, hb, hab, c', -, hbc, -⟩
  obtain ⟨x, -, hxb⟩ := TransGen.tail'_iff.mp hab
  obtain ⟨y, hby, -⟩ := TransGen.head'_iff.mp hbc
  rcases hxb.2.2 with hnot | rfl
  · exact hnot hb
  · exact hby.2.1 rfl

theorem safe_of_hasWalk
    (h : ∀ cut : Set (Idx × Idx), Walk.HasWalk (Walk.without G.Edge cut)
        (optimizeStsRemoveRedundantInternalSt ⟨[A, B, C]⟩ G).1.waypoints →
      Walk.HasWalk (Walk.without G.Edge cut) [A, B, C]) :
    IdxST.Safe G ⟨[A, B, C]⟩ := by
  rw [safe_triple]
  rintro hno c hc hcB a ha hne ⟨u, hau, huc⟩
  let cut : Set (Idx × Idx) := {e | ¬ DirectEdge G B c e.1 e.2}
  have hleg : TransGen (Walk.without G.Edge cut) a c := by
    refine TransGen.mono (fun x y hxy => ⟨hxy.1, ?_⟩) _ _ (directEdge_leg hcB hne hau huc)
    exact fun hcut => hcut hxy
  have hout : (optimizeStsRemoveRedundantInternalSt ⟨[A, B, C]⟩ G).1.waypoints = [A, C] := by
    simp [optimizeStsRemoveRedundantInternalSt, removeRedundantInternal, hno]
  have hwalk := h cut (by rw [hout]; exact Walk.hasWalk_pair.mpr ⟨a, ha, c, hc, hleg⟩)
  have hdirect : Walk.HasWalk (DirectEdge G B c) [A, B, C] :=
    hwalk.mono fun x y hxy => not_not.mp hxy.2
  exact directEdge_no_walk hdirect

/-- Dropping middle sets of a safe ST asks for no cut that the ST did not ask for; an
ST of three sets must be safe for that. -/
theorem removeRedundantInternalSt_minimal (hG : G.Closed) :
    (∀ st : IdxST, st.Safe G → ∀ cut : Set (Idx × Idx),
      Walk.HasWalk (Walk.without G.Edge cut)
        (optimizeStsRemoveRedundantInternalSt st G).1.waypoints →
      Walk.HasWalk (Walk.without G.Edge cut) st.waypoints) ∧
    ∀ A B C : OrdSet Idx,
      (∀ cut : Set (Idx × Idx), Walk.HasWalk (Walk.without G.Edge cut)
          (optimizeStsRemoveRedundantInternalSt ⟨[A, B, C]⟩ G).1.waypoints →
        Walk.HasWalk (Walk.without G.Edge cut) [A, B, C]) ↔
      IdxST.Safe G ⟨[A, B, C]⟩ :=
  ⟨fun _ hsafe => hasWalk_of_removeRedundant hG hsafe,
    fun _ _ _ => ⟨safe_of_hasWalk, fun hsafe => hasWalk_of_removeRedundant hG hsafe⟩⟩

/-- A graph with a cycle. -/
theorem removeRedundantInternalSt_minimal_cycle :
    let G : IdxGraph := [⟨[(1, 1)], by decide⟩, ⟨[(2, 1)], by decide⟩, ⟨[(1, 1)], by decide⟩]
    (∀ st : IdxST, st.Safe G → ∀ cut : Set (Idx × Idx),
      Walk.HasWalk (Walk.without G.Edge cut)
        (optimizeStsRemoveRedundantInternalSt st G).1.waypoints →
      Walk.HasWalk (Walk.without G.Edge cut) st.waypoints) ∧
    ∀ A B C : OrdSet Idx,
      (∀ cut : Set (Idx × Idx), Walk.HasWalk (Walk.without G.Edge cut)
          (optimizeStsRemoveRedundantInternalSt ⟨[A, B, C]⟩ G).1.waypoints →
        Walk.HasWalk (Walk.without G.Edge cut) [A, B, C]) ↔
      IdxST.Safe G ⟨[A, B, C]⟩ :=
  removeRedundantInternalSt_minimal (by decide)

/-- The middle set is the last one too: the rewritten ST forbids the edge into the
cycle, the ST before is content with a cut on the cycle. -/
theorem removeRedundantInternalSt_cut :
    let G : IdxGraph := [⟨[(1, 1)], by decide⟩, ⟨[(2, 1)], by decide⟩, ⟨[(1, 1)], by decide⟩]
    let st : IdxST := ⟨[.ofList [0], .ofList [1], .ofList [1]]⟩
    let cut : Set (Idx × Idx) := {(1, 2)}
    Walk.HasWalk (Walk.without G.Edge cut)
        (optimizeStsRemoveRedundantInternalSt st G).1.waypoints ∧
      ¬ Walk.HasWalk (Walk.without G.Edge cut) st.waypoints := by
  intro G st cut
  have hout : (optimizeStsRemoveRedundantInternalSt st G).1.waypoints =
      [.ofList [0], .ofList [1]] := by
    decide +kernel
  refine ⟨?_, fun hwalk => ?_⟩
  · rw [hout, Walk.hasWalk_pair]
    exact ⟨0, by decide, 1, by decide, .single ⟨by decide, by simp [cut]⟩⟩
  · -- the second leg starts at 1, whose only edge is cut
    obtain ⟨_, -, -, b, hb, -, _, -, hleg, -⟩ := Walk.hasWalk_iff_visits.mp hwalk
    obtain rfl : b = 1 := List.mem_singleton.mp hb
    obtain ⟨x, ⟨hedge, hkept⟩, -⟩ := TransGen.head'_iff.mp hleg
    obtain rfl : x = 2 := List.mem_singleton.mp hedge
    exact hkept rfl

end Rewrite

end Clou
