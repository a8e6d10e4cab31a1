-- SUMMARY: Going through an ordered set while it grows: what was there at the start is visited.
import Mathlib.Data.Finset.Card
import Serberus.Lib.OrdSet

/-!
# Sweeps

A loop goes through an ordered set in increasing order and may insert elements on its way.
Elements that it inserts behind the cursor are met by the same loop, elements before it
are not. The loop is given fuel. When all elements stay in a finite universe there is a
bound on the fuel from which on it ends, and it has met every element that the set had at
the start.
-/

namespace Sweep

variable {α σ ε : Type*} [LinearOrder α]

/-- The cursor has not passed `v`. -/
def Ahead (cursor : Option α) (v : α) : Prop := ∀ u ∈ cursor, u < v

instance (cursor : Option α) (v : α) : Decidable (Ahead cursor v) :=
  match cursor with
  | none => .isTrue fun _ h => nomatch h
  | some u => decidable_of_iff (u < v) (by simp [Ahead])

/-- The first element that the cursor has not passed. -/
def next? (s : OrdSet α) (cursor : Option α) : Option α := s.toList.find? (Ahead cursor ·)

theorem next?_eq_none {s : OrdSet α} {cursor : Option α} (h : next? s cursor = none) {v : α}
    (hv : v ∈ s) : ¬ Ahead cursor v := by
  simpa using List.find?_eq_none.mp h v hv

theorem next?_eq_some {s : OrdSet α} {cursor : Option α} {u : α} (h : next? s cursor = some u) :
    u ∈ s ∧ Ahead cursor u ∧ ∀ v ∈ s, Ahead cursor v → u ≤ v := by
  obtain ⟨hu, before, after, heq, hbefore⟩ := List.find?_eq_some_iff_append.mp h
  refine ⟨List.mem_of_find?_eq_some h, by simpa using hu, fun v hv hahead => ?_⟩
  have hsorted := s.sorted
  rw [heq, List.pairwise_append, List.pairwise_cons] at hsorted
  have hv : v ∈ before ++ u :: after := heq ▸ hv
  rcases List.mem_append.mp hv with hv | hv
  · have hnot := hbefore v hv
    simp [hahead] at hnot
  · rcases List.mem_cons.mp hv with rfl | hv
    · exact le_rfl
    · exact (hsorted.2.1.1 v hv).le

/-- `for (v : set(s)) visit(v)`, where `visit` may insert into the set. -/
def sweep (set : σ → OrdSet α) (visit : α → σ → Except ε σ) (outOfFuel : ε) :
    Nat → Option α → σ → Except ε σ
  | 0, _, _ => throw outOfFuel
  | fuel + 1, cursor, s =>
    match next? (set s) cursor with
    | none => pure s
    | some v => visit v s >>= sweep set visit outOfFuel fuel (some v)

variable {set : σ → OrdSet α} {visit : α → σ → Except ε σ} {U : Finset α} {P : σ → Prop}
  {Q : α → σ → Prop}

/-- A sweep ends, keeps `P`, and leaves `Q` at every element that was ahead of it, if a visit
establishes `Q` at its element and no visit destroys it. -/
theorem sweep_spec (outOfFuel : ε) (hU : ∀ s, P s → ∀ v ∈ set s, v ∈ U)
    (hvisit : ∀ v s, P s → v ∈ set s → ∃ s', visit v s = .ok s' ∧ P s' ∧
      (∀ u ∈ set s, u ∈ set s') ∧ Q v s' ∧ ∀ u, Q u s → Q u s')
    {fuel : Nat} {cursor : Option α} {s : σ} (hs : P s)
    (hfuel : (U.filter (Ahead cursor)).card < fuel) :
    ∃ s', sweep set visit outOfFuel fuel cursor s = .ok s' ∧ P s' ∧
      (∀ u ∈ set s, u ∈ set s') ∧ (∀ u, Q u s → Q u s') ∧
      ∀ v ∈ set s, Ahead cursor v → Q v s' := by
  induction fuel generalizing cursor s with
  | zero => exact absurd hfuel (Nat.not_lt_zero _)
  | succ fuel ih =>
    unfold sweep
    cases hnext : next? (set s) cursor with
    | none =>
      exact ⟨s, rfl, hs, fun u hu => hu, fun u hu => hu,
        fun v hv hahead => absurd hahead (next?_eq_none hnext hv)⟩
    | some v =>
      obtain ⟨hv, hahead, hleast⟩ := next?_eq_some hnext
      obtain ⟨s₁, hret, hs₁, hsub, hQ, hkeep⟩ := hvisit v s hs hv
      -- The cursor moves on to `v`, so one element less is ahead of it.
      have hless : (U.filter (Ahead (some v))).card < fuel := by
        refine lt_of_lt_of_le (Finset.card_lt_card ⟨?_, ?_⟩) (Nat.le_of_lt_succ hfuel)
        · intro u hu
          simp only [Finset.mem_filter, Ahead, Option.mem_def, Option.some.injEq, forall_eq'] at hu ⊢
          exact ⟨hu.1, fun w hw => (hahead w hw).trans hu.2⟩
        · intro hsubset
          have hmem := hsubset (Finset.mem_filter.mpr ⟨hU s hs v hv, hahead⟩)
          simp [Ahead] at hmem
      obtain ⟨s', hret', hs', hsub', hkeep', hrest⟩ := ih hs₁ hless
      refine ⟨s', ?_, hs', fun u hu => hsub' u (hsub u hu), fun u hu => hkeep' u (hkeep u hu),
        fun u hu hu' => ?_⟩
      · change visit v s >>= _ = _
        rw [hret]
        exact hret'
      · rcases (hleast u hu hu').eq_or_lt with rfl | hlt
        · exact hkeep' v hQ
        · exact hrest u (hsub u hu) (by simpa [Ahead] using hlt)

/-- A whole sweep leaves `Q` at every element that the set had at its start. -/
theorem sweep_all (outOfFuel : ε) (hU : ∀ s, P s → ∀ v ∈ set s, v ∈ U)
    (hvisit : ∀ v s, P s → v ∈ set s → ∃ s', visit v s = .ok s' ∧ P s' ∧
      (∀ u ∈ set s, u ∈ set s') ∧ Q v s' ∧ ∀ u, Q u s → Q u s')
    {fuel : Nat} {s : σ} (hs : P s) (hfuel : U.card < fuel) :
    ∃ s', sweep set visit outOfFuel fuel none s = .ok s' ∧ P s' ∧
      (∀ u ∈ set s, u ∈ set s') ∧ ∀ v ∈ set s, Q v s' := by
  have hcard : (U.filter (Ahead none)).card < fuel :=
    lt_of_le_of_lt (Finset.card_filter_le _ _) hfuel
  obtain ⟨s', hret, hs', hsub, -, hall⟩ := sweep_spec outOfFuel hU hvisit hs hcard
  exact ⟨s', hret, hs', hsub, fun v hv => hall v hv fun _ h => nomatch h⟩

/-- A sweep that returns keeps what the visits keep. -/
theorem sweep_inv {outOfFuel : ε} {fuel : Nat} {cursor : Option α} {s s' : σ}
    (hvisit : ∀ v s s', P s → visit v s = .ok s' → P s') (hs : P s)
    (hret : sweep set visit outOfFuel fuel cursor s = .ok s') : P s' := by
  induction fuel generalizing cursor s with
  | zero => cases hret
  | succ fuel ih =>
    unfold sweep at hret
    cases hnext : next? (set s) cursor with
    | none =>
      simp only [hnext] at hret
      cases hret
      exact hs
    | some v =>
      simp only [hnext] at hret
      cases hstep : visit v s with
      | error e =>
        rw [hstep] at hret
        cases hret
      | ok s₁ =>
        rw [hstep] at hret
        exact ih (hvisit v s s₁ hs hstep) hret

end Sweep
