-- SUMMARY: Rounds of steps that add facts: what they end with is closed under what the steps derive, and least.
import Mathlib.Data.Set.Card
import Serberus.Rounds

/-!
# Saturation

The state of an analysis holds a set of facts, and every step adds those that its rule
derives from the facts so far. When all of them are in a finite set, rounds of such steps
end, and the facts that they end with are closed under all rules, whatever the order of the
steps. When that set is the least closed one, they are this set.
-/

namespace Clou

variable {σ κ ε γ : Type}

/-- From `A` and within `L` the step returns and only adds facts; it adds none only if `R`
derives none. -/
def Saturates (facts : σ → Set ε) (A L : Set ε) (R : Set ε → Set ε) (f : σ → Exec σ) : Prop :=
  ∀ s, A ⊆ facts s → facts s ⊆ L → ∃ s', f s = .ok s' ∧ facts s ⊆ facts s' ∧ facts s' ⊆ L ∧
    (facts s' = facts s → R (facts s) ⊆ facts s)

namespace Saturates

variable {facts : σ → Set ε} {A L : Set ε} {R R' : Set ε → Set ε} {f g : σ → Exec σ}

/-- A step that adds what its rule derives. -/
theorem of_union (hR : ∀ S, S ⊆ L → R S ⊆ L) (hf : ∀ s, A ⊆ facts s → facts s ⊆ L →
    ∃ s', f s = .ok s' ∧ facts s' = facts s ∪ R (facts s)) : Saturates facts A L R f := by
  intro s hA hs
  obtain ⟨s', hret, hfacts⟩ := hf s hA hs
  refine ⟨s', hret, ?_, ?_, fun heq => ?_⟩
  · rw [hfacts]
    exact Set.subset_union_left
  · rw [hfacts]
    exact Set.union_subset hs (hR _ hs)
  · exact Set.union_eq_left.mp (hfacts.symm.trans heq)

theorem of_subset (h : Saturates facts A L R f) (hR : ∀ S, R' S ⊆ R S) :
    Saturates facts A L R' f := by
  intro s hA hs
  obtain ⟨s', hret, hmono, hs', hclosed⟩ := h s hA hs
  exact ⟨s', hret, hmono, hs', fun heq => (hR _).trans (hclosed heq)⟩

theorem mono (hf : Saturates facts A L R f) {s s' : σ} (hA : A ⊆ facts s) (hs : facts s ⊆ L)
    (hret : f s = .ok s') : facts s ⊆ facts s' := by
  obtain ⟨s'', hret', hmono, -⟩ := hf s hA hs
  obtain rfl : s'' = s' := Except.ok.inj (hret'.symm.trans hret)
  exact hmono

/-- The steps behind a first one may rely on what that one adds. -/
theorem bind_of {A' : Set ε} (hf : Saturates facts A L R f)
    (hA' : ∀ s s', A ⊆ facts s → facts s ⊆ L → f s = .ok s' → A' ⊆ facts s')
    (hg : Saturates facts A' L R' g) :
    Saturates facts A L (fun S => R S ∪ R' S) fun s => f s >>= g := by
  intro s hA hs
  obtain ⟨s₁, hret₁, hmono₁, hs₁, hclosed₁⟩ := hf s hA hs
  obtain ⟨s₂, hret₂, hmono₂, hs₂, hclosed₂⟩ := hg s₁ (hA' s s₁ hA hs hret₁) hs₁
  refine ⟨s₂, Exec.bind_eq_ok.mpr ⟨s₁, hret₁, hret₂⟩, hmono₁.trans hmono₂, hs₂, fun heq => ?_⟩
  have heq₁ : facts s₁ = facts s := (hmono₂.trans heq.subset).antisymm hmono₁
  have hsecond := hclosed₂ (heq.trans heq₁.symm)
  rw [heq₁] at hsecond
  exact Set.union_subset (hclosed₁ heq₁) hsecond

theorem bind (hf : Saturates facts A L R f) (hg : Saturates facts A L R' g) :
    Saturates facts A L (fun S => R S ∪ R' S) fun s => f s >>= g :=
  hf.bind_of (fun _ _ hA hs hret => hA.trans (hf.mono hA hs hret)) hg

/-- A loop derives what its steps derive. -/
theorem foldlM {l : List γ} {f : σ → γ → Exec σ} {R : γ → Set ε → Set ε}
    (hf : ∀ b ∈ l, Saturates facts A L (R b) fun s => f s b) :
    Saturates facts A L (fun S => {e | ∃ b ∈ l, e ∈ R b S}) fun s => l.foldlM f s := by
  induction l with
  | nil => exact fun s _ hs => ⟨s, rfl, subset_rfl, hs, fun _ e he => by simp at he⟩
  | cons b l ih =>
    obtain ⟨hb, hl⟩ := List.forall_mem_cons.mp hf
    intro s hA hs
    simp only [List.foldlM_cons]
    obtain ⟨s', hret, hmono, hs', hclosed⟩ := hb.bind (ih hl) s hA hs
    refine ⟨s', hret, hmono, hs', fun heq e he => hclosed heq ?_⟩
    obtain ⟨c, hc, he⟩ := he
    rcases List.mem_cons.mp hc with rfl | hc
    · exact .inl he
    · exact .inr ⟨c, hc, he⟩

/-- A step that adds facts leaves fewer to add. -/
theorem lowers {key : σ → κ} (hL : L.Finite) (h : Saturates facts ∅ L R f)
    (hkey : ∀ s s', facts s = facts s' → key s = key s') :
    Lowers (fun s => facts s ⊆ L) key (fun s => (L \ facts s).ncard) f := by
  intro s hs
  obtain ⟨s', hret, hmono, hs', -⟩ := h s (Set.empty_subset _) hs
  refine ⟨s', hret, hs', ?_⟩
  by_cases heq : facts s' = facts s
  · exact .inl (hkey _ _ heq)
  · right
    refine Set.ncard_lt_ncard ⟨Set.sdiff_subset_sdiff_right hmono, fun hsub => ?_⟩ hL.sdiff
    refine heq (Set.Subset.antisymm (fun e he => ?_) hmono)
    by_contra hnot
    exact (hsub ⟨hs' he, hnot⟩).2 he

/-- Rounds of a step end, with facts that are closed under its rule. -/
theorem rounds_closed [DecidableEq κ] {key : σ → κ} (hL : L.Finite) (h : Saturates facts ∅ L R f)
    (hkey : ∀ s s', facts s = facts s' ↔ key s = key s') {s : σ} (hs : facts s ⊆ L) :
    ∃ s', (∀ fuel, L.ncard < fuel → rounds key f fuel s = .ok s') ∧ facts s ⊆ facts s' ∧
      facts s' ⊆ L ∧ R (facts s') ⊆ facts s' := by
  have hlowers := h.lowers hL fun s s' => (hkey s s').mp
  obtain ⟨a, b, ha, hround, hb, hfixed, hret⟩ := rounds_spec hlowers hs
  have heq : facts b = facts a := (hkey b a).mpr hfixed
  refine ⟨b, fun fuel hfuel => hret fuel ?_, ?_, hb, ?_⟩
  · exact (Set.ncard_le_ncard Set.sdiff_subset hL).trans_lt hfuel
  · have hmono : ∀ a a', facts s ⊆ facts a ∧ facts a ⊆ L → f a = .ok a' →
        facts s ⊆ facts a' ∧ facts a' ⊆ L := by
      intro a a' ha hret
      obtain ⟨a'', hret', hmono, ha'', -⟩ := h a (Set.empty_subset _) ha.2
      obtain rfl : a'' = a' := Except.ok.inj (hret'.symm.trans hret)
      exact ⟨ha.1.trans hmono, ha''⟩
    exact (rounds_inv hmono ⟨subset_rfl, hs⟩ (hret _ (Nat.lt_succ_self _))).1
  · obtain ⟨b', hround', -, -, hclosed⟩ := h a (Set.empty_subset _) ha
    obtain rfl : b' = b := Except.ok.inj (hround'.symm.trans hround)
    rw [heq]
    exact hclosed heq

/-- Rounds of a step end with the least closed set. -/
theorem rounds_least [DecidableEq κ] {key : σ → κ} (hL : L.Finite) (h : Saturates facts ∅ L R f)
    (hkey : ∀ s s', facts s = facts s' ↔ key s = key s') {s : σ} (hs : facts s ⊆ L)
    (hleast : ∀ S, facts s ⊆ S → R S ⊆ S → L ⊆ S) :
    ∃ s', (∀ fuel, L.ncard < fuel → rounds key f fuel s = .ok s') ∧ facts s' = L := by
  obtain ⟨s', hret, hinit, hs', hclosed⟩ := h.rounds_closed hL hkey hs
  exact ⟨s', hret, hs'.antisymm (hleast _ hinit hclosed)⟩

end Saturates

end Clou
