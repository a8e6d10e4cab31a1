-- SUMMARY: Loops that go over the same steps again and again until a round changes nothing.
import Serberus.Exec

/-!
# Rounds

The analyses go over the instructions or functions in rounds, until a round leaves the
part of the state that they compare as it was. When every step that changes this part
lowers a measure, such a loop ends, and in the last round no single step has changed it.
-/

namespace Clou

variable {α β κ : Type}

/-- From a state with `P` the step returns, keeps `P`, and lowers the measure unless it leaves
the key as it is. -/
def Lowers (P : α → Prop) (key : α → κ) (μ : α → Nat) (f : α → Exec α) : Prop :=
  ∀ a, P a → ∃ a', f a = .ok a' ∧ P a' ∧ (key a' = key a ∨ μ a' < μ a)

variable {P : α → Prop} {key : α → κ} {μ : α → Nat}

section Folds

variable {f : α → β → Exec α} {l : List β}

theorem Lowers.bind {f g : α → Exec α} (hf : Lowers P key μ f) (hg : Lowers P key μ g)
    (hkey : ∀ a a', key a' = key a → μ a' = μ a) : Lowers P key μ fun a => f a >>= g := by
  intro a ha
  obtain ⟨a₁, hret₁, ha₁, h₁⟩ := hf a ha
  obtain ⟨a₂, hret₂, ha₂, h₂⟩ := hg a₁ ha₁
  refine ⟨a₂, Exec.bind_eq_ok.mpr ⟨a₁, hret₁, hret₂⟩, ha₂, ?_⟩
  rcases h₁ with h₁ | h₁
  · rwa [← h₁, ← hkey a a₁ h₁]
  · rcases h₂ with h₂ | h₂
    · exact .inr (hkey a₁ a₂ h₂ ▸ h₁)
    · exact .inr (Nat.lt_trans h₂ h₁)

theorem Lowers.pure : Lowers P key μ (Pure.pure : α → Exec α) := fun a ha => ⟨a, rfl, ha, .inl rfl⟩

theorem Lowers.foldlM (hf : ∀ b ∈ l, Lowers P key μ fun a => f a b)
    (hkey : ∀ a a', key a' = key a → μ a' = μ a) : Lowers P key μ fun a => l.foldlM f a := by
  induction l with
  | nil => exact .pure
  | cons b l ih =>
    obtain ⟨hb, hl⟩ := List.forall_mem_cons.mp hf
    simp only [List.foldlM_cons]
    exact hb.bind (ih hl) hkey

/-- A sequence that leaves the key as it was has done so in both parts. -/
theorem Lowers.bind_fixed {f g : α → Exec α} {a a' : α} (hf : Lowers P key μ f)
    (hg : Lowers P key μ g) (hkey : ∀ a a', key a' = key a → μ a' = μ a) (ha : P a)
    (hret : f a >>= g = .ok a') (hfixed : key a' = key a) :
    ∃ a₁, f a = .ok a₁ ∧ g a₁ = .ok a' ∧ P a₁ ∧ P a' ∧ key a₁ = key a := by
  obtain ⟨a₁, hret₁, ha₁, h₁⟩ := hf a ha
  obtain ⟨a₂, hret₂, ha₂, h₂⟩ := hg a₁ ha₁
  rw [hret₁] at hret
  obtain rfl : a₂ = a' := Except.ok.inj (hret₂.symm.trans hret)
  refine ⟨a₁, hret₁, hret₂, ha₁, ha₂, ?_⟩
  rcases h₁ with h₁ | h₁
  · exact h₁
  · rcases h₂ with h₂ | h₂
    · exact h₂.symm.trans hfixed
    · exact absurd (Nat.lt_trans h₂ h₁) (hkey a a₂ hfixed ▸ Nat.lt_irrefl _)

/-- A fold that leaves the key as it was has done so at every step. -/
theorem Lowers.fixed {a a' : α} (hf : ∀ b ∈ l, Lowers P key μ fun a => f a b)
    (hkey : ∀ a a', key a' = key a → μ a' = μ a) (ha : P a) (hret : l.foldlM f a = .ok a')
    (hfixed : key a' = key a) :
    ∀ b ∈ l, ∃ a₁ a₂, P a₁ ∧ f a₁ b = .ok a₂ ∧ P a₂ ∧ key a₁ = key a ∧ key a₂ = key a := by
  induction l generalizing a with
  | nil => simp
  | cons b l ih =>
    obtain ⟨hb, hl⟩ := List.forall_mem_cons.mp hf
    rw [List.foldlM_cons] at hret
    obtain ⟨a₁, hfirst, hrest, ha₁, -, h₁⟩ :=
      hb.bind_fixed (Lowers.foldlM hl hkey) hkey ha hret hfixed
    refine List.forall_mem_cons.mpr ⟨⟨a, a₁, ha, hfirst, ha₁, rfl, h₁⟩, ?_⟩
    rw [← h₁]
    exact ih hl ha₁ hrest (hfixed.trans h₁.symm)

end Folds

/-- `do { bak = s; round(s); } while (s != bak)`, where `key` is what is compared. -/
def rounds [DecidableEq κ] (key : α → κ) (round : α → Exec α) : Nat → α → Exec α :=
  doWhile fun s => do
    let s' ← round s
    pure (s', decide (key s' ≠ key s))

/-- Rounds that return keep what a round keeps. -/
theorem rounds_inv [DecidableEq κ] {round : α → Exec α} {fuel : Nat} {a b : α}
    (hround : ∀ a a', P a → round a = .ok a' → P a') (ha : P a)
    (hret : rounds key round fuel a = .ok b) : P b := by
  refine (doWhile_inv (fun a r ha hbody => ?_) ha hret).1
  obtain ⟨a', ha', heq⟩ := Exec.bind_eq_ok.mp hbody
  cases heq
  exact hround a a' ha ha'

/-- Rounds that lower a measure come to an end, and the last one has changed nothing. -/
theorem rounds_spec [DecidableEq κ] {round : α → Exec α} {a : α} (hround : Lowers P key μ round)
    (ha : P a) : ∃ a' b, P a' ∧ round a' = .ok b ∧ P b ∧ key b = key a' ∧
      ∀ fuel, μ a < fuel → rounds key round fuel a = .ok b := by
  have hbody (a : α) (ha : P a) : ∃ r, (do
      let s' ← round a
      Pure.pure (s', decide (key s' ≠ key a)) : Exec (α × Bool)) = .ok r ∧ P r.1 ∧
        (r.2 = true → μ r.1 < μ a) := by
    obtain ⟨a', hret, ha', hlowers⟩ := hround a ha
    refine ⟨(a', decide (key a' ≠ key a)), by rw [hret]; rfl, ha', fun hne => ?_⟩
    exact hlowers.resolve_left (of_decide_eq_true hne)
  obtain ⟨b, hret⟩ := doWhile_returns hbody ha (Nat.lt_succ_self (μ a))
  obtain ⟨hb, a', ha', hlast⟩ := doWhile_inv (fun a r ha hret => by
    obtain ⟨r', hret', hr', -⟩ := hbody a ha
    rw [hret] at hret'
    cases hret'
    exact hr') ha hret
  obtain ⟨b', hround', heq⟩ := Exec.bind_eq_ok.mp hlast
  have hb' : b' = b := congrArg Prod.fst (Except.ok.inj heq)
  have hfixed : key b' = key a' := by
    have hagain := congrArg Prod.snd (Except.ok.inj heq)
    simpa using hagain
  subst hb'
  exact ⟨a', b', ha', hround', hb, hfixed, fun fuel hfuel => doWhile_mono hfuel hret⟩

end Clou
