-- SUMMARY: Marks propagated by rounds over a list of sites, some of which fire only on marks that the round has changed.
import Mathlib.Data.List.Induction
import Mathlib.Data.Set.Basic

/-!
# Propagation in Rounds

Sites put marks on nodes and carry marks from node to node. A round visits the sites
in the order of a list. A tested site carries marks only from a node whose marks have
changed since the round began, so it can miss changes that happen behind it.

The marks that chains of sites justify are `Marked`. Rounds never leave them, and a
round that changes nothing has found the marks closed under the sites that are not
tested. A tested site loses no mark that is brought to it by sites before it only,
and it carries nothing when all sites that bring marks to it are behind it.
-/

namespace Propagate

variable {σ ι ε : Type*}

/-- What the sites do. A tested site makes no marks, and carries from one node only. -/
structure Sites (σ ι ε : Type*) where
  gen : σ → ι → ε → Prop
  flow : σ → ι → ι → Prop
  tested : σ → Prop
  not_gen : ∀ p y e, tested p → ¬ gen p y e
  source_unique : ∀ p x x' y y', tested p → flow p x y → flow p x' y' → x = x'

variable (F : Sites σ ι ε)

/-- A visit of `p` in a round that began with the marks `bak`. -/
def Visit (p : σ) (bak t t' : ι → Set ε) : Prop :=
  ∀ y e, e ∈ t' y ↔ e ∈ t y ∨ F.gen p y e ∨
    ∃ x, F.flow p x y ∧ (F.tested p → t x ≠ bak x) ∧ e ∈ t x

inductive Visits (bak : ι → Set ε) : List σ → (ι → Set ε) → (ι → Set ε) → Prop
  | nil {t : ι → Set ε} : Visits bak [] t t
  | cons {p : σ} {ps : List σ} {t t₁ t' : ι → Set ε} (h : Visit F p bak t t₁)
      (hrest : Visits bak ps t₁ t') : Visits bak (p :: ps) t t'

/-- The marks that chains of sites justify; `ok` restricts the sites that carry them. -/
inductive Marked (ps : List σ) (ok : σ → ε → Prop) (e : ε) : ι → Prop
  | gen {p : σ} {y : ι} (hp : p ∈ ps) (h : F.gen p y e) : Marked ps ok e y
  | flow {p : σ} {x y : ι} (hx : Marked ps ok e x) (hp : p ∈ ps) (hok : ok p e)
      (h : F.flow p x y) : Marked ps ok e y

/-- Every chain of sites will do. -/
def anySite (_ : σ) (_ : ε) : Prop := True

/-- `p` brings the mark `e` to `y`. -/
def Brings (ps : List σ) (p : σ) (y : ι) (e : ε) : Prop :=
  F.gen p y e ∨ ∃ x, F.flow p x y ∧ Marked F ps anySite e x

/-- No site behind `p` brings the mark `e` to a node that `p` carries from. -/
def InOrder (ps : List σ) (p : σ) (e : ε) : Prop :=
  ∀ pre post, ps = pre ++ p :: post → ∀ x y, F.flow p x y → ∀ q ∈ post, ¬ Brings F ps q x e

/-- No site before `p` brings any mark to a node that `p` carries from. -/
def Late (ps : List σ) (p : σ) : Prop :=
  ∀ pre post, ps = pre ++ p :: post → ∀ x y, F.flow p x y → ∀ q ∈ pre, ∀ e, ¬ Brings F ps q x e

/-- The sites that are sure to carry `e`: the untested ones and those in order. -/
def Reliable (ps : List σ) (p : σ) (e : ε) : Prop := F.tested p → InOrder F ps p e

variable {F} {ps qs : List σ} {p : σ} {bak t t' t₁ : ι → Set ε} {ok : σ → ε → Prop}

theorem Marked.any {e : ε} {y : ι} (h : Marked F ps ok e y) : Marked F ps anySite e y := by
  induction h with
  | gen hp h => exact .gen hp h
  | flow _ hp _ h ih => exact .flow ih hp trivial h

/-! ## One Visit -/

theorem Visit.mono (h : Visit F p bak t t') (y : ι) : t y ⊆ t' y :=
  fun e he => (h y e).mpr (.inl he)

/-- A visit adds justified marks only. -/
theorem Visit.sound (h : Visit F p bak t t') (hp : p ∈ ps)
    (hok : ∀ x y e, F.flow p x y → (F.tested p → t x ≠ bak x) → ok p e)
    (ht : ∀ y, ∀ e ∈ t y, Marked F ps ok e y) : ∀ y, ∀ e ∈ t' y, Marked F ps ok e y := by
  intro y e he
  rcases (h y e).mp he with he | hgen | ⟨x, hflow, htest, he⟩
  · exact ht y e he
  · exact .gen hp hgen
  · exact .flow (ht x e he) hp (hok x y e hflow htest) hflow

/-- A mark that a site does not bring to `y` was there before. -/
theorem Visit.frame (h : Visit F p bak t t') (ht : ∀ y, ∀ e ∈ t y, Marked F ps anySite e y)
    {y : ι} {e : ε} (hy : ¬ Brings F ps p y e) (he : e ∈ t' y) : e ∈ t y := by
  rcases (h y e).mp he with he | hgen | ⟨x, hflow, -, he⟩
  · exact he
  · exact absurd (.inl hgen) hy
  · exact absurd (.inr ⟨x, hflow, ht x e he⟩) hy

/-- A tested site leaves the node that it carries from as it is. -/
theorem Visit.source (h : Visit F p bak t t') (htested : F.tested p) {x y : ι}
    (hflow : F.flow p x y) : t' x = t x := by
  refine Set.Subset.antisymm (fun e he => ?_) (h.mono x)
  rcases (h x e).mp he with he | hgen | ⟨x', hflow', -, he⟩
  · exact he
  · exact absurd hgen (F.not_gen p x e htested)
  · rwa [F.source_unique p x x' y x htested hflow hflow']

/-- A site carries a mark unless it is tested and the mark is an old one. -/
theorem Visit.flow (h : Visit F p bak t t') {x y : ι} {e : ε} (hflow : F.flow p x y)
    (hold : F.tested p → e ∈ bak x → e ∈ t y) (he : e ∈ t x) : e ∈ t' y := by
  by_cases htest : F.tested p → t x ≠ bak x
  · exact (h y e).mpr (.inr (.inr ⟨x, hflow, htest, he⟩))
  · obtain ⟨htested, heq⟩ := Classical.not_imp.mp htest
    rw [not_not.mp heq] at he
    exact h.mono y (hold htested he)

/-! ## One Round -/

theorem Visits.append (h : Visits F bak ps t t₁) (h' : Visits F bak qs t₁ t') :
    Visits F bak (ps ++ qs) t t' := by
  induction h with
  | nil => exact h'
  | cons hp _ ih => exact .cons hp (ih h')

theorem Visits.of_append (h : Visits F bak (ps ++ qs) t t') :
    ∃ t₁, Visits F bak ps t t₁ ∧ Visits F bak qs t₁ t' := by
  induction ps generalizing t with
  | nil => exact ⟨t, .nil, h⟩
  | cons p ps ih =>
    cases h with
    | cons hp hrest =>
      obtain ⟨t₁, h₁, h₂⟩ := ih hrest
      exact ⟨t₁, .cons hp h₁, h₂⟩

theorem Visits.mono (h : Visits F bak ps t t') (y : ι) : t y ⊆ t' y := by
  induction h with
  | nil => exact fun _ h => h
  | cons hp _ ih => exact fun e he => ih (hp.mono y he)

theorem Visits.sound (h : Visits F bak qs t t') (hqs : ∀ q ∈ qs, q ∈ ps)
    (ht : ∀ y, ∀ e ∈ t y, Marked F ps anySite e y) :
    ∀ y, ∀ e ∈ t' y, Marked F ps anySite e y := by
  induction h with
  | nil => exact ht
  | cons hp _ ih =>
    obtain ⟨hmem, hqs⟩ := List.forall_mem_cons.mp hqs
    exact ih hqs (hp.sound hmem (fun _ _ _ _ _ => trivial) ht)

theorem Visits.frame (h : Visits F bak qs t t') (hqs : ∀ q ∈ qs, q ∈ ps)
    (ht : ∀ y, ∀ e ∈ t y, Marked F ps anySite e y) {y : ι} {e : ε}
    (hy : ∀ q ∈ qs, ¬ Brings F ps q y e) (he : e ∈ t' y) : e ∈ t y := by
  induction h with
  | nil => exact he
  | cons hp _ ih =>
    obtain ⟨hmem, hqs⟩ := List.forall_mem_cons.mp hqs
    obtain ⟨hyp, hy⟩ := List.forall_mem_cons.mp hy
    exact hp.frame ht hyp (ih hqs (hp.sound hmem (fun _ _ _ _ _ => trivial) ht) hy he)

/-- The marks are closed under the tested sites that are in order. -/
def OrderClosed (F : Sites σ ι ε) (ps : List σ) (t : ι → Set ε) : Prop :=
  ∀ p ∈ ps, F.tested p → ∀ e, InOrder F ps p e → ∀ x y, F.flow p x y → e ∈ t x → e ∈ t y

/-- A round keeps the marks closed under the sites that are in order. -/
theorem Visits.orderClosed (h : Visits F t ps t t')
    (ht : ∀ y, ∀ e ∈ t y, Marked F ps anySite e y) (hclosed : OrderClosed F ps t) :
    OrderClosed F ps t' := by
  intro p hp htested e horder x y hflow he
  obtain ⟨pre, post, hps⟩ := List.append_of_mem hp
  rw [hps] at h
  obtain ⟨t₁, hpre, hrest⟩ := h.of_append
  cases hrest with
  | @cons _ _ _ t₂ _ hvisit hpost =>
    have hsound₁ := hpre.sound (fun q hq => by simp [hps, hq]) ht
    have hsound₂ := hvisit.sound hp (fun _ _ _ _ _ => trivial) hsound₁
    -- `x` has the mark when `p` is visited, and `p` carries it if it is new
    have he₂ : e ∈ t₂ x :=
      hpost.frame (fun q hq => by simp [hps, hq]) hsound₂ (horder pre post hps x y hflow) he
    rw [hvisit.source htested hflow] at he₂
    refine hpost.mono y (hvisit.flow hflow (fun _ hold => ?_) he₂)
    exact hpre.mono y (hclosed p hp htested e horder x y hflow hold)

/-- A round that changes nothing has found the marks closed under the untested sites. -/
theorem Visits.closed_of_fixed (h : Visits F bak ps t t) {p : σ} (hp : p ∈ ps) :
    (∀ y e, F.gen p y e → e ∈ t y) ∧
      (¬ F.tested p → ∀ x y, F.flow p x y → t x ⊆ t y) := by
  obtain ⟨pre, post, rfl⟩ := List.append_of_mem hp
  obtain ⟨t₁, hpre, hrest⟩ := h.of_append
  cases hrest with
  | @cons _ _ _ t₂ _ hvisit hpost =>
    refine ⟨fun y e hgen => hpost.mono y ((hvisit y e).mpr (.inr (.inl hgen))), ?_⟩
    intro htested x y hflow e he
    exact hpost.mono y (hvisit.flow hflow (fun h => absurd h htested) (hpre.mono x he))

/-- Closed marks have whatever reliable chains justify. -/
theorem Visits.complete_of_fixed (h : Visits F bak ps t t) (hclosed : OrderClosed F ps t) {e : ε}
    {y : ι} (hmarked : Marked F ps (Reliable F ps) e y) : e ∈ t y := by
  induction hmarked with
  | gen hp hgen => exact (h.closed_of_fixed hp).1 _ _ hgen
  | @flow p x y hx hp hok hflow ih =>
    by_cases htested : F.tested p
    · exact hclosed p hp htested e (hok htested) x y hflow ih
    · exact (h.closed_of_fixed hp).2 htested x y hflow ih

/-- When every tested site is in order or late, only reliable chains bring marks. -/
theorem Visits.sound_reliable (h : Visits F t ps t t')
    (hsites : ∀ p ∈ ps, F.tested p → (∀ e, InOrder F ps p e) ∨ Late F ps p)
    (ht : ∀ y, ∀ e ∈ t y, Marked F ps (Reliable F ps) e y) :
    ∀ y, ∀ e ∈ t' y, Marked F ps (Reliable F ps) e y := by
  have key (pre : List σ) : ∀ (post : List σ) (t₁ : ι → Set ε), ps = pre ++ post →
      Visits F t pre t t₁ → ∀ y, ∀ e ∈ t₁ y, Marked F ps (Reliable F ps) e y := by
    induction pre using List.reverseRecOn with
    | nil =>
      intro post t₁ _ hpre
      cases hpre
      exact ht
    | append_singleton pre p ih =>
      intro post t₂ hps hpre
      rw [List.append_assoc, List.singleton_append] at hps
      have hp : p ∈ ps := by simp [hps]
      obtain ⟨t₁, hpre, hlast⟩ := hpre.of_append
      cases hlast with
      | cons hvisit hnil =>
        cases hnil
        refine hvisit.sound hp ?_ (ih _ _ hps hpre)
        intro x y e hflow hchanged htested
        refine (hsites p hp htested).elim (fun horder => horder e) fun hlate => ?_
        -- nothing before a late site has touched the node that it carries from
        refine absurd (Set.Subset.antisymm (fun e' he' => ?_) (hpre.mono x)) (hchanged htested)
        exact hpre.frame (fun q hq => by simp [hps, hq]) (fun y e he => (ht y e he).any)
          (fun q hq => hlate pre post hps x y hflow q hq e') he'
  exact key ps [] t' (List.append_nil ps).symm h

end Propagate
