-- SUMMARY: Rounds of the taint analysis: each is a round of propagation, and they come to an end.
import Serberus.SpeculativeTaint.Visit

/-!
# Rounds

A round visits every instruction once. Its marks are those of a round of `Propagate`, so
what is known there about marks and order holds here. The cells of the maps grow in
every round that asks for another one, and there are finitely many.
-/

namespace Clou.SpeculativeTaint

open Propagate (Marked OrderClosed Reliable anySite)

variable {ι : Type} [LinearOrder ι] {O : Oracles ι} {F : IRFunction ι} {ndebug : Bool}
  {R : OrdMap ι (OrdSet ι)}

/-- The state after the instructions `done`, in a round that started with `t`. -/
structure InRound (O : Oracles ι) (F : IRFunction ι) (t : Taints ι) (done : List (Instruction ι))
    (s : State ι) : Prop where
  visits : Propagate.Visits (sites O F) t.marks done t.marks s.taints.marks
  bak : s.taintsBak.marks = t.marks
  keys : ∀ k ∈ s.taints.keys, k ∈ t.keys ∨ k ∈ F.mentioned
  bak_keys : ∀ k ∈ s.taintsBak.keys, k ∈ s.taints.keys
  bak_mono : ∀ k ∈ t.keys, k ∈ s.taintsBak.keys

theorem InRound.start (t : Taints ι) : InRound O F t [] ⟨t, t⟩ :=
  ⟨.nil, rfl, fun _ => .inl, fun _ => id, fun _ => id⟩

theorem InRound.step {t : Taints ι} {done : List (Instruction ι)} {I : Instruction ι}
    {s s' : State ι} (h : InRound O F t done s) (hvisit : Visited O F I s s') :
    InRound O F t (done ++ [I]) s' where
  visits := h.visits.append (.cons (h.bak ▸ hvisit.visit) .nil)
  bak := hvisit.bak.trans h.bak
  keys := by
    intro k hk
    rcases hvisit.keys k hk with hk | hk
    · exact h.keys k hk
    · exact .inr hk
  bak_keys := by
    intro k hk
    rcases hvisit.bak_keys k hk with hk | hk
    · exact hvisit.keys_mono k (h.bak_keys k hk)
    · exact hk
  bak_mono := fun k hk => hvisit.bak_mono k (h.bak_mono k hk)

/-- A round returns, and has visited all instructions. -/
theorem round_ok (hR : RfsOf O F R) (hhandled : ∀ I ∈ F.instructions, I.Handled) (s : State ι) :
    ∃ s', round ndebug O F R s = .ok (s', decide (s'.taints ≠ s'.taintsBak)) ∧
      InRound O F s.taints F.instructions s' := by
  obtain ⟨s', hret, hround⟩ := Exec.foldlM_returns (f := visit ndebug O (ncals O F) R)
    (P := InRound O F s.taints)
    (fun done I s₁ hI hs₁ => by
      obtain ⟨s₂, hvisit, hvisited⟩ := visit_ok hR hI (hhandled I hI) s₁
      exact ⟨s₂, hvisit, hs₁.step hvisited⟩)
    (InRound.start s.taints)
  refine ⟨s', ?_, hround⟩
  unfold round
  rw [hret]
  rfl

theorem InRound.bak_subset {t : Taints ι} {done : List (Instruction ι)} {s : State ι}
    (h : InRound O F t done s) :
    t.cells ⊆ s.taintsBak.cells ∧ s.taintsBak.cells ⊆ s.taints.cells := by
  constructor
  · exact Taints.cells_subset.mpr ⟨h.bak_mono, fun y => (congrFun h.bak y).ge⟩
  · refine Taints.cells_subset.mpr ⟨h.bak_keys, fun y => ?_⟩
    rw [h.bak]
    exact h.visits.mono y

/-! ## From Round to Round -/

/-- What holds between rounds. -/
structure Inv (O : Oracles ι) (F : IRFunction ι) (s : State ι) : Prop where
  sound : ∀ y, ∀ e ∈ s.taints.marks y, Marked (sites O F) F.instructions anySite e y
  closed : OrderClosed (sites O F) F.instructions s.taints.marks
  keys : ∀ k ∈ s.taints.keys, k ∈ F.mentioned

theorem Inv.init : Inv O F ⟨∅, ∅⟩ where
  sound := fun _ e he => absurd he (OrdSet.not_mem_empty e)
  closed := fun _ _ _ e _ _ _ _ he => absurd he (OrdSet.not_mem_empty e)
  keys := fun _ hk => absurd hk List.not_mem_nil

theorem Inv.step {s s' : State ι} (h : Inv O F s) (hround : InRound O F s.taints F.instructions s') :
    Inv O F s' where
  sound := hround.visits.sound (fun _ => id) h.sound
  closed := hround.visits.orderClosed h.sound h.closed
  keys := fun k hk => (hround.keys k hk).elim (h.keys k) id

/-- Marks are indices of loads. -/
theorem marked_lt {ok : Instruction ι → Idx → Prop} {e : Idx} {y : ι}
    (h : Marked (sites O F) F.instructions ok e y) : e < (ncals O F).length := by
  induction h with
  | gen hI hgen =>
    obtain ⟨hncal, -, rfl⟩ := hgen
    exact lowerBound_lt (mem_ncals.mpr ⟨_, hI, hncal, rfl⟩)
  | flow _ _ _ _ ih => exact ih

/-- All cells that a taint map of the function can have. -/
def cellsOf (O : Oracles ι) (F : IRFunction ι) : Finset (ι × Option Idx) :=
  F.mentioned.toFinset ×ˢ (Finset.range (ncals O F).length).insertNone

theorem Inv.cells_subset {s : State ι} (h : Inv O F s) : s.taints.cells ⊆ cellsOf O F := by
  rintro ⟨k, c⟩ hc
  refine Finset.mem_product.mpr ⟨List.mem_toFinset.mpr ?_, ?_⟩
  · cases c with
    | none => exact h.keys k (Taints.mem_cells_none.mp hc)
    | some e =>
      by_contra hk
      have hget := Taints.get_of_not_mem_keys fun hkey => hk (h.keys k hkey)
      exact absurd (hget ▸ Taints.mem_cells_some.mp hc) (OrdSet.not_mem_empty e)
  · rw [Finset.mem_insertNone]
    rintro e rfl
    exact Finset.mem_range.mpr (marked_lt (h.sound k e (Taints.mem_cells_some.mp hc)))

/-- The cells that are still missing. -/
def missing (O : Oracles ι) (F : IRFunction ι) (s : State ι) : Nat :=
  (cellsOf O F).card - s.taints.cells.card

theorem InRound.missing_lt {s s' : State ι} (hround : InRound O F s.taints F.instructions s')
    (hinv : Inv O F s') (hchanged : s'.taints ≠ s'.taintsBak) : missing O F s' < missing O F s := by
  obtain ⟨hstart, hend⟩ := hround.bak_subset
  have hssub : s'.taintsBak.cells ⊂ s'.taints.cells :=
    hend.ssubset_of_ne fun heq => hchanged (Taints.cells_injective heq).symm
  have hgrow := (Finset.card_le_card hstart).trans_lt (Finset.card_lt_card hssub)
  have hle := Finset.card_le_card hinv.cells_subset
  unfold missing
  omega

/-- The rounds come to an end. -/
theorem rounds_return (hR : RfsOf O F R) (hhandled : ∀ I ∈ F.instructions, I.Handled) :
    ∃ s, ∀ fuel ≥ (cellsOf O F).card + 1,
      doWhile (round ndebug O F R) fuel ⟨∅, ∅⟩ = .ok s := by
  have hround (s : State ι) (hs : Inv O F s) : ∃ r, round ndebug O F R s = .ok r ∧
      Inv O F r.1 ∧ (r.2 = true → missing O F r.1 < missing O F s) := by
    obtain ⟨s', hret, hround⟩ := round_ok hR hhandled s
    have hinv := hs.step hround
    exact ⟨_, hret, hinv, fun hagain => hround.missing_lt hinv (of_decide_eq_true hagain)⟩
  obtain ⟨s, hs⟩ := doWhile_returns hround .init (Nat.lt_succ_of_le (Nat.sub_le _ _))
  exact ⟨s, fun fuel hfuel => doWhile_mono hfuel hs⟩

/-- The last round changed nothing, so its marks are those it began with. -/
theorem last_round {P : State ι → Prop} {fuel : Nat} {s : State ι} (hR : RfsOf O F R)
    (hhandled : ∀ I ∈ F.instructions, I.Handled) (hinit : P ⟨∅, ∅⟩)
    (hP : ∀ s s', P s → InRound O F s.taints F.instructions s' → P s')
    (hret : doWhile (round ndebug O F R) fuel ⟨∅, ∅⟩ = .ok s) :
    P s ∧ Propagate.Visits (sites O F) s.taints.marks F.instructions s.taints.marks
      s.taints.marks := by
  have hround {s₀ s₁ : State ι} {again : Bool} (h : round ndebug O F R s₀ = .ok (s₁, again)) :
      InRound O F s₀.taints F.instructions s₁ ∧ again = decide (s₁.taints ≠ s₁.taintsBak) := by
    obtain ⟨s', hret, hs'⟩ := round_ok hR hhandled s₀
    cases hret.symm.trans h
    exact ⟨hs', rfl⟩
  obtain ⟨hs, s₀, -, hlast⟩ := doWhile_inv (P := P)
    (fun s₀ r hs₀ hbody => hP s₀ r.1 hs₀ (hround hbody).1) hinit hret
  obtain ⟨hin, hagain⟩ := hround hlast
  have hsame : s.taints.marks = s₀.taints.marks := by
    rw [← hin.bak, not_not.mp (of_decide_eq_false hagain.symm)]
  have hvisits := hin.visits
  rw [← hsame] at hvisits
  exact ⟨hs, hvisits⟩

end Clou.SpeculativeTaint
