-- SUMMARY: Waypoint walks in layered relations: climbing the levels passes the waypoint sets in order, and a waypoint walk below lifts to a climb.
import Serberus.Lib.Walk

/-!
# Layered Relations

A layered relation steps on nodes that have a level. It climbs one level at a
time, and only by stepping onto a waypoint of the level it climbs to; it may
fall by any number of levels. Reaching the top level then takes a waypoint walk.
Conversely a walk below, in the relation that the layers are copies of, lifts to
a climb that steps up at the next waypoint it meets.
-/

open Relation

namespace Walk

variable {α β : Type*} [Membership α β] {E : α → α → Prop} {lev : α → Nat} {Ws : List β}

/-- Steps climb by one level at most, and only onto waypoints. -/
def Climbs (E : α → α → Prop) (lev : α → Nat) (Ws : List β) : Prop :=
  ∀ a b, E a b → lev b ≤ lev a ∨ lev b = lev a + 1 ∧ ∃ W, Ws[lev b]? = some W ∧ b ∈ W

/-- On the way to a higher level every level between is first entered at a waypoint. -/
theorem Climbs.exists_step (h : Climbs E lev Ws) {a b : α} {i : Nat} (hab : ReflTransGen E a b)
    (ha : lev a ≤ i) (hb : i < lev b) :
    ∃ c W, Ws[i + 1]? = some W ∧ c ∈ W ∧ lev c = i + 1 ∧ TransGen E a c ∧ ReflTransGen E c b := by
  induction hab using ReflTransGen.head_induction_on with
  | refl => omega
  | @head a a' hstep hrest ih =>
    by_cases ha' : lev a' ≤ i
    · obtain ⟨c, W, hW, hc, hlev, hreach, hcb⟩ := ih ha'
      exact ⟨c, W, hW, hc, hlev, .head hstep hreach, hcb⟩
    · rcases h a a' hstep with hle | ⟨hlev, W, hW, hmem⟩
      · omega
      · have hi : lev a' = i + 1 := by omega
        exact ⟨a', W, hi ▸ hW, hmem, hi, .single hstep, hrest⟩

/-- Reaching the top level visits the waypoint sets of the levels above the start. -/
theorem Climbs.visits (h : Climbs E lev Ws) {a b : α} (hab : ReflTransGen E a b)
    (hb : lev b + 1 = Ws.length) : Visits E (TransGen E a) (Ws.drop (lev a + 1)) := by
  induction hn : Ws.length - lev a generalizing a with
  | zero => simp [List.drop_eq_nil_of_le (show Ws.length ≤ lev a + 1 by omega)]
  | succ n ih =>
    rcases Nat.lt_or_ge (lev a) (lev b) with hlt | hge
    · obtain ⟨c, W, hW, hc, hlev, hac, hcb⟩ := h.exists_step hab le_rfl hlt
      obtain ⟨hi, rfl⟩ := List.getElem?_eq_some_iff.mp hW
      rw [List.drop_eq_getElem_cons hi]
      have hrest := ih hcb (by omega)
      rw [hlev] at hrest
      exact ⟨c, hc, hac, hrest⟩
    · simp [List.drop_eq_nil_of_le (show Ws.length ≤ lev a + 1 by omega)]

/-! ## Lifting -/

variable {γ δ : Type*} [Membership γ δ] {F : γ → γ → Prop} {base : α → γ} {Vs : List δ}
  {R : α → Prop}

/-- A set of nodes in which every step of `F` below can be taken above, at least
at the same level, and one level up when it meets the next waypoint set. -/
def Lifts (F : γ → γ → Prop) (base : α → γ) (lev : α → Nat) (Vs : List δ) (R : α → Prop) : Prop :=
  ∀ a v, R a → F (base a) v → ∃ b, R b ∧ base b = v ∧ lev a ≤ lev b ∧
    ((∃ V, Vs[lev a + 1]? = some V ∧ v ∈ V) → lev b = lev a + 1)

/-- A leg to a waypoint of set `i + 1` lifts to a climb to level `i + 1`. -/
theorem Lifts.leg (h : Lifts F base lev Vs R) {a : α} {v : γ} {i : Nat} {V : δ} (ha : R a)
    (hi : i ≤ lev a) (hv : TransGen F (base a) v) (hV : Vs[i + 1]? = some V) (hmem : v ∈ V) :
    ∃ b, R b ∧ base b = v ∧ i + 1 ≤ lev b := by
  have key {u : γ} (hu : ReflTransGen F (base a) u) : ∃ b, R b ∧ base b = u ∧ i ≤ lev b := by
    induction hu with
    | refl => exact ⟨a, ha, rfl, hi⟩
    | tail _ hstep ih =>
      obtain ⟨b, hb, rfl, hle⟩ := ih
      obtain ⟨c, hc, hbase, hle', -⟩ := h b _ hb hstep
      exact ⟨c, hc, hbase, hle.trans hle'⟩
  obtain ⟨u, hu, hstep⟩ := TransGen.tail'_iff.mp hv
  obtain ⟨b, hb, rfl, hle⟩ := key hu
  obtain ⟨c, hc, hbase, hle', hup⟩ := h b v hb hstep
  refine ⟨c, hc, hbase, ?_⟩
  rcases hle.eq_or_lt with heq | hlt
  · have := hup ⟨V, heq ▸ hV, hmem⟩
    omega
  · omega

/-- A walk through the remaining waypoint sets lifts to a climb to the top. -/
theorem Lifts.top (h : Lifts F base lev Vs R) {a : α} {i : Nat} (ha : R a) (hi : i ≤ lev a)
    (hwalk : Visits F (TransGen F (base a)) (Vs.drop (i + 1))) :
    ∃ b, R b ∧ Vs.length ≤ lev b + 1 := by
  induction hn : Vs.length - i generalizing a i with
  | zero => exact ⟨a, ha, by omega⟩
  | succ n ih =>
    rcases Nat.lt_or_ge (i + 1) Vs.length with hlt | hge
    · rw [List.drop_eq_getElem_cons hlt] at hwalk
      obtain ⟨v, hv, hleg, hrest⟩ := hwalk
      obtain ⟨b, hb, rfl, hle⟩ := h.leg ha hi hleg (List.getElem?_eq_getElem hlt) hv
      exact ih hb hle hrest (by omega)
    · exact ⟨a, ha, by omega⟩

end Walk
