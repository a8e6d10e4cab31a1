-- SUMMARY: Waypoint walks over a relation: sequences of waypoints joined by legs of at least one step, and what preserves them.
import Mathlib.Data.List.Chain
import Mathlib.Data.List.Forall2
import Mathlib.Data.Set.Basic
import Mathlib.Logic.Relation

/-!
# Waypoint Walks

A waypoint walk over `E` through a list of waypoint sets picks one node of each
set and joins consecutive picks by legs of at least one step. The waypoint sets
are of any type with a membership relation.
-/

open Relation

namespace Walk

variable {α β : Type*} [Membership α β] {E E' : α → α → Prop} {P Q : α → Prop}

/-- Some nodes `ws`, one from each waypoint set, are joined in order by legs of
at least one step. -/
def HasWalk (E : α → α → Prop) (Ws : List β) : Prop :=
  ∃ ws : List α, List.Forall₂ (· ∈ ·) ws Ws ∧ ws.IsChain (TransGen E)

/-- The steps of `E` outside the set `C`. -/
def without (E : α → α → Prop) (C : Set (α × α)) : α → α → Prop :=
  fun u v => E u v ∧ (u, v) ∉ C

/-! ## Walks One Leg at a Time

`Visits E P Ws` walks through `Ws` starting at a node that satisfies `P`. The
start condition of every further leg is to be reached from the last waypoint,
so that a statement about the head of the list covers every later position. -/

def Visits (E : α → α → Prop) : (α → Prop) → List β → Prop
  | _, [] => True
  | P, W :: Ws => ∃ u ∈ W, P u ∧ Visits E (TransGen E u) Ws

@[simp] theorem visits_nil : Visits E P ([] : List β) := trivial

theorem visits_cons {W : β} {Ws : List β} :
    Visits E P (W :: Ws) ↔ ∃ u ∈ W, P u ∧ Visits E (TransGen E u) Ws := Iff.rfl

theorem visits_iff_chain {Ws : List β} :
    Visits E P Ws ↔ ∃ ws : List α, List.Forall₂ (· ∈ ·) ws Ws ∧
      ws.IsChain (TransGen E) ∧ ∀ u ∈ ws.head?, P u := by
  induction Ws generalizing P with
  | nil => simp
  | cons W Ws ih =>
    rw [visits_cons]
    constructor
    · rintro ⟨u, hu, hP, hrest⟩
      obtain ⟨ws, hmem, hchain, hhead⟩ := ih.mp hrest
      refine ⟨u :: ws, hmem.cons hu, ?_, by simpa⟩
      exact List.isChain_cons.mpr ⟨hhead, hchain⟩
    · rintro ⟨ws, hmem, hchain, hhead⟩
      cases hmem with
      | cons hu hmem =>
        obtain ⟨hnext, hchain⟩ := List.isChain_cons.mp hchain
        exact ⟨_, hu, hhead _ rfl, ih.mpr ⟨_, hmem, hchain, hnext⟩⟩

theorem hasWalk_iff_visits {Ws : List β} : HasWalk E Ws ↔ Visits E (fun _ => True) Ws := by
  simp [HasWalk, visits_iff_chain]

/-- A walk starts at a waypoint of the first set. -/
theorem hasWalk_iff_first {W : β} {Ws : List β} (hW : Ws[0]? = some W) :
    HasWalk E Ws ↔ ∃ u ∈ W, Visits E (TransGen E u) (Ws.drop 1) := by
  cases Ws with
  | nil => cases hW
  | cons V Ws =>
    obtain rfl := Option.some.inj hW
    simp [hasWalk_iff_visits, visits_cons]

theorem hasWalk_pair {S T : β} : HasWalk E [S, T] ↔ ∃ s ∈ S, ∃ t ∈ T, TransGen E s t := by
  simp [hasWalk_iff_visits, visits_cons]

/-! ## Monotonicity -/

theorem without_le (C : Set (α × α)) {u v : α} (h : without E C u v) : E u v := h.1

/-- A map of nodes that preserves steps and waypoints preserves walks. -/
theorem Visits.map {α' β' : Type*} [Membership α' β'] {F : α' → α' → Prop} {R : α' → Prop}
    {f : α → α'} (hE : ∀ u v, E u v → F (f u) (f v)) {Ws : List β} {Ws' : List β'}
    (hsub : List.Forall₂ (fun W W' => ∀ u : α, u ∈ W → f u ∈ W') Ws Ws')
    (hP : ∀ u, P u → R (f u)) (h : Visits E P Ws) : Visits F R Ws' := by
  induction hsub generalizing P R with
  | nil => trivial
  | cons hW _ ih =>
    obtain ⟨u, hu, hPu, hrest⟩ := h
    exact ⟨f u, hW u hu, hP u hPu, ih (fun v hv => TransGen.lift f hE _ _ hv) hrest⟩

theorem HasWalk.map {α' β' : Type*} [Membership α' β'] {F : α' → α' → Prop}
    {f : α → α'} (hE : ∀ u v, E u v → F (f u) (f v)) {Ws : List β} {Ws' : List β'}
    (hsub : List.Forall₂ (fun W W' => ∀ u : α, u ∈ W → f u ∈ W') Ws Ws')
    (h : HasWalk E Ws) : HasWalk F Ws' := by
  rw [hasWalk_iff_visits] at h ⊢
  exact h.map hE hsub fun _ _ => trivial

theorem Visits.mono {Ws : List β} (hE : ∀ u v, E u v → E' u v) (hP : ∀ u, P u → Q u)
    (h : Visits E P Ws) : Visits E' Q Ws :=
  h.map hE (List.forall₂_same.mpr fun _ _ _ hu => hu) hP

theorem Visits.start_mono {Ws : List β} (hP : ∀ u, P u → Q u) (h : Visits E P Ws) :
    Visits E Q Ws :=
  h.mono (fun _ _ h => h) hP

theorem HasWalk.mono {Ws : List β} (hE : ∀ u v, E u v → E' u v) (h : HasWalk E Ws) :
    HasWalk E' Ws :=
  h.map hE (List.forall₂_same.mpr fun _ _ _ hu => hu)

/-- Larger waypoint sets have more walks. -/
theorem Visits.mono_sets {Ws Ws' : List β}
    (hsub : List.Forall₂ (fun W W' => ∀ u : α, u ∈ W → u ∈ W') Ws Ws')
    (h : Visits E P Ws) : Visits E P Ws' :=
  h.map (fun _ _ h => h) hsub fun _ h => h

theorem HasWalk.mono_sets {Ws Ws' : List β}
    (hsub : List.Forall₂ (fun W W' => ∀ u : α, u ∈ W → u ∈ W') Ws Ws')
    (h : HasWalk E Ws) : HasWalk E Ws' :=
  h.map (fun _ _ h => h) hsub

/-- An empty waypoint set has no walk through it. -/
theorem Visits.exists_mem {Ws : List β} (h : Visits E P Ws) : ∀ W ∈ Ws, ∃ u : α, u ∈ W := by
  induction Ws generalizing P with
  | nil => simp
  | cons W Ws ih =>
    obtain ⟨u, hu, -, hrest⟩ := h
    exact List.forall_mem_cons.mpr ⟨⟨u, hu⟩, ih hrest⟩

/-- Dropping the second of three consecutive waypoint sets joins its two legs. -/
theorem Visits.drop_second {A B : β} {Ws : List β} (h : Visits E P (A :: B :: Ws)) :
    Visits E P (A :: Ws) := by
  obtain ⟨a, ha, hPa, b, hb, hab, hrest⟩ := h
  exact ⟨a, ha, hPa, hrest.start_mono fun c hbc => hab.trans hbc⟩

/-! ## Lists along Walks -/

/-- The list passes a node of each waypoint set in order, from its first to its last element. -/
def Along (Ws : List β) (l : List α) : Prop :=
  ∃ ws : List α, List.Forall₂ (· ∈ ·) ws Ws ∧ ws.Sublist l ∧ l.head? = ws.head? ∧
    l.getLast? = ws.getLast?

/-- When a set of steps breaks all walks, every list of steps along the waypoints takes one
of these steps. -/
theorem Along.crosses {C : Set (α × α)} {Ws : List β} {l : List α} (h : Along Ws l)
    (hnot : ¬ HasWalk (without E C) Ws) (hl : l.IsChain E) :
    ∃ pre u v post, l = pre ++ u :: v :: post ∧ (u, v) ∈ C := by
  by_contra hall
  obtain ⟨ws, hmem, hsub, -, -⟩ := h
  have huncut : l.IsChain (without E C) := by
    rw [List.isChain_iff_forall_rel_of_append_cons_cons] at hl ⊢
    intro u v pre post heq
    exact ⟨hl heq, fun hC => hall ⟨pre, u, v, post, heq, hC⟩⟩
  have hchain : l.IsChain (TransGen (without E C)) := huncut.imp fun _ _ => .single
  exact hnot ⟨ws, hmem, hchain.sublist hsub⟩

/-- Every waypoint set has a node on the list. -/
theorem Along.nonempty {Ws : List β} {l : List α} (h : Along Ws l) : ∀ W ∈ Ws, ∃ u : α, u ∈ W := by
  obtain ⟨ws, hmem, -⟩ := h
  induction hmem with
  | nil => simp
  | cons hu _ ih => exact List.forall_mem_cons.mpr ⟨⟨_, hu⟩, ih⟩

/-- The list ends in the last waypoint set. -/
theorem Along.last {Ws : List β} {l : List α} (h : Along Ws l) {t : α} (ht : l.getLast? = some t) :
    ∃ W, Ws.getLast? = some W ∧ t ∈ W := by
  obtain ⟨ws, hmem, -, -, hlast⟩ := h
  have hws : ws.getLast? = some t := hlast ▸ ht
  clear hlast ht
  induction hmem with
  | nil => cases hws
  | @cons u W ws Ws hu hrest ih =>
    cases hrest with
    | nil =>
      obtain rfl := Option.some.inj hws
      exact ⟨W, rfl, hu⟩
    | cons => exact ih hws

theorem along_single {T : β} {t : α} (ht : t ∈ T) : Along [T] [t] :=
  ⟨[t], .cons ht .nil, .refl _, rfl, rfl⟩

/-- One more leg in front. -/
theorem Along.cons {S : β} {Ws : List β} {s t : α} {l : List α} (hs : s ∈ S)
    (h : Along Ws (t :: l)) (leg : List α) : Along (S :: Ws) (s :: (leg ++ t :: l)) := by
  obtain ⟨ws, hmem, hsub, hhead, hlast⟩ := h
  obtain ⟨ws, rfl⟩ := List.head?_eq_some_iff.mp hhead.symm
  refine ⟨s :: t :: ws, hmem.cons hs, (hsub.trans (List.sublist_append_right _ _)).cons_cons s, rfl, ?_⟩
  rw [List.getLast?_cons_cons, ← hlast, ← List.cons_append, List.getLast?_append_cons]

end Walk
