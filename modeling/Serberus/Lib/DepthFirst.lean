-- SUMMARY: Recursive searches that share one set of marks: what they mark, and that they end.
import Mathlib.Data.Finset.Card
import Mathlib.Logic.Relation
import Serberus.Lib.OrdSet

/-!
# Depth-First Searches

`dfs` returns at once from a node that is marked. Any other node it marks, shows to
`visit`, and searches its `expand` one after the other; the marks are never taken back,
and all branches share them. The recursion is given fuel. On a finite universe that is
closed under `expand` it is no deeper than there are nodes.
-/

open Relation

namespace DepthFirst

variable {α τ : Type*} [LinearOrder α]

/-- `none` when the fuel is used up. -/
def dfs (visit : α → τ → τ) (expand : α → List α) :
    Nat → α → OrdSet α × τ → Option (OrdSet α × τ)
  | 0, _, _ => none
  | fuel + 1, u, (seen, s) =>
    if u ∈ seen then some (seen, s)
    else (expand u).foldlM (fun st v => dfs visit expand fuel v st) (seen.insert u, visit u s)

variable {visit : α → τ → τ} {expand : α → List α} {U : Finset α} {fuel : Nat}
  {seen seen' seen'' : OrdSet α} {order order' : List α} {u : α} {us : List α}

/-- The steps of the search. -/
def Step (expand : α → List α) (u v : α) : Prop := v ∈ expand u

/-- What searches from the nodes of a list, one after the other, do to the marks: `order` are
the nodes that they have marked. All that leads out of these nodes is marked when the searches
are over. -/
structure Marks (expand : α → List α) (start : List α) (seen seen' : OrdSet α) (order : List α) :
    Prop where
  mem : ∀ v, v ∈ seen' ↔ v ∈ seen ∨ v ∈ order
  reached : ∀ v ∈ order, ∃ u ∈ start, ReflTransGen (Step expand) u v
  start : ∀ u ∈ start, u ∈ seen'
  closed : ∀ u ∈ order, ∀ v ∈ expand u, v ∈ seen'

theorem Marks.nil (expand : α → List α) (seen : OrdSet α) : Marks expand [] seen seen [] where
  mem _ := by simp
  reached _ hv := absurd hv List.not_mem_nil
  start _ hu := absurd hu List.not_mem_nil
  closed _ hu := absurd hu List.not_mem_nil

theorem Marks.of_mem (expand : α → List α) (hu : u ∈ seen) : Marks expand [u] seen seen [] where
  mem _ := by simp
  reached _ hv := absurd hv List.not_mem_nil
  start _ hv := List.mem_singleton.mp hv ▸ hu
  closed _ hv := absurd hv List.not_mem_nil

/-- One search after another. -/
theorem Marks.cons (h : Marks expand [u] seen seen' order)
    (h' : Marks expand us seen' seen'' order') :
    Marks expand (u :: us) seen seen'' (order ++ order') where
  mem v := by rw [h'.mem, h.mem, List.mem_append, or_assoc]
  reached v hv := by
    rcases List.mem_append.mp hv with hv | hv
    · obtain ⟨w, hw, hwv⟩ := h.reached v hv
      exact ⟨u, .head _, List.mem_singleton.mp hw ▸ hwv⟩
    · obtain ⟨w, hw, hwv⟩ := h'.reached v hv
      exact ⟨w, .tail _ hw, hwv⟩
  start v hv := by
    rcases List.mem_cons.mp hv with rfl | hv
    · exact (h'.mem v).mpr (.inl (h.start v (.head _)))
    · exact h'.start v hv
  closed v hv w hw := by
    rcases List.mem_append.mp hv with hv | hv
    · exact (h'.mem w).mpr (.inl (h.closed v hv w hw))
    · exact h'.closed v hv w hw

/-- A search marks its node and goes on from there. -/
theorem Marks.enter (h : Marks expand (expand u) (seen.insert u) seen' order) :
    Marks expand [u] seen seen' (u :: order) where
  mem v := by rw [h.mem, OrdSet.mem_insert, List.mem_cons, or_comm (a := v = u), or_assoc]
  reached v hv := by
    refine ⟨u, .head _, ?_⟩
    rcases List.mem_cons.mp hv with rfl | hv
    · exact .refl
    · obtain ⟨w, hw, hwv⟩ := h.reached v hv
      exact .head hw hwv
  start v hv := by
    rw [List.mem_singleton.mp hv]
    exact (h.mem u).mpr (.inl (OrdSet.mem_insert.mpr (.inl rfl)))
  closed v hv w hw := by
    rcases List.mem_cons.mp hv with rfl | hv
    · exact h.start w hw
    · exact h.closed v hv w hw

/-- Searches from the nodes of a list, when each of them ends from any marks that may be there
by then. -/
theorem foldlM_marks {search : α → OrdSet α × τ → Option (OrdSet α × τ)} {s : τ}
    (hsearch : ∀ u ∈ us, ∀ seen₁, (∀ v ∈ seen, v ∈ seen₁) → ∀ s, ∃ seen' order,
      Marks expand [u] seen₁ seen' order ∧
        search u (seen₁, s) = some (seen', order.foldl (fun s v => visit v s) s)) :
    ∃ seen' order, Marks expand us seen seen' order ∧
      us.foldlM (fun st v => search v st) (seen, s) = some (seen', order.foldl (fun s v => visit v s) s) := by
  induction us generalizing seen s with
  | nil => exact ⟨seen, [], .nil expand seen, rfl⟩
  | cons u us ih =>
    obtain ⟨hu, hus⟩ := List.forall_mem_cons.mp hsearch
    obtain ⟨seen₁, order₁, hmarks₁, hret₁⟩ := hu seen (fun _ hv => hv) s
    have hgrown : ∀ v ∈ seen, v ∈ seen₁ := fun v hv => (hmarks₁.mem v).mpr (.inl hv)
    obtain ⟨seen₂, order₂, hmarks₂, hret₂⟩ :=
      ih (s := order₁.foldl (fun s v => visit v s) s)
        fun v hv seen' hseen' => hus v hv seen' fun w hw => hseen' w (hgrown w hw)
    refine ⟨seen₂, order₁ ++ order₂, hmarks₁.cons hmarks₂, ?_⟩
    rw [List.foldlM_cons, hret₁, List.foldl_append]
    exact hret₂

theorem card_unmarked_lt (hu : u ∈ U) (hmem : u ∉ seen)
    (hgrown : ∀ v ∈ seen.insert u, v ∈ seen') :
    (U.filter (· ∉ seen')).card < (U.filter (· ∉ seen)).card := by
  refine Finset.card_lt_card ((Finset.ssubset_iff_of_subset fun w hw => ?_).mpr ⟨u, ?_, ?_⟩)
  · obtain ⟨hwU, hnot⟩ := Finset.mem_filter.mp hw
    exact Finset.mem_filter.mpr
      ⟨hwU, fun hmem => hnot (hgrown w (OrdSet.mem_insert.mpr (.inr hmem)))⟩
  · exact Finset.mem_filter.mpr ⟨hu, hmem⟩
  · exact fun hmem => (Finset.mem_filter.mp hmem).2 (hgrown u (OrdSet.mem_insert.mpr (.inl rfl)))

/-- The recursion is no deeper than there are nodes without a mark. -/
theorem dfs_marks (visit : α → τ → τ) (s : τ) (hU : ∀ u ∈ U, ∀ v ∈ expand u, v ∈ U) (hu : u ∈ U)
    (hfuel : (U.filter (· ∉ seen)).card < fuel) :
    ∃ seen' order, Marks expand [u] seen seen' order ∧
      dfs visit expand fuel u (seen, s) = some (seen', order.foldl (fun s v => visit v s) s) := by
  induction fuel generalizing u seen s with
  | zero => exact absurd hfuel (Nat.not_lt_zero _)
  | succ fuel ih =>
    unfold dfs
    split_ifs with hmem
    · exact ⟨seen, [], .of_mem expand hmem, rfl⟩
    · have hrec : ∀ v ∈ expand u, ∀ seen₁, (∀ w ∈ seen.insert u, w ∈ seen₁) → ∀ s,
          ∃ seen' order, Marks expand [v] seen₁ seen' order ∧
            dfs visit expand fuel v (seen₁, s) =
              some (seen', order.foldl (fun s v => visit v s) s) := fun v hv seen₁ hgrown s =>
        ih s (hU u hu v hv) (by
          have hlt := card_unmarked_lt hu hmem hgrown
          omega)
      obtain ⟨seen', order, hmarks, hret⟩ := foldlM_marks (s := visit u s) hrec
      exact ⟨seen', u :: order, hmarks.enter, hret⟩

/-- A search without marks to begin with marks and visits what its node reaches. -/
theorem dfs_spec (visit : α → τ → τ) (s : τ) (hU : ∀ u ∈ U, ∀ v ∈ expand u, v ∈ U) (hu : u ∈ U)
    (hfuel : U.card < fuel) :
    ∃ (seen : OrdSet α) (order : List α), (∀ v, v ∈ order ↔ ReflTransGen (Step expand) u v) ∧
      dfs visit expand fuel u (∅, s) = some (seen, order.foldl (fun s v => visit v s) s) := by
  have hcard : (U.filter (· ∉ (∅ : OrdSet α))).card < fuel :=
    lt_of_le_of_lt (Finset.card_filter_le _ _) hfuel
  obtain ⟨seen, order, hmarks, hret⟩ := dfs_marks visit s hU hu hcard
  have hmem (v : α) : v ∈ seen ↔ v ∈ order := by simp [hmarks.mem v]
  refine ⟨seen, order, fun v => ⟨fun hv => ?_, fun huv => ?_⟩, hret⟩
  · obtain ⟨w, hw, hwv⟩ := hmarks.reached v hv
    exact List.mem_singleton.mp hw ▸ hwv
  · -- The marks are closed under steps.
    induction huv with
    | refl => exact (hmem u).mp (hmarks.start u (.head _))
    | tail _ hstep ih => exact (hmem _).mp (hmarks.closed _ ih _ hstep)

end DepthFirst
