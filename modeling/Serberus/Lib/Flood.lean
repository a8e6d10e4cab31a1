-- SUMMARY: Queue searches that mark a node when it is popped: what they mark, in which order, and that they end.
import Mathlib.Algebra.BigOperators.Group.Finset.Basic
import Mathlib.Algebra.Order.BigOperators.Group.Finset
import Mathlib.Data.List.Nodup
import Mathlib.Logic.Relation
import Serberus.Lib.OrdSet

/-!
# Queue Searches

`flood` pops a node off the front of a queue. A node that it has seen is dropped; any
other is marked as seen, shown to `visit`, and its `expand` is pushed on the back. The
loop is given fuel. On a finite universe that is closed under `expand` there is a bound
on the fuel from which on it ends, and then it has seen exactly what the start nodes
reach, and has visited each of these nodes once.
-/

open Relation

namespace Flood

variable {α τ : Type*} [LinearOrder α]

/-- `none` when the fuel is used up. -/
def flood (visit : α → τ → τ) (expand : α → List α) :
    Nat → List α → OrdSet α → τ → Option (OrdSet α × τ)
  | 0, _, _, _ => none
  | _ + 1, [], seen, s => some (seen, s)
  | fuel + 1, u :: todo, seen, s =>
    if u ∈ seen then flood visit expand fuel todo seen s
    else flood visit expand fuel (todo ++ expand u) (seen.insert u) (visit u s)

variable {visit : α → τ → τ} {expand : α → List α} {start : List α} {U : Finset α} {fuel : Nat}

/-- The steps of the search. -/
def Step (expand : α → List α) (u v : α) : Prop := v ∈ expand u

/-- What holds between two pops: what is seen or queued is reached from the start, and a
start node or a successor of a seen node is queued unless it is seen. -/
structure Inv (expand : α → List α) (start todo : List α) (seen : OrdSet α) : Prop where
  reached : ∀ v, v ∈ todo ∨ v ∈ seen → ∃ s ∈ start, ReflTransGen (Step expand) s v
  start : ∀ s ∈ start, s ∈ todo ∨ s ∈ seen
  closed : ∀ u ∈ seen, ∀ v ∈ expand u, v ∈ todo ∨ v ∈ seen

theorem Inv.init (expand : α → List α) (start : List α) : Inv expand start start ∅ where
  reached v hv := ⟨v, hv.resolve_right (OrdSet.not_mem_empty v), .refl⟩
  start _ := .inl
  closed u hu := absurd hu (OrdSet.not_mem_empty u)

theorem Inv.drop {u : α} {todo : List α} {seen : OrdSet α} (h : Inv expand start (u :: todo) seen)
    (hu : u ∈ seen) : Inv expand start todo seen := by
  have hqueued {v : α} (hv : v ∈ u :: todo ∨ v ∈ seen) : v ∈ todo ∨ v ∈ seen := by
    rcases hv with hv | hv
    · rcases List.mem_cons.mp hv with rfl | hv
      · exact .inr hu
      · exact .inl hv
    · exact .inr hv
  exact ⟨fun v hv => h.reached v (hv.imp_left (.tail _)), fun s hs => hqueued (h.start s hs),
    fun w hw v hv => hqueued (h.closed w hw v hv)⟩

theorem Inv.pop {u : α} {todo : List α} {seen : OrdSet α}
    (h : Inv expand start (u :: todo) seen) :
    Inv expand start (todo ++ expand u) (seen.insert u) := by
  have hqueued {v : α} (hv : v ∈ u :: todo ∨ v ∈ seen) :
      v ∈ todo ++ expand u ∨ v ∈ seen.insert u := by
    rcases hv with hv | hv
    · rcases List.mem_cons.mp hv with rfl | hv
      · exact .inr (OrdSet.mem_insert.mpr (.inl rfl))
      · exact .inl (List.mem_append_left _ hv)
    · exact .inr (OrdSet.mem_insert.mpr (.inr hv))
  refine ⟨fun v hv => ?_, fun s hs => hqueued (h.start s hs), fun w hw v hv => ?_⟩
  · rcases hv with hv | hv
    · rcases List.mem_append.mp hv with hv | hv
      · exact h.reached v (.inl (.tail _ hv))
      · obtain ⟨s, hs, hsu⟩ := h.reached u (.inl (.head _))
        exact ⟨s, hs, hsu.tail hv⟩
    · rcases OrdSet.mem_insert.mp hv with rfl | hv
      · exact h.reached v (.inl (.head _))
      · exact h.reached v (.inr hv)
  · rcases OrdSet.mem_insert.mp hw with rfl | hw
    · exact .inl (List.mem_append_right _ hv)
    · exact hqueued (h.closed w hw v hv)

/-- The work left: the queue, and the successors of the nodes that are not seen yet. -/
def work (expand : α → List α) (U : Finset α) (todo : List α) (seen : OrdSet α) : Nat :=
  todo.length + ∑ u ∈ U.filter (· ∉ seen), (expand u).length

theorem work_pop {u : α} {todo : List α} {seen : OrdSet α} (hU : u ∈ U) (hu : u ∉ seen) :
    work expand U (todo ++ expand u) (seen.insert u) + 1 = work expand U (u :: todo) seen := by
  have hfilter : U.filter (· ∉ seen) = insert u (U.filter (· ∉ seen.insert u)) := by
    ext v
    by_cases hv : v = u <;> simp [hv, hU, hu]
  have hnot : u ∉ U.filter (· ∉ seen.insert u) := by simp
  simp only [work, hfilter, Finset.sum_insert hnot, List.length_append, List.length_cons]
  omega

/-- With enough fuel a search ends, with an empty queue; `order` is what it has visited. -/
theorem flood_inv {todo : List α} {seen : OrdSet α} {s : τ} (hU : ∀ u ∈ U, ∀ v ∈ expand u, v ∈ U)
    (htodo : ∀ u ∈ todo, u ∈ U) (hfuel : work expand U todo seen < fuel)
    (h : Inv expand start todo seen) :
    ∃ (seen' : OrdSet α) (order : List α), Inv expand start [] seen' ∧
      (∀ v, v ∈ seen' ↔ v ∈ seen ∨ v ∈ order) ∧
      flood visit expand fuel todo seen s = some (seen', order.foldl (fun s v => visit v s) s) := by
  induction fuel generalizing todo seen s with
  | zero => exact absurd hfuel (Nat.not_lt_zero _)
  | succ fuel ih =>
    cases todo with
    | nil => exact ⟨seen, [], h, by simp, rfl⟩
    | cons u todo =>
      obtain ⟨huU, htodo⟩ := List.forall_mem_cons.mp htodo
      unfold flood
      split_ifs with hu
      · refine ih htodo ?_ (h.drop hu)
        simp only [work, List.length_cons] at hfuel ⊢
        omega
      · have hwork : work expand U (todo ++ expand u) (seen.insert u) + 1 = _ := work_pop huU hu
        have htodo' : ∀ v ∈ todo ++ expand u, v ∈ U := fun v hv =>
          (List.mem_append.mp hv).elim (htodo v) (hU u huU v)
        obtain ⟨seen', order, hinv, hmem, hret⟩ := ih (s := visit u s) htodo' (by omega) h.pop
        refine ⟨seen', u :: order, hinv, fun v => ?_, hret⟩
        rw [hmem, OrdSet.mem_insert, List.mem_cons, or_assoc, or_left_comm]

/-- The fuel that a search needs. -/
def enough (expand : α → List α) (U : Finset α) (start : List α) : Nat :=
  start.length + ∑ u ∈ U, (expand u).length + 1

/-- A search with enough fuel sees and visits what its start nodes reach. -/
theorem flood_spec (visit : α → τ → τ) (s : τ) (hU : ∀ u ∈ U, ∀ v ∈ expand u, v ∈ U)
    (hstart : ∀ u ∈ start, u ∈ U) (hfuel : enough expand U start ≤ fuel) :
    ∃ (seen : OrdSet α) (order : List α), (∀ v, v ∈ order ↔ v ∈ seen) ∧
      (∀ v, v ∈ seen ↔ ∃ u ∈ start, ReflTransGen (Step expand) u v) ∧
      flood visit expand fuel start ∅ s = some (seen, order.foldl (fun s v => visit v s) s) := by
  have hwork : work expand U start ∅ < fuel := by
    simp only [work, OrdSet.not_mem_empty, not_false_eq_true, Finset.filter_true]
    exact hfuel
  obtain ⟨seen, order, hinv, hmem, hret⟩ :=
    flood_inv hU hstart hwork (Inv.init expand start)
  refine ⟨seen, order, fun v => by simp [hmem v], fun v => ⟨fun hv => ?_, ?_⟩, hret⟩
  · exact hinv.reached v (.inr hv)
  · rintro ⟨u, hu, huv⟩
    induction huv with
    | refl => exact (hinv.start u hu).resolve_left List.not_mem_nil
    | tail _ hstep ih => exact (hinv.closed _ ih _ hstep).resolve_left List.not_mem_nil

end Flood
