-- SUMMARY: The unfolding of a graph into the tree of its paths, and when no node occurs in it twice.
import Mathlib.Data.Finset.Card
import Mathlib.Data.List.Nodup
import Mathlib.Data.List.Pairwise
import Mathlib.Data.List.Perm.Basic
import Mathlib.Logic.Relation

/-!
# Unfoldings

The paths out of a node form a tree. When the graph has no cycle the tree is finite, and a
node occurs in it once for each path that leads to it. It occurs nowhere twice exactly if
no node is the target of two edges.
-/

open Relation

namespace Clou.Unfolding

variable {α : Type} {next : α → List α} {a b : α} {n : Nat}

/-- The nodes of the tree of paths out of a node, depth first. -/
def unfold (next : α → List α) : Nat → α → List α
  | 0, _ => []
  | n + 1, a => a :: (next a).flatMap (unfold next n)

/-- No path out of the node has more than `n` nodes. -/
def Short (next : α → List α) : Nat → α → Prop
  | 0, _ => False
  | n + 1, a => ∀ b ∈ next a, Short next n b

/-- There is an edge between two nodes. -/
def Step (next : α → List α) (a b : α) : Prop := b ∈ next a

/-- No node that can be reached is the target of two edges. -/
structure Unshared (next : α → List α) (a : α) : Prop where
  once : ∀ b, ReflTransGen (Step next) a b → (next b).Nodup
  apart : ∀ b c, ReflTransGen (Step next) a b → ReflTransGen (Step next) a c → b ≠ c →
    (next b).Disjoint (next c)

/-- Without cycles a path passes each node at most once. -/
theorem short_of_acyclic [DecidableEq α] {U : Finset α}
    (hU : ∀ b, TransGen (Step next) a b → b ∈ U)
    (hacyclic : ∀ b, ReflTransGen (Step next) a b → ¬ TransGen (Step next) b b)
    (hn : U.card < n) : Short next n a := by
  induction n generalizing a U with
  | zero => exact absurd hn (Nat.not_lt_zero _)
  | succ n ih =>
    intro b hb
    have hab : Step next a b := hb
    have hmem : b ∈ U := hU b (.single hab)
    refine ih (U := U.erase b) (fun c hc => ?_) (fun c hc => hacyclic c (.head hab hc)) ?_
    · -- What follows `b` is not `b` again.
      have hne : c ≠ b := fun heq => hacyclic b (.single hab) (heq ▸ hc)
      exact Finset.mem_erase.mpr ⟨hne, hU c (.head hab hc)⟩
    · rw [Finset.card_erase_of_mem hmem]
      have hpos : 0 < U.card := Finset.card_pos.mpr ⟨b, hmem⟩
      omega

/-- A tree of paths begins with its node. -/
theorem unfold_eq_cons (h : Short next n a) : unfold next n a = a :: (unfold next n a).tail := by
  cases n with
  | zero => exact absurd h id
  | succ n => rfl

theorem mem_unfold (h : Short next n a) :
    b ∈ unfold next n a ↔ ReflTransGen (Step next) a b := by
  induction n generalizing a with
  | zero => exact absurd h id
  | succ n ih =>
    rw [unfold, List.mem_cons, List.mem_flatMap, ReflTransGen.cases_head_iff, eq_comm]
    refine or_congr_right (exists_congr fun c => and_congr_right fun hc => ?_)
    exact ih (h c hc)

/-- Below its root the tree has one node for each edge out of one of its nodes. -/
theorem flatMap_next_perm (h : Short next n a) :
    ((unfold next n a).flatMap next).Perm (unfold next n a).tail := by
  induction n generalizing a with
  | zero => exact absurd h id
  | succ n ih =>
    have hcons : (next a).flatMap (unfold next n) =
        (next a).flatMap fun b => [b] ++ (unfold next n b).tail :=
      List.flatMap_congr fun b hb => unfold_eq_cons (h b hb)
    calc (unfold next (n + 1) a).flatMap next
        = next a ++ (next a).flatMap fun b => (unfold next n b).flatMap next := by
          rw [unfold, List.flatMap_cons, List.flatMap_assoc]
      List.Perm _ (next a ++ (next a).flatMap fun b => (unfold next n b).tail) := by
          exact (List.Perm.flatMap_left _ fun b hb => ih (h b hb)).append_left _
      List.Perm _ ((next a).flatMap (unfold next n)) := by
          rw [hcons]
          simpa using List.flatMap_append_perm (next a) (fun b => [b]) fun b => (unfold next n b).tail

/-- Lists of which one kind holds `c` once and the others do not hold it. -/
theorem count_flatMap_eq [DecidableEq α] {c : α} {l : List α}
    (h : ∀ x ∈ l, (next x).count c = if x = b then 1 else 0) :
    (l.flatMap next).count c = l.count b := by
  induction l with
  | nil => rfl
  | cons x l ih =>
    obtain ⟨hx, hl⟩ := List.forall_mem_cons.mp h
    rw [List.flatMap_cons, List.count_append, hx, ih hl, List.count_cons, Nat.add_comm]
    simp

/-- When the targets of edges are all different, a node other than the root occurs as often
as the one node that leads to it. -/
theorem count_unfold_of_step [DecidableEq α] {c : α} (h : Short next n a) (hunshared : Unshared next a)
    (hb : ReflTransGen (Step next) a b) (hc : c ∈ next b) (hne : c ≠ a) :
    (unfold next n a).count c = (unfold next n a).count b := by
  have hone (x : α) (hx : x ∈ unfold next n a) : (next x).count c = if x = b then 1 else 0 := by
    have hreach := (mem_unfold h).mp hx
    split_ifs with hxb
    · exact List.count_eq_one_of_mem (hunshared.once x hreach) (hxb ▸ hc)
    · exact List.count_eq_zero_of_not_mem fun hmem =>
        hunshared.apart x b hreach hb hxb hmem hc
  have hroot : (unfold next n a).count c = (unfold next n a).tail.count c := by
    conv_lhs => rw [unfold_eq_cons h]
    exact List.count_cons_of_ne hne.symm
  calc (unfold next n a).count c
      = ((unfold next n a).flatMap next).count c :=
        hroot.trans ((flatMap_next_perm h).count_eq c).symm
    _ = (unfold next n a).count b := count_flatMap_eq hone

/-- No node occurs twice in the tree exactly if none is the target of two edges. -/
theorem nodup_unfold_iff (h : Short next n a) (hroot : ¬ TransGen (Step next) a a) :
    (unfold next n a).Nodup ↔ Unshared next a := by
  classical
  constructor
  · intro hnodup
    have htail : (unfold next n a).tail.Nodup := (List.tail_sublist _).nodup hnodup
    obtain ⟨honce, hapart⟩ := List.nodup_flatMap.mp ((flatMap_next_perm h).nodup_iff.mpr htail)
    have hsymm : Std.Symm (Function.onFun List.Disjoint next) := ⟨fun _ _ hdisj => hdisj.symm⟩
    refine ⟨fun b hb => honce b ((mem_unfold h).mpr hb), fun b c hb hc hne => ?_⟩
    exact hapart.forall ((mem_unfold h).mpr hb) ((mem_unfold h).mpr hc) hne
  · intro hunshared
    have hcount (b : α) (hb : ReflTransGen (Step next) a b) : (unfold next n a).count b = 1 := by
      induction hb with
      | refl =>
        -- Nothing leads back to the root.
        rw [unfold_eq_cons h, List.count_cons_self, List.count_eq_zero_of_not_mem]
        intro hmem
        obtain ⟨b, hb, ha⟩ := List.mem_flatMap.mp ((flatMap_next_perm h).mem_iff.mpr hmem)
        exact hroot (.tail' ((mem_unfold h).mp hb) ha)
      | @tail b c hb hc ih =>
        have hne : c ≠ a := fun heq => hroot (.tail' hb (heq ▸ hc))
        exact (count_unfold_of_step h hunshared hb hc hne).trans ih
    exact List.nodup_iff_count_eq_one.mpr fun b hb => hcount b ((mem_unfold h).mp hb)

end Clou.Unfolding
