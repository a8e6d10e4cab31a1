-- SUMMARY: Predecessors of instructions by their position, and what becomes of them when an instruction is put before another one.
import Mathlib.Data.List.Count
import Serberus.ControlFlow.Function
import Serberus.Lib.Subdivision

/-!
# Inserting Instructions

The first instruction of a block has the jumps to the block as its predecessors, every
other one the instruction before it. So an instruction that is put before another one
takes over the predecessors of that one, and becomes its only predecessor.
-/

namespace Clou.ControlFlow

open Subdivision

variable {β ι : Type}

/-! ## Predecessors by Position -/

namespace CFG

variable {F : CFG β ι} {B P : BasicBlock β ι} {i j p : ι} {l : β}

theorem front_eq {l : List ι} (h : B.instructions = i :: l) : B.front = i := by
  have hhead := head?_instructions B
  rw [h] at hhead
  exact (Option.some.inj hhead).symm

theorem front_congr {B' : BasicBlock β ι} (h : B'.instructions = B.instructions) :
    B'.front = B.front := by
  have hhead := head?_instructions B'
  rw [h, head?_instructions] at hhead
  exact (Option.some.inj hhead).symm

/-- An instruction is the first of its block, or has one before it. -/
theorem front_or_next (hj : j ∈ B.instructions) :
    j = B.front ∨ ∃ pre p post, B.instructions = pre ++ p :: j :: post := by
  obtain ⟨pre, post, heq⟩ := List.append_of_mem hj
  induction pre using List.reverseRecOn with
  | nil => exact .inl (front_eq heq).symm
  | append_singleton pre p => exact .inr ⟨pre, p, post, by simp [heq]⟩

variable [DecidableEq β]

/-- The terminators that jump to `l`, once for each slot. -/
def jumpsTo (F : CFG β ι) (l : β) : List ι :=
  F.blocks.flatMap fun P => List.replicate (P.succs.count l) P.terminator

theorem mem_jumpsTo : i ∈ F.jumpsTo l ↔ ∃ P ∈ F.blocks, l ∈ P.succs ∧ i = P.terminator := by
  simp [jumpsTo, List.mem_flatMap, List.mem_replicate, List.count_eq_zero]

omit [DecidableEq β] in
/-- A block is determined by its terminator. -/
theorem terminators_nodup (F : CFG β ι) : (F.blocks.map (·.terminator)).Nodup := by
  refine List.Nodup.map_on (fun B hB P hP heq => ?_) (List.Nodup.of_map _ F.labels_nodup)
  exact block_unique hB hP (terminator_mem B) (heq ▸ terminator_mem P)

variable [DecidableEq ι]

/-- A terminator jumps to a label as often as its slots say. -/
theorem count_jumpsTo (hP : P ∈ F.blocks) : (F.jumpsTo l).count P.terminator = P.succs.count l := by
  have key {Bs : List (BasicBlock β ι)} (hnodup : (Bs.map (·.terminator)).Nodup) (hP : P ∈ Bs) :
      (Bs.flatMap fun B => List.replicate (B.succs.count l) B.terminator).count P.terminator =
        P.succs.count l := by
    induction Bs with
    | nil => cases hP
    | cons B Bs ih =>
      obtain ⟨hB, hnodup⟩ := List.nodup_cons.mp hnodup
      rw [List.flatMap_cons, List.count_append, List.count_replicate]
      rcases List.mem_cons.mp hP with rfl | hP
      · rw [if_pos (beq_self_eq_true _), Nat.add_eq_left, List.count_eq_zero]
        intro hmem
        obtain ⟨B', hB', hrep⟩ := List.mem_flatMap.mp hmem
        exact hB (List.mem_map.mpr ⟨B', hB', (List.mem_replicate.mp hrep).2.symm⟩)
      · have hne : B.terminator ≠ P.terminator := fun heq => hB (List.mem_map.mpr ⟨P, hP, heq.symm⟩)
        rw [if_neg (by simpa using hne), Nat.zero_add, ih hnodup hP]
  exact key F.terminators_nodup hP

theorem predecessors_next {pre post : List ι} (hB : B ∈ F.blocks)
    (h : B.instructions = pre ++ p :: j :: post) : F.predecessors j = [p] := by
  unfold predecessors
  rw [getPrevNode_eq hB h]

omit [DecidableEq β] in
theorem getPrevNode_front (hB : B ∈ F.blocks) : F.getPrevNode B.front = none := by
  rw [Option.eq_none_iff_forall_ne_some]
  intro p hp
  obtain ⟨B', hparent, hprev⟩ := Option.bind_eq_some_iff.mp hp
  obtain ⟨pre, post, heq⟩ := prevIn_eq_some hprev
  exact ne_front (parent_eq_some hparent).1 hB heq rfl

omit [DecidableEq ι] in
theorem map_back_predecessorBlocks : (F.predecessorBlocks B).map (·.back) = F.jumpsTo B.label := by
  simp only [predecessorBlocks, List.map_flatMap, List.map_map]
  unfold jumpsTo
  congr 1
  funext P
  rw [List.count_eq_countP, List.countP_eq_length_filter]
  exact List.map_const' ..

theorem predecessors_front (hB : B ∈ F.blocks) : F.predecessors B.front = F.jumpsTo B.label := by
  unfold predecessors
  rw [getPrevNode_front hB, parent_eq hB (front_mem B)]
  simp only [Option.toList_some, List.flatMap_cons, List.flatMap_nil, List.append_nil,
    map_back_predecessorBlocks]

/-- Only jumps lead to an instruction with several predecessors. -/
theorem exists_jump (hp : p ∈ F.predecessors j) (hlength : 1 < (F.predecessors j).length) :
    ∃ P ∈ F.blocks, ∃ B ∈ F.blocks, B.label ∈ P.succs ∧ p = P.terminator ∧ j = B.front := by
  obtain ⟨B, hB, hjB⟩ := mem_instructions.mp (mem_predecessors.mp hp).mem.2
  rcases front_or_next hjB with rfl | ⟨pre, i, post, h⟩
  · rw [predecessors_front hB] at hp
    obtain ⟨P, hP, hl, rfl⟩ := mem_jumpsTo.mp hp
    exact ⟨P, hP, B, hB, hl, rfl, rfl⟩
  · rw [predecessors_next hB h] at hlength
    exact absurd hlength (Nat.lt_irrefl 1)

/-- A terminator has a successor for each slot. -/
theorem length_successorsInst (hP : P ∈ F.blocks) :
    (F.successorsInst P.terminator).length = P.succs.length := by
  have key {ls : List β} (hls : ∀ l ∈ ls, l ∈ F.blocks.map (·.label)) :
      (ls.filterMap F.block?).length = ls.length := by
    induction ls with
    | nil => rfl
    | cons l ls ih =>
      obtain ⟨hl, hrest⟩ := List.forall_mem_cons.mp hls
      obtain ⟨B, hB, rfl⟩ := List.mem_map.mp hl
      rw [List.filterMap_cons_some (block?_eq hB), List.length_cons, List.length_cons, ih hrest]
  unfold successorsInst successorBlocks
  rw [find_terminator hP, Option.isSome_some, if_pos rfl, List.length_map]
  exact key (F.succs_mem P hP)

end CFG

/-! ## Putting an Instruction before Another -/

section InsertBefore

variable [DecidableEq ι] {x n i p : ι} {l pre post : List ι}

/-- `n` before `x` in a list. -/
def insertIn (x n : ι) (l : List ι) : List ι := l.flatMap fun i => if i = x then [n, i] else [i]

/-- `IRBuilder(x).Insert(n)`, in the block of `x`. -/
def BasicBlock.insertBefore (B : BasicBlock β ι) (x n : ι) : BasicBlock β ι :=
  { B with body := insertIn x n B.body ++ if B.terminator = x then [n] else [] }

@[simp] theorem insertIn_append (l l' : List ι) :
    insertIn x n (l ++ l') = insertIn x n l ++ insertIn x n l' := List.flatMap_append

theorem insertIn_cons_self (l : List ι) : insertIn x n (x :: l) = n :: x :: insertIn x n l := by
  simp [insertIn]

theorem insertIn_cons_of_ne (hi : i ≠ x) (l : List ι) :
    insertIn x n (i :: l) = i :: insertIn x n l := by
  simp [insertIn, hi]

theorem mem_insertIn : i ∈ insertIn x n l ↔ i ∈ l ∨ i = n ∧ x ∈ l := by
  simp only [insertIn, List.mem_flatMap]
  constructor
  · rintro ⟨j, hj, hi⟩
    split_ifs at hi with hjx
    · subst hjx
      rcases List.mem_cons.mp hi with rfl | hi
      · exact .inr ⟨rfl, hj⟩
      · exact .inl (List.mem_singleton.mp hi ▸ hj)
    · exact .inl (List.mem_singleton.mp hi ▸ hj)
  · rintro (hi | ⟨rfl, hx⟩)
    · exact ⟨i, hi, by split_ifs <;> simp⟩
    · exact ⟨x, hx, by simp⟩

/-- The element before another one stays before it, or before what is put there. -/
theorem insertIn_concat (l : List ι) (p : ι) : ∃ l', insertIn x n (l ++ [p]) = l' ++ [p] := by
  rw [insertIn_append]
  by_cases hp : p = x
  · exact ⟨insertIn x n l ++ [n], by simp [insertIn, hp]⟩
  · exact ⟨insertIn x n l, by simp [insertIn, hp]⟩

theorem insertIn_nodup (h : l.Nodup) (hn : n ∉ l) : (insertIn x n l).Nodup := by
  induction l with
  | nil => exact .nil
  | cons j l ih =>
    obtain ⟨hj, hl⟩ := List.nodup_cons.mp h
    obtain ⟨hnj, hnl⟩ := not_or.mp (mt List.mem_cons.mpr hn)
    have hrest := ih hl hnl
    by_cases hjx : j = x
    · subst hjx
      have hmem (i : ι) : i ∈ insertIn j n l ↔ i ∈ l := by
        rw [mem_insertIn]
        simp [hj]
      rw [insertIn_cons_self]
      refine List.nodup_cons.mpr ⟨?_, List.nodup_cons.mpr ⟨?_, hrest⟩⟩
      · rw [List.mem_cons, hmem]
        exact not_or.mpr ⟨hnj, hnl⟩
      · rwa [hmem]
    · rw [insertIn_cons_of_ne hjx]
      refine List.nodup_cons.mpr ⟨fun hmem => ?_, hrest⟩
      rcases mem_insertIn.mp hmem with hmem | ⟨rfl, -⟩
      · exact hj hmem
      · exact hnj rfl

namespace BasicBlock

variable {B : BasicBlock β ι}

@[simp] theorem label_insertBefore : (B.insertBefore x n).label = B.label := rfl

@[simp] theorem terminator_insertBefore : (B.insertBefore x n).terminator = B.terminator := rfl

@[simp] theorem succs_insertBefore : (B.insertBefore x n).succs = B.succs := rfl

@[simp] theorem instructions_insertBefore :
    (B.insertBefore x n).instructions = insertIn x n B.instructions := by
  unfold instructions insertBefore
  rw [insertIn_append, List.append_assoc]
  congr 1
  by_cases hx : B.terminator = x
  · simp [insertIn, hx]
  · simp [insertIn, hx]

end BasicBlock

theorem flatMap_insertBefore (Bs : List (BasicBlock β ι)) :
    (Bs.map (·.insertBefore x n)).flatMap (·.instructions) =
      insertIn x n (Bs.flatMap (·.instructions)) := by
  induction Bs with
  | nil => rfl
  | cons B Bs ih =>
    rw [List.map_cons, List.flatMap_cons, List.flatMap_cons, insertIn_append, ih,
      BasicBlock.instructions_insertBefore]

/-- A new instruction before `x`. -/
def CFG.insertBefore (F : CFG β ι) (x : ι) (n : {n // n ∉ F.instructions}) : CFG β ι where
  entry := F.entry.insertBefore x n
  rest := F.rest.map (·.insertBefore x n)
  labels_nodup := by
    have hlabels := F.labels_nodup
    simpa [Function.comp_def] using hlabels
  instructions_nodup := by
    change ((F.blocks.map (·.insertBefore x n)).flatMap (·.instructions)).Nodup
    rw [flatMap_insertBefore]
    exact insertIn_nodup F.instructions_nodup n.property
  succs_mem := by
    change ∀ P ∈ F.blocks.map (·.insertBefore x n), _
    intro P hP l hl
    obtain ⟨B, hB, rfl⟩ := List.mem_map.mp hP
    have hmem := F.succs_mem B hB l hl
    simpa [Function.comp_def] using hmem
  entry_not_succ := by
    change ∀ P ∈ F.blocks.map (·.insertBefore x n), _
    intro P hP
    obtain ⟨B, hB, rfl⟩ := List.mem_map.mp hP
    exact F.entry_not_succ B hB

namespace CFG

variable {F : CFG β ι} {B : BasicBlock β ι} {j : ι} {new : {n // n ∉ F.instructions}}

theorem blocks_insertBefore : (F.insertBefore x new).blocks = F.blocks.map (·.insertBefore x new) :=
  rfl

theorem instructions_insertBefore :
    (F.insertBefore x new).instructions = insertIn x new F.instructions :=
  flatMap_insertBefore F.blocks

theorem mem_insertBefore (hx : x ∈ F.instructions) :
    i ∈ (F.insertBefore x new).instructions ↔ i ∈ F.instructions ∨ i = new := by
  rw [instructions_insertBefore, mem_insertIn]
  simp [hx]

variable [DecidableEq β]

theorem jumpsTo_insertBefore (l : β) : (F.insertBefore x new).jumpsTo l = F.jumpsTo l := by
  unfold jumpsTo
  rw [blocks_insertBefore, List.flatMap_map]
  rfl

/-- An instruction that is put before another one takes over its predecessors. -/
theorem insertsBefore (hx : x ∈ F.instructions) :
    InsertsBefore F.predecessors (F.insertBefore x new).predecessors (· ∈ F.instructions) x
      [new.val] := by
  have hmem {B : BasicBlock β ι} (hB : B ∈ F.blocks) :
      B.insertBefore x new ∈ (F.insertBefore x new).blocks := by
    rw [blocks_insertBefore]
    exact List.mem_map_of_mem hB
  obtain ⟨B, hB, hxB⟩ := mem_instructions.mp hx
  obtain ⟨pre, post, heq⟩ := List.append_of_mem hxB
  have heq' : (B.insertBefore x new).instructions =
      insertIn x new pre ++ new.val :: x :: insertIn x new post := by
    rw [BasicBlock.instructions_insertBefore, heq, insertIn_append, insertIn_cons_self]
  refine .single new.property (.of_eq ?_) (.of_eq (predecessors_next (hmem hB) heq'))
    fun j hj hne => .of_eq ?_
  · induction pre using List.reverseRecOn with
    | nil =>
      obtain rfl := front_eq heq
      have hfront : (B.insertBefore B.front new).front = new.val := front_eq heq'
      rw [← hfront, predecessors_front (hmem hB), predecessors_front hB, jumpsTo_insertBefore]
      rfl
    | append_singleton pre p =>
      obtain ⟨pre', hpre'⟩ := insertIn_concat (x := x) (n := new) pre p
      rw [hpre', List.append_assoc] at heq'
      rw [List.append_assoc] at heq
      rw [predecessors_next (hmem hB) heq', predecessors_next hB heq]
  · obtain ⟨B, hB, hjB⟩ := mem_instructions.mp hj
    rcases front_or_next hjB with rfl | ⟨pre, p, post, heq⟩
    · obtain ⟨l, hl⟩ := List.head?_eq_some_iff.mp (head?_instructions B)
      have hfront : (B.insertBefore x new).front = B.front := by
        refine front_eq (l := insertIn x new l) ?_
        rw [BasicBlock.instructions_insertBefore, hl, insertIn_cons_of_ne hne]
      have hpreds := predecessors_front (hmem hB)
      rw [hfront] at hpreds
      rw [hpreds, predecessors_front hB, jumpsTo_insertBefore]
      rfl
    · obtain ⟨pre', hpre'⟩ := insertIn_concat (x := x) (n := new) pre p
      have heq' : (B.insertBefore x new).instructions = pre' ++ p :: j :: insertIn x new post := by
        rw [BasicBlock.instructions_insertBefore, heq, List.append_cons, insertIn_append, hpre',
          insertIn_cons_of_ne hne, List.append_assoc]
        rfl
      rw [predecessors_next (hmem hB) heq', predecessors_next hB heq]

end CFG

end InsertBefore

end Clou.ControlFlow
