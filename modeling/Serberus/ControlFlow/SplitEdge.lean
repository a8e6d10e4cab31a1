-- SUMMARY: What splitting an edge between two blocks does to the predecessors of the instructions.
import Serberus.ControlFlow.Insert

/-!
# Splitting Edges

`llvm::SplitEdge` splits a critical edge by a fresh block, and otherwise the block that
the edge leaves. The first puts the terminator of the fresh block on one of the edges
between two instructions, the second puts a new terminator before the old one.
-/

namespace Clou.ControlFlow

open Subdivision CFG

variable {β ι : Type}

/-! ## Splitting Edges -/

/-- `F'` is `F` after `llvm::SplitEdge(P, S)` of a critical edge: a fresh block `N` that jumps
to `S` has taken the place of `S` in the first slot of `P` that names it. -/
structure SplitsCritical [DecidableEq β] (F : CFG β ι) (P S : BasicBlock β ι) (F' : CFG β ι)
    (N : BasicBlock β ι) : Prop where
  label_fresh : N.label ∉ F.blocks.map (·.label)
  terminator_fresh : N.terminator ∉ F.instructions
  body : N.body = []
  succs : N.succs = [S.label]
  mem_blocks : ∀ Q, Q ∈ F'.blocks ↔
    Q = N ∨ Q = { P with succs := P.succs.replace S.label N.label } ∨ Q ∈ F.blocks ∧ Q ≠ P

/-- `F'` is `F` after `llvm::SplitEdge(P, S)` when `P` has a single successor: the terminator
of `P` has moved into a fresh block `N`, to which a new terminator `b` of `P` jumps. -/
structure SplitsBlock (F : CFG β ι) (P : BasicBlock β ι) (F' : CFG β ι) (N : BasicBlock β ι)
    (b : ι) : Prop where
  label_fresh : N.label ∉ F.blocks.map (·.label)
  terminator_fresh : b ∉ F.instructions
  body : N.body = []
  terminator : N.terminator = P.terminator
  succs : N.succs = P.succs
  mem_blocks : ∀ Q, Q ∈ F'.blocks ↔
    Q = N ∨ Q = { P with terminator := b, succs := [N.label] } ∨ Q ∈ F.blocks ∧ Q ≠ P

theorem replace_perm [DecidableEq β] {l : List β} {a b : β} (ha : a ∈ l) :
    (l.replace a b).Perm (b :: l.erase a) := by
  induction l with
  | nil => cases ha
  | cons c l ih =>
    by_cases hc : c = a
    · rw [hc, List.replace_cons_self, List.erase_cons_head]
    · have hne : (a == c) = false := by simpa using Ne.symm hc
      have hne' : (c == a) = false := by simpa using hc
      have hl := ih ((List.mem_cons.mp ha).resolve_left (Ne.symm hc))
      rw [List.replace_cons, hne, List.erase_cons_tail (by simpa using hne')]
      exact (hl.cons c).trans (.swap b c _)

namespace CFG

variable [DecidableEq β] [DecidableEq ι] {F F' : CFG β ι} {P S N B B' : BasicBlock β ι} {i j : ι} {l : β}

/-- The predecessors inside a block depend on its instructions only, those of its first
instruction on the jumps to it. -/
theorem predecessors_perm (hB : B ∈ F.blocks) (hB' : B' ∈ F'.blocks)
    (hinstrs : B'.instructions = B.instructions)
    (hjumps : j = B.front → (F'.jumpsTo B'.label).Perm (F.jumpsTo B.label))
    (hj : j ∈ B.instructions) : (F'.predecessors j).Perm (F.predecessors j) := by
  rcases front_or_next hj with rfl | ⟨pre, p, post, heq⟩
  · rw [predecessors_front hB, ← front_congr hinstrs, predecessors_front hB']
    exact hjumps rfl
  · rw [predecessors_next hB heq, predecessors_next hB' (hinstrs.trans heq)]

theorem count_jumpsTo_of_ne (h : ∀ P ∈ F.blocks, i ≠ P.terminator) : (F.jumpsTo l).count i = 0 := by
  rw [List.count_eq_zero, mem_jumpsTo]
  rintro ⟨P, hP, -, hi⟩
  exact h P hP hi

omit [DecidableEq ι] in
theorem jumpsTo_fresh (hl : l ∉ F.blocks.map (·.label)) : F.jumpsTo l = [] := by
  refine List.eq_nil_iff_forall_not_mem.mpr fun i hi => ?_
  obtain ⟨P, hP, hmem, -⟩ := mem_jumpsTo.mp hi
  exact hl (F.succs_mem P hP l hmem)

end CFG

section Split

variable {F F' : CFG β ι} {P S N B : BasicBlock β ι} {b i j : ι} {l : β}

theorem SplitsBlock.fresh_mem (h : SplitsBlock F P F' N b) : N ∈ F'.blocks :=
  (h.mem_blocks N).mpr (.inl rfl)

theorem SplitsBlock.front_fresh (h : SplitsBlock F P F' N b) : N.front = P.terminator := by
  unfold BasicBlock.front
  rw [h.body, ← h.terminator]
  rfl

/-- The block that has lost its terminator. -/
theorem SplitsBlock.upper_mem (h : SplitsBlock F P F' N b) :
    { P with terminator := b, succs := [N.label] } ∈ F'.blocks :=
  (h.mem_blocks _).mpr (.inr (.inl rfl))

theorem SplitsBlock.ne_terminator (h : SplitsBlock F P F' N b) (hB : B ∈ F.blocks) :
    b ≠ B.terminator :=
  fun heq => h.terminator_fresh (mem_instructions.mpr ⟨B, hB, heq ▸ terminator_mem B⟩)

variable [DecidableEq β]

theorem SplitsCritical.fresh_mem (h : SplitsCritical F P S F' N) : N ∈ F'.blocks :=
  (h.mem_blocks N).mpr (.inl rfl)

theorem SplitsCritical.front_fresh (h : SplitsCritical F P S F' N) : N.front = N.terminator := by
  unfold BasicBlock.front
  rw [h.body]
  rfl

theorem SplitsCritical.ne_fresh (h : SplitsCritical F P S F' N) (hB : B ∈ F.blocks) :
    B.label ≠ N.label ∧ N.terminator ≠ B.terminator :=
  ⟨fun heq => h.label_fresh (heq ▸ List.mem_map_of_mem hB),
    fun heq => h.terminator_fresh (mem_instructions.mpr ⟨B, hB, heq ▸ terminator_mem B⟩)⟩

variable [DecidableEq ι]

namespace SplitsCritical

variable (h : SplitsCritical F P S F' N)

include h

/-- The blocks keep their labels and instructions. -/
theorem twin (hB : B ∈ F.blocks) : ∃ B' ∈ F'.blocks, B'.label = B.label ∧
    B'.instructions = B.instructions ∧ B'.terminator = B.terminator ∧
    B'.succs = if B = P then P.succs.replace S.label N.label else B.succs := by
  by_cases hBP : B = P
  · subst hBP
    refine ⟨_, (h.mem_blocks _).mpr (.inr (.inl rfl)), rfl, rfl, rfl, ?_⟩
    rw [if_pos rfl]
  · refine ⟨B, (h.mem_blocks _).mpr (.inr (.inr ⟨hB, hBP⟩)), rfl, rfl, rfl, ?_⟩
    rw [if_neg hBP]

theorem count_jumpsTo_new : (F'.jumpsTo l).count N.terminator = [S.label].count l := by
  rw [count_jumpsTo h.fresh_mem, h.succs]

/-- Of the old jumps only those of `P` have changed. -/
theorem count_jumpsTo_old (hP : P ∈ F.blocks) (hl : S.label ∈ P.succs) (hi : i ≠ N.terminator) :
    (F'.jumpsTo l).count i =
      if i = P.terminator then (N.label :: P.succs.erase S.label).count l
      else (F.jumpsTo l).count i := by
  by_cases hB : ∃ B ∈ F.blocks, i = B.terminator
  · obtain ⟨B, hB, rfl⟩ := hB
    obtain ⟨B', hB', -, -, hterm, hsuccs⟩ := h.twin hB
    have heq : B.terminator = P.terminator ↔ B = P :=
      ⟨fun heq => block_unique hB hP (terminator_mem B) (heq ▸ terminator_mem P), fun heq => heq ▸ rfl⟩
    rw [← hterm, count_jumpsTo hB', hterm, hsuccs, count_jumpsTo hB, ← (replace_perm hl).count_eq]
    simp only [heq]
    split_ifs <;> rfl
  · have hne (B : BasicBlock β ι) (hB' : B ∈ F.blocks) : i ≠ B.terminator :=
      fun heq => hB ⟨B, hB', heq⟩
    rw [if_neg (hne P hP), count_jumpsTo_of_ne hne, count_jumpsTo_of_ne]
    intro Q hQ
    rcases (h.mem_blocks Q).mp hQ with rfl | rfl | ⟨hQ, -⟩
    · exact hi
    · exact hne P hP
    · exact hne Q hQ

/-- Nothing else jumps to the fresh block. -/
theorem jumpsTo_new (hP : P ∈ F.blocks) (hS : S ∈ F.blocks) (hl : S.label ∈ P.succs) :
    (F'.jumpsTo N.label).Perm [P.terminator] := by
  refine List.perm_iff_count.mpr fun i => ?_
  by_cases hi : i = N.terminator
  · subst hi
    rw [h.count_jumpsTo_new, List.count_eq_zero.mpr, List.count_eq_zero.mpr]
    · simpa using (h.ne_fresh hP).2
    · simpa using (h.ne_fresh hS).1.symm
  · rw [h.count_jumpsTo_old hP hl hi, jumpsTo_fresh h.label_fresh]
    have hfresh : N.label ∉ P.succs.erase S.label := fun hmem =>
      h.label_fresh (F.succs_mem P hP _ (List.mem_of_mem_erase hmem))
    split_ifs with hiP
    · subst hiP
      rw [List.count_cons_self, List.count_eq_zero.mpr hfresh, List.count_singleton_self]
    · rw [List.count_cons_of_ne (Ne.symm hiP)]

/-- The fresh block has taken over one jump to `S`. -/
theorem jumpsTo_target (hP : P ∈ F.blocks) (hS : S ∈ F.blocks) (hl : S.label ∈ P.succs) :
    (F'.jumpsTo S.label).Perm (N.terminator :: (F.jumpsTo S.label).erase P.terminator) := by
  refine List.perm_iff_count.mpr fun i => ?_
  obtain ⟨hlabel, hterm⟩ := h.ne_fresh hS
  by_cases hi : i = N.terminator
  · subst hi
    have hfresh : N.terminator ∉ (F.jumpsTo S.label).erase P.terminator := by
      intro hmem
      obtain ⟨B, hB, -, heq⟩ := mem_jumpsTo.mp (List.mem_of_mem_erase hmem)
      exact (h.ne_fresh hB).2 heq
    rw [h.count_jumpsTo_new, List.count_singleton_self, List.count_cons_self,
      List.count_eq_zero.mpr hfresh]
  · rw [h.count_jumpsTo_old hP hl hi, List.count_cons_of_ne (Ne.symm hi)]
    split_ifs with hiP
    · subst hiP
      rw [List.count_cons_of_ne hlabel.symm, List.count_erase_self, List.count_erase_self,
        count_jumpsTo hP]
    · rw [List.count_erase_of_ne hiP]

theorem jumpsTo_same (hP : P ∈ F.blocks) (hB : B ∈ F.blocks) (hl : S.label ∈ P.succs)
    (hne : B.label ≠ S.label) : (F'.jumpsTo B.label).Perm (F.jumpsTo B.label) := by
  refine List.perm_iff_count.mpr fun i => ?_
  by_cases hi : i = N.terminator
  · subst hi
    rw [h.count_jumpsTo_new, count_jumpsTo_of_ne fun Q hQ => (h.ne_fresh hQ).2,
      List.count_cons_of_ne hne.symm, List.count_nil]
  · rw [h.count_jumpsTo_old hP hl hi]
    split_ifs with hiP
    · subst hiP
      rw [List.count_cons_of_ne (h.ne_fresh hB).1.symm, List.count_erase_of_ne hne, count_jumpsTo hP]
    · rfl

/-- The terminator of the fresh block is the only new instruction. -/
theorem mem_iff (hP : P ∈ F.blocks) :
    i ∈ F'.instructions ↔ i ∈ F.instructions ∨ i = N.terminator := by
  constructor
  · intro hi
    obtain ⟨Q, hQ, hiQ⟩ := mem_instructions.mp hi
    rcases (h.mem_blocks Q).mp hQ with rfl | rfl | ⟨hQ, -⟩
    · unfold BasicBlock.instructions at hiQ
      rw [h.body] at hiQ
      exact .inr (List.mem_singleton.mp hiQ)
    · exact .inl (mem_instructions.mpr ⟨P, hP, hiQ⟩)
    · exact .inl (mem_instructions.mpr ⟨Q, hQ, hiQ⟩)
  · rintro (hi | rfl)
    · obtain ⟨B, hB, hiB⟩ := mem_instructions.mp hi
      obtain ⟨B', hB', -, hinstrs, -⟩ := h.twin hB
      exact mem_instructions.mpr ⟨B', hB', hinstrs ▸ hiB⟩
    · exact mem_instructions.mpr ⟨N, h.fresh_mem, terminator_mem N⟩

/-- Splitting a critical edge subdivides it by the terminator of the fresh block. -/
theorem subdivides (hP : P ∈ F.blocks) (hS : S ∈ F.blocks) (hl : S.label ∈ P.succs) :
    Subdivides F.predecessors F'.predecessors (· ∈ F.instructions) P.terminator S.front
      [N.terminator] where
  fresh := by
    intro i hi
    rw [List.mem_singleton.mp hi]
    exact h.terminator_fresh
  line := by
    refine ⟨?_, trivial⟩
    rw [← h.front_fresh, predecessors_front h.fresh_mem]
    exact h.jumpsTo_new hP hS hl
  mem := by
    rw [predecessors_front hS]
    exact mem_jumpsTo.mpr ⟨P, hP, hl, rfl⟩
  target := by
    obtain ⟨S', hS', hlabel, hinstrs, -⟩ := h.twin hS
    rw [predecessors_front hS, ← front_congr hinstrs, predecessors_front hS', hlabel]
    exact h.jumpsTo_target hP hS hl
  same := by
    intro j hj hne
    obtain ⟨B, hB, hjB⟩ := mem_instructions.mp hj
    obtain ⟨B', hB', hlabel, hinstrs, -⟩ := h.twin hB
    refine predecessors_perm hB hB' hinstrs (fun hfront => ?_) hjB
    rw [hlabel]
    refine h.jumpsTo_same hP hB hl fun heq => hne ?_
    rw [hfront, block_of_label hB hS heq]

end SplitsCritical

namespace SplitsBlock

variable (h : SplitsBlock F P F' N b)

include h

/-- The old terminators jump as before. -/
theorem count_jumpsTo (hP : P ∈ F.blocks) (l : β) (i : ι) :
    (F'.jumpsTo l).count i = if i = b then [N.label].count l else (F.jumpsTo l).count i := by
  split_ifs with hib
  · subst hib
    exact CFG.count_jumpsTo h.upper_mem
  · by_cases hB : ∃ B ∈ F.blocks, i = B.terminator
    · obtain ⟨B, hB, rfl⟩ := hB
      rw [CFG.count_jumpsTo hB]
      by_cases hBP : B = P
      · subst hBP
        rw [← h.terminator, CFG.count_jumpsTo h.fresh_mem, h.succs]
      · exact CFG.count_jumpsTo ((h.mem_blocks B).mpr (.inr (.inr ⟨hB, hBP⟩)))
    · have hne (B : BasicBlock β ι) (hB' : B ∈ F.blocks) : i ≠ B.terminator :=
        fun heq => hB ⟨B, hB', heq⟩
      rw [count_jumpsTo_of_ne hne, count_jumpsTo_of_ne]
      intro Q hQ
      rcases (h.mem_blocks Q).mp hQ with rfl | rfl | ⟨hQ, -⟩
      · rw [h.terminator]
        exact hne P hP
      · exact hib
      · exact hne Q hQ

theorem jumpsTo_same (hP : P ∈ F.blocks) (hB : B ∈ F.blocks) :
    (F'.jumpsTo B.label).Perm (F.jumpsTo B.label) := by
  refine List.perm_iff_count.mpr fun i => ?_
  rw [h.count_jumpsTo hP]
  split_ifs with hib
  · subst hib
    have hne : N.label ≠ B.label := fun heq => h.label_fresh (heq ▸ List.mem_map_of_mem hB)
    rw [List.count_cons_of_ne hne, List.count_nil, count_jumpsTo_of_ne fun Q hQ => h.ne_terminator hQ]
  · rfl

theorem jumpsTo_new (hP : P ∈ F.blocks) : (F'.jumpsTo N.label).Perm [b] := by
  refine List.perm_iff_count.mpr fun i => ?_
  rw [h.count_jumpsTo hP, jumpsTo_fresh h.label_fresh]
  split_ifs with hib
  · subst hib
    rw [List.count_singleton_self, List.count_singleton_self]
  · rw [List.count_cons_of_ne (Ne.symm hib)]

/-- The new terminator is the only new instruction. -/
theorem mem_iff (hP : P ∈ F.blocks) : i ∈ F'.instructions ↔ i ∈ F.instructions ∨ i = b := by
  constructor
  · intro hi
    obtain ⟨Q, hQ, hiQ⟩ := mem_instructions.mp hi
    rcases (h.mem_blocks Q).mp hQ with rfl | rfl | ⟨hQ, -⟩
    · unfold BasicBlock.instructions at hiQ
      rw [h.body, h.terminator] at hiQ
      exact .inl (mem_instructions.mpr ⟨P, hP, List.mem_append_right _ hiQ⟩)
    · rcases List.mem_append.mp hiQ with hiQ | hiQ
      · exact .inl (mem_instructions.mpr ⟨P, hP, List.mem_append_left _ hiQ⟩)
      · exact .inr (List.mem_singleton.mp hiQ)
    · exact .inl (mem_instructions.mpr ⟨Q, hQ, hiQ⟩)
  · rintro (hi | rfl)
    · obtain ⟨B, hB, hiB⟩ := mem_instructions.mp hi
      by_cases hBP : B = P
      · subst hBP
        rcases List.mem_append.mp hiB with hiB | hiB
        · exact mem_instructions.mpr ⟨_, h.upper_mem, List.mem_append_left _ hiB⟩
        · obtain rfl := List.mem_singleton.mp hiB
          exact mem_instructions.mpr ⟨N, h.fresh_mem, h.terminator ▸ terminator_mem N⟩
      · exact mem_instructions.mpr ⟨B, (h.mem_blocks B).mpr (.inr (.inr ⟨hB, hBP⟩)), hiB⟩
    · exact mem_instructions.mpr ⟨_, h.upper_mem, terminator_mem _⟩

/-- Splitting a block puts the new terminator before the old one. -/
theorem insertsBefore (hP : P ∈ F.blocks) :
    InsertsBefore F.predecessors F'.predecessors (· ∈ F.instructions) P.terminator [b] := by
  refine .single h.terminator_fresh ?_ ?_ fun j hj hne => ?_
  · rcases List.eq_nil_or_concat' P.body with hbody | ⟨pre, p, hbody⟩
    · have hfront : P.front = P.terminator := front_eq (show P.instructions = [P.terminator] by
        rw [BasicBlock.instructions, hbody, List.nil_append])
      have hupper : BasicBlock.front { P with terminator := b, succs := [N.label] } = b :=
        front_eq (show BasicBlock.instructions { P with terminator := b, succs := [N.label] } = [b] by
          rw [BasicBlock.instructions, hbody, List.nil_append])
      have hpreds := predecessors_front h.upper_mem
      rw [hupper] at hpreds
      rw [hpreds, ← hfront, predecessors_front hP]
      have hjumps := h.jumpsTo_same hP hP
      exact hjumps
    · have hinstrs : P.instructions = pre ++ p :: P.terminator :: [] := by
        rw [BasicBlock.instructions, hbody, List.append_assoc]
        rfl
      have hupper : BasicBlock.instructions { P with terminator := b, succs := [N.label] } =
          pre ++ p :: b :: [] := by
        rw [BasicBlock.instructions, hbody, List.append_assoc]
        rfl
      rw [predecessors_next h.upper_mem hupper, predecessors_next hP hinstrs]
  · rw [← h.front_fresh, predecessors_front h.fresh_mem]
    exact h.jumpsTo_new hP
  · obtain ⟨B, hB, hjB⟩ := mem_instructions.mp hj
    by_cases hBP : B = P
    · subst hBP
      have hjbody : j ∈ B.body :=
        (List.mem_append.mp hjB).resolve_right fun hin => hne (List.mem_singleton.mp hin)
      obtain ⟨pre, post, hbody⟩ := List.append_of_mem hjbody
      have hinstrs (t : ι) (ls : List β) :
          BasicBlock.instructions { B with terminator := t, succs := ls } = pre ++ j :: (post ++ [t]) := by
        rw [BasicBlock.instructions, hbody, List.append_assoc]
        rfl
      rcases List.eq_nil_or_concat' pre with rfl | ⟨pre, p, rfl⟩
      · have hpreds := predecessors_front h.upper_mem
        rw [front_eq (hinstrs b [N.label])] at hpreds
        have hpreds' := predecessors_front hB
        rw [front_eq (hinstrs B.terminator B.succs)] at hpreds'
        rw [hpreds, hpreds']
        have hjumps := h.jumpsTo_same hP hB
        exact hjumps
      · have hinstrs' (t : ι) (ls : List β) :
            BasicBlock.instructions { B with terminator := t, succs := ls } =
              pre ++ p :: j :: (post ++ [t]) := by
          rw [hinstrs, List.append_assoc]
          rfl
        rw [predecessors_next h.upper_mem (hinstrs' b [N.label]),
          predecessors_next hB (hinstrs' B.terminator B.succs)]
    · exact predecessors_perm hB ((h.mem_blocks B).mpr (.inr (.inr ⟨hB, hBP⟩))) rfl
        (fun _ => h.jumpsTo_same hP hB) hjB

end SplitsBlock

end Split

end Clou.ControlFlow
