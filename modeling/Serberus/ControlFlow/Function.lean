-- SUMMARY: Functions as control-flow graphs of instructions: blocks, successors and predecessors of an instruction, and that these are converse.
import Mathlib.Data.List.Nodup
import Mathlib.Logic.Relation
import Serberus.Lib.OrdSet

/-!
# Control Flow

A function is a list of blocks, the entry block first. A block is a list of instructions
with a terminator at its end, and the terminator has a slot for each way out of it;
several slots can name the same block. No block jumps to the entry block.
-/

namespace Clou.ControlFlow

structure BasicBlock (β ι : Type) where
  label : β
  /-- The instructions before the terminator. -/
  body : List ι
  terminator : ι
  /-- The successor slots of the terminator. -/
  succs : List β
  deriving DecidableEq

namespace BasicBlock

variable {β ι : Type}

def instructions (B : BasicBlock β ι) : List ι := B.body ++ [B.terminator]

def front (B : BasicBlock β ι) : ι := B.body.headD B.terminator

def back (B : BasicBlock β ι) : ι := B.terminator

end BasicBlock

structure CFG (β ι : Type) where
  /-- `F.getEntryBlock()` -/
  entry : BasicBlock β ι
  rest : List (BasicBlock β ι)
  labels_nodup : ((entry :: rest).map (·.label)).Nodup
  instructions_nodup : ((entry :: rest).flatMap (·.instructions)).Nodup
  succs_mem : ∀ P ∈ entry :: rest, ∀ l ∈ P.succs, l ∈ (entry :: rest).map (·.label)
  entry_not_succ : ∀ P ∈ entry :: rest, entry.label ∉ P.succs

/-- The instruction behind `i` in a list. -/
def nextIn {ι : Type} [DecidableEq ι] : List ι → ι → Option ι
  | i :: j :: l, k => if i = k then some j else nextIn (j :: l) k
  | _, _ => none

/-- The instruction before `j` in a list. -/
def prevIn {ι : Type} [DecidableEq ι] : List ι → ι → Option ι
  | i :: j :: l, k => if j = k then some i else prevIn (j :: l) k
  | _, _ => none

namespace CFG

variable {β ι : Type} (F : CFG β ι)

def blocks : List (BasicBlock β ι) := F.entry :: F.rest

def instructions : List ι := F.blocks.flatMap (·.instructions)

/-- `F.getEntryBlock().front()` -/
def first : ι := F.entry.front

variable [DecidableEq β] [DecidableEq ι]

def block? (l : β) : Option (BasicBlock β ι) := F.blocks.find? (·.label = l)

/-- `I->getParent()` -/
def parent (i : ι) : Option (BasicBlock β ι) := F.blocks.find? (i ∈ ·.instructions)

/-- `I->getNextNode()` -/
def getNextNode (i : ι) : Option ι := (F.parent i).bind fun B => nextIn B.instructions i

/-- `I->getPrevNode()` -/
def getPrevNode (i : ι) : Option ι := (F.parent i).bind fun B => prevIn B.instructions i

/-- `llvm::successors(I)`: the blocks that the slots of a terminator name. -/
def successorBlocks (i : ι) : List (BasicBlock β ι) :=
  match F.blocks.find? (·.terminator = i) with
  | some B => B.succs.filterMap F.block?
  | none => []

/-- `llvm::predecessors(B)`: the blocks with a slot that names `B`, once for each slot. -/
def predecessorBlocks (B : BasicBlock β ι) : List (BasicBlock β ι) :=
  F.blocks.flatMap fun P => (P.succs.filter (· = B.label)).map fun _ => P

/-- `llvm::predecessors(I)` -/
def predecessors (i : ι) : List ι :=
  match F.getPrevNode i with
  | some pred => [pred]
  | none => (F.parent i).toList.flatMap fun B => (F.predecessorBlocks B).map (·.back)

/-- `llvm::successors_inst(I)` -/
def successorsInst (i : ι) : List ι :=
  if (F.blocks.find? (·.terminator = i)).isSome then (F.successorBlocks i).map (·.front)
  else (F.getNextNode i).toList

end CFG

/-! ## Edges -/

/-- Control may pass from one instruction directly to another. -/
inductive CFG.Edge {β ι : Type} (F : CFG β ι) : ι → ι → Prop
  | next {B : BasicBlock β ι} {pre post : List ι} {i j : ι} (hB : B ∈ F.blocks)
      (h : B.instructions = pre ++ i :: j :: post) : Edge F i j
  | jump {P B : BasicBlock β ι} (hP : P ∈ F.blocks) (hB : B ∈ F.blocks)
      (h : B.label ∈ P.succs) : Edge F P.terminator B.front

section Lists

variable {ι : Type} [DecidableEq ι] {l pre post : List ι} {i j : ι}

theorem nextIn_append (hnodup : (pre ++ i :: j :: post).Nodup) :
    nextIn (pre ++ i :: j :: post) i = some j := by
  induction pre with
  | nil => simp [nextIn]
  | cons a pre ih =>
    obtain ⟨ha, hnodup⟩ := List.nodup_cons.mp hnodup
    have hne : a ≠ i := fun h => ha (by simp [h])
    cases pre with
    | nil => simp [nextIn, hne]
    | cons b pre => simpa [nextIn, hne] using ih hnodup

theorem prevIn_append (hnodup : (pre ++ i :: j :: post).Nodup) :
    prevIn (pre ++ i :: j :: post) j = some i := by
  induction pre with
  | nil => simp [prevIn]
  | cons a pre ih =>
    obtain ⟨ha, hnodup⟩ := List.nodup_cons.mp hnodup
    cases pre with
    | nil =>
      have hne : i ≠ j := fun h => by simp [h] at hnodup
      simp [prevIn, hne]
    | cons b pre =>
      have hne : b ≠ j := fun h => by simp [h] at hnodup
      simpa [prevIn, hne] using ih hnodup

theorem nextIn_eq_some (h : nextIn l i = some j) : ∃ pre post, l = pre ++ i :: j :: post := by
  induction l with
  | nil => simp [nextIn] at h
  | cons a l ih =>
    cases l with
    | nil => simp [nextIn] at h
    | cons b l =>
      unfold nextIn at h
      split_ifs at h with ha
      · cases h
        exact ⟨[], l, by simp [ha]⟩
      · obtain ⟨pre, post, heq⟩ := ih h
        exact ⟨a :: pre, post, by rw [heq, List.cons_append]⟩

theorem prevIn_eq_some (h : prevIn l j = some i) : ∃ pre post, l = pre ++ i :: j :: post := by
  induction l with
  | nil => simp [prevIn] at h
  | cons a l ih =>
    cases l with
    | nil => simp [prevIn] at h
    | cons b l =>
      unfold prevIn at h
      split_ifs at h with hb
      · cases h
        exact ⟨[], l, by simp [hb]⟩
      · obtain ⟨pre, post, heq⟩ := ih h
        exact ⟨a :: pre, post, by rw [heq, List.cons_append]⟩

/-- Nothing stands before an element only when it is the first. -/
theorem prevIn_eq_none (h : prevIn l j = none) (hj : j ∈ l) : l.head? = some j := by
  induction l with
  | nil => cases hj
  | cons a l ih =>
    cases l with
    | nil => simpa using (List.mem_singleton.mp hj).symm
    | cons b l =>
      unfold prevIn at h
      split_ifs at h with hb
      rcases List.mem_cons.mp hj with rfl | hj
      · rfl
      · exact absurd (by simpa using ih h hj) hb

end Lists

namespace CFG

variable {β ι : Type} {F : CFG β ι} {B P : BasicBlock β ι} {i j : ι}

theorem mem_instructions : i ∈ F.instructions ↔ ∃ B ∈ F.blocks, i ∈ B.instructions :=
  List.mem_flatMap

theorem terminator_mem (B : BasicBlock β ι) : B.terminator ∈ B.instructions :=
  List.mem_append_right _ (.head _)

theorem head?_instructions (B : BasicBlock β ι) : B.instructions.head? = some B.front := by
  unfold BasicBlock.instructions BasicBlock.front
  cases B.body <;> rfl

theorem front_mem (B : BasicBlock β ι) : B.front ∈ B.instructions :=
  List.mem_of_mem_head? (head?_instructions B)

theorem first_mem : F.first ∈ F.instructions :=
  mem_instructions.mpr ⟨F.entry, .head _, front_mem _⟩

/-- An instruction is in one block only. -/
theorem block_unique (hB : B ∈ F.blocks) (hP : P ∈ F.blocks) (hiB : i ∈ B.instructions)
    (hiP : i ∈ P.instructions) : B = P := by
  have hnodup : (F.blocks.flatMap (·.instructions)).Nodup := F.instructions_nodup
  rw [List.nodup_flatMap] at hnodup
  by_contra hne
  have hsymm : Std.Symm (Function.onFun List.Disjoint fun B : BasicBlock β ι => B.instructions) :=
    ⟨fun _ _ h => h.symm⟩
  exact List.disjoint_left.mp (hnodup.2.forall hB hP hne) hiB hiP

theorem instructions_nodup_of (hB : B ∈ F.blocks) : B.instructions.Nodup := by
  have hnodup : (F.blocks.flatMap (·.instructions)).Nodup := F.instructions_nodup
  exact (List.nodup_flatMap.mp hnodup).1 B hB

/-- A block is determined by its label. -/
theorem block_of_label (hB : B ∈ F.blocks) (hP : P ∈ F.blocks) (h : B.label = P.label) : B = P :=
  List.inj_on_of_nodup_map F.labels_nodup hB hP h

/-- An edge leads from an instruction of the function to another. -/
theorem Edge.mem (h : F.Edge i j) : i ∈ F.instructions ∧ j ∈ F.instructions := by
  cases h with
  | next hB h =>
    exact ⟨mem_instructions.mpr ⟨_, hB, by simp [h]⟩, mem_instructions.mpr ⟨_, hB, by simp [h]⟩⟩
  | jump hP hB _ =>
    exact ⟨mem_instructions.mpr ⟨_, hP, terminator_mem _⟩, mem_instructions.mpr ⟨_, hB, front_mem _⟩⟩

/-- What stands before another instruction of its block is no terminator. -/
theorem ne_terminator {pre post : List ι} (hB : B ∈ F.blocks) (hP : P ∈ F.blocks)
    (h : B.instructions = pre ++ i :: j :: post) : i ≠ P.terminator := by
  rintro rfl
  obtain rfl := block_unique hB hP (by simp [h]) (terminator_mem P)
  have hnodup := instructions_nodup_of hB
  have hlast : B.instructions.getLast? = some B.terminator := by simp [BasicBlock.instructions]
  rw [h, List.getLast?_append_cons, List.getLast?_cons_cons] at hlast
  rw [h, List.nodup_append, List.nodup_cons] at hnodup
  exact hnodup.2.1.1 (List.mem_of_getLast? hlast)

/-- What stands behind another instruction of its block is at the front of none. -/
theorem ne_front {pre post : List ι} (hB : B ∈ F.blocks) (hP : P ∈ F.blocks)
    (h : B.instructions = pre ++ i :: j :: post) : j ≠ P.front := by
  rintro rfl
  obtain rfl := block_unique hB hP (by simp [h]) (front_mem P)
  have hnodup := instructions_nodup_of hB
  have hhead := head?_instructions B
  rw [h] at hhead hnodup
  cases pre with
  | nil =>
    obtain rfl : i = B.front := by simpa using hhead
    simp at hnodup
  | cons a pre =>
    obtain rfl : a = B.front := by simpa using hhead
    simp at hnodup

/-- Nothing leads to the first instruction. -/
theorem not_edge_first : ¬ F.Edge i F.first := by
  have hentry : F.entry ∈ F.blocks := .head _
  intro h
  generalize hj : F.first = j at h
  cases h with
  | next hB h => exact ne_front hB hentry h hj.symm
  | @jump P B hP hB hl =>
    have hfront : F.first ∈ B.instructions := hj ▸ front_mem B
    obtain rfl := block_unique hentry hB (front_mem _) hfront
    exact F.entry_not_succ P hP hl

variable [DecidableEq β] [DecidableEq ι]

omit [DecidableEq β] in
theorem parent_eq (hB : B ∈ F.blocks) (hi : i ∈ B.instructions) : F.parent i = some B := by
  unfold parent
  cases hfind : F.blocks.find? (i ∈ ·.instructions) with
  | none =>
    have hnone := List.find?_eq_none.mp hfind B hB
    simp [hi] at hnone
  | some P =>
    have hP : i ∈ P.instructions := by simpa using List.find?_some hfind
    rw [block_unique hB (List.mem_of_find?_eq_some hfind) hi hP]

omit [DecidableEq β] in
theorem parent_eq_some (h : F.parent i = some B) : B ∈ F.blocks ∧ i ∈ B.instructions :=
  ⟨List.mem_of_find?_eq_some h, by simpa using List.find?_some h⟩

omit [DecidableEq ι] in
theorem block?_eq (hB : B ∈ F.blocks) : F.block? B.label = some B := by
  unfold block?
  cases hfind : F.blocks.find? (·.label = B.label) with
  | none =>
    have hnone := List.find?_eq_none.mp hfind B hB
    simp at hnone
  | some P =>
    have hP : P.label = B.label := by simpa using List.find?_some hfind
    rw [block_of_label (List.mem_of_find?_eq_some hfind) hB hP]

omit [DecidableEq β] in
theorem find_terminator (hP : P ∈ F.blocks) :
    F.blocks.find? (·.terminator = P.terminator) = some P := by
  cases hfind : F.blocks.find? (·.terminator = P.terminator) with
  | none =>
    have hnone := List.find?_eq_none.mp hfind P hP
    simp at hnone
  | some B =>
    have hB : B.terminator = P.terminator := by simpa using List.find?_some hfind
    rw [block_unique (List.mem_of_find?_eq_some hfind) hP (terminator_mem B)
      (hB ▸ terminator_mem P)]

omit [DecidableEq β] in
theorem getNextNode_eq {pre post : List ι} (hB : B ∈ F.blocks)
    (h : B.instructions = pre ++ i :: j :: post) : F.getNextNode i = some j := by
  have hnodup := instructions_nodup_of hB
  unfold getNextNode
  rw [parent_eq hB (by simp [h]), Option.bind_some, h]
  exact nextIn_append (h ▸ hnodup)

omit [DecidableEq β] in
theorem getPrevNode_eq {pre post : List ι} (hB : B ∈ F.blocks)
    (h : B.instructions = pre ++ i :: j :: post) : F.getPrevNode j = some i := by
  have hnodup := instructions_nodup_of hB
  unfold getPrevNode
  rw [parent_eq hB (by simp [h]), Option.bind_some, h]
  exact prevIn_append (h ▸ hnodup)

theorem mem_successorBlocks (hP : P ∈ F.blocks) :
    B ∈ F.successorBlocks P.terminator ↔ B ∈ F.blocks ∧ B.label ∈ P.succs := by
  unfold successorBlocks
  rw [find_terminator hP, List.mem_filterMap]
  constructor
  · rintro ⟨l, hl, hfind⟩
    have hlabel : B.label = l := by simpa using List.find?_some hfind
    exact ⟨List.mem_of_find?_eq_some hfind, hlabel ▸ hl⟩
  · rintro ⟨hB, hl⟩
    exact ⟨B.label, hl, block?_eq hB⟩

omit [DecidableEq ι] in
theorem mem_predecessorBlocks :
    P ∈ F.predecessorBlocks B ↔ P ∈ F.blocks ∧ B.label ∈ P.succs := by
  simp only [predecessorBlocks, List.mem_flatMap, List.mem_map, List.mem_filter,
    decide_eq_true_eq]
  constructor
  · rintro ⟨P', hP', l, ⟨hl, rfl⟩, rfl⟩
    exact ⟨hP', hl⟩
  · rintro ⟨hP, hl⟩
    exact ⟨P, hP, B.label, ⟨hl, rfl⟩, rfl⟩

/-- The successors of an instruction are where its edges lead. -/
theorem mem_successorsInst : j ∈ F.successorsInst i ↔ F.Edge i j := by
  unfold successorsInst
  cases hfind : F.blocks.find? (·.terminator = i) with
  | some P =>
    obtain rfl : P.terminator = i := by simpa using List.find?_some hfind
    have hP := List.mem_of_find?_eq_some hfind
    simp only [Option.isSome_some, if_true, List.mem_map, mem_successorBlocks hP]
    constructor
    · rintro ⟨B, ⟨hB, hl⟩, rfl⟩
      exact .jump hP hB hl
    · intro h
      generalize hi : P.terminator = i at h
      cases h with
      | next hB h => exact absurd hi.symm (ne_terminator hB hP h)
      | @jump P' B hP' hB hl =>
        obtain rfl := block_unique hP hP' (terminator_mem P) (hi ▸ terminator_mem P')
        exact ⟨B, ⟨hB, hl⟩, rfl⟩
  | none =>
    simp only [Option.isSome_none, Bool.false_eq_true, if_false, Option.mem_toList]
    constructor
    · intro h
      obtain ⟨B, hparent, hnext⟩ := Option.bind_eq_some_iff.mp h
      obtain ⟨pre, post, heq⟩ := nextIn_eq_some hnext
      exact .next (parent_eq_some hparent).1 heq
    · intro h
      cases h with
      | next hB h => exact getNextNode_eq hB h
      | jump hP _ _ => rw [find_terminator hP] at hfind; cases hfind

/-- A terminator is told by there being no instruction behind it, too. -/
theorem successorsInst_eq (i : ι) : F.successorsInst i =
    match F.getNextNode i with
    | some succ => [succ]
    | none => (F.successorBlocks i).map (·.front) := by
  unfold successorsInst
  cases hfind : F.blocks.find? (·.terminator = i) with
  | some P =>
    obtain rfl : P.terminator = i := by simpa using List.find?_some hfind
    have hnext : F.getNextNode P.terminator = none := by
      rw [Option.eq_none_iff_forall_ne_some]
      intro j h
      obtain ⟨B, hparent, hnext⟩ := Option.bind_eq_some_iff.mp h
      obtain ⟨pre, post, heq⟩ := nextIn_eq_some hnext
      exact ne_terminator (parent_eq_some hparent).1 (List.mem_of_find?_eq_some hfind) heq rfl
    rw [hnext]
    rfl
  | none =>
    have hblocks : F.successorBlocks i = [] := by
      unfold successorBlocks
      rw [hfind]
    rw [hblocks]
    cases F.getNextNode i <;> rfl

/-- The predecessors of an instruction are where its edges come from. -/
theorem mem_predecessors : i ∈ F.predecessors j ↔ F.Edge i j := by
  unfold predecessors
  cases hprev : F.getPrevNode j with
  | some p =>
    obtain ⟨B, hparent, hp⟩ := Option.bind_eq_some_iff.mp hprev
    obtain ⟨pre, post, heq⟩ := prevIn_eq_some hp
    obtain ⟨hB, hj⟩ := parent_eq_some hparent
    simp only [List.mem_singleton]
    constructor
    · rintro rfl
      exact .next hB heq
    · intro h
      cases h with
      | next hB' h => exact Option.some.inj ((getPrevNode_eq hB' h).symm.trans hprev)
      | jump hP hB' hl => exact absurd rfl (ne_front hB hB' heq)
  | none =>
    simp only [List.mem_flatMap, Option.mem_toList, List.mem_map, mem_predecessorBlocks]
    constructor
    · rintro ⟨B, hparent, P, ⟨hP, hl⟩, rfl⟩
      obtain ⟨hB, hj⟩ := parent_eq_some hparent
      have hnone : prevIn B.instructions j = none := by
        unfold getPrevNode at hprev
        rwa [hparent] at hprev
      have hfront := prevIn_eq_none hnone hj
      rw [head?_instructions] at hfront
      cases hfront
      exact .jump hP hB hl
    · intro h
      cases h with
      | next hB h => rw [getPrevNode_eq hB h] at hprev; cases hprev
      | @jump P B hP hB hl => exact ⟨B, parent_eq hB (front_mem B), P, ⟨hP, hl⟩, rfl⟩

end CFG

end Clou.ControlFlow
