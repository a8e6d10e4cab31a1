-- SUMMARY: Functions of numbered instructions and blocks, on which edges can be split and instructions made.
import Mathlib.Algebra.Order.BigOperators.Group.List
import Mathlib.Algebra.Order.Ring.Nat
import Serberus.Mitigation.Insertion

/-!
# Numbered Instructions

An IR that can be run: an instruction is an opcode with a number, and a label is a number.
What is made is numbered behind all that there is.
-/

namespace Clou.Mitigation

open ControlFlow CFG

/-! ## Replacing a Block -/

section Split

variable {β ι : Type} [DecidableEq β] [DecidableEq ι] {F : CFG β ι} {P P' N : BasicBlock β ι}

/-- `P` can be split in `P'` and a new block `N`, with one new instruction. -/
structure Splits (F : CFG β ι) (P P' N : BasicBlock β ι) (new : ι) : Prop where
  mem : P ∈ F.blocks
  label : P'.label = P.label
  label_fresh : N.label ∉ F.blocks.map (·.label)
  fresh : new ∉ F.instructions
  instructions : (P'.instructions ++ N.instructions).Perm (new :: P.instructions)
  succs : ∀ l ∈ P'.succs ++ N.succs, l = N.label ∨ l ∈ P.succs

/-- `Q`, or what has taken its place. -/
def replaceBlock (P P' Q : BasicBlock β ι) : BasicBlock β ι := if Q = P then P' else Q

theorem mem_replaceBlocks (hP : P ∈ F.blocks) {Q : BasicBlock β ι} :
    Q ∈ F.blocks.map (replaceBlock P P') ++ [N] ↔ Q = N ∨ Q = P' ∨ Q ∈ F.blocks ∧ Q ≠ P := by
  simp only [List.mem_append, List.mem_map, List.mem_singleton, replaceBlock]
  constructor
  · rintro (⟨B, hB, rfl⟩ | rfl)
    · split_ifs with hBP
      · exact .inr (.inl rfl)
      · exact .inr (.inr ⟨hB, hBP⟩)
    · exact .inl rfl
  · rintro (rfl | rfl | ⟨hQ, hne⟩)
    · exact .inr rfl
    · exact .inl ⟨P, hP, if_pos rfl⟩
    · exact .inl ⟨Q, hQ, if_neg hne⟩

namespace Splits

variable {new : ι} (h : Splits F P P' N new)

include h

theorem labels : (F.blocks.map (replaceBlock P P') ++ [N]).map (·.label) =
    F.blocks.map (·.label) ++ [N.label] := by
  rw [List.map_append, List.map_map]
  refine congrArg (· ++ [N.label]) (List.map_congr_left fun Q _ => ?_)
  simp only [Function.comp_apply, replaceBlock]
  split_ifs with hQ
  · rw [hQ, h.label]
  · rfl

theorem instructions_perm :
    ((F.blocks.map (replaceBlock P P') ++ [N]).flatMap (·.instructions)).Perm
      (new :: F.instructions) := by
  have hlabels : (F.blocks.map (·.label)).Nodup := F.labels_nodup
  obtain ⟨pre, post, hblocks⟩ := List.append_of_mem h.mem
  have hnodup : (pre ++ P :: post).Nodup := hblocks ▸ hlabels.of_map
  have hother {Qs : List (BasicBlock β ι)} (hP : P ∉ Qs) : Qs.map (replaceBlock P P') = Qs := by
    have hid : Qs.map (replaceBlock P P') = Qs.map id :=
      List.map_congr_left fun Q hQ => if_neg fun heq : Q = P => hP (heq ▸ hQ)
    rw [hid, List.map_id]
  obtain ⟨hpost, -⟩ := List.nodup_cons.mp hnodup.of_append_right
  have hpre : P ∉ pre := fun hP => List.disjoint_of_nodup_append hnodup hP List.mem_cons_self
  have hself : replaceBlock P P' P = P' := if_pos rfl
  rw [hblocks, List.map_append, List.map_cons, hother hpre, hother hpost, hself, CFG.instructions,
    hblocks, List.perm_iff_count]
  intro i
  have hcount := h.instructions.count_eq i
  simp only [List.count_append, List.count_cons, List.flatMap_append, List.flatMap_cons,
    List.flatMap_nil, List.append_nil] at hcount ⊢
  omega

theorem succs_mem {Q : BasicBlock β ι} (hQ : Q ∈ F.blocks.map (replaceBlock P P') ++ [N]) {l : β}
    (hl : l ∈ Q.succs) : l = N.label ∨ ∃ B ∈ F.blocks, l ∈ B.succs := by
  have hnew (hl : l ∈ P'.succs ++ N.succs) : l = N.label ∨ ∃ B ∈ F.blocks, l ∈ B.succs :=
    (h.succs l hl).imp_right fun hl => ⟨P, h.mem, hl⟩
  rcases (mem_replaceBlocks h.mem).mp hQ with rfl | rfl | ⟨hQ, -⟩
  · exact hnew (List.mem_append_right _ hl)
  · exact hnew (List.mem_append_left _ hl)
  · exact .inr ⟨Q, hQ, hl⟩

theorem label_entry : (replaceBlock P P' F.entry).label = F.entry.label := by
  unfold replaceBlock
  split_ifs with hP
  · rw [hP, h.label]
  · rfl

/-- The function with the block split. -/
def cfg : CFG β ι where
  entry := replaceBlock P P' F.entry
  rest := F.rest.map (replaceBlock P P') ++ [N]
  labels_nodup := by
    change ((F.blocks.map (replaceBlock P P') ++ [N]).map (·.label)).Nodup
    rw [h.labels]
    have hlabels : (F.blocks.map (·.label)).Nodup := F.labels_nodup
    exact List.nodup_append'.mpr ⟨hlabels, List.nodup_singleton _, by simpa using h.label_fresh⟩
  instructions_nodup := by
    change ((F.blocks.map (replaceBlock P P') ++ [N]).flatMap (·.instructions)).Nodup
    rw [h.instructions_perm.nodup_iff]
    exact List.nodup_cons.mpr ⟨h.fresh, F.instructions_nodup⟩
  succs_mem := by
    change ∀ Q ∈ F.blocks.map (replaceBlock P P') ++ [N], ∀ l ∈ Q.succs,
      l ∈ (F.blocks.map (replaceBlock P P') ++ [N]).map (·.label)
    intro Q hQ l hl
    rw [h.labels]
    rcases h.succs_mem hQ hl with rfl | ⟨B, hB, hl⟩
    · exact List.mem_append_right _ (List.mem_singleton_self _)
    · exact List.mem_append_left _ (F.succs_mem B hB l hl)
  entry_not_succ := by
    change ∀ Q ∈ F.blocks.map (replaceBlock P P') ++ [N], _
    intro Q hQ hl
    rw [h.label_entry] at hl
    rcases h.succs_mem hQ hl with heq | ⟨B, hB, hl⟩
    · exact h.label_fresh (heq ▸ List.mem_map_of_mem List.mem_cons_self)
    · exact F.entry_not_succ B hB hl

theorem mem_blocks {Q : BasicBlock β ι} :
    Q ∈ h.cfg.blocks ↔ Q = N ∨ Q = P' ∨ Q ∈ F.blocks ∧ Q ≠ P :=
  mem_replaceBlocks h.mem

end Splits

end Split

/-! ## The IR -/

inductive Opcode where
  | op
  | phi
  | lfence
  | mfence
  | br
  | ret
  | call
  deriving DecidableEq

structure Instr where
  opcode : Opcode
  number : Nat
  deriving DecidableEq

/-- Instructions are ordered by their numbers. -/
def Instr.key (i : Instr) : Nat := 7 * i.number + i.opcode.ctorIdx

theorem Instr.key_injective : Function.Injective Instr.key := by
  rintro ⟨o, n⟩ ⟨o', n'⟩ h
  unfold Instr.key at h
  have ho : o.ctorIdx < 7 := by cases o <;> decide
  have ho' : o'.ctorIdx < 7 := by cases o' <;> decide
  dsimp only at h
  have hnumber : n = n' := by omega
  have hopcode : o.ctorIdx = o'.ctorIdx := by omega
  cases o <;> cases o' <;> first | exact absurd hopcode (by decide) | rw [hnumber]

instance : LinearOrder Instr :=
  { LinearOrder.lift' Instr.key Instr.key_injective with
    toDecidableEq := instDecidableEqInstr
    compare_eq_compareOfLessAndEq := fun i j => by
      rw [(LinearOrder.lift' Instr.key Instr.key_injective).compare_eq_compareOfLessAndEq i j]
      congr }

/-- A number that is in no list of these. -/
def freshNumber (l : List Nat) : Nat := l.sum + 1

theorem freshNumber_not_mem (l : List Nat) : freshNumber l ∉ l := fun hmem =>
  absurd (List.single_le_sum (fun _ _ => Nat.zero_le _) _ hmem) (Nat.not_succ_le_self _)

/-- A new instruction of a function. -/
def freshInstr (F : CFG Nat Instr) (opcode : Opcode) : {i // i ∉ F.instructions} :=
  ⟨⟨opcode, freshNumber (F.instructions.map (·.number))⟩, fun hmem =>
    freshNumber_not_mem _ (List.mem_map_of_mem (f := Instr.number) hmem)⟩

def freshLabel (F : CFG Nat Instr) : Nat := freshNumber (F.blocks.map (·.label))

section SplitEdge

variable {F : CFG Nat Instr} {P S : BasicBlock Nat Instr}

/-- A block that jumps to `S`. -/
def edgeBlock (F : CFG Nat Instr) (S : BasicBlock Nat Instr) : BasicBlock Nat Instr where
  label := freshLabel F
  body := []
  terminator := freshInstr F .br
  succs := [S.label]

theorem splits_critical (hP : P ∈ F.blocks) (hS : S.label ∈ P.succs) :
    Splits F P { P with succs := P.succs.replace S.label (freshLabel F) } (edgeBlock F S)
      (freshInstr F .br).val where
  mem := hP
  label := rfl
  label_fresh := freshNumber_not_mem _
  fresh := (freshInstr F .br).property
  instructions := List.perm_append_comm
  succs l hl := by
    rcases List.mem_append.mp hl with hl | hl
    · exact (List.mem_cons.mp ((replace_perm hS).subset hl)).imp_right List.mem_of_mem_erase
    · exact .inr (List.mem_singleton.mp hl ▸ hS)

/-- The block that gets the terminator of `P`. -/
def lowerBlock (F : CFG Nat Instr) (P : BasicBlock Nat Instr) : BasicBlock Nat Instr where
  label := freshLabel F
  body := []
  terminator := P.terminator
  succs := P.succs

theorem splits_block (hP : P ∈ F.blocks) :
    Splits F P { P with terminator := freshInstr F .br, succs := [freshLabel F] } (lowerBlock F P)
      (freshInstr F .br).val where
  mem := hP
  label := rfl
  label_fresh := freshNumber_not_mem _
  fresh := (freshInstr F .br).property
  instructions := by
    simp only [BasicBlock.instructions, lowerBlock, List.nil_append, List.append_assoc]
    exact List.perm_middle
  succs l hl := by
    rcases List.mem_append.mp hl with hl | hl
    · exact .inl (List.mem_singleton.mp hl)
    · exact .inr hl

/-- `llvm::SplitEdge`, for an edge to a block that other edges lead to. -/
def splitEdge (F : CFG Nat Instr) (P S : BasicBlock Nat Instr) :
    CFG Nat Instr × BasicBlock Nat Instr :=
  if h : P ∈ F.blocks ∧ S.label ∈ P.succs then
    if P.succs.length = 1 then ((splits_block h.1).cfg, lowerBlock F P)
    else ((splits_critical h.1 h.2).cfg, edgeBlock F S)
  else (F, S)

end SplitEdge

/-- The IR of numbered instructions. -/
def numberedIR (insertTrapAfterMitigations : Bool) : IR Nat Instr where
  isPHINode i := i.opcode = .phi
  isMitigationInst i := i.opcode = .lfence
  isReturnInst i := i.opcode = .ret
  mayLowerToFunctionCall i := i.opcode = .call
  insertTrapAfterMitigations := insertTrapAfterMitigations
  createLFence F := freshInstr F .lfence
  createMFence F := freshInstr F .mfence
  splitEdge := splitEdge

theorem numberedIR_lawful (insertTrapAfterMitigations : Bool) :
    (numberedIR insertTrapAfterMitigations).Lawful where
  lfence_mitigation _ := rfl
  lfence_phi _ := rfl
  mfence_phi _ := rfl
  phi_mitigation i hphi := by
    have hopcode : i.opcode = .phi := of_decide_eq_true hphi
    simp [numberedIR, hopcode]
  critical F P S hP _ hl hsuccs _ := by
    have hsplit : splitEdge F P S = ((splits_critical hP hl).cfg, edgeBlock F S) := by
      rw [splitEdge, dif_pos ⟨hP, hl⟩, if_neg (by omega)]
    change SplitsCritical F P S (splitEdge F P S).1 (splitEdge F P S).2 ∧
      decide ((splitEdge F P S).2.terminator.opcode = .phi) = false
    rw [hsplit]
    exact ⟨⟨freshNumber_not_mem _, (freshInstr F .br).property, rfl, rfl,
      fun _ => (splits_critical hP hl).mem_blocks⟩, rfl⟩
  single F P S hP _ hl hsuccs _ := by
    have hsplit : splitEdge F P S = ((splits_block hP).cfg, lowerBlock F P) := by
      rw [splitEdge, dif_pos ⟨hP, hl⟩, if_pos hsuccs]
    change ∃ b, SplitsBlock F P (splitEdge F P S).1 (splitEdge F P S).2 b ∧ _
    rw [hsplit]
    exact ⟨freshInstr F .br, ⟨freshNumber_not_mem _, (freshInstr F .br).property, rfl, rfl, rfl,
      fun _ => (splits_block hP).mem_blocks⟩, rfl⟩

end Clou.Mitigation
