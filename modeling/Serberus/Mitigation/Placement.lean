-- SUMMARY: Where the fences of the cut edges stand, and that the pass puts them there.
import Serberus.Mitigation.Insertion

/-!
# Placing Mitigations

The function that the pass leaves is the original one, decorated with fences. `fenced`
says before which instructions a fence stands, from the original function and the cut
edges alone; the other fences are on the edges that have been split. `Placed` is what
mitigating one edge keeps.
-/

namespace Clou.Mitigation

open ControlFlow CFG Subdivision

variable {β ι : Type}

/-! ## PHIs -/

section PHIs

variable {ir : IR β ι} {F : CFG β ι} {B : BasicBlock β ι} {i j x : ι} {l pre post : List ι}

/-- `l` are the PHIs from `i` on, and `x` the instruction behind them. -/
inductive PHIs (ir : IR β ι) (F : CFG β ι) : ι → List ι → ι → Prop
  | here {x : ι} (hx : x ∈ F.instructions) (hphi : ir.isPHINode x = false) : PHIs ir F x [] x
  | phi {B : BasicBlock β ι} {pre post : List ι} {i j x : ι} {l : List ι} (hB : B ∈ F.blocks)
      (h : B.instructions = pre ++ i :: j :: post) (hphi : ir.isPHINode i = true)
      (hrest : PHIs ir F j l x) : PHIs ir F i (i :: l) x

/-- Behind the PHIs of a block there is its terminator, at the latest. -/
theorem exists_phis (hterm : ∀ P ∈ F.blocks, ir.isPHINode P.terminator = false)
    (hi : i ∈ F.instructions) : ∃ l x, PHIs ir F i l x := by
  obtain ⟨B, hB, hiB⟩ := mem_instructions.mp hi
  obtain ⟨pre, post, h⟩ := List.append_of_mem hiB
  clear hiB
  induction post generalizing pre i with
  | nil =>
    have hlast : B.instructions.getLast? = some B.terminator := List.getLast?_concat
    rw [h, List.getLast?_concat] at hlast
    obtain rfl := Option.some.inj hlast
    exact ⟨[], _, .here hi (hterm B hB)⟩
  | cons j post ih =>
    cases hphi : ir.isPHINode i with
    | false => exact ⟨[], i, .here hi hphi⟩
    | true =>
      have hj : j ∈ F.instructions := mem_instructions.mpr ⟨B, hB, by simp [h]⟩
      obtain ⟨l, x, hrest⟩ := ih hj (pre ++ [i]) (h.trans (List.append_cons ..))
      exact ⟨i :: l, x, .phi hB h hphi hrest⟩

theorem PHIs.phi_of_mem (h : PHIs ir F i l x) (hj : j ∈ l) : ir.isPHINode j = true := by
  induction h with
  | here => cases hj
  | phi _ _ hphi _ ih =>
    rcases List.mem_cons.mp hj with rfl | hj
    · exact hphi
    · exact ih hj

/-- What is no PHI has none before it. -/
theorem PHIs.of_not_phi (h : PHIs ir F i l x) (hphi : ir.isPHINode i = false) : i = x ∧ l = [] := by
  cases h with
  | here => exact ⟨rfl, rfl⟩
  | phi _ _ hphi' _ => rw [hphi] at hphi'; cases hphi'

theorem PHIs.mem (h : PHIs ir F i l x) (hj : j ∈ l ++ [x]) : j ∈ F.instructions := by
  induction h with
  | here hx _ => exact List.mem_singleton.mp hj ▸ hx
  | phi hB h _ _ ih =>
    rcases List.mem_cons.mp hj with rfl | hj
    · exact mem_instructions.mpr ⟨_, hB, by simp [h]⟩
    · exact ih hj

theorem PHIs.head (h : PHIs ir F i l x) : ∃ l', l ++ [x] = i :: l' := by
  cases h with
  | here => exact ⟨[], rfl⟩
  | phi => exact ⟨_, rfl⟩

theorem PHIs.last (h : PHIs ir F i l x) : x ∈ F.instructions ∧ ir.isPHINode x = false := by
  induction h with
  | here hx hphi => exact ⟨hx, hphi⟩
  | phi _ _ _ _ ih => exact ih

variable [DecidableEq ι]

theorem dropWhile_ne (hnodup : (pre ++ i :: post).Nodup) :
    (pre ++ i :: post).dropWhile (· ≠ i) = i :: post := by
  induction pre with
  | nil => simp
  | cons a pre ih =>
    obtain ⟨ha, hnodup⟩ := List.nodup_cons.mp hnodup
    have hne : a ≠ i := fun heq => ha (by simp [heq])
    rw [List.cons_append, List.dropWhile_cons_of_pos (by simpa using hne)]
    exact ih hnodup

theorem firstNonPHI_eq (hB : B ∈ F.blocks) (h : B.instructions = pre ++ i :: post) :
    ir.firstNonPHI F i = (i :: post).find? fun j => !ir.isPHINode j := by
  have hnodup := instructions_nodup_of hB
  unfold IR.firstNonPHI
  rw [parent_eq hB (by simp [h]), Option.bind_some, h, dropWhile_ne (h ▸ hnodup)]

theorem phis_eq (hB : B ∈ F.blocks) (h : B.instructions = pre ++ i :: post) :
    ir.phis F i = (i :: post).takeWhile fun j => ir.isPHINode j := by
  have hnodup := instructions_nodup_of hB
  unfold IR.phis
  rw [parent_eq hB (by simp [h]), Option.toList_some, List.flatMap_cons, List.flatMap_nil,
    List.append_nil, h, dropWhile_ne (h ▸ hnodup)]

theorem firstNonPHI_self (hi : i ∈ F.instructions) (hphi : ir.isPHINode i = false) :
    ir.firstNonPHI F i = some i := by
  obtain ⟨B, hB, hiB⟩ := mem_instructions.mp hi
  obtain ⟨pre, post, h⟩ := List.append_of_mem hiB
  rw [firstNonPHI_eq hB h, List.find?_cons_of_pos (by simp [hphi])]

/-- The search for the first instruction that is no PHI goes on behind a PHI. -/
theorem firstNonPHI_next (hterm : ∀ P ∈ F.blocks, ir.isPHINode P.terminator = false)
    (hphi : ir.isPHINode i = true) (h : F.Edge i j) : ir.firstNonPHI F i = ir.firstNonPHI F j := by
  cases h with
  | next hB h =>
    rw [firstNonPHI_eq hB h, firstNonPHI_eq hB (h.trans (List.append_cons ..)),
      List.find?_cons_of_neg (by simp [hphi])]
  | jump hP _ _ => simp [hterm _ hP] at hphi

theorem PHIs.eq (h : PHIs ir F i l x) : ir.firstNonPHI F i = some x ∧ ir.phis F i = l := by
  induction h with
  | here hx hphi =>
    obtain ⟨B, hB, hxB⟩ := mem_instructions.mp hx
    obtain ⟨pre, post, h⟩ := List.append_of_mem hxB
    rw [firstNonPHI_eq hB h, phis_eq hB h, List.find?_cons_of_pos (by simp [hphi]),
      List.takeWhile_cons_of_neg (by simp [hphi])]
    exact ⟨rfl, rfl⟩
  | phi hB h hphi _ ih =>
    have hnext := h.trans (List.append_cons ..)
    rw [firstNonPHI_eq hB hnext, phis_eq hB hnext] at ih
    rw [firstNonPHI_eq hB h, phis_eq hB h, List.find?_cons_of_neg (by simp [hphi]), ih.1,
      List.takeWhile_cons_of_pos hphi, ih.2]
    exact ⟨rfl, rfl⟩

end PHIs

/-! ## Blocks -/

/-- The terminators of `F` are still those of a block each, with as many slots, and `F'` has
got no PHI as a terminator. -/
structure KeepsBlocks (ir : IR β ι) (F F' : CFG β ι) : Prop where
  twin : ∀ P ∈ F.blocks, ∃ P' ∈ F'.blocks,
    P'.terminator = P.terminator ∧ P'.succs.length = P.succs.length
  terminators : (∀ P ∈ F.blocks, ir.isPHINode P.terminator = false) →
    ∀ P ∈ F'.blocks, ir.isPHINode P.terminator = false

/-- `F'` is `F` with `ns` put before `y`. -/
structure Inserts [DecidableEq β] [DecidableEq ι] (ir : IR β ι) (F F' : CFG β ι) (y : ι) (ns : List ι) : Prop where
  before : InsertsBefore F.predecessors F'.predecessors (· ∈ F.instructions) y ns
  mem_iff : ∀ i, i ∈ F'.instructions ↔ i ∈ F.instructions ∨ i ∈ ns
  keeps : KeepsBlocks ir F F'
  phi : ∀ n ∈ ns, ir.isPHINode n = false

section Blocks

variable {ir : IR β ι} {F F' F'' : CFG β ι} {P S N : BasicBlock β ι} {b i x y : ι} {ns ms : List ι}

theorem KeepsBlocks.refl : KeepsBlocks ir F F :=
  ⟨fun P hP => ⟨P, hP, rfl, rfl⟩, id⟩

theorem KeepsBlocks.trans (h : KeepsBlocks ir F F') (h' : KeepsBlocks ir F' F'') :
    KeepsBlocks ir F F'' where
  twin := by
    intro P hP
    obtain ⟨P', hP', hterm, hlength⟩ := h.twin P hP
    obtain ⟨P'', hP'', hterm', hlength'⟩ := h'.twin P' hP'
    exact ⟨P'', hP'', hterm'.trans hterm, hlength'.trans hlength⟩
  terminators := fun hF => h'.terminators (h.terminators hF)

variable [DecidableEq ι]

theorem keepsBlocks_insertBefore {new : {n // n ∉ F.instructions}} :
    KeepsBlocks ir F (F.insertBefore x new) where
  twin := by
    intro P hP
    rw [blocks_insertBefore]
    exact ⟨P.insertBefore x new, List.mem_map_of_mem hP, rfl, rfl⟩
  terminators := by
    intro hF P hP
    rw [blocks_insertBefore] at hP
    obtain ⟨Q, hQ, rfl⟩ := List.mem_map.mp hP
    exact hF Q hQ

variable [DecidableEq β]

theorem Inserts.append (h : Inserts ir F F' y ns) (hy : y ∈ F.instructions)
    (h' : Inserts ir F' F'' y ms) : Inserts ir F F'' y (ns ++ ms) where
  before := by
    refine h.before.append hy ?_
    have hmem := h'.before
    simpa only [h.mem_iff] using hmem
  mem_iff := by
    intro i
    rw [h'.mem_iff, h.mem_iff, List.mem_append, or_assoc]
  keeps := h.keeps.trans h'.keeps
  phi := fun n hn => (List.mem_append.mp hn).elim (h.phi n) (h'.phi n)

theorem inserts_insertBefore (new : {n // n ∉ F.instructions}) (hx : x ∈ F.instructions)
    (hphi : ir.isPHINode new = false) : Inserts ir F (F.insertBefore x new) x [new.val] where
  before := insertsBefore hx
  mem_iff := by
    intro i
    rw [mem_insertBefore hx, List.mem_singleton]
  keeps := keepsBlocks_insertBefore
  phi := fun n hn => List.mem_singleton.mp hn ▸ hphi

/-- A mitigation is a fence, with a trap behind it perhaps. -/
theorem inserts_createMitigation (hir : ir.Lawful) (hx : x ∈ F.instructions)
    (hfirst : ir.firstNonPHI F i = some x) :
    ∃ ns, Inserts ir F (ir.createMitigation F i) x ns ∧ ∃ n ∈ ns, ir.isMitigationInst n = true := by
  have hlfence := inserts_insertBefore (ir.createLFence F) hx (hir.lfence_phi F)
  have hmitigation := hir.lfence_mitigation F
  unfold IR.createMitigation
  rw [hfirst]
  dsimp only
  split_ifs with htrap
  · have hx' := (hlfence.mem_iff x).mpr (.inl hx)
    exact ⟨_, hlfence.append hx (inserts_insertBefore _ hx' (hir.mfence_phi _)), _, .head _, hmitigation⟩
  · exact ⟨_, hlfence, _, .head _, hmitigation⟩

theorem inserts_splitsBlock (h : SplitsBlock F P F' N b) (hP : P ∈ F.blocks)
    (hlength : P.succs.length = 1) (hphi : ir.isPHINode b = false) :
    Inserts ir F F' P.terminator [b] where
  before := h.insertsBefore hP
  mem_iff := by
    intro i
    rw [h.mem_iff hP, List.mem_singleton]
  keeps := by
    refine ⟨fun Q hQ => ?_, fun hF Q hQ => ?_⟩
    · by_cases hQP : Q = P
      · subst hQP
        exact ⟨N, h.fresh_mem, h.terminator, by rw [h.succs]⟩
      · exact ⟨Q, (h.mem_blocks Q).mpr (.inr (.inr ⟨hQ, hQP⟩)), rfl, rfl⟩
    · rcases (h.mem_blocks Q).mp hQ with rfl | rfl | ⟨hQ, -⟩
      · exact h.terminator ▸ hF P hP
      · exact hphi
      · exact hF Q hQ
  phi := fun n hn => List.mem_singleton.mp hn ▸ hphi

theorem keepsBlocks_splitsCritical (h : SplitsCritical F P S F' N) (hP : P ∈ F.blocks)
    (hphi : ir.isPHINode N.terminator = false) : KeepsBlocks ir F F' where
  twin := by
    intro Q hQ
    obtain ⟨Q', hQ', -, -, hterm, hsuccs⟩ := h.twin hQ
    refine ⟨Q', hQ', hterm, ?_⟩
    rw [hsuccs]
    split_ifs with hQP
    · rw [hQP, List.length_replace]
    · rfl
  terminators := by
    intro hF Q hQ
    rcases (h.mem_blocks Q).mp hQ with rfl | rfl | ⟨hQ, -⟩
    · exact hphi
    · exact hF P hP
    · exact hF Q hQ

end Blocks

/-! ## Placement -/

variable [DecidableEq β] [DecidableEq ι]

/-- Mitigating `e` puts a fence before an instruction of `F` when the edge need not be split,
or no slot of its terminator has to be chosen. -/
def fenceStep (ir : IR β ι) (F : CFG β ι) (fences : List ι) (e : ι × ι) : List ι :=
  if IR.shouldCutEdge F e.2 = true ∧ e.2 ∉ fences then
    if (F.successorsInst e.1).length = 1 then fences ++ [e.1] else fences
  else fences ++ (ir.firstNonPHI F e.2).toList

/-- The instructions of `F` that have a fence before them when the cut edges are mitigated. -/
def fenced (ir : IR β ι) (F : CFG β ι) (cutEdges : List (ι × ι)) : List ι :=
  cutEdges.foldl (fenceStep ir F) []

/-- One slot that leads from `p` to `q` leads through a fence. -/
def Rerouted (F : CFG β ι) (cutEdges : List (ι × ι)) (p q : ι) : Prop :=
  (p, q) ∈ cutEdges ∧ IR.shouldCutEdge F q = true ∧ (F.successorsInst p).length ≠ 1

instance (F : CFG β ι) (cutEdges : List (ι × ι)) (p q : ι) : Decidable (Rerouted F cutEdges p q) :=
  inferInstanceAs (Decidable (_ ∧ _ ∧ _))

/-- `F` is `F₀` with the fences of the cut edges. -/
structure Placed (ir : IR β ι) (F₀ : CFG β ι) (cutEdges : List (ι × ι)) (F : CFG β ι)
    (A : Decoration ι) : Prop where
  decorates : Decorates F₀.predecessors F.predecessors (· ∈ F₀.instructions) (· ∈ F.instructions) A
  keeps : KeepsBlocks ir F₀ F
  fenced_phi : ∀ q ∈ fenced ir F₀ cutEdges, ir.isPHINode q = false
  run_nil : ∀ q ∈ F₀.instructions, q ∉ fenced ir F₀ cutEdges → A.run q = []
  run_mitigation : ∀ q ∈ F₀.instructions, q ∈ fenced ir F₀ cutEdges →
    ∃ i ∈ A.run q, ir.isMitigationInst i = true
  run_phi : ∀ q ∈ F₀.instructions, ∀ i ∈ A.run q, ir.isPHINode i = false
  via_mitigation : ∀ q ∈ F₀.instructions, ∀ e ∈ A.via q, e.2 ≠ [] →
    IR.shouldCutEdge F₀ q = true ∧ ∃ i ∈ e.2, ir.isMitigationInst i = true
  via_count : ∀ q ∈ F₀.instructions, q ∉ fenced ir F₀ cutEdges → ∀ p,
    (A.via q).count (p, []) + (if Rerouted F₀ cutEdges p q then 1 else 0) =
      (F₀.predecessors q).count p

section Placed

variable {ir : IR β ι} {F₀ F F' : CFG β ι} {D : List (ι × ι)} {A : Decoration ι} {e : ι × ι}
  {i p q x y : ι} {l l₁ l₂ ns : List ι}

theorem fenced_append : fenced ir F₀ (D ++ [e]) = fenceStep ir F₀ (fenced ir F₀ D) e :=
  List.foldl_append ..

theorem predecessors_mem (hp : p ∈ F.predecessors q) : p ∈ F.instructions :=
  (mem_predecessors.mp hp).mem.1

theorem count_map_nil (l : List ι) (p : ι) :
    (l.map fun i => (i, ([] : List ι))).count (p, []) = l.count p :=
  List.count_map_of_injective l _ (fun _ _ h => (Prod.mk.inj h).1) p

theorem rerouted_of_ne (hne : (p, q) ≠ e) :
    Rerouted F₀ (D ++ [e]) p q ↔ Rerouted F₀ D p q := by
  simp [Rerouted, hne]

/-- Before any edge is mitigated. -/
theorem Placed.init : ∃ A, Placed ir F₀ [] F₀ A := by
  refine ⟨_, .init fun q _ p hp => predecessors_mem hp, .refl, fun q hq => absurd hq List.not_mem_nil,
    fun q _ _ => rfl, ?_, ?_, ?_, ?_⟩
  · intro q _ hq
    exact absurd hq List.not_mem_nil
  · intro q _ i hi
    exact absurd hi List.not_mem_nil
  · intro q _ e he hne
    obtain ⟨p, -, rfl⟩ := List.mem_map.mp he
    exact absurd rfl hne
  · intro q _ _ p
    have hnot : ¬ Rerouted F₀ [] p q := fun h => absurd h.1 List.not_mem_nil
    rw [if_neg hnot, Nat.add_zero]
    exact count_map_nil _ p

/-- Putting a fence on the run of `q`. -/
theorem Placed.fence (h : Placed ir F₀ D F A) (hq : q ∈ F₀.instructions)
    (hphi : ir.isPHINode q = false) (hins : Inserts ir F F' y ns) (hmitigation : ∃ n ∈ ns, ir.isMitigationInst n = true)
    (hy : A.run q ++ [q] = l₁ ++ y :: l₂)
    (hfenced : fenced ir F₀ (D ++ [e]) = fenced ir F₀ D ++ [q])
    (hsingle : IR.shouldCutEdge F₀ e.2 = true → e.2 ∉ fenced ir F₀ D →
      (F₀.successorsInst e.1).length = 1) : ∃ A', Placed ir F₀ (D ++ [e]) F' A' := by
  obtain ⟨r, hr⟩ : ∃ r, l₁ ++ (ns ++ y :: l₂) = r ++ [q] := by
    refine List.getLast?_eq_some_iff.mp ?_
    have hlast : (A.run q ++ [q]).getLast? = some q := List.getLast?_concat
    rw [hy, List.getLast?_append_cons] at hlast
    rw [← List.append_assoc, List.getLast?_append_cons, hlast]
  have hmem (i : ι) : i ∈ r ↔ i ∈ ns ∨ i ∈ A.run q := by
    rw [(insert_perm hy hr.symm).mem_iff, List.mem_append]
  have hdecorates := h.decorates.insertBefore hins.before hq hy hr.symm
  simp only [← hins.mem_iff] at hdecorates
  refine ⟨_, hdecorates, h.keeps.trans hins.keeps, ?_, ?_, ?_, ?_, h.via_mitigation, ?_⟩
  · intro q' hq'
    rw [hfenced, List.mem_append, List.mem_singleton] at hq'
    exact hq'.elim (h.fenced_phi q') fun heq => heq ▸ hphi
  · intro q' hq' hnot
    rw [hfenced, List.mem_append, List.mem_singleton, not_or] at hnot
    simp only [Function.update_of_ne hnot.2]
    exact h.run_nil q' hq' hnot.1
  · intro q' hq' hin
    by_cases hne : q' = q
    · subst hne
      obtain ⟨n, hn, hmit⟩ := hmitigation
      simp only [Function.update_self]
      exact ⟨n, (hmem n).mpr (.inl hn), hmit⟩
    · rw [hfenced, List.mem_append, List.mem_singleton] at hin
      simp only [Function.update_of_ne hne]
      exact h.run_mitigation q' hq' (hin.resolve_right hne)
  · intro q' hq' i hi
    by_cases hne : q' = q
    · subst hne
      simp only [Function.update_self] at hi
      exact ((hmem i).mp hi).elim (hins.phi i) (h.run_phi q' hq' i)
    · simp only [Function.update_of_ne hne] at hi
      exact h.run_phi q' hq' i hi
  · intro q' hq' hnot p
    rw [hfenced, List.mem_append, not_or] at hnot
    have hsame : Rerouted F₀ (D ++ [e]) p q' ↔ Rerouted F₀ D p q' := by
      by_cases heq : (p, q') = e
      · subst heq
        -- no slot of `p` has to be chosen
        have hslots (D : List (ι × ι)) : ¬ Rerouted F₀ D p q' := fun hr =>
          hr.2.2 (hsingle hr.2.1 hnot.1)
        exact ⟨fun hr => absurd hr (hslots _), fun hr => absurd hr (hslots _)⟩
      · exact rerouted_of_ne heq
    simp only [hsame]
    exact h.via_count q' hq' hnot.1 p

/-- Putting a fence on an edge that is split. -/
theorem Placed.reroute (h : Placed ir F₀ D F A) (hq : q ∈ F₀.instructions) {v : List ι}
    (hsub : Subdivides F.predecessors F'.predecessors (· ∈ F.instructions) p q v)
    (hmem : ∀ i, i ∈ F'.instructions ↔ i ∈ F.instructions ∨ i ∈ v) (hkeeps : KeepsBlocks ir F F')
    (hmitigation : ∃ n ∈ v, ir.isMitigationInst n = true) (hp : (p, []) ∈ A.via q)
    (hnot : q ∉ fenced ir F₀ D) (hnew : (p, q) ∉ D) (hcut : IR.shouldCutEdge F₀ q = true)
    (hslots : (F₀.successorsInst p).length ≠ 1) : ∃ A', Placed ir F₀ (D ++ [(p, q)]) F' A' := by
  have hfenced : fenced ir F₀ (D ++ [(p, q)]) = fenced ir F₀ D := by
    rw [fenced_append, fenceStep, if_pos ⟨hcut, hnot⟩, if_neg hslots]
  have hne : v ≠ [] := by
    obtain ⟨n, hn, -⟩ := hmitigation
    exact List.ne_nil_of_mem hn
  have hdecorates := h.decorates.subdivide hsub hq (h.run_nil q hq hnot) hp
  simp only [← hmem] at hdecorates
  refine ⟨_, hdecorates, h.keeps.trans hkeeps, ?_, ?_, ?_, h.run_phi, ?_, ?_⟩
  · rw [hfenced]
    exact h.fenced_phi
  · rw [hfenced]
    exact h.run_nil
  · rw [hfenced]
    exact h.run_mitigation
  · intro q' hq' e he hline
    by_cases hqq : q' = q
    · subst hqq
      simp only [Function.update_self] at he
      rcases List.mem_cons.mp he with rfl | he
      · exact ⟨hcut, hmitigation⟩
      · exact h.via_mitigation q' hq' e (List.mem_of_mem_erase he) hline
    · simp only [Function.update_of_ne hqq] at he
      exact h.via_mitigation q' hq' e he hline
  · rw [hfenced]
    intro q' hq' hnot' p'
    have hcount := h.via_count q' hq' hnot' p'
    by_cases hqq : q' = q
    · subst hqq
      have hline (p' : ι) : (p, v) ≠ (p', []) := fun heq => hne (Prod.mk.inj heq).2
      simp only [Function.update_self, List.count_cons_of_ne (hline p')]
      by_cases hpp : p' = p
      · subst hpp
        have hold : ¬ Rerouted F₀ D p' q' := fun hr => hnew hr.1
        have hrerouted : Rerouted F₀ (D ++ [(p', q')]) p' q' :=
          ⟨List.mem_append_right _ (.head []), hcut, hslots⟩
        have hpos : 0 < (A.via q').count (p', []) := List.count_pos_iff.mpr hp
        rw [if_neg hold] at hcount
        rw [if_pos hrerouted, List.count_erase_self]
        omega
      · have hedge : (p', ([] : List ι)) ≠ (p, []) := fun heq => hpp (Prod.mk.inj heq).1
        simp only [rerouted_of_ne fun heq => hpp (Prod.mk.inj heq).1, List.count_erase_of_ne hedge]
        exact hcount
    · simp only [Function.update_of_ne hqq, rerouted_of_ne fun heq => hqq (Prod.mk.inj heq).2]
      exact hcount

/-- Splitting is up to the edges that several lead to, until a fence stands before the node. -/
theorem Placed.shouldCutEdge_iff (h : Placed ir F₀ D F A) (hq : q ∈ F₀.instructions) :
    IR.shouldCutEdge F q = true ↔ IR.shouldCutEdge F₀ q = true ∧ q ∉ fenced ir F₀ D := by
  unfold IR.shouldCutEdge
  rw [decide_eq_true_eq, decide_eq_true_eq]
  by_cases hin : q ∈ fenced ir F₀ D
  · obtain ⟨i, hi, -⟩ := h.run_mitigation q hq hin
    rw [h.decorates.length_one hq (List.ne_nil_of_mem hi)]
    simp [hin]
  · rw [h.decorates.length_eq hq (h.run_nil q hq hin)]
    simp [hin]

/-- The search for the first instruction that is no PHI stops where it did, or at the fences
that have been put there. -/
theorem Placed.firstNonPHI (h : Placed ir F₀ D F A)
    (hterm : ∀ P ∈ F.blocks, ir.isPHINode P.terminator = false) (hphis : PHIs ir F₀ i l x) :
    ∃ l₁ y l₂, A.run x ++ [x] = l₁ ++ y :: l₂ ∧ ir.firstNonPHI F i = some y := by
  induction hphis with
  | here hx hphi => exact ⟨_, _, [], rfl, firstNonPHI_self (h.decorates.old_nodes _ hx) hphi⟩
  | @phi B pre post i j x l hB hinstrs hphi hrest ih =>
    have hj : j ∈ F₀.instructions := mem_instructions.mpr ⟨B, hB, by simp [hinstrs]⟩
    have hpreds := predecessors_next hB hinstrs
    obtain ⟨e, he, hfst⟩ : ∃ e ∈ A.via j, e.1 = i := by
      refine List.mem_map.mp ((h.decorates.via_old j hj).mem_iff.mpr ?_)
      rw [hpreds]
      exact .head []
    have hline : e.2 = [] := by
      by_contra hne
      have hcut := (h.via_mitigation j hj e he hne).1
      simp [IR.shouldCutEdge, hpreds] at hcut
    have hchain := h.decorates.chain hj he
    rw [hfst, hline, List.nil_append] at hchain
    cases hrun : A.run j with
    | nil =>
      rw [hrun] at hchain
      have hedge : F.Edge i j := mem_predecessors.mp (List.isChain_cons_cons.mp hchain).1
      rw [firstNonPHI_next hterm hphi hedge]
      exact ih
    | cons y l' =>
      have hy : y ∈ A.run j := by simp [hrun]
      have hnew := h.decorates.run_new j hj y hy
      rw [hrun] at hchain
      have hedge : F.Edge i y := mem_predecessors.mp (List.isChain_cons_cons.mp hchain).1
      rw [firstNonPHI_next hterm hphi hedge, firstNonPHI_self hnew.1 (h.run_phi j hj y hy)]
      cases hrest with
      | here => exact ⟨[], y, l' ++ [j], by rw [hrun]; rfl, rfl⟩
      | phi _ _ hphi' _ =>
        have hin : j ∈ fenced ir F₀ D := by
          by_contra hnot
          rw [h.run_nil j hj hnot] at hy
          cases hy
        rw [h.fenced_phi j hin] at hphi'
        cases hphi'

/-- Mitigating an edge that is not split. -/
theorem Placed.step_before (hir : ir.Lawful) (hF₀ : ir.WellFormed F₀) (h : Placed ir F₀ D F A)
    (ndebug : Bool) (hdst : e.2 ∈ F₀.instructions)
    (hcut : ¬ (IR.shouldCutEdge F₀ e.2 = true ∧ e.2 ∉ fenced ir F₀ D)) :
    ∃ F' A', ir.mitigateEdge ndebug F e = .ok F' ∧ Placed ir F₀ (D ++ [e]) F' A' := by
  have hterm₀ (P : BasicBlock β ι) (hP : P ∈ F₀.blocks) := (hF₀ P hP).1
  obtain ⟨l, x, hphis⟩ := exists_phis hterm₀ hdst
  obtain ⟨hx, hphi⟩ := hphis.last
  obtain ⟨l₁, y, l₂, hy, hfirst⟩ := h.firstNonPHI (h.keeps.terminators hterm₀) hphis
  have hcutF : IR.shouldCutEdge F e.2 = false :=
    Bool.eq_false_iff.mpr (mt (h.shouldCutEdge_iff hdst).mp hcut)
  have hyF : y ∈ F.instructions := by
    have hin : y ∈ A.run x ++ [x] := by simp [hy]
    rcases List.mem_append.mp hin with hin | hin
    · exact (h.decorates.run_new x hx y hin).1
    · exact List.mem_singleton.mp hin ▸ h.decorates.old_nodes x hx
  obtain ⟨ns, hins, hmitigation⟩ := inserts_createMitigation hir hyF hfirst
  have hfenced : fenced ir F₀ (D ++ [e]) = fenced ir F₀ D ++ [x] := by
    rw [fenced_append, fenceStep, if_neg hcut, hphis.eq.1]
    rfl
  obtain ⟨A', hA'⟩ := h.fence hx hphi hins hmitigation hy hfenced
    fun hc hn => absurd ⟨hc, hn⟩ hcut
  refine ⟨_, A', ?_, hA'⟩
  unfold IR.mitigateEdge
  rw [getMitigationPoint_of_not_cut ndebug hcutF]
  rfl

/-- A slot that leads along an edge leads directly to its destination until the edge is mitigated. -/
theorem Placed.slot_left (h : Placed ir F₀ D F A) (hq : q ∈ F₀.instructions)
    (hnot : q ∉ fenced ir F₀ D) (hnew : (p, q) ∉ D) (hp : p ∈ F₀.predecessors q) :
    (p, []) ∈ A.via q := by
  have hcount := h.via_count q hq hnot p
  have hold : ¬ Rerouted F₀ D p q := fun hr => hnew hr.1
  rw [if_neg hold, Nat.add_zero] at hcount
  exact List.count_pos_iff.mp (hcount ▸ List.count_pos_iff.mpr hp)

/-- The terminators have as many slots as in the original function. -/
theorem Placed.length_succs (h : Placed ir F₀ D F A) {P P₀ : BasicBlock β ι} (hP : P ∈ F.blocks)
    (hP₀ : P₀ ∈ F₀.blocks) (hterm : P.terminator = P₀.terminator) :
    (F₀.successorsInst P.terminator).length = P.succs.length := by
  obtain ⟨P', hP', hterm', hlength⟩ := h.keeps.twin P₀ hP₀
  rw [← hterm] at hterm'
  obtain rfl := block_unique hP hP' (terminator_mem P) (hterm' ▸ terminator_mem P')
  rw [hterm, length_successorsInst hP₀, hlength]

section Split

variable {P S : BasicBlock β ι} (hir : ir.Lawful) (h : Placed ir F₀ D F A) (hP : P ∈ F.blocks)
  (hS : S ∈ F.blocks) (hl : S.label ∈ P.succs) (hmany : 2 ≤ (F.predecessorBlocks S).length)
  (hslots : (F₀.successorsInst P.terminator).length = P.succs.length)
  (hcut : IR.shouldCutEdge F₀ S.front = true) (hnot : S.front ∉ fenced ir F₀ D)

include hir h hP hS hl hmany hslots hcut hnot

/-- Splitting the block of an edge puts the fence before the source. -/
theorem Placed.split_block (hsrc : P.terminator ∈ F₀.instructions)
    (hphi : ir.isPHINode P.terminator = false) (hsingle : P.succs.length = 1) :
    ∃ A', Placed ir F₀ (D ++ [(P.terminator, S.front)])
      (ir.createMitigation (ir.splitEdge F P S).1 (ir.splitEdge F P S).2.front) A' := by
  obtain ⟨b, hsplit, hb⟩ := hir.single F P S hP hS hl hsingle hmany
  have hblock := inserts_splitsBlock hsplit hP hsingle hb
  have hsrcF : P.terminator ∈ F.instructions := h.decorates.old_nodes _ hsrc
  have hsrcF' := (hblock.mem_iff _).mpr (.inl hsrcF)
  obtain ⟨ns, hins, n, hn, hmitigation⟩ :=
    inserts_createMitigation hir hsrcF' (firstNonPHI_self hsrcF' hphi)
  have hfenced : fenced ir F₀ (D ++ [(P.terminator, S.front)]) =
      fenced ir F₀ D ++ [P.terminator] := by
    rw [fenced_append, fenceStep, if_pos ⟨hcut, hnot⟩, if_pos (hslots.trans hsingle)]
  have hrun : A.run P.terminator ++ [P.terminator] = A.run P.terminator ++ P.terminator :: [] := rfl
  rw [hsplit.front_fresh]
  exact h.fence hsrc hphi (hblock.append hsrcF hins) ⟨n, List.mem_append_right _ hn, hmitigation⟩
    hrun hfenced fun _ _ => hslots.trans hsingle

/-- Splitting a critical edge puts the fence on the edge. -/
theorem Placed.split_critical (hdst : S.front ∈ F₀.instructions)
    (hpred : P.terminator ∈ F₀.predecessors S.front) (hnew : (P.terminator, S.front) ∉ D)
    (htwo : 2 ≤ P.succs.length) :
    ∃ A', Placed ir F₀ (D ++ [(P.terminator, S.front)])
      (ir.createMitigation (ir.splitEdge F P S).1 (ir.splitEdge F P S).2.front) A' := by
  obtain ⟨hsplit, hN⟩ := hir.critical F P S hP hS hl htwo hmany
  have hNF' := (hsplit.mem_iff (i := (ir.splitEdge F P S).2.terminator) hP).mpr (.inr rfl)
  obtain ⟨ns, hins, n, hn, hmitigation⟩ :=
    inserts_createMitigation hir hNF' (firstNonPHI_self hNF' hN)
  have hbefore := hins.before
  simp only [hsplit.mem_iff hP, ← List.mem_singleton] at hbefore
  have hSF : S.front ∈ F.instructions := h.decorates.old_nodes _ hdst
  have hsub := (hsplit.subdivides hP hS hl).insertBefore hSF List.not_mem_nil hbefore
  have hmem (i : ι) : i ∈ (ir.createMitigation (ir.splitEdge F P S).1
      (ir.splitEdge F P S).2.terminator).instructions ↔
      i ∈ F.instructions ∨ i ∈ ns ++ [(ir.splitEdge F P S).2.terminator] := by
    rw [hins.mem_iff, hsplit.mem_iff hP, List.mem_append, List.mem_singleton]
    tauto
  rw [hsplit.front_fresh]
  exact h.reroute hdst hsub hmem ((keepsBlocks_splitsCritical hsplit hP hN).trans hins.keeps)
    ⟨n, List.mem_append_left _ hn, hmitigation⟩ (h.slot_left hdst hnot hnew hpred) hnot hnew hcut
    (by omega)

end Split

/-- Mitigating an edge that is split. -/
theorem Placed.step_split (hir : ir.Lawful) (hF₀ : ir.WellFormed F₀) (h : Placed ir F₀ D F A)
    (ndebug : Bool) (hdst : e.2 ∈ F₀.instructions) (hgraph : e.2 ∈ ir.graphDsts F₀ e.1)
    (hnew : e ∉ D) (hcut : IR.shouldCutEdge F₀ e.2 = true) (hnot : e.2 ∉ fenced ir F₀ D) :
    ∃ F' A', ir.mitigateEdge ndebug F e = .ok F' ∧ Placed ir F₀ (D ++ [e]) F' A' := by
  obtain ⟨src, dst⟩ := e
  dsimp only at hdst hgraph hcut hnot
  have hpred₀ := mem_predecessors_of_cut hgraph hcut
  have hcutF := (h.shouldCutEdge_iff hdst).mpr ⟨hcut, hnot⟩
  have hpred : src ∈ F.predecessors dst :=
    (h.decorates.perm_tops hdst (h.run_nil dst hdst hnot)).mem_iff.mpr
      (List.mem_map.mpr ⟨_, h.slot_left hdst hnot hnew hpred₀, rfl⟩)
  obtain ⟨P, hP, S, hS, hl, rfl, rfl⟩ := exists_jump hpred (of_decide_eq_true hcutF)
  obtain ⟨P₀, hP₀, -, -, -, hsrc, -⟩ := exists_jump hpred₀ (of_decide_eq_true hcut)
  have hslots := h.length_succs hP hP₀ hsrc
  have hmany : 2 ≤ (F.predecessorBlocks S).length := by
    have hlength := of_decide_eq_true hcutF
    rwa [predecessors_front hS, ← map_back_predecessorBlocks, List.length_map] at hlength
  have hret : ir.mitigateEdge ndebug F (P.terminator, S.front) =
      .ok (ir.createMitigation (ir.splitEdge F P S).1 (ir.splitEdge F P S).2.front) := by
    unfold IR.mitigateEdge
    rw [getMitigationPoint_of_cut ndebug hP hS hcutF]
    rfl
  by_cases hsingle : P.succs.length = 1
  · have hphi := h.keeps.terminators (fun Q hQ => (hF₀ Q hQ).1) P hP
    obtain ⟨A', hA'⟩ := h.split_block hir hP hS hl hmany hslots hcut hnot (predecessors_mem hpred₀)
      hphi hsingle
    exact ⟨_, A', hret, hA'⟩
  · have hpos := List.length_pos_of_mem hl
    obtain ⟨A', hA'⟩ := h.split_critical hir hP hS hl hmany hslots hcut hnot hdst hpred₀ hnew
      (by omega)
    exact ⟨_, A', hret, hA'⟩

/-- The edges of the S-CFG. -/
def InGraph (ir : IR β ι) (F : CFG β ι) (e : ι × ι) : Prop :=
  e.1 ∈ F.instructions ∧ e.2 ∈ ir.graphDsts F e.1

instance (ir : IR β ι) (F : CFG β ι) (e : ι × ι) : Decidable (InGraph ir F e) :=
  inferInstanceAs (Decidable (_ ∧ _))

theorem InGraph.dst_mem (h : InGraph ir F e) : e.2 ∈ F.instructions := by
  rcases List.mem_append.mp h.2 with hdst | hdst
  · exact (mem_successorsInst.mp hdst).mem.2
  · split_ifs at hdst
    · exact (List.mem_filter.mp hdst).1
    · cases hdst

/-- Mitigating an edge that has not been mitigated returns, and puts its fence in place. -/
theorem Placed.step (hir : ir.Lawful) (hF₀ : ir.WellFormed F₀) (h : Placed ir F₀ D F A)
    (ndebug : Bool) (he : InGraph ir F₀ e) (hnew : e ∉ D) :
    ∃ F' A', ir.mitigateEdge ndebug F e = .ok F' ∧ Placed ir F₀ (D ++ [e]) F' A' := by
  by_cases hcut : IR.shouldCutEdge F₀ e.2 = true ∧ e.2 ∉ fenced ir F₀ D
  · exact h.step_split hir hF₀ ndebug he.dst_mem he.2 hnew hcut.1 hcut.2
  · exact h.step_before hir hF₀ ndebug he.dst_mem hcut

/-- Mitigating all cut edges returns, with all fences in place. -/
theorem mitigate_placed (hir : ir.Lawful) (hF₀ : ir.WellFormed F₀) (ndebug : Bool)
    {cutEdges : List (ι × ι)} (hnodup : cutEdges.Nodup) (hgraph : ∀ e ∈ cutEdges, InGraph ir F₀ e) :
    ∃ F' A, ir.mitigate ndebug F₀ cutEdges = .ok F' ∧ Placed ir F₀ cutEdges F' A := by
  have key (rest : List (ι × ι)) {D : List (ι × ι)} {F : CFG β ι} (hplaced : ∃ A, Placed ir F₀ D F A)
      (hnodup : (D ++ rest).Nodup) (hgraph : ∀ e ∈ rest, InGraph ir F₀ e) :
      ∃ F' A, ir.mitigate ndebug F rest = .ok F' ∧ Placed ir F₀ (D ++ rest) F' A := by
    induction rest generalizing D F with
    | nil =>
      obtain ⟨A, hA⟩ := hplaced
      rw [List.append_nil]
      exact ⟨F, A, rfl, hA⟩
    | cons e rest ih =>
      obtain ⟨A, hA⟩ := hplaced
      obtain ⟨he, hrest⟩ := List.forall_mem_cons.mp hgraph
      have hnew : e ∉ D := fun hin =>
        (List.nodup_append.mp hnodup).2.2 e hin e (.head rest) rfl
      obtain ⟨F₁, A₁, hstep, hA₁⟩ := hA.step hir hF₀ ndebug he hnew
      rw [List.append_cons] at hnodup
      obtain ⟨F', A', hret, hA'⟩ := ih ⟨A₁, hA₁⟩ hnodup hrest
      refine ⟨F', A', ?_, List.append_cons D e rest ▸ hA'⟩
      unfold IR.mitigate
      rw [List.foldlM_cons, Exec.bind_eq_ok]
      exact ⟨F₁, hstep, hret⟩
  exact key cutEdges Placed.init hnodup hgraph

end Placed

end Clou.Mitigation
