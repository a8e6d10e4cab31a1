-- SUMMARY: Which paths the fences of the cut edges cover: every path along a cut edge meets a fence, unless a second slot leads along it.
import Serberus.Mitigation.Numbered
import Serberus.Mitigation.Placement

/-!
# Covered Edges

A cut edge is covered when every path along it executes a fence behind the instruction
before its source, and before the first instruction at or behind its destination that is
no PHI. An edge of the S-CFG from an exit to an entry is no path of the function: for
it every arrival at the entry has to execute a fence.
-/

namespace Clou.Mitigation

open ControlFlow CFG Subdivision

variable {β ι : Type} [DecidableEq ι]

/-! ## Paths -/

/-- `w` is a piece of a path of `F'`. The instructions of `F` on it are `os`, it ends in the
last of them, and begins directly behind an instruction of `F`, or where nothing leads to. -/
structure Stretch (F F' : CFG β ι) (os w : List ι) : Prop where
  chain : w.IsChain F'.Edge
  old : w.filter (· ∈ F.instructions) = os
  last : w.getLast? = os.getLast?
  start : ∀ j ∈ w.head?, (∃ p ∈ F.instructions, F'.Edge p j) ∨ ∀ p, ¬ F'.Edge p j

/-- Every such piece executes a fence before its last instruction. -/
def Fenced (ir : IR β ι) (F F' : CFG β ι) (os : List ι) : Prop :=
  ∀ w, Stretch F F' os w → ∃ i ∈ w.dropLast, ir.isMitigationInst i = true

/-- The instructions from `i` up to the first that is no PHI. -/
def upTo (ir : IR β ι) (F : CFG β ι) (i : ι) : List ι := ir.phis F i ++ (ir.firstNonPHI F i).toList

variable [DecidableEq β]

/-- What the fences of `F'` are for, for an edge of the S-CFG of `F`. -/
structure Covered (ir : IR β ι) (F F' : CFG β ι) (e : ι × ι) : Prop where
  along : F.Edge e.1 e.2 → Fenced ir F F' (e.1 :: upTo ir F e.2)
  arrival : ir.isExit e.1 = true → ir.isEntry F e.2 = true → e.2 ≠ e.1 → Fenced ir F F' (upTo ir F e.2)

/-- A fence that stands on all paths along an edge to `dst` although it was put there for
another cut edge: before the source, before the end, or on all edges into the source. -/
def Shielded (ir : IR β ι) (F : CFG β ι) (cutEdges : List (ι × ι)) (src dst : ι) : Prop :=
  src ∈ fenced ir F cutEdges ∨ (∃ x ∈ ir.firstNonPHI F dst, x ∈ fenced ir F cutEdges) ∨
    F.predecessors src ≠ [] ∧
      ∀ p ∈ F.predecessors src, Rerouted F cutEdges p src ∧ (F.predecessors src).count p = 1

instance (ir : IR β ι) (F : CFG β ι) (cutEdges : List (ι × ι)) (src dst : ι) :
    Decidable (Shielded ir F cutEdges src dst) :=
  inferInstanceAs (Decidable (_ ∨ _ ∨ _))

section Covered

variable {ir : IR β ι} {F₀ F : CFG β ι} {D : List (ι × ι)} {A : Decoration ι} {e : ι × ι}
  {i p q x src dst : ι} {l os os' w : List ι}

theorem edge_predecessors (F : CFG β ι) : Subdivision.Edge F.predecessors = F.Edge := by
  funext i j
  exact propext mem_predecessors

omit [DecidableEq ι] in
theorem mem_dropLast {s t : List ι} (hi : i ∈ s) : i ∈ (s ++ x :: t).dropLast := by
  rw [List.dropLast_append_of_ne_nil (List.cons_ne_nil x t)]
  exact List.mem_append_left _ hi

/-- A piece of a path on which `q` is the next old instruction behind `p`. -/
theorem Placed.between (h : Placed ir F₀ D F A) (hw : Stretch F₀ F (os ++ p :: q :: os') w) :
    ∃ e ∈ A.via q, e.1 = p ∧ ∀ i ∈ e.2 ++ A.run q, i ∈ w.dropLast := by
  obtain ⟨e, he, hfst, s, t, rfl⟩ :=
    h.decorates.between_of_filter (edge_predecessors F ▸ hw.chain) hw.old
  refine ⟨e, he, hfst, fun i hi => ?_⟩
  have hsplit : s ++ p :: (e.2 ++ (A.run q ++ q :: t)) = (s ++ p :: (e.2 ++ A.run q)) ++ q :: t := by
    simp
  rw [hsplit]
  exact mem_dropLast (List.mem_append_right _ (.tail p hi))

/-- What comes before the first old instruction of a piece of a path. -/
theorem Placed.start (h : Placed ir F₀ D F A) (hw : Stretch F₀ F (q :: os) w) :
    (∃ e ∈ A.via q, ∀ i ∈ e.2 ++ A.run q, i ∈ w.dropLast) ∨
      A.via q = [] ∧ ∀ i ∈ A.run q, i ∈ w.dropLast := by
  have hchain := edge_predecessors F ▸ hw.chain
  obtain ⟨l, t, rfl, hl⟩ := h.decorates.start_of_filter hchain hw.old
    (edge_predecessors F ▸ hw.start)
  rcases hl with ⟨e, he, rfl⟩ | ⟨hvia, rfl⟩
  · exact .inl ⟨e, he, fun i hi => mem_dropLast hi⟩
  · exact .inr ⟨hvia, fun i hi => mem_dropLast hi⟩

/-- A fence before the first instruction of a path. -/
theorem Placed.fenced_head (h : Placed ir F₀ D F A) (hq : q ∈ F₀.instructions)
    (hin : q ∈ fenced ir F₀ D) : Fenced ir F₀ F (q :: os) := by
  intro w hw
  obtain ⟨i, hi, hmitigation⟩ := h.run_mitigation q hq hin
  rcases h.start hw with ⟨e, -, hmem⟩ | ⟨-, hmem⟩
  · exact ⟨i, hmem i (List.mem_append_right _ hi), hmitigation⟩
  · exact ⟨i, hmem i hi, hmitigation⟩

/-- A fence before the last instruction of a path. -/
theorem Placed.fenced_last (h : Placed ir F₀ D F A) (hx : x ∈ F₀.instructions)
    (hin : x ∈ fenced ir F₀ D) : Fenced ir F₀ F (os ++ [x]) := by
  rcases List.eq_nil_or_concat' os with rfl | ⟨os, p, rfl⟩
  · exact h.fenced_head hx hin
  · intro w hw
    rw [List.append_assoc] at hw
    obtain ⟨i, hi, hmitigation⟩ := h.run_mitigation x hx hin
    obtain ⟨e, -, -, hmem⟩ := h.between hw
    exact ⟨i, hmem i (List.mem_append_right _ hi), hmitigation⟩

/-- A slot that has been rerouted is no direct edge any more, unless it has a twin. -/
theorem Placed.via_mitigation_of (h : Placed ir F₀ D F A) (hq : q ∈ F₀.instructions)
    (hnot : q ∉ fenced ir F₀ D) (hp : Rerouted F₀ D p q) (hone : (F₀.predecessors q).count p = 1)
    {e : ι × List ι} (he : e ∈ A.via q) (hfst : e.1 = p) :
    ∃ i ∈ e.2, ir.isMitigationInst i = true := by
  refine (h.via_mitigation q hq e he fun hnil => ?_).2
  have hcount := h.via_count q hq hnot p
  rw [if_pos hp, hone, Nat.add_eq_right, List.count_eq_zero] at hcount
  exact hcount (hfst ▸ hnil ▸ he)

theorem subset_fenceStep (hx : x ∈ l) : x ∈ fenceStep ir F₀ l e := by
  unfold fenceStep
  split_ifs
  · exact List.mem_append_left _ hx
  · exact hx
  · exact List.mem_append_left _ hx

/-- The fences that mitigating a cut edge has put before instructions are still there. -/
theorem exists_fenceStep (ir : IR β ι) (F₀ : CFG β ι) (he : e ∈ D) :
    ∃ fences, ∀ x ∈ fenceStep ir F₀ fences e, x ∈ fenced ir F₀ D := by
  have hmono {x : ι} (ds : List (ι × ι)) {l : List ι} (hx : x ∈ l) :
      x ∈ ds.foldl (fenceStep ir F₀) l := by
    induction ds generalizing l with
    | nil => exact hx
    | cons d ds ih => exact ih (subset_fenceStep hx)
  obtain ⟨D₁, D₂, rfl⟩ := List.append_of_mem he
  refine ⟨fenced ir F₀ D₁, fun x hx => ?_⟩
  unfold fenced
  rw [List.foldl_append]
  exact hmono D₂ hx

/-- Where mitigating a cut edge has put its fence. -/
theorem fenced_cases (ir : IR β ι) (F₀ : CFG β ι) (he : e ∈ D) :
    (∀ x ∈ ir.firstNonPHI F₀ e.2, x ∈ fenced ir F₀ D) ∨
      IR.shouldCutEdge F₀ e.2 = true ∧ (e.1 ∈ fenced ir F₀ D ∨ Rerouted F₀ D e.1 e.2) := by
  obtain ⟨fences, hin⟩ := exists_fenceStep ir F₀ he
  by_cases hcut : IR.shouldCutEdge F₀ e.2 = true ∧ e.2 ∉ fences
  · by_cases hsingle : (F₀.successorsInst e.1).length = 1
    · refine .inr ⟨hcut.1, .inl (hin _ ?_)⟩
      rw [fenceStep, if_pos hcut, if_pos hsingle]
      exact List.mem_append_right _ (.head [])
    · exact .inr ⟨hcut.1, .inr ⟨he, hcut.1, hsingle⟩⟩
  · refine .inl fun x hx => hin _ ?_
    rw [fenceStep, if_neg hcut]
    exact List.mem_append_right _ (Option.mem_toList.mpr hx)

omit [DecidableEq β] in
theorem PHIs.upTo_eq (h : PHIs ir F₀ i l x) : upTo ir F₀ i = l ++ [x] := by
  unfold upTo
  rw [h.eq.1, h.eq.2]
  rfl

/-- A shield is a fence on every path. -/
theorem Placed.fenced_of_shielded (h : Placed ir F₀ D F A) (hphis : PHIs ir F₀ dst l x)
    (hsrc : src ∈ F₀.instructions) (hshield : Shielded ir F₀ D src dst) :
    Fenced ir F₀ F (src :: (l ++ [x])) := by
  rcases hshield with hin | ⟨y, hy, hin⟩ | ⟨hne, hall⟩
  · exact h.fenced_head hsrc hin
  · obtain rfl : x = y := Option.some.inj (hphis.eq.1.symm.trans hy)
    rw [← List.cons_append]
    exact h.fenced_last hphis.last.1 hin
  · by_cases hin : src ∈ fenced ir F₀ D
    · exact h.fenced_head hsrc hin
    · intro w hw
      have hperm := h.decorates.via_old src hsrc
      rcases h.start hw with ⟨e, he, hmem⟩ | ⟨hvia, -⟩
      · obtain ⟨hrerouted, hone⟩ := hall e.1 (h.decorates.fst_mem hsrc he)
        obtain ⟨i, hi, hmitigation⟩ := h.via_mitigation_of hsrc hin hrerouted hone he rfl
        exact ⟨i, hmem i (List.mem_append_left _ hi), hmitigation⟩
      · rw [hvia] at hperm
        exact absurd hperm.symm.eq_nil hne

/-- A cut edge is covered when one slot leads along it, and when it is shielded. -/
theorem Placed.covered (h : Placed ir F₀ D F A) (hF₀ : ir.WellFormed F₀) (he : e ∈ D)
    (hgraph : InGraph ir F₀ e)
    (hcond : 2 ≤ (F₀.predecessors e.2).count e.1 → Shielded ir F₀ D e.1 e.2) :
    Covered ir F₀ F e := by
  obtain ⟨src, dst⟩ := e
  dsimp only at hcond
  have hdst : dst ∈ F₀.instructions := hgraph.dst_mem
  obtain ⟨l, x, hphis⟩ := exists_phis (fun P hP => (hF₀ P hP).1) hdst
  have hfirst := hphis.eq.1
  have hcases := fenced_cases ir F₀ he
  refine ⟨fun hedge => ?_, fun hexit hentry hne => ?_⟩
  · dsimp only at hcases hedge ⊢
    rw [hphis.upTo_eq]
    by_cases hshield : Shielded ir F₀ D src dst
    · exact h.fenced_of_shielded hphis hgraph.1 hshield
    have hsrc : src ∉ fenced ir F₀ D := fun hin => hshield (.inl hin)
    have hnotx : x ∉ fenced ir F₀ D := fun hin => hshield (.inr (.inl ⟨x, hfirst, hin⟩))
    have hnot : dst ∉ fenced ir F₀ D := fun hin =>
      hnotx ((hphis.of_not_phi (h.fenced_phi dst hin)).1 ▸ hin)
    have hrerouted : Rerouted F₀ D src dst :=
      (hcases.resolve_left fun hall => hnotx (hall x hfirst)).2.resolve_left hsrc
    have hone : (F₀.predecessors dst).count src = 1 := by
      have hpos : 0 < (F₀.predecessors dst).count src :=
        List.count_pos_iff.mpr (mem_predecessors.mpr hedge)
      have hfew := mt hcond hshield
      omega
    intro w hw
    obtain ⟨l', hl'⟩ := hphis.head
    rw [hl', ← List.nil_append (src :: dst :: l')] at hw
    obtain ⟨e, he, hfst, hmem⟩ := h.between hw
    obtain ⟨i, hi, hmitigation⟩ := h.via_mitigation_of hdst hnot hrerouted hone he hfst
    exact ⟨i, hmem i (List.mem_append_left _ hi), hmitigation⟩
  · rw [hphis.upTo_eq]
    refine h.fenced_last hphis.last.1 ?_
    refine hcases.elim (fun hall => hall x hfirst) fun hcut => ?_
    have hentry' := shouldCutEdge_of_isEntry hentry
    rw [hcut.1] at hentry'
    cases hentry'

/-- A slot that is left leads directly to its destination. -/
theorem Placed.direct (h : Placed ir F₀ D F A) (hq : q ∈ F₀.instructions)
    (hnot : q ∉ fenced ir F₀ D) (hp : p ∈ F₀.predecessors q)
    (hleft : Rerouted F₀ D p q → (F₀.predecessors q).count p ≠ 1) : F.Edge p q := by
  have hpos : 0 < (F₀.predecessors q).count p := List.count_pos_iff.mpr hp
  have hcount := h.via_count q hq hnot p
  have hvia : (p, []) ∈ A.via q := by
    refine List.count_pos_iff.mp ?_
    split_ifs at hcount with hrerouted
    · have htwin := hleft hrerouted
      omega
    · omega
  have hchain := h.decorates.chain hq hvia
  rw [h.run_nil q hq hnot] at hchain
  exact mem_predecessors.mp (List.isChain_cons_cons.mp hchain).1

/-- Nothing is put between PHIs. -/
theorem Placed.chain_phis (h : Placed ir F₀ D F A) (hnot : x ∉ fenced ir F₀ D)
    (hphis : PHIs ir F₀ i l x) : (l ++ [x]).IsChain F.Edge := by
  induction hphis with
  | here => exact .singleton _
  | @phi B pre post i j x l hB hinstrs _ hrest ih =>
    obtain ⟨l', hl'⟩ := hrest.head
    have hj : j ∈ F₀.instructions := mem_instructions.mpr ⟨B, hB, by simp [hinstrs]⟩
    have hpreds := predecessors_next hB hinstrs
    have hedge : F.Edge i j := by
      refine h.direct hj (fun hin => ?_) (by simp [hpreds]) fun hrerouted => ?_
      · exact hnot ((hrest.of_not_phi (h.fenced_phi j hin)).1 ▸ hin)
      · have hcut := hrerouted.2.1
        simp [IR.shouldCutEdge, hpreds] at hcut
    have hchain := ih hnot
    rw [hl'] at hchain
    rw [List.cons_append, hl']
    exact List.isChain_cons_cons.mpr ⟨hedge, hchain⟩

/-- A second slot along a cut edge that is not shielded passes no new instruction. -/
theorem Placed.stretch (h : Placed ir F₀ D F A) (hdst : dst ∈ F₀.instructions)
    (hphis : PHIs ir F₀ dst l x) (htwo : 2 ≤ (F₀.predecessors dst).count src)
    (hsrc : src ∉ fenced ir F₀ D) (hx : x ∉ fenced ir F₀ D)
    (hleft : ∀ p ∈ F₀.predecessors src, ∃ p ∈ F₀.predecessors src,
      ¬ (Rerouted F₀ D p src ∧ (F₀.predecessors src).count p = 1)) :
    Stretch F₀ F (src :: (l ++ [x])) (src :: (l ++ [x])) := by
  have hnot : dst ∉ fenced ir F₀ D := fun hin =>
    hx ((hphis.of_not_phi (h.fenced_phi dst hin)).1 ▸ hin)
  have hpred : src ∈ F₀.predecessors dst := List.count_pos_iff.mp (by omega)
  have hmem : src ∈ F₀.instructions := predecessors_mem hpred
  obtain ⟨l', hl'⟩ := hphis.head
  refine ⟨?_, ?_, rfl, fun j hj => ?_⟩
  · have hchain := h.chain_phis hx hphis
    rw [hl'] at hchain ⊢
    refine List.isChain_cons_cons.mpr ⟨h.direct hdst hnot hpred fun _ hone => ?_, hchain⟩
    omega
  · refine List.filter_eq_self.mpr fun i hi => decide_eq_true ?_
    rcases List.mem_cons.mp hi with rfl | hi
    · exact hmem
    · exact hphis.mem hi
  · obtain rfl := Option.some.inj hj
    by_cases hnone : ∃ p, p ∈ F₀.predecessors src
    · obtain ⟨p', hp'⟩ := hnone
      obtain ⟨p, hp, hslot⟩ := hleft p' hp'
      exact .inl ⟨p, predecessors_mem hp,
        h.direct hmem hsrc hp fun hrerouted hone => hslot ⟨hrerouted, hone⟩⟩
    · refine .inr fun p hp => ?_
      have hlength := h.decorates.length_eq hmem (h.run_nil src hmem hsrc)
      rw [List.eq_nil_iff_forall_not_mem.mpr (not_exists.mp hnone), List.length_nil,
        List.length_eq_zero_iff] at hlength
      have hin := mem_predecessors.mpr hp
      rw [hlength] at hin
      cases hin

/-- So it passes no fence. -/
theorem Placed.exposed (h : Placed ir F₀ D F A) (hir : ir.Lawful) (hF₀ : ir.WellFormed F₀)
    (hdst : dst ∈ F₀.instructions) (hphis : PHIs ir F₀ dst l x)
    (htwo : 2 ≤ (F₀.predecessors dst).count src) (hshield : ¬ Shielded ir F₀ D src dst) :
    ¬ Fenced ir F₀ F (src :: (l ++ [x])) := by
  have hstretch : Stretch F₀ F (src :: (l ++ [x])) (src :: (l ++ [x])) := by
    refine h.stretch hdst hphis htwo (fun hin => hshield (.inl hin))
      (fun hin => hshield (.inr (.inl ⟨x, hphis.eq.1, hin⟩))) fun p hp => ?_
    -- or else all edges into the source pass a fence
    by_contra hall
    refine hshield (.inr (.inr ⟨List.ne_nil_of_mem hp, fun p hp => ?_⟩))
    by_contra hleft
    exact hall ⟨p, hp, hleft⟩
  intro hfenced
  obtain ⟨i, hi, hmitigation⟩ := hfenced _ hstretch
  rw [← List.cons_append, List.dropLast_concat] at hi
  rcases List.mem_cons.mp hi with rfl | hi
  · have hpred : i ∈ F₀.predecessors dst := List.count_pos_iff.mp (by omega)
    have hlength : 1 < (F₀.predecessors dst).length := Nat.lt_of_lt_of_le htwo List.count_le_length
    obtain ⟨P, hP, -, -, -, rfl, -⟩ := exists_jump hpred hlength
    rw [(hF₀ P hP).2] at hmitigation
    cases hmitigation
  · rw [hir.phi_mitigation i (hphis.phi_of_mem hi)] at hmitigation
    cases hmitigation

/-- Mitigating the cut edges returns. All of them are covered just when no second slot leads
along one of them, or a fence that was put there for another one stands on its way. -/
theorem mitigate_covers_iff (hir : ir.Lawful) (hF₀ : ir.WellFormed F₀) (ndebug : Bool)
    {cutEdges : List (ι × ι)} (hnodup : cutEdges.Nodup) (hgraph : ∀ e ∈ cutEdges, InGraph ir F₀ e) :
    ∃ F', ir.mitigate ndebug F₀ cutEdges = .ok F' ∧
      ((∀ e ∈ cutEdges, Covered ir F₀ F' e) ↔
        ∀ e ∈ cutEdges, 2 ≤ (F₀.predecessors e.2).count e.1 → Shielded ir F₀ cutEdges e.1 e.2) := by
  obtain ⟨F', A, hret, h⟩ := mitigate_placed hir hF₀ ndebug hnodup hgraph
  refine ⟨F', hret, fun hall e he htwo => ?_, fun hcond e he =>
    h.covered hF₀ he (hgraph e he) (hcond e he)⟩
  by_contra hshield
  have hdst := (hgraph e he).dst_mem
  obtain ⟨l, x, hphis⟩ := exists_phis (fun P hP => (hF₀ P hP).1) hdst
  have hpred : e.1 ∈ F₀.predecessors e.2 := List.count_pos_iff.mp (by omega)
  have hfenced := (hall e he).along (mem_predecessors.mp hpred)
  rw [hphis.upTo_eq] at hfenced
  exact h.exposed hir hF₀ hdst hphis htwo hshield hfenced

end Covered

section Switch

/-- A terminator with the given slots to the blocks 1 and 2; block 1 jumps to block 2, too. -/
def switchTo (succs : List Nat) (hsuccs : ∀ l ∈ succs, l = 1 ∨ l = 2) : CFG Nat Instr where
  entry := { label := 0, body := [⟨.op, 0⟩], terminator := ⟨.br, 1⟩, succs := succs }
  rest := [
    { label := 1, body := [], terminator := ⟨.br, 2⟩, succs := [2] },
    { label := 2, body := [⟨.phi, 3⟩, ⟨.op, 4⟩], terminator := ⟨.ret, 5⟩, succs := [] }]
  labels_nodup := by simp
  instructions_nodup := by simp [BasicBlock.instructions]
  succs_mem := by simpa using fun l hl => .inr (hsuccs l hl)
  entry_not_succ := by
    have hentry : 0 ∉ succs := fun h => by simpa using hsuccs 0 h
    simpa using hentry

/-- Two jumps to block 2, one of which has to be split, and the edge from the exit to the entry. -/
def switchCutEdges : List (Instr × Instr) :=
  [(⟨.br, 1⟩, ⟨.phi, 3⟩), (⟨.br, 2⟩, ⟨.phi, 3⟩), (⟨.ret, 5⟩, ⟨.op, 0⟩)]

theorem mitigate_covers_iff_switchTo : ∃ F',
    (numberedIR false).mitigate false (switchTo [1, 2] (by decide)) switchCutEdges = .ok F' ∧
      ∀ e ∈ switchCutEdges, Covered (numberedIR false) (switchTo [1, 2] (by decide)) F' e := by
  have hF₀ : (numberedIR false).WellFormed (switchTo [1, 2] (by decide)) := by decide
  have hgraph : ∀ e ∈ switchCutEdges,
      InGraph (numberedIR false) (switchTo [1, 2] (by decide)) e := by decide
  obtain ⟨F', hret, hcovers⟩ :=
    mitigate_covers_iff (numberedIR_lawful false) hF₀ false (by decide) hgraph
  exact ⟨F', hret, hcovers.mpr (by decide)⟩

/-- Two cases of a switch that go to the same block: only one of them gets a fence. -/
theorem mitigate_leaves_slot : ∃ F',
    (numberedIR false).mitigate false (switchTo [1, 2, 2] (by decide))
      [(⟨.br, 1⟩, ⟨.phi, 3⟩)] = .ok F' ∧
      ¬ Covered (numberedIR false) (switchTo [1, 2, 2] (by decide)) F' (⟨.br, 1⟩, ⟨.phi, 3⟩) := by
  have hF₀ : (numberedIR false).WellFormed (switchTo [1, 2, 2] (by decide)) := by decide
  have hgraph : ∀ e ∈ [((⟨.br, 1⟩, ⟨.phi, 3⟩) : Instr × Instr)],
      InGraph (numberedIR false) (switchTo [1, 2, 2] (by decide)) e := by decide
  obtain ⟨F', A, hret, h⟩ :=
    mitigate_placed (numberedIR_lawful false) hF₀ false (by decide) hgraph
  have hdst := (hgraph _ (List.mem_singleton_self _)).dst_mem
  obtain ⟨l, x, hphis⟩ := exists_phis (fun P hP => (hF₀ P hP).1) hdst
  refine ⟨F', hret, fun hcovered => ?_⟩
  have hfenced := hcovered.along (mem_predecessors.mp (by decide))
  rw [hphis.upTo_eq] at hfenced
  exact h.exposed (numberedIR_lawful false) hF₀ hdst hphis (by decide) (by decide) hfenced

end Switch

end Clou.Mitigation
