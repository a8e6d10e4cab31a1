-- SUMMARY: Runs through a function with fences, over calls and returns, and that each of them that takes a cut edge meets one of the inserted fences.
import Serberus.Lib.Walk
import Serberus.Mitigation.Coverage

/-!
# Traces

A run of the program is in a function in pieces: calls and returns leave it, and it is
entered at its beginning or behind a call. The S-CFG has an edge from every exit to every other
entry for that. A trace that takes a cut edge meets an inserted fence behind the first instruction
of the trace and before its last one.
-/

namespace Clou.Mitigation

open ControlFlow CFG Subdivision

variable {β ι : Type} [DecidableEq ι]

/-! ## Traces of the Function with Fences -/

/-- `w` is a path of `F'`. The instructions of `F` on it are `os`, and it ends in the last of
them. -/
structure Piece (F F' : CFG β ι) (os w : List ι) : Prop where
  chain : w.IsChain F'.Edge
  old : w.filter (· ∈ F.instructions) = os
  last : w.getLast? = os.getLast?

/-- The path begins directly behind an instruction of `F`, or where nothing leads to. -/
def Arrives (F F' : CFG β ι) (w : List ι) : Prop :=
  ∀ j ∈ w.head?, (∃ p ∈ F.instructions, F'.Edge p j) ∨ ∀ p, ¬ F'.Edge p j

/-- `w` is a run through `F'`, and `os` are the instructions of `F` on it. From an exit `x` it
goes on at an entry `e`. -/
inductive Trace (ir : IR β ι) (F F' : CFG β ι) : List ι → List ι → Prop where
  | piece {os w : List ι} (h : Piece F F' os w) : Trace ir F F' os w
  | leave {os os' w w' : List ι} {x e : ι} (h : Piece F F' (os ++ [x]) w)
      (hexit : ir.isExit x = true) (hentry : ir.isEntry F e = true) (hne : e ≠ x)
      (harrives : Arrives F F' w') (hrest : Trace ir F F' (e :: os') w') :
      Trace ir F F' (os ++ x :: e :: os') (w ++ w')

/-- A terminator that leads to one place only. Its fence goes before it. -/
def LoneJump [DecidableEq β] (F : CFG β ι) (i : ι) : Prop :=
  IR.isTerminator F i = true ∧ (F.successorsInst i).length = 1

instance [DecidableEq β] (F : CFG β ι) (i : ι) : Decidable (LoneJump F i) :=
  inferInstanceAs (Decidable (_ ∧ _))

/-- An inserted fence stands between the first and the last instruction of `w`. -/
def Guarded (ir : IR β ι) (F : CFG β ι) (w : List ι) : Prop :=
  ∃ i ∈ w.dropLast, i ∉ F.instructions ∧ ir.isMitigationInst i = true

section Lists

variable {α : Type} {l l₁ l₂ pre post w w' : List α} {p q i : α}

/-- Neighbours in a concatenation. -/
theorem append_eq_neighbours (h : l₁ ++ l₂ = pre ++ p :: q :: post) :
    (∃ post', l₁ = pre ++ p :: q :: post') ∨ (l₁ = pre ++ [p] ∧ l₂ = q :: post) ∨
      ∃ pre', l₂ = pre' ++ p :: q :: post := by
  rcases List.append_eq_append_iff.mp h with ⟨m, rfl, hl₂⟩ | ⟨m, rfl, hm⟩
  · exact .inr (.inr ⟨m, hl₂⟩)
  · cases m with
    | nil => exact .inr (.inr ⟨[], hm.symm⟩)
    | cons a m =>
      obtain ⟨hp, hrest⟩ := List.cons.inj hm
      subst hp
      cases m with
      | nil => exact .inr (.inl ⟨rfl, hrest.symm⟩)
      | cons b m =>
        obtain ⟨hq, -⟩ := List.cons.inj hrest
        subst hq
        exact .inl ⟨m, rfl⟩

theorem mem_dropLast_left (h : i ∈ w.dropLast) (w' : List α) : i ∈ (w ++ w').dropLast := by
  cases w' with
  | nil => rwa [List.append_nil]
  | cons a w' =>
    rw [List.dropLast_append_of_ne_nil (List.cons_ne_nil a w')]
    exact List.mem_append_left _ (List.dropLast_subset w h)

theorem mem_dropLast_right (h : i ∈ w'.dropLast) (w : List α) : i ∈ (w ++ w').dropLast := by
  have hne : w' ≠ [] := by
    rintro rfl
    cases h
  rw [List.dropLast_append_of_ne_nil hne]
  exact List.mem_append_right _ h

end Lists

variable [DecidableEq β]

section Placed

variable {ir : IR β ι} {F₀ F : CFG β ι} {D : List (ι × ι)} {A : Decoration ι}
  {i j p q x : ι} {l os pre post w : List ι}

/-! ## One Step of a Trace -/

/-- What a piece passes between two neighbours. -/
theorem Placed.piece_between (h : Placed ir F₀ D F A) (hw : Piece F₀ F (pre ++ p :: q :: post) w) :
    ∃ e ∈ A.via q, e.1 = p ∧ ∀ i ∈ e.2 ++ A.run q, i ∈ w.dropLast := by
  obtain ⟨e, he, hfst, s, t, rfl⟩ :=
    h.decorates.between_of_filter (edge_predecessors F ▸ hw.chain) hw.old
  refine ⟨e, he, hfst, fun i hi => ?_⟩
  have hsplit : s ++ p :: (e.2 ++ (A.run q ++ q :: t)) = (s ++ p :: (e.2 ++ A.run q)) ++ q :: t := by
    simp
  rw [hsplit]
  exact mem_dropLast (List.mem_append_right _ (.tail p hi))

/-- What a piece passes before its first instruction when control arrives there. -/
theorem Placed.piece_start (h : Placed ir F₀ D F A) (hw : Piece F₀ F (q :: os) w)
    (harrives : Arrives F₀ F w) : ∀ i ∈ A.run q, i ∈ w.dropLast := by
  intro i hi
  rcases h.start ⟨hw.chain, hw.old, hw.last, harrives⟩ with ⟨e, -, hmem⟩ | ⟨-, hmem⟩
  · exact hmem i (List.mem_append_right _ hi)
  · exact hmem i hi

/-- What a trace passes before its first instruction when control arrives there. -/
theorem Placed.trace_start (h : Placed ir F₀ D F A) (htrace : Trace ir F₀ F (q :: os) w)
    (harrives : Arrives F₀ F w) : ∀ i ∈ A.run q, i ∈ w.dropLast := by
  generalize hos : q :: os = os' at htrace
  cases htrace with
  | piece hw => exact h.piece_start (hos ▸ hw) harrives
  | @leave os₁ os₂ w₁ w₂ x e hw =>
    have hne : w₁ ≠ [] := by
      rintro rfl
      have hold := hw.old
      simp at hold
    obtain ⟨l, hl⟩ : ∃ l, os₁ ++ [x] = q :: l := by
      cases os₁ with
      | nil => exact ⟨[], by simpa using (List.cons.inj hos).1.symm⟩
      | cons a os₁ => exact ⟨os₁ ++ [x], by rw [(List.cons.inj hos).1, List.cons_append]⟩
    intro i hi
    refine mem_dropLast_left (h.piece_start (hl ▸ hw) (fun j hj => harrives j ?_) i hi) w₂
    rwa [List.head?_append_of_ne_nil _ hne]

/-- Two neighbours of a trace: an edge of the function, with all that has been put on it, or an
edge from an exit to an entry. -/
theorem Placed.hop (h : Placed ir F₀ D F A) (htrace : Trace ir F₀ F os w)
    (hos : os = pre ++ p :: q :: post) :
    (F₀.Edge p q ∧ ∃ e ∈ A.via q, e.1 = p ∧ ∀ i ∈ e.2 ++ A.run q, i ∈ w.dropLast) ∨
      (ir.isExit p = true ∧ ir.isEntry F₀ q = true ∧ q ≠ p) ∧ ∀ i ∈ A.run q, i ∈ w.dropLast := by
  have hpiece {pre post w : List ι} (hw : Piece F₀ F (pre ++ p :: q :: post) w) :
      F₀.Edge p q ∧ ∃ e ∈ A.via q, e.1 = p ∧ ∀ i ∈ e.2 ++ A.run q, i ∈ w.dropLast := by
    have hq : q ∈ F₀.instructions := by
      have hmem : q ∈ w.filter (· ∈ F₀.instructions) := by simp [hw.old]
      exact of_decide_eq_true (List.mem_filter.mp hmem).2
    obtain ⟨e, he, hfst, hmem⟩ := h.piece_between hw
    exact ⟨mem_predecessors.mp (hfst ▸ h.decorates.fst_mem hq he), e, he, hfst, hmem⟩
  induction htrace generalizing pre with
  | piece hw => exact .inl (hpiece (hos ▸ hw))
  | @leave os₁ os₂ w₁ w₂ x e hw hexit hentry hne harrives hrest ih =>
    rw [List.append_cons] at hos
    rcases append_eq_neighbours hos with ⟨post', hleft⟩ | ⟨hleft, hright⟩ | ⟨pre', hright⟩
    · obtain ⟨hedge, e, he, hfst, hmem⟩ := hpiece (hleft ▸ hw)
      exact .inl ⟨hedge, e, he, hfst, fun i hi => mem_dropLast_left (hmem i hi) w₂⟩
    · obtain ⟨-, hx⟩ := List.append_inj' hleft rfl
      obtain rfl : x = p := (List.cons.inj hx).1
      obtain ⟨rfl, -⟩ := List.cons.inj hright
      refine .inr ⟨⟨hexit, hentry, hne⟩, fun i hi => mem_dropLast_right ?_ w₁⟩
      exact h.trace_start hrest harrives i hi
    · rcases ih hright with ⟨hedge, e, he, hfst, hmem⟩ | ⟨hjump, hmem⟩
      · exact .inl ⟨hedge, e, he, hfst, fun i hi => mem_dropLast_right (hmem i hi) w₁⟩
      · exact .inr ⟨hjump, fun i hi => mem_dropLast_right (hmem i hi) w₁⟩

omit [DecidableEq β] in
theorem Trace.mem_instructions (htrace : Trace ir F₀ F os w) (hi : i ∈ os) :
    i ∈ F₀.instructions := by
  have hpiece {os w : List ι} (hw : Piece F₀ F os w) (hi : i ∈ os) : i ∈ F₀.instructions := by
    rw [← hw.old] at hi
    simpa using (List.mem_filter.mp hi).2
  induction htrace with
  | piece hw => exact hpiece hw hi
  | leave hw _ _ _ _ _ ih =>
    rw [List.append_cons] at hi
    exact (List.mem_append.mp hi).elim (hpiece hw) ih

/-- The instructions of `F₀` on a trace follow the edges of the S-CFG. -/
theorem Placed.inGraph (h : Placed ir F₀ D F A) (htrace : Trace ir F₀ F os w) :
    os.IsChain fun i j => InGraph ir F₀ (i, j) := by
  rw [List.isChain_iff_forall_rel_of_append_cons_cons]
  intro p q pre post hos
  have hp : p ∈ F₀.instructions := htrace.mem_instructions (by simp [hos])
  have hq : q ∈ F₀.instructions := htrace.mem_instructions (by simp [hos])
  refine ⟨hp, List.mem_append.mpr ?_⟩
  rcases h.hop htrace hos with ⟨hedge, -⟩ | ⟨⟨hexit, hentry, hne⟩, -⟩
  · exact .inl (mem_successorsInst.mpr hedge)
  · rw [if_pos hexit]
    exact .inr (List.mem_filter.mpr ⟨hq, Bool.and_eq_true_iff.mpr ⟨hentry, decide_eq_true hne⟩⟩)

/-- What stands before an instruction of a trace, its first one excepted, is on the trace. -/
theorem Placed.run_mem (h : Placed ir F₀ D F A) (htrace : Trace ir F₀ F (p :: os) w)
    (hq : q ∈ os) : ∀ i ∈ A.run q, i ∈ w.dropLast := by
  obtain ⟨pre, post, rfl⟩ := List.append_of_mem hq
  obtain ⟨pre', p', hpre⟩ : ∃ pre' p', p :: pre = pre' ++ [p'] :=
    (List.eq_nil_or_concat' (p :: pre)).resolve_left (List.cons_ne_nil p pre)
  have hos : p :: (pre ++ q :: post) = pre' ++ p' :: q :: post := by
    rw [← List.cons_append, hpre, List.append_assoc]
    rfl
  rcases h.hop htrace hos with ⟨-, e, -, -, hmem⟩ | ⟨-, hmem⟩
  · exact fun i hi => hmem i (List.mem_append_right _ hi)
  · exact hmem

/-! ## Cut Edges on a Trace -/

omit [DecidableEq β] in
/-- One edge leads out of what stands before another instruction of its block. -/
theorem edge_next_unique {B : BasicBlock β ι} (hB : B ∈ F.blocks)
    (h : B.instructions = pre ++ i :: j :: post) (hedge : F.Edge i q) : q = j := by
  cases hedge with
  | next hB' h' => exact Option.some.inj ((getNextNode_eq hB' h').symm.trans (getNextNode_eq hB h))
  | jump hP _ _ => exact absurd rfl (ne_terminator hB hP h)

/-- A trace that enters a block at PHIs, and ends in no PHI, goes through them. -/
theorem Placed.passes_phis (h : Placed ir F₀ D F A)
    (hphi : ∀ i, ir.isPHINode i = true → ir.isExit i = false) (htrace : Trace ir F₀ F os w)
    (hlast : ∀ t ∈ os.getLast?, ir.isPHINode t = false) (hphis : PHIs ir F₀ j l x)
    (hos : os = pre ++ j :: post) : x ∈ j :: post := by
  induction hphis generalizing pre post with
  | here => exact .head _
  | @phi B before behind i k x l hB hinstrs hisPHI _ ih =>
    cases post with
    | nil =>
      have hend := hlast i (by rw [hos, List.getLast?_concat]; rfl)
      rw [hisPHI] at hend
      cases hend
    | cons k' post =>
      have hk : k' = k := by
        rcases h.hop htrace hos with ⟨hedge, -⟩ | ⟨⟨hexit, -⟩, -⟩
        · exact edge_next_unique hB hinstrs hedge
        · rw [hphi i hisPHI] at hexit
          cases hexit
      subst hk
      exact .tail _ (ih (hos.trans (List.append_cons ..)))

/-- When no terminator names a block twice, one slot leads along an edge that has to be split. -/
theorem count_predecessors_of_nodup (hslots : ∀ P ∈ F₀.blocks, P.succs.Nodup)
    (hp : p ∈ F₀.predecessors q) (hcut : IR.shouldCutEdge F₀ q = true) :
    (F₀.predecessors q).count p = 1 := by
  obtain ⟨P, hP, S, hS, hl, rfl, rfl⟩ := exists_jump hp (of_decide_eq_true hcut)
  rw [predecessors_front hS, count_jumpsTo hP]
  exact List.count_eq_one_of_mem (hslots P hP) hl

/-- A trace that takes a cut edge is guarded, unless it begins at a lone jump whose fence it has
not passed. -/
theorem Placed.guarded (h : Placed ir F₀ D F A) (hF₀ : ir.WellFormed F₀)
    (hphi : ∀ i, ir.isPHINode i = true → ir.isExit i = false)
    (hslots : ∀ P ∈ F₀.blocks, P.succs.Nodup) (htrace : Trace ir F₀ F os w)
    (hstart : ∀ s ∈ os.head?, LoneJump F₀ s → Arrives F₀ F w)
    (hlast : ∀ t ∈ os.getLast?, ir.isPHINode t = false) (hos : os = pre ++ i :: j :: post)
    (hin : (i, j) ∈ D) : Guarded ir F₀ w := by
  have hi : i ∈ F₀.instructions := htrace.mem_instructions (by simp [hos])
  have hj : j ∈ F₀.instructions := htrace.mem_instructions (by simp [hos])
  obtain ⟨s, rest, hs⟩ : ∃ s rest, os = s :: rest := List.exists_cons_of_ne_nil (by simp [hos])
  -- a fence before an instruction behind the first one
  have hrun {q : ι} (hq : q ∈ rest) (hfenced : q ∈ fenced ir F₀ D) : Guarded ir F₀ w := by
    have hmem : q ∈ F₀.instructions := htrace.mem_instructions (hs ▸ .tail s hq)
    obtain ⟨f, hf, hmitigation⟩ := h.run_mitigation q hmem hfenced
    exact ⟨f, h.run_mem (hs ▸ htrace) hq f hf, (h.decorates.run_new q hmem f hf).2, hmitigation⟩
  have hbehind : ∀ q ∈ j :: post, q ∈ rest := by
    intro q hq
    cases pre with
    | nil =>
      obtain ⟨-, rfl⟩ := List.cons.inj (hs.symm.trans hos)
      exact hq
    | cons a pre =>
      obtain ⟨-, rfl⟩ := List.cons.inj (hs.symm.trans hos)
      exact List.mem_append_right _ (.tail i hq)
  obtain ⟨l, x, hphis⟩ := exists_phis (fun P hP => (hF₀ P hP).1) hj
  rcases fenced_cases ir F₀ hin with hall | ⟨hcut, hplace⟩
  · have hx := h.passes_phis hphi htrace hlast hphis (hos.trans (List.append_cons ..))
    exact hrun (hbehind x hx) (hall x hphis.eq.1)
  by_cases hjfenced : j ∈ fenced ir F₀ D
  · exact hrun (hbehind j (.head _)) hjfenced
  -- the edge has to be split, so it is one of the function
  rcases h.hop htrace hos with ⟨hedge, e, he, hfst, hmem⟩ | ⟨⟨-, hentry, -⟩, -⟩
  swap
  · rw [shouldCutEdge_of_isEntry hentry] at hcut
    cases hcut
  have hpred : i ∈ F₀.predecessors j := mem_predecessors.mpr hedge
  by_cases hsingle : (F₀.successorsInst i).length = 1
  · have hfenced : i ∈ fenced ir F₀ D := hplace.resolve_right fun hrerouted => hrerouted.2.2 hsingle
    cases pre with
    | nil =>
      obtain ⟨P, hP, -, -, -, rfl, -⟩ := exists_jump hpred (of_decide_eq_true hcut)
      have hlone : LoneJump F₀ P.terminator := by
        refine ⟨?_, hsingle⟩
        unfold IR.isTerminator
        rw [find_terminator hP]
        rfl
      obtain ⟨f, hf, hmitigation⟩ := h.run_mitigation _ hi hfenced
      have harrives := hstart P.terminator (by rw [hos]; rfl) hlone
      exact ⟨f, h.trace_start (hos ▸ htrace) harrives f hf, (h.decorates.run_new _ hi f hf).2,
        hmitigation⟩
    | cons a pre =>
      obtain ⟨-, rfl⟩ := List.cons.inj (hs.symm.trans hos)
      exact hrun (List.mem_append_right _ (.head _)) hfenced
  · have hone := count_predecessors_of_nodup hslots hpred hcut
    obtain ⟨f, hf, hmitigation⟩ :=
      h.via_mitigation_of hj hjfenced ⟨hin, hcut, hsingle⟩ hone he hfst
    exact ⟨f, hmem f (List.mem_append_left _ hf), (h.decorates.via_new j hj e he f hf).2,
      hmitigation⟩

/-- When the cut edges break all walks of the S-CFG through some waypoint sets, the traces along
these are guarded. -/
theorem Placed.guarded_along {γ : Type} [Membership ι γ] {Ws : List γ} (h : Placed ir F₀ D F A)
    (hF₀ : ir.WellFormed F₀) (hphi : ∀ i, ir.isPHINode i = true → ir.isExit i = false)
    (hslots : ∀ P ∈ F₀.blocks, P.succs.Nodup)
    (hnot : ¬ Walk.HasWalk (Walk.without (fun i j => InGraph ir F₀ (i, j)) {e | e ∈ D}) Ws)
    (halong : Walk.Along Ws os) (htrace : Trace ir F₀ F os w)
    (hstart : ∀ s ∈ os.head?, LoneJump F₀ s → Arrives F₀ F w)
    (hlast : ∀ t ∈ os.getLast?, ir.isPHINode t = false) : Guarded ir F₀ w := by
  obtain ⟨pre, i, j, post, hos, hin⟩ := halong.crosses hnot (h.inGraph htrace)
  exact h.guarded hF₀ hphi hslots htrace hstart hlast hos hin

end Placed

end Clou.Mitigation
