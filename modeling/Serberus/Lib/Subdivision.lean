-- SUMMARY: Graphs given by predecessor lists, and the paths of a graph whose edges have been subdivided by new nodes.
import Mathlib.Data.List.Chain
import Mathlib.Data.List.Perm.Basic
import Mathlib.Data.List.Nodup
import Mathlib.Logic.Function.Basic

/-!
# Subdivided Graphs

A multigraph is given by the list of predecessors of every node, with an entry for
every edge. New nodes are put directly before a node, where all its edges pass them,
or on a single edge. `Decorates` says where the new nodes are, relative to the graph
without them. `hop_iff` reads off every way from one old node directly to another.
-/

namespace Subdivision

variable {α : Type}

/-! ## Lines -/

/-- The nodes that a line leads to its next node from: its last node, or where it starts. -/
def tip (hs l : List α) : List α := l.getLast?.elim hs ([·])

/-- The edges into the first node of `l` come from `hs`, and into every other node of it
leads one edge only, from the node before. -/
def Lined (preds : α → List α) : List α → List α → Prop
  | _, [] => True
  | hs, a :: l => (preds a).Perm hs ∧ Lined preds [a] l

/-- There is an edge from `i` to `j`. -/
def Edge (preds : α → List α) (i j : α) : Prop := i ∈ preds j

variable {preds preds' : α → List α} {hs hs' l l' r : List α} {a p q : α}

@[simp] theorem tip_nil : tip hs [] = hs := rfl

@[simp] theorem tip_concat : tip hs (l ++ [a]) = [a] := by
  unfold tip
  rw [List.getLast?_concat]
  rfl

@[simp] theorem tip_cons : tip hs (a :: l) = tip [a] l := by
  unfold tip
  rw [List.getLast?_cons]
  cases l.getLast? <;> rfl

theorem lined_append : Lined preds hs (l ++ l') ↔ Lined preds hs l ∧ Lined preds (tip hs l) l' := by
  induction l generalizing hs with
  | nil => simp [Lined]
  | cons b l ih => simp only [List.cons_append, Lined, ih, tip_cons, and_assoc]

theorem lined_concat : Lined preds hs (l ++ [a]) ↔ Lined preds hs l ∧ (preds a).Perm (tip hs l) := by
  rw [lined_append]
  simp [Lined]

theorem head?_append₂ {l'' : List α} (h : l.head? = some a) : (l ++ l' ++ l'').head? = some a := by
  rw [List.head?_append, List.head?_append, h]
  rfl

theorem exists_head (l : List α) (a : α) : ∃ b, (l ++ [a]).head? = some b :=
  ⟨_, List.head?_eq_some_head (List.append_ne_nil_of_right_ne_nil l (List.cons_ne_nil a []))⟩

theorem Lined.congr (h : Lined preds hs l) (hsame : ∀ j ∈ l, (preds' j).Perm (preds j)) :
    Lined preds' hs l := by
  induction l generalizing hs with
  | nil => trivial
  | cons b l ih =>
    obtain ⟨hb, hl⟩ := List.forall_mem_cons.mp hsame
    exact ⟨hb.trans h.1, ih h.2 hl⟩

theorem Lined.perm (h : Lined preds hs l) (hperm : hs.Perm hs') : Lined preds hs' l := by
  cases l with
  | nil => trivial
  | cons b l => exact ⟨h.1.trans hperm, h.2⟩

/-- A line is a path from each of the nodes it starts from. -/
theorem Lined.chain (h : Lined preds hs l) (ha : a ∈ hs) : (a :: l).IsChain (Edge preds) := by
  induction l generalizing hs a with
  | nil => exact .singleton a
  | cons b l ih => exact List.isChain_cons_cons.mpr ⟨h.1.mem_iff.mpr ha, ih h.2 (.head _)⟩

theorem Lined.head (h : Lined preds hs l) (ha : l.head? = some a) : (preds a).Perm hs := by
  obtain ⟨l, rfl⟩ := List.head?_eq_some_iff.mp ha
  exact h.1

/-- Inside a line the edges come from the node before. -/
theorem Lined.inside (h : Lined preds hs (r ++ p :: l)) (ha : l.head? = some a) : p ∈ preds a :=
  ((lined_append.mp h).2.2.head ha).mem_iff.mpr (.head [])

/-- Backwards from the end of a line there is one way only: a path to `q` comes along
the whole line, or starts on it. -/
theorem Lined.back (h : Lined preds hs (r ++ [q])) (hl : (l ++ [q]).IsChain (Edge preds)) :
    (∃ l', l = l' ++ r ∧ ∀ b ∈ l'.getLast?, b ∈ hs) ∨ ∃ r' b, r = r' ++ b :: l := by
  induction r using List.reverseRecOn generalizing l q with
  | nil =>
    refine .inl ⟨l, (List.append_nil l).symm, fun b hb => ?_⟩
    obtain ⟨l, rfl⟩ := List.getLast?_eq_some_iff.mp hb
    rw [List.append_assoc] at hl
    have hedge : Edge preds b q := (List.isChain_append_cons_cons.mp hl).2.1
    exact h.1.mem_iff.mp hedge
  | append_singleton r b ih =>
    obtain ⟨hline, hq⟩ := lined_concat.mp h
    rw [tip_concat] at hq
    induction l using List.reverseRecOn with
    | nil => exact .inr ⟨r, b, rfl⟩
    | append_singleton l c =>
      rw [List.append_assoc] at hl
      obtain ⟨hchain, hedge, -⟩ := List.isChain_append_cons_cons.mp hl
      obtain rfl : c = b := List.mem_singleton.mp (hq.mem_iff.mp hedge)
      rcases ih hline hchain with ⟨l', rfl, hlast⟩ | ⟨r', d, rfl⟩
      · exact .inl ⟨l', List.append_assoc l' r [c], hlast⟩
      · exact .inr ⟨r', d, by simp⟩

/-! ## Decorations -/

/-- Where the new nodes are: a line directly before every old node, and a line on each of
the edges that lead there, given with the node that the edge comes from. -/
structure Decoration (α : Type) where
  run : α → List α
  via : α → List (α × List α)

/-- The node from which an edge with its line enters the run. -/
def top (e : α × List α) : α := e.2.getLast?.getD e.1

/-- `preds` are the edges among `nodes` when `A` has been put on the edges `preds₀` among
the old nodes. -/
structure Decorates (preds₀ preds : α → List α) (old nodes : α → Prop) (A : Decoration α) : Prop where
  old_nodes : ∀ q, old q → nodes q
  preds_old : ∀ q, old q → ∀ p ∈ preds₀ q, old p
  via_old : ∀ q, old q → ((A.via q).map Prod.fst).Perm (preds₀ q)
  line : ∀ q, old q → Lined preds ((A.via q).map top) (A.run q ++ [q])
  via_line : ∀ q, old q → ∀ e ∈ A.via q, Lined preds [e.1] e.2
  run_new : ∀ q, old q → ∀ i ∈ A.run q, nodes i ∧ ¬ old i
  via_new : ∀ q, old q → ∀ e ∈ A.via q, ∀ i ∈ e.2, nodes i ∧ ¬ old i
  run_nodup : ∀ q, old q → (A.run q).Nodup
  run_inj : ∀ q q', old q → old q' → ∀ i ∈ A.run q, i ∈ A.run q' → q = q'
  run_via : ∀ q q', old q → old q' → ∀ i ∈ A.run q, ∀ e ∈ A.via q', i ∉ e.2

section Decorates

variable {preds₀ : α → List α} {old nodes : α → Prop} {A : Decoration α}

/-- At first nothing is decorated. -/
theorem Decorates.init (hold : ∀ q, old q → ∀ p ∈ preds₀ q, old p) :
    Decorates preds₀ preds₀ old old ⟨fun _ => [], fun q => (preds₀ q).map (·, [])⟩ where
  old_nodes := fun _ hq => hq
  preds_old := hold
  via_old := by
    intro q _
    rw [List.map_map]
    exact .of_eq (List.map_id _)
  line := by
    intro q _
    refine ⟨?_, trivial⟩
    rw [List.map_map]
    exact .of_eq (List.map_id _).symm
  via_line := by
    intro q _ e he
    obtain ⟨p, -, rfl⟩ := List.mem_map.mp he
    trivial
  run_new := fun _ _ i hi => absurd hi List.not_mem_nil
  via_new := by
    intro q _ e he i hi
    obtain ⟨p, -, rfl⟩ := List.mem_map.mp he
    exact absurd hi List.not_mem_nil
  run_nodup := fun _ _ => .nil
  run_inj := fun _ _ _ _ i hi => absurd hi List.not_mem_nil
  run_via := fun _ _ _ _ i hi => absurd hi List.not_mem_nil

variable (h : Decorates preds₀ preds old nodes A)

include h

theorem Decorates.fst_mem (hq : old q) {e : α × List α} (he : e ∈ A.via q) : e.1 ∈ preds₀ q :=
  (h.via_old q hq).mem_iff.mp (List.mem_map_of_mem he)

theorem Decorates.fst_old (hq : old q) {e : α × List α} (he : e ∈ A.via q) : old e.1 :=
  h.preds_old q hq e.1 (h.fst_mem hq he)

omit h in
theorem top_nil (p : α) : top (p, []) = p := rfl

omit h in
theorem top_concat (p : α) (v : List α) (b : α) : top (p, v ++ [b]) = b := by
  unfold top
  rw [List.getLast?_concat]
  rfl

/-- Along every edge a path leads through its line and the run. -/
theorem Decorates.chain (hq : old q) {e : α × List α} (he : e ∈ A.via q) :
    (e.1 :: (e.2 ++ (A.run q ++ [q]))).IsChain (Edge preds) := by
  have hrun := (h.line q hq).chain (List.mem_map_of_mem he)
  obtain ⟨p, v⟩ := e
  induction v using List.reverseRecOn with
  | nil => exact hrun
  | append_singleton v b =>
    rw [top_concat] at hrun
    have hvia := (h.via_line q hq _ he).chain (.head [])
    rw [List.append_assoc, ← List.cons_append]
    exact List.isChain_split.mpr ⟨hvia, hrun⟩

/-- Without a run the edges lead from their lines to the node itself. -/
theorem Decorates.perm_tops (hq : old q) (hrun : A.run q = []) :
    (preds q).Perm ((A.via q).map top) := by
  have hline := h.line q hq
  rw [hrun] at hline
  exact hline.1

theorem Decorates.length_eq (hq : old q) (hrun : A.run q = []) :
    (preds q).length = (preds₀ q).length := by
  have hlength := (h.perm_tops hq hrun).length_eq
  have hlength₀ := (h.via_old q hq).length_eq
  rw [List.length_map] at hlength hlength₀
  rw [hlength, hlength₀]

/-- Behind a run there is one way to the node. -/
theorem Decorates.length_one (hq : old q) (hrun : A.run q ≠ []) : (preds q).length = 1 := by
  obtain ⟨r, b, hr⟩ := (List.eq_nil_or_concat' (A.run q)).resolve_left hrun
  have hline := h.line q hq
  rw [hr] at hline
  have hlast := (lined_concat.mp hline).2
  rw [tip_concat] at hlast
  exact hlast.length_eq

/-- The run of `q` and `q` itself are nodes. -/
theorem Decorates.line_nodes (hq : old q) {i : α} (hi : i ∈ A.run q ++ [q]) : nodes i := by
  rcases List.mem_append.mp hi with hi | hi
  · exact (h.run_new q hq i hi).1
  · exact List.mem_singleton.mp hi ▸ h.old_nodes q hq

theorem Decorates.line_nodup (hq : old q) : (A.run q ++ [q]).Nodup :=
  List.nodup_append'.mpr ⟨h.run_nodup q hq, List.nodup_singleton q, fun _ hi hiq =>
    (h.run_new q hq _ hi).2 (List.mem_singleton.mp hiq ▸ hq)⟩

/-- A node is on the line to one old node only, -/
theorem Decorates.line_inj {q' i : α} (hq : old q) (hq' : old q') (hi : i ∈ A.run q ++ [q])
    (hi' : i ∈ A.run q' ++ [q']) : q = q' := by
  rcases List.mem_append.mp hi with hi | hi <;> rcases List.mem_append.mp hi' with hi' | hi'
  · exact h.run_inj q q' hq hq' i hi hi'
  · exact absurd (List.mem_singleton.mp hi' ▸ hq') (h.run_new q hq i hi).2
  · exact absurd (List.mem_singleton.mp hi ▸ hq) (h.run_new q' hq' i hi').2
  · exact (List.mem_singleton.mp hi).symm.trans (List.mem_singleton.mp hi')

/-- and on no edge. -/
theorem Decorates.line_not_via {q' i : α} {e : α × List α} (hq : old q) (hq' : old q')
    (hi : i ∈ A.run q ++ [q]) (he : e ∈ A.via q') : i ∉ e.2 := by
  intro hie
  rcases List.mem_append.mp hi with hi | hi
  · exact h.run_via q q' hq hq' i hi e he hie
  · exact (h.via_new q' hq' e he i hie).2 (List.mem_singleton.mp hi ▸ hq)

/-- A path to an old node whose nodes behind the first are new comes along an edge and
its line, or along the run only, or starts on a line. -/
theorem Decorates.back (hq : old q) (hl : (l ++ [q]).IsChain (Edge preds))
    (hnew : ∀ i ∈ l.tail, ¬ old i) :
    (∃ e ∈ A.via q, l = e.1 :: (e.2 ++ A.run q)) ∨ l = A.run q ∨
      (∀ i ∈ l, ¬ old i) ∧ ∃ j b, (l ++ [q]).head? = some j ∧ b ∈ preds j := by
  have hline := h.line q hq
  have hrunNew (i : α) (hi : i ∈ A.run q) : ¬ old i := (h.run_new q hq i hi).2
  rcases hline.back hl with ⟨l', rfl, hlast⟩ | ⟨r', b, hrun⟩
  · induction l' using List.reverseRecOn with
    | nil => exact .inr (.inl rfl)
    | append_singleton m c =>
      obtain ⟨⟨p, v⟩, he, hc⟩ := List.mem_map.mp (hlast c List.getLast?_concat)
      have hvia := h.via_line q hq _ he
      have hp : old p := h.fst_old hq he
      -- an old node on the path is its first one
      have hfirst (m' rest : List α) (heq : m ++ [c] = m' ++ p :: rest) : m' = [] := by
        cases m' with
        | nil => rfl
        | cons x m' =>
          rw [heq] at hnew
          exact absurd hp (hnew p (by simp))
      induction v using List.reverseRecOn with
      | nil =>
        obtain rfl : p = c := hc
        obtain rfl := hfirst m [] rfl
        exact .inl ⟨_, he, rfl⟩
      | append_singleton v b =>
        rw [top_concat] at hc
        subst hc
        have hvNew (i : α) (hi : i ∈ v ++ [b]) : ¬ old i := (h.via_new q hq _ he i hi).2
        have hm : (m ++ [b]).IsChain (Edge preds) :=
          (List.isChain_append.mp (List.isChain_append.mp hl).1).1
        rcases hvia.back hm with ⟨m', rfl, hlast'⟩ | ⟨r', d, rfl⟩
        · induction m' using List.reverseRecOn with
          | nil =>
            refine .inr (.inr ⟨fun i hi => ?_, ?_⟩)
            · exact (List.mem_append.mp hi).elim (hvNew i) (hrunNew i)
            · obtain ⟨j, hj⟩ := exists_head v b
              exact ⟨j, p, head?_append₂ hj, (hvia.head hj).mem_iff.mpr (.head [])⟩
          | append_singleton m' d =>
            obtain rfl : d = p := List.mem_singleton.mp (hlast' d List.getLast?_concat)
            obtain rfl := hfirst m' (v ++ [b]) (by simp)
            exact .inl ⟨_, he, by simp⟩
        · refine .inr (.inr ⟨fun i hi => ?_, ?_⟩)
          · refine (List.mem_append.mp hi).elim (fun hi => hvNew i ?_) (hrunNew i)
            simp only [List.mem_append, List.mem_cons] at hi ⊢
            tauto
          · obtain ⟨j, hj⟩ := exists_head m b
            rw [List.append_assoc] at hvia
            exact ⟨j, d, head?_append₂ hj, hvia.inside hj⟩
  · refine .inr (.inr ⟨fun i hi => hrunNew i (by simp [hrun, hi]), ?_⟩)
    rw [hrun, List.append_assoc] at hline
    obtain ⟨j, hj⟩ := exists_head l q
    exact ⟨j, b, hj, hline.inside hj⟩

/-- The ways from one old node directly to another are the edges with their lines. -/
theorem Decorates.hop_iff (hp : old p) (hq : old q) (hnew : ∀ i ∈ l, ¬ old i) :
    (p :: (l ++ [q])).IsChain (Edge preds) ↔ ∃ e ∈ A.via q, e.1 = p ∧ l = e.2 ++ A.run q := by
  constructor
  · intro hl
    rcases h.back (l := p :: l) hq hl hnew with ⟨e, he, heq⟩ | heq | ⟨hall, -⟩
    · obtain ⟨hfst, hsnd⟩ := List.cons.inj heq
      exact ⟨e, he, hfst.symm, hsnd⟩
    · exact absurd hp (h.run_new q hq p (by simp [← heq])).2
    · exact absurd hp (hall p (.head _))
  · rintro ⟨e, he, rfl, rfl⟩
    rw [List.append_assoc]
    exact h.chain hq he

/-- A path of new nodes that nothing leads to is a run. -/
theorem Decorates.start (hq : old q) (hnew : ∀ i ∈ l, ¬ old i)
    (hl : (l ++ [q]).IsChain (Edge preds)) (hhead : ∀ j ∈ (l ++ [q]).head?, ∀ b, b ∉ preds j) :
    l = A.run q := by
  rcases h.back hq hl (fun i hi => hnew i (List.mem_of_mem_tail hi)) with
    ⟨e, he, rfl⟩ | heq | ⟨-, j, b, hj, hb⟩
  · exact absurd (h.fst_old hq he) (hnew e.1 (.head _))
  · exact heq
  · exact absurd hb (hhead j hj b)

/-! ## Paths -/

section Paths

variable [DecidablePred old] {w os os' : List α}

/-- From an old node to the next one a path goes along an edge. -/
theorem Decorates.step_of_filter (hp : old p) (hw : (p :: w).IsChain (Edge preds))
    (hos : w.filter (old ·) = q :: os) :
    ∃ e ∈ A.via q, e.1 = p ∧ ∃ w', w = e.2 ++ (A.run q ++ q :: w') := by
  obtain ⟨l, w', rfl, hl, hq, -⟩ := List.filter_eq_cons_iff.mp hos
  have hnew (i : α) (hi : i ∈ l) : ¬ old i := by simpa using hl i hi
  have hchain : (p :: (l ++ [q])).IsChain (Edge preds) := by
    rw [List.append_cons, ← List.cons_append] at hw
    exact (List.isChain_append.mp hw).1
  obtain ⟨e, he, hfst, rfl⟩ := (h.hop_iff hp (of_decide_eq_true hq) hnew).mp hchain
  exact ⟨e, he, hfst, w', List.append_assoc ..⟩

/-- A path on which `q` is the next old node behind `p`. -/
theorem Decorates.between_of_filter (hw : w.IsChain (Edge preds))
    (hos : w.filter (old ·) = os ++ p :: q :: os') :
    ∃ e ∈ A.via q, e.1 = p ∧ ∃ s t, w = s ++ p :: (e.2 ++ (A.run q ++ q :: t)) := by
  obtain ⟨s, w, rfl, -, hw'⟩ := List.filter_eq_append_iff.mp hos
  obtain ⟨l, w', rfl, -, hp, hos'⟩ := List.filter_eq_cons_iff.mp hw'
  have hchain := (List.isChain_append.mp (List.isChain_append.mp hw).2.1).2.1
  obtain ⟨e, he, hfst, t, rfl⟩ := h.step_of_filter (of_decide_eq_true hp) hchain hos'
  exact ⟨e, he, hfst, s ++ l, t, by simp⟩

/-- A path that begins behind an old node, or where nothing leads to. -/
theorem Decorates.start_of_filter (hw : w.IsChain (Edge preds))
    (hos : w.filter (old ·) = q :: os)
    (hstart : ∀ j ∈ w.head?, (∃ p, old p ∧ Edge preds p j) ∨ ∀ p, ¬ Edge preds p j) :
    ∃ l t, w = l ++ q :: t ∧
      ((∃ e ∈ A.via q, l = e.2 ++ A.run q) ∨ A.via q = [] ∧ l = A.run q) := by
  obtain ⟨l, t, rfl, hl, hq, -⟩ := List.filter_eq_cons_iff.mp hos
  have hq : old q := of_decide_eq_true hq
  have hnew (i : α) (hi : i ∈ l) : ¬ old i := by simpa using hl i hi
  have hchain : (l ++ [q]).IsChain (Edge preds) := by
    rw [List.append_cons] at hw
    exact (List.isChain_append.mp hw).1
  obtain ⟨j, hj⟩ := exists_head l q
  refine ⟨l, t, rfl, ?_⟩
  have hhead : (l ++ q :: t).head? = some j := by
    rw [List.append_cons, List.head?_append, hj]
    rfl
  rcases hstart j hhead with ⟨p, hp, hedge⟩ | hnone
  · obtain ⟨l', hl'⟩ := List.head?_eq_some_iff.mp hj
    have hext : (p :: (l ++ [q])).IsChain (Edge preds) := by
      rw [hl'] at hchain ⊢
      exact List.isChain_cons_cons.mpr ⟨hedge, hchain⟩
    obtain ⟨e, he, -, heq⟩ := (h.hop_iff hp hq hnew).mp hext
    exact .inl ⟨e, he, heq⟩
  · have hrun := h.start hq hnew hchain fun i hi p => by
      rw [hj] at hi
      exact Option.some.inj hi ▸ hnone p
    rw [hrun] at hj
    have hpreds := (h.line q hq).head hj
    refine .inr ⟨?_, hrun⟩
    by_contra hvia
    obtain ⟨e, he⟩ := List.exists_mem_of_ne_nil _ hvia
    exact hnone (top e) (hpreds.mem_iff.mpr (List.mem_map_of_mem he))

end Paths

end Decorates

/-! ## New Nodes -/

/-- The nodes `ns` have been put directly before `y`, one behind the other. -/
structure InsertsBefore (preds preds' : α → List α) (nodes : α → Prop) (y : α) (ns : List α) :
    Prop where
  fresh : ∀ n ∈ ns, ¬ nodes n
  nodup : ns.Nodup
  line : Lined preds' (preds y) (ns ++ [y])
  same : ∀ j, nodes j → j ≠ y → (preds' j).Perm (preds j)

/-- The line `v` has been put on one of the edges from `t` to `s`. -/
structure Subdivides [DecidableEq α] (preds preds' : α → List α) (nodes : α → Prop) (t s : α)
    (v : List α) : Prop where
  fresh : ∀ i ∈ v, ¬ nodes i
  line : Lined preds' [t] v
  mem : t ∈ preds s
  target : (preds' s).Perm (top (t, v) :: (preds s).erase t)
  same : ∀ j, nodes j → j ≠ s → (preds' j).Perm (preds j)

section Insert

variable {preds₀ preds'' : α → List α} {old nodes : α → Prop} {A : Decoration α} {y n : α}
  {l₁ l₂ ns ms : List α}

/-- A node that takes over the predecessors of another one and becomes its only predecessor. -/
theorem InsertsBefore.single (hfresh : ¬ nodes n) (hnew : (preds' n).Perm (preds y))
    (htarget : (preds' y).Perm [n]) (hsame : ∀ j, nodes j → j ≠ y → (preds' j).Perm (preds j)) :
    InsertsBefore preds preds' nodes y [n] where
  fresh := fun _ hi => List.mem_singleton.mp hi ▸ hfresh
  nodup := List.nodup_singleton n
  line := ⟨hnew, htarget, trivial⟩
  same := hsame

theorem InsertsBefore.append (h : InsertsBefore preds preds' nodes y ns) (hy : nodes y)
    (h' : InsertsBefore preds' preds'' (fun i => nodes i ∨ i ∈ ns) y ms) :
    InsertsBefore preds preds'' nodes y (ns ++ ms) where
  fresh := fun n hn => (List.mem_append.mp hn).elim (h.fresh n) fun hm hnodes =>
    h'.fresh n hm (.inl hnodes)
  nodup := by
    refine List.nodup_append.mpr ⟨h.nodup, h'.nodup, fun n hn m hm heq => ?_⟩
    exact h'.fresh m hm (.inr (heq ▸ hn))
  line := by
    obtain ⟨hns, hline, -⟩ := lined_append.mp h.line
    rw [List.append_assoc]
    refine lined_append.mpr ⟨hns.congr fun j hj => h'.same j (.inr hj) ?_, h'.line.perm hline⟩
    rintro rfl
    exact h.fresh j hj hy
  same := fun j hj hne => (h'.same j (.inl hj) hne).trans (h.same j hj hne)

/-- A line into which nodes are put. -/
theorem Lined.insertBefore (hins : InsertsBefore preds preds' nodes y ns)
    (h : Lined preds hs (l₁ ++ y :: l₂)) (hnodes : ∀ i ∈ l₁ ++ y :: l₂, nodes i)
    (hnodup : (l₁ ++ y :: l₂).Nodup) : Lined preds' hs (l₁ ++ (ns ++ y :: l₂)) := by
  obtain ⟨hl₁, hy, hl₂⟩ := lined_append.mp h
  have hfresh : y ∉ l₁ ∧ y ∉ l₂ := by
    rw [List.nodup_middle, List.nodup_cons, List.mem_append, not_or] at hnodup
    exact hnodup.1
  refine lined_append.mpr ⟨hl₁.congr fun j hj => ?_, ?_⟩
  · exact hins.same j (hnodes j (by simp [hj])) fun heq => hfresh.1 (heq ▸ hj)
  · rw [List.append_cons]
    refine lined_append.mpr ⟨hins.line.perm hy, ?_⟩
    rw [tip_concat]
    refine hl₂.congr fun j hj => ?_
    exact hins.same j (hnodes j (by simp [hj])) fun heq => hfresh.2 (heq ▸ hj)

/-- Putting nodes at the front of a line that has just been put on an edge. -/
theorem Subdivides.insertBefore [DecidableEq α] {t s : α} {v : List α}
    (h : Subdivides preds preds' nodes t s (y :: v)) (hs : nodes s) (hy : y ∉ v)
    (hins : InsertsBefore preds' preds'' (fun i => nodes i ∨ i ∈ y :: v) y ns) :
    Subdivides preds preds'' nodes t s (ns ++ y :: v) := by
  have hne (j : α) (hj : nodes j) : j ≠ y := fun heq => h.fresh y (.head v) (heq ▸ hj)
  refine ⟨fun i hi => ?_, ?_, h.mem, ?_, fun j hj hjs => ?_⟩
  · rcases List.mem_append.mp hi with hi | hi
    · exact fun hn => hins.fresh i hi (.inl hn)
    · exact h.fresh i hi
  · rw [List.append_cons]
    refine lined_append.mpr ⟨hins.line.perm h.line.1, ?_⟩
    rw [tip_concat]
    refine h.line.2.congr fun j hj => hins.same j (.inr (.tail y hj)) ?_
    rintro rfl
    exact hy hj
  · have htop : top (t, ns ++ y :: v) = top (t, y :: v) := by
      unfold top
      rw [List.getLast?_append_cons]
    rw [htop]
    exact (hins.same s (.inl hs) (hne s hs)).trans h.target
  · exact (hins.same j (.inl hj) (hne j hj)).trans (h.same j hj hjs)

theorem insert_perm (hy : l ++ [q] = l₁ ++ y :: l₂) (hr : r ++ [q] = l₁ ++ (ns ++ y :: l₂)) :
    r.Perm (ns ++ l) := by
  refine (List.perm_append_right_iff [q]).mp ?_
  rw [hr, List.append_assoc, hy, ← List.append_assoc, ← List.append_assoc]
  exact List.perm_append_comm.append_right _

/-- Putting nodes on the run of `q`, or directly before `q`. -/
theorem Decorates.insertBefore [DecidableEq α] (h : Decorates preds₀ preds old nodes A)
    (hins : InsertsBefore preds preds' nodes y ns) (hq : old q) {r : List α}
    (hy : A.run q ++ [q] = l₁ ++ y :: l₂) (hr : r ++ [q] = l₁ ++ (ns ++ y :: l₂)) :
    Decorates preds₀ preds' old (fun i => nodes i ∨ i ∈ ns)
      { A with run := Function.update A.run q r } := by
  have hyq : y ∈ A.run q ++ [q] := by simp [hy]
  have hrun : r.Perm (ns ++ A.run q) := insert_perm hy hr
  have hmem {q' i : α} :
      i ∈ Function.update A.run q r q' ↔ i ∈ A.run q' ∨ q' = q ∧ i ∈ ns := by
    by_cases hq' : q' = q
    · subst hq'
      rw [Function.update_self, hrun.mem_iff, List.mem_append]
      tauto
    · rw [Function.update_of_ne hq']
      tauto
  refine ⟨fun q' hq' => .inl (h.old_nodes q' hq'), h.preds_old, h.via_old, fun q' hq' => ?_,
    fun q' hq' e he => ?_, fun q' hq' i hi => ?_, fun q' hq' e he i hi => ?_, fun q' hq' => ?_,
    fun q₁ q₂ hq₁ hq₂ i hi₁ hi₂ => ?_, fun q₁ q₂ hq₁ hq₂ i hi e he hie => ?_⟩
  · by_cases hne : q' = q
    · subst hne
      have hline := h.line q' hq'
      rw [hy] at hline
      simp only [Function.update_self, hr]
      exact hline.insertBefore hins (fun i hi => h.line_nodes hq' (hy ▸ hi)) (hy ▸ h.line_nodup hq')
    · -- `y` is on no other line
      simp only [Function.update_of_ne hne]
      refine (h.line q' hq').congr fun j hj => hins.same j (h.line_nodes hq' hj) ?_
      rintro rfl
      exact hne (h.line_inj hq' hq hj hyq)
  · refine (h.via_line q' hq' e he).congr fun j hj =>
      hins.same j (h.via_new q' hq' e he j hj).1 ?_
    rintro rfl
    exact h.line_not_via hq hq' hyq he hj
  · rcases hmem.mp hi with hi | ⟨-, hn⟩
    · exact ⟨.inl (h.run_new q' hq' i hi).1, (h.run_new q' hq' i hi).2⟩
    · exact ⟨.inr hn, fun hold => hins.fresh i hn (h.old_nodes i hold)⟩
  · exact ⟨.inl (h.via_new q' hq' e he i hi).1, (h.via_new q' hq' e he i hi).2⟩
  · by_cases hne : q' = q
    · subst hne
      simp only [Function.update_self]
      refine hrun.nodup_iff.mpr (List.nodup_append.mpr ⟨hins.nodup, h.run_nodup q' hq', ?_⟩)
      rintro n hn i hi rfl
      exact hins.fresh n hn (h.run_new q' hq' n hi).1
    · simp only [Function.update_of_ne hne]
      exact h.run_nodup q' hq'
  · rcases hmem.mp hi₁ with hin₁ | ⟨rfl, hn₁⟩ <;> rcases hmem.mp hi₂ with hin₂ | ⟨rfl, hn₂⟩
    · exact h.run_inj q₁ q₂ hq₁ hq₂ i hin₁ hin₂
    · exact absurd (h.run_new q₁ hq₁ i hin₁).1 (hins.fresh i hn₂)
    · exact absurd (h.run_new q₂ hq₂ i hin₂).1 (hins.fresh i hn₁)
    · rfl
  · rcases hmem.mp hi with hi | ⟨-, hn⟩
    · exact h.run_via q₁ q₂ hq₁ hq₂ i hi e he hie
    · exact hins.fresh i hn (h.via_new q₂ hq₂ e he i hie).1

/-- Putting a line on an edge that has none yet, into a node without a run. -/
theorem Decorates.subdivide [DecidableEq α] (h : Decorates preds₀ preds old nodes A) {t s : α}
    {v : List α} (hsub : Subdivides preds preds' nodes t s v) (hs : old s) (hrun : A.run s = [])
    (ht : (t, []) ∈ A.via s) :
    Decorates preds₀ preds' old (fun i => nodes i ∨ i ∈ v)
      { A with via := Function.update A.via s ((t, v) :: (A.via s).erase (t, [])) } := by
  have hperm : (A.via s).Perm ((t, []) :: (A.via s).erase (t, [])) := List.perm_cons_erase ht
  have hfresh (i : α) (hi : nodes i) : i ∉ v := fun hv => hsub.fresh i hv hi
  have hmem {q' : α} {e : α × List α}
      (he : e ∈ Function.update A.via s ((t, v) :: (A.via s).erase (t, [])) q') :
      e ∈ A.via q' ∨ q' = s ∧ e = (t, v) := by
    by_cases hne : q' = s
    · subst hne
      rw [Function.update_self] at he
      rcases List.mem_cons.mp he with rfl | he
      · exact .inr ⟨rfl, rfl⟩
      · exact .inl (List.mem_of_mem_erase he)
    · rw [Function.update_of_ne hne] at he
      exact .inl he
  -- the nodes of the lines keep their edges
  have hkeep {i : α} (hi : nodes i) (hnew : ¬ old i) : (preds' i).Perm (preds i) :=
    hsub.same i hi fun heq => hnew (heq ▸ hs)
  refine ⟨fun q' hq' => .inl (h.old_nodes q' hq'), h.preds_old, fun q' hq' => ?_, fun q' hq' => ?_,
    fun q' hq' e he => ?_, fun q' hq' i hi => ?_, fun q' hq' e he i hi => ?_, h.run_nodup, h.run_inj,
    fun q₁ q₂ hq₁ hq₂ i hi e he hie => ?_⟩
  · by_cases hne : q' = s
    · subst hne
      simp only [Function.update_self]
      exact (hperm.map Prod.fst).symm.trans (h.via_old q' hq')
    · simp only [Function.update_of_ne hne]
      exact h.via_old q' hq'
  · by_cases hne : q' = s
    · subst hne
      have hline := h.line q' hq'
      simp only [Function.update_self]
      rw [hrun] at hline ⊢
      refine ⟨hsub.target.trans (.cons _ ?_), trivial⟩
      have htops := (hline.1.trans (hperm.map top)).erase t
      rwa [List.map_cons, top_nil, List.erase_cons_head] at htops
    · simp only [Function.update_of_ne hne]
      refine (h.line q' hq').congr fun j hj => ?_
      rcases List.mem_append.mp hj with hj | hj
      · exact hkeep (h.run_new q' hq' j hj).1 (h.run_new q' hq' j hj).2
      · obtain rfl := List.mem_singleton.mp hj
        exact hsub.same j (h.old_nodes j hq') hne
  · rcases hmem he with he | ⟨-, rfl⟩
    · exact (h.via_line q' hq' e he).congr fun j hj =>
        hkeep (h.via_new q' hq' e he j hj).1 (h.via_new q' hq' e he j hj).2
    · exact hsub.line
  · exact ⟨.inl (h.run_new q' hq' i hi).1, (h.run_new q' hq' i hi).2⟩
  · rcases hmem he with he | ⟨-, rfl⟩
    · exact ⟨.inl (h.via_new q' hq' e he i hi).1, (h.via_new q' hq' e he i hi).2⟩
    · exact ⟨.inr hi, fun hold => hsub.fresh i hi (h.old_nodes i hold)⟩
  · rcases hmem he with he | ⟨-, rfl⟩
    · exact h.run_via q₁ q₂ hq₁ hq₂ i hi e he hie
    · exact hfresh i (h.run_new q₁ hq₁ i hi).1 hie

end Insert

end Subdivision
