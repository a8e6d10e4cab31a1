-- SUMMARY: The cuts stay disjoint, and the working graph stays the original one without them.
import Serberus.FordFulkerson.Cut
import Serberus.MinCutGreedy.Greedy

/-!
# What the Greedy Loop Keeps

`Minus OrigG G X` says that `G` is `OrigG` without the edges in `X`. Putting an edge
back and removing one are steps between such graphs. Between two STs the working
graph lacks exactly the edges of the cuts, and the cuts are disjoint; `stepSt_spec`
says what one step makes of such a state, whatever the solver answers.
-/

namespace Clou

/-! ## A Graph Without Some Edges -/

/-- `G` is `OrigG` without the edges in `X`; the other edges have their old weights. -/
structure Minus (OrigG G : IdxGraph) (X : Set (Idx × Idx)) : Prop where
  length_eq : G.length = OrigG.length
  gone : ∀ u v, (u, v) ∈ X → (G.row u).find? v = none
  kept : ∀ u v, (u, v) ∉ X → (G.row u).find? v = (OrigG.row u).find? v

namespace Minus

variable {OrigG G : IdxGraph} {X Y : Set (Idx × Idx)}

theorem refl (OrigG : IdxGraph) : Minus OrigG OrigG ∅ :=
  ⟨rfl, fun _ _ h => absurd h (Set.notMem_empty _), fun _ _ _ => rfl⟩

theorem congr (h : Minus OrigG G X) (hX : ∀ u v, (u, v) ∈ X ↔ (u, v) ∈ Y) : Minus OrigG G Y :=
  ⟨h.length_eq, fun u v huv => h.gone u v ((hX u v).mpr huv),
    fun u v huv => h.kept u v (mt (hX u v).mp huv)⟩

theorem edge_iff (h : Minus OrigG G X) {u v : Idx} :
    G.Edge u v ↔ OrigG.Edge u v ∧ (u, v) ∉ X := by
  simp only [IdxGraph.edge_iff_find]
  by_cases hX : (u, v) ∈ X
  · simp [h.gone u v hX, hX]
  · simp [h.kept u v hX, hX]

theorem edge_eq (h : Minus OrigG G X) : G.Edge = Walk.without OrigG.Edge X := by
  funext u v
  exact propext h.edge_iff

/-- There is one graph without given edges. -/
theorem unique {G' : IdxGraph} (h : Minus OrigG G X) (h' : Minus OrigG G' X) : G = G' := by
  have hrow (u : Idx) : G.row u = G'.row u := by
    refine OrdMap.ext fun v => ?_
    by_cases hX : (u, v) ∈ X
    · rw [h.gone u v hX, h'.gone u v hX]
    · rw [h.kept u v hX, h'.kept u v hX]
  refine List.ext_getElem (h.length_eq.trans h'.length_eq.symm) fun u hu hu' => ?_
  have hu₀ := hrow u
  unfold IdxGraph.row at hu₀
  rwa [List.getD_eq_getElem?_getD, List.getD_eq_getElem?_getD, List.getElem?_eq_getElem hu,
    List.getElem?_eq_getElem hu'] at hu₀

theorem entry (h : Minus OrigG G X) {u v : Idx} {w : Weight} (hw : (v, w) ∈ (G.row u).entries) :
    (v, w) ∈ (OrigG.row u).entries := by
  rw [← OrdMap.find?_eq_some] at hw ⊢
  by_cases hX : (u, v) ∈ X
  · rw [h.gone u v hX] at hw
    cases hw
  · rwa [← h.kept u v hX]

theorem closed (h : Minus OrigG G X) (hG : OrigG.Closed) : G.Closed := by
  intro d hd v hv
  obtain ⟨u, hu, rfl⟩ := List.mem_iff_getElem.mp hd
  have hedge : G.Edge u v := by
    rwa [IdxGraph.Edge, IdxGraph.row, List.getD_eq_getElem?_getD, List.getElem?_eq_getElem hu]
  rw [h.length_eq]
  exact hG.dst_lt (h.edge_iff.mp hedge).1

theorem wf (h : Minus OrigG G X) (hG : OrigG.WF) : G.WF :=
  ⟨fun hw => hG.pos (h.entry hw), fun hw => by rw [h.length_eq]; exact hG.lt (h.entry hw)⟩

/-- Putting an edge back with its old weight. -/
theorem insertEdge (h : Minus OrigG G X) {e : IdxEdge} {w : Weight} (he : (e.src, e.dst) ∈ X)
    (hw : (OrigG.row e.src).find? e.dst = some w) :
    (G.insertEdge e w).2 = true ∧ Minus OrigG (G.insertEdge e w).1 (X \ {(e.src, e.dst)}) := by
  have hedge : OrigG.Edge e.src e.dst := by simp [IdxGraph.edge_iff_find, hw]
  have hlt : e.src < G.length := h.length_eq ▸ hedge.src_lt
  simp only [IdxGraph.insertEdge, h.gone _ _ he, true_and]
  refine ⟨by simpa using h.length_eq, fun u v huv => ?_, fun u v huv => ?_⟩
  · obtain ⟨hX, hne⟩ := huv
    rw [IdxGraph.row_modify]
    split_ifs with hu
    · obtain ⟨rfl, -⟩ := hu
      have hv : v ≠ e.dst := fun hv => hne (by rw [hv]; rfl)
      rw [OrdMap.find?_insert, if_neg hv, h.gone _ v hX]
    · exact h.gone u v hX
  · by_cases heq : u = e.src ∧ v = e.dst
    · obtain ⟨rfl, rfl⟩ := heq
      rw [IdxGraph.row_modify, if_pos ⟨rfl, hlt⟩, OrdMap.find?_insert, if_pos rfl, hw]
    · have hX : (u, v) ∉ X := fun hX => huv ⟨hX, fun hsing => heq (Prod.mk.inj hsing)⟩
      rw [← h.kept u v hX, IdxGraph.row_modify]
      split_ifs with hu
      · rw [OrdMap.find?_insert, if_neg fun hv => heq ⟨hu.1, hv⟩]
      · rfl

/-- Removing an edge; nothing is lost if it was gone already. -/
theorem eraseEdge (h : Minus OrigG G X) (e : IdxEdge) :
    Minus OrigG (G.eraseEdge e).1 (X ∪ {(e.src, e.dst)}) := by
  have hfind (u v : Idx) : ((IdxGraph.row (G.eraseEdge e).1 u).find? v) =
      if u = e.src ∧ v = e.dst then none else (G.row u).find? v := by
    simp only [IdxGraph.eraseEdge, IdxGraph.row_modify]
    by_cases hlt : e.src < G.length
    · by_cases hu : u = e.src
      · simp [hu, hlt, OrdMap.find?_erase]
      · simp [hu]
    · simp only [hlt, and_false, if_false]
      split_ifs with heq
      · obtain ⟨rfl, rfl⟩ := heq
        rw [IdxGraph.row_of_le (Nat.le_of_not_lt hlt), OrdMap.find?_empty]
      · rfl
  refine ⟨by simpa [IdxGraph.eraseEdge] using h.length_eq, fun u v huv => ?_, fun u v huv => ?_⟩
  · rw [hfind]
    split_ifs with heq
    · rfl
    · exact h.gone u v (huv.resolve_right fun hsing => heq (Prod.mk.inj hsing))
  · have hne : ¬ (u = e.src ∧ v = e.dst) := by
      rintro ⟨rfl, rfl⟩
      exact huv (.inr rfl)
    rw [hfind, if_neg hne]
    exact h.kept u v fun hX => huv (.inl hX)

end Minus

/-! ## Edges in a Row -/

@[simp] theorem not_mem_edgeSet_nil (p : Idx × Idx) : p ∉ edgeSet [] := List.not_mem_nil

theorem mem_edgeSet_cons {e : IdxEdge} {es : List IdxEdge} {p : Idx × Idx} :
    p ∈ edgeSet (e :: es) ↔ p = (e.src, e.dst) ∨ p ∈ edgeSet es := by
  obtain ⟨u, v⟩ := p
  obtain ⟨a, b⟩ := e
  simp

namespace Greedy

variable {M : Greedy} {G : IdxGraph} {X : Set (Idx × Idx)} {es : List IdxEdge}

theorem reinsertEdge_spec (h : Minus M.OrigG G X) {e : IdxEdge} (he : (e.src, e.dst) ∈ X)
    (hedge : M.OrigG.Edge e.src e.dst) :
    ∃ G', M.reinsertEdge G e = .ok G' ∧ Minus M.OrigG G' (X \ {(e.src, e.dst)}) := by
  obtain ⟨w, hw⟩ := Option.ne_none_iff_exists'.mp (IdxGraph.edge_iff_find.mp hedge)
  obtain ⟨hinserted, hminus⟩ := h.insertEdge he hw
  refine ⟨_, ?_, hminus⟩
  simp [reinsertEdge, IdxGraph.weightAt, hw, hinserted, bind, Except.bind, pure, Except.pure]

/-- All edges of an old cut can be put back. -/
theorem reinsertEdges_spec (h : Minus M.OrigG G X) (hnodup : es.Nodup)
    (hes : ∀ e ∈ es, (e.src, e.dst) ∈ X ∧ M.OrigG.Edge e.src e.dst) :
    ∃ G', es.foldlM M.reinsertEdge G = .ok G' ∧ Minus M.OrigG G' (X \ edgeSet es) := by
  induction es generalizing G X with
  | nil => exact ⟨G, rfl, h.congr fun u v => by simp⟩
  | cons e es ih =>
    obtain ⟨⟨heX, hedge⟩, hes⟩ := List.forall_mem_cons.mp hes
    obtain ⟨hfresh, hnodup⟩ := List.nodup_cons.mp hnodup
    obtain ⟨G₁, hG₁, hminus⟩ := reinsertEdge_spec h heX hedge
    have hrest : ∀ e' ∈ es, (e'.src, e'.dst) ∈ X \ {(e.src, e.dst)} ∧
        M.OrigG.Edge e'.src e'.dst := by
      intro e' he'
      obtain ⟨heX', hedge'⟩ := hes e' he'
      refine ⟨⟨heX', fun hsing => hfresh ?_⟩, hedge'⟩
      obtain rfl : e' = e := IdxEdge.pair_injective hsing
      exact he'
    obtain ⟨G₂, hG₂, hminus⟩ := ih hminus hnodup hrest
    refine ⟨G₂, ?_, hminus.congr fun u v => ?_⟩
    · rw [List.foldlM_cons, hG₁]
      exact hG₂
    · rw [Set.mem_sdiff, Set.mem_sdiff, Set.mem_sdiff, mem_edgeSet_cons, Set.mem_singleton_iff]
      tauto

theorem removeEdge_spec {mode : Mode} (h : Minus M.OrigG G X) {e : IdxEdge}
    (he : mode = .replace → (e.src, e.dst) ∉ X ∧ M.OrigG.Edge e.src e.dst) :
    ∃ G', M.removeEdge mode G e = .ok G' ∧ Minus M.OrigG G' (X ∪ {(e.src, e.dst)}) := by
  refine ⟨_, ?_, h.eraseEdge e⟩
  cases mode with
  | augment =>
    simp [removeEdge, checkPresent, checkErased, bind, Except.bind, pure, Except.pure]
  | replace =>
    obtain ⟨hX, hedge⟩ := he rfl
    have hedge' : G.Edge e.src e.dst := h.edge_iff.mpr ⟨hedge, hX⟩
    have hfind : ((G.row e.src).find? e.dst).isSome = true :=
      Option.isSome_iff_ne_none.mpr (IdxGraph.edge_iff_find.mp hedge')
    have hrow : G[e.src]? = some (G.row e.src) := by
      rw [IdxGraph.row, List.getD_eq_getElem?_getD, List.getElem?_eq_getElem hedge'.src_lt,
        Option.getD_some]
    have hpresent : M.checkPresent .replace G e = .ok () := by
      simp [checkPresent, IdxGraph.rowAt, hrow, hfind, bind, Except.bind, pure, Except.pure]
    have herased : M.checkErased .replace (G.eraseEdge e).2 = .ok () := by
      simp [checkErased, IdxGraph.eraseEdge, hfind]
    simp [removeEdge, hpresent, herased, bind, Except.bind, pure, Except.pure]

/-- All edges of a new cut can be removed. -/
theorem removeEdges_spec {mode : Mode} (h : Minus M.OrigG G X)
    (hes : mode = .replace →
      es.Nodup ∧ ∀ e ∈ es, (e.src, e.dst) ∉ X ∧ M.OrigG.Edge e.src e.dst) :
    ∃ G', es.foldlM (M.removeEdge mode) G = .ok G' ∧ Minus M.OrigG G' (X ∪ edgeSet es) := by
  induction es generalizing G X with
  | nil => exact ⟨G, rfl, h.congr fun u v => by simp⟩
  | cons e es ih =>
    have hhead (hmode : mode = .replace) : (e.src, e.dst) ∉ X ∧ M.OrigG.Edge e.src e.dst :=
      (hes hmode).2 e (.head _)
    obtain ⟨G₁, hG₁, hminus⟩ := removeEdge_spec h hhead
    have hrest (hmode : mode = .replace) : es.Nodup ∧
        ∀ e' ∈ es, (e'.src, e'.dst) ∉ X ∪ {(e.src, e.dst)} ∧ M.OrigG.Edge e'.src e'.dst := by
      obtain ⟨hnodup, hes⟩ := hes hmode
      obtain ⟨hfresh, hnodup⟩ := List.nodup_cons.mp hnodup
      refine ⟨hnodup, fun e' he' => ⟨?_, (hes e' (.tail _ he')).2⟩⟩
      rintro (hX | hsing)
      · exact (hes e' (.tail _ he')).1 hX
      · obtain rfl : e' = e := IdxEdge.pair_injective hsing
        exact hfresh he'
    obtain ⟨G₂, hG₂, hminus⟩ := ih hminus hrest
    refine ⟨G₂, ?_, hminus.congr fun u v => ?_⟩
    · rw [List.foldlM_cons, hG₁]
      exact hG₂
    · rw [Set.mem_union, Set.mem_union, Set.mem_union, mem_edgeSet_cons, Set.mem_singleton_iff]
      tauto

end Greedy

/-! ## Sorting New Cuts -/

theorem length_uniqueInPlace {α : Type} [DecidableEq α] (l : List α) :
    (uniqueInPlace l).length = l.length := by
  have hle := (List.destutter_sublist (· ≠ ·) l).length_le
  simp only [uniqueInPlace, List.length_append, List.length_drop]
  omega

theorem uniqueInPlace_of_nodup {α : Type} [DecidableEq α] {l : List α} (h : l.Nodup) :
    uniqueInPlace l = l := by
  unfold uniqueInPlace
  rw [List.destutter_of_isChain _ _ (List.Pairwise.isChain h)]
  simp

theorem uniqueInPlace_insertionSort {l : List IdxEdge} (h : l.Pairwise (· < ·)) :
    uniqueInPlace (l.insertionSort (· ≤ ·)) = l := by
  rw [List.Pairwise.insertionSort_eq (h.imp le_of_lt), uniqueInPlace_of_nodup (h.imp ne_of_lt)]

theorem sorted_insertionSort {l : List IdxEdge} (h : l.Nodup) :
    (l.insertionSort (· ≤ ·)).Pairwise (· < ·) := by
  have hnodup : (l.insertionSort (· ≤ ·)).Nodup :=
    (List.perm_insertionSort (· ≤ ·) l).nodup_iff.mpr h
  exact (List.pairwise_insertionSort (· ≤ ·) l).imp₂ (fun _ _ => lt_of_le_of_ne) hnodup

section NewCut

variable {old tmp : List IdxEdge}

@[simp] theorem newCut_replace (htmp : tmp.Pairwise (· < ·)) :
    Greedy.newCut .replace old tmp = tmp := uniqueInPlace_insertionSort htmp

@[simp] theorem newCut_augment_nil (hold : old.Pairwise (· < ·)) :
    Greedy.newCut .augment old [] = old := uniqueInPlace_insertionSort hold

/-- In mode `augment` the new cut is the answer and the old cut, sorted. -/
theorem newCut_augment_perm (htmp : tmp.Pairwise (· < ·)) (hold : old.Pairwise (· < ·))
    (hdisj : tmp.Disjoint old) : (Greedy.newCut .augment old tmp).Pairwise (· < ·) ∧
      (Greedy.newCut .augment old tmp).Perm (old ++ tmp) := by
  have hnodup : (tmp ++ old).Nodup :=
    List.nodup_append'.mpr ⟨htmp.imp ne_of_lt, hold.imp ne_of_lt, hdisj⟩
  have hsorted := sorted_insertionSort hnodup
  have heq : Greedy.newCut .augment old tmp = (tmp ++ old).insertionSort (· ≤ ·) :=
    uniqueInPlace_of_nodup (hsorted.imp ne_of_lt)
  rw [heq]
  exact ⟨hsorted, (List.perm_insertionSort _ _).trans List.perm_append_comm⟩

theorem newCut_augment (htmp : tmp.Pairwise (· < ·)) (hold : old.Pairwise (· < ·))
    (hdisj : tmp.Disjoint old) : (Greedy.newCut .augment old tmp).Pairwise (· < ·) ∧
      ∀ e, e ∈ Greedy.newCut .augment old tmp ↔ e ∈ tmp ∨ e ∈ old := by
  obtain ⟨hsorted, hperm⟩ := newCut_augment_perm htmp hold hdisj
  refine ⟨hsorted, fun e => ?_⟩
  rw [hperm.mem_iff, List.mem_append]
  exact or_comm

end NewCut

/-! ## The Invariant -/

/-- The cuts are disjoint sorted lists of edges, and the working graph lacks exactly
their edges. -/
structure CutsInv (OrigG G : IdxGraph) (cuts : Cuts) : Prop where
  sorted : ∀ cut ∈ cuts, cut.Pairwise (· < ·)
  edge : ∀ cut ∈ cuts, ∀ e ∈ cut, OrigG.Edge e.src e.dst
  disjoint : cuts.Pairwise List.Disjoint
  minus : Minus OrigG G (edgeSet cuts.flatten)

theorem mem_edgeSet_flatten_cons {cut : List IdxEdge} {cuts : Cuts} {p : Idx × Idx} :
    p ∈ edgeSet (cut :: cuts).flatten ↔ p ∈ edgeSet cut ∨ p ∈ edgeSet cuts.flatten := by
  obtain ⟨u, v⟩ := p
  simp only [mem_edgeSet, List.flatten_cons, List.mem_append]

theorem CutsInv.perm {OrigG G : IdxGraph} {cuts cuts' : Cuts} (h : CutsInv OrigG G cuts)
    (hperm : cuts.Perm cuts') : CutsInv OrigG G cuts' where
  sorted := fun cut hcut => h.sorted cut (hperm.mem_iff.mpr hcut)
  edge := fun cut hcut => h.edge cut (hperm.mem_iff.mpr hcut)
  disjoint := (hperm.pairwise_iff List.Disjoint.symm).mp h.disjoint
  minus := h.minus.congr fun u v => by
    rw [mem_edgeSet, mem_edgeSet, hperm.flatten.mem_iff]

theorem CutsInv.nodup {OrigG G : IdxGraph} {cuts : Cuts} (h : CutsInv OrigG G cuts) :
    cuts.flatten.Nodup :=
  List.nodup_flatten.mpr ⟨fun cut hcut => (h.sorted cut hcut).imp ne_of_lt, h.disjoint⟩

namespace Greedy

variable {M : Greedy}

/-- The cuts whose edges the solver does not see. -/
def hidden (mode : Mode) (old : List IdxEdge) (rest : Cuts) : Cuts :=
  match mode with
  | .replace => rest
  | .augment => old :: rest

theorem addOldCut_spec (mode : Mode) {G : IdxGraph} {old : List IdxEdge} {rest : Cuts}
    (h : CutsInv M.OrigG G (old :: rest)) : ∃ G₀, M.addOldCut mode old G = .ok G₀ ∧
      Minus M.OrigG G₀ (edgeSet (hidden mode old rest).flatten) := by
  cases mode with
  | augment => exact ⟨G, rfl, h.minus⟩
  | replace =>
    have hdisj := (List.pairwise_cons.mp h.disjoint).1
    have hold (e : IdxEdge) (he : e ∈ old) :
        (e.src, e.dst) ∈ edgeSet (old :: rest).flatten ∧ M.OrigG.Edge e.src e.dst :=
      ⟨mem_edgeSet_flatten_cons.mpr (.inl he), h.edge old (.head _) e he⟩
    have hnodup : old.Nodup := (h.sorted old (.head _)).imp ne_of_lt
    obtain ⟨G₀, hG₀, hminus⟩ := reinsertEdges_spec h.minus hnodup hold
    refine ⟨G₀, hG₀, hminus.congr fun u v => ?_⟩
    rw [Set.mem_sdiff, mem_edgeSet_flatten_cons]
    constructor
    · rintro ⟨hold | hrest, hnot⟩
      · exact absurd hold hnot
      · exact hrest
    · intro hrest
      obtain ⟨cut, hcut, he⟩ := List.mem_flatten.mp hrest
      exact ⟨.inr hrest, fun hin => hdisj cut hcut hin he⟩

/-- The new cut of an ST can be removed, and leaves a state like the one before. -/
theorem newCut_spec {mode : Mode} {G G₀ : IdxGraph} {old tmp : List IdxEdge} {rest : Cuts}
    (h : CutsInv M.OrigG G (old :: rest))
    (h₀ : Minus M.OrigG G₀ (edgeSet (hidden mode old rest).flatten))
    (htmp : tmp.Pairwise (· < ·)) (hedge : ∀ e ∈ tmp, G₀.Edge e.src e.dst) :
    ∃ G₁, (newCut mode old tmp).foldlM (M.removeEdge mode) G₀ = .ok G₁ ∧
      CutsInv M.OrigG G₁ (newCut mode old tmp :: rest) := by
  have hfresh (e : IdxEdge) (he : e ∈ tmp) : M.OrigG.Edge e.src e.dst ∧
      (e.src, e.dst) ∉ edgeSet (hidden mode old rest).flatten := h₀.edge_iff.mp (hedge e he)
  obtain ⟨hdisj, hdisjs⟩ := List.pairwise_cons.mp h.disjoint
  obtain ⟨hold, hsorted⟩ := List.forall_mem_cons.mp h.sorted
  obtain ⟨hedgeOld, hedges⟩ := List.forall_mem_cons.mp h.edge
  cases mode with
  | replace =>
    rw [newCut_replace htmp]
    obtain ⟨G₁, hG₁, hminus⟩ := removeEdges_spec h₀ fun _ =>
      ⟨htmp.imp ne_of_lt, fun e he => (hfresh e he).symm⟩
    refine ⟨G₁, hG₁, ?_, ?_, ?_, hminus.congr fun u v => ?_⟩
    · exact List.forall_mem_cons.mpr ⟨htmp, hsorted⟩
    · exact List.forall_mem_cons.mpr ⟨fun e he => (hfresh e he).1, hedges⟩
    · refine List.pairwise_cons.mpr ⟨fun cut hcut e he hin => (hfresh e he).2 ?_, hdisjs⟩
      exact List.mem_flatten.mpr ⟨cut, hcut, hin⟩
    · rw [Set.mem_union, mem_edgeSet_flatten_cons]
      exact or_comm
  | augment =>
    have hdisj' : tmp.Disjoint old := fun e he hin =>
      (hfresh e he).2 (mem_edgeSet_flatten_cons.mpr (.inl hin))
    obtain ⟨hnew, hmem⟩ := newCut_augment htmp hold hdisj'
    obtain ⟨G₁, hG₁, hminus⟩ := @removeEdges_spec M _ _
      (newCut .augment old tmp) .augment h₀ nofun
    refine ⟨G₁, hG₁, ?_, ?_, ?_, hminus.congr fun u v => ?_⟩
    · exact List.forall_mem_cons.mpr ⟨hnew, hsorted⟩
    · refine List.forall_mem_cons.mpr ⟨fun e he => ?_, hedges⟩
      rcases (hmem e).mp he with he | he
      · exact (hfresh e he).1
      · exact hedgeOld e he
    · refine List.pairwise_cons.mpr ⟨fun cut hcut e he hin => ?_, hdisjs⟩
      rcases (hmem e).mp he with he | he
      · refine (hfresh e he).2 (mem_edgeSet_flatten_cons.mpr (.inr ?_))
        exact List.mem_flatten.mpr ⟨cut, hcut, hin⟩
      · exact hdisj cut hcut he hin
    · have hmem' : (u, v) ∈ edgeSet (newCut .augment old tmp) ↔
          (u, v) ∈ edgeSet tmp ∨ (u, v) ∈ edgeSet old := hmem ⟨u, v⟩
      unfold hidden
      rw [Set.mem_union, mem_edgeSet_flatten_cons, mem_edgeSet_flatten_cons, hmem']
      tauto

end Greedy

end Clou
