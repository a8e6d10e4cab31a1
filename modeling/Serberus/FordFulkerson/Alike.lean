-- SUMMARY: Graphs that agree on their nodes get the same answer from the solver.
import Serberus.FordFulkerson.Multi

/-!
# Graphs That Agree

The solver starts at nodes and follows edges, so it never looks beyond the nodes of
its graph. Two graphs that agree there, whatever they do elsewhere, take it through
the same searches and the same flow updates.
-/

open Relation

namespace Clou

open Clou.Graph Search

variable {γ δ : Type} [Graph γ] [Graph δ]

/-- The graphs have the same nodes, and these the same rows and the same weights. -/
structure Alike (g : γ) (g' : δ) : Prop where
  nodes_eq : nodes g = nodes g'
  row_eq : ∀ u < nodes g', row g u = row g' u
  weight_eq : ∀ u < nodes g', ∀ v, getWeight g u v = getWeight g' u v

/-- Overlays of graphs that agree, in which the same rows were written. -/
structure Overlay (g : ScopedGraph γ) (g' : ScopedGraph δ) : Prop where
  orig : Alike g.orig g'.orig
  mod_eq : g.mod = g'.mod

/-! ## Overlays -/

section Overlays

variable {g : ScopedGraph γ} {g' : ScopedGraph δ}

theorem Alike.new {h : γ} {h' : δ} (hh : Alike h h') :
    Overlay (ScopedGraph.new h) (ScopedGraph.new h') := ⟨hh, rfl⟩

theorem Overlay.alike (h : Overlay g g') : Alike g g' where
  nodes_eq := h.orig.nodes_eq
  row_eq := by
    intro u hu
    simp only [row, h.mod_eq]
    cases g'.mod.find? u with
    | some dsts => rfl
    | none => exact h.orig.row_eq u hu
  weight_eq := by
    intro u hu v
    simp only [getWeight, h.mod_eq]
    cases g'.mod.find? u with
    | some dsts => rfl
    | none => exact h.orig.weight_eq u hu v

/-- A write copies the same row. -/
theorem Overlay.putWeight (h : Overlay g g') {src dst : Idx} {w : Weight} (hsrc : src < nodes g') :
    Overlay (g.putWeight src dst w) (g'.putWeight src dst w) := by
  refine ⟨h.orig, ?_⟩
  simp only [ScopedGraph.putWeight, h.mod_eq, h.orig.row_eq src hsrc]

theorem Overlay.putWeights (h : Overlay g g') {puts : List (Idx × Idx × Weight)}
    (hputs : ∀ p ∈ puts, p.1 < nodes g') : Overlay (g.putWeights puts) (g'.putWeights puts) := by
  induction puts generalizing g g' with
  | nil => exact h
  | cons p puts ih =>
    obtain ⟨hp, hputs⟩ := List.forall_mem_cons.mp hputs
    exact ih (h.putWeight hp) hputs

theorem Overlay.pushEdge (h : Overlay g g') {flow : Weight} {e : IdxEdge} (hsrc : e.src < nodes g')
    (hdst : e.dst < nodes g') : Overlay (pushEdge flow g e) (pushEdge flow g' e) := by
  have hfwd : Overlay (g.putWeight e.src e.dst (getWeight g e.src e.dst - flow))
      (g'.putWeight e.src e.dst (getWeight g' e.src e.dst - flow)) := by
    rw [h.alike.weight_eq _ hsrc]
    exact h.putWeight hsrc
  have hback := hfwd.alike.weight_eq e.dst (by simpa using hdst) e.src
  simp only [Clou.pushEdge]
  rw [hback]
  exact hfwd.putWeight (by simpa using hdst)

theorem Overlay.pushEdges (h : Overlay g g') {flow : Weight} {es : List IdxEdge}
    (hes : ∀ e ∈ es, e.src < nodes g' ∧ e.dst < nodes g') :
    Overlay (pushEdges flow g es) (pushEdges flow g' es) := by
  induction es generalizing g g' with
  | nil => exact h
  | cons e es ih =>
    obtain ⟨⟨hsrc, hdst⟩, hes⟩ := List.forall_mem_cons.mp hes
    exact ih (h.pushEdge hsrc hdst) hes

theorem Overlay.pathFlow_eq (h : Overlay g g') {path : List Idx}
    (hpath : ∀ e ∈ pathEdges path, e.src < nodes g' ∧ e.dst < nodes g') :
    pathFlow g path = pathFlow g' path :=
  List.foldl_ext _ _ _ fun flow e he => by
    rw [h.alike.weight_eq _ (hpath e he).1]

theorem Overlay.pushPath (h : Overlay g g') {path : List Idx}
    (hpath : ∀ e ∈ pathEdges path, e.src < nodes g' ∧ e.dst < nodes g') :
    Overlay (pushPath g path) (pushPath g' path) := by
  rw [Clou.pushPath, Clou.pushPath, h.pathFlow_eq hpath]
  exact h.pushEdges hpath

end Overlays

/-! ## Paths -/

section Paths

variable {g : γ} {g' : δ}

theorem Alike.edge_iff (h : Alike g g') {u v : Idx} (hu : u < nodes g') :
    Edge g u v ↔ Edge g' u v := by
  rw [Edge, Edge, h.weight_eq u hu]

/-- From a node the graphs have the same paths. -/
theorem Alike.path_iff (h : Alike g g') (hlawful : Lawful g') {a b : Idx} (ha : a < nodes g') :
    ReflTransGen (Edge g) a b ↔ ReflTransGen (Edge g') a b := by
  have hstay {c : Idx} (hac : ReflTransGen (Edge g') a c) : c < nodes g' := by
    induction hac with
    | refl => exact ha
    | tail _ hstep ih => exact hlawful.edge_lt ih hstep
  constructor
  · intro hab
    induction hab with
    | refl => exact .refl
    | tail _ hstep ih => exact ih.tail ((h.edge_iff (hstay ih)).mp hstep)
  · intro hab
    induction hab with
    | refl => exact .refl
    | tail hac hstep ih => exact ih.tail ((h.edge_iff (hstay hac)).mpr hstep)

end Paths

/-! ## Searches -/

section Searches

variable {g : γ} {g' : δ} {S : OrdSet Idx} {waypointSets : List (OrdSet Idx)}

theorem Alike.succs_eq (h : Alike g g') {u : Idx} (hu : u < nodes g') : succs g' u = succs g u := by
  rw [succs, succs, h.row_eq u hu]

theorem Graph.Lawful.succs_lt (h : Lawful g') {u : Idx} (hu : u < nodes g') :
    ∀ v ∈ succs g' u, v < nodes g' := fun _ hv => h.edge_lt hu (h.mem_succs.mp hv)

theorem Alike.searchLeg_eq (h : Alike g g') (hlawful : Lawful g')
    (hS : ∀ s ∈ S, s < nodes g') : searchLeg g S = searchLeg g' S := by
  rw [searchLeg, searchLeg, h.nodes_eq]
  exact (explore_congr (P := (· < nodes g')) (fun _ hu => h.succs_eq hu)
    (fun _ hu => hlawful.succs_lt hu) fun s hs => hS s (List.mem_reverse.mp hs)).symm

theorem Alike.searchLegs_eq (h : Alike g g') (hlawful : Lawful g')
    {Ts : List (OrdSet Idx)} (hS : ∀ s ∈ S, s < nodes g') (hTs : ∀ T ∈ Ts, ∀ t ∈ T, t < nodes g') :
    searchLegs g S Ts = searchLegs g' S Ts := by
  induction Ts generalizing S with
  | nil => rfl
  | cons T Ts ih =>
    obtain ⟨hT, hTs⟩ := List.forall_mem_cons.mp hTs
    simp only [searchLegs, h.searchLeg_eq hlawful hS]
    rw [ih (fun t ht => hT t (OrdSet.mem_filter.mp ht).1) hTs]

theorem Alike.findStPathMulti_eq (h : Alike g g')
    (hlawful : Lawful g') (hne : waypointSets ≠ [])
    (hW : ∀ W ∈ waypointSets, ∀ w ∈ W, w < nodes g') (ndebug : Bool) :
    findStPathMulti ndebug g waypointSets = findStPathMulti ndebug g' waypointSets := by
  obtain ⟨S, Ts, rfl⟩ := List.exists_cons_of_ne_nil hne
  obtain ⟨hS, hTs⟩ := List.forall_mem_cons.mp hW
  simp only [findStPathMulti, List.head!_cons, List.tail_cons]
  rw [h.searchLegs_eq hlawful hS hTs]

theorem Alike.findReachableMulti_eq (h : Alike g g')
    (hlawful : Lawful g') (hS : ∀ s ∈ S, s < nodes g') :
    findReachableMulti g S = findReachableMulti g' S := by
  have hfuel : ∑ u ∈ Finset.range (nodes g), (succs g u).length =
      ∑ u ∈ Finset.range (nodes g'), (succs g' u).length := by
    rw [h.nodes_eq]
    exact Finset.sum_congr rfl fun u hu => by rw [h.succs_eq (Finset.mem_range.mp hu)]
  rw [findReachableMulti, findReachableMulti, hfuel]
  exact (sweep_congr (P := (· < nodes g')) (fun _ hu => h.succs_eq hu)
    (fun _ hu => hlawful.succs_lt hu) fun s hs => hS s (List.mem_reverse.mp hs)).symm

theorem Alike.leaving_eq (h : Alike g g') (reach : List Idx) :
    leaving g reach = leaving g' reach := by
  rw [leaving, leaving, h.nodes_eq]
  refine List.flatMap_congr fun u hu => ?_
  rw [h.succs_eq (List.mem_range.mp (List.mem_filter.mp hu).1)]

end Searches

/-! ## The Solver -/

section Solver

variable {g : γ} {g' : δ} {waypointSets : List (OrdSet Idx)} {ndebug : Bool}

/-- The augmenting loops run side by side: what follows them sees overlays of graphs that agree. -/
theorem augment_bind_eq {α : Type} {next : ScopedGraph γ → Exec α} {next' : ScopedGraph δ → Exec α}
    {S T : OrdSet Idx} {Ts : List (OrdSet Idx)} (hW : ∀ W ∈ S :: T :: Ts, ∀ w ∈ W, w < nodes g')
    (hnext : ∀ resG resG', Overlay resG resG' → Residual g' resG' → next resG = next' resG')
    {fuel : Nat} {resG : ScopedGraph γ} {resG' : ScopedGraph δ} (h : Overlay resG resG')
    (hres : Residual g' resG') :
    augment ndebug (S :: T :: Ts) fuel resG >>= next =
      augment ndebug (S :: T :: Ts) fuel resG' >>= next' := by
  induction fuel generalizing resG resG' with
  | zero => rfl
  | succ fuel ih =>
    have hne : S :: T :: Ts ≠ [] := List.cons_ne_nil S _
    have hlt : ∀ W ∈ S :: T :: Ts, ∀ w ∈ W, w < nodes resG' := hres.nodes_eq ▸ hW
    have hfind := h.alike.findStPathMulti_eq hres.lawful hne hlt ndebug
    simp only [augment, hfind, bind_assoc]
    rcases findStPathMulti_spec hres.lawful (List.cons_ne_nil T Ts) hlt with
      ⟨hnone, -⟩ | ⟨path, hsome, -, hpath⟩
    · rw [hnone]
      exact hnext resG resG' h hres
    · have hedges : ∀ e ∈ pathEdges path, e.src < nodes resG' ∧ e.dst < nodes resG' := by
        intro e he
        obtain ⟨hsrc, hdst, -⟩ := hres.of_path hW hne hpath e he
        rw [hres.nodes_eq]
        exact ⟨hsrc, hdst⟩
      have hstep := ih (h.pushPath hedges) (hres.pushPath hW hne hpath)
      rw [hsome]
      change (_ >>= _) >>= next = (_ >>= _) >>= next'
      simp only [bind_assoc, h.pathFlow_eq hedges, hstep]

/-- Graphs that agree have the same cut. -/
theorem Alike.fordFulkersonMultiImpl_eq (h : Alike g g') (hlawful : Lawful g')
    (hk : 2 ≤ waypointSets.length) (hW : ∀ W ∈ waypointSets, ∀ w ∈ W, w < nodes g') (fuel : Nat) :
    fordFulkersonMultiImpl ndebug fuel g waypointSets =
      fordFulkersonMultiImpl ndebug fuel g' waypointSets := by
  obtain ⟨S, T, Ts, rfl⟩ : ∃ S T Ts, waypointSets = S :: T :: Ts := by
    match waypointSets, hk with
    | S :: T :: Ts, _ => exact ⟨S, T, Ts, rfl⟩
  have hcut (resG : ScopedGraph γ) (resG' : ScopedGraph δ) (hover : Overlay resG resG')
      (hres : Residual g' resG') : leaving g (findReachableMulti resG S) =
        leaving g' (findReachableMulti resG' S) := by
    rw [h.leaving_eq,
      hover.alike.findReachableMulti_eq hres.lawful (hres.nodes_eq ▸ hW S (.head _))]
  have hloop : (augment ndebug (S :: T :: Ts) fuel (.new g) >>= fun resG =>
        (pure (leaving g (findReachableMulti resG S)) : Exec (List IdxEdge))) =
      augment ndebug (S :: T :: Ts) fuel (.new g') >>= fun resG =>
        pure (leaving g' (findReachableMulti resG S)) :=
    augment_bind_eq hW (fun resG resG' hover hres => by rw [hcut resG resG' hover hres]) h.new
      (.init hlawful)
  simp only [fordFulkersonMultiImpl, h.nodes_eq, List.head!_cons]
  split_ifs
  · rfl
  · rw [hloop]

end Solver

end Clou
