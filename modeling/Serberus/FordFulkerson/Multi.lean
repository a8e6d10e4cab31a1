-- SUMMARY: The flow solver: augmenting along waypoint paths, cutting behind the reached nodes, and the layered graph it runs on.
import Mathlib.Data.Prod.Lex
import Serberus.FordFulkerson.Search

/-!
# The Multi-Waypoint Solver

`fordFulkersonMulti` copies the graph once for each waypoint set and leads the
edges into a waypoint of the next level one level up. On that layered graph it
augments along waypoint paths while there are any, takes the edges that leave
the nodes still reached from the first set, and maps them back.

Residual weights are machine words: `pushEdge` wraps around like the source. Node
numbers are not: `Words.fordFulkersonMulti` is the solver on `unsigned` node numbers.
-/

namespace Clou

open Clou.Graph

/-! ## Edges -/

/-- A pair of indices, in lexicographic order. -/
structure IdxEdge where
  src : Idx
  dst : Idx
  deriving DecidableEq

namespace IdxEdge

def pair (e : IdxEdge) : Idx ×ₗ Idx := toLex (e.src, e.dst)

theorem pair_injective : Function.Injective pair := by
  rintro ⟨u, v⟩ ⟨u', v'⟩ h
  simpa [pair] using h

instance : LinearOrder IdxEdge := LinearOrder.lift' pair pair_injective

/-- The edge in the other direction. -/
def swap (e : IdxEdge) : IdxEdge := ⟨e.dst, e.src⟩

@[simp] theorem swap_swap (e : IdxEdge) : e.swap.swap = e := rfl

end IdxEdge

/-- The consecutive pairs of a path. -/
def pathEdges (path : List Idx) : List IdxEdge := List.zipWith IdxEdge.mk path path.tail

/-! ## Augmenting -/

section Augment

variable {γ : Type} [Graph γ]

def maxWeight : Weight := 0xFFFFFFFF

/-- The least residual weight on a path. -/
def pathFlow (resG : ScopedGraph γ) (path : List Idx) : Weight :=
  (pathEdges path).foldl (fun flow e => min flow (getWeight resG e.src e.dst)) maxWeight

/-- Move `flow` from an edge to its reverse. -/
def pushEdge (flow : Weight) (resG : ScopedGraph γ) (e : IdxEdge) : ScopedGraph γ :=
  let resG := resG.putWeight e.src e.dst (getWeight resG e.src e.dst - flow)
  resG.putWeight e.dst e.src (getWeight resG e.dst e.src + flow)

def pushEdges (flow : Weight) (resG : ScopedGraph γ) (es : List IdxEdge) : ScopedGraph γ :=
  es.foldl (pushEdge flow) resG

/-- The body of the augmenting loop, for the path that was found. -/
def pushPath (resG : ScopedGraph γ) (path : List Idx) : ScopedGraph γ :=
  pushEdges (pathFlow resG path) resG (pathEdges path)

/-- Augment along waypoint paths until there are none. -/
def augment (ndebug : Bool) (waypointSets : List (OrdSet Idx)) :
    Nat → ScopedGraph γ → Exec (ScopedGraph γ)
  | 0, _ => throw .outOfFuel
  | fuel + 1, resG => do
    match ← findStPathMulti ndebug resG waypointSets with
    | none => pure resG
    | some path =>
      assert ndebug .pathSize (2 ≤ path.length)
      let flow := pathFlow resG path
      assert ndebug .pathFlow (0 < flow ∧ flow < maxWeight)
      augment ndebug waypointSets fuel (pushPath resG path)

/-- The edges of `g` that leave `reach`. -/
def leaving (g : γ) (reach : List Idx) : List IdxEdge :=
  ((List.range (nodes g)).filter (· ∈ reach)).flatMap fun u =>
    ((succs g u).filter (· ∉ reach)).map (IdxEdge.mk u)

def fordFulkersonMultiImpl (ndebug : Bool) (fuel : Nat) (g : γ)
    (waypointSets : List (OrdSet Idx)) : Exec (List IdxEdge) := do
  assert ndebug .enoughWaypoints (2 ≤ waypointSets.length)
  if nodes g = 0 then pure []
  else do
    let resG ← augment ndebug waypointSets fuel (.new g)
    pure (leaving g (findReachableMulti resG waypointSets.head!))

end Augment

/-! ## The Layered Graph -/

/-- As many copies of `G` as there are waypoint sets. -/
def dupGraph (G : IdxGraph) (waypointSets : List (OrdSet Idx)) : DupGraph ImmutableVectorGraph :=
  ⟨⟨G⟩, waypointSets.length⟩

/-- The waypoints of set `i`, on level `i`. -/
def waypointsMod (G : IdxGraph) (waypointSets : List (OrdSet Idx)) : List (OrdSet Idx) :=
  waypointSets.mapIdx fun i S =>
    S.image fun u => (dupGraph G waypointSets).getNodeForLevel u i

/-- Lead the edge `u → v` of level `i - 1` up to level `i`. -/
def levelUp (dupG : DupGraph ImmutableVectorGraph) (i : Nat) (u : Idx)
    (modG : ScopedGraph (DupGraph ImmutableVectorGraph)) (e : Idx × Weight) :
    ScopedGraph (DupGraph ImmutableVectorGraph) :=
  (modG.putWeight (dupG.getNodeForLevel u (i - 1)) (dupG.getNodeForLevel e.1 i) e.2).putWeight
    (dupG.getNodeForLevel u (i - 1)) (dupG.getNodeForLevel e.1 (i - 1)) 0

/-- Lead the edges into `S` from level `i - 1` up to level `i`. -/
def levelUps (dupG : DupGraph ImmutableVectorGraph)
    (modG : ScopedGraph (DupGraph ImmutableVectorGraph)) (S : OrdSet Idx) (i : Nat) :
    ScopedGraph (DupGraph ImmutableVectorGraph) :=
  (List.range (nodes dupG.G)).foldl (fun modG u =>
    (row dupG.G u).entries.foldl (fun modG e =>
      if e.1 ∈ S then levelUp dupG i u modG e else modG) modG) modG

/-- Level copies of `G`, with the edges into the next waypoint set leading up. -/
def modGraph (G : IdxGraph) (waypointSets : List (OrdSet Idx)) :
    ScopedGraph (DupGraph ImmutableVectorGraph) :=
  let dupG := dupGraph G waypointSets
  waypointSets.zipIdx.foldl (fun modG (S, i) => if 0 < i then levelUps dupG modG S i else modG)
    (.new dupG)

/-- The edges of a cut for the waypoint sets, sorted and without duplicates. -/
def fordFulkersonMulti (ndebug : Bool) (fuel : Nat) (G : IdxGraph)
    (waypointSets : List (OrdSet Idx)) : Exec (List IdxEdge) := do
  let dupG := dupGraph G waypointSets
  let results ← fordFulkersonMultiImpl ndebug fuel (modGraph G waypointSets)
    (waypointsMod G waypointSets)
  let results := results.map fun e => ⟨dupG.getFirstLevelNode e.src, dupG.getFirstLevelNode e.dst⟩
  pure (sortUnique results)

/-! ## Paths -/

@[simp] theorem pathEdges_nil : pathEdges [] = [] := rfl

@[simp] theorem pathEdges_singleton (u : Idx) : pathEdges [u] = [] := rfl

@[simp] theorem pathEdges_cons_cons (u v : Idx) (path : List Idx) :
    pathEdges (u :: v :: path) = ⟨u, v⟩ :: pathEdges (v :: path) := rfl

theorem pathEdges_of_chain {E : Idx → Idx → Prop} {path : List Idx} (h : path.IsChain E) :
    ∀ e ∈ pathEdges path, E e.src e.dst := by
  induction path with
  | nil => simp
  | cons u path ih =>
    cases path with
    | nil => simp
    | cons v path =>
      obtain ⟨huv, h⟩ := List.isChain_cons_cons.mp h
      simpa using ⟨huv, ih h⟩

theorem mem_of_mem_pathEdges {path : List Idx} {e : IdxEdge} (h : e ∈ pathEdges path) :
    e.src ∈ path ∧ e.dst ∈ path := by
  induction path with
  | nil => simp at h
  | cons u path ih =>
    cases path with
    | nil => simp at h
    | cons v path =>
      rcases List.mem_cons.mp h with rfl | h
      · simp
      · exact ⟨.tail _ (ih h).1, .tail _ (ih h).2⟩

/-! ## Path Flow -/

section Flow

variable {γ : Type} [Graph γ] {resG : ScopedGraph γ}

theorem Weight.toNat_min (a b : Weight) : (min a b).toNat = min a.toNat b.toNat := by
  change (if a ≤ b then a else b).toNat = _
  split_ifs with h <;> rw [UInt32.le_iff_toNat_le] at h <;> omega

theorem foldl_min_le (l : List Nat) (init : Nat) :
    l.foldl min init ≤ init ∧ ∀ n ∈ l, l.foldl min init ≤ n := by
  induction l generalizing init with
  | nil => simp
  | cons m l ih =>
    obtain ⟨hinit, hmem⟩ := ih (min init m)
    refine ⟨hinit.trans (min_le_left _ _), List.forall_mem_cons.mpr ⟨?_, hmem⟩⟩
    exact hinit.trans (min_le_right _ _)

theorem foldl_min_mem (l : List Nat) (init : Nat) :
    l.foldl min init = init ∨ l.foldl min init ∈ l := by
  induction l generalizing init with
  | nil => simp
  | cons m l ih =>
    simp only [List.foldl_cons, List.mem_cons]
    rcases ih (min init m) with h | h
    · rw [h]
      rcases min_choice init m with hmin | hmin <;> simp [hmin]
    · exact .inr (.inr h)

theorem toNat_pathFlow (resG : ScopedGraph γ) (path : List Idx) :
    (pathFlow resG path).toNat =
      ((pathEdges path).map fun e => (getWeight resG e.src e.dst).toNat).foldl min
        maxWeight.toNat := by
  rw [pathFlow]
  generalize maxWeight = init
  induction pathEdges path generalizing init with
  | nil => rfl
  | cons e es ih => rw [List.foldl_cons, ih, Weight.toNat_min, List.map_cons, List.foldl_cons]

/-- The path flow is at most the residual weight of every edge on the path. -/
theorem pathFlow_le {path : List Idx} {e : IdxEdge} (he : e ∈ pathEdges path) :
    (pathFlow resG path).toNat ≤ (getWeight resG e.src e.dst).toNat := by
  rw [toNat_pathFlow]
  exact (foldl_min_le _ _).2 _ (List.mem_map_of_mem he)

/-- Along edges of the residual graph something flows. -/
theorem pathFlow_pos {path : List Idx} (h : path.IsChain (Edge resG)) :
    0 < (pathFlow resG path).toNat := by
  rw [toNat_pathFlow]
  rcases foldl_min_mem _ _ with heq | hmem
  · rw [heq]
    decide
  · obtain ⟨e, he, heq⟩ := List.mem_map.mp hmem
    rw [← heq]
    exact UInt32.lt_iff_toNat_lt.mp (pathEdges_of_chain h e he)

end Flow

/-! ## Pushing -/

section Push

variable {γ : Type} [Graph γ] {resG : ScopedGraph γ} {flow : Weight} {e : IdxEdge}

@[simp] theorem nodes_pushEdge : nodes (pushEdge flow resG e) = nodes resG := rfl

theorem lawful_pushEdge (h : Lawful resG) (hsrc : e.src < nodes resG) (hdst : e.dst < nodes resG) :
    Lawful (pushEdge flow resG e) :=
  ScopedGraph.lawful_putWeight (ScopedGraph.lawful_putWeight h hdst) (by simpa using hsrc)

/-- One push changes an edge and its reverse; on a self loop nothing. -/
theorem getWeight_pushEdge (h : Lawful resG) (hdst : e.dst < nodes resG) (u v : Idx) :
    getWeight (pushEdge flow resG e) u v =
      if e = ⟨u, v⟩ then (if e.swap = ⟨u, v⟩ then getWeight resG u v else getWeight resG u v - flow)
      else if e.swap = ⟨u, v⟩ then getWeight resG u v + flow
      else getWeight resG u v := by
  obtain ⟨a, b⟩ := e
  simp only [pushEdge, IdxEdge.swap, IdxEdge.mk.injEq]
  rw [ScopedGraph.getWeight_putWeight (ScopedGraph.lawful_putWeight h hdst),
    ScopedGraph.getWeight_putWeight h, ScopedGraph.getWeight_putWeight h]
  by_cases hfwd : a = u ∧ b = v
  · obtain ⟨rfl, rfl⟩ := hfwd
    by_cases hloop : b = a
    · subst hloop
      simp only [and_self, if_true]
      exact UInt32.sub_add_cancel _ _
    · simp [hloop, Ne.symm hloop]
  · by_cases hbwd : b = u ∧ a = v
    · obtain ⟨rfl, rfl⟩ := hbwd
      have hloop : a ≠ b := fun h => hfwd ⟨h, h.symm⟩
      simp [hloop, hloop.symm]
    · have hfwd' : ¬ (u = a ∧ v = b) := fun h => hfwd ⟨h.1.symm, h.2.symm⟩
      have hbwd' : ¬ (u = b ∧ v = a) := fun h => hbwd ⟨h.1.symm, h.2.symm⟩
      simp [hfwd, hbwd, hfwd', hbwd']

/-- A pushed edge was an edge before, or its reverse was pushed along. -/
theorem Edge.of_pushEdge (h : Lawful resG) (hdst : e.dst < nodes resG) {u v : Idx}
    (huv : Edge (pushEdge flow resG e) u v) : Edge resG u v ∨ e = ⟨u, v⟩ ∨ e.swap = ⟨u, v⟩ := by
  rw [Edge, getWeight_pushEdge h hdst] at huv
  by_cases hfwd : e = ⟨u, v⟩
  · exact .inr (.inl hfwd)
  · by_cases hbwd : e.swap = ⟨u, v⟩
    · exact .inr (.inr hbwd)
    · rw [if_neg hfwd, if_neg hbwd] at huv
      exact .inl huv

end Push

/-! ## Residual Graphs -/

section Residual

variable {γ : Type} [Graph γ] {g : γ} {resG : ScopedGraph γ}

/-- What the augmenting loop keeps of the graph `g` it started from, whatever the
weights have become: an edge or its reverse is an edge of `g`. -/
structure Residual (g : γ) (resG : ScopedGraph γ) : Prop where
  lawful : Lawful resG
  nodes_eq : nodes resG = nodes g
  edge : ∀ u v, Edge resG u v → Edge g u v ∨ Edge g v u

theorem Residual.init (h : Lawful g) : Residual g (.new g) :=
  ⟨ScopedGraph.lawful_new h, rfl, fun _ _ huv => .inl huv⟩

theorem Residual.pushEdge {flow : Weight} {e : IdxEdge} (h : Residual g resG)
    (hsrc : e.src < nodes g) (hdst : e.dst < nodes g)
    (he : Edge g e.src e.dst ∨ Edge g e.dst e.src) : Residual g (pushEdge flow resG e) := by
  rw [← h.nodes_eq] at hsrc hdst
  refine ⟨lawful_pushEdge h.lawful hsrc hdst, h.nodes_eq, fun u v huv => ?_⟩
  rcases Edge.of_pushEdge h.lawful hdst huv with huv | rfl | hswap
  · exact h.edge u v huv
  · exact he
  · obtain ⟨rfl, rfl⟩ : e.dst = u ∧ e.src = v := by simpa [IdxEdge.swap] using hswap
    exact he.symm

theorem Residual.pushEdges {flow : Weight} {es : List IdxEdge} (h : Residual g resG)
    (hes : ∀ e ∈ es, e.src < nodes g ∧ e.dst < nodes g ∧
      (Edge g e.src e.dst ∨ Edge g e.dst e.src)) : Residual g (pushEdges flow resG es) := by
  induction es generalizing resG with
  | nil => exact h
  | cons e es ih =>
    obtain ⟨⟨hsrc, hdst, he⟩, hes⟩ := List.forall_mem_cons.mp hes
    exact ih (h.pushEdge hsrc hdst he) hes

/-- The edges of a found path, as edges of the residual graph between nodes. -/
theorem Residual.of_path (h : Residual g resG) {waypointSets : List (OrdSet Idx)}
    (hW : ∀ W ∈ waypointSets, ∀ w ∈ W, w < nodes g) (hne : waypointSets ≠ []) {path : List Idx}
    (hpath : IsPath resG waypointSets path) :
    ∀ e ∈ pathEdges path, e.src < nodes g ∧ e.dst < nodes g ∧ Edge resG e.src e.dst := by
  have hlt : ∀ u ∈ path, u < nodes g := by
    obtain ⟨s, hs, hhead⟩ := hpath.first
    obtain ⟨path, rfl⟩ := List.head?_eq_some_iff.mp hhead
    obtain ⟨S, Ts, rfl⟩ := List.exists_cons_of_ne_nil hne
    have hs' : s < nodes g := hW S (.head _) s hs
    have hchain := hpath.chain
    clear hpath hhead hs
    induction path generalizing s with
    | nil => simpa using hs'
    | cons v path ih =>
      obtain ⟨hsv, hchain⟩ := List.isChain_cons_cons.mp hchain
      have hv : v < nodes g := by
        rw [← h.nodes_eq] at hs' ⊢
        exact h.lawful.edge_lt hs' hsv
      exact List.forall_mem_cons.mpr ⟨hs', ih v hv hchain⟩
  intro e he
  obtain ⟨hsrc, hdst⟩ := mem_of_mem_pathEdges he
  exact ⟨hlt _ hsrc, hlt _ hdst, pathEdges_of_chain hpath.chain e he⟩

theorem Residual.pushPath (h : Residual g resG) {waypointSets : List (OrdSet Idx)}
    (hW : ∀ W ∈ waypointSets, ∀ w ∈ W, w < nodes g) (hne : waypointSets ≠ []) {path : List Idx}
    (hpath : IsPath resG waypointSets path) : Residual g (pushPath resG path) := by
  refine h.pushEdges fun e he => ?_
  obtain ⟨hsrc, hdst, hedge⟩ := h.of_path hW hne hpath e he
  exact ⟨hsrc, hdst, h.edge _ _ hedge⟩

end Residual

/-! ## Runs of the Augmenting Loop -/

section Run

variable {γ : Type} [Graph γ] {ndebug : Bool} {waypointSets : List (OrdSet Idx)}
  {P : ScopedGraph γ → Prop}

/-- A loop that returns keeps what its body keeps, and ends without a path. -/
theorem augment_inv {fuel : Nat} {resG resG' : ScopedGraph γ}
    (hstep : ∀ resG path, P resG →
      findStPathMulti ndebug resG waypointSets = .ok (some path) → P (pushPath resG path))
    (h : P resG) (hret : augment ndebug waypointSets fuel resG = .ok resG') :
    P resG' ∧ findStPathMulti ndebug resG' waypointSets = .ok none := by
  induction fuel generalizing resG with
  | zero => simp [augment, throw, throwThe, MonadExceptOf.throw] at hret
  | succ fuel ih =>
    simp only [augment, Exec.bind_eq_ok] at hret
    obtain ⟨found, hfind, hret⟩ := hret
    cases found with
    | none =>
      obtain rfl : resG = resG' := by simpa [pure, Except.pure] using hret
      exact ⟨h, hfind⟩
    | some path =>
      simp only [Exec.bind_eq_ok] at hret
      obtain ⟨-, -, -, -, hret⟩ := hret
      exact ih (hstep resG path h hfind) hret

end Run

end Clou
