-- SUMMARY: The graph classes of the flow solver: vector graphs, level copies and copy-on-write overlays, with the law that ties iteration to weights.
import Serberus.Lib.OrdMap

/-!
# Graphs

The three graph classes of `FordFulkerson.cc`. Each can be iterated row by row
(`operator[]`) and asked for the weight of an edge (`get_weight`, zero where
there is no edge); the searches use the first, the flow updates the second.
`Graph.Lawful` says that both describe the same weighted edges. The classes
preserve it, so everything above them can reason about `getWeight` alone.

Node indices are natural numbers here, so that level copies never run out of them:
this is the solver as it is meant. The source keeps them in `unsigned` variables;
`Words` has the solver that computes with those, and the bound below which the two
agree. Weights are machine words, because the flow updates may wrap around.
-/

namespace Clou

/-- An index of a node; `Words.wrap` is what an `unsigned` variable holds of it. -/
abbrev Idx := Nat

/-- An edge weight (`unsigned`). -/
abbrev Weight := UInt32

/-- The successors of a node, with the weights of the edges to them. -/
abbrev Dsts := OrdMap Idx Weight

/-- `std::vector<std::map<Idx, Weight>>`. -/
abbrev IdxGraph := List Dsts

/-- The row of `u`; a node that the vector does not hold has no successors. -/
def IdxGraph.row (G : IdxGraph) (u : Idx) : Dsts := G.getD u ∅

/-- The weight of an edge; zero where there is none. -/
def IdxGraph.weight (G : IdxGraph) (u v : Idx) : Weight := ((G.row u).find? v).getD 0

/-- What the searches and the flow updates ask of a graph. -/
class Graph (γ : Type) where
  nodes : γ → Nat
  row : γ → Idx → Dsts
  getWeight : γ → Idx → Idx → Weight

open Clou.Graph

/-- The successors of `u`, in iteration order. -/
def Graph.succs {γ : Type} [Graph γ] (g : γ) (u : Idx) : List Idx := (row g u).keys

/-- The edges of a graph. -/
def Graph.Edge {γ : Type} [Graph γ] (g : γ) (u v : Idx) : Prop := 0 < getWeight g u v

/-- Iteration and `get_weight` agree, weights of iterated edges are positive, and
the edges of a node lead to nodes. -/
structure Graph.Lawful {γ : Type} [Graph γ] (g : γ) : Prop where
  mem_row : ∀ {u v w}, (v, w) ∈ (row g u).entries ↔ getWeight g u v = w ∧ 0 < w
  edge_lt : ∀ {u v}, u < nodes g → Edge g u v → v < nodes g

theorem Graph.Lawful.mem_succs {γ : Type} [Graph γ] {g : γ} (h : Lawful g) {u v : Idx} :
    v ∈ succs g u ↔ Edge g u v := by
  rw [succs, OrdMap.mem_keys]
  constructor
  · rintro ⟨w, hw⟩
    obtain ⟨rfl, hpos⟩ := h.mem_row.mp hw
    exact hpos
  · intro hpos
    exact ⟨_, h.mem_row.mpr ⟨rfl, hpos⟩⟩

theorem Weight.pos_iff {w : Weight} : 0 < w ↔ w ≠ 0 := by
  rw [UInt32.lt_iff_toNat_lt, Ne, ← UInt32.toNat_inj]
  exact Nat.pos_iff_ne_zero

/-- Under the law `get_weight` reads the row. -/
theorem Graph.Lawful.getWeight_eq {γ : Type} [Graph γ] {g : γ} (h : Lawful g) (u v : Idx) :
    getWeight g u v = ((row g u).find? v).getD 0 := by
  cases hrow : (row g u).find? v with
  | some w => simpa using (h.mem_row.mp (OrdMap.find?_eq_some.mp hrow)).1
  | none =>
    by_contra hne
    have hpos : 0 < getWeight g u v := Weight.pos_iff.mpr (by simpa using hne)
    exact OrdMap.find?_eq_none.mp hrow _ (h.mem_row.mpr ⟨rfl, hpos⟩)

/-- The weight that a row assigns to a destination. -/
theorem Dsts.findD_eq {d : Dsts} (hpos : ∀ v w, (v, w) ∈ d.entries → 0 < w) {v : Idx} {w : Weight} :
    (v, w) ∈ d.entries ↔ (d.find? v).getD 0 = w ∧ 0 < w := by
  rw [← OrdMap.find?_eq_some]
  constructor
  · intro h
    exact ⟨by simp [h], hpos v w (OrdMap.find?_eq_some.mp h)⟩
  · rintro ⟨h, hw⟩
    cases hd : d.find? v with
    | none =>
      rw [hd, Option.getD_none] at h
      exact absurd h.symm (Weight.pos_iff.mp hw)
    | some w' => rw [← h, hd, Option.getD_some]

/-! ## Vector Graphs -/

structure ImmutableVectorGraph where
  G : IdxGraph

namespace ImmutableVectorGraph

instance : Graph ImmutableVectorGraph where
  nodes g := g.G.length
  row g src := g.G.row src
  getWeight g src dst := g.G.weight src dst

end ImmutableVectorGraph

/-- A graph with positive weights: every edge weighs something and leads to a node. -/
structure IdxGraph.WF (G : IdxGraph) : Prop where
  pos : ∀ {u v w}, (v, w) ∈ (G.row u).entries → 0 < w
  lt : ∀ {u v w}, (v, w) ∈ (G.row u).entries → v < G.length

theorem IdxGraph.row_mem {G : IdxGraph} {u : Idx} (h : u < G.length) : G.row u ∈ G := by
  rw [row, List.getD_eq_getElem?_getD, List.getElem?_eq_getElem h]
  exact List.getElem_mem h

theorem IdxGraph.wf_iff {G : IdxGraph} :
    G.WF ↔ ∀ d ∈ G, ∀ e ∈ d.entries, 0 < e.2 ∧ e.1 < G.length := by
  constructor
  · rintro ⟨hpos, hlt⟩ d hd e he
    obtain ⟨u, hu, rfl⟩ := List.mem_iff_getElem.mp hd
    have hrow : e ∈ (G.row u).entries := by
      rwa [row, List.getD_eq_getElem?_getD, List.getElem?_eq_getElem hu]
    exact ⟨hpos hrow, hlt hrow⟩
  · intro h
    have key {u v : Idx} {w : Weight} (he : (v, w) ∈ (G.row u).entries) : 0 < w ∧ v < G.length := by
      rcases Nat.lt_or_ge u G.length with hu | hu
      · exact h _ (row_mem hu) _ he
      · simp [row, List.getD_eq_getElem?_getD, List.getElem?_eq_none hu] at he
    exact ⟨fun he => (key he).1, fun he => (key he).2⟩

instance (G : IdxGraph) : Decidable G.WF := decidable_of_iff _ IdxGraph.wf_iff.symm

/-- The edges of a vector graph. -/
def IdxGraph.Edge (G : IdxGraph) (u v : Idx) : Prop := v ∈ (G.row u).keys

instance (G : IdxGraph) (u v : Idx) : Decidable (G.Edge u v) :=
  inferInstanceAs (Decidable (v ∈ (G.row u).keys))

theorem IdxGraph.row_of_le {G : IdxGraph} {u : Idx} (h : G.length ≤ u) : G.row u = ∅ := by
  simp [row, List.getD_eq_getElem?_getD, List.getElem?_eq_none h]

theorem IdxGraph.Edge.src_lt {G : IdxGraph} {u v : Idx} (h : G.Edge u v) : u < G.length := by
  by_contra hlt
  rw [IdxGraph.Edge, IdxGraph.row_of_le (Nat.le_of_not_lt hlt)] at h
  exact List.not_mem_nil h

theorem IdxGraph.edge_iff_find {G : IdxGraph} {u v : Idx} :
    G.Edge u v ↔ (G.row u).find? v ≠ none := by
  rw [IdxGraph.Edge, OrdMap.mem_keys, Ne, OrdMap.find?_eq_none]
  push Not
  exact Iff.rfl

theorem IdxGraph.row_modify (G : IdxGraph) (a u : Idx) (f : Dsts → Dsts) :
    IdxGraph.row (G.modify a f) u = if u = a ∧ a < G.length then f (G.row u) else G.row u := by
  unfold IdxGraph.row
  simp only [List.getD_eq_getElem?_getD, List.getElem?_modify]
  by_cases hu : a = u
  · subst hu
    by_cases ha : a < G.length
    · simp [ha]
    · simp [ha]
  · rw [if_neg fun h => hu h.1.symm]
    simp [hu]

/-- The edges of a graph lead to nodes. -/
def IdxGraph.Closed (G : IdxGraph) : Prop := ∀ d ∈ G, ∀ v ∈ d.keys, v < G.length

instance (G : IdxGraph) : Decidable G.Closed :=
  inferInstanceAs (Decidable (∀ d ∈ G, ∀ v ∈ d.keys, v < G.length))

theorem IdxGraph.Closed.dst_lt {G : IdxGraph} (hG : G.Closed) {u v : Idx} (h : G.Edge u v) :
    v < G.length := hG _ (row_mem h.src_lt) v h

theorem IdxGraph.WF.closed {G : IdxGraph} (hG : G.WF) : G.Closed := by
  intro d hd v hv
  obtain ⟨w, hw⟩ := OrdMap.mem_keys.mp hv
  exact (wf_iff.mp hG d hd _ hw).2

theorem IdxGraph.WF.dst_lt {G : IdxGraph} (hG : G.WF) {u v : Idx} (h : G.Edge u v) :
    v < G.length := hG.closed.dst_lt h

theorem IdxGraph.WF.lawful {G : IdxGraph} (hG : G.WF) :
    Lawful (⟨G⟩ : ImmutableVectorGraph) where
  mem_row := Dsts.findD_eq fun _ _ => hG.pos
  edge_lt := by
    intro u v _ hpos
    have hmem : (v, getWeight (⟨G⟩ : ImmutableVectorGraph) u v) ∈ (G.row u).entries :=
      (Dsts.findD_eq fun _ _ => hG.pos).mpr ⟨rfl, hpos⟩
    exact hG.lt hmem

theorem IdxGraph.WF.edge_iff {G : IdxGraph} (hG : G.WF) {u v : Idx} :
    Graph.Edge (⟨G⟩ : ImmutableVectorGraph) u v ↔ G.Edge u v :=
  (hG.lawful.mem_succs).symm

theorem IdxGraph.WF.weight_pos {G : IdxGraph} (hG : G.WF) {u v : Idx} :
    0 < G.weight u v ↔ G.Edge u v := hG.edge_iff

theorem IdxGraph.weight_of_mem {G : IdxGraph} {u v : Idx} {w : Weight}
    (h : (v, w) ∈ (G.row u).entries) : G.weight u v = w := by
  rw [weight, OrdMap.find?_eq_some.mpr h, Option.getD_some]

theorem IdxGraph.weight_of_not_edge {G : IdxGraph} {u v : Idx} (h : ¬ G.Edge u v) :
    G.weight u v = 0 := by
  have hnone : (G.row u).find? v = none :=
    OrdMap.find?_eq_none.mpr fun w hw => h (OrdMap.mem_keys.mpr ⟨w, hw⟩)
  rw [weight, hnone, Option.getD_none]

/-! ## Level Copies -/

/-- `levels` disjoint copies of a graph; node `v` of copy `l` has index `v + n * l`, of any size.
In the source the index wraps around (`Words.DupGraph`). -/
structure DupGraph (γ : Type) where
  G : γ
  levels : Nat

namespace DupGraph

variable {γ : Type} [Graph γ]

def getLevel (g : DupGraph γ) (v : Idx) : Nat := v / nodes g.G

def getBase (g : DupGraph γ) (v : Idx) : Idx := v % nodes g.G

def getFirstLevelNode (g : DupGraph γ) (v : Idx) : Idx := v % nodes g.G

def getNodeForLevel (g : DupGraph γ) (v : Idx) (l : Nat) : Idx := v + nodes g.G * l

theorem shift_strictMono (offset : Nat) : StrictMono fun v : Idx => v + offset :=
  fun _ _ h => Nat.add_lt_add_right h offset

instance : Graph (DupGraph γ) where
  nodes g := nodes g.G * g.levels
  row g src :=
    (row g.G (g.getBase src)).mapKeys _ (shift_strictMono (g.getLevel src * nodes g.G))
  getWeight g src dst :=
    if g.getLevel src = g.getLevel dst then getWeight g.G (g.getBase src) (g.getBase dst) else 0

section Levels

variable {g : DupGraph γ} {v l : Nat}

@[simp] theorem getLevel_node (hv : v < nodes g.G) : g.getLevel (g.getNodeForLevel v l) = l := by
  rw [getLevel, getNodeForLevel, Nat.add_mul_div_left _ _ (by omega), Nat.div_eq_of_lt hv,
    Nat.zero_add]

@[simp] theorem getBase_node (hv : v < nodes g.G) : g.getBase (g.getNodeForLevel v l) = v := by
  rw [getBase, getNodeForLevel, Nat.add_mul_mod_self_left, Nat.mod_eq_of_lt hv]

theorem node_eta (u : Idx) : g.getNodeForLevel (g.getBase u) (g.getLevel u) = u :=
  Nat.mod_add_div u _

theorem getNodeForLevel_lt (hv : v < nodes g.G) (hl : l < g.levels) :
    g.getNodeForLevel v l < nodes g := by
  change v + nodes g.G * l < nodes g.G * g.levels
  calc v + nodes g.G * l < nodes g.G * (l + 1) := by rw [Nat.mul_succ]; omega
    _ ≤ nodes g.G * g.levels := Nat.mul_le_mul_left _ hl

theorem getBase_lt {u : Idx} (hu : u < nodes g) : g.getBase u < nodes g.G := by
  refine Nat.mod_lt _ (Nat.pos_of_ne_zero fun h => ?_)
  change u < nodes g.G * g.levels at hu
  simp [h] at hu

theorem getLevel_lt {u : Idx} (hu : u < nodes g) : g.getLevel u < g.levels :=
  Nat.div_lt_of_lt_mul hu

end Levels

/-- A shifted key lies in the level it was shifted to. -/
theorem shift_eq_iff {g : DupGraph γ} {k l v : Nat} (hk : nodes g.G ≠ 0 → k < nodes g.G)
    (hl : nodes g.G = 0 → l = 0) :
    k + l * nodes g.G = v ↔ l = g.getLevel v ∧ k = g.getBase v := by
  rw [getLevel, getBase]
  rcases Nat.eq_zero_or_pos (nodes g.G) with h | h
  · simp [h, hl h]
  · constructor
    · rintro rfl
      rw [Nat.add_mul_div_right _ _ h, Nat.add_mul_mod_self_right,
        Nat.div_eq_of_lt (hk h.ne'), Nat.mod_eq_of_lt (hk h.ne')]
      exact ⟨(Nat.zero_add l).symm, rfl⟩
    · rintro ⟨rfl, rfl⟩
      exact Nat.mod_add_div' v _

theorem lawful {g : DupGraph γ} (h : Lawful g.G) : Lawful g where
  mem_row := by
    intro u v w
    have hlt {k : Idx} (hk : (k, w) ∈ (row g.G (g.getBase u)).entries) (hn : nodes g.G ≠ 0) :
        k < nodes g.G := by
      obtain ⟨rfl, hpos⟩ := h.mem_row.mp hk
      exact h.edge_lt (Nat.mod_lt u (Nat.pos_of_ne_zero hn)) hpos
    have hzero (hn : nodes g.G = 0) : g.getLevel u = 0 := by rw [getLevel, hn, Nat.div_zero]
    have hrow : (v, w) ∈ (row g u).entries ↔
        g.getLevel u = g.getLevel v ∧ (g.getBase v, w) ∈ (row g.G (g.getBase u)).entries := by
      refine OrdMap.mem_mapKeys.trans ⟨?_, ?_⟩
      · rintro ⟨k, hk, hkv⟩
        obtain ⟨hlevel, rfl⟩ := (shift_eq_iff (hlt hk) hzero).mp hkv
        exact ⟨hlevel, hk⟩
      · rintro ⟨hlevel, hk⟩
        exact ⟨_, hk, (shift_eq_iff (hlt hk) hzero).mpr ⟨hlevel, rfl⟩⟩
    rw [hrow, h.mem_row]
    change _ ↔ (if g.getLevel u = g.getLevel v then _ else 0) = w ∧ _
    split_ifs with hlevel
    · exact and_iff_right hlevel
    · constructor
      · exact fun hc => absurd hc.1 hlevel
      · rintro ⟨rfl, hpos⟩
        exact absurd rfl (Weight.pos_iff.mp hpos)
  edge_lt := by
    intro u v hu hpos
    change 0 < (if g.getLevel u = g.getLevel v then _ else 0) at hpos
    split_ifs at hpos with hlevel
    · have hbase := h.edge_lt (getBase_lt hu) hpos
      have hlt := getNodeForLevel_lt hbase (hlevel ▸ getLevel_lt hu)
      rwa [node_eta] at hlt
    · exact absurd rfl (Weight.pos_iff.mp hpos)

end DupGraph

/-! ## Copy-on-Write Overlays -/

/-- A graph and the rows of it that were written to. -/
structure ScopedGraph (γ : Type) where
  orig : γ
  mod : OrdMap Idx Dsts

namespace ScopedGraph

variable {γ : Type} [Graph γ]

/-- An overlay with nothing written yet. -/
def new (orig : γ) : ScopedGraph γ := ⟨orig, ∅⟩

instance : Graph (ScopedGraph γ) where
  nodes g := nodes g.orig
  row g src :=
    match g.mod.find? src with
    | some dsts => dsts
    | none => row g.orig src
  getWeight g src dst :=
    match g.mod.find? src with
    | some dsts => (dsts.find? dst).getD 0
    | none => getWeight g.orig src dst

/-- Set the weight of an edge; weight zero removes the edge. The first write to a
row copies it. -/
def putWeight (g : ScopedGraph γ) (src dst : Idx) (w : Weight) : ScopedGraph γ :=
  let dsts := (g.mod.find? src).getD (row g.orig src)
  { g with mod := g.mod.insert src (if 0 < w then dsts.insert dst w else dsts.erase dst) }

@[simp] theorem nodes_putWeight (g : ScopedGraph γ) (src dst : Idx) (w : Weight) :
    nodes (g.putWeight src dst w) = nodes g := rfl

@[simp] theorem nodes_new (g : γ) : nodes (new g) = nodes g := rfl

@[simp] theorem getWeight_new (g : γ) : getWeight (new g) = getWeight g := rfl

theorem lawful_new {g : γ} (h : Lawful g) : Lawful (new g) := ⟨h.mem_row, h.edge_lt⟩

theorem row_putWeight (g : ScopedGraph γ) (src dst u : Idx) (w : Weight) :
    row (g.putWeight src dst w) u =
      if u = src then (if 0 < w then (row g src).insert dst w else (row g src).erase dst)
      else row g u := by
  simp only [row, putWeight, OrdMap.find?_insert]
  split_ifs with hu
  all_goals cases g.mod.find? src <;> simp

theorem getWeight_putWeight {g : ScopedGraph γ} (h : Lawful g) (src dst u v : Idx) (w : Weight) :
    getWeight (g.putWeight src dst w) u v =
      if u = src ∧ v = dst then w else getWeight g u v := by
  have hread : getWeight (g.putWeight src dst w) u v =
      ((row (g.putWeight src dst w) u).find? v).getD 0 := by
    rw [row_putWeight]
    by_cases hu : u = src
    · simp only [row, getWeight, putWeight, OrdMap.find?_insert, hu, if_true]
      cases g.mod.find? src <;> rfl
    · rw [if_neg hu, ← h.getWeight_eq]
      simp only [getWeight, putWeight, OrdMap.find?_insert, hu, if_false]
  rw [hread, row_putWeight, h.getWeight_eq]
  by_cases hu : u = src
  · subst hu
    rw [if_pos rfl]
    by_cases hw : 0 < w
    · rw [if_pos hw, OrdMap.find?_insert]
      by_cases hv : v = dst <;> simp [hv]
    · have hzero : w = 0 := by simpa [Weight.pos_iff] using hw
      rw [if_neg hw, OrdMap.find?_erase]
      by_cases hv : v = dst <;> simp [hv, hzero]
  · simp [hu]

theorem lawful_putWeight {g : ScopedGraph γ} (h : Lawful g) {src dst : Idx} {w : Weight}
    (hdst : dst < nodes g) : Lawful (g.putWeight src dst w) where
  mem_row := by
    intro u v w'
    rw [getWeight_putWeight h, row_putWeight]
    by_cases hu : u = src
    · subst hu
      by_cases hw : 0 < w
      · rw [if_pos rfl, if_pos hw, OrdMap.mem_insert, h.mem_row]
        by_cases hv : v = dst
        · simp only [hv, Prod.mk.injEq, true_and, ne_eq, not_true, false_and, or_false, if_true]
          exact ⟨fun h => ⟨h.symm, h ▸ hw⟩, fun h => h.1.symm⟩
        · simp [hv]
      · have hzero : w = 0 := by simpa [Weight.pos_iff] using hw
        rw [if_pos rfl, if_neg hw, OrdMap.mem_erase, h.mem_row]
        by_cases hv : v = dst
        · simp only [hv, ne_eq, not_true, false_and, hzero, if_true, and_self, false_iff]
          rintro ⟨rfl, hpos⟩
          exact Weight.pos_iff.mp hpos rfl
        · simp [hv]
    · simp [hu, h.mem_row]
  edge_lt := by
    intro u v hu hpos
    rw [Edge, getWeight_putWeight h] at hpos
    split_ifs at hpos with huv
    · exact huv.2 ▸ hdst
    · exact h.edge_lt hu hpos

/-! ### Several Writes -/

def putWeights (g : ScopedGraph γ) (puts : List (Idx × Idx × Weight)) : ScopedGraph γ :=
  puts.foldl (fun g p => g.putWeight p.1 p.2.1 p.2.2) g

theorem putWeights_cons (g : ScopedGraph γ) (p : Idx × Idx × Weight)
    (puts : List (Idx × Idx × Weight)) :
    g.putWeights (p :: puts) = (g.putWeight p.1 p.2.1 p.2.2).putWeights puts := rfl

section PutWeights

variable {g : ScopedGraph γ} {puts : List (Idx × Idx × Weight)} {u v : Idx} {w : Weight}

@[simp] theorem nodes_putWeights : nodes (g.putWeights puts) = nodes g := by
  induction puts generalizing g with
  | nil => rfl
  | cons p puts ih => rw [putWeights_cons, ih, nodes_putWeight]

theorem lawful_putWeights (h : Lawful g) (hlt : ∀ p ∈ puts, p.2.1 < nodes g) :
    Lawful (g.putWeights puts) := by
  induction puts generalizing g with
  | nil => exact h
  | cons p puts ih =>
    obtain ⟨hp, hlt⟩ := List.forall_mem_cons.mp hlt
    exact ih (lawful_putWeight h hp) hlt

theorem getWeight_putWeights_of_not_mem (h : Lawful g) (hlt : ∀ p ∈ puts, p.2.1 < nodes g)
    (hno : ∀ w, (u, v, w) ∉ puts) : getWeight (g.putWeights puts) u v = getWeight g u v := by
  induction puts generalizing g with
  | nil => rfl
  | cons p puts ih =>
    obtain ⟨hp, hlt'⟩ := List.forall_mem_cons.mp hlt
    obtain ⟨a, b, w⟩ := p
    rw [putWeights_cons, ih (lawful_putWeight h hp) hlt' fun w hw => hno w (.tail _ hw),
      getWeight_putWeight h, if_neg]
    rintro ⟨rfl, rfl⟩
    exact hno w (.head _)

/-- Writes that agree on an edge set its weight. -/
theorem getWeight_putWeights_of_mem (h : Lawful g) (hlt : ∀ p ∈ puts, p.2.1 < nodes g)
    (huniq : ∀ w', (u, v, w') ∈ puts → w' = w) (hmem : (u, v, w) ∈ puts) :
    getWeight (g.putWeights puts) u v = w := by
  induction puts generalizing g with
  | nil => exact absurd hmem List.not_mem_nil
  | cons p puts ih =>
    obtain ⟨hp, hlt'⟩ := List.forall_mem_cons.mp hlt
    have hlawful := @lawful_putWeight _ _ _ h p.1 _ p.2.2 hp
    rw [putWeights_cons]
    by_cases hlater : (u, v, w) ∈ puts
    · exact ih hlawful hlt' (fun w' hw' => huniq w' (.tail _ hw')) hlater
    · obtain rfl : (u, v, w) = p := (List.mem_cons.mp hmem).resolve_right hlater
      rw [getWeight_putWeights_of_not_mem hlawful hlt', getWeight_putWeight h, if_pos ⟨rfl, rfl⟩]
      intro w' hw'
      exact hlater (huniq w' (.tail _ hw') ▸ hw')

end PutWeights

end ScopedGraph

end Clou
