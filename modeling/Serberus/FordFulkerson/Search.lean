-- SUMMARY: The searches of the flow solver: the waypoint path search with its back-tracing, and plain reachability.
import Serberus.Exec
import Serberus.FordFulkerson.Graph
import Serberus.Lib.Search
import Serberus.Lib.Walk

/-!
# Searches

`findStPathMulti` searches leg by leg: from the reached part of one waypoint set
to the reached part of the next. Its parent arrays are kept as discovery logs,
which hold exactly the nodes with a parent. When the last waypoint set is
reached, the path is traced back through the logs, leg by leg.
-/

open Relation

namespace Clou

open Clou.Graph Search

variable {γ : Type} [Graph γ]

/-! ## Searching -/

/-- The nodes reached from `S` by at least one edge, each with its parent. -/
def searchLeg (g : γ) (S : OrdSet Idx) : Log Idx :=
  explore (fun _ => false) (succs g) (S.size + nodes g) S.toList.reverse

/-- The legs through `Ts` from the reached waypoints `S`: the log and the reached
waypoints of every leg, and the reached waypoints of the last set. -/
def searchLegs (g : γ) : OrdSet Idx → List (OrdSet Idx) → List (Log Idx × OrdSet Idx) × OrdSet Idx
  | S, [] => ([], S)
  | S, T :: Ts =>
    let parent := searchLeg g S
    let (legs, last) := searchLegs g (T.filter parent.visited) Ts
    ((parent, S) :: legs, last)

/-- Follow parents from `v` to the first reached waypoint `u` of the leg: the nodes
on the way, without `u`, and `u`. -/
def traceLeg (parent : Log Idx) (S : OrdSet Idx) : Nat → Idx → Exec (List Idx × Idx)
  | 0, _ => throw .outOfFuel
  | fuel + 1, v =>
    match parent.parent v with
    | none => throw .noParent
    | some u =>
      if u ∈ S then pure ([v], u)
      else do
        let (path, w) ← traceLeg parent S fuel u
        pure (v :: path, w)

/-- The path, back to front, from the last leg to the first. -/
def tracePath : List (Log Idx × OrdSet Idx) → Idx → Exec (List Idx)
  | [], t => pure [t]
  | (parent, S) :: legs, t => do
    let (path, s) ← traceLeg parent S parent.length t
    let rest ← tracePath legs s
    pure (path ++ rest)

/-- A path through the waypoint sets; `none` where the source returns `false`. -/
def findStPathMulti (ndebug : Bool) (g : γ) (waypointSets : List (OrdSet Idx)) :
    Exec (Option (List Idx)) := do
  assert ndebug .enoughWaypoints (2 ≤ waypointSets.length)
  let (legs, last) := searchLegs g waypointSets.head! waypointSets.tail
  match last.toList with
  | [] => pure none
  | t :: _ => do
    let path ← tracePath legs.reverse t
    pure (some path.reverse)

/-- The nodes reached from `S`, those of `S` included. -/
def findReachableMulti (g : γ) (S : OrdSet Idx) : List Idx :=
  sweep (succs g) (S.size + ∑ u ∈ Finset.range (nodes g), (succs g u).length) S.toList.reverse []

/-! ## What the Searches Reach -/

section Reach

variable {g : γ}

theorem searchLeg_inv (h : Lawful g) {S : OrdSet Idx} (hS : ∀ s ∈ S, s < nodes g) :
    Inv (fun _ => false) (fun _ => false) (succs g) (· ∈ S) [] (searchLeg g S) := by
  have hU : ∀ u, u ∈ S.toList.reverse ∨ u ∈ Finset.range (nodes g) →
      ∀ v ∈ succs g u, v ∈ Finset.range (nodes g) := by
    intro u hu v hv
    have hlt : u < nodes g := hu.elim (fun h => hS u (List.mem_reverse.mp h)) Finset.mem_range.mp
    exact Finset.mem_range.mpr (h.edge_lt hlt (h.mem_succs.mp hv))
  have hfuel : S.toList.reverse.length + (Finset.range (nodes g)).card ≤ S.size + nodes g := by
    simp [OrdSet.size]
  simpa [searchLeg] using explore_inv hU hfuel

/-- A step of the search is an edge. -/
theorem step_iff_edge (h : Lawful g) {u v : Idx} :
    Step (fun _ => false) (succs g) u v ↔ Edge g u v := by
  simp [Step, h.mem_succs]

theorem discovered_searchLeg (h : Lawful g) {S : OrdSet Idx} (hS : ∀ s ∈ S, s < nodes g) :
    Log.Discovered (Edge g) (· ∈ S) (searchLeg g S) := by
  have hstep : Step (fun _ => false) (succs g) = Edge g := by
    ext u v
    exact step_iff_edge h
  exact hstep ▸ (searchLeg_inv h hS).disc

theorem visited_searchLeg (h : Lawful g) {S : OrdSet Idx} (hS : ∀ s ∈ S, s < nodes g) {v : Idx} :
    (searchLeg g S).visited v = true ↔ ∃ s ∈ S, TransGen (Edge g) s v := by
  have hstep : Step (fun _ => false) (succs g) = Edge g := by
    ext u v
    exact step_iff_edge h
  simpa [hstep] using (searchLeg_inv h hS).visited_iff (v := v)

/-- The last reached waypoints are the ends of the waypoint walks. -/
theorem mem_searchLegs (h : Lawful g) {S : OrdSet Idx} {Ts : List (OrdSet Idx)}
    (hS : ∀ s ∈ S, s < nodes g) (hTs : ∀ T ∈ Ts, ∀ t ∈ T, t < nodes g) {v : Idx} :
    v ∈ (searchLegs g S Ts).2 ↔
      ∃ u ∈ S, ∃ ws : List Idx, List.Forall₂ (· ∈ ·) ws Ts ∧
        (u :: ws).IsChain (TransGen (Edge g)) ∧ (u :: ws).getLast? = some v := by
  induction Ts generalizing S with
  | nil => simp [searchLegs]
  | cons T Ts ih =>
    obtain ⟨hT, hTs⟩ := List.forall_mem_cons.mp hTs
    have hT' : ∀ t ∈ T.filter (searchLeg g S).visited, t < nodes g :=
      fun t ht => hT t (OrdSet.mem_filter.mp ht).1
    simp only [searchLegs]
    rw [ih hT' hTs]
    simp only [OrdSet.mem_filter, visited_searchLeg h hS]
    constructor
    · rintro ⟨w, ⟨hw, s, hs, hsw⟩, ws, hmem, hchain, hlast⟩
      exact ⟨s, hs, w :: ws, hmem.cons hw, hchain.cons_cons hsw, by simpa using hlast⟩
    · rintro ⟨s, hs, ws, hmem, hchain, hlast⟩
      cases hmem with
      | @cons w _ ws _ hw hmem =>
        obtain ⟨hsw, hchain⟩ := List.isChain_cons_cons.mp hchain
        exact ⟨w, ⟨hw, s, hs, hsw⟩, ws, hmem, hchain, by simpa using hlast⟩

/-- The search ends with a reached waypoint exactly when there is a waypoint walk. -/
theorem searchLegs_nonempty_iff (h : Lawful g) {S : OrdSet Idx} {Ts : List (OrdSet Idx)}
    (hS : ∀ s ∈ S, s < nodes g) (hTs : ∀ T ∈ Ts, ∀ t ∈ T, t < nodes g) :
    (∃ v, v ∈ (searchLegs g S Ts).2) ↔ Walk.HasWalk (Edge g) (S :: Ts) := by
  simp only [mem_searchLegs h hS hTs]
  constructor
  · rintro ⟨v, u, hu, ws, hmem, hchain, -⟩
    exact ⟨u :: ws, hmem.cons hu, hchain⟩
  · rintro ⟨ws, hmem, hchain⟩
    cases hmem with
    | @cons u _ ws _ hu hmem =>
      obtain ⟨v, hv⟩ := Option.isSome_iff_exists.mp
        (List.getLast?_isSome.mpr (List.cons_ne_nil u ws))
      exact ⟨v, u, hu, ws, hmem, hchain, hv⟩

theorem mem_findReachableMulti (h : Lawful g) {S : OrdSet Idx} (hS : ∀ s ∈ S, s < nodes g)
    {v : Idx} : v ∈ findReachableMulti g S ↔ ∃ s ∈ S, ReflTransGen (Edge g) s v := by
  have hstep : (fun u v => v ∈ succs g u) = Edge g := by
    ext u v
    exact h.mem_succs
  have hU : ∀ u ∈ Finset.range (nodes g), ∀ v ∈ succs g u, v ∈ Finset.range (nodes g) := by
    intro u hu v hv
    exact Finset.mem_range.mpr (h.edge_lt (Finset.mem_range.mp hu) (h.mem_succs.mp hv))
  rw [findReachableMulti, mem_sweep hU]
  · simp [hstep]
  · intro s hs
    exact Finset.mem_range.mpr (hS s (List.mem_reverse.mp hs))
  · simp [OrdSet.size]

end Reach

/-! ## Tracing Paths Back

A discovery log only leads to older entries, so following it terminates, and it
passes each node once. The lists below are back to front, as they are traced. -/

section Trace

variable {E : Idx → Idx → Prop} {S : OrdSet Idx}

/-- The parent of the newest node of a log. -/
theorem parent_of_fresh {pre log : Log Idx} {v u : Idx}
    (h : Log.Discovered E (· ∈ S) (pre ++ (v, u) :: log)) :
    Log.parent (pre ++ (v, u) :: log) v = some u := by
  induction pre with
  | nil => simp [Log.parent]
  | cons e pre ih =>
    obtain ⟨w, x⟩ := e
    cases h with
    | cons h _ _ hfresh =>
      have hwv : w ≠ v := by
        rintro rfl
        exact Bool.eq_false_iff.mp hfresh (Log.visited_iff.mpr ⟨u, by simp⟩)
      simpa [Log.parent, hwv] using ih h

/-- What tracing one leg back from `v` to `u` gives. -/
structure IsTrace (E : Idx → Idx → Prop) (S : OrdSet Idx) (v : Idx) (path : List Idx) (u : Idx) :
    Prop where
  mem : u ∈ S
  head : path.head? = some v
  chain : (path ++ [u]).IsChain fun a b => E b a
  tail : ∀ x ∈ path.tail, x ∉ S
  nodup : path.Nodup

theorem Discovered.suffix {pre log : Log Idx} (h : Log.Discovered E (· ∈ S) (pre ++ log)) :
    Log.Discovered E (· ∈ S) log := by
  induction pre with
  | nil => exact h
  | cons e pre ih =>
    cases h with
    | cons h _ _ _ => exact ih h

theorem traceLeg_suffix {pre log : Log Idx} {fuel : Nat} {v : Idx}
    (h : Log.Discovered E (· ∈ S) (pre ++ log)) (hv : Log.visited log v = true)
    (hfuel : log.length ≤ fuel) :
    ∃ path u, traceLeg (pre ++ log) S fuel v = .ok (path, u) ∧ IsTrace E S v path u ∧
      ∀ x ∈ path, Log.visited log x = true := by
  induction log generalizing pre fuel v with
  | nil => simp at hv
  | cons e log ih =>
    obtain ⟨w, u⟩ := e
    obtain ⟨fuel, rfl⟩ : ∃ f, fuel = f + 1 := ⟨fuel - 1, by simp at hfuel; omega⟩
    have hsplit : pre ++ (w, u) :: log = (pre ++ [(w, u)]) ++ log := by simp
    have hvisited {x : Idx} (hx : Log.visited log x = true) : Log.visited ((w, u) :: log) x = true :=
      Log.visited_cons.mpr (.inr hx)
    have hfuel' : log.length ≤ fuel := by simpa using hfuel
    by_cases hvw : v = w
    · -- the newest entry: its parent is a waypoint or an older entry
      subst hvw
      have hparent := parent_of_fresh h
      obtain ⟨hstep, hsrc, hfresh⟩ : E u v ∧ (u ∈ S ∨ Log.visited log u = true) ∧
          Log.visited log v = false := by
        cases Discovered.suffix h with
        | cons _ hstep hsrc hfresh => exact ⟨hstep, hsrc, hfresh⟩
      by_cases hu : u ∈ S
      · refine ⟨[v], u, by simp [traceLeg, hparent, hu, pure, Except.pure], ?_, by simp⟩
        exact ⟨hu, rfl, by simpa using hstep, by simp, List.nodup_singleton v⟩
      · obtain ⟨path, x, htrace, hpath, hold⟩ :=
          ih (hsplit ▸ h) (hsrc.resolve_left hu) hfuel'
        obtain ⟨path, rfl⟩ := List.head?_eq_some_iff.mp hpath.head
        refine ⟨v :: u :: path, x, ?_, ⟨hpath.mem, rfl, ?_, ?_, ?_⟩, ?_⟩
        · rw [← hsplit] at htrace
          simp [traceLeg, hparent, hu, htrace, bind, Except.bind, pure, Except.pure]
        · exact List.isChain_cons_cons.mpr ⟨hstep, hpath.chain⟩
        · exact List.forall_mem_cons.mpr ⟨hu, hpath.tail⟩
        · refine List.nodup_cons.mpr ⟨fun hc => ?_, hpath.nodup⟩
          exact Bool.eq_false_iff.mp hfresh (hold v hc)
        · exact List.forall_mem_cons.mpr
            ⟨Log.visited_cons.mpr (.inl rfl), fun y hy => hvisited (hold y hy)⟩
    · have hv' : Log.visited log v = true := (Log.visited_cons.mp hv).resolve_left (Ne.symm hvw)
      obtain ⟨path, x, htrace, hpath, hold⟩ :=
        @ih (pre ++ [(w, u)]) (fuel + 1) v (hsplit ▸ h) hv' (by omega)
      rw [← hsplit] at htrace
      exact ⟨path, x, htrace, hpath, fun y hy => hvisited (hold y hy)⟩

/-- Tracing a leg back from a marked node succeeds. -/
theorem traceLeg_spec {log : Log Idx} {v : Idx} (h : Log.Discovered E (· ∈ S) log)
    (hv : log.visited v = true) :
    ∃ path u, traceLeg log S log.length v = .ok (path, u) ∧ IsTrace E S v path u := by
  have h' : Log.Discovered E (· ∈ S) ([] ++ log) := h
  obtain ⟨path, u, htrace, hpath, -⟩ := traceLeg_suffix h' hv le_rfl
  exact ⟨path, u, htrace, hpath⟩

theorem tracePath_ne_nil {legs : List (Log Idx × OrdSet Idx)} {t : Idx} {path : List Idx}
    (h : tracePath legs t = .ok path) : path ≠ [] := by
  cases legs with
  | nil =>
    obtain rfl : [t] = path := by simpa [tracePath, pure, Except.pure] using h
    simp
  | cons leg legs =>
    obtain ⟨parent, S⟩ := leg
    simp only [tracePath, Exec.bind_eq_ok, pure, Except.pure, Except.ok.injEq] at h
    obtain ⟨⟨p, s⟩, -, rest, hrest, rfl⟩ := h
    simpa using fun _ => tracePath_ne_nil hrest

/-- Tracing the first leg after all the later ones. -/
theorem tracePath_concat {legs : List (Log Idx × OrdSet Idx)} {parent : Log Idx} {t s u : Idx}
    {q p : List Idx} (hq : tracePath legs t = .ok (q ++ [s]))
    (hp : traceLeg parent S parent.length s = .ok (p, u)) :
    tracePath (legs ++ [(parent, S)]) t = .ok (q ++ p ++ [u]) := by
  induction legs generalizing t q with
  | nil =>
    obtain ⟨rfl, rfl⟩ : q = [] ∧ t = s := by
      have h : [t] = q ++ [s] := by simpa [tracePath, pure, Except.pure] using hq
      cases q with
      | nil => simpa using h
      | cons x q => simp at h
    simp [tracePath, hp, bind, Except.bind, pure, Except.pure]
  | cons leg legs ih =>
    obtain ⟨parent', S'⟩ := leg
    simp only [tracePath, Exec.bind_eq_ok, pure, Except.pure, Except.ok.injEq] at hq
    obtain ⟨⟨p', s'⟩, hp', rest, hrest, heq⟩ := hq
    obtain ⟨rest, x, rfl⟩ := List.eq_nil_or_concat rest |>.resolve_left (tracePath_ne_nil hrest)
    rw [List.concat_eq_append, ← List.append_assoc] at heq
    obtain ⟨rfl, hxs⟩ := List.append_inj' heq rfl
    obtain rfl : x = s := by simpa using hxs
    have hstep := ih (by simpa using hrest)
    simp [tracePath, hp', hstep, bind, Except.bind, pure, Except.pure]

/-- What tracing all legs back from `t` gives, the start waypoint `s` last. -/
structure IsTracedPath (E : Idx → Idx → Prop) (S : OrdSet Idx) (legs : Nat) (t : Idx)
    (path : List Idx) (s : Idx) : Prop where
  mem : s ∈ S
  head : (path ++ [s]).head? = some t
  chain : (path ++ [s]).IsChain fun a b => E b a
  long : legs ≤ path.length

/-- A path stops at a node of every set, in order: its stops are at increasing positions, the
first at its start and the last at its end. -/
def StopsAt (waypointSets : List (OrdSet Idx)) (path : List Idx) : Prop :=
  ∃ stops : List Nat, stops.head? = some 0 ∧ stops.getLast? = some (path.length - 1) ∧
    stops.IsChain (· < ·) ∧ List.Forall₂ (fun n W => ∃ w ∈ W, path[n]? = some w) stops waypointSets

theorem stopsAt_singleton {s : Idx} (hs : s ∈ S) : StopsAt [S] [s] :=
  ⟨[0], rfl, rfl, .singleton 0, .cons ⟨s, hs, rfl⟩ .nil⟩

/-- One more leg in front of a path. -/
theorem StopsAt.leg {T T' : OrdSet Idx} {Ts : List (OrdSet Idx)} {u : Idx} {p path : List Idx}
    (h : StopsAt (T' :: Ts) path) (hT : ∀ t ∈ T', t ∈ T) (hu : u ∈ S) :
    StopsAt (S :: T :: Ts) (u :: p ++ path) := by
  obtain ⟨stops, hfirst, hlast, hchain, hstops⟩ := h
  cases hstops with
  | @cons n _ stops _ hn hstops =>
    obtain rfl : n = 0 := Option.some.inj hfirst
    have hget (n : Nat) : (u :: p ++ path)[n + (p.length + 1)]? = path[n]? := by
      rw [List.getElem?_append_right (by simp)]
      congr 1
      simp
    have hlen : 0 < path.length := by
      obtain ⟨w, -, hw⟩ := hn
      exact (List.getElem?_eq_some_iff.mp hw).1
    -- the stops of the path, behind the new leg
    have hlast' : ((0 :: stops).map (· + (p.length + 1))).getLast? =
        some ((u :: p ++ path).length - 1) := by
      rw [List.getLast?_map, hlast, Option.map_some, Option.some.injEq]
      simp only [List.cons_append, List.length_cons, List.length_append]
      omega
    have hchain' : ((0 :: stops).map (· + (p.length + 1))).IsChain (· < ·) :=
      List.isChain_map_of_isChain (· + (p.length + 1))
        (fun _ _ hlt => Nat.add_lt_add_right hlt _) hchain
    refine ⟨0 :: (0 :: stops).map (· + (p.length + 1)), rfl, ?_, ?_, ?_⟩
    · exact (List.getLast?_cons_cons).trans hlast'
    · exact List.isChain_cons_cons.mpr ⟨by simp, hchain'⟩
    · refine .cons ⟨u, hu, rfl⟩ (.cons ?_ ?_)
      · obtain ⟨w, hw, hpath⟩ := hn
        exact ⟨w, hT w hw, (hget 0).trans hpath⟩
      · refine List.forall₂_map_left_iff.mpr (hstops.imp fun n W ⟨w, hw, hpath⟩ => ?_)
        exact ⟨w, hw, (hget n).trans hpath⟩

/-- Tracing back from a last reached waypoint succeeds. -/
theorem tracePath_searchLegs {g : γ} (h : Lawful g) {Ts : List (OrdSet Idx)}
    (hS : ∀ s ∈ S, s < nodes g) (hTs : ∀ T ∈ Ts, ∀ t ∈ T, t < nodes g) {t : Idx}
    (ht : t ∈ (searchLegs g S Ts).2) :
    ∃ path s, tracePath (searchLegs g S Ts).1.reverse t = .ok (path ++ [s]) ∧
      IsTracedPath (Edge g) S Ts.length t path s ∧ StopsAt (S :: Ts) (path ++ [s]).reverse := by
  induction Ts generalizing S with
  | nil => exact ⟨[], t, rfl, ⟨ht, rfl, by simp, le_rfl⟩, stopsAt_singleton ht⟩
  | cons T Ts ih =>
    obtain ⟨hT, hTs⟩ := List.forall_mem_cons.mp hTs
    have hT' : ∀ v ∈ T.filter (searchLeg g S).visited, v < nodes g :=
      fun v hv => hT v (OrdSet.mem_filter.mp hv).1
    simp only [searchLegs] at ht ⊢
    obtain ⟨q, s, hq, hpath, hstops⟩ := ih hT' hTs ht
    obtain ⟨p, u, hp, hleg⟩ :=
      traceLeg_spec (discovered_searchLeg h hS) (OrdSet.mem_filter.mp hpath.mem).2
    obtain ⟨p, rfl⟩ := List.head?_eq_some_iff.mp hleg.head
    refine ⟨q ++ s :: p, u, ?_, ⟨hleg.mem, ?_, ?_, ?_⟩, ?_⟩
    · rw [List.reverse_cons]
      exact tracePath_concat hq hp
    · have hhead := hpath.head
      cases q <;> simpa using hhead
    · have hchain := (List.isChain_append.mp hpath.chain).1
      rw [List.append_assoc]
      refine List.isChain_append.mpr ⟨hchain, hleg.chain, ?_⟩
      have hlink := (List.isChain_append.mp hpath.chain).2.2
      simpa using hlink
    · have hlong := hpath.long
      simp only [List.length_append, List.length_cons]
      omega
    · have hmore := hstops.leg (p := p.reverse) (fun t ht => (OrdSet.mem_filter.mp ht).1) hleg.mem
      simpa using hmore

end Trace

/-! ## The Waypoint Path Search -/

section FindPath

variable {g : γ} {ndebug : Bool} {S : OrdSet Idx} {Ts : List (OrdSet Idx)}

/-- A path of the graph from the first waypoint set to the last, of at least one
edge for each leg. -/
structure IsPath (g : γ) (waypointSets : List (OrdSet Idx)) (path : List Idx) : Prop where
  chain : path.IsChain (Edge g)
  long : waypointSets.length ≤ path.length
  first : ∃ s ∈ waypointSets.head!, path.head? = some s

theorem findStPathMulti_cons (hTs : Ts ≠ []) : findStPathMulti ndebug g (S :: Ts) =
    match (searchLegs g S Ts).2.toList with
    | [] => .ok none
    | t :: _ => (tracePath (searchLegs g S Ts).1.reverse t).bind fun path =>
      .ok (some path.reverse) := by
  have hlen : 2 ≤ (S :: Ts).length := by
    have := List.length_pos_iff.mpr hTs
    simp only [List.length_cons]
    omega
  simp only [findStPathMulti, assert_of hlen, bind, Except.bind, List.head!_cons, List.tail_cons]
  rfl

/-- The search finds nothing exactly when there is no waypoint walk; it always
returns, and what it finds is a path. -/
theorem findStPathMulti_spec (h : Lawful g) (hTs : Ts ≠ [])
    (hW : ∀ W ∈ S :: Ts, ∀ w ∈ W, w < nodes g) :
    findStPathMulti ndebug g (S :: Ts) = .ok none ∧ ¬ Walk.HasWalk (Edge g) (S :: Ts) ∨
    ∃ path, findStPathMulti ndebug g (S :: Ts) = .ok (some path) ∧
      Walk.HasWalk (Edge g) (S :: Ts) ∧ IsPath g (S :: Ts) path := by
  obtain ⟨hS, hW⟩ := List.forall_mem_cons.mp hW
  rw [findStPathMulti_cons hTs, ← searchLegs_nonempty_iff h hS hW]
  cases hlast : (searchLegs g S Ts).2.toList with
  | nil =>
    left
    refine ⟨rfl, fun ⟨v, hv⟩ => ?_⟩
    rw [← OrdSet.mem_toList, hlast] at hv
    exact List.not_mem_nil hv
  | cons t rest =>
    right
    have ht : t ∈ (searchLegs g S Ts).2 := by
      rw [← OrdSet.mem_toList, hlast]
      exact .head _
    obtain ⟨q, s, hq, hpath, -⟩ := tracePath_searchLegs h hS hW ht
    refine ⟨(q ++ [s]).reverse, by simp [hq, Except.bind], ⟨t, ht⟩, ?_⟩
    refine ⟨List.isChain_reverse.mpr hpath.chain, ?_, s, hpath.mem, by simp⟩
    have := hpath.long
    simp only [List.length_reverse, List.length_append, List.length_cons, List.length_nil]
    omega

/-- With two disjoint waypoint sets the path passes no node twice. -/
theorem findStPathMulti_pair {T : OrdSet Idx} (h : Lawful g) (hS : ∀ s ∈ S, s < nodes g)
    (hST : ∀ t ∈ T, t ∉ S) {path : List Idx}
    (hfind : findStPathMulti ndebug g [S, T] = .ok (some path)) :
    path.Nodup ∧ ∃ t ∈ T, path.getLast? = some t := by
  rw [findStPathMulti_cons (by simp)] at hfind
  split at hfind
  · simp at hfind
  · rename_i t rest hlast
    have ht : t ∈ T.filter (searchLeg g S).visited := by
      have : t ∈ (searchLegs g S [T]).2 := by
        rw [← OrdSet.mem_toList, hlast]
        exact .head _
      simpa [searchLegs] using this
    obtain ⟨htT, hvisited⟩ := OrdSet.mem_filter.mp ht
    obtain ⟨p, u, hp, hleg⟩ := traceLeg_spec (discovered_searchLeg h hS) hvisited
    obtain rfl : (p ++ [u]).reverse = path := by
      simpa [searchLegs, tracePath, hp, bind, Except.bind, pure, Except.pure] using hfind
    obtain ⟨p, rfl⟩ := List.head?_eq_some_iff.mp hleg.head
    refine ⟨?_, t, htT, by rw [List.getLast?_reverse]; rfl⟩
    have hu : u ∉ t :: p := by
      rintro (_ | ⟨_, hu⟩)
      · exact hST _ htT hleg.mem
      · exact hleg.tail u hu hleg.mem
    rw [List.nodup_reverse, List.nodup_append]
    refine ⟨hleg.nodup, List.nodup_singleton u, fun x hx y hy => ?_⟩
    rintro rfl
    exact hu (List.mem_singleton.mp hy ▸ hx)

end FindPath

end Clou
