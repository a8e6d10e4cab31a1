-- SUMMARY: Stack searches over a successor function, with the discovery log of the nodes they mark, and what they reach.
import Mathlib.Data.Finset.Card
import Mathlib.Data.Finset.Union
import Mathlib.Data.List.Nodup
import Mathlib.Logic.Relation
import Mathlib.Algebra.BigOperators.Group.Finset.Basic
import Mathlib.Algebra.GroupWithZero.Nat
import Mathlib.Algebra.Order.BigOperators.Group.Finset

/-!
# Stack Searches

`run` pops a node, and marks and pushes its unmarked successors; the nodes it
starts from are pushed without a mark, so a node it starts from is marked only
when a step leads back to it. `sweep` marks a node when it is popped, so it
marks the nodes it starts from as well.

Both loops are given fuel. On a finite universe that is closed under successors
there is a bound on the fuel from which on the stack is empty at the end, and
under this bound the results are stated as reachability.
-/

open Relation

namespace Search

variable {α : Type*} [DecidableEq α]

/-! ## The Discovery Log -/

/-- The marked nodes, the latest first, each with the node it was marked from. -/
abbrev Log (α : Type*) := List (α × α)

namespace Log

def visited (log : Log α) (v : α) : Bool := log.any fun e => decide (e.1 = v)

/-- The node that `v` was marked from. -/
def parent (log : Log α) (v : α) : Option α := (log.find? (·.1 = v)).map Prod.snd

theorem visited_iff {log : Log α} {v : α} : log.visited v = true ↔ ∃ u, (v, u) ∈ log := by
  simp [visited]

@[simp] theorem visited_nil (v : α) : visited ([] : Log α) v = false := rfl

@[simp] theorem visited_cons {v w u : α} {log : Log α} :
    visited ((w, u) :: log) v = true ↔ w = v ∨ log.visited v = true := by
  simp [visited]

/-- Every mark leads, along `E`, out of a start node or out of an earlier mark. -/
inductive Discovered (E : α → α → Prop) (S : α → Prop) : Log α → Prop where
  | nil : Discovered E S []
  | cons {v u : α} {log : Log α} :
      Discovered E S log → E u v → (S u ∨ log.visited u = true) → log.visited v = false →
      Discovered E S ((v, u) :: log)

theorem Discovered.reaches {E : α → α → Prop} {S : α → Prop} {log : Log α}
    (h : Discovered E S log) {v : α} (hv : log.visited v = true) : ∃ s, S s ∧ TransGen E s v := by
  induction h generalizing v with
  | nil => simp at hv
  | @cons w u log _ hstep hsrc _ ih =>
    rcases visited_cons.mp hv with rfl | hv
    · rcases hsrc with hs | hvis
      · exact ⟨u, hs, .single hstep⟩
      · obtain ⟨s, hs, hsu⟩ := ih hvis
        exact ⟨s, hs, hsu.tail hstep⟩
    · exact ih hv

/-- Marks stay in a universe that the successors of start nodes and of its own nodes
are in. -/
theorem Discovered.mem_universe {E : α → α → Prop} {S : α → Prop} {U : Finset α} {log : Log α}
    (h : Discovered E S log) (hU : ∀ u, S u ∨ u ∈ U → ∀ v, E u v → v ∈ U) {v : α}
    (hv : log.visited v = true) : v ∈ U := by
  induction h generalizing v with
  | nil => simp at hv
  | @cons w u log _ hstep hsrc _ ih =>
    rcases visited_cons.mp hv with rfl | hv
    · exact hU u (hsrc.imp_right ih) w hstep
    · exact ih hv

end Log

open Log

/-! ## Marking on Discovery -/

/-- Go through the successors of `u`: stop at one that satisfies `stop`, pass
over the ones that satisfy `skip`, and mark and push the unmarked ones. -/
def scan (stop skip : α → Bool) (u : α) :
    List α → List α → Log α → Option (List α × Log α)
  | [], todo, log => some (todo, log)
  | v :: vs, todo, log =>
    if stop v then none
    else if skip v then scan stop skip u vs todo log
    else if log.visited v then scan stop skip u vs todo log
    else scan stop skip u vs (v :: todo) ((v, u) :: log)

/-- Pop nodes off the stack and scan their successors; `none` when a scan stopped. -/
def run (stop skip : α → Bool) (succ : α → List α) : Nat → List α → Log α → Option (Log α)
  | 0, _, log => some log
  | _ + 1, [], log => some log
  | fuel + 1, u :: todo, log =>
    match scan stop skip u (succ u) todo log with
    | none => none
    | some (todo', log') => run stop skip succ fuel todo' log'

/-- The steps a search takes: to a successor that is not skipped. -/
def Step (skip : α → Bool) (succ : α → List α) (u v : α) : Prop :=
  v ∈ succ u ∧ skip v = false

section Run

variable {stop skip : α → Bool} {succ : α → List α} {S : α → Prop} {U : Finset α}

/-- The successors of `u` are dealt with: none stops the search, and the ones
that are not skipped are marked. -/
def Expanded (stop skip : α → Bool) (succ : α → List α) (log : Log α) (u : α) : Prop :=
  ∀ v ∈ succ u, stop v = false ∧ (skip v = false → log.visited v = true)

/-- What holds between two pops: the log is a discovery log, the stack holds
start nodes and marked nodes, and all of these off the stack are expanded. -/
structure Inv (stop skip : α → Bool) (succ : α → List α) (S : α → Prop)
    (todo : List α) (log : Log α) : Prop where
  disc : Discovered (Step skip succ) S log
  todo_known : ∀ u ∈ todo, S u ∨ log.visited u = true
  expanded : ∀ u, (S u ∨ log.visited u = true) → u ∈ todo ∨ Expanded stop skip succ log u

/-- A scan pushes and marks the same nodes, each once and each a successor. -/
theorem scan_some {u : α} {vs todo todo' : List α} {log log' : Log α}
    (h : scan stop skip u vs todo log = some (todo', log')) :
    ∃ new : List α, todo' = new ++ todo ∧ log' = new.map (·, u) ++ log ∧ new.Nodup ∧
      (∀ v ∈ new, v ∈ vs ∧ skip v = false ∧ log.visited v = false) ∧
      ∀ v ∈ vs, stop v = false ∧ (skip v = false → log'.visited v = true) := by
  induction vs generalizing todo log with
  | nil =>
    simp only [scan, Option.some.injEq, Prod.mk.injEq] at h
    obtain ⟨rfl, rfl⟩ := h
    exact ⟨[], by simp⟩
  | cons v vs ih =>
    simp only [scan] at h
    split_ifs at h with hstop hskip hvis
    · obtain ⟨new, rfl, rfl, hnodup, hnew, hall⟩ := ih h
      refine ⟨new, rfl, rfl, hnodup, fun w hw => ?_, ?_⟩
      · exact ⟨.tail _ (hnew w hw).1, (hnew w hw).2⟩
      · exact List.forall_mem_cons.mpr ⟨⟨by simpa using hstop, by simp [hskip]⟩, hall⟩
    · obtain ⟨new, rfl, rfl, hnodup, hnew, hall⟩ := ih h
      refine ⟨new, rfl, rfl, hnodup, fun w hw => ?_, ?_⟩
      · exact ⟨.tail _ (hnew w hw).1, (hnew w hw).2⟩
      · refine List.forall_mem_cons.mpr ⟨⟨by simpa using hstop, fun _ => ?_⟩, hall⟩
        obtain ⟨x, hx⟩ := visited_iff.mp hvis
        exact visited_iff.mpr ⟨x, List.mem_append_right _ hx⟩
    · obtain ⟨new, rfl, rfl, hnodup, hnew, hall⟩ := ih h
      refine ⟨new ++ [v], by simp, by simp, ?_, fun w hw => ?_, ?_⟩
      · refine List.nodup_append.mpr ⟨hnodup, List.nodup_singleton v, ?_⟩
        rintro a ha b hb rfl
        obtain rfl := List.mem_singleton.mp hb
        exact Bool.eq_false_iff.mp (hnew a ha).2.2 (visited_cons.mpr (.inl rfl))
      · rcases List.mem_append.mp hw with hw | hw
        · obtain ⟨hmem, hsk, hvw⟩ := hnew w hw
          refine ⟨.tail _ hmem, hsk, ?_⟩
          rw [← Bool.not_eq_true] at hvw ⊢
          exact fun hc => hvw (visited_cons.mpr (.inr hc))
        · obtain rfl := List.mem_singleton.mp hw
          exact ⟨.head _, by simpa using hskip, by simpa using hvis⟩
      · refine List.forall_mem_cons.mpr ⟨⟨by simpa using hstop, fun _ => ?_⟩, hall⟩
        exact visited_iff.mpr ⟨u, List.mem_append_right _ (.head _)⟩

theorem scan_none {u : α} {vs todo : List α} {log : Log α}
    (h : scan stop skip u vs todo log = none) : ∃ v ∈ vs, stop v = true := by
  induction vs generalizing todo log with
  | nil => simp [scan] at h
  | cons v vs ih =>
    simp only [scan] at h
    split_ifs at h with hstop hskip hvis
    · exact ⟨v, .head _, hstop⟩
    all_goals
      obtain ⟨w, hw, hs⟩ := ih h
      exact ⟨w, .tail _ hw, hs⟩

/-- Marking a run of new nodes from one known node keeps the log a discovery log. -/
theorem Discovered.append {E : α → α → Prop} {u : α} {log : Log α} (h : Discovered E S log)
    (hu : S u ∨ log.visited u = true) {new : List α} (hnodup : new.Nodup)
    (hnew : ∀ v ∈ new, E u v ∧ log.visited v = false) :
    Discovered E S (new.map (·, u) ++ log) := by
  induction new with
  | nil => exact h
  | cons v new ih =>
    obtain ⟨hv, hnodup⟩ := List.nodup_cons.mp hnodup
    obtain ⟨⟨hE, hfresh⟩, hnew⟩ := List.forall_mem_cons.mp hnew
    refine .cons (ih hnodup hnew) hE (hu.imp_right fun hvis => ?_) ?_
    · obtain ⟨x, hx⟩ := visited_iff.mp hvis
      exact visited_iff.mpr ⟨x, List.mem_append_right _ hx⟩
    · rw [← Bool.not_eq_true] at hfresh ⊢
      rintro hc
      obtain ⟨x, hx⟩ := visited_iff.mp hc
      rcases List.mem_append.mp hx with hx | hx
      · simp only [List.mem_map, Prod.mk.injEq] at hx
        obtain ⟨w, hw, rfl, -⟩ := hx
        exact hv hw
      · exact hfresh (visited_iff.mpr ⟨x, hx⟩)

/-- One pop keeps the invariant. -/
theorem Inv.pop {u : α} {todo todo' : List α} {log log' : Log α}
    (h : Inv stop skip succ S (u :: todo) log)
    (hscan : scan stop skip u (succ u) todo log = some (todo', log')) :
    Inv stop skip succ S todo' log' := by
  obtain ⟨new, rfl, rfl, hnodup, hnew, hall⟩ := scan_some hscan
  have hold {v : α} (hv : log.visited v = true) :
      Log.visited (new.map (·, u) ++ log) v = true := by
    obtain ⟨x, hx⟩ := visited_iff.mp hv
    exact visited_iff.mpr ⟨x, List.mem_append_right _ hx⟩
  have hmark {v : α} (hv : v ∈ new) : Log.visited (new.map (·, u) ++ log) v = true :=
    visited_iff.mpr ⟨u, List.mem_append_left _ (List.mem_map.mpr ⟨v, hv, rfl⟩)⟩
  refine ⟨?_, ?_, ?_⟩
  · refine Discovered.append h.disc (h.todo_known u (.head _)) hnodup fun v hv => ?_
    exact ⟨⟨(hnew v hv).1, (hnew v hv).2.1⟩, (hnew v hv).2.2⟩
  · intro v hv
    rcases List.mem_append.mp hv with hv | hv
    · exact .inr (hmark hv)
    · exact (h.todo_known v (.tail _ hv)).imp_right hold
  · intro v hv
    by_cases hvnew : v ∈ new
    · exact .inl (List.mem_append_left _ hvnew)
    have hv' : S v ∨ log.visited v = true := by
      refine hv.imp_right fun hvis => ?_
      obtain ⟨x, hx⟩ := visited_iff.mp hvis
      rcases List.mem_append.mp hx with hx | hx
      · simp only [List.mem_map, Prod.mk.injEq] at hx
        obtain ⟨w, hw, rfl, -⟩ := hx
        exact absurd hw hvnew
      · exact visited_iff.mpr ⟨x, hx⟩
    by_cases hvu : v = u
    · subst hvu
      exact .inr hall
    · rcases h.expanded v hv' with hmem | hexp
      · exact .inl (List.mem_append_right _ ((List.mem_cons.mp hmem).resolve_left hvu))
      · exact .inr fun w hw => ⟨(hexp w hw).1, fun hs => hold ((hexp w hw).2 hs)⟩

/-! ### Fuel -/

/-- The nodes of the universe without a mark. -/
def unvisited (U : Finset α) (log : Log α) : Finset α := U.filter fun v => log.visited v = false

/-- A pop takes one off the stack plus the unmarked nodes: what it pushes, it marks. -/
theorem measure_pop {u : α} {todo todo' : List α} {log log' : Log α}
    (hU : ∀ v ∈ succ u, v ∈ U)
    (hscan : scan stop skip u (succ u) todo log = some (todo', log')) :
    todo'.length + (unvisited U log').card ≤ todo.length + (unvisited U log).card := by
  obtain ⟨new, rfl, rfl, hnodup, hnew, -⟩ := scan_some hscan
  have hsub : new.toFinset ⊆ unvisited U log := by
    intro v hv
    obtain ⟨hmem, -, hvis⟩ := hnew v (List.mem_toFinset.mp hv)
    exact Finset.mem_filter.mpr ⟨hU v hmem, hvis⟩
  have hdrop : unvisited U (new.map (·, u) ++ log) ⊆ unvisited U log \ new.toFinset := by
    intro v hv
    obtain ⟨hvU, hvis⟩ := Finset.mem_filter.mp hv
    rw [← Bool.not_eq_true, visited_iff] at hvis
    refine Finset.mem_sdiff.mpr ⟨Finset.mem_filter.mpr ⟨hvU, ?_⟩, fun hnew => hvis ?_⟩
    · rw [← Bool.not_eq_true, visited_iff]
      rintro ⟨x, hx⟩
      exact hvis ⟨x, List.mem_append_right _ hx⟩
    · refine ⟨u, List.mem_append_left _ (List.mem_map.mpr ⟨v, List.mem_toFinset.mp hnew, rfl⟩)⟩
  have hcard := Finset.card_le_card hdrop
  have hle := Finset.card_le_card hsub
  rw [Finset.card_sdiff_of_subset hsub, List.toFinset_card_of_nodup hnodup] at hcard
  rw [List.toFinset_card_of_nodup hnodup] at hle
  simp only [List.length_append]
  omega

/-- With enough fuel the invariant holds at the end, with an empty stack. -/
theorem run_some {fuel : Nat} {todo : List α} {log log' : Log α}
    (hU : ∀ u, S u ∨ u ∈ U → ∀ v ∈ succ u, v ∈ U) (hfuel : todo.length + (unvisited U log).card ≤ fuel)
    (hinv : Inv stop skip succ S todo log) (h : run stop skip succ fuel todo log = some log') :
    Inv stop skip succ S [] log' := by
  induction fuel generalizing todo log with
  | zero =>
    obtain rfl : todo = [] := List.eq_nil_of_length_eq_zero (by omega)
    obtain rfl : log = log' := by simpa [run] using h
    exact hinv
  | succ fuel ih =>
    cases todo with
    | nil =>
      obtain rfl : log = log' := by simpa [run] using h
      exact hinv
    | cons u todo =>
      simp only [run] at h
      split at h
      · simp at h
      · rename_i todo' log₁ hscan
        have hu : S u ∨ u ∈ U := (hinv.todo_known u (.head _)).imp_right
          (hinv.disc.mem_universe fun w hw v hstep => hU w hw v hstep.1)
        have hmeasure := measure_pop (U := U) (hU u hu) hscan
        refine ih ?_ (hinv.pop hscan) h
        simp only [List.length_cons] at hfuel
        omega

theorem run_none {fuel : Nat} {todo : List α} {log : Log α}
    (hinv : Inv stop skip succ S todo log) (h : run stop skip succ fuel todo log = none) :
    ∃ s u, S s ∧ ReflTransGen (Step skip succ) s u ∧ ∃ v ∈ succ u, stop v = true := by
  induction fuel generalizing todo log with
  | zero => simp [run] at h
  | succ fuel ih =>
    cases todo with
    | nil => simp [run] at h
    | cons u todo =>
      simp only [run] at h
      split at h
      · rename_i hscan
        have hstop := scan_none hscan
        rcases hinv.todo_known u (.head _) with hu | hu
        · exact ⟨u, u, hu, .refl, hstop⟩
        · obtain ⟨s, hs, hsu⟩ := hinv.disc.reaches hu
          exact ⟨s, u, hs, hsu.to_reflTransGen, hstop⟩
      · rename_i hscan
        exact ih (hinv.pop hscan) h

theorem Inv.init (S : List α) : Inv stop skip succ (· ∈ S) S [] :=
  ⟨.nil, fun _ h => .inl h, fun u h => .inl (by simpa using h)⟩

/-- A search that ended with an empty stack has marked what it can reach. -/
theorem Inv.visited_iff {log : Log α} (h : Inv stop skip succ S [] log) {v : α} :
    log.visited v = true ↔ ∃ s, S s ∧ TransGen (Step skip succ) s v := by
  refine ⟨h.disc.reaches, ?_⟩
  rintro ⟨s, hs, hsv⟩
  have hexp {u : α} (hu : S u ∨ log.visited u = true) : Expanded stop skip succ log u :=
    (h.expanded u hu).resolve_left List.not_mem_nil
  induction hsv with
  | single hstep => exact (hexp (.inl hs) _ hstep.1).2 hstep.2
  | tail _ hstep ih => exact (hexp (.inr ih) _ hstep.1).2 hstep.2

end Run

/-! ### The Two Uses of `run` -/

/-- The log of a search that does not stop early. -/
def explore (skip : α → Bool) (succ : α → List α) (fuel : Nat) (S : List α) : Log α :=
  (run (fun _ => false) skip succ fuel S []).getD []

/-- Whether a search stops, at a successor that satisfies `stop`. -/
def hits (stop skip : α → Bool) (succ : α → List α) (fuel : Nat) (S : List α) : Bool :=
  (run stop skip succ fuel S []).isNone

section Spec

variable {stop skip : α → Bool} {succ : α → List α} {S : List α} {U : Finset α} {fuel : Nat}

theorem explore_inv (hU : ∀ u, u ∈ S ∨ u ∈ U → ∀ v ∈ succ u, v ∈ U)
    (hfuel : S.length + U.card ≤ fuel) :
    Inv (fun _ => false) skip succ (· ∈ S) [] (explore skip succ fuel S) := by
  cases h : run (fun _ => false) skip succ fuel S [] with
  | none =>
    obtain ⟨_, _, _, _, _, _, hstop⟩ := run_none (Inv.init S) h
    simp at hstop
  | some log =>
    have hle : (unvisited U ([] : Log α)).card ≤ U.card := Finset.card_filter_le _ _
    simpa [explore, h] using run_some hU (by omega) (Inv.init S) h

/-- The marked nodes are the ones reached by at least one step. -/
theorem visited_explore (hU : ∀ u, u ∈ S ∨ u ∈ U → ∀ v ∈ succ u, v ∈ U)
    (hfuel : S.length + U.card ≤ fuel) {v : α} : (explore skip succ fuel S).visited v = true ↔
      ∃ s ∈ S, TransGen (Step skip succ) s v :=
  (explore_inv hU hfuel).visited_iff

theorem hits_iff (hU : ∀ u, u ∈ S ∨ u ∈ U → ∀ v ∈ succ u, v ∈ U)
    (hfuel : S.length + U.card ≤ fuel) :
    hits stop skip succ fuel S = true ↔
      ∃ s ∈ S, ∃ u, ReflTransGen (Step skip succ) s u ∧ ∃ v ∈ succ u, stop v = true := by
  cases h : run stop skip succ fuel S [] with
  | none =>
    obtain ⟨s, u, hs, hsu, hstop⟩ := run_none (Inv.init S) h
    simpa [hits, h] using ⟨s, hs, u, hsu, hstop⟩
  | some log =>
    have hle : (unvisited U ([] : Log α)).card ≤ U.card := Finset.card_filter_le _ _
    have hinv := run_some hU (by omega) (Inv.init S) h
    have hno : ¬ ∃ s ∈ S, ∃ u, ReflTransGen (Step skip succ) s u ∧
        ∃ v ∈ succ u, stop v = true := by
      rintro ⟨s, hs, u, hsu, v, hv, hstop⟩
      have hu : u ∈ S ∨ log.visited u = true := by
        rcases reflTransGen_iff_eq_or_transGen.mp hsu with rfl | hsu
        · exact .inl hs
        · exact .inr (hinv.visited_iff.mpr ⟨s, hs, hsu⟩)
      have hexp := (hinv.expanded u hu).resolve_left List.not_mem_nil
      simp [(hexp v hv).1] at hstop
    simpa [hits, h] using hno

end Spec

/-! ## Marking on the Pop -/

/-- Pop nodes off the stack; mark an unmarked one and push its successors. -/
def sweep (succ : α → List α) : Nat → List α → List α → List α
  | 0, _, seen => seen
  | _ + 1, [], seen => seen
  | fuel + 1, u :: todo, seen =>
    if u ∈ seen then sweep succ fuel todo seen
    else sweep succ fuel ((succ u).reverse ++ todo) (u :: seen)

section Sweep

variable {succ : α → List α} {S : List α} {U : Finset α} {fuel : Nat}

/-- What holds between two pops: marks and stack are reached from `S`, and a
start node or a successor of a mark is on the stack unless it is marked. -/
structure SweepInv (succ : α → List α) (S todo seen : List α) : Prop where
  reached : ∀ v, v ∈ todo ∨ v ∈ seen → ∃ s ∈ S, ReflTransGen (fun u v => v ∈ succ u) s v
  start : ∀ s ∈ S, s ∈ todo ∨ s ∈ seen
  closed : ∀ u ∈ seen, ∀ v ∈ succ u, v ∈ todo ∨ v ∈ seen

/-- The work left: the stack, and the successors of the unmarked nodes. -/
def sweepMeasure (succ : α → List α) (U : Finset α) (todo seen : List α) : Nat :=
  todo.length + ∑ u ∈ U.filter (· ∉ seen), (succ u).length

omit [DecidableEq α] in
theorem SweepInv.pop {u : α} {todo seen : List α} (h : SweepInv succ S (u :: todo) seen)
    (hu : u ∉ seen) : SweepInv succ S ((succ u).reverse ++ todo) (u :: seen) := by
  refine ⟨fun v hv => ?_, fun s hs => ?_, fun w hw v hv => ?_⟩
  · simp only [List.mem_append, List.mem_reverse, List.mem_cons] at hv
    rcases hv with (hv | hv) | rfl | hv
    · obtain ⟨s, hs, hsu⟩ := h.reached u (.inl (.head _))
      exact ⟨s, hs, hsu.tail hv⟩
    · exact h.reached v (.inl (.tail _ hv))
    · exact h.reached v (.inl (.head _))
    · exact h.reached v (.inr hv)
  · have := h.start s hs
    simp only [List.mem_append, List.mem_cons] at this ⊢
    tauto
  · rcases List.mem_cons.mp hw with rfl | hw
    · exact .inl (List.mem_append_left _ (List.mem_reverse.mpr hv))
    · have := h.closed w hw v hv
      simp only [List.mem_append, List.mem_cons] at this ⊢
      tauto

omit [DecidableEq α] in
theorem SweepInv.drop {u : α} {todo seen : List α} (h : SweepInv succ S (u :: todo) seen)
    (hu : u ∈ seen) : SweepInv succ S todo seen := by
  refine ⟨fun v hv => h.reached v (hv.imp_left (.tail _)), fun s hs => ?_, fun w hw v hv => ?_⟩
  · rcases h.start s hs with hs | hs
    · rcases List.mem_cons.mp hs with rfl | hs
      · exact .inr hu
      · exact .inl hs
    · exact .inr hs
  · rcases h.closed w hw v hv with hv | hv
    · rcases List.mem_cons.mp hv with rfl | hv
      · exact .inr hu
      · exact .inl hv
    · exact .inr hv

theorem sweepMeasure_pop {u : α} {todo seen : List α} (hU : u ∈ U) (hu : u ∉ seen) :
    sweepMeasure succ U ((succ u).reverse ++ todo) (u :: seen) + 1 =
      sweepMeasure succ U (u :: todo) seen := by
  have hfilter : U.filter (· ∉ seen) = insert u (U.filter (· ∉ u :: seen)) := by
    ext v
    by_cases hv : v = u <;> simp [hv, hU, hu]
  have hnot : u ∉ U.filter (· ∉ u :: seen) := by simp
  simp only [sweepMeasure, hfilter, Finset.sum_insert hnot, List.length_append,
    List.length_reverse, List.length_cons]
  omega

theorem sweep_inv {todo seen : List α} (hU : ∀ u ∈ U, ∀ v ∈ succ u, v ∈ U)
    (htodo : ∀ u ∈ todo, u ∈ U) (hfuel : sweepMeasure succ U todo seen ≤ fuel)
    (h : SweepInv succ S todo seen) : SweepInv succ S [] (sweep succ fuel todo seen) := by
  induction fuel generalizing todo seen with
  | zero =>
    obtain rfl : todo = [] := List.eq_nil_of_length_eq_zero (by
      simp only [sweepMeasure] at hfuel
      omega)
    simpa [sweep] using h
  | succ fuel ih =>
    cases todo with
    | nil => simpa [sweep] using h
    | cons u todo =>
      obtain ⟨huU, htodo⟩ := List.forall_mem_cons.mp htodo
      simp only [sweep]
      split_ifs with hu
      · refine ih htodo ?_ (h.drop hu)
        simp only [sweepMeasure, List.length_cons] at hfuel ⊢
        omega
      · refine ih (fun v hv => ?_) ?_ (h.pop hu)
        · rcases List.mem_append.mp hv with hv | hv
          · exact hU u huU v (List.mem_reverse.mp hv)
          · exact htodo v hv
        · have hpop : sweepMeasure succ U ((succ u).reverse ++ todo) (u :: seen) + 1 = _ :=
            sweepMeasure_pop huU hu
          omega

/-- A sweep marks what its start nodes reach, themselves included. -/
theorem mem_sweep (hU : ∀ u ∈ U, ∀ v ∈ succ u, v ∈ U) (hS : ∀ s ∈ S, s ∈ U)
    (hfuel : S.length + ∑ u ∈ U, (succ u).length ≤ fuel) {v : α} :
    v ∈ sweep succ fuel S [] ↔ ∃ s ∈ S, ReflTransGen (fun u v => v ∈ succ u) s v := by
  have hinit : SweepInv succ S S [] :=
    ⟨fun v hv => ⟨v, by simpa using hv, .refl⟩, fun s hs => .inl hs, by simp⟩
  have hend := sweep_inv hU hS (by simpa [sweepMeasure] using hfuel) hinit
  refine ⟨fun hv => hend.reached v (.inr hv), ?_⟩
  rintro ⟨s, hs, hsv⟩
  induction hsv with
  | refl => exact (hend.start s hs).resolve_left List.not_mem_nil
  | tail _ hstep ih => exact (hend.closed _ ih _ hstep).resolve_left List.not_mem_nil

end Sweep

/-! ## Searches on a Closed Set -/

section Congr

variable {stop skip : α → Bool} {succ succ' : α → List α} {P : α → Prop}

/-- A search that stays in `P` only asks for the successors of the nodes of `P`. -/
theorem run_congr (hsucc : ∀ u, P u → succ u = succ' u) (hP : ∀ u, P u → ∀ v ∈ succ u, P v)
    {fuel : Nat} {todo : List α} {log : Log α} (htodo : ∀ u ∈ todo, P u) :
    run stop skip succ fuel todo log = run stop skip succ' fuel todo log := by
  induction fuel generalizing todo log with
  | zero => rfl
  | succ fuel ih =>
    cases todo with
    | nil => rfl
    | cons u todo =>
      obtain ⟨hu, htodo⟩ := List.forall_mem_cons.mp htodo
      simp only [run, ← hsucc u hu]
      cases hscan : scan stop skip u (succ u) todo log with
      | none => rfl
      | some r =>
        obtain ⟨todo', log'⟩ := r
        obtain ⟨new, rfl, -, -, hmem, -⟩ := scan_some hscan
        refine ih fun v hv => ?_
        rcases List.mem_append.mp hv with hv | hv
        · exact hP u hu v (hmem v hv).1
        · exact htodo v hv

theorem explore_congr (hsucc : ∀ u, P u → succ u = succ' u) (hP : ∀ u, P u → ∀ v ∈ succ u, P v)
    {fuel : Nat} {S : List α} (hS : ∀ s ∈ S, P s) :
    explore skip succ fuel S = explore skip succ' fuel S := by
  rw [explore, explore, run_congr hsucc hP hS]

theorem sweep_congr (hsucc : ∀ u, P u → succ u = succ' u) (hP : ∀ u, P u → ∀ v ∈ succ u, P v)
    {fuel : Nat} {todo seen : List α} (htodo : ∀ u ∈ todo, P u) :
    sweep succ fuel todo seen = sweep succ' fuel todo seen := by
  induction fuel generalizing todo seen with
  | zero => rfl
  | succ fuel ih =>
    cases todo with
    | nil => rfl
    | cons u todo =>
      obtain ⟨hu, htodo⟩ := List.forall_mem_cons.mp htodo
      simp only [sweep, ← hsucc u hu]
      split_ifs
      · exact ih htodo
      · refine ih fun v hv => ?_
        rcases List.mem_append.mp hv with hv | hv
        · exact hP u hu v (List.mem_reverse.mp hv)
        · exact htodo v hv

end Congr

/-! ## Sweeps That Stop -/

section SweepFor

variable {α β : Type*} [DecidableEq α]

/-- What a sweep does at a node: it stops with an answer, it goes no further from here, or it
goes on. -/
inductive Visit (β : Type*) where
  | stop (b : β)
  | cut
  | go

/-- A sweep that asks `visit` at each node that it marks. The outer `none` says that the fuel
is used up, the inner one that no node has stopped the sweep. -/
def sweepFor (visit : α → Visit β) (succ : α → List α) :
    Nat → List α → List α → Option (Option β)
  | 0, _, _ => none
  | _ + 1, [], _ => some none
  | fuel + 1, u :: todo, seen =>
    if u ∈ seen then sweepFor visit succ fuel todo seen
    else
      match visit u with
      | .stop b => some (some b)
      | .cut => sweepFor visit succ fuel todo (u :: seen)
      | .go => sweepFor visit succ fuel ((succ u).reverse ++ todo) (u :: seen)

variable {visit : α → Visit β} {succ : α → List α} {U : Finset α} {fuel : Nat}

/-- With enough fuel a sweep comes to an end, and what stops it is the answer at a node of the
universe. -/
theorem sweepFor_spec {todo seen : List α} (hU : ∀ u ∈ U, ∀ v ∈ succ u, v ∈ U)
    (htodo : ∀ u ∈ todo, u ∈ U) (hfuel : sweepMeasure succ U todo seen < fuel) :
    ∃ r, sweepFor visit succ fuel todo seen = some r ∧
      ∀ b, r = some b → ∃ u ∈ U, visit u = .stop b := by
  induction fuel generalizing todo seen with
  | zero => exact absurd hfuel (Nat.not_lt_zero _)
  | succ fuel ih =>
    cases todo with
    | nil => exact ⟨none, rfl, by simp⟩
    | cons u todo =>
      obtain ⟨huU, htodo⟩ := List.forall_mem_cons.mp htodo
      unfold sweepFor
      by_cases hu : u ∈ seen
      · rw [if_pos hu]
        refine ih htodo ?_
        simp only [sweepMeasure, List.length_cons] at hfuel ⊢
        omega
      · rw [if_neg hu]
        have hpop : sweepMeasure succ U ((succ u).reverse ++ todo) (u :: seen) + 1 =
            sweepMeasure succ U (u :: todo) seen := sweepMeasure_pop huU hu
        cases hvisit : visit u with
        | stop b =>
          refine ⟨some b, rfl, fun b' hb' => ⟨u, huU, ?_⟩⟩
          rw [hvisit, Option.some.inj hb']
        | cut =>
          refine ih htodo ?_
          simp only [sweepMeasure, List.length_append] at hfuel hpop ⊢
          omega
        | go =>
          refine ih (fun v hv => ?_) (by omega)
          rcases List.mem_append.mp hv with hv | hv
          · exact hU u huU v (List.mem_reverse.mp hv)
          · exact htodo v hv

/-- A sweep along nodes with one successor each is stopped by the first node that stops it. -/
theorem sweepFor_chain {b : β} {c : α} {mid seen : List α} (hnodup : (mid ++ [c]).Nodup)
    (hseen : ∀ u ∈ mid ++ [c], u ∉ seen) (hgo : ∀ u ∈ mid, visit u = .go)
    (hsucc : ∀ pre u v post, mid ++ [c] = pre ++ u :: v :: post → succ u = [v])
    (hstop : visit c = .stop b) (hfuel : mid.length < fuel) :
    sweepFor visit succ fuel (mid ++ [c]).head?.toList seen = some (some b) := by
  induction mid generalizing seen fuel with
  | nil =>
    obtain ⟨fuel, rfl⟩ := Nat.exists_eq_add_of_lt hfuel
    simp [sweepFor, hseen c (by simp), hstop]
  | cons u mid ih =>
    obtain ⟨fuel, rfl⟩ : ∃ n, fuel = n + 1 := ⟨fuel - 1, by omega⟩
    obtain ⟨hu, hnodup⟩ := List.nodup_cons.mp hnodup
    obtain ⟨huseen, hseen⟩ := List.forall_mem_cons.mp hseen
    obtain ⟨hugo, hgo⟩ := List.forall_mem_cons.mp hgo
    have hnext : succ u = (mid ++ [c]).head?.toList := by
      cases mid with
      | nil => exact hsucc [] u c [] rfl
      | cons v mid => exact hsucc [] u v (mid ++ [c]) rfl
    have hseen' : ∀ v ∈ mid ++ [c], v ∉ u :: seen := fun v hv hmem =>
      (List.mem_cons.mp hmem).elim (fun h => hu (h ▸ hv)) (hseen v hv)
    have hrest : sweepFor visit succ fuel (mid ++ [c]).head?.toList (u :: seen) = some (some b) :=
      ih hnodup hseen' hgo (fun pre v w post h => hsucc (u :: pre) v w post (congrArg (u :: ·) h))
        (Nat.lt_of_succ_lt_succ hfuel)
    simp only [List.cons_append, List.head?_cons, Option.toList_some, sweepFor, huseen, hugo,
      if_false, List.append_nil, hnext]
    convert hrest using 2
    cases (mid ++ [c]).head? <;> rfl

end SweepFor

end Search
