-- SUMMARY: The ST rewrites terminate and protect at least as much as before.
import Serberus.Lib.Walk
import Serberus.MinCutGreedy.OptimizeSts

/-!
# The Rewrites Protect

A rewrite may change what an ST list asks for, as long as it asks for no less: if
the walks through the rewritten STs are cut, so are the walks through the STs
before. `Refines` says this of a single rewrite, together with a size that no
rewrite raises and every reported change lowers. It composes, so the loop over all
rewrites terminates and protects.
-/

open Relation

namespace Clou

open Search

/-! ## What Rewrites Keep -/

/-- What the rewrites of a type are measured by. -/
structure Subject (α : Type) where
  ok : α → Prop
  walk : Set (Idx × Idx) → α → Prop
  nodes : α → Set Idx
  lengths : α → Set Nat
  size : α → Nat

/-- A rewrite of `a` with result `r`. -/
structure Refines {α : Type} (M : Subject α) (a : α) (r : α × Bool) : Prop where
  ok : M.ok a → M.ok r.1
  walk : ∀ C, M.walk C a → M.walk C r.1
  nodes : ∀ u ∈ M.nodes r.1, u ∈ M.nodes a
  length_le : ∀ n ∈ M.lengths r.1, ∃ m ∈ M.lengths a, n ≤ m
  size_le : M.size r.1 ≤ M.size a
  size_lt : r.2 = true → M.size r.1 < M.size a

namespace Refines

variable {α : Type} {M : Subject α} {a b : α} {c : Bool} {r : α × Bool}

theorem refl (a : α) : Refines M a (a, false) :=
  ⟨id, fun _ h => h, fun _ h => h, fun n hn => ⟨n, hn, le_rfl⟩, le_rfl, by simp⟩

theorem trans (h : Refines M a (b, c)) (h' : Refines M b r) : Refines M a (r.1, c || r.2) := by
  refine ⟨fun ha => h'.ok (h.ok ha), fun C ha => h'.walk C (h.walk C ha),
    fun u hu => h.nodes u (h'.nodes u hu), fun n hn => ?_, h'.size_le.trans h.size_le, fun hc => ?_⟩
  · obtain ⟨m, hm, hnm⟩ := h'.length_le n hn
    obtain ⟨l, hl, hml⟩ := h.length_le m hm
    exact ⟨l, hl, hnm.trans hml⟩
  rcases Bool.or_eq_true_iff.mp hc with hc | hc
  · exact h'.size_le.trans_lt (h.size_lt hc)
  · exact (h'.size_lt hc).trans_le h.size_le

theorem applyOpts {opts : List (α → IdxGraph → α × Bool)} {G : IdxGraph}
    (h : ∀ opt ∈ opts, ∀ a, Refines M a (opt a G)) (a : α) :
    Refines M a (applyOpts opts a G) := by
  unfold Clou.applyOpts
  have hstart := refl (M := M) a
  generalize (a, false) = r at hstart ⊢
  induction opts generalizing r with
  | nil => exact hstart
  | cons opt opts ih =>
    obtain ⟨hopt, hopts⟩ := List.forall_mem_cons.mp h
    exact ih hopts _ (hstart.trans (hopt r.1))

end Refines

/-- The nodes of the waypoint sets. -/
def IdxST.nodes (st : IdxST) : Set Idx := {u | ∃ S ∈ st.waypoints, u ∈ S}

/-- The number of sets and waypoints. -/
def IdxST.size (st : IdxST) : Nat := (st.waypoints.map fun S => 1 + S.size).sum

/-- An ST asks for a cut of its waypoint walks. -/
def stSubject (G : IdxGraph) : Subject IdxST where
  ok st := 2 ≤ st.waypoints.length
  walk C st := Walk.HasWalk (Walk.without G.Edge C) st.waypoints
  nodes := IdxST.nodes
  lengths st := {st.waypoints.length}
  size := IdxST.size

def stsSize (sts : List IdxST) : Nat := (sts.map fun st => 1 + st.size).sum

def stsNodes (sts : List IdxST) : Set Idx := {u | ∃ st ∈ sts, u ∈ st.nodes}

/-- An ST list asks for a cut of the waypoint walks of all its STs. -/
def stsSubject (G : IdxGraph) : Subject (List IdxST) where
  ok sts := ∀ st ∈ sts, 2 ≤ st.waypoints.length
  walk C sts := ∃ st ∈ sts, Walk.HasWalk (Walk.without G.Edge C) st.waypoints
  nodes := stsNodes
  lengths sts := {n | ∃ st ∈ sts, n = st.waypoints.length}
  size := stsSize

section Rewrites

variable {G : IdxGraph} {C : Set (Idx × Idx)}

/-! ## Reachability -/

theorem row_keys_lt (hG : G.Closed) (u v : Idx) (hv : v ∈ (G.row u).keys) :
    v ∈ Finset.range G.length := Finset.mem_range.mpr (hG.dst_lt hv)

/-- The steps that do not enter skipped nodes. -/
def Around (G : IdxGraph) (skip : Idx → Prop) (u v : Idx) : Prop := G.Edge u v ∧ ¬ skip v

theorem step_eq_around (skip : Idx → Bool) :
    Step skip (fun u => (G.row u).keys) = Around G (skip · = true) := by
  ext u v
  simp only [Step, Around, Bool.not_eq_true]
  rfl

theorem reachSkipping_iff (hG : G.Closed) {skip : Idx → Bool} {S : OrdSet Idx} {v : Idx} :
    reachSkipping G skip S v = true ↔ ∃ s ∈ S, TransGen (Around G (skip · = true)) s v := by
  have hfuel : S.toList.reverse.length + (Finset.range G.length).card ≤ S.size + G.length := by
    simp [OrdSet.size]
  rw [reachSkipping, visited_explore (fun u _ => row_keys_lt hG u) hfuel, step_eq_around]
  simp

theorem reachedT_iff (hG : G.Closed) {S T : OrdSet Idx} {s : Idx} :
    reachedT G S T s = true ↔
      ∃ u, ReflTransGen (Around G (· ∈ S)) s u ∧ ∃ v ∈ T, G.Edge u v := by
  have hfuel : [s].length + (Finset.range G.length).card ≤ 1 + G.length := by simp
  rw [reachedT, hits_iff (fun u _ => row_keys_lt hG u) hfuel, step_eq_around]
  simp only [List.mem_singleton, exists_eq_left, decide_eq_true_eq]
  exact exists_congr fun u => and_congr_right fun _ =>
    exists_congr fun v => and_comm

/-! ## Dropping Unreached Waypoints -/

theorem cullUnreachables_walk (hG : G.Closed) {S : OrdSet Idx} {Ts : List (OrdSet Idx)} {u : Idx}
    (hu : u ∈ S) (h : Walk.Visits (Walk.without G.Edge C) (TransGen (Walk.without G.Edge C) u) Ts) :
    Walk.Visits (Walk.without G.Edge C) (TransGen (Walk.without G.Edge C) u)
      (cullUnreachables G S Ts).1 := by
  induction Ts generalizing S u with
  | nil => trivial
  | cons T Ts ih =>
    obtain ⟨v, hv, huv, hrest⟩ := h
    have hreach : reachSkipping G (fun _ => false) S v = true := by
      refine (reachSkipping_iff hG).mpr ⟨u, hu, ?_⟩
      exact TransGen.mono (fun _ _ h => ⟨h.1, by simp⟩) _ _ huv
    have hv' : v ∈ T.filter (reachSkipping G (fun _ => false) S) := OrdSet.mem_filter.mpr ⟨hv, hreach⟩
    exact ⟨v, hv', huv, ih hv' hrest⟩

theorem cullUnreachables_nodes {S T' : OrdSet Idx} {Ts : List (OrdSet Idx)} {u : Idx}
    (hT' : T' ∈ (cullUnreachables G S Ts).1) (hu : u ∈ T') : ∃ T ∈ Ts, u ∈ T := by
  induction Ts generalizing S with
  | nil => exact absurd hT' List.not_mem_nil
  | cons T Ts ih =>
    rcases List.mem_cons.mp hT' with rfl | hT'
    · exact ⟨T, .head _, (OrdSet.mem_filter.mp hu).1⟩
    · obtain ⟨T, hT, hu⟩ := ih hT'
      exact ⟨T, .tail _ hT, hu⟩

theorem cullUnreachables_size (S : OrdSet Idx) (Ts : List (OrdSet Idx)) :
    (cullUnreachables G S Ts).1.length = Ts.length ∧
      ((cullUnreachables G S Ts).1.map fun S => 1 + S.size).sum + (cullUnreachables G S Ts).2 =
        (Ts.map fun S => 1 + S.size).sum := by
  induction Ts generalizing S with
  | nil => exact ⟨rfl, rfl⟩
  | cons T Ts ih =>
    obtain ⟨hlen, hsum⟩ := ih (T.filter (reachSkipping G (fun _ => false) S))
    have hle := OrdSet.size_filter_le (reachSkipping G (fun _ => false) S) T
    simp only [cullUnreachables, List.length_cons, List.map_cons, List.sum_cons]
    omega

theorem refines_cullUnreachables (hG : G.Closed) (st : IdxST) :
    Refines (stSubject G) st (optimizeStsCullUnreachables st G) := by
  obtain ⟨Ws⟩ := st
  cases Ws with
  | nil => exact .refl _
  | cons S Ts =>
    obtain ⟨hlen, hsum⟩ := cullUnreachables_size (G := G) S Ts
    simp only [optimizeStsCullUnreachables]
    refine ⟨fun h => ?_, fun C h => ?_, ?_, ?_, ?_, fun h => ?_⟩
    · simpa [stSubject, hlen] using h
    · obtain ⟨u, hu, -, hrest⟩ := Walk.hasWalk_iff_visits.mp h
      exact Walk.hasWalk_iff_visits.mpr ⟨u, hu, trivial, cullUnreachables_walk hG hu hrest⟩
    · rintro u ⟨T', hT', hu⟩
      rcases List.mem_cons.mp hT' with rfl | hT'
      · exact ⟨T', .head _, hu⟩
      · obtain ⟨T, hT, hu⟩ := cullUnreachables_nodes hT' hu
        exact ⟨T, .tail _ hT, hu⟩
    · rintro n rfl
      exact ⟨_, rfl, by simp [hlen]⟩
    · simp only [stSubject, IdxST.size, List.map_cons, List.sum_cons]
      omega
    · have hpos : 0 < (cullUnreachables G S Ts).2 := by simpa using h
      simp only [stSubject, IdxST.size, List.map_cons, List.sum_cons]
      omega

/-! ## Dropping Useless Sources -/

/-- A leg from `s` either passes another node of `S`, or avoids `S` from some visit
of `s` on. -/
theorem leg_cases {E : Idx → Idx → Prop} {S : OrdSet Idx} {s v : Idx} (h : TransGen E s v) :
    (∃ x ∈ S, x ≠ s ∧ TransGen E s x ∧ TransGen E x v) ∨
      ∃ u, ReflTransGen (fun a b => E a b ∧ b ∉ S) s u ∧ E u v := by
  have key {a : Idx} (ha : TransGen E a v) :
      (∃ x ∈ S, x ≠ s ∧ TransGen E a x ∧ TransGen E x v) ∨
        (∃ u, ReflTransGen (fun a b => E a b ∧ b ∉ S) a u ∧ E u v) ∨
        ∃ u, ReflTransGen (fun a b => E a b ∧ b ∉ S) s u ∧ E u v := by
    induction ha using TransGen.head_induction_on with
    | single hav => exact .inr (.inl ⟨_, .refl, hav⟩)
    | @head a b hab hbv ih =>
      rcases ih with ⟨x, hx, hne, hbx, hxv⟩ | ⟨u, hbu, huv⟩ | hs
      · exact .inl ⟨x, hx, hne, .head hab hbx, hxv⟩
      · by_cases hb : b ∈ S
        · by_cases hbs : b = s
          · exact .inr (.inr ⟨u, hbs ▸ hbu, huv⟩)
          · exact .inl ⟨b, hb, hbs, .single hab, hbv⟩
        · exact .inr (.inl ⟨u, .head ⟨hab, hb⟩ hbu, huv⟩)
      · exact .inr (.inr hs)
  rcases key h with h | h | h
  · exact .inl h
  · exact .inr h
  · exact .inr h

/-- A source that does not reach `T` can be replaced by a later one on each of its legs. -/
theorem leg_of_not_reachedT (hG : G.Closed) {S T : OrdSet Idx} {s v : Idx}
    (hnot : reachedT G S T s = false) (hv : v ∈ T)
    (h : TransGen (Walk.without G.Edge C) s v) :
    ∃ x ∈ S.erase s, TransGen (Walk.without G.Edge C) s x ∧
      TransGen (Walk.without G.Edge C) x v := by
  rcases leg_cases (S := S) h with ⟨x, hx, hne, hsx, hxv⟩ | ⟨u, hsu, huv⟩
  · exact ⟨x, OrdSet.mem_erase.mpr ⟨hx, hne⟩, hsx, hxv⟩
  · have haround : ReflTransGen (Around G (· ∈ S)) s u :=
      ReflTransGen.mono (fun _ _ h => ⟨h.1.1, h.2⟩) _ _ hsu
    have hreached := (reachedT_iff hG).mpr ⟨u, haround, v, hv, huv.1⟩
    simp [hnot] at hreached

theorem cullSourcesLeg_walk (hG : G.Closed) {T : OrdSet Idx} {ss : List Idx} {S : OrdSet Idx}
    {u v : Idx} (hu : u ∈ S) (hv : v ∈ T) (h : TransGen (Walk.without G.Edge C) u v) :
    ∃ x ∈ (cullSourcesLeg G T ss S).1, ReflTransGen (Walk.without G.Edge C) u x ∧
      TransGen (Walk.without G.Edge C) x v := by
  induction ss generalizing S u with
  | nil => exact ⟨u, hu, .refl, h⟩
  | cons s ss ih =>
    simp only [cullSourcesLeg]
    split_ifs with hreached
    · exact ih hu h
    · by_cases hus : u = s
      · subst hus
        obtain ⟨x, hx, hux, hxv⟩ := leg_of_not_reachedT hG (by simpa using hreached) hv h
        obtain ⟨y, hy, hxy, hyv⟩ := ih hx hxv
        exact ⟨y, hy, hux.to_reflTransGen.trans hxy, hyv⟩
      · exact ih (OrdSet.mem_erase.mpr ⟨hu, hus⟩) h

theorem cullSources_walk (hG : G.Closed) {Ws : List (OrdSet Idx)} {P : Idx → Prop}
    (hP : ∀ u v, P u → ReflTransGen (Walk.without G.Edge C) u v → P v)
    (h : Walk.Visits (Walk.without G.Edge C) P Ws) :
    Walk.Visits (Walk.without G.Edge C) P (cullSources G Ws).1 := by
  induction Ws generalizing P with
  | nil => trivial
  | cons S Ts ih =>
    cases Ts with
    | nil => exact h
    | cons T Ts =>
      obtain ⟨u, hu, hPu, v, hv, huv, hrest⟩ := h
      obtain ⟨x, hx, hux, hxv⟩ := cullSourcesLeg_walk hG hu hv huv
      refine ⟨x, hx, hP u x hPu hux, ih (fun a b ha hab => ha.trans_left hab) ?_⟩
      exact ⟨v, hv, hxv, hrest⟩

theorem cullSourcesLeg_subset {T : OrdSet Idx} {ss : List Idx} {S : OrdSet Idx} {u : Idx}
    (hu : u ∈ (cullSourcesLeg G T ss S).1) : u ∈ S := by
  induction ss generalizing S with
  | nil => exact hu
  | cons s ss ih =>
    simp only [cullSourcesLeg] at hu
    split_ifs at hu
    · exact ih hu
    · exact (OrdSet.mem_erase.mp (ih hu)).1

theorem cullSources_nodes {S' : OrdSet Idx} {Ws : List (OrdSet Idx)} {u : Idx}
    (hS' : S' ∈ (cullSources G Ws).1) (hu : u ∈ S') : ∃ S ∈ Ws, u ∈ S := by
  induction Ws with
  | nil => exact absurd hS' List.not_mem_nil
  | cons S Ts ih =>
    cases Ts with
    | nil => exact ⟨S', hS', hu⟩
    | cons T Ts =>
      rcases List.mem_cons.mp hS' with rfl | hS'
      · exact ⟨S, .head _, cullSourcesLeg_subset hu⟩
      · obtain ⟨S, hS, hu⟩ := ih hS'
        exact ⟨S, .tail _ hS, hu⟩

/-- Erasing members lowers the size. -/
theorem cullSourcesLeg_size {T : OrdSet Idx} {ss : List Idx} {S : OrdSet Idx} (hnodup : ss.Nodup)
    (hss : ∀ s ∈ ss, s ∈ S) : (cullSourcesLeg G T ss S).1.size ≤ S.size ∧
      ((cullSourcesLeg G T ss S).2 = true → (cullSourcesLeg G T ss S).1.size < S.size) := by
  induction ss generalizing S with
  | nil => simp [cullSourcesLeg]
  | cons s ss ih =>
    obtain ⟨hs, hss⟩ := List.forall_mem_cons.mp hss
    obtain ⟨hfresh, hnodup⟩ := List.nodup_cons.mp hnodup
    simp only [cullSourcesLeg]
    split_ifs with hreached
    · exact ih hnodup hss
    · have hlt := OrdSet.size_erase_lt hs
      have hrest := ih (S := S.erase s) hnodup fun x hx =>
        OrdSet.mem_erase.mpr ⟨hss x hx, fun heq => hfresh (heq ▸ hx)⟩
      exact ⟨hrest.1.trans hlt.le, fun _ => hrest.1.trans_lt hlt⟩

theorem cullSources_size (Ws : List (OrdSet Idx)) :
    (cullSources G Ws).1.length = Ws.length ∧
      ((cullSources G Ws).1.map fun S => 1 + S.size).sum ≤ (Ws.map fun S => 1 + S.size).sum ∧
      ((cullSources G Ws).2 = true →
        ((cullSources G Ws).1.map fun S => 1 + S.size).sum < (Ws.map fun S => 1 + S.size).sum) := by
  induction Ws with
  | nil => simp [cullSources]
  | cons S Ts ih =>
    cases Ts with
    | nil => simp [cullSources]
    | cons T Ts =>
      obtain ⟨hlen, hle, hlt⟩ := ih
      have hleg := cullSourcesLeg_size (G := G) (T := T) S.nodup fun s hs => hs
      simp only [cullSources, List.length_cons, List.map_cons, List.sum_cons] at *
      refine ⟨by omega, by omega, fun hc => ?_⟩
      rcases Bool.or_eq_true_iff.mp hc with hc | hc
      · have := hleg.2 hc
        omega
      · have := hlt hc
        omega

theorem refines_cullSources (hG : G.Closed) (st : IdxST) :
    Refines (stSubject G) st (optimizeStsCullSources st G) := by
  obtain ⟨hlen, hle, hlt⟩ := cullSources_size (G := G) st.waypoints
  refine ⟨fun h => ?_, fun C h => ?_, ?_, ?_, hle, hlt⟩
  · change 2 ≤ (cullSources G st.waypoints).1.length
    rwa [hlen]
  · exact Walk.hasWalk_iff_visits.mpr
      (cullSources_walk hG (fun _ _ _ _ => trivial) (Walk.hasWalk_iff_visits.mp h))
  · rintro u ⟨S', hS', hu⟩
    exact cullSources_nodes hS' hu
  · rintro n rfl
    exact ⟨_, rfl, hlen.le⟩

/-! ## Dropping Middle Sets -/

theorem removeRedundant_walk {E : Idx → Idx → Prop} {P : Idx → Prop} {A : OrdSet Idx}
    {Ts : List (OrdSet Idx)} (h : Walk.Visits E P (A :: Ts)) :
    Walk.Visits E P (A :: (removeRedundantInternal G A Ts).1) := by
  induction Ts generalizing A P with
  | nil => exact h
  | cons B Ts ih =>
    cases Ts with
    | nil => exact h
    | cons C Ts =>
      simp only [removeRedundantInternal]
      split_ifs
      · exact ih h.drop_second
      · obtain ⟨a, ha, hPa, hrest⟩ := h
        exact ⟨a, ha, hPa, ih hrest⟩

theorem removeRedundant_sublist (A : OrdSet Idx) (Ts : List (OrdSet Idx)) :
    (removeRedundantInternal G A Ts).1.Sublist Ts := by
  induction Ts generalizing A with
  | nil => exact .slnil
  | cons B Ts ih =>
    cases Ts with
    | nil => exact .refl _
    | cons C Ts =>
      simp only [removeRedundantInternal]
      split_ifs
      · exact (ih A).cons B
      · exact (ih B).cons_cons B

theorem removeRedundant_size (A : OrdSet Idx) (Ts : List (OrdSet Idx)) :
    (Ts ≠ [] → (removeRedundantInternal G A Ts).1 ≠ []) ∧
      ((removeRedundantInternal G A Ts).1.map fun S => 1 + S.size).sum ≤
        (Ts.map fun S => 1 + S.size).sum ∧
      ((removeRedundantInternal G A Ts).2 = true →
        ((removeRedundantInternal G A Ts).1.map fun S => 1 + S.size).sum <
          (Ts.map fun S => 1 + S.size).sum) := by
  induction Ts generalizing A with
  | nil => simp [removeRedundantInternal]
  | cons B Ts ih =>
    cases Ts with
    | nil => simp [removeRedundantInternal]
    | cons C Ts =>
      simp only [removeRedundantInternal]
      split_ifs with hno
      · obtain ⟨hne, hle, -⟩ := ih A
        simp only [List.map_cons, List.sum_cons] at hle ⊢
        exact ⟨fun _ => hne (by simp), by omega, fun _ => by omega⟩
      · obtain ⟨-, hle, hlt⟩ := ih B
        simp only [List.map_cons, List.sum_cons] at hle hlt ⊢
        exact ⟨fun _ => by simp, by omega, fun hc => by have := hlt hc; omega⟩

theorem refines_removeRedundant (st : IdxST) :
    Refines (stSubject G) st (optimizeStsRemoveRedundantInternalSt st G) := by
  obtain ⟨Ws⟩ := st
  cases Ws with
  | nil => exact .refl _
  | cons A Ts =>
    obtain ⟨hne, hle, hlt⟩ := removeRedundant_size (G := G) A Ts
    simp only [optimizeStsRemoveRedundantInternalSt]
    refine ⟨fun h => ?_, fun C h => ?_, ?_, ?_, ?_, fun hc => ?_⟩
    · have hTs : Ts ≠ [] := by
        rintro rfl
        simp [stSubject] at h
      have := List.length_pos_iff.mpr (hne hTs)
      simp only [stSubject, List.length_cons]
      omega
    · exact Walk.hasWalk_iff_visits.mpr (removeRedundant_walk (Walk.hasWalk_iff_visits.mp h))
    · rintro u ⟨S, hS, hu⟩
      exact ⟨S, ((removeRedundant_sublist A Ts).cons_cons A).subset hS, hu⟩
    · rintro n rfl
      exact ⟨_, rfl, ((removeRedundant_sublist A Ts).cons_cons A).length_le⟩
    · simpa [stSubject, IdxST.size] using hle
    · simpa [stSubject, IdxST.size] using hlt hc

end Rewrites

end Clou
