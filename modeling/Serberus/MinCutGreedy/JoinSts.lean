-- SUMMARY: The rewrites of the ST list refine it, and with them the whole optimisation loop.
import Serberus.MinCutGreedy.Protects

/-!
# Rewrites of the ST List

Dropping STs and joining STs both lose at least one unit of size for every ST that
disappears; `Shrinks` keeps these accounts. The join goes through the STs twice, once
to pool them by length and once for every position of a pool; its invariants are
stated for the STs processed so far.
-/

namespace Clou

/-! ## Accounts -/

/-- Every ST that disappears takes a unit of size with it. -/
structure Shrinks (sts sts' : List IdxST) : Prop where
  length_le : sts'.length ≤ sts.length
  size_le : stsSize sts' + sts.length ≤ stsSize sts + sts'.length

namespace Shrinks

variable {sts sts' sts'' : List IdxST}

theorem refl (sts : List IdxST) : Shrinks sts sts := ⟨le_rfl, le_rfl⟩

theorem trans (h : Shrinks sts sts') (h' : Shrinks sts' sts'') : Shrinks sts sts'' := by
  have := h.length_le
  have := h.size_le
  have := h'.length_le
  have := h'.size_le
  exact ⟨by omega, by omega⟩

theorem of_perm (h : sts.Perm sts') : Shrinks sts sts' := by
  have hsum : stsSize sts = stsSize sts' := (h.map _).sum_eq
  exact ⟨h.length_eq.ge, by rw [hsum, h.length_eq]⟩

theorem cons (st : IdxST) (h : Shrinks sts sts') : Shrinks (st :: sts) (st :: sts') := by
  have hlen := h.length_le
  have hsize := h.size_le
  refine ⟨?_, ?_⟩
  · simp only [List.length_cons]
    omega
  · simp only [stsSize, List.map_cons, List.sum_cons, List.length_cons] at hsize ⊢
    omega

theorem drop (st : IdxST) (h : Shrinks sts sts') : Shrinks (st :: sts) sts' := by
  have hlen := h.length_le
  have hsize := h.size_le
  refine ⟨?_, ?_⟩
  · simp only [List.length_cons]
    omega
  · simp only [stsSize, List.map_cons, List.sum_cons, List.length_cons] at hsize ⊢
    omega

theorem of_sublist (h : sts'.Sublist sts) : Shrinks sts sts' := by
  induction h with
  | slnil => exact refl []
  | cons st _ ih => exact ih.drop st
  | cons_cons st _ ih => exact ih.cons st

theorem append {ts ts' : List IdxST} (h : Shrinks sts sts') (h' : Shrinks ts ts') :
    Shrinks (sts ++ ts) (sts' ++ ts') := by
  have := h.length_le
  have := h.size_le
  have := h'.length_le
  have := h'.size_le
  refine ⟨?_, ?_⟩
  · simp only [List.length_append]
    omega
  · simp only [stsSize, List.map_append, List.sum_append, List.length_append] at *
    omega

/-- A rewrite that reports a change when the length differs. -/
theorem refines {G : IdxGraph} {r : List IdxST × Bool} (h : Shrinks sts r.1)
    (hflag : r.2 = true → sts.length ≠ r.1.length)
    (hok : (∀ st ∈ sts, 2 ≤ st.waypoints.length) → ∀ st ∈ r.1, 2 ≤ st.waypoints.length)
    (hwalk : ∀ C, (stsSubject G).walk C sts → (stsSubject G).walk C r.1)
    (hnodes : ∀ u ∈ stsNodes r.1, u ∈ stsNodes sts)
    (hlens : ∀ st ∈ r.1, ∃ st' ∈ sts, st.waypoints.length ≤ st'.waypoints.length) :
    Refines (stsSubject G) sts r := by
  have hlen := h.length_le
  have hsize := h.size_le
  refine ⟨hok, hwalk, hnodes, ?_, ?_, fun hc => ?_⟩
  · rintro n ⟨st, hst, rfl⟩
    obtain ⟨st', hst', hle⟩ := hlens st hst
    exact ⟨_, ⟨st', hst', rfl⟩, hle⟩
  · change stsSize r.1 ≤ stsSize sts
    omega
  · have hne := hflag hc
    change stsSize r.1 < stsSize sts
    omega

end Shrinks

section Rewrites

variable {G : IdxGraph}

/-! ## Dropping STs -/

theorem removeEmptyset_perm {fuel : Nat} {sts : List IdxST} (hfuel : sts.length ≤ fuel) :
    (removeEmptyset fuel sts).Perm (sts.filter fun st => !hasEmptyset st) := by
  induction fuel generalizing sts with
  | zero =>
    obtain rfl : sts = [] := List.eq_nil_of_length_eq_zero (Nat.le_zero.mp hfuel)
    exact .nil
  | succ fuel ih =>
    cases sts with
    | nil => exact .nil
    | cons st sts =>
      simp only [List.length_cons] at hfuel
      simp only [removeEmptyset]
      by_cases hempty : hasEmptyset st = true
      · rw [if_pos hempty, List.filter_cons_of_neg (by simp [hempty])]
        rcases List.eq_nil_or_concat sts with rfl | ⟨sts, last, rfl⟩
        · exact .nil
        · rw [List.concat_eq_append] at hfuel ⊢
          have hperm : (last :: sts).Perm (sts ++ [last]) :=
            (List.perm_append_singleton last sts).symm
          simp only [List.getLast?_append, List.getLast?_singleton, Option.some_or,
            List.dropLast_concat]
          refine (ih ?_).trans (hperm.filter _)
          simpa using hfuel
      · rw [if_neg hempty, List.filter_cons_of_pos (by simpa using hempty)]
        exact (ih (by omega)).cons st

theorem mem_removeEmptyset {sts : List IdxST} {st : IdxST} :
    st ∈ (optimizeStsRemoveEmptyset sts G).1 ↔ st ∈ sts ∧ ∀ S ∈ st.waypoints, ∃ u, u ∈ S := by
  rw [optimizeStsRemoveEmptyset, (removeEmptyset_perm le_rfl).mem_iff, List.mem_filter]
  simp [hasEmptyset, OrdSet.isEmpty_eq_false_iff]

theorem refines_removeEmptyset (sts : List IdxST) :
    Refines (stsSubject G) sts (optimizeStsRemoveEmptyset sts G) := by
  have hperm := removeEmptyset_perm (le_refl sts.length)
  have hshrink : Shrinks sts (optimizeStsRemoveEmptyset sts G).1 :=
    (Shrinks.of_sublist List.filter_sublist).trans (.of_perm hperm.symm)
  refine hshrink.refines (fun hc => Ne.symm (of_decide_eq_true hc))
    (fun h st hst => h st (mem_removeEmptyset.mp hst).1) ?_ ?_
    fun st hst => ⟨st, (mem_removeEmptyset.mp hst).1, le_rfl⟩
  · rintro C ⟨st, hst, hwalk⟩
    refine ⟨st, mem_removeEmptyset.mpr ⟨hst, ?_⟩, hwalk⟩
    exact (Walk.hasWalk_iff_visits.mp hwalk).exists_mem
  · rintro u ⟨st, hst, hu⟩
    exact ⟨st, (mem_removeEmptyset.mp hst).1, hu⟩

theorem refines_removeDuplicates (sts : List IdxST) :
    Refines (stsSubject G) sts (optimizeStsRemoveDuplicates sts G) := by
  have hshrink : Shrinks sts (optimizeStsRemoveDuplicates sts G).1 :=
    (Shrinks.of_perm (List.perm_insertionSort (· ≤ ·) sts).symm).trans
      (.of_sublist (List.destutter_sublist _ _))
  refine hshrink.refines of_decide_eq_true (fun h st hst => h st (mem_sortUnique.mp hst)) ?_ ?_
    fun st hst => ⟨st, mem_sortUnique.mp hst, le_rfl⟩
  · rintro C ⟨st, hst, hwalk⟩
    exact ⟨st, mem_sortUnique.mpr hst, hwalk⟩
  · rintro u ⟨st, hst, hu⟩
    exact ⟨st, mem_sortUnique.mp hst, hu⟩

/-! ## Joining at One Position -/

/-- Set by set, `st'` has the waypoints of `st`. -/
def Covers (st st' : IdxST) : Prop :=
  List.Forall₂ (fun W W' => ∀ u : Idx, u ∈ W → u ∈ W') st.waypoints st'.waypoints

theorem Covers.refl (st : IdxST) : Covers st st := List.forall₂_same.mpr fun _ _ _ h => h

theorem Covers.trans {st st' st'' : IdxST} (h : Covers st st') (h' : Covers st' st'') :
    Covers st st'' := by
  obtain ⟨hlen, hsub⟩ := List.forall₂_iff_get.mp h
  obtain ⟨hlen', hsub'⟩ := List.forall₂_iff_get.mp h'
  refine List.forall₂_iff_get.mpr ⟨hlen.trans hlen', fun i hi hi'' u hu => ?_⟩
  have hi' : i < st'.waypoints.length := hlen ▸ hi
  exact hsub' i hi' hi'' u (hsub i hi hi' u hu)

/-- Enlarging one set covers. -/
theorem covers_set {st : IdxST} {i : Nat} {S : OrdSet Idx}
    (hS : ∀ u ∈ st.waypoints.getD i ∅, u ∈ S) : Covers st ⟨st.waypoints.set i S⟩ := by
  refine List.forall₂_iff_get.mpr ⟨(List.length_set).symm, fun j hj hj' u hu => ?_⟩
  simp only [List.get_eq_getElem, List.getElem_set] at hu ⊢
  split_ifs with hij
  · subst hij
    refine hS u ?_
    rwa [List.getD_eq_getElem?_getD, List.getElem?_eq_getElem hj, Option.getD_some]
  · exact hu

theorem size_eraseIdx {st : IdxST} {i : Nat} (hi : i < st.waypoints.length) :
    st.size = (IdxST.mk (st.waypoints.eraseIdx i)).size + (1 + (st.waypoints.getD i ∅).size) := by
  have hperm := List.getElem_cons_eraseIdx_perm hi
  have hsum := (hperm.map fun S : OrdSet Idx => 1 + S.size).sum_eq
  rw [List.map_cons, List.sum_cons] at hsum
  rw [List.getD_eq_getElem?_getD, List.getElem?_eq_getElem hi, Option.getD_some]
  simp only [IdxST.size]
  omega

theorem size_insertIdx {Ws : List (OrdSet Idx)} {i : Nat} (hi : i ≤ Ws.length) (S : OrdSet Idx) :
    (IdxST.mk (Ws.insertIdx i S)).size = (IdxST.mk Ws).size + (1 + S.size) := by
  have hperm := List.perm_insertIdx S Ws hi
  have hsum := (hperm.map fun S : OrdSet Idx => 1 + S.size).sum_eq
  rw [List.map_cons, List.sum_cons] at hsum
  simp only [IdxST.size]
  omega

/-- The size that the STs rebuilt from a map will have. -/
def setsSize (sets : List (List (OrdSet Idx) × OrdSet Idx)) : Nat :=
  (sets.map fun e => 1 + ((IdxST.mk e.1).size + (1 + e.2.size))).sum

/-- What holds after the STs `done` of a pool of length `n` went into the map. -/
structure JoinInv (n i : Nat) (done : List IdxST)
    (sets : OrdMap (List (OrdSet Idx)) (OrdSet Idx)) : Prop where
  covers : ∀ st ∈ done, ∃ S, sets.find? (st.waypoints.eraseIdx i) = some S ∧
    ∀ u ∈ st.waypoints.getD i ∅, u ∈ S
  keys : ∀ e ∈ sets.entries, e.1.length + 1 = n
  nodes : ∀ e ∈ sets.entries, ∀ S ∈ e.2 :: e.1, ∀ u ∈ S, u ∈ stsNodes done
  length_le : sets.entries.length ≤ done.length
  size_le : setsSize sets.entries + done.length ≤ stsSize done + sets.entries.length

theorem setsSize_perm {sets sets' : List (List (OrdSet Idx) × OrdSet Idx)}
    (h : sets.Perm sets') : setsSize sets = setsSize sets' := (h.map _).sum_eq

/-- Uniting a set into the map: a new key, or a larger value at an old one. -/
theorem setsSize_merge (sets : OrdMap (List (OrdSet Idx)) (OrdSet Idx)) (k : List (OrdSet Idx))
    (S : OrdSet Idx) :
    let sets' := sets.insert k (((sets.find? k).getD ∅).union S)
    sets'.entries.length ≤ sets.entries.length + 1 ∧
      setsSize sets'.entries + sets.entries.length + 1 ≤
        setsSize sets.entries + (1 + ((IdxST.mk k).size + (1 + S.size))) + sets'.entries.length := by
  intro sets'
  have hunion := OrdSet.size_union_le ((sets.find? k).getD ∅) S
  have hperm' := OrdMap.entries_insert_perm sets k (((sets.find? k).getD ∅).union S)
  have hlen' := hperm'.length_eq
  have hsize' := setsSize_perm hperm'
  cases hfind : sets.find? k with
  | none =>
    rw [hfind, Option.getD_none] at hunion
    rw [OrdMap.erase_of_find?_none hfind] at hlen' hsize'
    have hempty : (∅ : OrdSet Idx).size = 0 := rfl
    simp only [setsSize, List.map_cons, List.sum_cons, List.length_cons, hfind,
      Option.getD_none] at hlen' hsize' ⊢
    simp only [sets', hfind, Option.getD_none]
    omega
  | some old =>
    rw [hfind, Option.getD_some] at hunion
    have hperm := OrdMap.entries_perm_of_find? hfind
    have hlen := hperm.length_eq
    have hsize := setsSize_perm hperm
    simp only [setsSize, List.map_cons, List.sum_cons, List.length_cons, hfind,
      Option.getD_some] at hlen hlen' hsize hsize' ⊢
    simp only [sets', hfind, Option.getD_some]
    omega

theorem JoinInv.step {n i : Nat} {done : List IdxST}
    {sets : OrdMap (List (OrdSet Idx)) (OrdSet Idx)} {st : IdxST} (h : JoinInv n i done sets)
    (hn : st.waypoints.length = n) (hi : i < n) :
    JoinInv n i (done ++ [st]) (sets.insert (st.waypoints.eraseIdx i)
      (((sets.find? (st.waypoints.eraseIdx i)).getD ∅).union (st.waypoints.getD i ∅))) := by
  have hsize := size_eraseIdx (show i < st.waypoints.length from hn.symm ▸ hi)
  obtain ⟨hlenm, hsizem⟩ := setsSize_merge sets (st.waypoints.eraseIdx i) (st.waypoints.getD i ∅)
  have hlen := h.length_le
  have hle := h.size_le
  refine ⟨fun st' hst' => ?_, fun e he => ?_, fun e he S hS u hu => ?_, ?_, ?_⟩
  · rw [OrdMap.find?_insert]
    split_ifs with hkey
    · refine ⟨_, rfl, fun u hu => OrdSet.mem_union.mpr ?_⟩
      rcases List.mem_append.mp hst' with hst' | hst'
      · obtain ⟨S, hfind, hS⟩ := h.covers st' hst'
        rw [hkey] at hfind
        exact .inl (by rw [hfind]; exact hS u hu)
      · obtain rfl : st' = st := List.mem_singleton.mp hst'
        exact .inr hu
    · rcases List.mem_append.mp hst' with hst' | hst'
      · exact h.covers st' hst'
      · exact absurd (by rw [List.mem_singleton.mp hst']) hkey
  · rcases OrdMap.mem_insert.mp he with rfl | ⟨-, he⟩
    · simp only [List.length_eraseIdx_of_lt (hn.symm ▸ hi)]
      omega
    · exact h.keys e he
  · have hold (e : List (OrdSet Idx) × OrdSet Idx) (he : e ∈ sets.entries) (S : OrdSet Idx)
        (hS : S ∈ e.2 :: e.1) (hu : u ∈ S) : u ∈ stsNodes (done ++ [st]) := by
      obtain ⟨st', hst', hu⟩ := h.nodes e he S hS u hu
      exact ⟨st', List.mem_append_left _ hst', hu⟩
    have hnew (S : OrdSet Idx) (hS : S ∈ st.waypoints) (hu : u ∈ S) :
        u ∈ stsNodes (done ++ [st]) := ⟨st, List.mem_append_right _ (.head _), S, hS, hu⟩
    rcases OrdMap.mem_insert.mp he with rfl | ⟨-, he⟩
    · rcases List.mem_cons.mp hS with rfl | hS
      · rcases OrdSet.mem_union.mp hu with hu | hu
        · cases hfind : sets.find? (st.waypoints.eraseIdx i) with
          | none =>
            rw [hfind, Option.getD_none] at hu
            exact absurd hu List.not_mem_nil
          | some S =>
            rw [hfind, Option.getD_some] at hu
            exact hold _ (OrdMap.find?_eq_some.mp hfind) S (.head _) hu
        · refine hnew _ ?_ hu
          rw [List.getD_eq_getElem?_getD, List.getElem?_eq_getElem (hn.symm ▸ hi)]
          exact List.getElem_mem _
      · exact hnew S (List.mem_of_mem_eraseIdx hS) hu
    · exact hold e he S hS hu
  · simp only [List.length_append, List.length_singleton]
    omega
  · simp only [stsSize, List.map_append, List.sum_append, List.map_singleton, List.sum_singleton,
      List.length_append, List.length_singleton] at hle ⊢
    omega

theorem joinSets_inv {n i : Nat} {pool : List IdxST} (hn : ∀ st ∈ pool, st.waypoints.length = n)
    (hi : i < n) : JoinInv n i pool (joinSets i pool) := by
  induction pool using List.reverseRecOn with
  | nil => exact ⟨by simp, by simp [joinSets], by simp [joinSets], le_rfl, le_rfl⟩
  | append_singleton pool st ih =>
    obtain ⟨hpool, hst⟩ := List.forall_mem_append.mp hn
    rw [joinSets, List.foldl_concat]
    exact (ih hpool).step (hst st (.head _)) hi

/-- What the joins of STs of length `n` keep. -/
structure Joins (n : Nat) (pool pool' : List IdxST) : Prop where
  lengths : ∀ st ∈ pool', st.waypoints.length = n
  covers : ∀ st ∈ pool, ∃ st' ∈ pool', Covers st st'
  nodes : ∀ u ∈ stsNodes pool', u ∈ stsNodes pool
  shrinks : Shrinks pool pool'

theorem Joins.refl {n : Nat} {pool : List IdxST} (hn : ∀ st ∈ pool, st.waypoints.length = n) :
    Joins n pool pool :=
  ⟨hn, fun st hst => ⟨st, hst, .refl st⟩, fun _ hu => hu, .refl pool⟩

theorem Joins.trans {n : Nat} {pool pool' pool'' : List IdxST} (h : Joins n pool pool')
    (h' : Joins n pool' pool'') : Joins n pool pool'' := by
  refine ⟨h'.lengths, fun st hst => ?_, fun u hu => h.nodes u (h'.nodes u hu),
    h.shrinks.trans h'.shrinks⟩
  obtain ⟨st', hst', hcover⟩ := h.covers st hst
  obtain ⟨st'', hst'', hcover'⟩ := h'.covers st' hst'
  exact ⟨st'', hst'', hcover.trans hcover'⟩

theorem joins_joinAt {n i : Nat} {pool : List IdxST} (hn : ∀ st ∈ pool, st.waypoints.length = n)
    (hi : i < n) : Joins n pool (joinAt pool i) := by
  have hinv := joinSets_inv hn hi
  have hlt (e : List (OrdSet Idx) × OrdSet Idx) (he : e ∈ (joinSets i pool).entries) :
      i ≤ e.1.length := by
    have := hinv.keys e he
    omega
  refine ⟨fun st hst => ?_, fun st hst => ?_, ?_, ?_⟩
  · obtain ⟨e, he, rfl⟩ := List.mem_map.mp hst
    rw [List.length_insertIdx_of_le_length (hlt e he)]
    exact hinv.keys e he
  · obtain ⟨S, hfind, hS⟩ := hinv.covers st hst
    have hi' : i < st.waypoints.length := (hn st hst).symm ▸ hi
    refine ⟨_, List.mem_map.mpr ⟨_, OrdMap.find?_eq_some.mp hfind, rfl⟩, ?_⟩
    rw [Covers, List.insertIdx_eraseIdx_self hi'.ne]
    exact covers_set hS
  · rintro u ⟨st, hst, S, hS, hu⟩
    obtain ⟨e, he, rfl⟩ := List.mem_map.mp hst
    exact hinv.nodes e he S ((List.perm_insertIdx e.2 e.1 (hlt e he)).mem_iff.mp hS) u hu
  · have hlen : (joinAt pool i).length = (joinSets i pool).entries.length := by simp [joinAt]
    have hsize : stsSize (joinAt pool i) = setsSize (joinSets i pool).entries := by
      simp only [stsSize, joinAt, setsSize, List.map_map]
      refine congrArg List.sum (List.map_congr_left fun e he => ?_)
      simp only [Function.comp_apply, size_insertIdx (hlt e he)]
    refine ⟨hlen ▸ hinv.length_le, ?_⟩
    rw [hsize, hlen]
    exact hinv.size_le

/-! ## Joining Pools -/

theorem joins_joinPool {n : Nat} {pool : List IdxST} (hn : ∀ st ∈ pool, st.waypoints.length = n) :
    Joins n pool (joinPool n pool) := by
  have key (k : Nat) (hk : k ≤ n) : Joins n pool ((List.range k).foldl joinAt pool) := by
    induction k with
    | zero => exact .refl hn
    | succ k ih =>
      have hjoins := ih (by omega)
      rw [List.range_succ, List.foldl_concat]
      exact hjoins.trans (joins_joinAt hjoins.lengths (by omega))
  exact key n le_rfl

/-- What holds after the STs `done` were sorted into pools. -/
structure PoolsInv (done : List IdxST) (pools : OrdMap Nat (List IdxST)) : Prop where
  perm : (pools.entries.flatMap Prod.snd).Perm done
  lengths : ∀ e ∈ pools.entries, ∀ st ∈ e.2, st.waypoints.length = e.1
  nonempty : ∀ e ∈ pools.entries, e.2 ≠ []

theorem PoolsInv.step {done : List IdxST} {pools : OrdMap Nat (List IdxST)} (st : IdxST)
    (h : PoolsInv done pools) : PoolsInv (done ++ [st]) (pools.insert st.waypoints.length
      ((pools.find? st.waypoints.length).getD [] ++ [st])) := by
  refine ⟨?_, fun e he st' hst' => ?_, fun e he => ?_⟩
  · have hperm' := (OrdMap.entries_insert_perm pools st.waypoints.length
      ((pools.find? st.waypoints.length).getD [] ++ [st])).flatMap_right Prod.snd
    refine hperm'.trans ?_
    rw [List.flatMap_cons]
    cases hfind : pools.find? st.waypoints.length with
    | none =>
      rw [OrdMap.erase_of_find?_none hfind]
      exact (h.perm.cons st).trans (List.perm_append_singleton st done).symm
    | some pool =>
      have hperm := ((OrdMap.entries_perm_of_find? hfind).flatMap_right Prod.snd).symm.trans h.perm
      rw [List.flatMap_cons] at hperm
      simp only [Option.getD_some, List.append_assoc]
      refine (List.perm_append_comm_assoc pool [st] _).trans ?_
      exact (hperm.cons st).trans (List.perm_append_singleton st done).symm
  · rcases OrdMap.mem_insert.mp he with rfl | ⟨-, he⟩
    · rcases List.mem_append.mp hst' with hst' | hst'
      · cases hfind : pools.find? st.waypoints.length with
        | none => simp [hfind] at hst'
        | some pool =>
          rw [hfind, Option.getD_some] at hst'
          exact h.lengths _ (OrdMap.find?_eq_some.mp hfind) st' hst'
      · rw [List.mem_singleton.mp hst']
    · exact h.lengths e he st' hst'
  · rcases OrdMap.mem_insert.mp he with rfl | ⟨-, he⟩
    · simp
    · exact h.nonempty e he

theorem pools_inv (sts : List IdxST) : PoolsInv sts (pools sts) := by
  induction sts using List.reverseRecOn with
  | nil => exact ⟨.nil, by simp [pools], by simp [pools]⟩
  | append_singleton sts st ih =>
    rw [pools, List.foldl_concat]
    exact ih.step st

theorem shrinks_flatMap {es : List (Nat × List IdxST)}
    (h : ∀ e ∈ es, Shrinks e.2 (joinPool e.1 e.2)) :
    Shrinks (es.flatMap Prod.snd) (es.flatMap fun e => joinPool e.1 e.2) := by
  induction es with
  | nil => exact .refl []
  | cons e es ih =>
    obtain ⟨he, hes⟩ := List.forall_mem_cons.mp h
    simp only [List.flatMap_cons]
    exact he.append (ih hes)

theorem refines_join (sts : List IdxST) :
    Refines (stsSubject G) sts (optimizeStsJoin sts G) := by
  have hpools := pools_inv sts
  have hjoins (e : Nat × List IdxST) (he : e ∈ (pools sts).entries) :=
    joins_joinPool (hpools.lengths e he)
  have hmem (e : Nat × List IdxST) (he : e ∈ (pools sts).entries) (st : IdxST) (hst : st ∈ e.2) :
      st ∈ sts := hpools.perm.mem_iff.mp (List.mem_flatMap.mpr ⟨e, he, hst⟩)
  have hshrink : Shrinks sts (optimizeStsJoin sts G).1 :=
    (Shrinks.of_perm hpools.perm.symm).trans (shrinks_flatMap fun e he => (hjoins e he).shrinks)
  -- the joined STs are as long as those of their pool
  have hlens : ∀ st ∈ (optimizeStsJoin sts G).1, ∃ st' ∈ sts,
      st.waypoints.length = st'.waypoints.length := by
    intro st hst
    obtain ⟨e, he, hst⟩ := List.mem_flatMap.mp hst
    obtain ⟨st₀, hst₀⟩ := List.exists_mem_of_ne_nil _ (hpools.nonempty e he)
    refine ⟨st₀, hmem e he st₀ hst₀, ?_⟩
    rw [(hjoins e he).lengths st hst, ← hpools.lengths e he st₀ hst₀]
  refine hshrink.refines of_decide_eq_true (fun h st hst => ?_) ?_ ?_ fun st hst => ?_
  · obtain ⟨st', hst', hlen⟩ := hlens st hst
    exact hlen ▸ h st' hst'
  · rintro C ⟨st, hst, hwalk⟩
    obtain ⟨e, he, hst⟩ := List.mem_flatMap.mp (hpools.perm.mem_iff.mpr hst)
    obtain ⟨st', hst', hcover⟩ := (hjoins e he).covers st hst
    exact ⟨st', List.mem_flatMap.mpr ⟨e, he, hst'⟩, hwalk.mono_sets hcover⟩
  · rintro u ⟨st, hst, hu⟩
    obtain ⟨e, he, hst⟩ := List.mem_flatMap.mp hst
    obtain ⟨st', hst', hu⟩ := (hjoins e he).nodes u ⟨st, hst, hu⟩
    exact ⟨st', hmem e he st' hst', hu⟩
  · obtain ⟨st', hst', hlen⟩ := hlens st hst
    exact ⟨st', hst', hlen.le⟩

end Rewrites

end Clou
