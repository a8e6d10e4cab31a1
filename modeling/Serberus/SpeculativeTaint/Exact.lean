-- SUMMARY: What the speculative taint analysis finds: chains of steps, less those that a store behind the layout order breaks.
import Serberus.SpeculativeTaint.Rounds

/-!
# What the Analysis Finds

Whatever the analysis reports is justified by a chain of steps. It reports every chain
whose stores come late enough in the layout: a store is in order for a load when no
instruction behind it brings the taint of that load to the stored value. A store with
everything that taints its value behind it never passes any taint on, because a value's
taint is then never new when the store is visited.
-/

namespace Clou.SpeculativeTaint

open Propagate (Marked Reliable anySite)

variable {ι : Type} [LinearOrder ι]

section Definitions

variable (O : Oracles ι) (F : IRFunction ι)

/-- `L` is a load of the function from an address that is not constant. -/
def IsNcal (L : ι) : Prop := ∃ I ∈ F.instructions, O.isNcal I = true ∧ I.id = L

/-- The analysis reports the chains of steps from loads that are not constant-address. -/
def Exact (T : TaintMap ι) : Prop := ∀ L i, T.Has L i ↔ IsNcal O F L ∧ Chain O F L i

/-- `J` brings the taint of `L` to `x`. -/
def Brings (L : ι) (J : Instruction ι) (x : ι) : Prop :=
  (O.isNcal J = true ∧ J.id = L ∧ x = L) ∨ ∃ w, Step O F J w x ∧ Chain O F L w

/-- Nothing listed behind `S` brings the taint of `L` to the value that `S` stores. -/
def InOrder (L : ι) (S : Instruction ι) : Prop :=
  ∀ pre post, F.instructions = pre ++ S :: post → ∀ x y, Step O F S x y →
    ∀ J ∈ post, ¬ Brings O F L J x

/-- Nothing listed before `S` brings any taint to the value that `S` stores. -/
def Late (S : Instruction ι) : Prop :=
  ∀ pre post, F.instructions = pre ++ S :: post → ∀ x y, Step O F S x y →
    ∀ J ∈ pre, ∀ L, IsNcal O F L → ¬ Brings O F L J x

def Instruction.IsStore (I : Instruction ι) : Prop := ∃ value ptr, I.kind = .store value ptr

/-- A chain of steps by instructions that satisfy `ok`. -/
def ChainOver (ok : Instruction ι → Prop) : ι → ι → Prop :=
  Relation.ReflTransGen fun x y => ∃ I ∈ F.instructions, ok I ∧ Step O F I x y

/-- Every chain can be replaced by one whose stores are in order for the load. -/
def Rerouted : Prop := ∀ L i, IsNcal O F L → Chain O F L i →
  ChainOver O F (fun I => I.IsStore → InOrder O F L I) L i

end Definitions

variable {O : Oracles ι} {F : IRFunction ι} {ndebug : Bool} {R : OrdMap ι (OrdSet ι)}

/-! ## Chains and Marks -/

theorem isNcal_iff {L : ι} : IsNcal O F L ↔ L ∈ ncals O F := mem_ncals.symm

theorem lowerBound_inj {L L' : ι} (hL : IsNcal O F L) (hL' : IsNcal O F L')
    (h : lowerBound (ncals O F) L = lowerBound (ncals O F) L') : L = L' := by
  have hfound := getElem?_ncals (isNcal_iff.mp hL)
  rw [h, getElem?_ncals (isNcal_iff.mp hL')] at hfound
  exact (Option.some.inj hfound).symm

/-- The marks that the sites justify are the chains from loads. -/
theorem marked_iff {ok : Instruction ι → Idx → Prop} {e : Idx} {i : ι} :
    Marked (sites O F) F.instructions ok e i ↔
      ∃ L, IsNcal O F L ∧ e = lowerBound (ncals O F) L ∧ ChainOver O F (ok · e) L i := by
  constructor
  · intro h
    induction h with
    | gen hI hgen =>
      obtain ⟨hncal, rfl, rfl⟩ := hgen
      exact ⟨_, ⟨_, hI, hncal, rfl⟩, rfl, .refl⟩
    | flow _ hI hok hstep ih =>
      obtain ⟨L, hL, he, hchain⟩ := ih
      exact ⟨L, hL, he, hchain.tail ⟨_, hI, hok, hstep⟩⟩
  · rintro ⟨L, ⟨I, hI, hncal, rfl⟩, rfl, hchain⟩
    induction hchain with
    | refl => exact .gen hI ⟨hncal, rfl, rfl⟩
    | tail _ hlast ih =>
      obtain ⟨J, hJ, hok, hstep⟩ := hlast
      exact .flow ih hJ hok hstep

theorem marked_iff_of_ncal {ok : Instruction ι → Idx → Prop} {L i : ι} (hL : IsNcal O F L) :
    Marked (sites O F) F.instructions ok (lowerBound (ncals O F) L) i ↔
      ChainOver O F (ok · (lowerBound (ncals O F) L)) L i := by
  rw [marked_iff]
  constructor
  · rintro ⟨L', hL', heq, hchain⟩
    obtain rfl := lowerBound_inj hL hL' heq
    exact hchain
  · exact fun hchain => ⟨L, hL, rfl, hchain⟩

omit [LinearOrder ι] in
theorem chainOver_any {L i : ι} (e : Idx) :
    ChainOver O F (anySite · e) L i ↔ Chain O F L i := by
  unfold ChainOver Chain anySite
  simp only [true_and]

omit [LinearOrder ι] in
/-- A chain only looks at the condition on instructions that take a step. -/
theorem chainOver_congr {ok ok' : Instruction ι → Prop} {L i : ι}
    (h : ∀ {I : Instruction ι} {x y : ι}, Step O F I x y → (ok I ↔ ok' I)) :
    ChainOver O F ok L i ↔ ChainOver O F ok' L i := by
  unfold ChainOver
  have hstep : (fun x y => ∃ I ∈ F.instructions, ok I ∧ Step O F I x y) =
      fun x y => ∃ I ∈ F.instructions, ok' I ∧ Step O F I x y := by
    funext x y
    exact propext (exists_congr fun I => and_congr_right fun _ => and_congr_left fun hI => h hI)
  rw [hstep]

theorem brings_iff {L x : ι} {J : Instruction ι} (hL : IsNcal O F L) (hJ : J ∈ F.instructions) :
    Propagate.Brings (sites O F) F.instructions J x (lowerBound (ncals O F) L) ↔
      Brings O F L J x := by
  unfold Propagate.Brings Brings
  refine or_congr ⟨?_, ?_⟩ (exists_congr fun w => and_congr_right fun _ => ?_)
  · rintro ⟨hncal, rfl, heq⟩
    have hid := lowerBound_inj hL ⟨J, hJ, hncal, rfl⟩ heq
    exact ⟨hncal, hid.symm, hid.symm⟩
  · rintro ⟨hncal, rfl, rfl⟩
    exact ⟨hncal, rfl, rfl⟩
  · rw [marked_iff_of_ncal hL, chainOver_any]

theorem inOrder_iff {L : ι} {S : Instruction ι} (hL : IsNcal O F L) :
    Propagate.InOrder (sites O F) F.instructions S (lowerBound (ncals O F) L) ↔
      InOrder O F L S := by
  unfold Propagate.InOrder InOrder
  refine forall₃_congr fun pre post hsplit => forall₃_congr fun x y _ => ?_
  refine forall₂_congr fun J hJ => not_congr (brings_iff hL ?_)
  rw [hsplit]
  exact List.mem_append_right _ (.tail _ hJ)

theorem brings_ncal {J : Instruction ι} {x : ι} {e : Idx} (hJ : J ∈ F.instructions)
    (h : Propagate.Brings (sites O F) F.instructions J x e) :
    ∃ L, IsNcal O F L ∧ e = lowerBound (ncals O F) L := by
  rcases h with ⟨hncal, -, rfl⟩ | ⟨w, -, hmarked⟩
  · exact ⟨J.id, ⟨J, hJ, hncal, rfl⟩, rfl⟩
  · obtain ⟨L, hL, he, -⟩ := marked_iff.mp hmarked
    exact ⟨L, hL, he⟩

theorem inOrder_of {S : Instruction ι} (h : ∀ L, IsNcal O F L → InOrder O F L S) (e : Idx) :
    Propagate.InOrder (sites O F) F.instructions S e := by
  intro pre post hsplit x y hstep J hJ hbrings
  have hJ' : J ∈ F.instructions := by simp [hsplit, hJ]
  obtain ⟨L, hL, rfl⟩ := brings_ncal hJ' hbrings
  exact (inOrder_iff hL).mpr (h L hL) pre post hsplit x y hstep J hJ hbrings

theorem late_of {S : Instruction ι} (h : Late O F S) :
    Propagate.Late (sites O F) F.instructions S := by
  intro pre post hsplit x y hstep J hJ e hbrings
  have hJ' : J ∈ F.instructions := by simp [hsplit, hJ]
  obtain ⟨L, hL, rfl⟩ := brings_ncal hJ' hbrings
  exact h pre post hsplit x y hstep J hJ L hL ((brings_iff hL hJ').mp hbrings)

/-- Reliable sites are the instructions other than stores, and the stores in order. -/
theorem chainOver_reliable {L i : ι} (hL : IsNcal O F L) :
    ChainOver O F (Reliable (sites O F) F.instructions · (lowerBound (ncals O F) L)) L i ↔
      ChainOver O F (fun I => I.IsStore → InOrder O F L I) L i := by
  have hok {I : Instruction ι} {x y : ι} (hstep : Step O F I x y) :
      Reliable (sites O F) F.instructions I (lowerBound (ncals O F) L) ↔
        (I.IsStore → InOrder O F L I) := by
    unfold Reliable
    rw [inOrder_iff hL]
    refine imp_congr_left ⟨fun ⟨value, ptr, h⟩ => ⟨_, ptr, h⟩, ?_⟩
    rintro ⟨value, ptr, hstore⟩
    cases hstep with
    | stored => exact ⟨_, _, rfl⟩
    | _ => cases hstore
  exact chainOver_congr hok

/-! ## Back to Loads -/

theorem mem_of_idxToNcal {es : List Idx} {Ls : List ι}
    (h : List.Forall₂ (fun e L => idxToNcal ndebug (ncals O F) e = .ok L) es Ls) {L : ι} :
    L ∈ Ls ↔ ∃ e ∈ es, (ncals O F)[e]? = some L := by
  induction h with
  | nil => simp
  | @cons e L' es Ls he _ ih =>
    have hfound := elementAt_ok he
    simp [ih, hfound, eq_comm]

/-- The indices at each instruction become the loads at these indices. -/
theorem convert_ok {t : Taints ι} (ht : ∀ y, ∀ e ∈ t.marks y, e < (ncals O F).length) :
    ∃ T, t.entries.foldlM (convertEntry ndebug (ncals O F)) ∅ = .ok T ∧
      ∀ L i, T.Has L i ↔ ∃ e ∈ t.get i, (ncals O F)[e]? = some L := by
  let P (done : List (ι × OrdSet Idx)) (T : TaintMap ι) : Prop :=
    (∀ d ∈ done, d ∈ t.entries) ∧
      ∀ L i, T.Has L i ↔ ∃ bits, (i, bits) ∈ done ∧ ∃ e ∈ bits, (ncals O F)[e]? = some L
  have hget {i : ι} {bits : OrdSet Idx} (h : (i, bits) ∈ t.entries) : t.get i = bits := by
    unfold Taints.get
    rw [OrdMap.find?_eq_some.mpr h]
    rfl
  have hstep (done : List (ι × OrdSet Idx)) (d : ι × OrdSet Idx) (T : TaintMap ι)
      (hd : d ∈ t.entries) (hT : P done T) :
      ∃ T', convertEntry ndebug (ncals O F) T d = .ok T' ∧ P (done ++ [d]) T' := by
    obtain ⟨i, bits⟩ := d
    obtain ⟨hdone, hT⟩ := hT
    have hfound (e : Idx) (he : e ∈ bits.toList) :
        ∃ L, idxToNcal ndebug (ncals O F) e = .ok L := by
      have hlt := ht i e (by rw [Taints.mem_marks, hget hd]; exact he)
      exact ⟨_, elementAt_of (List.getElem?_eq_getElem hlt)⟩
    obtain ⟨orgs, horgs⟩ := Exec.mapM_returns hfound
    have hmem (L : ι) : L ∈ orgs ↔ ∃ e ∈ bits, (ncals O F)[e]? = some L :=
      mem_of_idxToNcal (Exec.mapM_eq_ok horgs)
    refine ⟨T.insert i (.ofList orgs), by simp only [convertEntry, horgs]; rfl, ?_, fun L j => ?_⟩
    · exact fun d' hd' => (List.mem_append.mp hd').elim (hdone d') fun h =>
        List.mem_singleton.mp h ▸ hd
    · have hinsert : TaintMap.Has (T.insert i (.ofList orgs)) L j ↔
          if j = i then ∃ e ∈ bits, (ncals O F)[e]? = some L else T.Has L j := by
        unfold TaintMap.Has
        rw [OrdMap.find?_insert]
        split_ifs
        · simp [hmem]
        · rfl
      rw [hinsert]
      split_ifs with hij
      · subst hij
        refine ⟨fun h => ⟨bits, by simp, h⟩, ?_⟩
        rintro ⟨bits', hin, h⟩
        obtain rfl : bits' = bits := by
          rcases List.mem_append.mp hin with hin | hin
          · exact OrdMap.val_unique (hdone _ hin) hd
          · exact (Prod.mk.inj (List.mem_singleton.mp hin)).2
        exact h
      · rw [hT]
        simp [hij]
  obtain ⟨T, hret, -, hT⟩ := Exec.foldlM_returns hstep (a := ∅) ⟨by simp, by simp [TaintMap.Has]⟩
  refine ⟨T, hret, fun L i => (hT L i).trans ⟨?_, ?_⟩⟩
  · rintro ⟨bits, hentry, e, he, hL⟩
    exact ⟨e, hget hentry ▸ he, hL⟩
  · rintro ⟨e, he, hL⟩
    have hk : i ∈ t.keys := by
      by_contra hk
      rw [Taints.get_of_not_mem_keys hk] at he
      exact absurd he (OrdSet.not_mem_empty e)
    obtain ⟨bits, hentry⟩ := OrdMap.mem_keys.mp hk
    exact ⟨bits, hentry, e, hget hentry ▸ he, hL⟩

/-! ## The Result -/

/-- Between rounds, the marks are those of reliable chains if every store is in order or
late. -/
def ReliableMarks (O : Oracles ι) (F : IRFunction ι) (s : State ι) : Prop :=
  (∀ S ∈ F.instructions, S.IsStore → (∀ L, IsNcal O F L → InOrder O F L S) ∨ Late O F S) →
    ∀ y, ∀ e ∈ s.taints.marks y,
      Marked (sites O F) F.instructions (Reliable (sites O F) F.instructions) e y

theorem ReliableMarks.step {s s' : State ι} (h : ReliableMarks O F s)
    (hround : InRound O F s.taints F.instructions s') : ReliableMarks O F s' := by
  intro hstores
  refine hround.visits.sound_reliable (fun I hI htested => ?_) (h hstores)
  obtain ⟨value, ptr, hkind⟩ := htested
  exact (hstores I hI ⟨_, ptr, hkind⟩).imp inOrder_of late_of

/-- The last state of a run, and how its marks are the result. -/
structure Final (O : Oracles ι) (F : IRFunction ι) (s : State ι) (T : TaintMap ι) : Prop where
  inv : Inv O F s
  reliable : ReliableMarks O F s
  fixed : Propagate.Visits (sites O F) s.taints.marks F.instructions s.taints.marks s.taints.marks
  has_iff : ∀ L i, T.Has L i ↔ IsNcal O F L ∧ lowerBound (ncals O F) L ∈ s.taints.marks i

theorem runOnFunction_final (ndebug : Bool) (halias : ∀ p q, O.aliasResult p q ≠ .partialAlias)
    (hhandled : ∀ I ∈ F.instructions, I.Handled) :
    ∃ s T, Final O F s T ∧
      ∀ fuel ≥ (cellsOf O F).card + 1, runOnFunction ndebug O fuel F = .ok T := by
  obtain ⟨R, hrfs, hR⟩ := rfs_ok (F := F) halias
  obtain ⟨s, hs⟩ : ∃ s, ∀ fuel ≥ (cellsOf O F).card + 1,
      doWhile (round ndebug O F R) fuel ⟨∅, ∅⟩ = .ok s := rounds_return hR hhandled
  obtain ⟨⟨hinv, hreliable⟩, hfixed⟩ := last_round (P := fun s => Inv O F s ∧ ReliableMarks O F s)
    hR hhandled ⟨.init, fun _ y e he => absurd he (OrdSet.not_mem_empty e)⟩
    (fun s s' hs hround => ⟨hs.1.step hround, hs.2.step hround⟩) (hs _ le_rfl)
  obtain ⟨T, hconvert, hT⟩ :=
    @convert_ok _ _ O F ndebug _ fun y e he => marked_lt (hinv.sound y e he)
  refine ⟨s, T, ⟨hinv, hreliable, hfixed, fun L i => ?_⟩, fun fuel hfuel => ?_⟩
  · rw [hT]
    constructor
    · rintro ⟨e, he, hfound⟩
      obtain ⟨L', hL', heq, -⟩ := marked_iff.mp (hinv.sound i e he)
      rw [heq, getElem?_ncals (isNcal_iff.mp hL')] at hfound
      obtain rfl := Option.some.inj hfound
      exact ⟨hL', heq ▸ he⟩
    · rintro ⟨hL, he⟩
      exact ⟨_, he, getElem?_ncals (isNcal_iff.mp hL)⟩
  · unfold runOnFunction
    rw [hrfs]
    change (doWhile _ fuel _ >>= _) = _
    rw [hs fuel hfuel]
    exact hconvert

section Final

variable {s : State ι} {T : TaintMap ι} {L i : ι}

theorem Final.sound (h : Final O F s T) (hhas : T.Has L i) : IsNcal O F L ∧ Chain O F L i := by
  obtain ⟨hL, he⟩ := (h.has_iff L i).mp hhas
  exact ⟨hL, (chainOver_any _).mp ((marked_iff_of_ncal hL).mp (h.inv.sound i _ he))⟩

theorem Final.complete (h : Final O F s T) (hL : IsNcal O F L)
    (hchain : ChainOver O F (fun I => I.IsStore → InOrder O F L I) L i) : T.Has L i := by
  refine (h.has_iff L i).mpr ⟨hL, h.fixed.complete_of_fixed h.inv.closed ?_⟩
  exact (marked_iff_of_ncal hL).mpr ((chainOver_reliable hL).mpr hchain)

theorem Final.reliable_of (h : Final O F s T)
    (hstores : ∀ S ∈ F.instructions, S.IsStore →
      (∀ L, IsNcal O F L → InOrder O F L S) ∨ Late O F S) (hhas : T.Has L i) :
    ChainOver O F (fun I => I.IsStore → InOrder O F L I) L i := by
  obtain ⟨hL, he⟩ := (h.has_iff L i).mp hhas
  exact (chainOver_reliable hL).mp ((marked_iff_of_ncal hL).mp (h.reliable hstores i _ he))

end Final

/-- The analysis returns. What it reports is justified by chains; it reports all chains if
each has a way around the stores that are not in order, and only then where a store that
is not in order is late. -/
theorem runOnFunction_exact (ndebug : Bool) (O : Oracles ι) (F : IRFunction ι)
    (halias : ∀ p q, O.aliasResult p q ≠ .partialAlias)
    (hhandled : ∀ I ∈ F.instructions, I.Handled) :
    ∃ T, (∃ N, ∀ fuel ≥ N, runOnFunction ndebug O fuel F = .ok T) ∧
      (∀ L i, T.Has L i → IsNcal O F L ∧ Chain O F L i) ∧
      (Rerouted O F → Exact O F T) ∧
      ((∀ S ∈ F.instructions, S.IsStore → (∀ L, IsNcal O F L → InOrder O F L S) ∨ Late O F S) →
        (Exact O F T ↔ Rerouted O F)) := by
  obtain ⟨s, T, hfinal, hreturns⟩ := runOnFunction_final ndebug halias hhandled
  have henough (h : Rerouted O F) : Exact O F T := fun L i =>
    ⟨hfinal.sound, fun ⟨hL, hchain⟩ => hfinal.complete hL (h L i hL hchain)⟩
  refine ⟨T, ⟨_, hreturns⟩, fun L i => hfinal.sound, henough, fun hstores => ⟨?_, henough⟩⟩
  intro hexact L i hL hchain
  exact hfinal.reliable_of hstores ((hexact L i).mpr ⟨hL, hchain⟩)

/-! ## An Order in which the Load Comes First, and One in which It Does Not -/

/-- The instructions listed behind `S`. -/
def behind [DecidableEq ι] (F : IRFunction ι) (S : Instruction ι) : List (Instruction ι) :=
  (F.instructions.dropWhile fun I => decide (I.id ≠ S.id)).tail

theorem behind_eq {S : Instruction ι} {pre post : List (Instruction ι)}
    (h : F.instructions = pre ++ S :: post) : behind F S = post := by
  have hpre : ∀ I ∈ pre, I.id ≠ S.id := by
    have hnodup : (F.instructions.map (·.id)).Nodup := F.nodup
    rw [h, List.map_append, List.nodup_append] at hnodup
    exact fun I hI => hnodup.2.2 I.id (List.mem_map_of_mem hI) S.id (List.mem_map_of_mem (.head _))
  unfold behind
  rw [h, List.dropWhile_append_of_pos (by simpa using hpre), List.dropWhile_cons_of_neg (by simp)]
  rfl

/-- The entry block, and a block that loads from an address that is not constant. -/
def entryBlock : List (Instruction Nat) := [⟨0, .other true []⟩]

def loadBlock : List (Instruction Nat) := [⟨4, .load (.other 1)⟩, ⟨5, .other true []⟩]

/-- The loaded value is stored and read back. -/
def storeBlock : List (Instruction Nat) :=
  [⟨1, .store (.inst 4) (.other 0)⟩, ⟨2, .load (.other 0)⟩, ⟨3, .other true [.inst 2]⟩]

def oneAddress : Oracles Nat where
  isConstantAddress ptr := decide (ptr = .other 0)
  aliasResult _ _ := .mustAlias
  unsafeAA := false

/-- When the load comes first, what reads it back is reported. -/
theorem runOnFunction_exact_loadFirst : ∃ T, (∃ N, ∀ fuel ≥ N,
    runOnFunction false oneAddress fuel ⟨[entryBlock, loadBlock, storeBlock], by decide⟩ = .ok T) ∧
      T.Has 4 2 := by
  let F : IRFunction Nat := ⟨[entryBlock, loadBlock, storeBlock], by decide⟩
  obtain ⟨T, hreturns, -, hexact, -⟩ := runOnFunction_exact false oneAddress F
    (fun _ _ => by simp [oneAddress]) (by
      simp [F, IRFunction.instructions, entryBlock, loadBlock, storeBlock, Instruction.Handled])
  -- behind the store are a load from a constant address and a terminator
  have horder (L : Nat) (S : Instruction Nat) (hS : S.IsStore) (hmem : S ∈ F.instructions) :
      InOrder oneAddress F L S := by
    intro pre post hsplit x y hstep J hJ hbrings
    obtain ⟨value, ptr, hkind⟩ := hS
    have hS : S = ⟨1, .store (.inst 4) (.other 0)⟩ := by
      simp only [F, IRFunction.instructions, entryBlock, loadBlock, storeBlock, List.flatten_cons,
        List.flatten_nil, List.cons_append, List.nil_append, List.append_nil, List.mem_cons,
        List.not_mem_nil, or_false] at hmem
      rcases hmem with rfl | rfl | rfl | rfl | rfl | rfl <;> first | rfl | cases hkind
    subst hS
    have hpost : behind F ⟨1, .store (.inst 4) (.other 0)⟩ =
        [⟨2, .load (.other 0)⟩, ⟨3, .other true [.inst 2]⟩] := by decide
    rw [behind_eq hsplit] at hpost
    rw [hpost, List.mem_pair] at hJ
    rcases hbrings with ⟨hncal, -⟩ | ⟨w, hstep', -⟩
    · rcases hJ with rfl | rfl <;> cases hncal
    · rcases hJ with rfl | rfl <;> cases hstep'
  refine ⟨T, hreturns, (hexact fun L i _ hchain => ?_) 4 2 |>.mpr ⟨?_, ?_⟩⟩
  · induction hchain with
    | refl => exact .refl
    | tail _ hlast ih =>
      obtain ⟨I, hI, hstep⟩ := hlast
      exact ih.tail ⟨I, hI, fun hS => horder L I hS hI, hstep⟩
  · exact ⟨⟨4, .load (.other 1)⟩, by decide, by decide, rfl⟩
  · have hload : ⟨2, .load (.other 0)⟩ ∈ F.instructions := by decide
    exact .single ⟨⟨1, .store (.inst 4) (.other 0)⟩, by decide, .stored hload (by decide) trivial⟩

/-- More fuel does not change the result. -/
theorem runOnFunction_mono {fuel fuel' : Nat} {T : TaintMap ι} (hle : fuel ≤ fuel')
    (hret : runOnFunction ndebug O fuel F = .ok T) : runOnFunction ndebug O fuel' F = .ok T := by
  unfold runOnFunction at hret ⊢
  obtain ⟨R, hrfs, hret⟩ := Exec.bind_eq_ok.mp hret
  obtain ⟨s, hloop, hret⟩ := Exec.bind_eq_ok.mp hret
  exact Exec.bind_eq_ok.mpr ⟨R, hrfs, Exec.bind_eq_ok.mpr ⟨s, doWhile_mono hle hloop, hret⟩⟩

/-- Whatever the analysis returns comes from a last state. -/
theorem exists_final {fuel : Nat} {T : TaintMap ι}
    (halias : ∀ p q, O.aliasResult p q ≠ .partialAlias)
    (hhandled : ∀ I ∈ F.instructions, I.Handled)
    (hret : runOnFunction ndebug O fuel F = .ok T) : ∃ s, Final O F s T := by
  obtain ⟨s, T', hfinal, hreturns⟩ := runOnFunction_final ndebug halias hhandled
  have hmore := hreturns _ (Nat.le_add_left _ fuel)
  rw [runOnFunction_mono (Nat.le_add_right fuel _) hret] at hmore
  cases hmore
  exact ⟨s, hfinal⟩

/-- When the store comes first, it is not: the only taint that is found is the load's own. -/
theorem runOnFunction_storeFirst : ∃ T, (∃ N, ∀ fuel ≥ N,
    runOnFunction false oneAddress fuel ⟨[entryBlock, storeBlock, loadBlock], by decide⟩ = .ok T) ∧
      ¬ Exact oneAddress ⟨[entryBlock, storeBlock, loadBlock], by decide⟩ T := by
  let F : IRFunction Nat := ⟨[entryBlock, storeBlock, loadBlock], by decide⟩
  let T : TaintMap Nat := ⟨[(4, ⟨[4], by decide⟩)], by decide⟩
  have hret : runOnFunction false oneAddress 2 F = .ok T := by decide +kernel
  refine ⟨T, ⟨2, fun fuel hfuel => runOnFunction_mono hfuel hret⟩, fun hexact => ?_⟩
  have hncal : IsNcal oneAddress F 4 := ⟨⟨4, .load (.other 1)⟩, by decide, by decide, rfl⟩
  have hload : ⟨2, .load (.other 0)⟩ ∈ F.instructions := by decide
  have hchain : Chain oneAddress F 4 2 :=
    .single ⟨⟨1, .store (.inst 4) (.other 0)⟩, by decide, .stored hload (by decide) trivial⟩
  obtain ⟨orgs, horgs, -⟩ := (hexact 4 2).mpr ⟨hncal, hchain⟩
  have hnone : T.find? 2 = none := by decide
  rw [hnone] at horgs
  cases horgs

end Clou.SpeculativeTaint
