-- SUMMARY: The pairs that the pass collects are the ones that the modes ask for, and the collection returns.
import Serberus.Mitigation.Described

/-!
# Collected Pairs

Every step of the collection adds the pairs of its mode and no others, whatever sources it
has cached.
-/

open Relation

namespace Clou.Mitigation

open ControlFlow Leakage

/-! ## What a Step Adds -/

section Steps

/-- The sets of a pair. -/
def setsOf {ν : Type} [LinearOrder ν] (st : List (OrdSet ν)) : List (Set ν) :=
  st.map fun W => {u | u ∈ W}

theorem setsOf_injective {ν : Type} [LinearOrder ν] :
    Function.Injective (setsOf : List (OrdSet ν) → List (Set ν)) :=
  List.map_injective_iff.mpr fun _ _ h => OrdSet.ext fun u => iff_of_eq (congrFun h u)

variable {α β ν : Type} [DecidableEq β] [LinearOrder ν] {ndebug : Bool} {F : Function β ν}
  {A : Answers ν} {s s₁ s' : PassState ν} {P P' : List (Set ν) → Prop} {I : ν}

/-- What `get_sources` remembers is what the callee returns. -/
def PassState.Cached (ndebug : Bool) (F : Function β ν) (A : Answers ν) (s : PassState ν) : Prop :=
  ∀ I sources, s.sourcesMap.find? I = some sources →
    getSourcesForNCAAccess ndebug F A I = .ok sources

/-- Between `s` and `s'`, the pairs that `P` describes are added. -/
structure Adds (ndebug : Bool) (F : Function β ν) (A : Answers ν) (s s' : PassState ν)
    (P : List (Set ν) → Prop) : Prop where
  cached : s'.Cached ndebug F A
  sts : ∀ st, st ∈ s'.sts ↔ st ∈ s.sts ∨ P (setsOf st)

theorem Adds.nothing (hs : s.Cached ndebug F A) (hP : ∀ p, ¬ P p) : Adds ndebug F A s s P :=
  ⟨hs, fun _ => ⟨.inl, fun h => h.resolve_right (hP _)⟩⟩

theorem Adds.congr (h : Adds ndebug F A s s' P) (hP : ∀ p, P p ↔ P' p) :
    Adds ndebug F A s s' P' :=
  ⟨h.cached, fun st => (h.sts st).trans (or_congr_right (hP _))⟩

theorem Adds.trans (h : Adds ndebug F A s s₁ P) (h' : Adds ndebug F A s₁ s' P') :
    Adds ndebug F A s s' fun p => P p ∨ P' p :=
  ⟨h'.cached, fun st => by rw [h'.sts, h.sts, or_assoc]⟩

/-- `get_sources` adds no pairs. -/
theorem Adds.of_sts (h : Adds ndebug F A s₁ s' P) (hsts : s₁.sts = s.sts) :
    Adds ndebug F A s s' P :=
  ⟨h.cached, fun st => hsts ▸ h.sts st⟩

/-- A call of `add_st` adds its pair. -/
theorem adds_addST (p : List (Set ν)) (hs : s.Cached ndebug F A) {st : List (OrdSet ν)}
    (hst : List.Forall₂ (fun W S => ∀ u, u ∈ W ↔ u ∈ S) st p) :
    Adds ndebug F A s (s.addST st) (· = p) := by
  have hsets : setsOf st = p := by
    induction hst with
    | nil => rfl
    | cons hW _ ih => exact congrArg₂ List.cons (Set.ext hW) ih
  refine ⟨hs, fun st' => ?_⟩
  rw [PassState.addST, List.mem_append, List.mem_singleton, ← hsets, setsOf_injective.eq_iff]

/-- A loop adds what its rounds add. -/
theorem Adds.foldlM {f : PassState ν → α → Exec (PassState ν)} {P : α → List (Set ν) → Prop}
    {l : List α} (hstep : ∀ b ∈ l, ∀ s s', s.Cached ndebug F A → f s b = .ok s' →
      Adds ndebug F A s s' (P b)) (hs : s.Cached ndebug F A) (hret : l.foldlM f s = .ok s') :
    Adds ndebug F A s s' fun p => ∃ b ∈ l, P b p := by
  induction l generalizing s with
  | nil =>
    cases hret
    exact .nothing hs fun p h => by simp at h
  | cons b l ih =>
    obtain ⟨hb, hl⟩ := List.forall_mem_cons.mp hstep
    rw [List.foldlM_cons] at hret
    obtain ⟨s₁, hs₁, hret⟩ := Exec.bind_eq_ok.mp hret
    have hadds := hb s s₁ hs hs₁
    exact (hadds.trans (ih hl hadds.cached hret)).congr fun p =>
      (List.exists_mem_cons_iff (fun b => P b p) b l).symm

/-- A loop whose rounds cannot fail adds what its rounds add. -/
theorem Adds.foldl {f : PassState ν → α → PassState ν} {P : α → List (Set ν) → Prop} {l : List α}
    (hstep : ∀ b ∈ l, ∀ s, s.Cached ndebug F A → Adds ndebug F A s (f s b) (P b))
    (hs : s.Cached ndebug F A) : Adds ndebug F A s (l.foldl f s) fun p => ∃ b ∈ l, P b p := by
  refine Adds.foldlM (f := fun s b => pure (f s b)) (fun b hb s s' hs hret => ?_) hs
    (List.foldlM_pure ..)
  cases hret
  exact hstep b hb s hs

/-- What `get_sources` returns, from its map or not, are the sources. -/
theorem getSources_cached {sources : OrdSet ν} (hs : s.Cached ndebug F A)
    (hret : getSources ndebug F A s I = .ok (sources, s')) :
    s'.Cached ndebug F A ∧ s'.sts = s.sts ∧ ∀ J, J ∈ sources ↔ IsSource F A I J := by
  unfold getSources at hret
  cases hfind : s.sourcesMap.find? I with
  | some sources' =>
    rw [hfind] at hret
    cases hret
    exact ⟨hs, rfl, fun J => mem_getSourcesForNCAAccess (hs I sources hfind)⟩
  | none =>
    rw [hfind] at hret
    obtain ⟨sources', hsources, hret⟩ := Exec.bind_eq_ok.mp hret
    cases hret
    refine ⟨fun I' sources' hfind' => ?_, rfl, fun J => mem_getSourcesForNCAAccess hsources⟩
    rw [OrdMap.find?_insert] at hfind'
    split_ifs at hfind' with hI
    · cases hfind'
      rwa [hI]
    · exact hs I' sources' hfind'

end Steps

/-! ## The Modes -/

section Collect

variable {β ν : Type} [DecidableEq β] [LinearOrder ν] {ndebug : Bool} {o : Options} {m : Modes}
  {F : Function β ν} {A : Answers ν} {Q : Queries ν} {s s' : PassState ν}

theorem mem_single {I J : ν} : J ∈ OrdSet.ofList [I] ↔ J ∈ ({I} : Set ν) := by simp

theorem adds_addNcas {SI : ν} (hSI : SI ∈ F.cfg.instructions) (hs : s.Cached ndebug F A)
    (hret : addNcas ndebug o F A s SI = .ok s') :
    Adds ndebug F A s s' fun p =>
      (o.expandSTs = false ∧ p = [{SI}, {T | IsVulnerable F SI T}]) ∨
        (o.expandSTs = true ∧ p = [{J | IsSource F A SI J}, {SI}, {T | IsVulnerable F SI T}]) := by
  obtain ⟨xmits, hxmits, hret⟩ := Exec.bind_eq_ok.mp hret
  have hvulnerable (T : ν) := mem_vulnerable (T := T) hSI hxmits
  cases hexpand : o.expandSTs with
  | false =>
    simp only [hexpand, Bool.false_eq_true, if_false] at hret
    cases hret
    exact (adds_addST [{SI}, {T | IsVulnerable F SI T}] hs
      (.cons (fun _ => mem_single) (.cons hvulnerable .nil))).congr (by simp)
  | true =>
    simp only [hexpand, if_true] at hret
    obtain ⟨⟨sources, s₁⟩, hsources, hret⟩ := Exec.bind_eq_ok.mp hret
    cases hret
    obtain ⟨hs₁, hsts, hmem⟩ := getSources_cached hs hsources
    exact ((adds_addST [{J | IsSource F A SI J}, {SI}, {T | IsVulnerable F SI T}] hs₁
      (.cons hmem (.cons (fun _ => mem_single) (.cons hvulnerable .nil)))).of_sts hsts).congr
        (by simp)

theorem adds_addNcal {xmit ncal : ν} (hs : s.Cached ndebug F A)
    (hret : addNcal ndebug o F A xmit s ncal = .ok s') :
    Adds ndebug F A s s' fun p =>
      ((o.expandSTs = false ∨ ncal = F.cfg.first) ∧ p = [{ncal}, {xmit}]) ∨
        (o.expandSTs = true ∧ ncal ≠ F.cfg.first ∧
          p = [{J | IsSource F A ncal J}, {ncal}, {xmit}]) := by
  unfold addNcal at hret
  by_cases hplain : o.expandSTs = false ∨ ncal = F.cfg.first
  · rw [if_pos (by simpa using hplain)] at hret
    cases hret
    have hnot : ¬ (o.expandSTs = true ∧ ncal ≠ F.cfg.first) := by
      rintro ⟨hexpand, hne⟩
      exact hplain.elim (by simp [hexpand]) hne
    refine (adds_addST [{ncal}, {xmit}] hs
      (.cons (fun _ => mem_single) (.cons (fun _ => mem_single) .nil))).congr fun p => ?_
    simp only [hplain, true_and, ← and_assoc, hnot, false_and, or_false]
  · rw [if_neg (by simpa using hplain)] at hret
    obtain ⟨⟨sources, s₁⟩, hsources, hret⟩ := Exec.bind_eq_ok.mp hret
    cases hret
    obtain ⟨hs₁, hsts, hmem⟩ := getSources_cached hs hsources
    obtain ⟨hexpand, hne⟩ : o.expandSTs = true ∧ ncal ≠ F.cfg.first := by simpa using hplain
    exact ((adds_addST [{J | IsSource F A ncal J}, {ncal}, {xmit}] hs₁
      (.cons hmem (.cons (fun _ => mem_single) (.cons (fun _ => mem_single) .nil)))).of_sts
        hsts).congr (by simp [hexpand, hne])

theorem adds_addNcasXmit {stores : SecretStores ν}
    (hstores : getNonConstantAddressSecretStores F A = .ok stores) (hs : s.Cached ndebug F A)
    (hret : addNcasXmit ndebug o F A stores s = .ok s') :
    Adds ndebug F A s s' fun p => o.ncasXmit = true ∧ ∃ i ∈ F.ir.instructions, IsNcas F o A i ∧
      ((o.expandSTs = false ∧ p = [{i.id}, {T | IsVulnerable F i.id T}]) ∨
        (o.expandSTs = true ∧
          p = [{J | IsSource F A i.id J}, {i.id}, {T | IsVulnerable F i.id T}])) := by
  unfold addNcasXmit at hret
  cases hmode : o.ncasXmit with
  | false =>
    simp only [hmode, Bool.false_eq_true, if_false] at hret
    cases hret
    exact .nothing hs (by simp)
  | true =>
    simp only [hmode, if_true] at hret
    have hadds := Adds.foldlM (fun SI hSI s s' hs hret => by
      obtain ⟨i, hi, hid, -⟩ := (mem_ncas hstores).mp hSI
      exact adds_addNcas (Function.mem_instructions.mpr ⟨i, hi, hid⟩) hs hret) hs hret
    refine hadds.congr fun p => ⟨?_, ?_⟩
    · rintro ⟨SI, hSI, hp⟩
      obtain ⟨i, hi, rfl, hncas⟩ := (mem_ncas hstores).mp hSI
      exact ⟨rfl, i, hi, hncas, hp⟩
    · rintro ⟨-, i, hi, hncas, hp⟩
      exact ⟨i.id, (mem_ncas hstores).mpr ⟨i, hi, rfl, hncas⟩, hp⟩

theorem adds_addNcasCtrl {stores : SecretStores ν}
    (hstores : getNonConstantAddressSecretStores F A = .ok stores) (hs : s.Cached ndebug F A) :
    Adds ndebug F A s (addNcasCtrl F A o m stores s) fun p => m.ncasCtrl = true ∧
      p = [{I | ∃ i ∈ F.ir.instructions, i.id = I ∧ IsNcas F o A i},
        {C | ∃ c ∈ F.ir.instructions, c.id = C ∧ isCtrl F A c = true}] := by
  unfold addNcasCtrl
  cases hmode : m.ncasCtrl with
  | false => exact .nothing hs (by simp)
  | true =>
    have hctrls (C : ν) :
        C ∈ getCtrls F A ↔ ∃ c ∈ F.ir.instructions, c.id = C ∧ isCtrl F A c = true := by
      simp [getCtrls, and_assoc, and_comm]
    exact (adds_addST [{I | ∃ i ∈ F.ir.instructions, i.id = I ∧ IsNcas F o A i},
      {C | ∃ c ∈ F.ir.instructions, c.id = C ∧ isCtrl F A c = true}] hs
        (.cons (fun _ => mem_ncas hstores) (.cons hctrls .nil))).congr (by simp)

theorem adds_addNcalXmit {transmitters : OrdMap ν (OrdSet ν)}
    (htransmitters : getTransmitters F A = .ok transmitters) (hs : s.Cached ndebug F A)
    (hret : addNcalXmit ndebug o F A transmitters s = .ok s') :
    Adds ndebug F A s s' fun p => o.ncalXmit = true ∧ ∃ T ∈ F.ir.instructions, ∃ L,
      Transmits F A T L ∧
        (((o.expandSTs = false ∨ L = F.cfg.first) ∧ p = [{L}, {T.id}]) ∨
          (o.expandSTs = true ∧ L ≠ F.cfg.first ∧
            p = [{J | IsSource F A L J}, {L}, {T.id}])) := by
  unfold addNcalXmit at hret
  cases hmode : o.ncalXmit with
  | false =>
    simp only [hmode, Bool.false_eq_true, if_false] at hret
    cases hret
    exact .nothing hs (by simp)
  | true =>
    simp only [hmode, if_true] at hret
    have hentry {xmit : ν} {ops : OrdSet ν} (h : (xmit, ops) ∈ transmitters.entries) (L : ν) :
        (∃ V ∈ ops.toList, ∃ orgs, A.taints.find? V = some orgs ∧ L ∈ orgs) ↔
          ∃ T ∈ F.ir.instructions, T.id = xmit ∧ Transmits F A T L := by
      have hops (V : ν) : V ∈ ops.toList ↔
          ∃ T ∈ F.ir.instructions, T.id = xmit ∧ Sensitive T V ∧ A.secret F V = true := by
        rw [← mem_getTransmitters htransmitters, operandsOf, OrdMap.find?_eq_some.mpr h]
        rfl
      constructor
      · rintro ⟨V, hV, horigin⟩
        obtain ⟨T, hT, hid, hsensitive, hsecret⟩ := (hops V).mp hV
        exact ⟨T, hT, hid, V, hsensitive, hsecret, horigin⟩
      · rintro ⟨T, hT, hid, V, hsensitive, hsecret, horigin⟩
        exact ⟨V, (hops V).mpr ⟨T, hT, hid, hsensitive, hsecret⟩, horigin⟩
    have hadds := Adds.foldlM (fun entry _ s s' hs hret => by
      obtain ⟨ncals, hncals, hret⟩ := Exec.bind_eq_ok.mp hret
      exact (Adds.foldlM (fun ncal _ s s' hs hret => adds_addNcal hs hret) hs hret).congr
        fun p => exists_congr fun L => and_congr_left fun _ => mem_origins hncals) hs hret
    refine hadds.congr fun p => ⟨?_, ?_⟩
    · rintro ⟨⟨xmit, ops⟩, hmem, L, hL, hp⟩
      obtain ⟨T, hT, rfl, hTL⟩ := (hentry hmem L).mp hL
      exact ⟨rfl, T, hT, L, hTL, hp⟩
    · rintro ⟨-, T, hT, L, hTL, hp⟩
      obtain ⟨V, hsensitive, hsecret, -⟩ := id hTL
      have hoperand := (mem_getTransmitters htransmitters).mpr ⟨T, hT, rfl, hsensitive, hsecret⟩
      unfold operandsOf at hoperand
      cases hfind : transmitters.find? T.id with
      | none => simp [hfind] at hoperand
      | some ops =>
        have hmem := OrdMap.find?_eq_some.mp hfind
        exact ⟨(T.id, ops), hmem, L, (hentry hmem L).mpr ⟨T, hT, rfl, hTL⟩, hp⟩

theorem adds_addGlobalStore {i : Instruction ν} (hs : s.Cached ndebug F Q.toAnswers)
    (hret : addGlobalStore F Q s i = .ok s') :
    Adds ndebug F Q.toAnswers s s' fun p => ∃ L, LeaksToGlobal F Q i L ∧ p = [{L}, {i.id}] := by
  have hnothing (h : ∀ L, ¬ LeaksToGlobal F Q i L) :
      Adds ndebug F Q.toAnswers s s fun p => ∃ L, LeaksToGlobal F Q i L ∧ p = [{L}, {i.id}] := by
    refine .nothing hs fun p hp => ?_
    obtain ⟨L, hL, -⟩ := hp
    exact h L hL
  unfold addGlobalStore at hret
  cases hkind : i.kind with
  | store SV ptr =>
    simp only [hkind] at hret
    have hleaks {L : ν} : LeaksToGlobal F Q i L ↔ Q.isConstantAddress ptr = true ∧
        (∀ W, IsBaseOf Q.addressKind ptr W → (Q.addressKind W).isGlobalVariable = true) ∧
        Q.nonspeculativelySecret SV = false ∧ Q.secret F SV = true ∧
        ∃ orgs, Q.taints.find? SV = some orgs ∧ L ∈ orgs := by
      unfold LeaksToGlobal
      constructor
      · rintro ⟨SV', ptr', hkind', hrest⟩
        cases hkind.symm.trans hkind'
        exact hrest
      · exact fun hrest => ⟨SV, ptr, hkind, hrest⟩
    by_cases hconst : Q.isConstantAddress ptr = true
    · rw [if_pos hconst] at hret
      obtain ⟨isGlobal, hglobal, hret⟩ := Exec.bind_eq_ok.mp hret
      obtain ⟨bases, hbases, hglobal⟩ := Exec.bind_eq_ok.mp hglobal
      cases hglobal
      have hall : (bases.all fun W => (Q.addressKind W).isGlobalVariable) = true ↔
          ∀ W, IsBaseOf Q.addressKind ptr W → (Q.addressKind W).isGlobalVariable = true := by
        simp only [List.all_eq_true, mem_getBaseAddresses hbases]
      split_ifs at hret with htest
      · simp only [Bool.and_eq_true, hall, Bool.not_eq_true'] at htest
        obtain ⟨⟨hglobal, hpub⟩, hsecret⟩ := htest
        cases hfind : Q.taints.find? SV with
        | none =>
          rw [hfind] at hret
          cases hret
        | some orgs =>
          rw [hfind] at hret
          cases hret
          refine (Adds.foldl (fun L _ s hs => adds_addST [{L}, {i.id}] hs
            (.cons (fun _ => mem_single) (.cons (fun _ => mem_single) .nil))) hs).congr fun p => ?_
          simp only [hleaks, hconst, hpub, hsecret, hfind, true_and, Option.some.injEq,
            exists_eq_left', OrdSet.mem_toList]
          exact exists_congr fun L => and_congr_left fun _ => ⟨fun hL => ⟨hglobal, hL⟩, And.right⟩
      · cases hret
        refine hnothing fun L hL => htest ?_
        obtain ⟨-, hglobal, hpub, hsecret, -⟩ := hleaks.mp hL
        simp [hall.mpr hglobal, hpub, hsecret]
    · rw [if_neg hconst] at hret
      cases hret
      exact hnothing fun L hL => hconst (hleaks.mp hL).1
  | _ =>
    simp only [hkind] at hret
    cases hret
    refine hnothing fun L hL => ?_
    obtain ⟨SV, ptr, hkind', -⟩ := hL
    cases hkind.symm.trans hkind'

theorem adds_addNcalGlob (hs : s.Cached ndebug F Q.toAnswers)
    (hret : addNcalGlob F Q m s = .ok s') :
    Adds ndebug F Q.toAnswers s s' fun p => m.ncalGlob = true ∧
      ∃ i ∈ F.ir.instructions, ∃ L, LeaksToGlobal F Q i L ∧ p = [{L}, {i.id}] := by
  unfold addNcalGlob at hret
  cases hmode : m.ncalGlob with
  | false =>
    simp only [hmode, Bool.false_eq_true, if_false] at hret
    cases hret
    exact .nothing hs (by simp)
  | true =>
    simp only [hmode, if_true] at hret
    exact (Adds.foldlM (fun i _ s s' hs hret => adds_addGlobalStore hs hret) hs hret).congr
      (by simp)

theorem adds_addEntryXmit (hs : s.Cached ndebug F A) (hret : addEntryXmit F A m s = .ok s') :
    Adds ndebug F A s s' fun p =>
      m.entryXmit = true ∧ p = [{F.cfg.first}, {T | IsEntryXmit F A T}] := by
  unfold addEntryXmit at hret
  cases hmode : m.entryXmit with
  | false =>
    simp only [hmode, Bool.false_eq_true, if_false] at hret
    cases hret
    exact .nothing hs (by simp)
  | true =>
    simp only [hmode, if_true] at hret
    obtain ⟨xmits, hxmits, hret⟩ := Exec.bind_eq_ok.mp hret
    cases hret
    exact (adds_addST [{F.cfg.first}, {T | IsEntryXmit F A T}] hs
      (.cons (fun _ => mem_single) (.cons (fun _ => mem_getEntryXmits hxmits) .nil))).congr
        (by simp)

theorem adds_addLoads {T : Instruction ν} (hs : s.Cached ndebug F A)
    (hret : addLoads F s T = .ok s') :
    Adds ndebug F A s s' (· = [{L | TransmitsLoad F T L}, {T.id}]) := by
  obtain ⟨ops, hops, hret⟩ := Exec.bind_eq_ok.mp hret
  obtain ⟨sources, hsources, hret⟩ := Exec.bind_eq_ok.mp hret
  cases hret
  have hmem (L : ν) : L ∈ sources ↔ TransmitsLoad F T L := by
    have hadds := Exec.foldlM_adds (P := (L ∈ ·)) (Q := fun op => LoadedFrom F op.V L)
      (fun op _ sources sources' hret => by
        obtain ⟨loads, hloads, hret⟩ := Exec.bind_eq_ok.mp hret
        cases hret
        rw [mem_insertAll, List.mem_filter, OrdSet.mem_toList, mem_loads hloads]) hsources
    rw [hadds]
    simp [TransmitsLoad, Sensitive, hops]
  exact adds_addST _ hs (.cons hmem (.cons (fun _ => mem_single) .nil))

theorem adds_addCalls (hs : s.Cached ndebug F A) (hret : addCalls F A s = .ok s') :
    Adds ndebug F A s s' (· = [{C | C ∈ F.cfg.instructions ∧ A.isFunctionCall F C = true},
      {T | ∃ t ∈ F.ir.instructions, t.id = T ∧ TransmitsNonConstant A t}]) := by
  obtain ⟨xmits, hxmits, hret⟩ := Exec.bind_eq_ok.mp hret
  cases hret
  refine adds_addST _ hs (.cons (fun C => ?_) (.cons (fun T => ?_) .nil))
  · simp [getCalls]
  · rw [mem_foldlM_addXmitIf (fun i b => transmitsNonConstant_iff) hxmits]
    simp only [OrdSet.not_mem_empty, false_or, Function.mem_instructions, Set.mem_ofPred_eq]
    refine ⟨And.right, ?_⟩
    rintro ⟨t, ht, hid, hxmit⟩
    exact ⟨⟨t, ht, hid⟩, t, ht, hid, hxmit⟩

theorem mem_getSourcesBefore {I J : ν} :
    J ∈ getSourcesBefore F I ↔ IsBefore F I J := by
  have hempty : (OrdSet.ofList (F.cfg.predecessors I)).isEmpty = true ↔
      ∀ K, ¬ F.cfg.Edge K I := by
    simp [OrdSet.isEmpty_iff, CFG.mem_predecessors]
  unfold getSourcesBefore IsBefore
  dsimp only
  split_ifs with h
  · have hnone := hempty.mp h
    simp [hnone]
  · simp [CFG.mem_predecessors, mt hempty.mpr h]

theorem adds_addBefore {l : List (Instruction ν)} (hs : s.Cached ndebug F A) :
    Adds ndebug F A s (l.foldl (addBefore F) s) fun p =>
      ∃ i ∈ l, p = [{J | IsBefore F i.id J}, {i.id}] :=
  Adds.foldl (fun _ _ _ hs => adds_addST _ hs
    (.cons (fun _ => mem_getSourcesBefore) (.cons (fun _ => mem_single) .nil))) hs

theorem adds_addLoadXmit (hs : s.Cached ndebug F Q.toAnswers)
    (hret : addLoadXmit F Q m s = .ok s') :
    Adds ndebug F Q.toAnswers s s' fun p => m.loadXmit = true ∧
      ((∃ T ∈ F.ir.instructions, p = [{L | TransmitsLoad F T L}, {T.id}]) ∨
        p = [{C | C ∈ F.cfg.instructions ∧ Q.isFunctionCall F C = true},
          {T | ∃ t ∈ F.ir.instructions, t.id = T ∧ TransmitsNonConstant Q.toAnswers t}] ∨
        ∃ i ∈ F.ir.instructions, (isReturn i = true ∨ Q.isOpenCall F i = true) ∧
          p = [{J | IsBefore F i.id J}, {i.id}]) := by
  unfold addLoadXmit at hret
  cases hmode : m.loadXmit with
  | false =>
    simp only [hmode, Bool.false_eq_true, if_false] at hret
    cases hret
    exact .nothing hs (by simp)
  | true =>
    simp only [hmode, if_true] at hret
    obtain ⟨s₁, hs₁, hret⟩ := Exec.bind_eq_ok.mp hret
    obtain ⟨s₂, hs₂, hret⟩ := Exec.bind_eq_ok.mp hret
    cases hret
    have hloads := Adds.foldlM (fun T _ s s' hs hret => adds_addLoads (T := T) hs hret) hs hs₁
    have hcalls := adds_addCalls hloads.cached hs₂
    have hrets := adds_addBefore (l := F.ir.instructions.filter isReturn) hcalls.cached
    have hopen := adds_addBefore (l := F.ir.instructions.filter (Q.isOpenCall F)) hrets.cached
    refine (hloads.trans (hcalls.trans (hrets.trans hopen))).congr fun p => ?_
    simp only [List.mem_filter, true_and]
    refine or_congr_right (or_congr_right ?_)
    simp only [and_assoc, ← exists_or, ← and_or_left, ← or_and_right]

theorem adds_addCallXmit (hs : s.Cached ndebug F A) (hret : addCallXmit F A m s = .ok s') :
    Adds ndebug F A s s' fun p => m.callXmit = true ∧
      p = [{C | C ∈ F.cfg.instructions ∧ A.isFunctionCall F C = true},
        {T | ∃ t ∈ F.ir.instructions, t.id = T ∧ TransmitsNonConstant A t}] := by
  unfold addCallXmit at hret
  cases hmode : m.callXmit with
  | false =>
    simp only [hmode, Bool.false_eq_true, if_false] at hret
    cases hret
    exact .nothing hs (by simp)
  | true =>
    simp only [hmode, if_true] at hret
    exact (adds_addCalls hs hret).congr (by simp)

/-- The pass collects the pairs that the modes ask for, and no others. -/
theorem mem_collectPairs (hret : collectPairs F ndebug o m Q = .ok s) {st : List (OrdSet ν)} :
    st ∈ s.sts ↔ IsPair F o m Q (setsOf st) := by
  obtain ⟨stores, hstores, hret⟩ := Exec.bind_eq_ok.mp hret
  obtain ⟨transmitters, htransmitters, hret⟩ := Exec.bind_eq_ok.mp hret
  obtain ⟨-, -, hret⟩ := Exec.bind_eq_ok.mp hret
  obtain ⟨s₁, hs₁, hret⟩ := Exec.bind_eq_ok.mp hret
  obtain ⟨s₂, hs₂, hret⟩ := Exec.bind_eq_ok.mp hret
  obtain ⟨s₃, hs₃, hret⟩ := Exec.bind_eq_ok.mp hret
  obtain ⟨s₄, hs₄, hret⟩ := Exec.bind_eq_ok.mp hret
  obtain ⟨s₅, hs₅, hret⟩ := Exec.bind_eq_ok.mp hret
  have hinit : PassState.Cached ndebug F Q.toAnswers ⟨∅, []⟩ := by
    intro I sources hfind
    cases hfind
  have hncas := adds_addNcasXmit hstores hinit hs₁
  have hctrl := adds_addNcasCtrl (o := o) (m := m) hstores hncas.cached
  have hncal := adds_addNcalXmit htransmitters hctrl.cached hs₂
  have hglob := adds_addNcalGlob hncal.cached hs₃
  have hentry := adds_addEntryXmit hglob.cached hs₄
  have hload := adds_addLoadXmit hentry.cached hs₅
  have hcall := adds_addCallXmit hload.cached hret
  have hall := hncas.trans (hctrl.trans (hncal.trans (hglob.trans (hentry.trans
    (hload.trans hcall)))))
  rw [hall.sts, or_iff_right List.not_mem_nil]
  constructor
  · rintro (⟨hmode, i, hi, hncas, ⟨hexpand, hp⟩ | ⟨hexpand, hp⟩⟩ | ⟨hmode, hp⟩ |
      ⟨hmode, T, hT, L, hL, ⟨hplain, hp⟩ | ⟨hexpand, hne, hp⟩⟩ | ⟨hmode, i, hi, L, hL, hp⟩ |
      ⟨hmode, hp⟩ | ⟨hmode, ⟨T, hT, hp⟩ | hp | ⟨i, hi, hleaves, hp⟩⟩ | ⟨hmode, hp⟩) <;> rw [hp]
    · exact .ncasXmit hmode hexpand hi hncas
    · exact .ncasXmitExpanded hmode hexpand hi hncas
    · exact .ncasCtrl hmode
    · exact .ncalXmit hmode hplain hT hL
    · exact .ncalXmitExpanded hmode hexpand hne hT hL
    · exact .ncalGlob hmode hi hL
    · exact .entryXmit hmode
    · exact .loadXmit hmode hT
    · exact .calls (.inl hmode)
    · exact .leaving hmode hi hleaves
    · exact .calls (.inr hmode)
  · generalize setsOf st = p
    intro hp
    cases hp with
    | ncasXmit hmode hexpand hi hncas => exact .inl ⟨hmode, _, hi, hncas, .inl ⟨hexpand, rfl⟩⟩
    | ncasXmitExpanded hmode hexpand hi hncas =>
      exact .inl ⟨hmode, _, hi, hncas, .inr ⟨hexpand, rfl⟩⟩
    | ncasCtrl hmode => exact .inr (.inl ⟨hmode, rfl⟩)
    | ncalXmit hmode hplain hT hL =>
      exact .inr (.inr (.inl ⟨hmode, _, hT, _, hL, .inl ⟨hplain, rfl⟩⟩))
    | ncalXmitExpanded hmode hexpand hne hT hL =>
      exact .inr (.inr (.inl ⟨hmode, _, hT, _, hL, .inr ⟨hexpand, hne, rfl⟩⟩))
    | ncalGlob hmode hi hleak => exact .inr (.inr (.inr (.inl ⟨hmode, _, hi, _, hleak, rfl⟩)))
    | entryXmit hmode => exact .inr (.inr (.inr (.inr (.inl ⟨hmode, rfl⟩))))
    | loadXmit hmode hT =>
      exact .inr (.inr (.inr (.inr (.inr (.inl ⟨hmode, .inl ⟨_, hT, rfl⟩⟩)))))
    | calls hmode =>
      rcases hmode with hmode | hmode
      · exact .inr (.inr (.inr (.inr (.inr (.inl ⟨hmode, .inr (.inl rfl)⟩)))))
      · exact .inr (.inr (.inr (.inr (.inr (.inr ⟨hmode, rfl⟩)))))
    | leaving hmode hi hleaves =>
      exact .inr (.inr (.inr (.inr (.inr (.inl ⟨hmode, .inr (.inr ⟨_, hi, hleaves, rfl⟩)⟩)))))

end Collect

/-! ## The Sets Are of the Function -/

section Over

variable {β ν : Type} [DecidableEq β] [LinearOrder ν] {o : Options} {m : Modes}
  {F : Function β ν} {Q : Queries ν}

/-- What the pass relies on of the passes before it: what taints an instruction are loads of
the function, and the operands that an instruction transmits are known. -/
structure Prepared (F : Function β ν) (Q : Queries ν) : Prop where
  origins : ∀ V orgs, Q.taints.find? V = some orgs → ∀ L ∈ orgs, isLoad F L = true
  handled : ∀ I ∈ F.ir.instructions, ∃ ops, getTransmitterSensitiveOperands I = .ok ops

/-- Two sets or more, of instructions of the function. -/
def Within (F : Function β ν) (p : List (Set ν)) : Prop :=
  2 ≤ p.length ∧ ∀ S ∈ p, ∀ u ∈ S, u ∈ F.cfg.instructions

omit [DecidableEq β] [LinearOrder ν] in
theorem within_pair {S T : Set ν} (hS : ∀ u ∈ S, u ∈ F.cfg.instructions)
    (hT : ∀ u ∈ T, u ∈ F.cfg.instructions) : Within F [S, T] :=
  ⟨le_rfl, by simpa using ⟨hS, hT⟩⟩

omit [DecidableEq β] [LinearOrder ν] in
theorem Within.cons {S : Set ν} {p : List (Set ν)} (hS : ∀ u ∈ S, u ∈ F.cfg.instructions)
    (hp : Within F p) : Within F (S :: p) :=
  ⟨hp.1.trans (Nat.le_succ _), List.forall_mem_cons.mpr ⟨hS, hp.2⟩⟩

/-- A pair has at least two sets, and they are sets of instructions of the function. -/
theorem IsPair.within (hQ : Prepared F Q) {p : List (Set ν)} (hp : IsPair F o m Q p) :
    Within F p := by
  have hsingle {i : Instruction ν} (hi : i ∈ F.ir.instructions) :
      ∀ u ∈ ({i.id} : Set ν), u ∈ F.cfg.instructions := by
    rintro u rfl
    exact Function.mem_instructions.mpr ⟨i, hi, rfl⟩
  have hsome {P : Instruction ν → Prop} :
      ∀ u ∈ {T | ∃ t ∈ F.ir.instructions, t.id = T ∧ P t}, u ∈ F.cfg.instructions := by
    rintro u ⟨t, ht, hid, -⟩
    exact Function.mem_instructions.mpr ⟨t, ht, hid⟩
  have hload {L : ν} (hL : isLoad F L = true) : L ∈ F.cfg.instructions := by
    obtain ⟨i, hi, hid, -⟩ := isLoad_iff.mp hL
    exact Function.mem_instructions.mpr ⟨i, hi, hid⟩
  have htainted {V L : ν} (h : ∃ orgs, Q.taints.find? V = some orgs ∧ L ∈ orgs) :
      ∀ u ∈ ({L} : Set ν), u ∈ F.cfg.instructions := by
    obtain ⟨orgs, hfind, hmem⟩ := h
    rintro u rfl
    exact hload (hQ.origins V orgs hfind _ hmem)
  have hsources {I : ν} : ∀ J ∈ {J | IsSource F Q.toAnswers I J}, J ∈ F.cfg.instructions := by
    rintro J ⟨hreach, -⟩
    obtain ⟨K, hedge, -⟩ := TransGen.head'_iff.mp hreach
    exact hedge.mem.1
  have hvulnerable {I : ν} : ∀ T ∈ {T | IsVulnerable F I T}, T ∈ F.cfg.instructions := by
    rintro T ⟨-, t, ht, hid, -⟩
    exact Function.mem_instructions.mpr ⟨t, ht, hid⟩
  cases hp with
  | ncasXmit _ _ hi => exact within_pair (hsingle hi) hvulnerable
  | ncasXmitExpanded _ _ hi => exact (within_pair (hsingle hi) hvulnerable).cons hsources
  | ncasCtrl => exact within_pair hsome hsome
  | ncalXmit _ _ hT hL =>
    obtain ⟨V, -, -, horigin⟩ := hL
    exact within_pair (htainted horigin) (hsingle hT)
  | ncalXmitExpanded _ _ _ hT hL =>
    obtain ⟨V, -, -, horigin⟩ := hL
    exact (within_pair (htainted horigin) (hsingle hT)).cons hsources
  | ncalGlob _ hi hleak =>
    obtain ⟨SV, ptr, -, -, -, -, -, horigin⟩ := hleak
    exact within_pair (htainted horigin) (hsingle hi)
  | entryXmit =>
    exact within_pair (fun u hu => hu ▸ CFG.first_mem) fun T ⟨t, ht, hid, _⟩ =>
      Function.mem_instructions.mpr ⟨t, ht, hid⟩
  | loadXmit _ hT => exact within_pair (fun L ⟨V, _, hL⟩ => hload hL.1) (hsingle hT)
  | calls => exact within_pair (fun C hC => hC.1) hsome
  | leaving _ hi =>
    refine within_pair (fun J hJ => ?_) (hsingle hi)
    rcases hJ with hedge | ⟨-, rfl⟩
    · exact hedge.mem.1
    · exact CFG.first_mem

end Over

/-! ## The Collection Returns -/

section Returns

variable {β ν : Type} [DecidableEq β] [LinearOrder ν] {ndebug : Bool} {o : Options} {m : Modes}
  {F : Function β ν} {Q : Queries ν}

/-- What the pass needs to get through: loads from addresses that are not constant are secret,
the accesses that it asks for the sources of meet the requirements, and the addresses of stores
have base addresses. -/
structure Ready (o : Options) (m : Modes) (F : Function β ν) (Q : Queries ν) : Prop
    extends Prepared F Q where
  secret : ∀ i ∈ F.ir.instructions, ∀ ptr isUnordered, i.kind = .load ptr isUnordered →
    Q.isConstantAddress ptr = false → Q.secret F i.id = true
  requests : o.expandSTs = true → ∀ I, Requested o F Q.toAnswers I → F.Requires I
  addresses : m.ncalGlob = true → ∀ i ∈ F.ir.instructions, ∀ SV ptr, i.kind = .store SV ptr →
    Q.isConstantAddress ptr = true → ∃ bases, getBaseAddresses Q.addressKind Q.depth ptr = .ok bases

/-- The answers as those of the passes before. -/
def Prepared.analysed (hQ : Prepared F Q) : Analysed F where
  toAnswers := Q.toAnswers
  origins V orgs hfind L hL := by
    obtain ⟨i, hi, hid, hkind⟩ := isLoad_iff.mp (hQ.origins V orgs hfind L hL)
    exact ⟨i, hi, hid, hkind⟩
  handled := hQ.handled

omit [DecidableEq β] in
theorem addXmitIf_returns {test : Instruction ν → Exec Bool}
    (htest : ∀ i ∈ F.ir.instructions, ∃ b, test i = .ok b) (V : ν) (xmits : OrdSet ν) :
    ∃ xmits', addXmitIf F test xmits V = .ok xmits' := by
  unfold addXmitIf
  cases hfind : F.ir.instruction? V with
  | none => exact ⟨xmits, rfl⟩
  | some i =>
    obtain ⟨b, hb⟩ := htest i (IRFunction.instruction?_eq_some.mp hfind).1
    exact Exec.bind_returns hb ⟨_, rfl⟩

omit [DecidableEq β] in
theorem transmitsNonConstant_returns (hQ : Prepared F Q) :
    ∀ i ∈ F.ir.instructions, ∃ b, transmitsNonConstant Q.toAnswers i = .ok b := fun i hi =>
  let ⟨_, hops⟩ := hQ.handled i hi
  Exec.bind_returns hops ⟨_, rfl⟩

omit [DecidableEq β] in
theorem addCalls_returns (hQ : Prepared F Q) (s : PassState ν) :
    ∃ s', addCalls F Q.toAnswers s = .ok s' :=
  let ⟨_, hxmits⟩ := Exec.foldlM_total
    (fun V _ xmits => addXmitIf_returns (transmitsNonConstant_returns hQ) V xmits) ∅
  Exec.bind_returns hxmits ⟨_, rfl⟩

omit [DecidableEq β] in
theorem addNcalGlob_returns (hready : Ready o m F Q) (s : PassState ν) :
    ∃ s', addNcalGlob F Q m s = .ok s' := by
  unfold addNcalGlob
  cases hmode : m.ncalGlob with
  | false => exact ⟨s, rfl⟩
  | true =>
    refine Exec.foldlM_total (fun i hi s => ?_) s
    unfold addGlobalStore
    cases hkind : i.kind with
    | store SV ptr =>
      dsimp only
      by_cases hconst : Q.isConstantAddress ptr = true
      · rw [if_pos hconst]
        obtain ⟨bases, hbases⟩ := hready.addresses hmode i hi SV ptr hkind hconst
        have hglobal : isGlobalAddress Q.addressKind Q.depth ptr =
            .ok (bases.all fun W => (Q.addressKind W).isGlobalVariable) :=
          Exec.bind_eq_ok.mpr ⟨bases, hbases, rfl⟩
        refine Exec.bind_returns hglobal ?_
        split_ifs with htest
        · have hsecret : Q.secret F SV = true := (Bool.and_eq_true_iff.mp htest).2
          cases hfind : Q.taints.find? SV with
          | none => simp [Answers.secret, hfind] at hsecret
          | some orgs => exact ⟨_, rfl⟩
        · exact ⟨s, rfl⟩
      · rw [if_neg hconst]
        exact ⟨s, rfl⟩
    | _ => exact ⟨s, rfl⟩

theorem addEntryXmit_returns (hQ : Prepared F Q) (s : PassState ν) :
    ∃ s', addEntryXmit F Q.toAnswers m s = .ok s' := by
  have hconstant : ∀ i ∈ F.ir.instructions, ∃ b, transmitsConstantLoad F Q.toAnswers i = .ok b := by
    intro i hi
    obtain ⟨ops, hops⟩ := hQ.handled i hi
    refine Exec.bind_returns hops (anyM_returns fun op _ => ?_)
    obtain ⟨loads, hloads⟩ := incomingLoads_returns F op.V
    exact Exec.bind_returns hloads ⟨_, rfl⟩
  unfold addEntryXmit
  cases m.entryXmit with
  | false => exact ⟨s, rfl⟩
  | true =>
    obtain ⟨preXmits, hpre⟩ := Exec.foldlM_total (l := preCall F Q.toAnswers)
      (fun V _ xmits => addXmitIf_returns hconstant V xmits) ∅
    obtain ⟨xmits, hpost⟩ := Exec.foldlM_total (l := postCall F)
      (fun V _ xmits => addXmitIf_returns (transmitsNonConstant_returns hQ) V xmits) preXmits
    exact Exec.bind_returns (Exec.bind_eq_ok.mpr ⟨preXmits, hpre, hpost⟩) ⟨_, rfl⟩

theorem addLoadXmit_returns (hQ : Prepared F Q) (s : PassState ν) :
    ∃ s', addLoadXmit F Q m s = .ok s' := by
  unfold addLoadXmit
  cases m.loadXmit with
  | false => exact ⟨s, rfl⟩
  | true =>
    obtain ⟨s₁, hs₁⟩ := Exec.foldlM_total (f := addLoads F) (l := F.ir.instructions)
      (fun T hT s => by
        obtain ⟨ops, hops⟩ := hQ.handled T hT
        obtain ⟨sources, hsources⟩ := Exec.foldlM_total (f := addLoadSources F) (l := ops)
          (fun op _ sources =>
            let ⟨_, hloads⟩ := incomingLoads_returns F op.V
            Exec.bind_returns hloads ⟨_, rfl⟩) ∅
        exact Exec.bind_returns hops (Exec.bind_returns hsources ⟨_, rfl⟩)) s
    obtain ⟨s₂, hs₂⟩ := addCalls_returns hQ s₁
    exact Exec.bind_returns hs₁ (Exec.bind_returns hs₂ ⟨_, rfl⟩)

omit [DecidableEq β] in
theorem checkLoad_ok (hready : Ready o m F Q) (ndebug : Bool) :
    F.ir.instructions.forM (checkLoad F Q.toAnswers ndebug) = .ok () := by
  refine Exec.forM_ok fun i hi => ?_
  unfold checkLoad
  cases hkind : i.kind with
  | load ptr isUnordered =>
    cases hconst : Q.isConstantAddress ptr with
    | true => simp [hconst, pure, Except.pure]
    | false => simp [hready.secret i hi ptr isUnordered hkind hconst, pure, Except.pure]
  | _ => rfl

theorem collectPairs_returns (hready : Ready o m F Q) (ndebug : Bool) :
    ∃ s, collectPairs F ndebug o m Q = .ok s := by
  have hQ := hready.toPrepared
  obtain ⟨stores, hstores⟩ := getNonConstantAddressSecretStores_returns F Q.toAnswers
  obtain ⟨transmitters, htransmitters⟩ := getTransmitters_returns hQ.analysed
  obtain ⟨s₁, hs₁⟩ := addNcasXmit_returns (A := hQ.analysed) ndebug hstores
    hready.requests ⟨∅, []⟩
  obtain ⟨s₂, hs₂⟩ := addNcalXmit_returns (A := hQ.analysed) ndebug htransmitters
    hready.requests (addNcasCtrl F Q.toAnswers o m stores s₁)
  obtain ⟨s₃, hs₃⟩ := addNcalGlob_returns hready s₂
  obtain ⟨s₄, hs₄⟩ := addEntryXmit_returns (m := m) hQ s₃
  obtain ⟨s₅, hs₅⟩ := addLoadXmit_returns (m := m) hQ s₄
  have hlast : ∃ s, addCallXmit F Q.toAnswers m s₅ = .ok s := by
    unfold addCallXmit
    cases m.callXmit with
    | false => exact ⟨s₅, rfl⟩
    | true => exact addCalls_returns hQ s₅
  exact Exec.bind_returns hstores (Exec.bind_returns htransmitters
    (Exec.bind_returns (checkLoad_ok hready ndebug) (Exec.bind_returns hs₁
      (Exec.bind_returns hs₂ (Exec.bind_returns hs₃ (Exec.bind_returns hs₄
        (Exec.bind_returns hs₅ hlast)))))))

omit [DecidableEq β] in
/-- Sets of instructions of the function are finite, so they can be collected. -/
theorem exists_setsOf {p : List (Set ν)} (hp : ∀ S ∈ p, ∀ u ∈ S, u ∈ F.cfg.instructions) :
    ∃ st, setsOf st = p := by
  classical
  refine ⟨p.map fun S => .ofList (F.cfg.instructions.filter (· ∈ S)), ?_⟩
  rw [setsOf, List.map_map]
  refine (List.map_congr_left fun S hS => Set.ext fun u => ?_).trans (List.map_id p)
  simpa using hp S hS u

/-- In every build the collection returns, and what it has collected are the pairs that the
enabled modes ask for. -/
theorem collectPairs_exact (ndebug : Bool) (o : Options) (m : Modes) (F : Function β ν)
    (Q : Queries ν) (hready : Ready o m F Q) :
    ∃ s, collectPairs F ndebug o m Q = .ok s ∧
      ∀ p, IsPair F o m Q p ↔ ∃ st ∈ s.sts, setsOf st = p := by
  obtain ⟨s, hret⟩ := collectPairs_returns hready ndebug
  refine ⟨s, hret, fun p => ⟨fun hp => ?_, ?_⟩⟩
  · obtain ⟨st, rfl⟩ := exists_setsOf (hp.within hready.toPrepared).2
    exact ⟨st, (mem_collectPairs hret).mpr hp, rfl⟩
  · rintro ⟨st, hst, rfl⟩
    exact (mem_collectPairs hret).mp hst

/-- A load from an address that the caller chooses, and a load from where that one points. -/
def gadget : Function Nat Instr where
  ir := {
    blocks := [[⟨⟨.op, 0⟩, false, false, .operation .cmp []⟩,
      ⟨⟨.op, 1⟩, false, false, .load ⟨.op, 9⟩ true⟩,
      ⟨⟨.op, 2⟩, false, false, .load ⟨.op, 1⟩ true⟩,
      ⟨⟨.ret, 3⟩, true, false, .ret none⟩]]
    args := [⟨.op, 9⟩]
    nodup := by decide }
  cfg := {
    entry := ⟨0, [⟨.op, 0⟩, ⟨.op, 1⟩, ⟨.op, 2⟩], ⟨.ret, 3⟩, []⟩
    rest := []
    labels_nodup := by decide
    instructions_nodup := by decide
    succs_mem := by decide
    entry_not_succ := by decide }
  agree := by decide

/-- No address is constant, and each load taints itself. -/
def gadgetQueries : Queries Instr where
  isConstantAddress _ := false
  isConstant _ := false
  nonspeculativelySecret _ := false
  taints := ((OrdMap.insert ⟨.op, 0⟩ ∅ ∅).insert ⟨.op, 1⟩ (.ofList [⟨.op, 1⟩])).insert ⟨.op, 2⟩
    (.ofList [⟨.op, 2⟩])
  mayLowerToFunctionCall _ := false
  memcpyInline := 0
  addressKind _ := .argument
  depth := 1
  calledFunction _ := none

theorem prepared_gadget : Prepared gadget gadgetQueries where
  origins V orgs hfind L hL := by
    simp only [gadgetQueries, OrdMap.find?_insert, OrdMap.find?_empty] at hfind
    split_ifs at hfind <;> cases hfind
    · obtain rfl := List.mem_singleton.mp (OrdSet.mem_ofList.mp hL)
      rfl
    · obtain rfl := List.mem_singleton.mp (OrdSet.mem_ofList.mp hL)
      rfl
    · cases hL
  handled i hi := by
    simp only [gadget, IRFunction.instructions, List.flatten_cons, List.flatten_nil,
      List.append_nil, List.mem_cons, List.not_mem_nil, or_false] at hi
    rcases hi with rfl | rfl | rfl | rfl <;> exact ⟨_, rfl⟩

/-- `ExpandSTs` is set, and `ncas_xmit` is not. -/
def gadgetOptions : Options := ⟨true, false, false, true⟩

def allModes : Modes := ⟨true, true, true, true, true⟩

theorem ready_gadget : Ready gadgetOptions allModes gadget gadgetQueries where
  toPrepared := prepared_gadget
  secret i hi ptr isUnordered hkind _ := by
    simp only [gadget, IRFunction.instructions, List.flatten_cons, List.flatten_nil,
      List.append_nil, List.mem_cons, List.not_mem_nil, or_false] at hi
    rcases hi with rfl | rfl | rfl | rfl <;> cases hkind <;> rfl
  requests _ I hI := by
    rcases hI with ⟨hmode, -⟩ | ⟨-, ⟨T, hT, V, hV, hsecret, orgs, hfind, hmem⟩, hne⟩
    · cases hmode
    · have hload := prepared_gadget.origins V orgs hfind I hmem
      obtain ⟨i, hi, rfl, -⟩ := isLoad_iff.mp hload
      simp only [gadget, IRFunction.instructions, List.flatten_cons, List.flatten_nil,
        List.append_nil, List.mem_cons, List.not_mem_nil, or_false] at hi
      have hfirst : gadget.cfg.Edge gadget.cfg.first ⟨.op, 1⟩ := by decide
      rcases hi with rfl | rfl | rfl | rfl
      · cases hload
      · exact ⟨hne, .single hfirst, _, rfl⟩
      · exact ⟨hne, .tail (.single hfirst) (by decide), _, rfl⟩
      · cases hload
  addresses _ i _ SV ptr _ hconst := by cases hconst

theorem collectPairs_exact_gadget :
    ∃ s, collectPairs gadget false gadgetOptions allModes gadgetQueries = .ok s ∧
      ∀ p, IsPair gadget gadgetOptions allModes gadgetQueries p ↔ ∃ st ∈ s.sts, setsOf st = p :=
  collectPairs_exact false gadgetOptions allModes gadget gadgetQueries ready_gadget

end Returns

end Clou.Mitigation
