-- SUMMARY: The accesses whose sources the pass asks for, and when all of them meet what the callee requires.
import Serberus.Mitigation.Sources

/-!
# Accesses

`MitigatePass::runOnFunction` asks for the sources of two kinds of accesses: secret stores
to addresses that are not constant, together with the inline memory copies, and the loads
that taint the operands of transmitters. For the loads it takes the first instruction of
the function apart; for the stores it does not. The other pairs that the pass collects need
no sources.
-/

open Relation

namespace Clou.Mitigation

open ControlFlow Leakage

structure Options where
  /-- `ExpandSTs` -/
  expandSTs : Bool
  /-- `NCASAll` -/
  ncasAll : Bool
  /-- `enabled.ncas_xmit` -/
  ncasXmit : Bool
  /-- `enabled.ncal_xmit` -/
  ncalXmit : Bool
  deriving DecidableEq

section Stores

variable {β ν : Type} [LinearOrder ν] (F : Function β ν) (A : Answers ν)

/-! ## Secret Stores -/

inductive StoreClass where
  | ntSec
  | tSec
  | pub
  deriving DecidableEq

/-- A load through this pointer. -/
def isLoadOf (ptr V : ν) : Bool :=
  match F.ir.instruction? V with
  | some ⟨_, _, _, .load p _⟩ => decide (p = ptr)
  | _ => false

/-- The loop over the incoming loads of a stored value, for `nt_sec` and `t_sec`. -/
def storeSecrets (ptr : ν) : List ν → Bool → Bool × Bool
  | [], tSec => (false, tSec)
  | V :: loads, tSec =>
    if isLoadOf F ptr V then storeSecrets ptr loads tSec
    else if A.nonspeculativelySecret V then (true, tSec)
    else storeSecrets ptr loads (tSec || A.secret F V)

/-- The set that an instruction is put into, `none` for none of them. -/
def classifyStore (I : Instruction ν) : Exec (Option StoreClass) :=
  match I.kind with
  | .store value ptr =>
    if A.isConstantAddress ptr || (F.ir.instruction? value).isNone then pure none
    else do
      let loads ← F.incomingLoads value
      let (ntSec, tSec) := storeSecrets F A ptr loads.toList false
      if ntSec && !A.nonspeculativelySecret value then pure none
      else if tSec && !A.secret F value then pure none
      else if ntSec then pure (some .ntSec)
      else if tSec then pure (some .tSec)
      else pure (some .pub)
  | _ => pure none

/-- `nca_nt_sec_stores`, `nca_t_sec_stores` and `nca_pub_stores`. -/
structure SecretStores (ν : Type) [LinearOrder ν] where
  ntSec : OrdSet ν
  tSec : OrdSet ν
  pub : OrdSet ν

def addStore (stores : SecretStores ν) (I : Instruction ν) : Exec (SecretStores ν) := do
  match ← classifyStore F A I with
  | none => pure stores
  | some .ntSec => pure { stores with ntSec := stores.ntSec.insert I.id }
  | some .tSec => pure { stores with tSec := stores.tSec.insert I.id }
  | some .pub => pure { stores with pub := stores.pub.insert I.id }

def getNonConstantAddressSecretStores : Exec (SecretStores ν) :=
  F.ir.instructions.foldlM (addStore F A) ⟨∅, ∅, ∅⟩

/-- The stores that `NCASAll` adds. -/
def Answers.isOtherStore (I : Instruction ν) : Bool :=
  match I.kind with
  | .store value ptr => !A.isConstantAddress ptr && !A.isConstant value
  | _ => false

/-- `isa<MemCpyInlineInst>` -/
def Answers.isMemCpyInlineInst (I : Instruction ν) : Bool :=
  match I.kind with
  | .intrinsic (.other (.unlisted n)) _ _ _ => decide (n = A.memcpyInline)
  | _ => false

def ncas (o : Options) (stores : SecretStores ν) : OrdSet ν :=
  let ncas := stores.ntSec.union stores.tSec
  let ncas := if o.ncasAll then
      insertAll ncas ((F.ir.instructions.filter A.isOtherStore).map (·.id))
    else ncas
  insertAll ncas ((F.ir.instructions.filter A.isMemCpyInlineInst).map (·.id))

/-! ## Transmitters -/

/-- `transmitters[xmit]` -/
def operandsOf (out : OrdMap ν (OrdSet ν)) (xmit : ν) : OrdSet ν := (out.find? xmit).getD ∅

def addTransmitterOperand (xmit : ν) (out : OrdMap ν (OrdSet ν)) (op : TransmitterOperand ν) :
    OrdMap ν (OrdSet ν) :=
  if A.secret F op.V then out.insert xmit ((operandsOf out xmit).insert op.V) else out

def addTransmitter (out : OrdMap ν (OrdSet ν)) (I : Instruction ν) :
    Exec (OrdMap ν (OrdSet ν)) := do
  let ops ← getTransmitterSensitiveOperands I
  pure (ops.foldl (addTransmitterOperand F A I.id) out)

def getTransmitters : Exec (OrdMap ν (OrdSet ν)) :=
  F.ir.instructions.foldlM (addTransmitter F A) ∅

/-- `isa<LoadInst>(V)` -/
def isLoad (V : ν) : Bool :=
  match F.ir.instruction? V with
  | some ⟨_, _, _, .load _ _⟩ => true
  | _ => false

/-- A transmitter of a value that is computed from one of the loads in `seen`. -/
def isVulnerable (seen : OrdSet ν) (I : Instruction ν) : Exec Bool := do
  let ops ← getTransmitterSensitiveOperands I
  ops.anyM fun op => do
    let loads ← F.incomingLoads op.V
    pure (loads.toList.any fun V => isLoad F V && decide (V ∈ seen))

def addVulnerable (seen xmits : OrdSet ν) (T : ν) : Exec (OrdSet ν) :=
  match F.ir.instruction? T with
  | some I => do
    let vulnerable ← isVulnerable F seen I
    pure (if vulnerable then xmits.insert T else xmits)
  | none => pure xmits

end Stores

/-! ## The Pass -/

section Pass

variable {β ν : Type} [DecidableEq β] [LinearOrder ν] (ndebug : Bool) (o : Options)
  (F : Function β ν) (A : Answers ν)

structure PassState (ν : Type) [LinearOrder ν] where
  /-- `sources_map` -/
  sourcesMap : OrdMap ν (OrdSet ν)
  /-- What `A.add_st` was called with. -/
  sts : List (List (OrdSet ν))

def PassState.addST (s : PassState ν) (st : List (OrdSet ν)) : PassState ν :=
  { s with sts := s.sts ++ [st] }

/-- `get_sources` -/
def getSources (s : PassState ν) (ncal : ν) : Exec (OrdSet ν × PassState ν) :=
  match s.sourcesMap.find? ncal with
  | some sources => pure (sources, s)
  | none => do
    let sources ← getSourcesForNCAAccess ndebug F A ncal
    pure (sources, { s with sourcesMap := s.sourcesMap.insert ncal sources })

/-- The instructions that an access may reach. -/
def Function.reached (I : ν) : OrdSet ν :=
  .ofList (Search.sweep F.cfg.successorsInst
    (1 + (F.cfg.instructions.map fun i => (F.cfg.successorsInst i).length).sum) [I] [])

/-- One store of the loop under `ncas_xmit`. -/
def addNcas (s : PassState ν) (SI : ν) : Exec (PassState ν) := do
  let seen := F.reached SI
  let xmits ← seen.toList.foldlM (addVulnerable F seen) ∅
  if o.expandSTs then do
    let (sources, s) ← getSources ndebug F A s SI
    pure (s.addST [sources, .ofList [SI], xmits])
  else pure (s.addST [.ofList [SI], xmits])

/-- One load of the inner loop under `ncal_xmit`. -/
def addNcal (xmit : ν) (s : PassState ν) (ncal : ν) : Exec (PassState ν) :=
  if !o.expandSTs || decide (ncal = F.cfg.first) then
    pure (s.addST [.ofList [ncal], .ofList [xmit]])
  else do
    let (sources, s) ← getSources ndebug F A s ncal
    pure (s.addST [sources, .ofList [ncal], .ofList [xmit]])

/-- `ST.taints.at(xmit_op)`, copied into `ncals`. -/
def addOrigins (ncals : OrdSet ν) (xmitOp : ν) : Exec (OrdSet ν) :=
  match A.taints.find? xmitOp with
  | some orgs => pure (insertAll ncals orgs.toList)
  | none => throw .outOfRange

/-- One transmitter of the loop under `ncal_xmit`. -/
def addXmit (s : PassState ν) (entry : ν × OrdSet ν) : Exec (PassState ν) := do
  let ncals ← entry.2.toList.foldlM (addOrigins A) ∅
  ncals.toList.foldlM (addNcal ndebug o F A entry.1) s

/-- `if (enabled.ncas_xmit) { … }` -/
def addNcasXmit (stores : SecretStores ν) (s : PassState ν) : Exec (PassState ν) :=
  if o.ncasXmit then (ncas F A o stores).toList.foldlM (addNcas ndebug o F A) s else pure s

/-- `if (enabled.ncal_xmit) { … }` -/
def addNcalXmit (transmitters : OrdMap ν (OrdSet ν)) (s : PassState ν) : Exec (PassState ν) :=
  if o.ncalXmit then transmitters.entries.foldlM (addXmit ndebug o F A) s else pure s

def runOnFunction : Exec (PassState ν) := do
  let stores ← getNonConstantAddressSecretStores F A
  let transmitters ← getTransmitters F A
  let s ← addNcasXmit ndebug o F A stores ⟨∅, []⟩
  addNcalXmit ndebug o F A transmitters s

end Pass

/-- The forward search finds what the access leads to, the access included. -/
theorem Function.mem_reached {β ν : Type} [DecidableEq β] [LinearOrder ν] {F : Function β ν}
    {I J : ν} (hI : I ∈ F.cfg.instructions) :
    J ∈ F.reached I ↔ ReflTransGen F.cfg.Edge I J := by
  have hnodup : F.cfg.instructions.Nodup := F.cfg.instructions_nodup
  have hclosed : ∀ u ∈ F.cfg.instructions.toFinset, ∀ v ∈ F.cfg.successorsInst u,
      v ∈ F.cfg.instructions.toFinset := fun u _ v hv =>
    List.mem_toFinset.mpr (CFG.mem_successorsInst.mp hv).mem.2
  have hstart : ∀ u ∈ [I], u ∈ F.cfg.instructions.toFinset := by simpa using hI
  have hfuel : [I].length + ∑ u ∈ F.cfg.instructions.toFinset, (F.cfg.successorsInst u).length ≤
      1 + (F.cfg.instructions.map fun i => (F.cfg.successorsInst i).length).sum := by
    rw [List.sum_toFinset _ hnodup, List.length_singleton]
  have hedge : (fun u v => v ∈ F.cfg.successorsInst u) = F.cfg.Edge := by
    funext u v
    exact propext CFG.mem_successorsInst
  rw [Function.reached, OrdSet.mem_ofList, Search.mem_sweep hclosed hstart hfuel, hedge]
  simp

/-! ## Requests -/

section Requests

variable {β ν : Type} [DecidableEq β] [LinearOrder ν] {ndebug : Bool} {o : Options}
  {F : Function β ν} {A : Answers ν} {I V ptr : ν} {s s' : PassState ν}

/-- A store that counts as an access. -/
def IsAccess (o : Options) (F : Function β ν) (A : Answers ν) (I : Instruction ν) : Prop :=
  classifyStore F A I = .ok (some .ntSec) ∨ classifyStore F A I = .ok (some .tSec) ∨
    o.ncasAll = true ∧ A.isOtherStore I = true

/-- The load taints a secret operand that the instruction transmits. -/
def Transmits (F : Function β ν) (A : Answers ν) (T : Instruction ν) (L : ν) : Prop :=
  ∃ V, Sensitive T V ∧ A.secret F V = true ∧ ∃ orgs, A.taints.find? V = some orgs ∧ L ∈ orgs

/-- The accesses that the pass asks for when it expands the pairs. -/
def Requested (o : Options) (F : Function β ν) (A : Answers ν) (I : ν) : Prop :=
  o.ncasXmit = true ∧
      (∃ i ∈ F.ir.instructions, i.id = I ∧ (IsAccess o F A i ∨ A.isMemCpyInlineInst i = true)) ∨
    o.ncalXmit = true ∧ (∃ T ∈ F.ir.instructions, Transmits F A T I) ∧ I ≠ F.cfg.first

omit [DecidableEq β] in
theorem mem_addStore {stores stores' : SecretStores ν} {i : Instruction ν}
    (hret : addStore F A stores i = .ok stores') :
    I ∈ stores'.ntSec.union stores'.tSec ↔ I ∈ stores.ntSec.union stores.tSec ∨
      i.id = I ∧ (classifyStore F A i = .ok (some .ntSec) ∨ classifyStore F A i = .ok (some .tSec)) := by
  unfold addStore at hret
  obtain ⟨cls, hcls, hret⟩ := Exec.bind_eq_ok.mp hret
  cases cls with
  | none =>
    cases hret
    simp [hcls]
  | some cls =>
    cases cls <;> cases hret <;> simp [hcls, eq_comm (a := I), or_comm, or_left_comm, or_assoc]

omit [DecidableEq β] in
/-- The accesses under `ncas_xmit`. -/
theorem mem_ncas {stores : SecretStores ν}
    (hret : getNonConstantAddressSecretStores F A = .ok stores) : I ∈ ncas F A o stores ↔
      ∃ i ∈ F.ir.instructions, i.id = I ∧ (IsAccess o F A i ∨ A.isMemCpyInlineInst i = true) := by
  have hstores := Exec.foldlM_adds (P := fun stores => I ∈ stores.ntSec.union stores.tSec)
    (fun _ _ _ _ => mem_addStore) hret
  have hother : I ∈ ncas F A o stores ↔ I ∈ stores.ntSec.union stores.tSec ∨
      (o.ncasAll = true ∧ ∃ i ∈ F.ir.instructions, A.isOtherStore i = true ∧ i.id = I) ∨
        ∃ i ∈ F.ir.instructions, A.isMemCpyInlineInst i = true ∧ i.id = I := by
    unfold ncas
    cases o.ncasAll <;> simp [or_assoc, and_assoc]
  rw [hother, hstores]
  simp only [IsAccess]
  constructor
  · rintro ((h | ⟨i, hi, hid, hcls⟩) | ⟨hall, i, hi, hother, hid⟩ | ⟨i, hi, hcpy, hid⟩)
    · simp at h
    · exact ⟨i, hi, hid, .inl (hcls.imp_right .inl)⟩
    · exact ⟨i, hi, hid, .inl (.inr (.inr ⟨hall, hother⟩))⟩
    · exact ⟨i, hi, hid, .inr hcpy⟩
  · rintro ⟨i, hi, hid, (hcls | hcls | ⟨hall, hother⟩) | hcpy⟩
    · exact .inl (.inr ⟨i, hi, hid, .inl hcls⟩)
    · exact .inl (.inr ⟨i, hi, hid, .inr hcls⟩)
    · exact .inr (.inl ⟨hall, i, hi, hother, hid⟩)
    · exact .inr (.inr ⟨i, hi, hcpy, hid⟩)

omit [DecidableEq β] in
theorem mem_addTransmitterOperand {xmit xmit' : ν} {out : OrdMap ν (OrdSet ν)}
    {op : TransmitterOperand ν} :
    V ∈ operandsOf (addTransmitterOperand F A xmit' out op) xmit ↔
      V ∈ operandsOf out xmit ∨ xmit = xmit' ∧ op.V = V ∧ A.secret F V = true := by
  unfold addTransmitterOperand
  by_cases hsecret : A.secret F op.V = true
  · rw [if_pos hsecret]
    have hinsert : operandsOf (out.insert xmit' ((operandsOf out xmit').insert op.V)) xmit =
        if xmit = xmit' then (operandsOf out xmit').insert op.V else operandsOf out xmit := by
      unfold operandsOf
      rw [OrdMap.find?_insert]
      split_ifs <;> rfl
    rw [hinsert]
    by_cases hxmit : xmit = xmit'
    · subst hxmit
      rw [if_pos rfl, OrdSet.mem_insert, or_comm]
      refine or_congr_right ⟨fun h => ⟨rfl, h.symm, h ▸ hsecret⟩, fun h => h.2.1.symm⟩
    · simp [hxmit]
  · rw [if_neg hsecret]
    refine ⟨.inl, fun h => h.resolve_right fun ⟨_, hop, hV⟩ => hsecret (hop ▸ hV)⟩

omit [DecidableEq β] in
theorem mem_addTransmitter {xmit : ν} {out out' : OrdMap ν (OrdSet ν)} {T : Instruction ν}
    (hret : addTransmitter F A out T = .ok out') :
    V ∈ operandsOf out' xmit ↔
      V ∈ operandsOf out xmit ∨ T.id = xmit ∧ Sensitive T V ∧ A.secret F V = true := by
  unfold addTransmitter at hret
  obtain ⟨ops, hops, hret⟩ := Exec.bind_eq_ok.mp hret
  cases hret
  have hfold (ops : List (TransmitterOperand ν)) (out : OrdMap ν (OrdSet ν)) :
      V ∈ operandsOf (ops.foldl (addTransmitterOperand F A T.id) out) xmit ↔
        V ∈ operandsOf out xmit ∨ xmit = T.id ∧ (∃ op ∈ ops, op.V = V) ∧ A.secret F V = true := by
    induction ops generalizing out with
    | nil => simp
    | cons op ops ih =>
      rw [List.foldl_cons, ih, mem_addTransmitterOperand, List.exists_mem_cons_iff]
      tauto
  rw [hfold, eq_comm (a := xmit)]
  refine or_congr_right (and_congr_right fun _ => and_congr_left fun _ => ?_)
  unfold Sensitive
  simp [hops]

omit [DecidableEq β] in
/-- The transmitters, each with the secret operands that it transmits. -/
theorem mem_getTransmitters {xmit : ν} {out : OrdMap ν (OrdSet ν)}
    (hret : getTransmitters F A = .ok out) : V ∈ operandsOf out xmit ↔
      ∃ T ∈ F.ir.instructions, T.id = xmit ∧ Sensitive T V ∧ A.secret F V = true := by
  have hadds := Exec.foldlM_adds (P := fun out => V ∈ operandsOf out xmit)
    (fun _ _ _ _ => mem_addTransmitter) hret
  rw [hadds]
  simp [operandsOf]

theorem mem_origins {ops : List ν} {ncals : OrdSet ν} {L : ν}
    (hret : ops.foldlM (addOrigins A) ∅ = .ok ncals) :
    L ∈ ncals ↔ ∃ V ∈ ops, ∃ orgs, A.taints.find? V = some orgs ∧ L ∈ orgs := by
  have hadds := Exec.foldlM_adds (P := (L ∈ ·))
    (Q := fun V => ∃ orgs, A.taints.find? V = some orgs ∧ L ∈ orgs) (fun V _ ncals ncals' hret => by
      unfold addOrigins at hret
      cases hfind : A.taints.find? V with
      | none =>
        rw [hfind] at hret
        cases hret
      | some orgs =>
        rw [hfind] at hret
        cases hret
        simp) hret
  simpa using hadds

/-- What `get_sources` is asked for, it has in its map from then on. -/
theorem getSources_keys {ncal : ν} {sources : OrdSet ν}
    (hret : getSources ndebug F A s ncal = .ok (sources, s')) :
    I ∈ s'.sourcesMap.keys ↔ I ∈ s.sourcesMap.keys ∨ I = ncal := by
  unfold getSources at hret
  cases hfind : s.sourcesMap.find? ncal with
  | some sources' =>
    rw [hfind] at hret
    cases hret
    have hmem : ncal ∈ s.sourcesMap.keys :=
      OrdMap.mem_keys.mpr ⟨_, OrdMap.find?_eq_some.mp hfind⟩
    exact ⟨.inl, fun h => h.elim id (· ▸ hmem)⟩
  | none =>
    rw [hfind] at hret
    obtain ⟨sources', -, hret⟩ := Exec.bind_eq_ok.mp hret
    cases hret
    rw [OrdMap.mem_keys_insert, or_comm]

theorem addNcas_keys {SI : ν} (hret : addNcas ndebug o F A s SI = .ok s') :
    I ∈ s'.sourcesMap.keys ↔ I ∈ s.sourcesMap.keys ∨ o.expandSTs = true ∧ SI = I := by
  unfold addNcas at hret
  obtain ⟨xmits, -, hret⟩ := Exec.bind_eq_ok.mp hret
  cases hexpand : o.expandSTs with
  | false =>
    simp only [hexpand, Bool.false_eq_true, if_false] at hret
    cases hret
    simp [PassState.addST]
  | true =>
    simp only [hexpand, if_true] at hret
    obtain ⟨⟨sources, s₁⟩, hsources, hret⟩ := Exec.bind_eq_ok.mp hret
    cases hret
    simpa [PassState.addST, eq_comm (a := SI)] using getSources_keys hsources

theorem addNcal_keys {xmit ncal : ν} (hret : addNcal ndebug o F A xmit s ncal = .ok s') :
    I ∈ s'.sourcesMap.keys ↔
      I ∈ s.sourcesMap.keys ∨ o.expandSTs = true ∧ ncal ≠ F.cfg.first ∧ ncal = I := by
  unfold addNcal at hret
  by_cases hskip : (!o.expandSTs || decide (ncal = F.cfg.first)) = true
  · rw [if_pos hskip] at hret
    cases hret
    have hnot : ¬ (o.expandSTs = true ∧ ncal ≠ F.cfg.first) := by
      rintro ⟨hexpand, hne⟩
      simp [hexpand, hne] at hskip
    simp only [PassState.addST]
    exact ⟨.inl, fun h => h.resolve_right fun h => hnot ⟨h.1, h.2.1⟩⟩
  · rw [if_neg hskip] at hret
    obtain ⟨⟨sources, s₁⟩, hsources, hret⟩ := Exec.bind_eq_ok.mp hret
    cases hret
    obtain ⟨hexpand, hne⟩ : o.expandSTs = true ∧ ncal ≠ F.cfg.first := by simpa using hskip
    simpa [PassState.addST, hexpand, hne, eq_comm (a := ncal)] using getSources_keys hsources

theorem addXmit_keys {entry : ν × OrdSet ν} (hret : addXmit ndebug o F A s entry = .ok s') :
    I ∈ s'.sourcesMap.keys ↔ I ∈ s.sourcesMap.keys ∨ o.expandSTs = true ∧ I ≠ F.cfg.first ∧
      ∃ V ∈ entry.2, ∃ orgs, A.taints.find? V = some orgs ∧ I ∈ orgs := by
  unfold addXmit at hret
  obtain ⟨ncals, hncals, hret⟩ := Exec.bind_eq_ok.mp hret
  have hadds := Exec.foldlM_adds (P := fun s => I ∈ s.sourcesMap.keys)
    (fun _ _ _ _ => addNcal_keys) hret
  rw [hadds]
  refine or_congr_right ⟨?_, ?_⟩
  · rintro ⟨_, hmem, hexpand, hne, rfl⟩
    exact ⟨hexpand, hne, (mem_origins hncals).mp hmem⟩
  · rintro ⟨hexpand, hne, horigin⟩
    exact ⟨I, (mem_origins hncals).mpr horigin, hexpand, hne, rfl⟩

theorem addNcasXmit_keys {stores : SecretStores ν}
    (hstores : getNonConstantAddressSecretStores F A = .ok stores)
    (hret : addNcasXmit ndebug o F A stores s = .ok s') :
    I ∈ s'.sourcesMap.keys ↔ I ∈ s.sourcesMap.keys ∨ o.expandSTs = true ∧ o.ncasXmit = true ∧
      ∃ i ∈ F.ir.instructions, i.id = I ∧ (IsAccess o F A i ∨ A.isMemCpyInlineInst i = true) := by
  unfold addNcasXmit at hret
  cases hncas : o.ncasXmit with
  | false =>
    simp only [hncas, Bool.false_eq_true, if_false] at hret
    cases hret
    simp
  | true =>
    simp only [hncas, if_true] at hret
    have hadds := Exec.foldlM_adds (P := fun s => I ∈ s.sourcesMap.keys)
      (fun _ _ _ _ => addNcas_keys) hret
    rw [hadds, ← mem_ncas hstores]
    simp [and_comm]

theorem addNcalXmit_keys {transmitters : OrdMap ν (OrdSet ν)}
    (htransmitters : getTransmitters F A = .ok transmitters)
    (hret : addNcalXmit ndebug o F A transmitters s = .ok s') :
    I ∈ s'.sourcesMap.keys ↔ I ∈ s.sourcesMap.keys ∨ o.expandSTs = true ∧ o.ncalXmit = true ∧
      (∃ T ∈ F.ir.instructions, Transmits F A T I) ∧ I ≠ F.cfg.first := by
  unfold addNcalXmit at hret
  cases hncal : o.ncalXmit with
  | false =>
    simp only [hncal, Bool.false_eq_true, if_false] at hret
    cases hret
    simp
  | true =>
    simp only [hncal, if_true] at hret
    have hadds := Exec.foldlM_adds (P := fun s => I ∈ s.sourcesMap.keys)
      (fun _ _ _ _ => addXmit_keys) hret
    rw [hadds]
    refine or_congr_right ⟨?_, ?_⟩
    · rintro ⟨⟨xmit, ops⟩, hentry, hexpand, hne, V, hV, horigin⟩
      have hoperand : V ∈ operandsOf transmitters xmit := by
        unfold operandsOf
        rwa [OrdMap.find?_eq_some.mpr hentry]
      obtain ⟨T, hT, -, hsensitive, hsecret⟩ := (mem_getTransmitters htransmitters).mp hoperand
      exact ⟨hexpand, rfl, ⟨T, hT, V, hsensitive, hsecret, horigin⟩, hne⟩
    · rintro ⟨hexpand, -, ⟨T, hT, V, hsensitive, hsecret, horigin⟩, hne⟩
      have hoperand := (mem_getTransmitters htransmitters).mpr ⟨T, hT, rfl, hsensitive, hsecret⟩
      unfold operandsOf at hoperand
      cases hfind : transmitters.find? T.id with
      | none => simp [hfind] at hoperand
      | some ops =>
        rw [hfind] at hoperand
        exact ⟨_, OrdMap.find?_eq_some.mp hfind, hexpand, hne, V, hoperand, horigin⟩

/-- A run asks for the requested accesses, and for no others. -/
theorem runOnFunction_keys (hret : runOnFunction ndebug o F A = .ok s) :
    I ∈ s.sourcesMap.keys ↔ o.expandSTs = true ∧ Requested o F A I := by
  unfold runOnFunction at hret
  obtain ⟨stores, hstores, hret⟩ := Exec.bind_eq_ok.mp hret
  obtain ⟨transmitters, htransmitters, hret⟩ := Exec.bind_eq_ok.mp hret
  obtain ⟨s₁, hs₁, hret⟩ := Exec.bind_eq_ok.mp hret
  rw [addNcalXmit_keys htransmitters hret, addNcasXmit_keys hstores hs₁, or_assoc, ← and_or_left]
  simp [OrdMap.keys, Requested]

end Requests

/-! ## When the Pass Returns -/

/-- What the passes before have found: what taints an instruction are loads, and the operands
that an instruction transmits are known for every instruction. -/
structure Analysed {β ν : Type} [LinearOrder ν] (F : Function β ν) extends Answers ν where
  origins : ∀ V orgs, taints.find? V = some orgs →
    ∀ L ∈ orgs, ∃ I ∈ F.ir.instructions, I.id = L ∧ ∃ ptr isUnordered, I.kind = .load ptr isUnordered
  handled : ∀ I ∈ F.ir.instructions, ∃ ops, getTransmitterSensitiveOperands I = .ok ops

section Returns

variable {β ν : Type} [DecidableEq β] [LinearOrder ν] {ndebug : Bool} {o : Options}
  {F : Function β ν} {I V : ν} {s : PassState ν}

omit [DecidableEq β] in
theorem incomingLoads_returns (F : Function β ν) (V : ν) : ∃ loads, F.incomingLoads V = .ok loads :=
  let ⟨loads, hret, _⟩ := getIncomingLoads_spec F.ir V le_rfl
  ⟨loads, hret⟩

omit [DecidableEq β] in
theorem getNonConstantAddressSecretStores_returns (F : Function β ν) (A : Answers ν) :
    ∃ stores, getNonConstantAddressSecretStores F A = .ok stores := by
  have hclassify (i : Instruction ν) : ∃ cls, classifyStore F A i = .ok cls := by
    unfold classifyStore
    split
    · split_ifs
      · exact ⟨none, rfl⟩
      · obtain ⟨loads, hloads⟩ := incomingLoads_returns F _
        refine Exec.bind_returns hloads ?_
        dsimp only
        split_ifs <;> exact ⟨_, rfl⟩
    · exact ⟨none, rfl⟩
  refine Exec.foldlM_total (fun i _ stores => ?_) _
  obtain ⟨cls, hcls⟩ := hclassify i
  refine Exec.bind_returns hcls ?_
  cases cls with
  | none => exact ⟨_, rfl⟩
  | some cls => cases cls <;> exact ⟨_, rfl⟩

theorem anyM_returns {α : Type} {p : α → Exec Bool} {l : List α} (hp : ∀ a ∈ l, ∃ b, p a = .ok b) :
    ∃ b, l.anyM p = .ok b := by
  induction l with
  | nil => exact ⟨false, rfl⟩
  | cons a l ih =>
    obtain ⟨⟨b, hb⟩, hl⟩ := List.forall_mem_cons.mp hp
    refine Exec.bind_returns hb ?_
    cases b with
    | true => exact ⟨true, rfl⟩
    | false => exact ih hl

variable {A : Analysed F}

omit [DecidableEq β] in
theorem addVulnerable_returns (A : Analysed F) (seen : OrdSet ν) (T : ν) (xmits : OrdSet ν) :
    ∃ xmits', addVulnerable F seen xmits T = .ok xmits' := by
  unfold addVulnerable
  cases hfind : F.ir.instruction? T with
  | none => exact ⟨xmits, rfl⟩
  | some i =>
    obtain ⟨ops, hops⟩ := A.handled i (IRFunction.instruction?_eq_some.mp hfind).1
    have hany : ∃ vulnerable, isVulnerable F seen i = .ok vulnerable :=
      Exec.bind_returns hops (anyM_returns fun op _ =>
        let ⟨_, hloads⟩ := incomingLoads_returns F op.V
        Exec.bind_returns hloads ⟨_, rfl⟩)
    obtain ⟨vulnerable, hvulnerable⟩ := hany
    exact Exec.bind_returns hvulnerable ⟨_, rfl⟩

omit [DecidableEq β] in
theorem getTransmitters_returns (A : Analysed F) :
    ∃ transmitters, getTransmitters F A.toAnswers = .ok transmitters :=
  Exec.foldlM_total (fun i hi _ =>
    let ⟨_, hops⟩ := A.handled i hi
    Exec.bind_returns hops ⟨_, rfl⟩) _

theorem getSources_returns {A : Answers ν} (h : F.Requires I) (s : PassState ν) :
    ∃ r, getSources ndebug F A s I = .ok r := by
  unfold getSources
  cases s.sourcesMap.find? I with
  | some sources => exact ⟨_, rfl⟩
  | none =>
    obtain ⟨sources, hret⟩ := getSourcesForNCAAccess_returns ndebug A h
    exact Exec.bind_returns hret ⟨_, rfl⟩

theorem addNcas_returns (h : o.expandSTs = true → F.Requires I) (s : PassState ν) :
    ∃ s', addNcas ndebug o F A.toAnswers s I = .ok s' := by
  obtain ⟨xmits, hxmits⟩ := Exec.foldlM_total
    (fun T _ xmits => addVulnerable_returns A (F.reached I) T xmits) ∅
  refine Exec.bind_returns hxmits ?_
  cases hexpand : o.expandSTs with
  | false => exact ⟨_, rfl⟩
  | true =>
    obtain ⟨r, hret⟩ := getSources_returns (h hexpand) s
    exact Exec.bind_returns hret ⟨_, rfl⟩

theorem addNcal_returns {A : Answers ν} {xmit : ν}
    (h : o.expandSTs = true → I ≠ F.cfg.first → F.Requires I) (s : PassState ν) :
    ∃ s', addNcal ndebug o F A xmit s I = .ok s' := by
  unfold addNcal
  by_cases hskip : (!o.expandSTs || decide (I = F.cfg.first)) = true
  · exact ⟨_, if_pos hskip⟩
  · rw [if_neg hskip]
    obtain ⟨hexpand, hne⟩ : o.expandSTs = true ∧ I ≠ F.cfg.first := by simpa using hskip
    obtain ⟨r, hret⟩ := getSources_returns (h hexpand hne) s
    exact Exec.bind_returns hret ⟨_, rfl⟩

theorem addNcasXmit_returns (ndebug : Bool) {stores : SecretStores ν}
    (hstores : getNonConstantAddressSecretStores F A.toAnswers = .ok stores)
    (h : o.expandSTs = true → ∀ I, Requested o F A.toAnswers I → F.Requires I) (s : PassState ν) :
    ∃ s', addNcasXmit ndebug o F A.toAnswers stores s = .ok s' := by
  unfold addNcasXmit
  cases hncas : o.ncasXmit with
  | false => exact ⟨s, rfl⟩
  | true =>
    refine Exec.foldlM_total (fun I hI s => addNcas_returns (fun hexpand => ?_) s) s
    exact h hexpand I (.inl ⟨hncas, (mem_ncas hstores).mp hI⟩)

theorem addNcalXmit_returns (ndebug : Bool) {transmitters : OrdMap ν (OrdSet ν)}
    (htransmitters : getTransmitters F A.toAnswers = .ok transmitters)
    (h : o.expandSTs = true → ∀ I, Requested o F A.toAnswers I → F.Requires I) (s : PassState ν) :
    ∃ s', addNcalXmit ndebug o F A.toAnswers transmitters s = .ok s' := by
  unfold addNcalXmit
  cases hncal : o.ncalXmit with
  | false => exact ⟨s, rfl⟩
  | true =>
    refine Exec.foldlM_total (fun entry hentry s => ?_) s
    have hops : ∀ V ∈ entry.2, ∃ T ∈ F.ir.instructions, T.id = entry.1 ∧ Sensitive T V ∧
        A.secret F V = true := fun V hV => (mem_getTransmitters htransmitters).mp (by
      unfold operandsOf
      rwa [OrdMap.find?_eq_some.mpr hentry])
    obtain ⟨ncals, hncals⟩ : ∃ ncals,
        entry.2.toList.foldlM (addOrigins A.toAnswers) ∅ = .ok ncals := by
      refine Exec.foldlM_total (fun V hV ncals => ?_) ∅
      obtain ⟨-, -, -, -, hsecret⟩ := hops V hV
      unfold addOrigins
      cases hfind : A.taints.find? V with
      | none => simp [Answers.secret, hfind] at hsecret
      | some orgs => exact ⟨_, rfl⟩
    refine Exec.bind_returns hncals (Exec.foldlM_total (fun I hI s => ?_) s)
    obtain ⟨V, hV, horigin⟩ := (mem_origins hncals).mp hI
    obtain ⟨T, hT, -, hsensitive, hsecret⟩ := hops V hV
    exact addNcal_returns (fun hexpand hne => h hexpand I
      (.inr ⟨hncal, ⟨T, hT, V, hsensitive, hsecret, horigin⟩, hne⟩)) s

/-- A run returns when every access that it asks for meets the requirements. -/
theorem runOnFunction_returns
    (h : o.expandSTs = true → ∀ I, Requested o F A.toAnswers I → F.Requires I) :
    ∃ s, runOnFunction ndebug o F A.toAnswers = .ok s := by
  obtain ⟨stores, hstores⟩ := getNonConstantAddressSecretStores_returns F A.toAnswers
  obtain ⟨transmitters, htransmitters⟩ := getTransmitters_returns A
  obtain ⟨s₁, hs₁⟩ := addNcasXmit_returns ndebug hstores h ⟨∅, []⟩
  exact Exec.bind_returns hstores (Exec.bind_returns htransmitters
    (Exec.bind_returns hs₁ (addNcalXmit_returns ndebug htransmitters h s₁)))

end Returns

/-! ## When the Requirements Are Met -/

section Requirements

variable {β ν : Type} [DecidableEq β] [LinearOrder ν] {o : Options} {F : Function β ν}
  {A : Answers ν} {i : Instruction ν}

/-- The accesses are as the callee expects them: no inline memory copies, no stores that are
the first instruction or that nothing leads to, and no loads that nothing leads to. -/
structure AccessesFit (o : Options) (F : Function β ν) (A : Answers ν) : Prop where
  memcpy : o.ncasXmit = true → ∀ i ∈ F.ir.instructions, A.isMemCpyInlineInst i = false
  store : o.ncasXmit = true → ∀ i ∈ F.ir.instructions, IsAccess o F A i →
    i.id ≠ F.cfg.first ∧ ReflTransGen F.cfg.Edge F.cfg.first i.id
  load : o.ncalXmit = true → ∀ T ∈ F.ir.instructions, ∀ L, Transmits F A T L →
    L ≠ F.cfg.first → ReflTransGen F.cfg.Edge F.cfg.first L

omit [DecidableEq β] in
theorem IsAccess.pointer (h : IsAccess o F A i) : ∃ ptr, getPointerOperand i = some ptr := by
  unfold IsAccess classifyStore Answers.isOtherStore at h
  unfold getPointerOperand
  cases hkind : i.kind with
  | store value ptr => exact ⟨ptr, rfl⟩
  | _ => simp [hkind, pure, Except.pure] at h

theorem not_pointer_of_memcpy (h : A.isMemCpyInlineInst i = true) : getPointerOperand i = none := by
  unfold Answers.isMemCpyInlineInst at h
  unfold getPointerOperand
  cases hkind : i.kind with
  | intrinsic => rfl
  | _ => simp [hkind] at h

omit [DecidableEq β] in
theorem requires_iff (hi : i ∈ F.ir.instructions) : F.Requires i.id ↔
    i.id ≠ F.cfg.first ∧ ReflTransGen F.cfg.Edge F.cfg.first i.id ∧
      ∃ ptr, getPointerOperand i = some ptr := by
  have hfind : F.ir.instruction? i.id = some i := IRFunction.instruction?_eq_some.mpr ⟨hi, rfl⟩
  constructor
  · rintro ⟨hne, hreach, hptr⟩
    rw [hfind] at hptr
    exact ⟨hne, hreach, hptr⟩
  · rintro ⟨hne, hreach, hptr⟩
    exact ⟨hne, hreach, by rwa [hfind]⟩

omit [DecidableEq β] in
/-- The requested accesses meet the requirements exactly if they are as they should be. -/
theorem requested_requires_iff (A : Analysed F) :
    (∀ I, Requested o F A.toAnswers I → F.Requires I) ↔ AccessesFit o F A.toAnswers := by
  constructor
  · intro h
    refine ⟨fun hncas i hi => ?_, fun hncas i hi haccess => ?_, fun hncal T hT L hL hne => ?_⟩
    · by_contra hcpy
      have hcpy : A.isMemCpyInlineInst i = true := by simpa using hcpy
      have hrequires := (requires_iff hi).mp (h i.id (.inl ⟨hncas, i, hi, rfl, .inr hcpy⟩))
      rw [not_pointer_of_memcpy hcpy] at hrequires
      obtain ⟨-, -, ptr, hptr⟩ := hrequires
      cases hptr
    · have hrequires := (requires_iff hi).mp (h i.id (.inl ⟨hncas, i, hi, rfl, .inl haccess⟩))
      exact ⟨hrequires.1, hrequires.2.1⟩
    · exact (h L (.inr ⟨hncal, ⟨T, hT, hL⟩, hne⟩)).reachable
  · rintro hfit I (⟨hncas, i, hi, rfl, haccess | hcpy⟩ | ⟨hncal, ⟨T, hT, hL⟩, hne⟩)
    · obtain ⟨hne, hreach⟩ := hfit.store hncas i hi haccess
      exact (requires_iff hi).mpr ⟨hne, hreach, haccess.pointer⟩
    · rw [hfit.memcpy hncas i hi] at hcpy
      cases hcpy
    · have hreach := hfit.load hncal T hT I hL hne
      obtain ⟨V, -, -, orgs, hfind, hmem⟩ := hL
      obtain ⟨i, hi, rfl, ptr, isUnordered, hkind⟩ := A.origins V orgs hfind I hmem
      exact (requires_iff hi).mpr ⟨hne, hreach, ptr, by rw [getPointerOperand, hkind]⟩

/-- In every build, the pass gets through with accesses that meet the requirements of
`getSourcesForNCAAccess` exactly if it does not expand the pairs or the accesses are as the
callee expects them. -/
theorem runOnFunction_requires_iff (ndebug : Bool) (o : Options) (F : Function β ν)
    (A : Analysed F) :
    (∃ s, runOnFunction ndebug o F A.toAnswers = .ok s ∧ ∀ I ∈ s.sourcesMap.keys, F.Requires I) ↔
      (o.expandSTs = true → AccessesFit o F A.toAnswers) := by
  rw [← requested_requires_iff A]
  constructor
  · rintro ⟨s, hret, hkeys⟩ hexpand I hI
    exact hkeys I ((runOnFunction_keys hret).mpr ⟨hexpand, hI⟩)
  · intro h
    obtain ⟨s, hret⟩ := runOnFunction_returns (A := A) h
    refine ⟨s, hret, fun I hI => ?_⟩
    obtain ⟨hexpand, hrequested⟩ := (runOnFunction_keys hret).mp hI
    exact h hexpand I hrequested

/-- A load, an inline memory copy and a return. -/
def copying : Function Nat Nat where
  ir := {
    blocks := [[⟨0, false, false, .load 10 true⟩,
      ⟨1, true, false, .intrinsic (.other (.unlisted 7)) false [10, 11, 12, 13] 14⟩,
      ⟨2, true, false, .ret none⟩]]
    args := [10, 11]
    nodup := by decide }
  cfg := {
    entry := ⟨0, [0, 1], 2, []⟩
    rest := []
    labels_nodup := by decide
    instructions_nodup := by decide
    succs_mem := by decide
    entry_not_succ := by decide }
  agree := by decide

/-- No address is constant and nothing is secret; 7 is the number of `llvm.memcpy.inline`. -/
def nothingSecret : Analysed copying where
  isConstantAddress _ := false
  isConstant V := decide (12 ≤ V)
  nonspeculativelySecret _ := false
  taints := ∅
  mayLowerToFunctionCall _ := false
  memcpyInline := 7
  origins _ _ h := by simp at h
  handled i hi := by
    simp only [copying, IRFunction.instructions, List.flatten_cons, List.flatten_nil,
      List.append_nil, List.mem_cons, List.not_mem_nil, or_false] at hi
    rcases hi with rfl | rfl | rfl <;> exact ⟨_, rfl⟩

/-- With `ncas_xmit` the pass asks for the incoming loads of a null pointer. -/
theorem runOnFunction_copying_fails :
    runOnFunction false ⟨true, false, true, false⟩ copying nothingSecret.toAnswers =
        .error .nullPointer ∧
      runOnFunction true ⟨true, false, true, false⟩ copying nothingSecret.toAnswers =
        .error .nullPointer :=
  ⟨rfl, rfl⟩

end Requirements

end Clou.Mitigation
