-- SUMMARY: The constant-address analysis ends with the greatest sound assignment.
import Mathlib.Algebra.BigOperators.Group.List.Basic
import Mathlib.Algebra.GroupWithZero.Nat
import Serberus.ConstantAddress.Analysis

/-!
# The Greatest Sound Assignment

An assignment of arguments to functions is sound when each call of a function has, for
each argument in its set, an operand that is a constant address under the assignment
itself. Constant addresses are monotone in the assignment. So an argument of a sound
assignment is never erased while the map is above the assignment, and the map in which
the rounds end is sound.
-/

namespace Clou.ConstantAddress

section Order

variable {φ α : Type} [LinearOrder φ] [LinearOrder α] {M : Module φ α}

def Le (T T' : ArgumentMap φ α) : Prop :=
  ∀ f S, T.find? f = some S → ∃ S', T'.find? f = some S' ∧ ∀ A ∈ S, A ∈ S'

/-- The sets are of pointer arguments of direct-call-only functions. -/
def Within (M : Module φ α) (T : ArgumentMap φ α) : Prop :=
  ∀ f S, T.find? f = some S → ∃ F ∈ M.directCallOnly, F.name = f ∧ ∀ A ∈ S, A ∈ F.pointerArgs M

/-- Every call of a direct-call-only function has, for every argument in its set, an operand
that is a constant address. -/
structure Sound (M : Module φ α) (T : ArgumentMap φ α) : Prop where
  within : Within M T
  calls : ∀ F ∈ M.directCallOnly, ∀ S, T.find? F.name = some S → ∀ A ∈ S,
    ∀ callee args, .call callee args ∈ F.users →
      ∃ operand, args[M.getArgNo A]? = some operand ∧ isConstantAddress M T operand = .ok true

/-- `isConstantAddress` handles the value. -/
def Value.Handled : Value α → Prop
  | .getElementPtr _ pointerOperand => pointerOperand.Handled
  | .bitCast _ operand => operand.Handled
  | .select trueValue falseValue => trueValue.Handled ∧ falseValue.Handled
  | .other => False
  | _ => True

/-- What is assumed of a module: the users of a direct-call-only function are its calls, and
their pointer operands are of the kinds that `isConstantAddress` handles. -/
structure Assumptions (M : Module φ α) : Prop where
  users : ∀ F ∈ M.directCallOnly, ∀ U ∈ F.users, ∃ args, U = .call (some F.name) args
  handled : ∀ F ∈ M.directCallOnly, ∀ callee args, .call callee args ∈ F.users →
    ∀ A ∈ F.pointerArgs M, ∀ operand, args[M.getArgNo A]? = some operand → operand.Handled

/-- What is a constant address stays one when the assignment grows. -/
theorem isConstantAddress_mono {T T' : ArgumentMap φ α} {V : Value α} (hle : Le T T')
    (h : isConstantAddress M T V = .ok true) : isConstantAddress M T' V = .ok true := by
  induction V with
  | argument A =>
    unfold isConstantAddress at h ⊢
    cases hfind : T.find? (M.parent A) with
    | none =>
      rw [hfind] at h
      cases h
    | some S =>
      rw [hfind] at h
      obtain ⟨S', hfind', hsub⟩ := hle _ S hfind
      have hA : A ∈ S := of_decide_eq_true (Except.ok.inj h)
      simp only [hfind', hsub A hA, decide_true]
      rfl
  | getElementPtr allConstantIndices V ih =>
    unfold isConstantAddress at h ⊢
    split_ifs at h ⊢ with hindices
    · exact ih h
    · cases h
  | bitCast srcIsPointer V ih =>
    unfold isConstantAddress at h ⊢
    split_ifs at h ⊢ with hsrc
    · exact ih h
    · cases h
  | select V W ihV ihW =>
    unfold isConstantAddress at h ⊢
    obtain ⟨b, hV, h⟩ := Exec.bind_eq_ok.mp h
    cases b with
    | false => cases h
    | true =>
      rw [ihV hV]
      exact ihW h
  | _ => exact h

theorem isConstantAddress_returns (T : ArgumentMap φ α) {V : Value α} (h : V.Handled) :
    ∃ b, isConstantAddress M T V = .ok b := by
  induction V with
  | argument A =>
    unfold isConstantAddress
    cases T.find? (M.parent A) <;> exact ⟨_, rfl⟩
  | getElementPtr allConstantIndices V ih =>
    unfold isConstantAddress
    split_ifs
    · exact ih h
    · exact ⟨false, rfl⟩
  | bitCast srcIsPointer V ih =>
    unfold isConstantAddress
    split_ifs
    · exact ih h
    · exact ⟨false, rfl⟩
  | select V W ihV ihW =>
    obtain ⟨b, hV⟩ := ihV h.1
    unfold isConstantAddress
    rw [hV]
    cases b with
    | true => exact ihW h.2
    | false => exact ⟨false, rfl⟩
  | other => exact h.elim
  | _ => exact ⟨_, rfl⟩

end Order

/-! ## Erasing an Argument -/

section Erase

variable {φ α : Type} [LinearOrder φ] [LinearOrder α] {map : ArgumentMap φ α} {f g : φ} {A : α}

/-- The number of arguments in a map. -/
def weight (map : ArgumentMap φ α) : Nat := (map.entries.map (·.2.size)).sum

theorem weight_insert {S S' : OrdSet α} (h : map.find? f = some S) :
    weight (map.insert f S') + S.size = weight map + S'.size := by
  unfold weight
  rw [((map.entries_insert_perm f S').map _).sum_eq, ((OrdMap.entries_perm_of_find? h).map _).sum_eq]
  simp only [List.map_cons, List.sum_cons]
  omega

theorem find?_eraseArgument : (eraseArgument map f A).find? g =
    if g = f then (map.find? f).map (·.erase A) else map.find? g := by
  unfold eraseArgument
  cases hfind : map.find? f with
  | none =>
    split_ifs with hg
    · rw [hg, hfind, Option.map_none]
    · rfl
  | some S => exact map.find?_insert f g _

theorem eraseArgument_lowers : eraseArgument map f A = map ∨ weight (eraseArgument map f A) < weight map := by
  unfold eraseArgument
  cases hfind : map.find? f with
  | none => exact .inl rfl
  | some S =>
    by_cases hA : A ∈ S
    · refine .inr ?_
      have hweight : weight (map.insert f (S.erase A)) + S.size = _ := weight_insert hfind
      have hsize := OrdSet.size_erase_lt hA
      dsimp only
      omega
    · refine .inl (OrdMap.ext fun g => ?_)
      have hsame : S.erase A = S := OrdSet.filter_eq_self fun B hB => by
        simpa using fun h : B = A => hA (h ▸ hB)
      rw [map.find?_insert, hsame]
      split_ifs with hg
      · rw [hg, hfind]
      · rfl

end Erase

/-! ## The Rounds -/

section Rounds

variable {φ α : Type} [LinearOrder φ] [LinearOrder α] {M : Module φ α} {map map' : ArgumentMap φ α}
  {F : Function φ α}

omit [LinearOrder φ] [LinearOrder α] in
theorem directCallOnly_unique {G : Function φ α} (hF : F ∈ M.directCallOnly)
    (hG : G ∈ M.directCallOnly) (h : F.name = G.name) : F = G :=
  List.inj_on_of_nodup_map M.names_nodup (List.mem_of_mem_filter hF) (List.mem_of_mem_filter hG) h

/-- What holds between two steps: every direct-call-only function has a set of some of its
pointer arguments, and no sound assignment has more. -/
structure Inv (M : Module φ α) (map : ArgumentMap φ α) : Prop where
  keys : ∀ F ∈ M.directCallOnly, ∃ S, map.find? F.name = some S
  within : Within M map
  above : ∀ T, Sound M T → Le T map

/-- An argument that is erased is in no sound assignment. -/
theorem Inv.eraseArgument {A : α} (h : Inv M map)
    (hA : ∀ T, Sound M T → ∀ S, T.find? F.name = some S → A ∉ S) :
    Inv M (eraseArgument map F.name A) where
  keys G hG := by
    obtain ⟨S, hS⟩ := h.keys G hG
    rw [find?_eraseArgument]
    split_ifs with hname
    · exact ⟨S.erase A, by rw [← hname, hS, Option.map_some]⟩
    · exact ⟨S, hS⟩
  within f S hS := by
    rw [find?_eraseArgument] at hS
    split_ifs at hS with hname
    · obtain ⟨S₀, hS₀, rfl⟩ := Option.map_eq_some_iff.mp hS
      obtain ⟨G, hG, hGname, hsub⟩ := h.within _ S₀ hS₀
      exact ⟨G, hG, hGname.trans hname.symm, fun B hB => hsub B (OrdSet.mem_erase.mp hB).1⟩
    · exact h.within f S hS
  above T hT f S hS := by
    obtain ⟨S', hS', hsub⟩ := h.above T hT f S hS
    rw [find?_eraseArgument]
    split_ifs with hname
    · subst hname
      rw [hS', Option.map_some]
      refine ⟨S'.erase A, rfl, fun B hB => OrdSet.mem_erase.mpr ⟨hsub B hB, ?_⟩⟩
      rintro rfl
      exact hA T hT S hS hB
    · exact ⟨S', hS', hsub⟩

theorem isNca_returns (hassume : Assumptions M) (hF : F ∈ M.directCallOnly) {callee : Option φ}
    {args : List (Value α)} (hU : .call callee args ∈ F.users) {A : α} (hA : A ∈ F.pointerArgs M)
    (map : ArgumentMap φ α) : ∃ b, isNca M map args A = .ok b := by
  unfold isNca
  cases hget : args[M.getArgNo A]? with
  | none => exact ⟨true, rfl⟩
  | some operand =>
    obtain ⟨b, hb⟩ : ∃ b, isConstantAddress M map operand = .ok b :=
      isConstantAddress_returns map (hassume.handled F hF callee args hU A hA operand hget)
    refine ⟨!b, ?_⟩
    change (isConstantAddress M map operand >>= fun b => pure !b) = _
    rw [hb]
    rfl

theorem isNca_eq_false {args : List (Value α)} {A : α} : isNca M map args A = .ok false ↔
    ∃ operand, args[M.getArgNo A]? = some operand ∧ isConstantAddress M map operand = .ok true := by
  unfold isNca
  cases args[M.getArgNo A]? with
  | none =>
    constructor
    · intro h
      cases h
    · rintro ⟨operand, h, -⟩
      cases h
  | some operand =>
    simp only [Option.some.injEq, exists_eq_left', Exec.bind_eq_ok]
    constructor
    · rintro ⟨b, hb, hret⟩
      cases b with
      | true => exact hb
      | false => cases hret
    · exact fun h => ⟨true, h, rfl⟩

theorem visitArgument_lowers (hassume : Assumptions M) (hF : F ∈ M.directCallOnly)
    {callee : Option φ} {args : List (Value α)} (hU : .call callee args ∈ F.users) {A : α}
    (hA : A ∈ F.pointerArgs M) :
    Lowers (Inv M) id weight fun map => visitArgument M F.name args map A := by
  intro map h
  obtain ⟨b, hb⟩ := isNca_returns hassume hF hU hA map
  dsimp only [visitArgument]
  rw [hb]
  cases b with
  | false => exact ⟨map, rfl, h, .inl rfl⟩
  | true =>
    refine ⟨_, rfl, h.eraseArgument fun T hT S hS hmem => ?_, eraseArgument_lowers⟩
    -- The operand is a constant address under the sound assignment, so it is one here.
    obtain ⟨operand, hget, haccept⟩ := hT.calls F hF S hS A hmem callee args hU
    have hfalse : isNca M map args A = .ok false :=
      isNca_eq_false.mpr ⟨operand, hget, isConstantAddress_mono (h.above T hT) haccept⟩
    rw [hb] at hfalse
    cases hfalse

/-- The set of a function is there, and holds pointer arguments. -/
theorem Inv.pointerArgs (h : Inv M map) (hF : F ∈ M.directCallOnly) :
    ∃ S, map.find? F.name = some S ∧ ∀ A ∈ S, A ∈ F.pointerArgs M := by
  obtain ⟨S, hS⟩ := h.keys F hF
  obtain ⟨G, hG, hname, hsub⟩ := h.within _ S hS
  obtain rfl := directCallOnly_unique hG hF hname
  exact ⟨S, hS, hsub⟩

theorem visitUser_lowers (hassume : Assumptions M) (hF : F ∈ M.directCallOnly) {U : User φ α}
    (hU : U ∈ F.users) : Lowers (Inv M) id weight fun map => visitUser M F.name map U := by
  intro map h
  obtain ⟨args, rfl⟩ := hassume.users F hF U hU
  obtain ⟨S, hS, hsub⟩ := h.pointerArgs hF
  unfold visitUser
  simp only [hS]
  exact Lowers.foldlM (fun A hA => visitArgument_lowers hassume hF hU (hsub A hA))
    (fun _ _ heq => congrArg weight heq) map h

theorem visitFunction_lowers (hassume : Assumptions M) (hF : F ∈ M.directCallOnly) :
    Lowers (Inv M) id weight fun map => visitFunction M map F :=
  Lowers.foldlM (fun _ hU => visitUser_lowers hassume hF hU) fun _ _ heq => congrArg weight heq

theorem round_lowers (hassume : Assumptions M) :
    Lowers (Inv M) id weight fun map => M.directCallOnly.foldlM (visitFunction M) map :=
  Lowers.foldlM (fun _ hF => visitFunction_lowers hassume hF) fun _ _ heq => congrArg weight heq

/-- A map that a round leaves as it is is sound. -/
theorem sound_of_fixed (hassume : Assumptions M) (hinv : Inv M map)
    (hfixed : M.directCallOnly.foldlM (visitFunction M) map = .ok map) : Sound M map where
  within := hinv.within
  calls F hF S hS A hA callee args hU := by
    have hkey : ∀ map map' : ArgumentMap φ α, id map' = id map → weight map' = weight map :=
      fun _ _ heq => congrArg weight heq
    obtain ⟨m₁, m₂, -, hfunction, -, h₁, h₂⟩ := Lowers.fixed
      (fun _ hF => visitFunction_lowers hassume hF) hkey hinv hfixed rfl F hF
    obtain ⟨rfl, rfl⟩ : map = m₁ ∧ map = m₂ := ⟨h₁.symm, h₂.symm⟩
    obtain ⟨m₁, m₂, -, huser, -, h₁, h₂⟩ := Lowers.fixed
      (fun _ hU => visitUser_lowers hassume hF hU) hkey hinv hfunction rfl _ hU
    obtain ⟨rfl, rfl⟩ : map = m₁ ∧ map = m₂ := ⟨h₁.symm, h₂.symm⟩
    obtain ⟨S', hS', hsub⟩ := hinv.pointerArgs hF
    obtain rfl : S' = S := Option.some.inj (hS'.symm.trans hS)
    unfold visitUser at huser
    simp only [hS] at huser
    obtain ⟨m₁, m₂, -, hargument, -, h₁, h₂⟩ := Lowers.fixed
      (fun A hA => visitArgument_lowers hassume hF hU (hsub A hA)) hkey hinv huser rfl A hA
    obtain ⟨rfl, rfl⟩ : map = m₁ ∧ map = m₂ := ⟨h₁.symm, h₂.symm⟩
    dsimp only [visitArgument] at hargument
    obtain ⟨b, hb, hret⟩ := Exec.bind_eq_ok.mp hargument
    cases b with
    | false => exact isNca_eq_false.mp hb
    | true =>
      have herased : (eraseArgument map F.name A).find? F.name = some S' := by
        rw [show eraseArgument map F.name A = map from Except.ok.inj hret, hS]
      rw [find?_eraseArgument, if_pos rfl, hS, Option.map_some, Option.some.injEq] at herased
      rw [← herased] at hA
      exact absurd rfl (OrdSet.mem_erase.mp hA).2

end Rounds

/-! ## The Result -/

section Result

variable {φ α : Type} [LinearOrder φ] [LinearOrder α] {M : Module φ α}

/-- What the initialization of the map leaves at a key. -/
theorem find?_foldl_insert {l : List (Function φ α)} (hnodup : (l.map (·.name)).Nodup)
    (map : ArgumentMap φ α) (f : φ) (S : OrdSet α) :
    (l.foldl (fun map F => map.insert F.name (F.pointerArgs M)) map).find? f = some S ↔
      (∃ F ∈ l, F.name = f ∧ F.pointerArgs M = S) ∨
        (∀ F ∈ l, F.name ≠ f) ∧ map.find? f = some S := by
  induction l generalizing map with
  | nil => simp
  | cons F l ih =>
    rw [List.map_cons, List.nodup_cons] at hnodup
    obtain ⟨hnew, hnodup⟩ := hnodup
    rw [List.foldl_cons, ih hnodup, map.find?_insert, List.exists_mem_cons_iff,
      List.forall_mem_cons]
    by_cases hf : F.name = f
    · have hothers : ∀ G ∈ l, G.name ≠ f := fun G hG hname =>
        hnew (List.mem_map.mpr ⟨G, hG, hname.trans hf.symm⟩)
      rw [if_pos hf.symm]
      simp only [hf, ne_eq, not_true_eq_false, false_and, or_false, true_and, Option.some.injEq]
      constructor
      · rintro (h | ⟨-, h⟩)
        · exact .inr h
        · exact .inl h
      · rintro (h | h)
        · exact .inr ⟨hothers, h⟩
        · exact .inl h
    · rw [if_neg (Ne.symm hf)]
      simp [hf]

theorem find?_top {f : φ} {S : OrdSet α} :
    (top M).find? f = some S ↔ ∃ F ∈ M.directCallOnly, F.name = f ∧ F.pointerArgs M = S := by
  have hnodup : (M.directCallOnly.map (·.name)).Nodup :=
    M.names_nodup.sublist (List.filter_sublist.map _)
  unfold top
  rw [find?_foldl_insert hnodup, OrdMap.find?_empty]
  simp

theorem top_inv (M : Module φ α) : Inv M (top M) where
  keys F hF := ⟨_, find?_top.mpr ⟨F, hF, rfl, rfl⟩⟩
  within f S hS := by
    obtain ⟨F, hF, hname, rfl⟩ := find?_top.mp hS
    exact ⟨F, hF, hname, fun A hA => hA⟩
  above T hT f S hS := by
    obtain ⟨F, hF, hname, hsub⟩ := hT.within f S hS
    exact ⟨_, find?_top.mpr ⟨F, hF, hname, rfl⟩, hsub⟩

/-- The analysis ends with the greatest sound assignment. -/
theorem runOnModule_greatest (M : Module φ α) (hassume : Assumptions M) :
    ∃ N ca_args, (∀ fuel ≥ N, runOnModule fuel M = .ok ca_args) ∧
      (∀ F ∈ M.directCallOnly, ∃ S, ca_args.find? F.name = some S) ∧
      Sound M ca_args ∧ ∀ T, Sound M T → Le T ca_args := by
  obtain ⟨_, ca_args, hinv, hfixed, -, rfl, hret⟩ := rounds_spec (round_lowers hassume) (top_inv M)
  exact ⟨weight (top M) + 1, ca_args, hret, hinv.keys, sound_of_fixed hassume hinv hfixed,
    hinv.above⟩

end Result

/-- Two functions that call each other, one of them with a loaded address as well, and one
that calls itself. -/
def recursive : Module Nat Nat where
  functions := [
    ⟨0, .internalLinkage, false, [0],
      [.call (some 0) [.alloca], .call (some 0) [.getElementPtr true (.argument 1)]]⟩,
    ⟨1, .internalLinkage, false, [1],
      [.call (some 1) [.bitCast true (.argument 0)], .call (some 1) [.load]]⟩,
    ⟨2, .privateLinkage, false, [2],
      [.call (some 2) [.select (.argument 2) .constant], .call (some 2) [.constant]]⟩]
  names_nodup := by decide
  parent := id
  getArgNo _ := 0
  isPointerTy _ := true
  parent_args := by decide

example : runOnModule 4 recursive = .ok
    ⟨[(0, ⟨[], by decide⟩), (1, ⟨[], by decide⟩), (2, ⟨[2], by decide⟩)], by decide⟩ := by
  decide +kernel

theorem recursive_assumptions : Assumptions recursive where
  users F hF U hU := by
    have hF := List.mem_of_mem_filter hF
    simp only [recursive, List.mem_cons, List.not_mem_nil, or_false] at hF
    rcases hF with rfl | rfl | rfl <;>
      simp only [List.mem_cons, List.not_mem_nil, or_false] at hU <;>
      rcases hU with rfl | rfl <;> exact ⟨_, rfl⟩
  handled F hF callee args hU A hA operand hget := by
    have hmem := List.mem_of_getElem? hget
    have hF := List.mem_of_mem_filter hF
    simp only [recursive, List.mem_cons, List.not_mem_nil, or_false] at hF
    rcases hF with rfl | rfl | rfl <;>
      simp only [List.mem_cons, List.not_mem_nil, or_false, User.call.injEq] at hU <;>
      rcases hU with ⟨-, rfl⟩ | ⟨-, rfl⟩ <;>
      obtain rfl := List.mem_singleton.mp hmem <;> simp [Value.Handled]

theorem runOnModule_greatest_recursive : ∃ N ca_args,
    (∀ fuel ≥ N, runOnModule fuel recursive = .ok ca_args) ∧ Sound recursive ca_args ∧
    ∀ T, Sound recursive T → Le T ca_args := by
  obtain ⟨N, ca_args, hret, -, hsound, habove⟩ := runOnModule_greatest recursive recursive_assumptions
  exact ⟨N, ca_args, hret, hsound, habove⟩

end Clou.ConstantAddress
