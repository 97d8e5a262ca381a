import IEGen.Fixed
import IEGen.Functions
import IEGen.Redeclared
import IEGen.UniqueNames

/-!
# Composing conjunctions

`Conjunction::Compose` puts the tuples `(input, output, inner)` of both operands into one declaration and names each output
of the left operand by `createUniqueName`, with the input names of the right operand taken. A name that is free is not
inserted in the set of taken names, so a later call can generate it once more: the names of the result are different iff no
call does so (`NeverMeets`).
-/

namespace IEGen

open Outcome (bind_eq_ok)
open SortedList (Tied insertUnique)

/-! ## The code -/

namespace TupleDecl

/-- The loop that copies the elements of a declaration, at the same locations, into one with default elements. -/
def truncate (d : TupleDecl) (size : Nat) : TupleDecl :=
  (List.range size).foldl (fun d' i => d'.copyTupleElem d i i) (sDefaultTupleDecl size)

/-- The loop that sets the names of the elements from a location on. -/
def setNames (d : TupleDecl) (first : Nat) (names : List String) : TupleDecl :=
  names.zipIdx.foldl (fun d' p => d'.setTupleVar (first + p.2) p.1) d

end TupleDecl

namespace Conjunction

/-- The new location of a variable of the left side: the inner variables go behind the others. -/
def lhsLoc (arity innerArity finalInArity i : Nat) : Nat :=
  if i < innerArity then i + finalInArity + (arity - innerArity) else i - innerArity + finalInArity

/-- The new location of a variable of the right side: the inner variables leave room for the outputs of the left side. -/
def rhsLoc (finalInArity finalOutArity i : Nat) : Nat := if i < finalInArity then i else i + finalOutArity

/-- `shiftLHSVars` -/
def shiftLHSVars (arity innerArity finalInArity : Nat) : List Int :=
  (List.range arity).map fun i => (lhsLoc arity innerArity finalInArity i : Int)

/-- `shiftRHSVars` -/
def shiftRHSVars (arity finalInArity finalOutArity : Nat) : List Int :=
  (List.range arity).map fun i => (rhsLoc finalInArity finalOutArity i : Int)

/-- The declaration of the result: the inputs of the right side, the outputs of the left side with names of their own, and
the inner variables with default names. -/
def composedDecl (lhs_copy rhs_copy result : TupleDecl) (finalInArity finalOutArity : Nat) : Option TupleDecl := do
  let inputs := (List.range finalInArity).foldl (fun d i => d.copyTupleElem rhs_copy i i) result
  let takenNames := (List.range finalInArity).map inputs.elemVarString
  let names ← uniqueNames ((List.range finalOutArity).map fun i => lhs_copy.elemVarString (finalInArity + i)) takenNames
  some (inputs.setNames finalInArity names.1)

/-- The substitutions: for each inner variable the function that defines it. -/
def innerSubMap (env : Environment) (result : Conjunction) (outer innerArity : Nat) (startTupleRange endTupleRange : Int) :
    Except Failure SubMap :=
  (List.range innerArity).mapM fun j => do
    .ok (result.tupleDecl.elemCreateTerm (outer + j) (outer + j),
      ← result.findFunction env (outer + j) startTupleRange endTupleRange)

/-- The inner variables as functions of the inputs, when both sides are functions, or else of the outputs. -/
def composeSubMap (env : Environment) (bothFunctions : Bool) (result : Conjunction)
    (finalInArity finalOutArity innerArity : Nat) : Except Failure SubMap :=
  if bothFunctions then innerSubMap env result (finalInArity + finalOutArity) innerArity 0 (finalInArity - 1)
  else innerSubMap env result (finalInArity + finalOutArity) innerArity finalInArity ((finalInArity + finalOutArity : Nat) - 1)

/-- The result before the inner variables are replaced: the constraints of both sides and the declaration. -/
def joined (lhs_copy rhs_copy : Conjunction) (finalInArity finalOutArity innerArity : Nat) : Except Failure Conjunction :=
  let result := ((ofArity (finalInArity + finalOutArity + innerArity)).copyConstraintsFrom rhs_copy).copyConstraintsFrom lhs_copy
  match composedDecl lhs_copy.tupleDecl rhs_copy.tupleDecl result.tupleDecl finalInArity finalOutArity with
  | none => .error .undefined -- the search for a name did not end, which is not so (`composedDecl_spec`)
  | some tupleDecl => .ok { result with tupleDecl := tupleDecl, inArity := finalInArity }

/-- `Compose` -/
def Compose (env : Environment) (lhs rhs : Conjunction) (innerArity : Nat) : Except Failure Conjunction := do
  let finalInArity := rhs.arity - innerArity
  let finalOutArity := lhs.arity - innerArity
  let lhsIsFunction ← lhs.isFunction env innerArity
  let rhsIsFunction ← rhs.isFunction env finalInArity
  let lhsIsFunctionInverse ← lhs.isFunctionInverse env innerArity
  let rhsIsFunctionInverse ← rhs.isFunctionInverse env finalInArity
  if !((lhsIsFunction && rhsIsFunction) || (lhsIsFunctionInverse && rhsIsFunctionInverse)) then
    .error (.assertException ("Conjunction::Compose: both relations are required to be a function or a function inverse: " ++
      "lhsIsFunction:" ++ toString lhsIsFunction.toNat ++ " lhsIsFunctionInverse:" ++ toString lhsIsFunctionInverse.toNat ++
      " rhsIsFunction:" ++ toString rhsIsFunction.toNat ++ " rhsIsFunctionInverse:" ++ toString rhsIsFunctionInverse.toNat))
  else do
    let lhs_copy ← lhs.pushConstToConstraints.remapTupleVars (shiftLHSVars lhs.arity innerArity finalInArity)
    let rhs_copy ← rhs.pushConstToConstraints.remapTupleVars (shiftRHSVars rhs.arity finalInArity finalOutArity)
    let result ← joined lhs_copy rhs_copy finalInArity finalOutArity innerArity
    let submap ← composeSubMap env (lhsIsFunction && rhsIsFunction) result finalInArity finalOutArity innerArity
    let substituted ← result.substituteInConstraints env submap
    let truncated ← substituted.setTupleDecl (result.tupleDecl.truncate (finalInArity + finalOutArity))
    truncated.pushConstConstraintsToTupleDecl env

end Conjunction

/-! ## Constants stay constants -/

/-- `x_i - v = 0`, with or without the constant term. -/
def Exp.IsConstEq (i : Nat) (v : Int) (e : Exp) : Prop :=
  e.terms = .tupleVar 1 i :: if v = 0 then [] else [.constVal (-v)]

/-- An equality of the conjunction gives the variable the constant. -/
def Conjunction.HasConstEq (c : Conjunction) (i : Nat) (v : Int) : Prop := ∃ e ∈ c.equalities, e.IsConstEq i v

namespace Exp.IsConstEq

variable {i : Nat} {v : Int} {e : Exp}

/-- The equality that `pushConstToConstraints` adds. -/
theorem of_pushConst (i : Nat) (v : Int) :
    (((Exp.mk .expression []).addTerm (.tupleVar 1 i)).addTerm (.constVal (-1 * v))).IsConstEq i v := by
  by_cases hv : v = 0 <;> simp [IsConstEq, Exp.addTerm, termsAddInto, insertTerm, Term.coefficient, Term.combineInto, combineSimple,
    Term.factorMatches, Term.multiplyBy, Term.setCoefficient, Term.lt, Term.typeRank, hv]

theorem normalizeForEquality (h : e.IsConstEq i v) : e.normalizeForEquality.IsConstEq i v := by
  unfold IsConstEq at h ⊢
  by_cases hv : v = 0 <;> simp [Exp.normalizeForEquality, h, hv, Term.coefficient]

theorem equalsZero (h : e.IsConstEq i v) : e.equalsZero = false := by
  unfold IsConstEq at h
  by_cases hv : v = 0 <;> simp [Exp.equalsZero, h, hv, Term.coefficient]

/-- Such an equality is tied only with those that have its terms. -/
theorem of_tied {d : Exp} (h : e.IsConstEq i v) (ht : Tied Exp.lt e d) : d.IsConstEq i v := by
  have hsimple : ∀ t ∈ e.terms, t.isTupleExp = false ∧ t.isUFCall = false := by
    rw [show e.terms = _ from h]
    by_cases hv : v = 0 <;> simp [hv, Term.isTupleExp, Term.isUFCall]
  have hterms : List.Forall₂ Eq e.terms d.terms := Outcome.forall₂_imp_mem (tied_exp.1 ht) fun t u hmem htu => by
    obtain ⟨htup, hcall⟩ := hsimple t hmem
    obtain ⟨hm, hc⟩ := factorMatches_of_tied htu htup
    cases t <;> cases u <;> simp_all [Term.factorMatches, Term.coefficient, Term.isTupleExp, Term.isUFCall]
  rw [List.forall₂_eq_eq_eq] at hterms
  rw [IsConstEq, ← hterms]
  exact h

theorem mapVars (h : e.IsConstEq i v) (σ : Nat → Nat) : (e.mapVars σ).IsConstEq (σ i) v := by
  obtain ⟨k, ts⟩ := e
  unfold IsConstEq at h ⊢
  rw [Exp.terms_mk] at h
  subst h
  by_cases hv : v = 0 <;> simp [Exp.mapVars, termsMapVars, Term.mapVars, hv]

/-- A substitution for other variables leaves the equality. -/
theorem substitute (h : e.IsConstEq i v) {m : SubMap} (hm : ∀ p ∈ m, ∃ l, p.1 = .tupleVar 1 l ∧ l ≠ i) :
    (e.substitute m).IsConstEq i v := by
  have hnone : ∀ t : Term, (∀ l, l ≠ i → t.factorMatches (.tupleVar 1 l) = false) → m.subExp t = none := by
    intro t ht
    have hfind : m.find? (fun p => t.factorMatches p.1) = none := by
      rw [List.find?_eq_none]
      intro p hp
      obtain ⟨l, hl, hne⟩ := hm p hp
      rw [hl, ht l hne]
      exact Bool.false_ne_true
    rw [SubMap.subExp, hfind]
    rfl
  have hvar : m.subExp (.tupleVar 1 i) = none := hnone _ fun l hl => by
    simp [Term.factorMatches, hl.symm]
  have hconst : m.subExp (.constVal (-v)) = none := hnone _ fun l _ => rfl
  obtain ⟨k, ts⟩ := e
  unfold IsConstEq at h ⊢
  rw [Exp.terms_mk] at h
  subst h
  by_cases hv : v = 0 <;> simp [Exp.substitute, termsSubstitute, hvar, hconst, Term.substituteInside, Exp.addExp, Exp.addTerm,
    termsAddInto, insertTerm, Term.coefficient, Term.combineInto, combineSimple, Term.factorMatches, Term.multiplyBy, Term.setCoefficient,
    Term.lt, Term.typeRank, hv]

theorem collapse (h : e.IsConstEq i v) {env : Environment} {e' : Exp} (hc : e.collapseNestedInvertibleFunctions env = .ok e') :
    e'.IsConstEq i v := by
  obtain ⟨k, ts⟩ := e
  unfold IsConstEq at h ⊢
  rw [Exp.terms_mk] at h
  subst h
  by_cases hv : v = 0
  · simp only [hv, if_true, Exp.collapseNestedInvertibleFunctions, termsCollapse, Term.collapseNestedInvertibleFunctions,
      bind, Except.bind, Except.ok.injEq] at hc
    subst hc
    simp [hv, Exp.addExp, Exp.addTerm, termsAddInto, insertTerm, Term.coefficient, Term.multiplyBy, Term.setCoefficient]
  · simp only [hv, if_false, Exp.collapseNestedInvertibleFunctions, termsCollapse, Term.collapseNestedInvertibleFunctions,
      bind, Except.bind, Except.ok.injEq] at hc
    subst hc
    simp [hv, Exp.addExp, Exp.addTerm, termsAddInto, insertTerm, Term.coefficient, Term.combineInto, combineSimple,
      Term.factorMatches, Term.multiplyBy, Term.setCoefficient, Term.lt, Term.typeRank]

/-- An equality that begins with the variable is solved by its other terms. -/
theorem solveForFactor_leading (env : Environment) (k : ExpType) (i : Nat) (rest : List Term) :
    (Exp.mk k (.tupleVar 1 i :: rest)).solveForFactor env (.tupleVar 1 i) =
      (Exp.mk k rest).divideBy (-1) >>= fun x => .ok (some x) := by
  have hmatch : findMatching (.tupleVar 1 i) (.mk k (.tupleVar 1 i :: rest)) (.tupleVar 1 i :: rest) =
      .ok (some (.tupleVar 1 i)) := by
    simp [findMatching, Term.factorMatches, Term.coefficient, Exp.isDivisible]
  have hsolution : (Exp.mk k (.tupleVar 1 i :: rest)).solution (.tupleVar 1 i) (.tupleVar 1 i) =
      (Exp.mk k rest).divideBy (-1) := by
    simp [Exp.solution, Exp.addTerm, termsAddInto, insertTerm, Term.coefficient, Term.combineInto, combineSimple,
      Term.factorMatches, Term.multiplyBy, Term.setCoefficient]
  have hdivisible : (Exp.mk k (.tupleVar 1 i :: rest)).isDivisible 1 = true := by simp [Exp.isDivisible]
  unfold Exp.solveForFactor Exp.findMatchingFactor
  rw [Exp.terms_mk, hmatch]
  show (if (Exp.mk k (.tupleVar 1 i :: rest)).isDivisible 1 = true then _ else _) = _
  rw [if_pos hdivisible, hsolution]

/-- Solving for the variable gives the constant. -/
theorem solve (h : e.IsConstEq i v) (env : Environment) :
    ∃ x, e.solveForFactor env (.tupleVar 1 i) = .ok (some x) ∧ x.asConst = some v := by
  obtain ⟨k, ts⟩ := e
  unfold IsConstEq at h
  rw [Exp.terms_mk] at h
  subst h
  rw [solveForFactor_leading]
  by_cases hv : v = 0
  · refine ⟨.mk k [], ?_, ?_⟩
    · rw [if_pos hv]
      rfl
    · simp [Exp.asConst, Exp.equalsZero, hv]
  · refine ⟨.mk k [.constVal v], ?_, ?_⟩
    · rw [if_neg hv]
      simp [Exp.divideBy, Exp.isDivisible, Term.coefficient, Term.setCoefficient, bind, Except.bind]
    · simp [Exp.asConst, Exp.equalsZero, Exp.getTerm, Term.coefficient, hv]

end Exp.IsConstEq

namespace Conjunction

variable {c c' : Conjunction} {i : Nat} {v : Int}

theorem HasConstEq.addEquality (h : c.HasConstEq i v) (e : Exp) : (c.addEquality e).HasConstEq i v := by
  obtain ⟨d, hd, hconst⟩ := h
  unfold Conjunction.addEquality
  simp only
  split_ifs
  · exact ⟨d, hd, hconst⟩
  · exact ⟨d, SortedList.subset_insertUnique hd, hconst⟩

theorem hasConstEq_addEquality {e : Exp} (h : e.IsConstEq i v) (c : Conjunction) : (c.addEquality e).HasConstEq i v := by
  have hn := h.normalizeForEquality
  unfold Conjunction.addEquality
  simp only [hn.equalsZero, Bool.false_eq_true, if_false]
  exact (SortedList.exists_insertUnique fun d _ ht he => Exp.IsConstEq.of_tied he ht).2 (.inl hn)

theorem HasConstEq.foldl_addEquality (h : c.HasConstEq i v) (es : List Exp) :
    (es.foldl Conjunction.addEquality c).HasConstEq i v := by
  induction es generalizing c with
  | nil => exact h
  | cons e es ih => exact ih (h.addEquality e)

theorem hasConstEq_foldl_addEquality {e : Exp} (h : e.IsConstEq i v) {es : List Exp} (he : e ∈ es) (c : Conjunction) :
    (es.foldl Conjunction.addEquality c).HasConstEq i v := by
  induction es generalizing c with
  | nil => cases he
  | cons d es ih =>
    rcases List.mem_cons.1 he with rfl | he
    · exact (hasConstEq_addEquality h c).foldl_addEquality es
    · exact ih he _

/-- Cleaning up keeps the equality. -/
theorem HasConstEq.cleanUp (h : c.HasConstEq i v) {env : Environment} (hc : c.cleanUp env = .ok c') : c'.HasConstEq i v := by
  obtain ⟨e, he, hconst⟩ := h
  unfold Conjunction.cleanUp at hc
  simp only [bind_eq_ok, Except.ok.injEq] at hc
  obtain ⟨es, hes, ds, hds, rfl⟩ := hc
  obtain ⟨e', he', hee⟩ := Outcome.exists_of_mem_forall₂ (Outcome.forall₂_of_mapM hes).flip he
  have hconst' : e'.IsConstEq i v := hconst.normalizeForEquality.collapse hee
  have hmem : e' ∈ es.filter (fun e => !e.equalsZero) := List.mem_filter.2 ⟨he', by rw [hconst'.equalsZero]; rfl⟩
  have hadded := hasConstEq_foldl_addEquality hconst' hmem { c with equalities := [] }
  rw [foldl_addInequality_eq]
  exact hadded

theorem HasConstEq.substituteInConstraints (h : c.HasConstEq i v) {env : Environment} {m : SubMap}
    (hm : ∀ p ∈ m, ∃ l, p.1 = .tupleVar 1 l ∧ l ≠ i) (hc : c.substituteInConstraints env m = .ok c') :
    c'.HasConstEq i v := by
  obtain ⟨e, he, hconst⟩ := h
  exact HasConstEq.cleanUp (c := { c with equalities := c.equalities.map (Exp.substitute m)
                                          inequalities := c.inequalities.map (Exp.substitute m) })
    ⟨e.substitute m, List.mem_map_of_mem he, hconst.substitute hm⟩ hc

theorem HasConstEq.remapTupleVars (h : c.HasConstEq i v) {oldToNewLocs : List Int} {σ : Nat → Nat}
    (hm : Moves oldToNewLocs σ) (hc : c.remapTupleVars oldToNewLocs = .ok c') : c'.HasConstEq (σ i) v := by
  obtain ⟨e, he, hconst⟩ := h
  obtain ⟨-, rfl⟩ := (Conjunction.remapTupleVars_eq_ok_iff hm).1 hc
  exact ⟨_, List.mem_map_of_mem he, (hconst.mapVars σ).normalizeForEquality⟩

/-- A variable that an equality gives a constant is a constant of the declaration after the push. -/
theorem HasConstEq.elemIsConst (h : c.HasConstEq i v) (hi : i < c.arity) {env : Environment}
    (hc : c.pushConstConstraintsToTupleDecl env = .ok c') : c'.tupleDecl.elemIsConst i = true := by
  obtain ⟨e, he, hconst⟩ := h
  obtain ⟨hpush, -⟩ := pushed_of_push hc
  cases hold : c.tupleDecl.elemIsConst i with
  | true =>
    by_contra hno
    rw [Bool.not_eq_true, hpush.elemIsConst_iff, hold] at hno
    cases hno.1
  | false => exact (hpush.given i ⟨e, v, he, hi, hold, hconst.solve env⟩).1

end Conjunction

/-! ## Names and declarations -/

namespace TupleDecl

/-- The name of an element when its constant is an equality. -/
def pushedName (d : TupleDecl) (i : Nat) : String :=
  if d.elemIsConst i then "c_" ++ ToString.toString (d.elemConstVal i) else d.elemVarString i

end TupleDecl

namespace Conjunction

@[simp] theorem tupleDecl_addEquality (c : Conjunction) (e : Exp) : (c.addEquality e).tupleDecl = c.tupleDecl := by
  unfold Conjunction.addEquality
  simp only
  split_ifs <;> rfl

/-- One step of `pushConstToConstraints`. -/
theorem pushConst_step (c : Conjunction) (i : Nat) : (c.pushConst i).arity = c.arity ∧
    ((c.pushConst i).tupleDecl.elemIsConst i = false ∧
      (c.pushConst i).tupleDecl.elemVarString i = c.tupleDecl.pushedName i ∧
      (c.tupleDecl.elemIsConst i = true → (c.pushConst i).HasConstEq i (c.tupleDecl.elemConstVal i))) ∧
    (∀ j ≠ i, (c.pushConst i).tupleDecl.elem j = c.tupleDecl.elem j) ∧
    ∀ j v, c.HasConstEq j v → (c.pushConst i).HasConstEq j v := by
  unfold pushConst TupleDecl.pushedName
  split_ifs with hconst
  · have helem := fun j => TupleDecl.elem_setTupleVar c.tupleDecl i j ("c_" ++ toString (c.tupleDecl.elemConstVal i)) hconst
    have hself : (c.tupleDecl.setTupleVar i ("c_" ++ toString (c.tupleDecl.elemConstVal i))).elemIsConst i = false := by
      rw [TupleDecl.elemIsConst, helem, if_pos rfl]
    have hterm : (c.tupleDecl.setTupleVar i ("c_" ++ toString (c.tupleDecl.elemConstVal i))).elemCreateTerm i i =
        .tupleVar 1 i := by
      rw [TupleDecl.elemCreateTerm, hself]
      rfl
    simp only [hterm, Conjunction.arity, tupleDecl_addEquality]
    refine ⟨TupleDecl.size_setTupleVar _ _ _, ⟨hself, ?_, fun _ => ?_⟩, fun j hj => by rw [helem, if_neg hj], fun j v hv => ?_⟩
    · rw [TupleDecl.elemVarString, helem, if_pos rfl]
    · exact hasConstEq_addEquality (.of_pushConst i _) _
    · have hv' : ({ c with tupleDecl := c.tupleDecl.setTupleVar i ("c_" ++ toString (c.tupleDecl.elemConstVal i)) } :
          Conjunction).HasConstEq j v := hv
      exact hv'.addEquality _
  · exact ⟨rfl, ⟨by simpa using hconst, rfl, fun h => absurd h hconst⟩, fun _ _ => rfl, fun _ _ h => h⟩

/-- What pushing the constants of the first elements leaves: variables, with the equalities for those that were constants. -/
theorem foldl_pushConst_step (c : Conjunction) (n : Nat) :
    ((List.range n).foldl pushConst c).arity = c.arity ∧
    (∀ i < n, ((List.range n).foldl pushConst c).tupleDecl.elemIsConst i = false ∧
      ((List.range n).foldl pushConst c).tupleDecl.elemVarString i = c.tupleDecl.pushedName i ∧
      (c.tupleDecl.elemIsConst i = true → ((List.range n).foldl pushConst c).HasConstEq i (c.tupleDecl.elemConstVal i))) ∧
    ∀ i, n ≤ i → ((List.range n).foldl pushConst c).tupleDecl.elem i = c.tupleDecl.elem i := by
  induction n with
  | zero => exact ⟨rfl, by simp, fun _ _ => rfl⟩
  | succ n ih =>
    obtain ⟨harity, hbefore, hafter⟩ := ih
    rw [List.range_succ, List.foldl_append, List.foldl_cons, List.foldl_nil]
    generalize (List.range n).foldl pushConst c = d at harity hbefore hafter
    obtain ⟨h₁, h₂, h₃, h₄⟩ := d.pushConst_step n
    have hn := hafter n le_rfl
    refine ⟨h₁.trans harity, fun i hi => ?_, fun i hi => ?_⟩
    · rcases Nat.lt_succ_iff_lt_or_eq.1 hi with hlt | rfl
      · obtain ⟨g₁, g₂, g₃⟩ := hbefore i hlt
        have helem := h₃ i (by omega)
        rw [TupleDecl.elemIsConst, TupleDecl.elemVarString, helem]
        exact ⟨g₁, g₂, fun hc => h₄ i _ (g₃ hc)⟩
      · simp only [TupleDecl.pushedName, TupleDecl.elemIsConst, TupleDecl.elemConstVal, TupleDecl.elemVarString, hn] at h₂ ⊢
        exact h₂
    · rw [h₃ i (by omega), hafter i (by omega)]

/-- `pushConstToConstraints` names each constant and keeps it as an equality. -/
theorem pushConstToConstraints_step (c : Conjunction) : c.pushConstToConstraints.arity = c.arity ∧
    ∀ i < c.arity, c.pushConstToConstraints.tupleDecl.elemIsConst i = false ∧
      c.pushConstToConstraints.tupleDecl.elemVarString i = c.tupleDecl.pushedName i ∧
      (c.tupleDecl.elemIsConst i = true → c.pushConstToConstraints.HasConstEq i (c.tupleDecl.elemConstVal i)) :=
  ⟨(foldl_pushConst_step c c.arity).1, (foldl_pushConst_step c c.arity).2.1⟩

end Conjunction

namespace TupleDecl

theorem le_foldl_max {l : List Int} {a x : Int} (h : x ≤ a ∨ x ∈ l) : x ≤ l.foldl max a := by
  induction l generalizing a with
  | nil => exact h.resolve_right (by simp)
  | cons y l ih =>
    rw [List.foldl_cons]
    rcases h with h | h
    · exact ih (.inl (h.trans (le_max_left a y)))
    · rcases List.mem_cons.1 h with rfl | h
      · exact ih (.inl (le_max_right a x))
      · exact ih (.inr h)

/-- After a move, each element is at its new location. -/
theorem elem_remap {ls : List Nat} (hnd : ls.Nodup) (d : TupleDecl) {i l : Nat} (hl : ls[i]? = some l) :
    (d.remap (ls.map Int.ofNat)).elem l = d.elem i := by
  have hlt : ∀ l ∈ ls, l < (sDefaultTupleDecl ((ls.map Int.ofNat).foldl max (-1) + 1).toNat).size := by
    intro l hl
    rw [size_sDefaultTupleDecl]
    have := le_foldl_max (a := -1) (.inr (List.mem_map_of_mem (f := Int.ofNat) hl))
    simp only [Int.ofNat_eq_natCast] at this
    omega
  exact (elem_foldl_copyTupleElem hnd hlt).2 i l hl

/-- The loop that copies the first elements of another declaration. -/
theorem elem_foldl_copy (d other : TupleDecl) (n : Nat) :
    ((List.range n).foldl (fun d' i => d'.copyTupleElem other i i) d).size = d.size ∧ ∀ i < d.size,
      ((List.range n).foldl (fun d' i => d'.copyTupleElem other i i) d).elem i = if i < n then other.elem i else d.elem i := by
  induction n with
  | zero => simp
  | succ n ih =>
    obtain ⟨hsize, helem⟩ := ih
    rw [List.range_succ, List.foldl_append, List.foldl_cons, List.foldl_nil]
    refine ⟨(size_copyTupleElem _ _ _ _).trans hsize, fun i hi => ?_⟩
    rw [elem_copyTupleElem _ _ _ (by omega), helem i hi]
    split_ifs with h₁ h₂ h₃ h₄ h₅
    · rw [h₁]
    · omega
    · rfl
    · omega
    · omega
    · rfl

theorem elem_truncate (d : TupleDecl) (n : Nat) : (d.truncate n).size = n ∧ ∀ i < n, (d.truncate n).elem i = d.elem i := by
  obtain ⟨hsize, helem⟩ := elem_foldl_copy (sDefaultTupleDecl n) d n
  rw [size_sDefaultTupleDecl] at hsize helem
  exact ⟨hsize, fun i hi => (helem i hi).trans (if_pos hi)⟩

theorem elem_setTupleVar_of_lt (d : TupleDecl) {i : Nat} (j : Nat) (s : String) (hi : i < d.size) :
    (d.setTupleVar i s).elem j = if j = i then { d.elem i with isConst := false, varString := s } else d.elem j := by
  have hi' : i < d.elems.length := hi
  unfold elem setTupleVar
  simp only [List.getD_eq_getElem?_getD, List.getElem?_modify]
  by_cases hij : j = i
  · subst hij
    simp [List.getElem?_eq_getElem hi']
  · simp [hij, Ne.symm hij]

/-- The loop that sets names: the elements before and behind keep theirs. -/
theorem elem_setNames (d : TupleDecl) (first : Nat) (names : List String) (h : first + names.length ≤ d.size) :
    (d.setNames first names).size = d.size ∧ (∀ i < first, (d.setNames first names).elem i = d.elem i) ∧
      (∀ i, first + names.length ≤ i → (d.setNames first names).elem i = d.elem i) ∧
      ∀ j (hj : j < names.length), (d.setNames first names).elemIsConst (first + j) = false ∧
        (d.setNames first names).elemVarString (first + j) = names[j] := by
  induction names using List.reverseRecOn with
  | nil => exact ⟨rfl, fun _ _ => rfl, fun _ _ => rfl, by simp⟩
  | append_singleton names n ih =>
    rw [List.length_append, List.length_singleton] at h
    obtain ⟨hsize, hbefore, hbehind, hnew⟩ := ih (by omega)
    have hstep : d.setNames first (names ++ [n]) = (d.setNames first names).setTupleVar (first + names.length) n := by
      rw [setNames, List.zipIdx_append, List.foldl_append]
      simp [setNames]
    have helem := fun j => elem_setTupleVar_of_lt (d.setNames first names) (i := first + names.length) j n (by omega)
    rw [hstep]
    refine ⟨(size_setTupleVar _ _ _).trans hsize, fun i hi => ?_, fun i hi => ?_, fun j hj => ?_⟩
    · rw [helem, if_neg (by omega)]
      exact hbefore i hi
    · rw [List.length_append, List.length_singleton] at hi
      rw [helem, if_neg (by omega)]
      exact hbehind i (by omega)
    · rw [elemIsConst, elemVarString, helem]
      rw [List.length_append, List.length_singleton] at hj
      rcases Nat.lt_succ_iff_lt_or_eq.1 hj with hlt | rfl
      · rw [if_neg (by omega), List.getElem_append_left hlt]
        exact hnew j hlt
      · rw [if_pos rfl]
        exact ⟨rfl, by simp⟩

end TupleDecl

/-! ## The names of the result -/

namespace Conjunction

/-- A vector of different locations, one for each variable. -/
theorem moves_range {σ : Nat → Nat} {n : Nat} (h : ∀ i < n, ∀ j < n, σ i = σ j → i = j) :
    Moves ((List.range n).map fun i => (σ i : Int)) σ where
  distinct := by
    have hall : ((List.range n).map fun i => (σ i : Int)).filter (fun new => 0 ≤ new) =
        (List.range n).map fun i => (σ i : Int) := List.filter_eq_self.2 fun x hx => by
      obtain ⟨i, -, rfl⟩ := List.mem_map.1 hx
      simp
    rw [distinctLocs, hall, decide_eq_true_eq]
    refine List.nodup_range.map_on fun i hi j hj hij => ?_
    exact h i (List.mem_range.1 hi) j (List.mem_range.1 hj) (by exact_mod_cast hij)
  loc := by
    intro l hl
    rw [List.length_map, List.length_range] at hl
    rw [List.getElem?_map, List.getElem?_range hl]
    rfl

theorem locs_range {σ : Nat → Nat} {n : Nat} (h : ∀ i < n, ∀ j < n, σ i = σ j → i = j) :
    ((List.range n).map fun i => (σ i : Int)) = ((List.range n).map σ).map Int.ofNat ∧ ((List.range n).map σ).Nodup := by
  refine ⟨by rw [List.map_map]; rfl, ?_⟩
  exact List.nodup_range.map_on fun i hi j hj hij => h i (List.mem_range.1 hi) j (List.mem_range.1 hj) hij

theorem elem_remap_range {σ : Nat → Nat} {n : Nat} (h : ∀ i < n, ∀ j < n, σ i = σ j → i = j) (d : TupleDecl) {i : Nat}
    (hi : i < n) : (d.remap ((List.range n).map fun i => (σ i : Int))).elem (σ i) = d.elem i := by
  obtain ⟨hlocs, hnd⟩ := locs_range h
  rw [hlocs]
  exact TupleDecl.elem_remap hnd d (by rw [List.getElem?_map, List.getElem?_range hi]; rfl)

theorem lhsLoc_injective {arity innerArity finalInArity : Nat} : ∀ i < arity, ∀ j < arity,
    lhsLoc arity innerArity finalInArity i = lhsLoc arity innerArity finalInArity j → i = j := by
  intro i hi j hj h
  unfold lhsLoc at h
  split_ifs at h <;> omega

theorem rhsLoc_injective {arity finalInArity finalOutArity : Nat} : ∀ i < arity, ∀ j < arity,
    rhsLoc finalInArity finalOutArity i = rhsLoc finalInArity finalOutArity j → i = j := by
  intro i hi j hj h
  unfold rhsLoc at h
  split_ifs at h <;> omega

/-- The names that are taken before the outputs are named: those of the inputs of the right side. -/
def inputNames (rhs : Conjunction) (innerArity : Nat) : List String :=
  (List.range (rhs.arity - innerArity)).map rhs.tupleDecl.pushedName

/-- The outputs of the left side. -/
def outputs (lhs : Conjunction) (innerArity : Nat) : List (Bool × String) :=
  (List.range (lhs.arity - innerArity)).map fun j =>
    (lhs.tupleDecl.elemIsConst (innerArity + j), lhs.tupleDecl.pushedName (innerArity + j))

/-- What a composition makes of the names: constants stay, and a variable has the name of the input or the name that was
returned for the output. -/
structure ComposedNames (lhs rhs : Conjunction) (innerArity : Nat) (returned : List String) (result : Conjunction) : Prop where
  arity : result.arity = (rhs.arity - innerArity) + (lhs.arity - innerArity)
  input : ∀ i < rhs.arity - innerArity, result.tupleDecl.elemIsConst i = false →
    rhs.tupleDecl.elemIsConst i = false ∧ result.tupleDecl.elemVarString i = rhs.tupleDecl.elemVarString i
  output : ∀ j (hj : j < returned.length), result.tupleDecl.elemIsConst (rhs.arity - innerArity + j) = false →
    lhs.tupleDecl.elemIsConst (innerArity + j) = false ∧
      result.tupleDecl.elemVarString (rhs.arity - innerArity + j) = returned[j]

/-- The declaration with the names: the search for them ends. -/
theorem composedDecl_spec {lhs rhs : Conjunction} {innerArity : Nat} (hl : innerArity ≤ lhs.arity) (hr : innerArity ≤ rhs.arity)
    {lhs_copy rhs_copy : Conjunction}
    (hlhs : lhs.pushConstToConstraints.remapTupleVars (shiftLHSVars lhs.arity innerArity (rhs.arity - innerArity)) = .ok lhs_copy)
    (hrhs : rhs.pushConstToConstraints.remapTupleVars
      (shiftRHSVars rhs.arity (rhs.arity - innerArity) (lhs.arity - innerArity)) = .ok rhs_copy) {d : TupleDecl}
    (hd : d.size = (rhs.arity - innerArity) + (lhs.arity - innerArity) + innerArity) :
    ∃ returned taken' d', uniqueNames ((lhs.outputs innerArity).map Prod.snd) (rhs.inputNames innerArity) = some (returned, taken') ∧
      returned.length = lhs.arity - innerArity ∧
      composedDecl lhs_copy.tupleDecl rhs_copy.tupleDecl d (rhs.arity - innerArity) (lhs.arity - innerArity) = some d' ∧
      d'.size = d.size ∧
      (∀ i < rhs.arity - innerArity, d'.elemIsConst i = false ∧ d'.elemVarString i = rhs.tupleDecl.pushedName i) ∧
      (∀ i < d.size, (rhs.arity - innerArity) + (lhs.arity - innerArity) ≤ i → d'.elem i = d.elem i) ∧
      ∀ j (hj : j < returned.length), d'.elemIsConst (rhs.arity - innerArity + j) = false ∧
        d'.elemVarString (rhs.arity - innerArity + j) = returned[j] := by
  obtain ⟨-, hlpush⟩ := lhs.pushConstToConstraints_step
  obtain ⟨-, hrpush⟩ := rhs.pushConstToConstraints_step
  obtain ⟨-, hlcopy⟩ := (remapTupleVars_eq_ok_iff (moves_range lhsLoc_injective)).1 hlhs
  obtain ⟨-, hrcopy⟩ := (remapTupleVars_eq_ok_iff (moves_range rhsLoc_injective)).1 hrhs
  have hout : ∀ j < lhs.arity - innerArity, lhs_copy.tupleDecl.elem (rhs.arity - innerArity + j) =
      lhs.pushConstToConstraints.tupleDecl.elem (innerArity + j) := by
    intro j hj
    have hloc : lhsLoc lhs.arity innerArity (rhs.arity - innerArity) (innerArity + j) = rhs.arity - innerArity + j := by
      rw [lhsLoc, if_neg (by omega)]
      omega
    rw [hlcopy, ← hloc]
    exact elem_remap_range lhsLoc_injective _ (by omega)
  have hin : ∀ i < rhs.arity - innerArity, rhs_copy.tupleDecl.elem i = rhs.pushConstToConstraints.tupleDecl.elem i := by
    intro i hi
    have hloc : rhsLoc (rhs.arity - innerArity) (lhs.arity - innerArity) i = i := if_pos hi
    rw [hrcopy]
    conv_lhs => rw [← hloc]
    exact elem_remap_range rhsLoc_injective _ (by omega)
  obtain ⟨hsize, hcopied⟩ := TupleDecl.elem_foldl_copy d rhs_copy.tupleDecl (rhs.arity - innerArity)
  generalize hinputs : (List.range (rhs.arity - innerArity)).foldl (fun d' i => d'.copyTupleElem rhs_copy.tupleDecl i i) d = inputs
    at hsize hcopied
  have hinput : ∀ i < rhs.arity - innerArity, inputs.elem i = rhs.pushConstToConstraints.tupleDecl.elem i := by
    intro i hi
    rw [hcopied i (by omega), if_pos hi, hin i hi]
  have htaken : (List.range (rhs.arity - innerArity)).map inputs.elemVarString = rhs.inputNames innerArity := by
    refine List.map_congr_left fun i hi => ?_
    rw [TupleDecl.elemVarString, hinput i (List.mem_range.1 hi)]
    exact (hrpush i (by have := List.mem_range.1 hi; omega)).2.1
  have hnames : ((List.range (lhs.arity - innerArity)).map fun i => lhs_copy.tupleDecl.elemVarString (rhs.arity - innerArity + i)) =
      (lhs.outputs innerArity).map Prod.snd := by
    rw [outputs, List.map_map]
    refine List.map_congr_left fun j hj => ?_
    have hj' := List.mem_range.1 hj
    rw [TupleDecl.elemVarString, hout j hj']
    exact (hlpush (innerArity + j) (by omega)).2.1
  obtain ⟨returned, taken', hrun, hstate⟩ := exists_namesAfter (lhs.outputs innerArity) (rhs.inputNames innerArity)
  have hlen : returned.length = lhs.arity - innerArity := by
    rw [hstate.length, outputs, List.length_map, List.length_range]
  obtain ⟨hsize', hbefore, hbehind, hnew⟩ := inputs.elem_setNames (rhs.arity - innerArity) returned (by omega)
  refine ⟨returned, taken', inputs.setNames (rhs.arity - innerArity) returned, hrun, hlen, ?_, hsize'.trans hsize,
    fun i hi => ?_, fun i hi hle => ?_, hnew⟩
  · rw [composedDecl]
    simp only [hinputs, htaken, hnames, hrun, Option.bind_eq_bind, Option.bind_some]
  · rw [TupleDecl.elemIsConst, TupleDecl.elemVarString, hbefore i hi, hinput i hi]
    obtain ⟨h₁, h₂, -⟩ := hrpush i (by omega)
    exact ⟨h₁, h₂⟩
  · rw [hbehind i (by omega), hcopied i hi, if_neg (by omega)]

/-- The keys of the substitutions are the inner variables. -/
theorem innerSubMap_keys {env : Environment} {c : Conjunction} {outer innerArity : Nat} {first last : Int} {m : SubMap}
    (hc : ∀ j < innerArity, c.tupleDecl.elemIsConst (outer + j) = false)
    (h : innerSubMap env c outer innerArity first last = .ok m) : ∀ p ∈ m, ∃ l, p.1 = .tupleVar 1 l ∧ outer ≤ l := by
  intro p hp
  obtain ⟨j, hj, hrun⟩ := Outcome.exists_of_mem_forall₂ (Outcome.forall₂_of_mapM h) hp
  rw [bind_eq_ok] at hrun
  obtain ⟨x, -, hx⟩ := hrun
  cases hx
  refine ⟨outer + j, ?_, Nat.le_add_right _ _⟩
  rw [TupleDecl.elemCreateTerm, hc j (List.mem_range.1 hj)]
  rfl

theorem innerSubMap_keys_of_composeSubMap {env : Environment} {bothFunctions : Bool} {c : Conjunction}
    {finalInArity finalOutArity innerArity : Nat} {m : SubMap}
    (h : composeSubMap env bothFunctions c finalInArity finalOutArity innerArity = .ok m)
    (hc : ∀ j < innerArity, c.tupleDecl.elemIsConst (finalInArity + finalOutArity + j) = false) :
    ∀ p ∈ m, ∃ l, p.1 = .tupleVar 1 l ∧ finalInArity + finalOutArity ≤ l := by
  cases bothFunctions with
  | true => exact innerSubMap_keys hc h
  | false => exact innerSubMap_keys hc h

/-- Cutting a declaration with variables only: the first elements and the constraints stay. -/
theorem truncated_spec {env : Environment} {start substituted truncated : Conjunction} {m : SubMap} {outer : Nat}
    (hvars : ∀ i < outer, start.tupleDecl.elemIsConst i = false)
    (hsubst : start.substituteInConstraints env m = .ok substituted)
    (htrunc : substituted.setTupleDecl (start.tupleDecl.truncate outer) = .ok truncated) :
    truncated.equalities = substituted.equalities ∧ truncated.inequalities = substituted.inequalities ∧
      truncated.inArity = start.inArity ∧ truncated.arity = outer ∧
      ∀ i < outer, truncated.tupleDecl.elem i = start.tupleDecl.elem i := by
  obtain ⟨hdecl, hin⟩ := cleanUp_fields hsubst
  obtain ⟨-, rfl⟩ := setTupleDecl_eq_ok_iff.1 htrunc
  obtain ⟨htsize, htelem⟩ := start.tupleDecl.elem_truncate outer
  refine ⟨rfl, rfl, hin, size_redeclared.trans htsize, fun i hi => ?_⟩
  rw [elem_redeclared (by rw [htsize]; exact hi), elemAfter, if_neg, htelem i hi]
  rintro ⟨-, hconst, -⟩
  rw [hdecl] at hconst
  change start.tupleDecl.elemIsConst i = true at hconst
  rw [hvars i hi] at hconst
  cases hconst

/-- The last steps, from a declaration with variables only: the first elements stay, variables keep their names, and those
that an equality gives a constant become constants. -/
theorem finish_spec {env : Environment} {start substituted truncated result : Conjunction} {m : SubMap} {outer : Nat}
    (hvars : ∀ i < outer, start.tupleDecl.elemIsConst i = false) (hkeys : ∀ p ∈ m, ∃ l, p.1 = .tupleVar 1 l ∧ outer ≤ l)
    (hsubst : start.substituteInConstraints env m = .ok substituted)
    (htrunc : substituted.setTupleDecl (start.tupleDecl.truncate outer) = .ok truncated)
    (hpush : truncated.pushConstConstraintsToTupleDecl env = .ok result) : result.arity = outer ∧
      (∀ i < outer, result.tupleDecl.elemIsConst i = false → result.tupleDecl.elemVarString i = start.tupleDecl.elemVarString i) ∧
      ∀ i v, i < outer → start.HasConstEq i v → result.tupleDecl.elemIsConst i = true := by
  obtain ⟨hequalities, -, -, harity, helem⟩ := truncated_spec hvars hsubst htrunc
  obtain ⟨hpushed, -⟩ := pushed_of_push hpush
  refine ⟨hpushed.size.trans harity, fun i hi hvar => ?_, fun i v hi hconst => ?_⟩
  · obtain ⟨-, hno⟩ := (hpushed.elemIsConst_iff i).1 hvar
    rw [TupleDecl.elemVarString, hpushed.kept i hno, helem i hi]
    rfl
  · obtain ⟨e, he, heq⟩ := hconst.substituteInConstraints (fun p hp => by
      obtain ⟨l, hl, hle⟩ := hkeys p hp
      exact ⟨l, hl, by omega⟩) hsubst
    have htr : truncated.HasConstEq i v := ⟨e, by rw [hequalities]; exact he, heq⟩
    exact htr.elemIsConst (by rw [harity]; exact hi) hpush

/-- The constants of a side are equalities of its copy, at the new locations. -/
theorem hasConstEq_copy {c copy : Conjunction} {σ : Nat → Nat} (hσ : ∀ i < c.arity, ∀ j < c.arity, σ i = σ j → i = j)
    (h : c.pushConstToConstraints.remapTupleVars ((List.range c.arity).map fun i => (σ i : Int)) = .ok copy) {i : Nat}
    (hi : i < c.arity) (hconst : c.tupleDecl.elemIsConst i = true) :
    copy.HasConstEq (σ i) (c.tupleDecl.elemConstVal i) :=
  ((c.pushConstToConstraints_step.2 i hi).2.2 hconst).remapTupleVars (moves_range hσ) h

/-- What a composition that returns makes of the names. -/
theorem composedNames {env : Environment} {lhs rhs result : Conjunction} {innerArity : Nat} (hl : innerArity ≤ lhs.arity)
    (hr : innerArity ≤ rhs.arity) (h : lhs.Compose env rhs innerArity = .ok result) :
    ∃ returned taken', uniqueNames ((lhs.outputs innerArity).map Prod.snd) (rhs.inputNames innerArity) = some (returned, taken') ∧
      returned.length = lhs.arity - innerArity ∧ ComposedNames lhs rhs innerArity returned result := by
  unfold Compose at h
  simp only [bind_eq_ok] at h
  obtain ⟨lhsIsFunction, -, rhsIsFunction, -, lhsIsFunctionInverse, -, rhsIsFunctionInverse, -, h⟩ := h
  generalize (!((lhsIsFunction && rhsIsFunction) || (lhsIsFunctionInverse && rhsIsFunctionInverse))) = refused at h
  cases refused with
  | true => cases h
  | false =>
    rw [if_neg Bool.false_ne_true] at h
    simp only [bind_eq_ok] at h
    obtain ⟨lhs_copy, hlhs, rhs_copy, hrhs, start, hstart, submap, hsubmap, substituted, hsubst, truncated, htrunc, hpush⟩ := h
    obtain ⟨returned, taken', d', hrun, hlen, hdecl, hsize, hinputs, hbehind, houtputs⟩ :=
      composedDecl_spec hl hr hlhs hrhs (TupleDecl.size_sDefaultTupleDecl _)
    obtain rfl : start = { ((ofArity (rhs.arity - innerArity + (lhs.arity - innerArity) + innerArity)).copyConstraintsFrom
        rhs_copy).copyConstraintsFrom lhs_copy with tupleDecl := d', inArity := rhs.arity - innerArity } := by
      unfold joined at hstart
      dsimp only at hstart
      rw [show (((ofArity (rhs.arity - innerArity + (lhs.arity - innerArity) + innerArity)).copyConstraintsFrom
        rhs_copy).copyConstraintsFrom lhs_copy).tupleDecl = .sDefaultTupleDecl _ from rfl, hdecl] at hstart
      exact (Except.ok.inj hstart).symm
    have houter : ∀ i < rhs.arity - innerArity + (lhs.arity - innerArity), d'.elemIsConst i = false := by
      intro i hi
      rcases lt_or_ge i (rhs.arity - innerArity) with hlt | hge
      · exact (hinputs i hlt).1
      · have hout := (houtputs (i - (rhs.arity - innerArity)) (by omega)).1
        rwa [show rhs.arity - innerArity + (i - (rhs.arity - innerArity)) = i by omega] at hout
    have hkeys := innerSubMap_keys_of_composeSubMap hsubmap fun j hj => by
      rw [TupleDecl.elemIsConst, hbehind _ (by rw [TupleDecl.size_sDefaultTupleDecl]; omega) (by omega)]
      exact elemIsConst_sDefaultTupleDecl _ _
    obtain ⟨harity, hname, hstays⟩ := finish_spec houter hkeys hsubst htrunc hpush
    refine ⟨returned, taken', hrun, hlen, harity, fun i hi hvar => ?_, fun j hj hvar => ?_⟩
    · have hnotconst : rhs.tupleDecl.elemIsConst i = false := by
        by_contra hconst
        rw [Bool.not_eq_false] at hconst
        obtain ⟨e, he, heq⟩ := hasConstEq_copy rhsLoc_injective hrhs (by omega) hconst
        rw [rhsLoc, if_pos hi] at heq
        rw [hstays i _ (by omega) ⟨e, List.mem_append_left _ (List.mem_append_right _ he), heq⟩] at hvar
        cases hvar
      refine ⟨hnotconst, ?_⟩
      rw [hname i (by omega) hvar]
      change d'.elemVarString i = _
      rw [(hinputs i hi).2, TupleDecl.pushedName, hnotconst]
      rfl
    · refine ⟨?_, (hname _ (by omega) hvar).trans (houtputs j hj).2⟩
      by_contra hconst
      rw [Bool.not_eq_false] at hconst
      obtain ⟨e, he, heq⟩ := hasConstEq_copy lhsLoc_injective hlhs (by omega) hconst
      rw [show lhsLoc lhs.arity innerArity (rhs.arity - innerArity) (innerArity + j) = rhs.arity - innerArity + j by
        rw [lhsLoc, if_neg (by omega)]; omega] at heq
      rw [hstays _ _ (by omega) ⟨e, List.mem_append_right _ he, heq⟩] at hvar
      cases hvar

end Conjunction

/-! ## When the names are different -/

/-- The variables in a part of the declaration have different names. -/
def TupleDecl.DistinctNames (d : TupleDecl) (first last : Nat) : Prop :=
  ∀ i j, first ≤ i → i < j → j < last → d.elemIsConst i = false → d.elemIsConst j = false →
    d.elemVarString i ≠ d.elemVarString j

namespace Conjunction

theorem getElem_outputs {lhs : Conjunction} {innerArity j : Nat} (hj : j < (lhs.outputs innerArity).length) :
    (lhs.outputs innerArity)[j] =
      (lhs.tupleDecl.elemIsConst (innerArity + j), lhs.tupleDecl.pushedName (innerArity + j)) := by
  simp [outputs]

theorem nodup_outputs {lhs : Conjunction} {innerArity : Nat} (h : lhs.tupleDecl.DistinctNames innerArity lhs.arity) :
    (variableNames (lhs.outputs innerArity)).Nodup := by
  rw [nodup_variableNames_iff]
  intro i j hi hj hij hvar hvar'
  have hlen : (lhs.outputs innerArity).length = lhs.arity - innerArity := by simp [outputs]
  simp only [getElem_outputs] at hvar hvar' ⊢
  rw [TupleDecl.pushedName, TupleDecl.pushedName, if_neg (by simp [hvar]), if_neg (by simp [hvar'])]
  exact h _ _ (Nat.le_add_right _ _) (by omega) (by omega) hvar hvar'

/-- Names that are returned once, and none of them taken, make the names of the result different. -/
theorem ComposedNames.distinctNames {lhs rhs result : Conjunction} {innerArity : Nat} {returned : List String}
    (h : ComposedNames lhs rhs innerArity returned result) (hlen : returned.length = lhs.arity - innerArity)
    (hin : rhs.tupleDecl.DistinctNames 0 (rhs.arity - innerArity)) (hfresh : ∀ r ∈ returned, r ∉ rhs.inputNames innerArity)
    (hnodup : (variableNames (renamed (lhs.outputs innerArity) returned)).Nodup) :
    result.tupleDecl.DistinctNames 0 result.arity := by
  rw [nodup_variableNames_iff] at hnodup
  have houtLen : (lhs.outputs innerArity).length = lhs.arity - innerArity := by simp [outputs]
  have hrenamed : (renamed (lhs.outputs innerArity) returned).length = returned.length := by
    rw [renamed, List.length_zip, List.length_map]
    omega
  rintro i j - hij hj hvar hvar'
  rw [h.arity] at hj
  rcases lt_or_ge j (rhs.arity - innerArity) with hjin | hjout
  · -- two inputs
    obtain ⟨hvi, hi⟩ := h.input i (by omega) hvar
    obtain ⟨hvj, hj'⟩ := h.input j hjin hvar'
    rw [hi, hj']
    exact hin i j (Nat.zero_le i) hij hjin hvi hvj
  · obtain ⟨l, rfl⟩ := Nat.exists_eq_add_of_le hjout
    obtain ⟨hvl, hl⟩ := h.output l (by omega) hvar'
    rw [hl]
    rcases lt_or_ge i (rhs.arity - innerArity) with hiin | hiout
    · -- an input and an output
      obtain ⟨hvi, hi⟩ := h.input i hiin hvar
      rw [hi]
      intro heq
      have hmem : returned[l] ∈ rhs.inputNames innerArity := by
        refine List.mem_map.2 ⟨i, List.mem_range.2 hiin, ?_⟩
        rw [← heq, TupleDecl.pushedName, hvi]
        rfl
      exact hfresh _ (List.getElem_mem _) hmem
    · -- two outputs
      obtain ⟨k, rfl⟩ := Nat.exists_eq_add_of_le hiout
      obtain ⟨hvk, hk⟩ := h.output k (by omega) hvar
      rw [hk]
      have hne := hnodup k l (by omega) (by omega) (by omega)
      simp only [renamed, List.getElem_zip, List.getElem_map, getElem_outputs] at hne
      exact hne hvk hvl

/-- The names of a composition: the calls of `createUniqueName` end, return no name twice for variables, and the variables
of the result have different names, iff no call returns the name of an earlier output. -/
theorem Compose_namesDistinct_iff (env : Environment) (lhs rhs result : Conjunction) (innerArity : Nat)
    (hl : innerArity ≤ lhs.arity) (hr : innerArity ≤ rhs.arity)
    (hin : rhs.tupleDecl.DistinctNames 0 (rhs.arity - innerArity))
    (hout : lhs.tupleDecl.DistinctNames innerArity lhs.arity) (h : lhs.Compose env rhs innerArity = .ok result) :
    (result.tupleDecl.DistinctNames 0 result.arity ∧ NamesDistinct (lhs.outputs innerArity) (rhs.inputNames innerArity)) ↔
      NeverMeets (lhs.outputs innerArity) (rhs.inputNames innerArity) := by
  rw [← namesDistinct_iff (nodup_outputs hout)]
  refine ⟨And.right, fun hnames => ⟨?_, hnames⟩⟩
  obtain ⟨returned, taken', hrun, hlen, hcomposed⟩ := composedNames hl hr h
  obtain ⟨returned', t, hrun', hfresh, hnodup⟩ := hnames
  rw [hrun, Option.some.injEq, Prod.mk.injEq] at hrun'
  obtain ⟨rfl, -⟩ := hrun'
  exact hcomposed.distinctNames hlen hin hfresh hnodup

/-- `{[x] -> [y] : y = x}` with these names. -/
def identityConj (x y : String) : Conjunction :=
  ⟨[.mk .equality [.tupleVar 1 0, .tupleVar (-1) 1]], [], ⟨[⟨false, 0, x⟩, ⟨false, 0, y⟩]⟩, 1⟩

/-- `{[x] -> [y, z] : y = x && z = x}` with these names. -/
def doubleConj (x y z : String) : Conjunction :=
  ⟨[.mk .equality [.tupleVar 1 0, .tupleVar (-1) 1], .mk .equality [.tupleVar 1 0, .tupleVar (-1) 2]], [],
    ⟨[⟨false, 0, x⟩, ⟨false, 0, y⟩, ⟨false, 0, z⟩]⟩, 1⟩

/-- `{[k] -> [i1, i]}` composed with `{[i] -> [k]}` is `{[i] -> [i1, i1]}`. -/
theorem Compose_namesDistinct_fails :
    (identityConj "i" "k").tupleDecl.DistinctNames 0 1 ∧ (doubleConj "k" "i1" "i").tupleDecl.DistinctNames 1 3 ∧
      ∃ result, (doubleConj "k" "i1" "i").Compose ⟨[], [], []⟩ (identityConj "i" "k") 1 = .ok result ∧
        ¬ result.tupleDecl.DistinctNames 0 result.arity := by
  refine ⟨?_, ?_, _, rfl, fun h => h 1 2 (by decide) (by decide) (by decide) rfl rfl rfl⟩
  · rintro i j - hij hj
    omega
  · rintro i j hi hij hj - -
    obtain rfl : i = 1 := by omega
    obtain rfl : j = 2 := by omega
    decide

/-- `{[k] -> [i, j]}` composed with `{[i] -> [k]}` is `{[i] -> [i1, j]}`. -/
theorem Compose_namesDistinct_renamed : ∃ result,
    (doubleConj "k" "i" "j").Compose ⟨[], [], []⟩ (identityConj "i" "k") 1 = .ok result ∧
      result.tupleDecl.DistinctNames 0 result.arity := by
  obtain ⟨result, h⟩ : ∃ result,
      (doubleConj "k" "i" "j").Compose ⟨[], [], []⟩ (identityConj "i" "k") 1 = .ok result := ⟨_, rfl⟩
  refine ⟨result, h, ((Compose_namesDistinct_iff ⟨[], [], []⟩ (doubleConj "k" "i" "j") (identityConj "i" "k") result 1
    (by decide) (by decide) ?_ ?_ h).2 ?_).1⟩
  · rintro i j - hij hj
    simp only [identityConj, Conjunction.arity, TupleDecl.size, List.length_cons, List.length_nil] at hj
    omega
  · intro i j hi hij hj _ _
    simp only [doubleConj, Conjunction.arity, TupleDecl.size, List.length_cons, List.length_nil] at hj
    obtain rfl : i = 1 := by omega
    obtain rfl : j = 2 := by omega
    decide
  · exact (namesDistinct_iff (by decide)).1 ⟨["i1", "j"], ["i1", "i"], by decide, by decide, by decide⟩

end Conjunction

end IEGen
