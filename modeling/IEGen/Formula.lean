import IEGen.Lib.SExpr
import IEGen.Named

/-!
# The formula of a constraint

A solver decides formulas of integer arithmetic. The formula of a constraint has the terms with a negative coefficient on its
left side and the other terms on its right side, each with the amount of its coefficient; a call has all of its arguments, and
an argument is the sum of its terms.

* `Exp.formula` is the formula of a constraint.
* The tuple of an assignment has its values at the places of the variables (`tupleOf`), and the assignment is an interpretation
  of the symbolic constants and the functions (`interpOf`).
* The formula holds for an assignment just where the constraint does (`holds_formula_equality`, `holds_formula_inequality`).
-/

namespace IEGen

open SExpr (Assignment)

/-! ## The formula -/

/-- A sum with a constant; a single summand stands for itself. -/
def smtSum (xs : List SExpr) (k : Int) : SExpr :=
  if k = 0 then
    match xs with
    | [] => .num 0
    | [x] => x
    | xs => .list (.sym "+" :: xs)
  else .list (.sym "+" :: (xs ++ [.num k]))

theorem smtSum_of_ne_zero {k : Int} (hk : k ≠ 0) (xs : List SExpr) :
    smtSum xs k = .list (.sym "+" :: (xs ++ [.num k])) := if_neg hk

/-- A multiple; the coefficient one is not written. -/
def smtProduct (c : Int) (x : SExpr) : SExpr := if c = 1 then x else .list [.sym "*", .num c, x]

/-- The sum of the constants among the terms. -/
def constSum (ts : List Term) : Int := ((ts.filter Term.isConst).map Term.coefficient).sum

section Formula

variable (d : TupleDecl)

mutual
/-- A term without its coefficient. A component of the result of a function has a symbol of its own. -/
def Term.smtFactor : Term → SExpr
  | .tupleVar _ l => if d.elemIsConst l then .num (d.elemConstVal l) else .sym (d.elemVarString l)
  | .symConst _ s => .sym s
  | .ufCall _ f [] i => .sym (f ++ indexToString i)
  | .ufCall _ f (e :: es) i => .list (.sym (f ++ indexToString i) :: e.smt :: argsSmt es)
  | .constVal _ => .num 1
  | .tupleExp _ es => .list (argsSmt es)

/-- An argument. -/
def Exp.smt : Exp → SExpr
  | .mk _ ts => smtSum (termsSmt ts) (constSum ts)

def argsSmt : List Exp → List SExpr
  | [] => []
  | e :: es => e.smt :: argsSmt es

/-- The terms that are no constants, with their coefficients. -/
def termsSmt : List Term → List SExpr
  | [] => []
  | t :: ts => if t.isConst then termsSmt ts else smtProduct t.coefficient t.smtFactor :: termsSmt ts
end

/-- The terms of one side of a constraint. -/
def Exp.sideTerms (left : Bool) (e : Exp) : List Term :=
  e.terms.filter (fun t => !t.isConst && decide (t.coefficient < 0) == left)

/-- One side of a constraint; zero is written where there is no term. -/
def Exp.side (left : Bool) (e : Exp) : List SExpr :=
  match e.sideTerms left with
  | [] => [.num 0]
  | ts => ts.map (fun t => smtProduct t.coefficient.natAbs (t.smtFactor d))

/-- A comparison whose left side is the lesser one by a constant. -/
def smtCompare (comp : String) (left right : List SExpr) (k : Int) : SExpr :=
  .list [.sym comp, smtSum left (max (-k) 0), smtSum right (max k 0)]

/-- The formula of a constraint; an inequality with a constant is strict. -/
def Exp.formula (e : Exp) : SExpr :=
  let k := constSum e.terms
  if e.expType = .equality then smtCompare "=" (e.side d true) (e.side d false) k
  else if k = 0 then smtCompare "<=" (e.side d true) (e.side d false) 0
  else smtCompare "<" (e.side d true) (e.side d false) (k + 1)

mutual
/-- Only integers are compared, and the variables have places. -/
def Term.Integral : Term → Prop
  | .tupleVar _ l => l < d.size
  | .ufCall _ f as i => i = none ∧ f ≠ "+" ∧ f ≠ "*" ∧ argsIntegral as
  | .symConst .. | .constVal _ => True
  | .tupleExp .. => False

def Exp.Integral : Exp → Prop
  | .mk _ ts => termsIntegral ts

def argsIntegral : List Exp → Prop
  | [] => True
  | e :: es => e.Integral ∧ argsIntegral es

def termsIntegral : List Term → Prop
  | [] => True
  | t :: ts => t.Integral ∧ termsIntegral ts
end

end Formula

theorem constSum_const (c : Int) (ts : List Term) : constSum (.constVal c :: ts) = c + constSum ts := rfl

theorem constSum_of_not_isConst {t : Term} (h : t.isConst = false) (ts : List Term) : constSum (t :: ts) = constSum ts := by
  rw [constSum, List.filter_cons_of_neg (by rw [h]; decide)]
  rfl

theorem Term.eq_constVal {t : Term} (h : t.isConst = true) : ∃ c, t = .constVal c := by
  cases t with
  | constVal c => exact ⟨c, rfl⟩
  | tupleVar | symConst | ufCall | tupleExp => cases h

/-! ## Assignments -/

/-- What an assignment says of the symbolic constants and the functions. -/
def interpOf (A : Assignment) : Interp where
  sym := A.vars
  fn f xs := [if xs = [] then A.vars f else A.funcs f xs]
  dom _ := 1
  cod _ := 1

/-- The value at a place. -/
def placeVal (A : Assignment) : Place → Int
  | .var name => A.vars name
  | .const value => value

/-- The tuple of an assignment. -/
def tupleOf (A : Assignment) (d : TupleDecl) : List Int := d.places.map (placeVal A)

/-! ## Values -/

section Value

variable {A : Assignment} {d : TupleDecl}

theorem seqValues_append (xs ys : List SExpr) :
    SExpr.seqValues A (xs ++ ys) = SExpr.seqValues A xs ++ SExpr.seqValues A ys := by
  induction xs with
  | nil => rfl
  | cons x xs ih => simp [SExpr.seqValues, ih]

theorem value_plus (xs : List SExpr) : SExpr.value A (.list (.sym "+" :: xs)) = (SExpr.seqValues A xs).sum := by
  rw [SExpr.value]

theorem value_call {f : String} (xs : List SExpr) (h₁ : f ≠ "+") (h₂ : f ≠ "*") :
    SExpr.value A (.list (.sym f :: xs)) = A.funcs f (SExpr.seqValues A xs) := by
  rw [SExpr.value]
  · exact fun h => h₁ h
  · exact fun h => h₂ h

theorem value_smtSum (xs : List SExpr) (k : Int) : (smtSum xs k).value A = (SExpr.seqValues A xs).sum + k := by
  unfold smtSum
  split
  · next hk =>
    subst hk
    match xs with
    | [] => rfl
    | [x] => simp [SExpr.seqValues]
    | x :: y :: xs => exact (value_plus _).trans (add_zero _).symm
  · rw [value_plus, seqValues_append]
    simp [SExpr.seqValues, SExpr.value]

theorem value_smtProduct (c : Int) (x : SExpr) : (smtProduct c x).value A = c * x.value A := by
  unfold smtProduct
  split
  · next hc => rw [hc, one_mul]
  · simp [SExpr.value, SExpr.seqValues]

theorem valuation_tupleOf {l : Nat} (h : l < d.size) : valuation (tupleOf A d) l = (Term.smtFactor d (.tupleVar 1 l)).value A := by
  unfold valuation tupleOf
  rw [List.getD_eq_getElem?_getD, List.getElem?_map, getElem_places h, Term.smtFactor]
  cases d.elemIsConst l <;> simp [placeVal, SExpr.value]

theorem argTuple_interpOf (f : String) (vs : List (Nat → Int)) : (interpOf A).argTuple f vs = vs.map (· 0) := by
  match vs with
  | [] => rfl
  | [v] => rfl
  | v :: w :: vs => rfl

mutual
/-- A term has the value of its formula, and no other component. -/
theorem Term.val_interpOf : ∀ {t : Term}, t.Integral d → t.isConst = false →
    t.val (interpOf A) (valuation (tupleOf A d)) = scalar (t.coefficient * (t.smtFactor d).value A)
  | .tupleVar c l, h, _ => by
    rw [Term.val, valuation_tupleOf h]
    rfl
  | .symConst c s, _, _ => by simp [Term.val, Term.smtFactor, SExpr.value, interpOf, Term.coefficient]
  | .ufCall c f as i, h, _ => by
    obtain ⟨rfl, h₁, h₂, has⟩ := h
    have hargs := argsVal_interpOf has
    have hzero : (interpOf A).callVal f (argsVal (interpOf A) (valuation (tupleOf A d)) as) =
        scalar ((Term.smtFactor d (.ufCall c f as none)).value A) := by
      funext k
      unfold Interp.callVal
      rw [argTuple_interpOf, hargs]
      cases k with
      | succ k => exact if_neg (by simp [interpOf])
      | zero =>
        rw [if_pos (by simp [interpOf])]
        cases as with
        | nil => simp [interpOf, argsSmt, SExpr.seqValues, Term.smtFactor, indexToString, SExpr.value]
        | cons e es =>
          rw [Term.smtFactor, indexToString, String.append_empty, value_call _ h₁ h₂]
          simp [interpOf, argsSmt, SExpr.seqValues]
    funext k
    rw [Term.val, hzero]
    cases k <;> simp [Term.coefficient]
  | .constVal _, _, h => by cases h

theorem Exp.val_interpOf : ∀ {e : Exp}, e.Integral d →
    e.val (interpOf A) (valuation (tupleOf A d)) = scalar ((e.smt d).value A)
  | .mk k ts, h => by
    rw [Exp.val, termsVal_interpOf h, Exp.smt, value_smtSum]

theorem argsVal_interpOf : ∀ {es : List Exp}, argsIntegral d es →
    (argsVal (interpOf A) (valuation (tupleOf A d)) es).map (· 0) = SExpr.seqValues A (argsSmt d es)
  | [], _ => rfl
  | e :: es, ⟨he, hes⟩ => by
    rw [argsVal, List.map_cons, Exp.val_interpOf he, argsVal_interpOf hes]
    rfl

theorem termsVal_interpOf : ∀ {ts : List Term}, termsIntegral d ts →
    termsVal (interpOf A) (valuation (tupleOf A d)) ts = scalar ((SExpr.seqValues A (termsSmt d ts)).sum + constSum ts)
  | [], _ => by
    funext k
    cases k <;> rfl
  | t :: ts, ⟨ht, hts⟩ => by
    have hrest := termsVal_interpOf hts
    funext k
    rw [termsVal_cons, hrest]
    cases hc : t.isConst with
    | true =>
      obtain ⟨c, rfl⟩ := Term.eq_constVal hc
      cases k with
      | zero =>
        simp only [Term.val, scalar_zero, termsSmt, Term.isConst, if_pos, constSum_const]
        ring
      | succ k => rfl
    | false =>
      rw [Term.val_interpOf ht hc]
      cases k with
      | zero =>
        simp only [scalar_zero, termsSmt, hc, Bool.false_eq_true, if_false, SExpr.seqValues, value_smtProduct,
          constSum_of_not_isConst hc, List.sum_cons]
        ring
      | succ k => rfl
end

/-! ## Constraints -/

/-- The value of one side without its constant. -/
def sideSum (A : Assignment) (d : TupleDecl) (left : Bool) (ts : List Term) : Int :=
  ((ts.filter (fun t => !t.isConst && decide (t.coefficient < 0) == left)).map
    (fun t => (t.coefficient.natAbs : Int) * (t.smtFactor d).value A)).sum

theorem sum_side (left : Bool) (e : Exp) : (SExpr.seqValues A (e.side d left)).sum = sideSum A d left e.terms := by
  have hmap : ∀ ts : List Term,
      (SExpr.seqValues A (ts.map (fun t => smtProduct t.coefficient.natAbs (t.smtFactor d)))).sum =
        (ts.map (fun t => (t.coefficient.natAbs : Int) * (t.smtFactor d).value A)).sum := by
    intro ts
    induction ts with
    | nil => rfl
    | cons t ts ih => simp only [List.map_cons, SExpr.seqValues, List.sum_cons, value_smtProduct, ih]
  unfold Exp.side
  split
  · next h =>
    show _ = ((e.sideTerms left).map _).sum
    rw [h]
    rfl
  · exact hmap _

/-- The two sides and the constant make up the value. -/
theorem sum_termsSmt (ts : List Term) :
    (SExpr.seqValues A (termsSmt d ts)).sum = sideSum A d false ts - sideSum A d true ts := by
  induction ts with
  | nil => rfl
  | cons t ts ih =>
    unfold termsSmt
    cases hc : t.isConst with
    | true =>
      rw [if_pos rfl, ih]
      simp [sideSum, hc]
    | false =>
      rw [if_neg (by simp)]
      simp only [SExpr.seqValues, List.sum_cons, value_smtProduct, ih, sideSum, List.filter_cons, hc]
      rcases lt_or_ge t.coefficient 0 with hneg | hpos
      · simp only [hneg, decide_true, Bool.not_false, Bool.true_and, beq_self_eq_true, if_pos, List.map_cons, List.sum_cons,
          Bool.true_beq, Bool.false_eq_true, if_false]
        rw [show ((t.coefficient.natAbs : Nat) : Int) = -t.coefficient by omega]
        ring
      · simp only [not_lt.2 hpos, decide_false, Bool.not_false, Bool.true_and, beq_self_eq_true, if_pos, List.map_cons,
          List.sum_cons, Bool.false_beq, Bool.not_true, Bool.false_eq_true, if_false]
        rw [show ((t.coefficient.natAbs : Nat) : Int) = t.coefficient by omega]
        ring

theorem Exp.val_eq_sides {e : Exp} (h : e.Integral d) : e.val (interpOf A) (valuation (tupleOf A d)) =
    scalar (sideSum A d false e.terms - sideSum A d true e.terms + constSum e.terms) := by
  obtain ⟨k, ts⟩ := e
  rw [Exp.val, termsVal_interpOf h, sum_termsSmt]
  rfl

theorem holdsEq_scalar {I : Interp} {τ : Nat → Int} {e : Exp} {v : Int} (h : e.val I τ = scalar v) : e.HoldsEq I τ ↔ v = 0 := by
  unfold Exp.HoldsEq
  rw [h]
  exact ⟨fun h => h 0, fun h k => by cases k <;> simp [h]⟩

theorem holdsGe_scalar {I : Interp} {τ : Nat → Int} {e : Exp} {v : Int} (h : e.val I τ = scalar v) : e.HoldsGe I τ ↔ 0 ≤ v := by
  unfold Exp.HoldsGe
  rw [h]
  exact ⟨fun h => h 0, fun h k => by cases k <;> simp [h]⟩

/-- The formula of an equality holds where the equality does. -/
theorem holds_formula_equality {e : Exp} (hk : e.expType = .equality) (h : e.Integral d) :
    (e.formula d).Holds A ↔ e.HoldsEq (interpOf A) (valuation (tupleOf A d)) := by
  rw [holdsEq_scalar (Exp.val_eq_sides h), Exp.formula, if_pos hk, smtCompare, SExpr.Holds]
  rw [value_smtSum, value_smtSum, sum_side, sum_side]
  omega

/-- The formula of an inequality holds where the inequality does. -/
theorem holds_formula_inequality {e : Exp} (hk : e.expType = .inequality) (h : e.Integral d) :
    (e.formula d).Holds A ↔ e.HoldsGe (interpOf A) (valuation (tupleOf A d)) := by
  rw [holdsGe_scalar (Exp.val_eq_sides h), Exp.formula, if_neg (by rw [hk]; decide)]
  split
  all_goals
    rw [smtCompare, SExpr.Holds, value_smtSum, value_smtSum, sum_side, sum_side]
    omega

/-- The tuple of an assignment is in a conjunction just where the assignment satisfies the formulas of the constraints. -/
theorem Conjunction.mem_denote_tupleOf {c : Conjunction} (heqs : ∀ e ∈ c.equalities, e.expType = .equality)
    (hineqs : ∀ e ∈ c.inequalities, e.expType = .inequality)
    (h : ∀ e ∈ c.equalities ++ c.inequalities, e.Integral c.tupleDecl) :
    (∀ e ∈ c.equalities ++ c.inequalities, (e.formula c.tupleDecl).Holds A) ↔
      tupleOf A c.tupleDecl ∈ c.denote (interpOf A) := by
  have hadmits : c.tupleDecl.Admits (tupleOf A c.tupleDecl) := by
    refine ⟨by simp [tupleOf, TupleDecl.places, TupleDecl.size], fun i hi hc => ?_⟩
    rw [valuation_tupleOf hi, Term.smtFactor, if_pos hc]
    rfl
  have heq : ∀ e ∈ c.equalities,
      ((e.formula c.tupleDecl).Holds A ↔ e.HoldsEq (interpOf A) (valuation (tupleOf A c.tupleDecl))) :=
    fun e he => holds_formula_equality (heqs e he) (h e (List.mem_append_left _ he))
  have hineq : ∀ e ∈ c.inequalities,
      ((e.formula c.tupleDecl).Holds A ↔ e.HoldsGe (interpOf A) (valuation (tupleOf A c.tupleDecl))) :=
    fun e he => holds_formula_inequality (hineqs e he) (h e (List.mem_append_right _ he))
  have hmem : tupleOf A c.tupleDecl ∈ c.denote (interpOf A) ↔ c.Holds (interpOf A) (valuation (tupleOf A c.tupleDecl)) :=
    and_iff_right hadmits
  rw [hmem, List.forall_mem_append, Conjunction.Holds, forall₂_congr heq, forall₂_congr hineq]

end Value

end IEGen
