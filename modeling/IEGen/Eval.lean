import IEGen.Arith
import Mathlib.Algebra.BigOperators.Group.List.Basic
import Mathlib.Data.Set.Basic
import Mathlib.Tactic.Ring

/-!
# What expressions mean

An interpretation gives every symbolic constant an integer and every function a total map from integer tuples to
integer tuples, with the number of components it takes (`dom`) and gives (`cod`). The value of a term or an expression
is the sequence of its components: an integer is the sequence that is zero after its first component, a call that is
not indexed has the components of the function's result, a tuple of expressions has one component an element.

A call with one argument is applied to the components of that argument, as many as the function takes; a call with
several arguments is applied to their first components.
-/

/-- A set of integer tuples. -/
abbrev IntTuples : Type := Set (List Int)

namespace IEGen

/-- An interpretation of the symbolic constants and the uninterpreted functions. -/
structure Interp where
  sym : String → Int
  fn : String → List Int → List Int
  dom : String → Nat
  cod : String → Nat

/-- The sequence of one component. -/
def scalar (v : Int) : Nat → Int
  | 0 => v
  | _ + 1 => 0

@[simp] theorem scalar_zero (v : Int) : scalar v 0 = v := rfl
@[simp] theorem scalar_succ (v : Int) (k : Nat) : scalar v (k + 1) = 0 := rfl

namespace Interp

/-- The integer tuple that a call passes to its function. -/
def argTuple (I : Interp) (f : String) : List (Nat → Int) → List Int
  | [v] => (List.range (I.dom f)).map v
  | vs => vs.map (· 0)

/-- The result of a call: the components the function gives. -/
def callVal (I : Interp) (f : String) (vs : List (Nat → Int)) (k : Nat) : Int :=
  if k < I.cod f then (I.fn f (I.argTuple f vs)).getD k 0 else 0

/-- One component of the result of a call. -/
def indexVal (I : Interp) (f : String) (vs : List (Nat → Int)) (j : Nat) : Int :=
  (I.fn f (I.argTuple f vs)).getD j 0

end Interp

mutual
/-- The components of a term, with `τ` for the tuple variables. -/
def Term.val (I : Interp) (τ : Nat → Int) : Term → Nat → Int
  | .tupleVar c l => scalar (c * τ l)
  | .symConst c s => scalar (c * I.sym s)
  | .ufCall c f as none => fun k => c * I.callVal f (argsVal I τ as) k
  | .ufCall c f as (some j) => scalar (c * I.indexVal f (argsVal I τ as) j)
  | .constVal c => scalar c
  | .tupleExp c es => fun k => c * ((argsVal I τ es).getD k (scalar 0)) 0

/-- The components of an expression. -/
def Exp.val (I : Interp) (τ : Nat → Int) : Exp → Nat → Int
  | .mk _ ts => termsVal I τ ts

/-- The components of a list of expressions. -/
def argsVal (I : Interp) (τ : Nat → Int) : List Exp → List (Nat → Int)
  | [] => []
  | e :: es => e.val I τ :: argsVal I τ es

/-- The components of a sum of terms. -/
def termsVal (I : Interp) (τ : Nat → Int) : List Term → Nat → Int
  | [] => fun _ => 0
  | t :: ts => fun k => t.val I τ k + termsVal I τ ts k
end

section Val

variable {I : Interp} {τ : Nat → Int}

theorem Exp.val_eq (e : Exp) : e.val I τ = termsVal I τ e.terms := by cases e; rfl

@[simp] theorem termsVal_nil (k : Nat) : termsVal I τ [] k = 0 := rfl

@[simp] theorem termsVal_cons (t : Term) (ts : List Term) (k : Nat) :
    termsVal I τ (t :: ts) k = t.val I τ k + termsVal I τ ts k := rfl

theorem termsVal_append (ts us : List Term) (k : Nat) :
    termsVal I τ (ts ++ us) k = termsVal I τ ts k + termsVal I τ us k := by
  induction ts with
  | nil => simp
  | cons t ts ih => simp [ih, add_assoc]

theorem argsVal_eq_map (es : List Exp) : argsVal I τ es = es.map (Exp.val I τ) := by
  induction es with
  | nil => rfl
  | cons e es ih => simp [argsVal, ih]

/-- A term is its coefficient times its factor. -/
theorem Term.val_setCoefficient (c : Int) (t : Term) (k : Nat) :
    (t.setCoefficient c).val I τ k = c * (t.setCoefficient 1).val I τ k := by
  cases t with
  | ufCall c' f as i => cases i <;> cases k <;> simp [Term.setCoefficient, Term.val]
  | tupleExp c' es => simp [Term.setCoefficient, Term.val]
  | _ => cases k <;> simp [Term.setCoefficient, Term.val]

theorem Term.val_eq_mul (t : Term) (k : Nat) :
    t.val I τ k = t.coefficient * (t.setCoefficient 1).val I τ k := by
  rw [← Term.val_setCoefficient, Term.setCoefficient_self]

theorem Term.val_of_coefficient_zero {t : Term} (h : t.coefficient = 0) (k : Nat) : t.val I τ k = 0 := by
  rw [Term.val_eq_mul, h, zero_mul]

@[simp] theorem Term.val_multiplyBy (c : Int) (t : Term) (k : Nat) :
    (t.multiplyBy c).val I τ k = t.val I τ k * c := by
  rw [Term.multiplyBy, Term.val_setCoefficient, Term.val_eq_mul t]; ring

theorem termsVal_map_multiplyBy (c : Int) (ts : List Term) (k : Nat) :
    termsVal I τ (ts.map (Term.multiplyBy c)) k = termsVal I τ ts k * c := by
  induction ts with
  | nil => simp
  | cons t ts ih => simp [ih, add_mul]

@[simp] theorem Exp.val_multiplyBy (c : Int) (e : Exp) (k : Nat) :
    (e.multiplyBy c).val I τ k = e.val I τ k * c := by
  simp only [Exp.val_eq, Exp.terms_multiplyBy, termsVal_map_multiplyBy]

/-- The walk of `addTerm` adds the value of the new term, when merging two terms adds their values. -/
theorem termsVal_insertTerm {combine : Term → Option Term} {term : Term} {ts : List Term} {k : Nat}
    (h : ∀ t ∈ ts, ∀ t', combine t = some t' → t'.val I τ k = t.val I τ k + term.val I τ k) :
    termsVal I τ (insertTerm combine term ts) k = termsVal I τ ts k + term.val I τ k := by
  induction ts with
  | nil => simp [insertTerm]
  | cons t ts ih =>
    simp only [insertTerm]
    cases hc : combine t with
    | some t' =>
      have hv := h t List.mem_cons_self t' hc
      dsimp only
      split_ifs with h0
      · rw [Term.val_of_coefficient_zero h0] at hv
        rw [termsVal_cons]; omega
      · rw [termsVal_cons, termsVal_cons, hv]; omega
    | none =>
      dsimp only
      split_ifs
      · simp only [termsVal_cons]; omega
      · rw [termsVal_cons, termsVal_cons, ih (fun t ht => h t (List.mem_cons_of_mem _ ht))]; omega

end Val

/-! ## The denotation of constraints -/

/-- `e = 0`, in every component. -/
def Exp.HoldsEq (I : Interp) (τ : Nat → Int) (e : Exp) : Prop := ∀ k, e.val I τ k = 0

/-- `e >= 0`, in every component. -/
def Exp.HoldsGe (I : Interp) (τ : Nat → Int) (e : Exp) : Prop := ∀ k, 0 ≤ e.val I τ k

/-- The values that a tuple gives the tuple variables. -/
def valuation (t : List Int) : Nat → Int := fun l => t.getD l 0

/-- A tuple has the length of the declaration and the declared constants. -/
def TupleDecl.Admits (d : TupleDecl) (t : List Int) : Prop :=
  t.length = d.size ∧ ∀ i < d.size, d.elemIsConst i = true → valuation t i = d.elemConstVal i

namespace Conjunction

/-- All equalities and inequalities hold. -/
def Holds (I : Interp) (τ : Nat → Int) (c : Conjunction) : Prop :=
  (∀ e ∈ c.equalities, e.HoldsEq I τ) ∧ ∀ e ∈ c.inequalities, e.HoldsGe I τ

/-- The integer tuples of a conjunction. -/
def denote (I : Interp) (c : Conjunction) : IntTuples :=
  {t | c.tupleDecl.Admits t ∧ c.Holds I (valuation t)}

end Conjunction

/-- The integer tuples of a union of conjunctions. -/
def denoteUnion (I : Interp) (cs : List Conjunction) : IntTuples := {t | ∃ c ∈ cs, t ∈ c.denote I}

end IEGen
