import Mathlib.Data.List.Basic

/-!
# Terms, expressions, conjunctions, sets and relations

The data of `expression.h`, `TupleDecl.h`, `set_relation.h` and `environment.h`.

* A `Term` is a coefficient times a tuple variable, a symbolic constant, an uninterpreted function call, one, or a
  tuple of expressions; an `Exp` is a list of terms with the kind of constraint it stands for. Calls hold their
  argument expressions, so the two types are mutual.
* A `Conjunction` holds the expressions that are `= 0`, those that are `>= 0`, and its tuple declaration, whose
  elements are variables or integer constants.
* A `Set` or a `Relation` is a list of conjunctions with its arity.

Pointers that own their target are the target itself; a C++ `int` is an `Int`; a `std::string` is a `String`.
-/

namespace IEGen

/-- How a call of the library ends when it does not return. -/
inductive Failure where
  /-- `assert_exception`, with its text -/
  | assertException (what : String)
  /-- `parse_exception` -/
  | parseException (what : String)
  /-- a null pointer is followed -/
  | nullPointer
  /-- a pointer that was never set is followed, or a number is divided by zero -/
  | undefined
  deriving Repr, DecidableEq

/-- `Exp::exptype`: a plain expression, `Exp >= 0`, or `Exp = 0`. -/
inductive ExpType where
  | expression
  | inequality
  | equality
  deriving Repr, DecidableEq

mutual
/-- `Term` and its subclasses. The index of a call is `none` for the source's `-1`. -/
inductive Term where
  | tupleVar (coeff : Int) (location : Nat)
  | symConst (coeff : Int) (symbol : String)
  | ufCall (coeff : Int) (funcName : String) (args : List Exp) (tupleIndex : Option Nat)
  | constVal (coeff : Int)
  | tupleExp (coeff : Int) (exps : List Exp)

/-- `Exp`: the terms in their order, and the kind of constraint. -/
inductive Exp where
  | mk (expType : ExpType) (terms : List Term)
end

/-! ## Equality of terms -/

mutual
def Term.decEq : (a b : Term) → Decidable (a = b)
  | .tupleVar c l, .tupleVar c' l' => decidable_of_iff (c = c' ∧ l = l') (by simp)
  | .symConst c s, .symConst c' s' => decidable_of_iff (c = c' ∧ s = s') (by simp)
  | .ufCall c f as i, .ufCall c' f' as' i' =>
    have := decEqExps as as'
    decidable_of_iff (c = c' ∧ f = f' ∧ as = as' ∧ i = i') (by simp)
  | .constVal c, .constVal c' => decidable_of_iff (c = c') (by simp)
  | .tupleExp c es, .tupleExp c' es' =>
    have := decEqExps es es'
    decidable_of_iff (c = c' ∧ es = es') (by simp)
  | .tupleVar .., .symConst .. | .tupleVar .., .ufCall .. | .tupleVar .., .constVal _ | .tupleVar .., .tupleExp ..
  | .symConst .., .tupleVar .. | .symConst .., .ufCall .. | .symConst .., .constVal _ | .symConst .., .tupleExp ..
  | .ufCall .., .tupleVar .. | .ufCall .., .symConst .. | .ufCall .., .constVal _ | .ufCall .., .tupleExp ..
  | .constVal _, .tupleVar .. | .constVal _, .symConst .. | .constVal _, .ufCall .. | .constVal _, .tupleExp ..
  | .tupleExp .., .tupleVar .. | .tupleExp .., .symConst .. | .tupleExp .., .ufCall .. | .tupleExp .., .constVal _ =>
    isFalse nofun

def Exp.decEq : (a b : Exp) → Decidable (a = b)
  | .mk k ts, .mk k' ts' =>
    have := decEqTerms ts ts'
    decidable_of_iff (k = k' ∧ ts = ts') (by simp)

def decEqExps : (a b : List Exp) → Decidable (a = b)
  | [], [] => isTrue rfl
  | [], _ :: _ | _ :: _, [] => isFalse nofun
  | a :: as, b :: bs =>
    have := Exp.decEq a b
    have := decEqExps as bs
    decidable_of_iff (a = b ∧ as = bs) (by simp)

def decEqTerms : (a b : List Term) → Decidable (a = b)
  | [], [] => isTrue rfl
  | [], _ :: _ | _ :: _, [] => isFalse nofun
  | a :: as, b :: bs =>
    have := Term.decEq a b
    have := decEqTerms as bs
    decidable_of_iff (a = b ∧ as = bs) (by simp)
end

instance : DecidableEq Term := Term.decEq
instance : DecidableEq Exp := Exp.decEq

/-! ## Accessors -/

namespace Term

def coefficient : Term → Int
  | .tupleVar c _ | .symConst c _ | .ufCall c _ _ _ | .constVal c | .tupleExp c _ => c

def setCoefficient (coeff : Int) : Term → Term
  | .tupleVar _ l => .tupleVar coeff l
  | .symConst _ s => .symConst coeff s
  | .ufCall _ f as i => .ufCall coeff f as i
  | .constVal _ => .constVal coeff
  | .tupleExp _ es => .tupleExp coeff es

def isUFCall : Term → Bool
  | .ufCall .. => true
  | _ => false

def isTupleExp : Term → Bool
  | .tupleExp .. => true
  | _ => false

def isConst : Term → Bool
  | .constVal _ => true
  | _ => false

@[simp] theorem coefficient_setCoefficient (c : Int) (t : Term) : (t.setCoefficient c).coefficient = c := by
  cases t <;> rfl

@[simp] theorem setCoefficient_setCoefficient (c d : Int) (t : Term) :
    (t.setCoefficient d).setCoefficient c = t.setCoefficient c := by cases t <;> rfl

@[simp] theorem setCoefficient_self (t : Term) : t.setCoefficient t.coefficient = t := by cases t <;> rfl

end Term

namespace Exp

def expType : Exp → ExpType
  | .mk k _ => k

/-- `mTerms` -/
def terms : Exp → List Term
  | .mk _ ts => ts

def setEquality (e : Exp) : Exp := .mk .equality e.terms

def setInequality (e : Exp) : Exp := .mk .inequality e.terms

/-- The expression that the default constructor and `addTerm` make of one term. -/
def ofTerm (t : Term) : Exp := .mk .expression [t]

@[simp] theorem terms_mk (k : ExpType) (ts : List Term) : (Exp.mk k ts).terms = ts := rfl
@[simp] theorem expType_mk (k : ExpType) (ts : List Term) : (Exp.mk k ts).expType = k := rfl
@[simp] theorem terms_setEquality (e : Exp) : e.setEquality.terms = e.terms := rfl
@[simp] theorem terms_setInequality (e : Exp) : e.setInequality.terms = e.terms := rfl
@[simp] theorem mk_expType_terms (e : Exp) : Exp.mk e.expType e.terms = e := by cases e; rfl

end Exp

/-! ## Tuple declarations -/

/-- One element of a declaration: a constant or a variable. Both values are kept, as in the source's three vectors. -/
structure TupleElem where
  isConst : Bool
  constVal : Int
  varString : String
  deriving Repr, DecidableEq

/-- `TupleDecl` -/
structure TupleDecl where
  elems : List TupleElem
  deriving Repr, DecidableEq

/-! ## Conjunctions, sets and relations -/

/-- `Conjunction` -/
structure Conjunction where
  equalities : List Exp
  inequalities : List Exp
  tupleDecl : TupleDecl
  inArity : Nat
  deriving DecidableEq

/-- `Set`: its arity and `mConjunctions`. -/
structure Set where
  arity : Nat
  conjunctions : List Conjunction
  deriving DecidableEq

/-- `Relation`: its arities and `mConjunctions`. -/
structure Relation where
  inArity : Nat
  outArity : Nat
  conjunctions : List Conjunction
  deriving DecidableEq

/-! ## The environment -/

/-- `MonotonicType` -/
inductive MonotonicType where
  | none
  | nondecreasing
  | increasing
  | nonincreasing
  | decreasing
  deriving Repr, DecidableEq

/-- `UniQuantRuleType` -/
inductive UniQuantRuleType where
  | monotonicity
  | coMonotonicity
  | triangularity
  | domainRange
  | funcConsistency
  | theOthers
  deriving Repr, DecidableEq

/-- `UniQuantRule`: for all values of the tuple, the left side implies the right side. -/
structure UniQuantRule where
  type : UniQuantRuleType
  leftSide : Set
  rightSide : Set
  deriving DecidableEq

/-- `UninterpFunc` -/
structure UninterpFunc where
  name : String
  domain : Set
  range : Set
  isBijective : Bool
  monoType : MonotonicType
  deriving DecidableEq

/-- `Environment`: the declared functions, the inverses, and the rules. -/
structure Environment where
  uninterpFuncMap : List (String × UninterpFunc)
  inverseMap : List (String × String)
  uniQuantRules : List UniQuantRule
  deriving DecidableEq

namespace Environment

/-- `funcInverse`: the name of the inverse, or the empty string. -/
def funcInverse (env : Environment) (funcName : String) : String := (env.inverseMap.lookup funcName).getD ""

/-- The arity of the declared domain of a function; a function that is not declared takes one component. -/
def domainArity (env : Environment) (funcName : String) : Nat :=
  ((env.uninterpFuncMap.lookup funcName).map (·.domain.arity)).getD 1

/-- The arity of the declared range of a function; a function that is not declared gives one component. -/
def rangeArity (env : Environment) (funcName : String) : Nat :=
  ((env.uninterpFuncMap.lookup funcName).map (·.range.arity)).getD 1

end Environment

end IEGen
