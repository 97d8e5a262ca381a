import IEGen.Algebra
import IEGen.Lib.WeakOrder
import Mathlib.Data.List.Sort

/-!
# Cleaning up constraints

`collapseNestedInvertibleFunctions` builds an expression anew, term by term, and replaces `f(f_inv(e))` by `e` where the
environment records the inverse; `cleanUp` does so with every constraint, puts the constraints back in order, drops the
conjunctions with a constant equality, and sorts the rest. Assigning a set or a relation copies it conjunction by
conjunction and cleans the copy up; the comparisons of sets and of relations compare such copies.
-/

namespace IEGen

open SortedList (sizeLexLt)

/-! ## Collapsing nested inverses -/

/-- What the loop of `UFCallTerm::collapseNestedInvertibleFunctions` finds in the argument at `argIndex`: the argument
of the nested call, when it is a call of the inverse with this index. -/
def Exp.nestedParam (inverseFuncName : String) (argIndex : Nat) (arg : Exp) : Except Failure (Option Exp) :=
  match arg.getTerm with
  | some (.ufCall _ funcName args tupleIndex) =>
    if funcName ≠ inverseFuncName then .ok none
    else if argIndex ≠ tupleIndex.getD 0 then .ok none
    else match args with
      | [nested] => .ok (some nested)
      | _ => .error (.assertException ("UFCallTerm::collapseNestedInvertibleFunctions: " ++
          "nested invertible function should only take one arg"))
  | _ => .ok none

/-- `Exp::operator==` of two different expressions: their tuples have different elements, which compare by address. -/
def Exp.eqApart (a b : Exp) : Bool :=
  a.eq b && a.terms.all (fun t => match t with
    | .tupleExp _ es => es.isEmpty
    | _ => true)

/-- The loop after the first argument: the arguments from `argIndex` on are calls of the inverse with the argument
`saved`. -/
def restCollapse (inverseFuncName : String) (saved : Exp) : Nat → List Exp → Except Failure Bool
  | _, [] => .ok true
  | argIndex, arg :: rest => do
    match ← arg.nestedParam inverseFuncName argIndex with
    | none => .ok false
    | some nested => if nested.eqApart saved then restCollapse inverseFuncName saved (argIndex + 1) rest else .ok false

/-- `can_collapse_self`, which is true without arguments. -/
def canCollapseSelf (inverseFuncName : String) : List Exp → Except Failure Bool
  | [] => .ok true
  | arg :: rest => do
    match ← arg.nestedParam inverseFuncName 0 with
    | none => .ok false
    | some saved => restCollapse inverseFuncName saved 1 rest

mutual
/-- `Term::collapseNestedInvertibleFunctions` and the override for calls -/
def Term.collapseNestedInvertibleFunctions (env : Environment) : Term → Except Failure Exp
  | .ufCall coeff funcName args tupleIndex => do
    if ← canCollapseSelf (env.funcInverse funcName) args then
      match args with
      | .mk _ (.ufCall _ _ (saved :: _) _ :: _) :: _ => do
        -- the coefficient of the nested call is not looked at
        let e ← saved.collapseNestedInvertibleFunctions env
        .ok (e.multiplyBy coeff)
      | _ => .error .nullPointer
    else do
      let args' ← argsCollapse env args
      .ok ((Exp.mk .expression []).addTerm (.ufCall coeff funcName args' tupleIndex))
  | t => .ok ((Exp.mk .expression []).addTerm t)

/-- `Exp::collapseNestedInvertibleFunctions` -/
def Exp.collapseNestedInvertibleFunctions (env : Environment) : Exp → Except Failure Exp
  | .mk _ ts => termsCollapse env ts (.mk .expression [])

/-- The arguments of a call that stays, collapsed. -/
def argsCollapse (env : Environment) : List Exp → Except Failure (List Exp)
  | [] => .ok []
  | e :: es => do
    let e' ← e.collapseNestedInvertibleFunctions env
    let es' ← argsCollapse env es
    .ok (e' :: es')

/-- The terms, collapsed and added to an expression one after the other. -/
def termsCollapse (env : Environment) : List Term → Exp → Except Failure Exp
  | [], acc => .ok acc
  | t :: ts, acc => do
    let e ← t.collapseNestedInvertibleFunctions env
    termsCollapse env ts (acc.addExp e)
end

/-! ## Cleaning up -/

namespace Conjunction

/-- `Conjunction::satisfiable`: no equality is a constant other than zero. -/
def satisfiable (c : Conjunction) : Bool := c.equalities.all (fun e => !e.isContradiction)

/-- `Conjunction::cleanUp` -/
def cleanUp (env : Environment) (c : Conjunction) : Except Failure Conjunction := do
  let equalities ← c.equalities.mapM (fun e => e.normalizeForEquality.collapseNestedInvertibleFunctions env)
  let c' := (equalities.filter (fun e => !e.equalsZero)).foldl addEquality { c with equalities := [] }
  let inequalities ← c.inequalities.mapM (fun e => e.collapseNestedInvertibleFunctions env)
  .ok ((inequalities.filter (fun e => !e.equalsZero)).foldl addInequality { c' with inequalities := [] })

end Conjunction

/-- `SparseConstraints::cleanUp` -/
def cleanUp (env : Environment) (cs : List Conjunction) : Except Failure (List Conjunction) := do
  let cs' ← cs.mapM (Conjunction.cleanUp env)
  .ok ((cs'.filter Conjunction.satisfiable).insertionSort (fun a b => b.lt a = false))

/-- `SparseConstraints::operator=`: the conjunctions added one after the other, and cleaned up. -/
def copyConjunctions (env : Environment) (cs : List Conjunction) : Except Failure (List Conjunction) :=
  cleanUp env (cs.foldl addConjunction [])

/-- `SparseConstraints::operator<` -/
def conjunctionsLt (cs ds : List Conjunction) : Bool := sizeLexLt Conjunction.lt cs ds

namespace Set

/-- `cleanUp` -/
def cleanUp (env : Environment) (s : Set) : Except Failure Set := do
  .ok { s with conjunctions := ← IEGen.cleanUp env s.conjunctions }

/-- `Set(const Set&)` -/
def copy (env : Environment) (s : Set) : Except Failure Set := do
  .ok { s with conjunctions := ← copyConjunctions env s.conjunctions }

/-- `Set::operator<`, which copies the conjunctions of both sides -/
def lt (env : Environment) (s other : Set) : Except Failure Bool :=
  if s.arity < other.arity then .ok true
  else if s.arity > other.arity then .ok false
  else do .ok (conjunctionsLt (← copyConjunctions env s.conjunctions) (← copyConjunctions env other.conjunctions))

/-- `Set::operator==` -/
def eq (env : Environment) (s other : Set) : Except Failure Bool := do
  if ← s.lt env other then .ok false
  else if ← other.lt env s then .ok false
  else .ok true

end Set

namespace Relation

/-- `cleanUp` -/
def cleanUp (env : Environment) (r : Relation) : Except Failure Relation := do
  .ok { r with conjunctions := ← IEGen.cleanUp env r.conjunctions }

/-- `Relation(const Relation&)`, which adds the conjunctions with the check of their input arity. -/
def copy (env : Environment) (r : Relation) : Except Failure Relation := do
  .ok { r with conjunctions := ← IEGen.cleanUp env (← r.conjunctions.foldlM (addConjunction r.inArity) []) }

/-- `Relation::operator<`, which copies the conjunctions of both sides -/
def lt (env : Environment) (r other : Relation) : Except Failure Bool :=
  if r.inArity < other.inArity then .ok true
  else if r.inArity > other.inArity then .ok false
  else if r.outArity < other.outArity then .ok true
  else if r.outArity > other.outArity then .ok false
  else do .ok (conjunctionsLt (← copyConjunctions env r.conjunctions) (← copyConjunctions env other.conjunctions))

/-- `Relation::operator==` -/
def eq (env : Environment) (r other : Relation) : Except Failure Bool := do
  if ← r.lt env other then .ok false
  else if ← other.lt env r then .ok false
  else .ok true

end Relation

end IEGen
