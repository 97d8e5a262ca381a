import IEGen.Substitute

/-!
# What the parser builds

A text that the parser accepts is given by the productions of `parser.y` it goes through: `ExpTree`, `ConstraintTree`
and `Body` have a constructor for each of them, with the names as the scanner hands them over (`Ident`). `build` runs the
semantic actions, from an expression to the set or the relation of a whole text.

The constraints of a body are added while its tuple variables are symbolic constants still; `substituteTupleDecl` turns
the names of the declaration into tuple variables afterwards.
-/

namespace IEGen

/-! ## Identifiers -/

/-- The words that the scanner takes for tokens of their own. -/
def isKeyword (s : String) : Bool :=
  ["union", "UNION", "or", "OR", "exists", "inverse", "INVERSE"].contains s || s.toList.map Char.toLower == "and".toList

/-- `[a-zA-Z'$]` -/
def isLetter (c : Char) : Bool := c.isAlpha || "'$".toList.contains c

/-- `[a-zA-Z0-9'$_]` -/
def isIdentChar (c : Char) : Bool := c.isAlphanum || "'$_".toList.contains c

/-- `IDENT`: `[a-zA-Z'_]?[a-zA-Z'$]+[a-zA-Z0-9'$_]*` -/
def isIdent (s : String) : Bool :=
  !isKeyword s && match s.toList with
    | [] => false
    | [c] => isLetter c
    | c :: c' :: cs => (isLetter c && isIdentChar c' || c == '_' && isLetter c') && cs.all isIdentChar

/-- `ID` -/
abbrev Ident : Type := {s : String // isIdent s = true}

/-! ## Expressions -/

mutual
/-- `expression`. A list in parentheses is a tuple of expressions, or the expression itself when it is the only one. -/
inductive ExpTree where
  | int (value : Nat)
  | id (name : Ident)
  | func (name : Ident) (args : ExpTrees) (index : Option Nat)
  | paren (list : ExpTrees)
  | unop (e : ExpTree)
  | plus (e e' : ExpTree)
  | dash (e e' : ExpTree)
  | intMult (n : Nat) (e : ExpTree)

/-- `expression_list`, which is not empty. -/
inductive ExpTrees where
  | one (e : ExpTree)
  | cons (e : ExpTree) (list : ExpTrees)
end

/-- The expression that `new Exp` and `addTerm` make of one term. -/
def Exp.withTerm (t : Term) : Exp := (Exp.mk .expression []).addTerm t

mutual
/-- The actions of `expression_int`, `expression_id`, `expression_func`, `expression_tuple`, `expression_unop`,
`expression_binop` and `expression_int_mult`. -/
def ExpTree.build : ExpTree → Exp
  | .int value => .withTerm (.constVal value)
  | .id name => .withTerm (.symConst 1 name)
  | .func name args index => .withTerm (.ufCall 1 name args.build index)
  | .paren (.one e) => e.build
  | .paren (.cons e list) => .withTerm (.tupleExp 1 (ExpTrees.cons e list).build)
  | .unop e => e.build.multiplyBy (-1)
  | .plus e e' => e.build.addExp e'.build
  | .dash e e' => e.build.addExp (e'.build.multiplyBy (-1))
  | .intMult n e => e.build.multiplyBy n

def ExpTrees.build : ExpTrees → List Exp
  | .one e => [e.build]
  | .cons e list => e.build :: list.build
end

/-! ## Constraints -/

/-- `constraint_eq`: the second expression is subtracted from the first. -/
def constraintEq (e e' : Exp) : Exp := e.setEquality.addExp (e'.multiplyBy (-1))

/-- `constraint_lte`: the first expression is subtracted from the second. -/
def constraintLte (e e' : Exp) : Exp := e'.setInequality.addExp (e.multiplyBy (-1))

/-- `constraint_lt`: the first expression plus one is subtracted from the second. -/
def constraintLt (e e' : Exp) : Exp := e'.setInequality.addExp ((e.addTerm (.constVal 1)).multiplyBy (-1))

/-- `constraint_gte` -/
def constraintGte (e e' : Exp) : Exp := constraintLte e' e

/-- `constraint_gt` -/
def constraintGt (e e' : Exp) : Exp := constraintLt e' e

/-- `constraint` and `constraint_range` -/
inductive ConstraintTree where
  | eq (e e' : ExpTree)
  | lt (e e' : ExpTree)
  | lte (e e' : ExpTree)
  | gt (e e' : ExpTree)
  | gte (e e' : ExpTree)
  | rangeLteLt (e e' e'' : ExpTree)
  | rangeLtLte (e e' e'' : ExpTree)
  | rangeLteLte (e e' e'' : ExpTree)
  | rangeLtLt (e e' e'' : ExpTree)

/-- The constraints that one production gives; a range uses a clone of the expression in the middle. -/
def ConstraintTree.build : ConstraintTree → List Exp
  | .eq e e' => [constraintEq e.build e'.build]
  | .lt e e' => [constraintLt e.build e'.build]
  | .lte e e' => [constraintLte e.build e'.build]
  | .gt e e' => [constraintGt e.build e'.build]
  | .gte e e' => [constraintGte e.build e'.build]
  | .rangeLteLt e e' e'' => [constraintLte e.build e'.build, constraintLt e'.build e''.build]
  | .rangeLtLte e e' e'' => [constraintLt e.build e'.build, constraintLte e'.build e''.build]
  | .rangeLteLte e e' e'' => [constraintLte e.build e'.build, constraintLte e'.build e''.build]
  | .rangeLtLt e e' e'' => [constraintLt e.build e'.build, constraintLt e'.build e''.build]

/-! ## Tuple declarations -/

/-- `TupleDecl::concat`: a name of the second declaration that is the default name of its place becomes the default
name of its new place. -/
def TupleDecl.concat (d other : TupleDecl) : TupleDecl :=
  ⟨d.elems ++ other.elems.mapIdx (fun j e =>
    if e.varString = sDefaultTupleVarName j then { e with varString := sDefaultTupleVarName (j + d.size) } else e)⟩

/-- `tuple_elem`: a name or a number. -/
inductive TupleElemTree where
  | var (name : Ident)
  | const (value : Nat)

/-- The declaration of one element; a constant keeps the default name. -/
def TupleElemTree.build : TupleElemTree → TupleDecl
  | .var name => (TupleDecl.sDefaultTupleDecl 1).setTupleVar 0 name
  | .const value => (TupleDecl.sDefaultTupleDecl 1).setTupleConst 0 value

/-- `tuple_decl_with_brackets`, without elements where there are no brackets. -/
def tupleDecl : List TupleElemTree → TupleDecl
  | [] => ⟨[]⟩
  | e :: es => es.foldl (fun d e => d.concat e.build) e.build

/-! ## Bodies -/

namespace Conjunction

/-- The loop over the constraints of a body. -/
def addConstraint (c : Conjunction) (e : Exp) : Conjunction :=
  match e.expType with
  | .equality => c.addEquality e
  | .inequality => c.addInequality e
  | .expression => c

/-- What the loop of `substituteTupleDecl` has so far: `nameToLocationMap`, `var2TupleVar`, the conjunction. -/
structure Named where
  nameToLocationMap : List (String × Nat)
  var2TupleVar : SubMap
  conj : Conjunction

/-- One step of the loop: a name that was seen before is equated with its first place. -/
def Named.step (s : Named) (i : Nat) : Named :=
  if s.conj.tupleDecl.elemIsConst i then s
  else
    let var := s.conj.tupleDecl.elemVarString i
    match s.nameToLocationMap.lookup var with
    | some l => { s with conj := s.conj.addEquality ((Exp.withTerm (.tupleVar 1 l)).addTerm (.tupleVar (-1) i)) }
    | none => { s with nameToLocationMap := s.nameToLocationMap ++ [(var, i)]
                       var2TupleVar := s.var2TupleVar ++ [(.symConst 1 var, some (.withTerm (.tupleVar 1 i)))] }

/-- `substituteTupleDecl` -/
def substituteTupleDecl (env : Environment) (c : Conjunction) : Except Failure Conjunction :=
  let s := (List.range c.arity).foldl Named.step ⟨[], [], c⟩
  s.conj.substituteInConstraints env s.var2TupleVar

end Conjunction

/-- The action that the productions for bodies share. -/
def buildBody (env : Environment) (d : TupleDecl) (inArity : Nat) (constraints : List ConstraintTree) :
    Except Failure Conjunction := do
  let c ← ({ Conjunction.ofArity d.size with inArity := inArity } : Conjunction).setTupleDecl d
  ((constraints.flatMap ConstraintTree.build).foldl Conjunction.addConstraint c).substituteTupleDecl env

/-- The body of a set. -/
structure SetBody where
  tuple : List TupleElemTree
  constraints : List ConstraintTree

/-- The body of a relation. -/
structure RelBody where
  inTuple : List TupleElemTree
  outTuple : List TupleElemTree
  constraints : List ConstraintTree

/-- `single_conjunct` and `semi_conjunct`, which do the same -/
def SetBody.build (env : Environment) (b : SetBody) : Except Failure Conjunction :=
  buildBody env (tupleDecl b.tuple) 0 b.constraints

/-- Both tuples of a relation as one declaration. -/
def RelBody.decl (b : RelBody) : TupleDecl := (tupleDecl b.inTuple).concat (tupleDecl b.outTuple)

/-- `rel_single_conjunct` -/
def relSingleConjunct (env : Environment) (b : RelBody) : Except Failure Conjunction :=
  buildBody env b.decl (tupleDecl b.inTuple).size b.constraints

/-- `semi_rel_conjunct`, which takes the input arity from the second tuple. -/
def semiRelConjunct (env : Environment) (b : RelBody) : Except Failure Conjunction :=
  buildBody env b.decl (tupleDecl b.outTuple).size b.constraints

/-! ## Sets and relations -/

/-- `omega_set`: bodies in braces, joined by `union`. -/
def omegaSet (env : Environment) (first : SetBody) (rest : List SetBody) : Except Failure Set := do
  let c ← first.build env
  let cs ← rest.mapM (SetBody.build env)
  .ok ⟨c.arity, (c :: cs).foldl addConjunction (Set.ofArity c.arity).conjunctions⟩

/-- `isl_set`: bodies in one pair of braces; `semi_conjunct_list` pushes each body behind those that follow it. -/
def islSet (env : Environment) (first second : SetBody) (rest : List SetBody) : Except Failure Set := do
  let c ← first.build env
  let cs ← (second :: rest).mapM (SetBody.build env)
  .ok ⟨c.arity, (c :: cs.reverse).foldl addConjunction (Set.ofArity c.arity).conjunctions⟩

/-- The relation of the arities of the first conjunction, with conjunctions added in turn. -/
def relationOf (c : Conjunction) (cs : List Conjunction) : Except Failure Relation := do
  let outArity := c.arity - c.inArity
  let conjunctions ← (c :: cs).foldlM (Relation.addConjunction c.inArity)
    (Relation.ofArity c.inArity outArity).conjunctions
  .ok ⟨c.inArity, outArity, conjunctions⟩

/-- `omega_relation` -/
def omegaRelation (env : Environment) (first : RelBody) (rest : List RelBody) : Except Failure Relation := do
  let c ← relSingleConjunct env first
  let cs ← rest.mapM (relSingleConjunct env)
  relationOf c cs

/-- `isl_relation` -/
def islRelation (env : Environment) (first second : RelBody) (rest : List RelBody) : Except Failure Relation := do
  let c ← semiRelConjunct env first
  let cs ← (second :: rest).mapM (semiRelConjunct env)
  relationOf c cs.reverse

end IEGen
