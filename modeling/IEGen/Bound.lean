import IEGen.Substitute
import IEGen.Visitor

/-!
# Bounding calls

`boundDomainRange` adds, for every call in a conjunction, the constraints of the function's domain on the arguments and
those of its range on the call. The bounds of a union of conjunctions are a union; of the union that has come together,
only the first conjunction is used.
-/

namespace IEGen

namespace Environment

/-- `queryDomainCurrEnv`, a copy -/
def queryDomain (env : Environment) (funcName : String) : Except Failure Set :=
  match env.uninterpFuncMap.lookup funcName with
  | some f => f.domain.copy env
  | none => .error (.assertException ("queryDomainCurrEnv: the function " ++ funcName ++
      " has not been declared in the current environment."))

/-- `queryRangeCurrEnv`, a copy -/
def queryRange (env : Environment) (funcName : String) : Except Failure Set :=
  match env.uninterpFuncMap.lookup funcName with
  | some f => f.range.copy env
  | none => .error (.assertException ("queryRangeCurrEnv: the function " ++ funcName ++
      " has not been declared in the current environment."))

end Environment

/-- `Conjunction::boundTupleExp`: the constraints with the expressions for the tuple variables. -/
def Conjunction.boundTupleExp (env : Environment) (c : Conjunction) (tupleExp : List Exp) :
    Except Failure Conjunction :=
  if tupleExp.length ≠ c.arity then
    .error (.assertException
      "Conjunction::boundTupleExp tuple_exp arity does not match that of Conjunction")
  else
    let dup := c.pushConstToConstraints
    let retval := (Conjunction.ofArity 0).copyConstraintsFrom dup
    retval.substituteInConstraints env
      ((tupleExp.zipIdx).map (fun p => (dup.tupleDecl.elemCreateTerm p.2 p.2, some p.1)))

namespace Set

/-- `Set(TupleDecl)` -/
def ofTupleDecl (d : TupleDecl) : Set := ⟨d.size, addConjunction [] (.ofTupleDecl d)⟩

/-- `Set::boundTupleExp` -/
def boundTupleExp (env : Environment) (s : Set) (tupleExp : List Exp) : Except Failure Set := do
  let bounds ← s.conjunctions.mapM (fun c => c.boundTupleExp env tupleExp)
  .ok ⟨0, bounds.foldl addConjunction (ofArity 0).conjunctions⟩

/-- `Set::setTupleDecl` -/
def setTupleDecl (s : Set) (d : TupleDecl) : Except Failure Set := do
  .ok ⟨d.size, ← s.conjunctions.mapM (fun c => c.setTupleDecl d)⟩

/-- `SparseConstraints::getTupleDecl`: that of the first conjunction. -/
def getTupleDecl (s : Set) : Except Failure TupleDecl :=
  match s.conjunctions with
  | c :: _ => .ok c.tupleDecl
  | [] => .error .nullPointer

end Set

/-- `addedConstSet` intersected with the bound that a domain or range gives. -/
def addBound (env : Environment) (bound : Set) (tupleExp : List Exp) (addedConstSet : Set) : Except Failure Set := do
  let constraintSet ← bound.boundTupleExp env tupleExp
  let constraintSet ← constraintSet.setTupleDecl (← addedConstSet.getTupleDecl)
  addedConstSet.Intersect constraintSet

namespace VisitorBoundDomainRange

/-- `preVisitUFCallTerm`: a call that gives several components is bounded in all of them, whatever its index. -/
def preVisitTerm (env : Environment) (t : Term) (addedConstSet : Set) : Except Failure Set :=
  match t with
  | .ufCall _ funcName args tupleIndex => do
    let addedConstSet ← addBound env (← env.queryDomain funcName) args addedConstSet
    let range ← env.queryRange funcName
    let tupleExp := (List.range range.arity).map (fun i =>
      (Exp.mk .expression []).addTerm (.ufCall 1 funcName args (if range.arity = 1 then tupleIndex else some i)))
    addBound env range tupleExp addedConstSet
  | _ => .ok addedConstSet

/-- `VisitorBoundDomainRange`, with `addedConstSet` as its state. -/
def visitor (env : Environment) : Visitor Set where
  preVisitTerm := preVisitTerm env
  preVisitConjunction := fun c _ => .ok (.ofTupleDecl c.tupleDecl)

end VisitorBoundDomainRange

/-- `Conjunction::setInArity` -/
def Conjunction.setInArity (c : Conjunction) (inarity : Nat) : Except Failure Conjunction :=
  if inarity ≥ c.tupleDecl.size then .error (.assertException "Conjunction::setInArity: impossible arity match")
  else .ok { c with inArity := inarity }

/-- What `VisitorBoundDomainRange` makes of a conjunction: of the bounds, only the first conjunction is added. -/
def Conjunction.boundDomainRange (env : Environment) (c : Conjunction) : Except Failure Conjunction := do
  let addedConstSet ← c.acceptVisitor (VisitorBoundDomainRange.visitor env) (.ofTupleDecl c.tupleDecl)
  match addedConstSet.conjunctions with
  | d :: _ => (c.Intersect d).setInArity c.inArity
  | [] => .error .nullPointer

/-- `Set::boundDomainRange` -/
def Set.boundDomainRange (env : Environment) (s : Set) : Except Failure Set := do
  let s ← s.copy env
  .ok { s with conjunctions := ← s.conjunctions.mapM (Conjunction.boundDomainRange env) }

/-- `Relation::boundDomainRange` -/
def Relation.boundDomainRange (env : Environment) (r : Relation) : Except Failure Relation := do
  let r ← r.copy env
  .ok { r with conjunctions := ← r.conjunctions.mapM (Conjunction.boundDomainRange env) }

end IEGen
