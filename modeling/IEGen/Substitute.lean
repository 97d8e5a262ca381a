import IEGen.CleanUp

/-!
# Substitution

`substitute` replaces the factors that a map knows by expressions, all at once, inside the arguments of calls too, and
builds the expression anew. `substituteInConstraints` does so in every constraint of a conjunction and cleans it up.
`pushConstToConstraints` turns the constants of a declaration into equalities.
-/

namespace IEGen

/-- `SubMap`, in the order in which it is searched; an expression can be missing. -/
abbrev SubMap : Type := List (Term × Option Exp)

/-- `SubMap::subExp`: the expression of the first factor that matches. -/
def SubMap.subExp (m : SubMap) (factor : Term) : Option Exp :=
  (m.find? (fun p => factor.factorMatches p.1)).bind (·.2)

mutual
/-- A term that is not replaced, with the substitution in its expressions. -/
def Term.substituteInside (m : SubMap) : Term → Term
  | .ufCall c f as i => .ufCall c f (argsSubstitute m as) i
  | .tupleExp c es => .tupleExp c (argsSubstitute m es)
  | t => t

/-- `Exp::substitute` -/
def Exp.substitute (m : SubMap) : Exp → Exp
  | .mk k ts => (Exp.mk k []).addExp (termsSubstitute m ts (.mk .expression []))

def argsSubstitute (m : SubMap) : List Exp → List Exp
  | [] => []
  | e :: es => e.substitute m :: argsSubstitute m es

/-- The loop of `substitute`, with the terms added so far. -/
def termsSubstitute (m : SubMap) : List Term → Exp → Exp
  | [], addedTerms => addedTerms
  | t :: ts, addedTerms =>
    termsSubstitute m ts (match m.subExp t with
      | some sub => addedTerms.addExp (sub.multiplyBy t.coefficient)
      | none => addedTerms.addTerm (t.substituteInside m))
end

namespace TupleDecl

/-- `setTupleElem` with a constant; out of bounds it throws, which no caller here is. -/
def setTupleConst (d : TupleDecl) (loc : Nat) (constVal : Int) : TupleDecl :=
  ⟨d.elems.modify loc (fun e => { e with isConst := true, constVal := constVal })⟩

/-- `setTupleElem` with a name. -/
def setTupleVar (d : TupleDecl) (loc : Nat) (varString : String) : TupleDecl :=
  ⟨d.elems.modify loc (fun e => { e with isConst := false, varString := varString })⟩

/-- `elemCreateTerm`, at a location that is there. -/
def elemCreateTerm (d : TupleDecl) (viewLoc useLoc : Nat) : Term :=
  if d.elemIsConst viewLoc then .constVal (d.elemConstVal viewLoc) else .tupleVar 1 useLoc

end TupleDecl

namespace Conjunction

/-- `Conjunction(int arity)` -/
def ofArity (arity : Nat) : Conjunction := .ofTupleDecl (.sDefaultTupleDecl arity)

/-- `copyConstraintsFrom`, which does not sort or compare. -/
def copyConstraintsFrom (c source : Conjunction) : Conjunction :=
  { c with equalities := c.equalities ++ source.equalities, inequalities := c.inequalities ++ source.inequalities }

/-- `substituteInConstraints` -/
def substituteInConstraints (env : Environment) (m : SubMap) (c : Conjunction) : Except Failure Conjunction :=
  cleanUp env { c with equalities := c.equalities.map (Exp.substitute m)
                       inequalities := c.inequalities.map (Exp.substitute m) }

/-- One step of `pushConstToConstraints`. -/
def pushConst (c : Conjunction) (i : Nat) : Conjunction :=
  if c.tupleDecl.elemIsConst i then
    let constVal := c.tupleDecl.elemConstVal i
    let tupleDecl := c.tupleDecl.setTupleVar i ("c_" ++ toString constVal)
    { c with tupleDecl := tupleDecl }.addEquality
      (((Exp.mk .expression []).addTerm (tupleDecl.elemCreateTerm i i)).addTerm (.constVal (-1 * constVal)))
  else c

/-- `pushConstToConstraints` -/
def pushConstToConstraints (c : Conjunction) : Conjunction := (List.range c.arity).foldl pushConst c

/-- One element of the declaration that `setTupleDecl` keeps: a constant stays, and two constants have to agree. -/
def mergeElem (i : Nat) (old new : TupleDecl) : Except Failure TupleElem :=
  if old.elemIsConst i && new.elemIsConst i && old.elemToString i false != new.elemToString i false then
    .error (.assertException "Conjunction::setTupleDecl: constants don't match.")
  else if old.elemIsConst i && !new.elemIsConst i then .ok (old.elem i)
  else .ok (new.elem i)

/-- `setTupleDecl` -/
def setTupleDecl (c : Conjunction) (tupleDecl : TupleDecl) : Except Failure Conjunction := do
  let elems ← (List.range tupleDecl.size).mapM (fun i =>
    if i < c.tupleDecl.size then mergeElem i c.tupleDecl tupleDecl else .ok (tupleDecl.elem i))
  .ok { c with tupleDecl := ⟨elems⟩ }

end Conjunction

end IEGen
