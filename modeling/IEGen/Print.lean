import IEGen.Syntax

/-!
# Printing terms and expressions

`toString` writes tuple variables as `__tvN` (`tvN` when `generic`) and is what the comparisons of function calls look
at; `prettyPrintString` writes the names of a tuple declaration.
-/

namespace IEGen

/-- `Term::coeffToStream`: nothing for `1`, a sign for `-1`, and otherwise the number and a blank. -/
def coeffToStream (coeff : Int) (absValue : Bool) : String :=
  if absValue then
    if coeff.natAbs = 1 then "" else toString coeff.natAbs ++ " "
  else if coeff = 1 then ""
  else if coeff = -1 then "-"
  else toString coeff ++ " "

/-- `'[' << tupleIndex() << ']'`, when the call is indexed. -/
def indexToString : Option Nat → String
  | none => ""
  | some i => "[" ++ toString i ++ "]"

/-- The sign that `Exp::toString` puts before every term but the first. -/
def signToString (coeff : Int) : String := if coeff < 0 then " - " else " + "

mutual
/-- `Term::toString` and its overrides. A tuple of expressions does not print its coefficient. -/
def Term.toString (absValue generic : Bool) : Term → String
  | .tupleVar c l => coeffToStream c absValue ++ (if generic then "tv" else "__tv") ++ ToString.toString l
  | .symConst c s => coeffToStream c absValue ++ s
  | .ufCall c f args i => coeffToStream c absValue ++ f ++ "(" ++ argsToStream generic args ++ ")" ++ indexToString i
  | .constVal c => if absValue then ToString.toString c.natAbs else ToString.toString c
  | .tupleExp _ es => "( " ++ argsToStream generic es ++ " )"

/-- `Exp::toString` -/
def Exp.toString (generic : Bool) : Exp → String
  | .mk _ [] => "0"
  | .mk _ (t :: ts) => t.toString false generic ++ termsToString generic ts

/-- The terms of an expression after the first. -/
def termsToString (generic : Bool) : List Term → String
  | [] => ""
  | t :: ts => signToString t.coefficient ++ t.toString true generic ++ termsToString generic ts

/-- `UFCallTerm::argsToStream` -/
def argsToStream (generic : Bool) : List Exp → String
  | [] => ""
  | e :: es => e.toString generic ++ restArgsToStream generic es

/-- The arguments after the first. -/
def restArgsToStream (generic : Bool) : List Exp → String
  | [] => ""
  | e :: es => ", " ++ e.toString generic ++ restArgsToStream generic es
end

example : (Exp.mk .expression [.ufCall (-2) "f" [.mk .expression [.tupleVar 1 0, .constVal (-3)]] (some 1),
    .symConst (-1) "n"]).toString false = "-2 f(__tv0 - 3)[1] - n" := by decide

/-! ## Printing with the names of a declaration -/

namespace TupleDecl

/-- `mSize` -/
def size (d : TupleDecl) : Nat := d.elems.length

/-- `sDefaultTupleVarName` -/
def sDefaultTupleVarName (loc : Nat) : String := "tv" ++ toString loc

/-- The element at a location; a location that is not there reads as the default variable. -/
def elem (d : TupleDecl) (loc : Nat) : TupleElem := d.elems.getD loc ⟨false, 0, sDefaultTupleVarName loc⟩

def elemIsConst (d : TupleDecl) (loc : Nat) : Bool := (d.elem loc).isConst

def elemConstVal (d : TupleDecl) (loc : Nat) : Int := (d.elem loc).constVal

def elemVarString (d : TupleDecl) (loc : Nat) : String := (d.elem loc).varString

/-- `elemToString`: the constant, the name, or `tvN` when `generic`. -/
def elemToString (d : TupleDecl) (loc : Nat) (generic : Bool) : String :=
  if d.elemIsConst loc then toString (d.elemConstVal loc)
  else if generic then sDefaultTupleVarName loc
  else d.elemVarString loc

end TupleDecl

mutual
/-- `prettyPrintString` of the terms: a tuple variable prints its name and must not be declared constant. -/
def Term.prettyPrintString (d : TupleDecl) (absValue : Bool) : Term → Except Failure String
  | .tupleVar c l =>
    if d.elemIsConst l then
      .error (.assertException ("TupleVarTerm::prettyPrintString: tuple var location declaration for tuple var term " ++
        "should not be constant"))
    else .ok (coeffToStream c absValue ++ d.elemToString l false)
  | .symConst c s => .ok (coeffToStream c absValue ++ s)
  | .ufCall c f args i => do
    let s ← argsToStreamPrettyPrint d args
    .ok (coeffToStream c absValue ++ f ++ "(" ++ s ++ ")" ++ indexToString i)
  | .constVal c => .ok (if absValue then ToString.toString c.natAbs else ToString.toString c)
  | .tupleExp _ es => do
    let s ← argsToStreamPrettyPrint d es
    .ok ("( " ++ s ++ " )")

/-- `Exp::prettyPrintString`; unlike `toString` it prints nothing for an expression without terms. -/
def Exp.prettyPrintString (d : TupleDecl) : Exp → Except Failure String
  | .mk _ [] => .ok ""
  | .mk _ (t :: ts) => do
    let s ← t.prettyPrintString d false
    let rest ← termsPrettyPrint d ts
    .ok (s ++ rest)

/-- The terms of an expression after the first. -/
def termsPrettyPrint (d : TupleDecl) : List Term → Except Failure String
  | [] => .ok ""
  | t :: ts => do
    let s ← t.prettyPrintString d true
    let rest ← termsPrettyPrint d ts
    .ok (signToString t.coefficient ++ s ++ rest)

/-- `UFCallTerm::argsToStreamPrettyPrint` -/
def argsToStreamPrettyPrint (d : TupleDecl) : List Exp → Except Failure String
  | [] => .ok ""
  | e :: es => do
    let s ← e.prettyPrintString d
    let rest ← restArgsPrettyPrint d es
    .ok (s ++ rest)

/-- The arguments after the first. -/
def restArgsPrettyPrint (d : TupleDecl) : List Exp → Except Failure String
  | [] => .ok ""
  | e :: es => do
    let s ← e.prettyPrintString d
    let rest ← restArgsPrettyPrint d es
    .ok (", " ++ s ++ rest)
end

end IEGen
