import IEGen.Fixed

/-!
# The parts of a text

`getPartsFromStr` cuts the text of a set or a relation at its brace, its colon and its closing brace. Positions are
those of `std::string`: what is not found is `-1`, and a length below zero is as good as none.
-/

namespace IEGen

/-- `srParts`: the parts of the text of a set or a relation. -/
structure SrParts where
  symVars : String
  sC : String
  tupDecl : String
  sepC : String
  constraints : String
  eC : String
  deriving DecidableEq

/-- `find_first_of(c, pos)` -/
def findFirstOf (c : Char) (pos : Int) (str : List Char) : Int :=
  if pos < 0 then -1
  else match (str.drop pos.toNat).findIdx? (· == c) with
    | some k => pos + k
    | none => -1

/-- `substr(pos, n)`, where the position is in the text. -/
def substr (pos n : Int) (str : List Char) : List Char :=
  if n < 0 then str.drop pos.toNat else (str.drop pos.toNat).take n.toNat

/-- `isspace` -/
def isSpace (c : Char) : Bool := c ∈ [' ', '\t', '\n', '\x0b', '\x0c', '\r']

/-- `trim` -/
def trim (s : List Char) : List Char := ((s.dropWhile isSpace).reverse.dropWhile isSpace).reverse

/-- `getPartsFromStr` -/
def getPartsFromStr (str : String) : SrParts :=
  let str := str.toList
  let l1 := findFirstOf '\x7b' 0 str
  let l2 := findFirstOf ':' l1 str
  if l2 < 0 then
    let l3 := findFirstOf '\x7d' l1 str
    ⟨.ofList (substr 0 l1 str), "\x7b", .ofList (substr (l1 + 1) (l3 - (l1 + 1) - 1) str), ":", "", "\x7d"⟩
  else
    let l3 := findFirstOf '\x7d' l2 str
    ⟨.ofList (substr 0 l1 str), "\x7b", .ofList (substr (l1 + 1) (l2 - (l1 + 1)) str), ":",
      .ofList (substr (l2 + 1) (l3 - (l2 + 1)) str), "\x7d"⟩

/-- `SparseConstraints::prettyPrintString`, with the default declaration where there is no conjunction. -/
def prettyPrintString (env : Environment) (aritySplit arity : Nat) (cs : List Conjunction) : Except Failure String :=
  match cs with
  | [] => .ok ("\x7b " ++ (TupleDecl.sDefaultTupleDecl arity).toString aritySplit ++ " : FALSE \x7d")
  | cs => do
    let strs ← cs.mapM (Conjunction.prettyPrintString env)
    .ok (" union ".intercalate strs)

/-- `Set::prettyPrintString` -/
def Set.prettyPrintString (env : Environment) (s : Set) : Except Failure String :=
  IEGen.prettyPrintString env 0 s.arity s.conjunctions

end IEGen
