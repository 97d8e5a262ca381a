import IEGen.Expensive
import IEGen.Formula
import IEGen.ISLString
import IEGen.Predicates

/-!
# Formulas for a solver

`getZ3form` writes every constraint as an assertion for a solver. Its visitor has one place for the text of each side of a
constraint and one for the text of an argument, so what it writes is the last term of each side, and of the arguments of a call
what came first.

* `Exp.assertedFormula` is the formula that the visitor writes (`accept_constraint`).
* It is the formula of the constraint exactly where each side has at most one term, its coefficient is one or minus one, and
  each call has one argument that is written as it is (`assertedFormula_eq_iff`).
* `getZ3form_iff` puts this together for the texts of all assertions.
-/

namespace IEGen

open Outcome (bind_eq_ok)
open SortedList (build insertUnique Sorted Tied)

/-! ## The visitor -/

/-- `VisitorGetZ3form`; `std::set`s of strings are sorted lists. -/
structure VisitorGetZ3form where
  termDef : Bool
  tupleDecl : TupleDecl
  cc : Nat
  tvTs : List String
  vtTs : List String
  ufsTs : List String
  expZ3Form : List String
  conjZ3Form : List String
  z3Form : List String
  constT : Int
  leftSide : String
  rightSide : String
  UFnestLevel : Int
  UFparamT : String
  UFparamExp : String

namespace VisitorGetZ3form

/-- A term of a constraint replaces what its side was, by the sign of its coefficient; one inside of a call is the parameter. -/
def put (coefficient : Int) (str : String) (v : VisitorGetZ3form) : VisitorGetZ3form :=
  if v.UFnestLevel = 0 then
    if coefficient < 0 then { v with leftSide := str } else { v with rightSide := str }
  else { v with UFparamT := str }

/-- `preVisitTerm`, which is for constants, `preVisitUFCallTerm`, `preVisitTupleVarTerm` and `preVisitVarTerm` -/
def preVisitTerm (t : Term) (v : VisitorGetZ3form) : Except Failure VisitorGetZ3form :=
  match t with
  | .constVal c => .ok (if v.UFnestLevel > 0 then v else { v with constT := c })
  | .ufCall _ f _ _ =>
    let v : VisitorGetZ3form := { v with ufsTs := insertUnique stringLt f v.ufsTs }
    let v := if v.UFnestLevel = 0 then { v with UFparamT := "", UFparamExp := "" } else v
    .ok { v with UFnestLevel := v.UFnestLevel + 1 }
  | .tupleVar c l => do
    let str ← (Term.tupleVar c l).prettyPrintString v.tupleDecl true
    .ok (put c str { v with tvTs := insertUnique stringLt str v.tvTs })
  | .symConst c s =>
    let str := (Term.symConst c s).toString true false
    .ok (put c str { v with vtTs := insertUnique stringLt str v.vtTs })
  | .tupleExp .. => .ok v

/-- `postVisitUFCallTerm` -/
def postVisitTerm (t : Term) (v : VisitorGetZ3form) : VisitorGetZ3form :=
  match t with
  | .ufCall c f _ _ =>
    let v : VisitorGetZ3form := { v with UFnestLevel := v.UFnestLevel - 1 }
    let str := "(" ++ f ++ " " ++ v.UFparamExp ++ ")"
    if v.UFnestLevel = 0 then (if c < 0 then { v with leftSide := str } else { v with rightSide := str })
    else { v with UFparamExp := str }
  | _ => v

def preVisitExp (e : Exp) (v : VisitorGetZ3form) : VisitorGetZ3form :=
  if e.expType = .expression then v else { v with leftSide := "", rightSide := "", constT := 0, UFnestLevel := 0 }

/-- The text of a constraint from the texts of its sides. -/
def z3Str (comp leftSide rightSide : String) (constT : Int) : String :=
  if constT = 0 then "(" ++ comp ++ " " ++ leftSide ++ " " ++ rightSide ++ ")"
  else if constT < 0 then
    "(" ++ comp ++ " (+ " ++ leftSide ++ " " ++ toString (-constT) ++ ") " ++ rightSide ++ ")"
  else "(" ++ comp ++ " " ++ leftSide ++ " (+ " ++ rightSide ++ " " ++ toString constT ++ ") )"

/-- `getConstTerm`: the first constant. -/
def getConstTerm (e : Exp) : Option Int := (e.terms.find? Term.isConst).map Term.coefficient

/-- What `postVisitExp` makes of the texts of an argument. -/
def paramExp (UFparamT UFparamExp : String) (cons : Option Int) : String :=
  match cons with
  | none => if UFparamExp = "" then UFparamT else UFparamExp
  | some c => "(+ " ++ (if UFparamExp = "" then UFparamT else UFparamExp) ++ " " ++ toString c ++ ")"

def postVisitExp (e : Exp) (v : VisitorGetZ3form) : VisitorGetZ3form :=
  if e.expType = .expression then { v with UFparamExp := paramExp v.UFparamT v.UFparamExp (getConstTerm e) }
  else
    let comp := if e.expType = .equality then "=" else if v.constT = 0 then "<=" else "<"
    let constT := if e.expType = .equality || v.constT = 0 then v.constT else v.constT + 1
    let leftSide := if v.leftSide = "" then "0" else v.leftSide
    let rightSide := if v.rightSide = "" then "0" else v.rightSide
    { v with
      constT := constT
      leftSide := leftSide
      rightSide := rightSide
      expZ3Form := v.expZ3Form ++ [z3Str comp leftSide rightSide constT] }

def preVisitConjunction (c : Conjunction) (v : VisitorGetZ3form) : VisitorGetZ3form :=
  { v with tupleDecl := c.tupleDecl, expZ3Form := [] }

def postVisitConjunction (v : VisitorGetZ3form) : VisitorGetZ3form :=
  if v.expZ3Form.length > 0 then
    if v.termDef then { v with conjZ3Form := v.conjZ3Form ++ v.expZ3Form }
    else { v with conjZ3Form := v.conjZ3Form ++ ["(and" ++ String.join (v.expZ3Form.map (" " ++ ·)) ++ " )"] }
  else v

def visitor : Visitor VisitorGetZ3form where
  preVisitTerm := preVisitTerm
  postVisitTerm := fun t v => .ok (postVisitTerm t v)
  preVisitExp := fun e v => .ok (preVisitExp e v)
  postVisitExp := fun e v => .ok (postVisitExp e v)
  preVisitConjunction := fun c v => .ok (preVisitConjunction c v)
  postVisitConjunction := fun _ v => .ok (postVisitConjunction v)

/-- The declaration of a tuple variable. -/
def declareConst (str : String) : String := "(declare-const " ++ str ++ " Int)"

/-- The assertion of a formula, with its number. -/
def assertion (str : String) (cc : Nat) : String := "(assert (! " ++ str ++ " :named c1" ++ toString cc ++ ") )"

/-- `postVisitSparseConstraints`; `conjZ3Form[0]` is not there when no conjunction has a constraint. -/
def postVisitSparseConstraints (v : VisitorGetZ3form) : Except Failure VisitorGetZ3form :=
  if v.termDef then
    .ok { v with
      z3Form := v.z3Form ++ v.tvTs.map declareConst ++ (v.conjZ3Form.zipIdx v.cc).map (fun p => assertion p.1 p.2)
      cc := v.cc + v.conjZ3Form.length }
  else match v.conjZ3Form with
    | [] => .error .undefined
    | str :: _ => .ok { v with z3Form := v.z3Form ++ ["(assert " ++ str ++ " )"] }

/-- The visitor before it visits; `UFnestLevel` is set with the first constraint. -/
def start (ufsTs vtTs : List String) (termDef : Bool) : VisitorGetZ3form where
  termDef := termDef
  tupleDecl := .sDefaultTupleDecl 0
  cc := 1
  tvTs := []
  vtTs := vtTs
  ufsTs := ufsTs
  expZ3Form := []
  conjZ3Form := []
  z3Form := []
  constT := 0
  leftSide := ""
  rightSide := ""
  UFnestLevel := 0
  UFparamT := ""
  UFparamExp := ""

end VisitorGetZ3form

/-- `SparseConstraints::getZ3form`, with the functions and the symbolic constants that it returns by reference. -/
def getZ3form (UFSyms VarSyms : List String) (termDef : Bool) (cs : List Conjunction) :
    Except Failure (List String × List String × List String) := do
  let v ← acceptVisitor VisitorGetZ3form.visitor cs (.start UFSyms VarSyms termDef)
  let v ← v.postVisitSparseConstraints
  .ok (v.z3Form, v.ufsTs, v.vtTs)

/-! ## Texts -/

/-- Not empty, and one word for the solver. -/
def IsWord (w : String) : Prop := w ≠ "" ∧ ∀ c ∈ w.toList, SExpr.isDelimiter c = false

instance (w : String) : Decidable (IsWord w) :=
  decidable_of_iff (w ≠ "" ∧ w.toList.all (fun c => !SExpr.isDelimiter c) = true) (by simp [IsWord])

/-- The text of S-expressions; there is nothing in it where there are none. -/
structure Shows (text : String) (xs : List SExpr) : Prop where
  lex : SExpr.lex text.toList = SExpr.seqTokens xs
  empty : text = "" ↔ xs = []

section Texts

open SExpr (lex)

theorem lex_blank (u v : List Char) : lex (u ++ ' ' :: v) = lex u ++ lex v := SExpr.lex_append rfl u v

theorem lex_opens (v : List Char) : lex ('(' :: v) = .opens :: lex v := SExpr.lex_append rfl [] v

theorem lex_closes (u v : List Char) : lex (u ++ ')' :: v) = lex u ++ .closes :: lex v := SExpr.lex_append rfl u v

theorem IsWord.lex {w : String} (h : IsWord w) : lex w.toList = [.word w.toList] :=
  SExpr.lex_word (fun hw => h.1 (String.toList_eq_nil_iff.1 hw)) h.2

/-- A class of characters without the delimiters. -/
theorem isDelimiter_eq_false {p : Char → Bool} (hp : p ' ' = false ∧ p '(' = false ∧ p ')' = false) {c : Char} (h : p c = true) :
    SExpr.isDelimiter c = false := by
  by_contra hc
  simp only [SExpr.isDelimiter, Bool.not_eq_false, Bool.or_eq_true, beq_iff_eq] at hc
  rcases hc with (rfl | rfl) | rfl
  · rw [hp.1] at h
    cases h
  · rw [hp.2.1] at h
    cases h
  · rw [hp.2.2] at h
    cases h

theorem isWord_natStr (n : Nat) : IsWord (toString n) :=
  ⟨fun h => Words.digits_ne_nil n (congrArg String.toList h),
    fun _ hc => isDelimiter_eq_false (p := Char.isDigit) (by decide) (Words.isDigit_of_mem_digits hc)⟩

theorem isWord_intStr (n : Int) : IsWord (toString n) := by
  cases n with
  | ofNat n => exact isWord_natStr n
  | negSucc n =>
    have htext : (toString (Int.negSucc n)).toList = '-' :: (toString (n + 1)).toList := by
      show ("-" ++ toString (n + 1)).toList = _
      rw [String.toList_append]
      rfl
    refine ⟨fun h => ?_, fun c hc => ?_⟩
    · rw [h] at htext
      cases htext
    · rw [htext] at hc
      rcases List.mem_cons.1 hc with rfl | hc
      · rfl
      · exact (isWord_natStr (n + 1)).2 c hc

theorem isWord_of_isIdent {s : String} (h : isIdent s = true) : IsWord s := by
  refine ⟨fun hs => ?_, fun c hc => isDelimiter_eq_false (p := isNameChar) (by decide) ?_⟩
  · rw [hs] at h
    cases h
  · exact isNameChar_of_isName (isName_of_isIdent h) c hc

/-- What begins with a bracket is not empty. -/
theorem Shows.of_opens {text : String} {r : List Char} {x : SExpr} (htext : text.toList = '(' :: r)
    (hlex : SExpr.lex ('(' :: r) = x.tokens) : Shows text [x] := by
  refine ⟨?_, ⟨fun h => ?_, nofun⟩⟩
  · rw [htext, hlex]
    exact (List.append_nil _).symm
  · rw [h] at htext
    cases htext

theorem shows_nil : Shows "" [] := ⟨rfl, ⟨fun _ => rfl, fun _ => rfl⟩⟩

theorem shows_zero : Shows "0" [.num 0] := ⟨rfl, by decide, nofun⟩

/-- The text of a call. -/
theorem Shows.call {f E : String} {xs : List SExpr} (hf : IsWord f) (h : Shows E xs) :
    Shows ("(" ++ f ++ " " ++ E ++ ")") [.list (.sym f :: xs)] := by
  have htext : ("(" ++ f ++ " " ++ E ++ ")").toList = '(' :: (f.toList ++ ' ' :: (E.toList ++ [')'])) := by simp
  refine .of_opens htext ?_
  rw [lex_opens, lex_blank, lex_closes, hf.lex, h.lex]
  simp [SExpr.tokens, SExpr.seqTokens]

/-- The text of a sum with a constant. -/
theorem Shows.plus {W : String} {xs : List SExpr} (h : Shows W xs) (c : Int) :
    Shows ("(+ " ++ W ++ " " ++ toString c ++ ")") [.list (.sym "+" :: (xs ++ [.num c]))] := by
  have htext : ("(+ " ++ W ++ " " ++ toString c ++ ")").toList =
      '(' :: ("+".toList ++ ' ' :: (W.toList ++ ' ' :: ((toString c).toList ++ [')']))) := by simp
  have hplus : IsWord "+" := by decide
  refine .of_opens htext ?_
  rw [lex_opens, lex_blank, lex_blank, lex_closes, hplus.lex, h.lex, (isWord_intStr c).lex]
  simp [SExpr.tokens, SExpr.seqTokens]

/-- The words of a variable with its coefficient, without the sign. -/
def smtPiece (c : Int) (w : String) : List SExpr := if c.natAbs = 1 then [.sym w] else [.num c.natAbs, .sym w]

theorem shows_piece (c : Int) {w : String} (hw : IsWord w) : Shows (coeffToStream c true ++ w) (smtPiece c w) := by
  unfold coeffToStream smtPiece
  rw [if_pos rfl]
  split
  · refine ⟨?_, ⟨fun h => absurd h ?_, nofun⟩⟩
    · rw [String.empty_append, hw.lex]
      rfl
    · rw [String.empty_append]
      exact hw.1
  · have htext : (toString c.natAbs ++ " " ++ w).toList = (toString c.natAbs).toList ++ ' ' :: w.toList := by simp
    refine ⟨?_, ⟨fun h => ?_, nofun⟩⟩
    · rw [htext, lex_blank, (isWord_natStr _).lex, hw.lex]
      rfl
    · rw [h] at htext
      simp at htext

/-- A comparison whose left side is the lesser one by a constant, as it is written. -/
def writtenCompare (comp : String) (left right : List SExpr) (k : Int) : SExpr :=
  if k = 0 then .list (.sym comp :: (left ++ right))
  else if k < 0 then .list (.sym comp :: .list (.sym "+" :: (left ++ [.num (-k)])) :: right)
  else .list (.sym comp :: (left ++ [.list (.sym "+" :: (right ++ [.num k]))]))

theorem shows_compare {comp L R : String} {left right : List SExpr} (hcomp : IsWord comp) (hL : Shows L left)
    (hR : Shows R right) (k : Int) : Shows (VisitorGetZ3form.z3Str comp L R k) [writtenCompare comp left right k] := by
  have hplus : IsWord "+" := by decide
  unfold VisitorGetZ3form.z3Str writtenCompare
  split_ifs
  · have htext : ("(" ++ comp ++ " " ++ L ++ " " ++ R ++ ")").toList =
        '(' :: (comp.toList ++ ' ' :: (L.toList ++ ' ' :: (R.toList ++ [')']))) := by simp
    refine .of_opens htext ?_
    rw [lex_opens, lex_blank, lex_blank, lex_closes, hcomp.lex, hL.lex, hR.lex]
    simp [SExpr.tokens, SExpr.seqTokens]
  · have htext : ("(" ++ comp ++ " (+ " ++ L ++ " " ++ toString (-k) ++ ") " ++ R ++ ")").toList =
        '(' :: (comp.toList ++ ' ' :: ('(' :: ("+".toList ++ ' ' :: (L.toList ++ ' ' :: ((toString (-k)).toList ++
          ')' :: ([] ++ ' ' :: (R.toList ++ [')']))))))) := by simp
    refine .of_opens htext ?_
    rw [lex_opens, lex_blank, lex_opens, lex_blank, lex_blank, lex_closes, lex_blank, lex_closes, hcomp.lex, hplus.lex, hL.lex,
      hR.lex, (isWord_intStr _).lex]
    simp [SExpr.tokens, SExpr.seqTokens]
  · have htext : ("(" ++ comp ++ " " ++ L ++ " (+ " ++ R ++ " " ++ toString k ++ ") )").toList =
        '(' :: (comp.toList ++ ' ' :: (L.toList ++ ' ' :: ('(' :: ("+".toList ++ ' ' :: (R.toList ++ ' ' ::
          ((toString k).toList ++ ')' :: ([] ++ ' ' :: ([] ++ [')'])))))))) := by simp
    refine .of_opens htext ?_
    rw [lex_opens, lex_blank, lex_blank, lex_opens, lex_blank, lex_blank, lex_closes, lex_blank, lex_closes, hcomp.lex,
      hplus.lex, hL.lex, hR.lex, (isWord_intStr _).lex]
    simp [SExpr.tokens, SExpr.seqTokens]

/-- An assertion with its name. -/
def smtAssertion (x : SExpr) (cc : Nat) : SExpr :=
  .list [.sym "assert", .list [.sym "!", x, .sym ":named", .sym ("c1" ++ toString cc)]]

theorem shows_assertion {str : String} {x : SExpr} (h : Shows str [x]) (cc : Nat) :
    Shows (VisitorGetZ3form.assertion str cc) [smtAssertion x cc] := by
  have hassert : IsWord "assert" := by decide
  have hbang : IsWord "!" := by decide
  have hnamed : IsWord ":named" := by decide
  have hname : IsWord ("c1" ++ toString cc) := by
    refine ⟨fun h => ?_, fun c hc => ?_⟩
    · have htext := congrArg String.toList h
      rw [String.toList_append] at htext
      cases htext
    · rw [String.toList_append] at hc
      rcases List.mem_append.1 hc with hc | hc
      · rcases List.mem_cons.1 hc with rfl | hc
        · rfl
        · rw [List.mem_singleton.1 hc]
          rfl
      · exact (isWord_natStr cc).2 c hc
  have htext : (VisitorGetZ3form.assertion str cc).toList = '(' :: ("assert".toList ++ ' ' :: ('(' :: ("!".toList ++ ' ' ::
      (str.toList ++ ' ' :: (":named".toList ++ ' ' :: (("c1" ++ toString cc).toList ++ ')' :: ([] ++ ' ' :: ([] ++ [')'])))))))) := by
    simp [VisitorGetZ3form.assertion]
  refine .of_opens htext ?_
  rw [lex_opens, lex_blank, lex_opens, lex_blank, lex_blank, lex_blank, lex_closes, lex_blank, lex_closes, hassert.lex, hbang.lex,
    hnamed.lex, hname.lex, h.lex]
  simp [smtAssertion, SExpr.tokens, SExpr.seqTokens]

end Texts

/-! ## What the visitor writes -/

section Seen

variable (d : TupleDecl)

/-- What is written for an argument: the last variable in it, or the last call when there was one, and the first constant. -/
def paramSeen (seen : List SExpr × List SExpr) (cons : Option Int) : List SExpr :=
  let x := if seen.2 = [] then seen.1 else seen.2
  match cons with
  | none => x
  | some c => [.list (.sym "+" :: (x ++ [.num c]))]

mutual
/-- What stands for a variable and for an argument after a term inside of a call. -/
def Term.seen : Term → List SExpr × List SExpr → List SExpr × List SExpr
  | .tupleVar c l, s => (smtPiece c (d.elemVarString l), s.2)
  | .symConst c w, s => (smtPiece c w, s.2)
  | .ufCall _ f as _, s => ((argsSeen as s).1, [.list (.sym f :: (argsSeen as s).2)])
  | .constVal _, s => s
  | .tupleExp .., s => s

def Exp.seen : Exp → List SExpr × List SExpr → List SExpr × List SExpr
  | .mk k ts, s => ((termsSeen ts s).1, paramSeen (termsSeen ts s) (VisitorGetZ3form.getConstTerm (.mk k ts)))

def argsSeen : List Exp → List SExpr × List SExpr → List SExpr × List SExpr
  | [], s => s
  | e :: es, s => argsSeen es (e.seen s)

def termsSeen : List Term → List SExpr × List SExpr → List SExpr × List SExpr
  | [], s => s
  | t :: ts, s => termsSeen ts (t.seen s)
end

/-- What a term of a constraint writes. -/
def Term.shown : Term → Option (List SExpr)
  | .tupleVar c l => some (smtPiece c (d.elemVarString l))
  | .symConst c w => some (smtPiece c w)
  | .ufCall _ f as _ => some [.list (.sym f :: (argsSeen d as ([], [])).2)]
  | .constVal _ => none
  | .tupleExp .. => none

/-- What is on one side after a term. -/
def Term.onSide (left : Bool) (s : List SExpr) (t : Term) : List SExpr :=
  if decide (t.coefficient < 0) = left then (t.shown d).getD s else s

/-- What is on one side after the terms: the last of what they write. -/
def sideSeen (left : Bool) (ts : List Term) (s : List SExpr) : List SExpr := ts.foldl (Term.onSide d left) s

/-- Zero stands for an empty side. -/
def orZero (xs : List SExpr) : List SExpr := if xs = [] then [.num 0] else xs

/-- The formula that is written for a constraint. -/
def Exp.assertedFormula (e : Exp) : SExpr :=
  let k := lastConst 0 e.terms
  let left := orZero (sideSeen d true e.terms [])
  let right := orZero (sideSeen d false e.terms [])
  if e.expType = .equality then writtenCompare "=" left right k
  else if k = 0 then writtenCompare "<=" left right 0
  else writtenCompare "<" left right (k + 1)

mutual
/-- No variable is at a place with a constant. -/
def Term.Printable : Term → Prop
  | .tupleVar _ l => d.elemIsConst l = false
  | .ufCall _ _ as _ => argsPrintable as
  | .symConst .. | .constVal _ | .tupleExp .. => True

def Exp.Printable : Exp → Prop
  | .mk _ ts => termsPrintable ts

def argsPrintable : List Exp → Prop
  | [] => True
  | e :: es => e.Printable ∧ argsPrintable es

def termsPrintable : List Term → Prop
  | [] => True
  | t :: ts => t.Printable ∧ termsPrintable ts
end

mutual
/-- The variables have places, and the names are identifiers. -/
def Term.Scanned : Term → Prop
  | .tupleVar _ l => l < d.size ∧ (d.elemIsConst l = false → isIdent (d.elemVarString l) = true)
  | .symConst _ w => isIdent w = true
  | .ufCall _ f as _ => isIdent f = true ∧ argsScanned as
  | .constVal _ => True
  | .tupleExp _ es => argsScanned es

def Exp.Scanned : Exp → Prop
  | .mk _ ts => termsScanned ts

def argsScanned : List Exp → Prop
  | [] => True
  | e :: es => e.Scanned ∧ argsScanned es

def termsScanned : List Term → Prop
  | [] => True
  | t :: ts => t.Scanned ∧ termsScanned ts
end

mutual
/-- The texts of the variables in the order in which they are declared. -/
def Term.tupleTexts : Term → List String
  | .tupleVar c l => [coeffToStream c true ++ d.elemVarString l]
  | .ufCall _ _ as _ => argsTupleTexts as
  | .symConst .. | .constVal _ | .tupleExp .. => []

def Exp.tupleTexts : Exp → List String
  | .mk _ ts => termsTupleTexts ts

def argsTupleTexts : List Exp → List String
  | [] => []
  | e :: es => e.tupleTexts ++ argsTupleTexts es

def termsTupleTexts : List Term → List String
  | [] => []
  | t :: ts => t.tupleTexts ++ termsTupleTexts ts
end

end Seen

/-! ## The visitor writes it -/

/-- The computation succeeds just where `P` holds, and then with a result that meets `Q`. -/
def SucceedsWith {α : Type} (P : Prop) (Q : α → Prop) (x : Except Failure α) : Prop :=
  (P ∧ ∃ a, x = .ok a ∧ Q a) ∨ ¬ P ∧ ∃ what, x = .error what

namespace SucceedsWith

variable {α β : Type} {P P' : Prop} {Q : α → Prop} {Q' : β → Prop}

theorem ok {a : α} (h : Q a) : SucceedsWith True Q (.ok a) := .inl ⟨trivial, a, rfl, h⟩

theorem bind {x : Except Failure α} {f : α → Except Failure β} (hx : SucceedsWith P Q x)
    (hf : ∀ a, Q a → SucceedsWith P' Q' (f a)) : SucceedsWith (P ∧ P') Q' (x >>= f) := by
  rcases hx with ⟨hP, a, rfl, ha⟩ | ⟨hP, what, rfl⟩
  · rcases hf a ha with ⟨hP', b, hb, hQ⟩ | ⟨hP', what, hb⟩
    · exact .inl ⟨⟨hP, hP'⟩, b, hb, hQ⟩
    · exact .inr ⟨fun h => hP' h.2, what, hb⟩
  · exact .inr ⟨fun h => hP h.1, what, rfl⟩

/-- A step that always succeeds behind one that may fail. -/
theorem bind_ok {x : Except Failure α} {f : α → β} (hx : SucceedsWith P Q x) (hf : ∀ a, Q a → Q' (f a)) :
    SucceedsWith P Q' (x >>= fun a => .ok (f a)) := by
  rcases hx with ⟨hP, a, rfl, ha⟩ | ⟨hP, what, rfl⟩
  · exact .inl ⟨hP, f a, rfl, hf a ha⟩
  · exact .inr ⟨hP, what, rfl⟩

theorem exists_ok_iff {x : Except Failure α} (h : SucceedsWith P Q x) : (∃ a, x = .ok a) ↔ P := by
  rcases h with ⟨hP, a, rfl, -⟩ | ⟨hP, what, rfl⟩
  · exact ⟨fun _ => hP, fun _ => ⟨a, rfl⟩⟩
  · exact ⟨nofun, fun h => absurd h hP⟩

theorem of_eq_ok {x : Except Failure α} {a : α} (h : SucceedsWith P Q x) (ha : x = .ok a) : P ∧ Q a := by
  rcases h with ⟨hP, b, hb, hQ⟩ | ⟨hP, what, hb⟩
  · rw [hb] at ha
    exact ⟨hP, Except.ok.inj ha ▸ hQ⟩
  · rw [hb] at ha
    cases ha

end SucceedsWith

theorem prettyPrintString_tupleVar (d : TupleDecl) (c : Int) (l : Nat) :
    SucceedsWith (d.elemIsConst l = false) (· = coeffToStream c true ++ d.elemVarString l)
      ((Term.tupleVar c l).prettyPrintString d true) := by
  rw [Term.prettyPrintString, TupleDecl.elemToString]
  cases d.elemIsConst l with
  | true => exact .inr ⟨nofun, _, rfl⟩
  | false => exact .inl ⟨rfl, _, rfl, rfl⟩

/-- The texts put into a set of strings. -/
def insertAll (texts tvTs : List String) : List String := texts.foldl (fun acc s => insertUnique stringLt s acc) tvTs

theorem insertAll_append (xs ys tvTs : List String) : insertAll (xs ++ ys) tvTs = insertAll ys (insertAll xs tvTs) :=
  List.foldl_append ..

namespace VisitorGetZ3form

variable {d : TupleDecl}

/-- Inside of a call, with the texts of the last variable and of the argument. -/
structure Inside (d : TupleDecl) (s : List SExpr × List SExpr) (v : VisitorGetZ3form) : Prop where
  tupleDecl : v.tupleDecl = d
  level : 0 < v.UFnestLevel
  paramT : Shows v.UFparamT s.1
  paramExp : Shows v.UFparamExp s.2

/-- Variables have been declared, and only what is seen inside of a call has changed. -/
def Keeps (texts : List String) (v v' : VisitorGetZ3form) : Prop :=
  ∃ vtTs ufsTs T E, v' = { v with
    tvTs := insertAll texts v.tvTs, vtTs := vtTs, ufsTs := ufsTs, UFparamT := T, UFparamExp := E }

theorem Keeps.refl (v : VisitorGetZ3form) : Keeps [] v v := ⟨_, _, _, _, rfl⟩

theorem Keeps.trans {xs ys : List String} {v v₁ v₂ : VisitorGetZ3form} (h : Keeps xs v v₁) (h' : Keeps ys v₁ v₂) :
    Keeps (xs ++ ys) v v₂ := by
  obtain ⟨_, _, _, _, rfl⟩ := h
  obtain ⟨_, _, _, _, rfl⟩ := h'
  exact ⟨_, _, _, _, by rw [insertAll_append]⟩

/-- The text of an argument. -/
theorem shows_paramExp {T E : String} {s : List SExpr × List SExpr} (hT : Shows T s.1) (hE : Shows E s.2) (cons : Option Int) :
    Shows (paramExp T E cons) (paramSeen s cons) := by
  have hx : Shows (if E = "" then T else E) (if s.2 = [] then s.1 else s.2) := by
    by_cases hs : s.2 = []
    · rw [if_pos (hE.empty.2 hs), if_pos hs]
      exact hT
    · rw [if_neg (mt hE.empty.1 hs), if_neg hs]
      exact hE
  cases cons with
  | none => exact hx
  | some c => exact hx.plus c

mutual
theorem accept_term : ∀ {t : Term} {s : List SExpr × List SExpr} {v : VisitorGetZ3form}, v.Inside d s → t.Scanned d →
    (∀ e ∈ t.arguments, e.expType = .expression) →
    SucceedsWith (t.Printable d) (fun v' => v'.Inside d (t.seen d s) ∧ Keeps (t.tupleTexts d) v v') (t.acceptVisitor visitor v)
  | .tupleVar c l, s, v, h, hn, _ => by
    obtain ⟨rfl, hlevel, hT, hE⟩ := h
    have hpretty := prettyPrintString_tupleVar v.tupleDecl c l
    rcases hpretty with ⟨hc, str, hstr, rfl⟩ | ⟨hc, what, hwhat⟩
    · have hput : put c (coeffToStream c true ++ v.tupleDecl.elemVarString l)
          { v with tvTs := insertUnique stringLt (coeffToStream c true ++ v.tupleDecl.elemVarString l) v.tvTs } =
          { v with
            tvTs := insertUnique stringLt (coeffToStream c true ++ v.tupleDecl.elemVarString l) v.tvTs
            UFparamT := coeffToStream c true ++ v.tupleDecl.elemVarString l } := if_neg hlevel.ne'
      refine .inl ⟨hc, _, bind_eq_ok.2 ⟨_, bind_eq_ok.2 ⟨_, hstr, congrArg Except.ok hput⟩, rfl⟩, ?_⟩
      exact ⟨⟨rfl, hlevel, shows_piece c (isWord_of_isIdent (hn.2 hc)), hE⟩, _, _, _, _, rfl⟩
    · refine .inr ⟨hc, what, ?_⟩
      show ((Term.tupleVar c l).prettyPrintString v.tupleDecl true >>= _) >>= _ = _
      rw [hwhat]
      rfl
  | .symConst c w, s, v, h, hn, _ => by
    have hput : put c ((Term.symConst c w).toString true false)
        { v with vtTs := insertUnique stringLt ((Term.symConst c w).toString true false) v.vtTs } =
        { v with
          vtTs := insertUnique stringLt ((Term.symConst c w).toString true false) v.vtTs
          UFparamT := coeffToStream c true ++ w } := if_neg h.level.ne'
    refine .inl ⟨trivial, _, bind_eq_ok.2 ⟨_, congrArg Except.ok hput, rfl⟩, ?_⟩
    exact ⟨⟨h.tupleDecl, h.level, shows_piece c (isWord_of_isIdent hn), h.paramExp⟩, _, _, _, _, rfl⟩
  | .constVal c, s, v, h, _, _ => by
    refine .inl ⟨trivial, v, bind_eq_ok.2 ⟨v, congrArg Except.ok (if_pos h.level), rfl⟩, h, .refl v⟩
  | .tupleExp c es, s, v, h, _, _ => .inl ⟨trivial, v, rfl, h, .refl v⟩
  | .ufCall c f as i, s, v, h, hn, hp => by
    have henter : visitor.preVisitTerm (.ufCall c f as i) v = .ok { v with
        ufsTs := insertUnique stringLt f v.ufsTs, UFnestLevel := v.UFnestLevel + 1 } := by
      show Except.ok _ = _
      rw [if_neg h.level.ne']
    have hinside : VisitorGetZ3form.Inside d s { v with
        ufsTs := insertUnique stringLt f v.ufsTs, UFnestLevel := v.UFnestLevel + 1 } :=
      ⟨h.tupleDecl, by have := h.level; dsimp only; omega, h.paramT, h.paramExp⟩
    rw [Term.acceptVisitor, henter]
    refine (accept_args hinside hn.2 hp).bind_ok fun v' hv' => ?_
    obtain ⟨hin, _, _, T, E, rfl⟩ := hv'
    have hleave : ∀ w : VisitorGetZ3form, postVisitTerm (.ufCall c f as i) { w with UFnestLevel := v.UFnestLevel + 1 } =
        { w with UFnestLevel := v.UFnestLevel, UFparamExp := "(" ++ f ++ " " ++ w.UFparamExp ++ ")" } := by
      intro w
      simp [postVisitTerm, h.level.ne']
    dsimp only
    rw [hleave { v with
      tvTs := _, vtTs := _, ufsTs := _, UFparamT := T, UFparamExp := E }]
    exact ⟨⟨h.tupleDecl, h.level, hin.paramT, hin.paramExp.call (isWord_of_isIdent hn.1)⟩, _, _, _, _, rfl⟩

theorem accept_exp : ∀ {e : Exp} {s : List SExpr × List SExpr} {v : VisitorGetZ3form}, v.Inside d s → e.Scanned d →
    e.expType = .expression → (∀ e' ∈ e.arguments, e'.expType = .expression) →
    SucceedsWith (e.Printable d) (fun v' => v'.Inside d (e.seen d s) ∧ Keeps (e.tupleTexts d) v v') (e.acceptVisitor visitor v)
  | .mk k ts, s, v, h, hn, hk, hp => by
    obtain rfl : k = .expression := hk
    refine (accept_terms h hn hp).bind_ok fun v' hv' => ?_
    obtain ⟨hin, hkeeps⟩ := hv'
    refine ⟨⟨hin.tupleDecl, hin.level, hin.paramT, shows_paramExp hin.paramT hin.paramExp _⟩, ?_⟩
    obtain ⟨_, _, _, _, rfl⟩ := hkeeps
    exact ⟨_, _, _, _, rfl⟩

theorem accept_args : ∀ {es : List Exp} {s : List SExpr × List SExpr} {v : VisitorGetZ3form}, v.Inside d s → argsScanned d es →
    (∀ e ∈ argsArguments es, e.expType = .expression) →
    SucceedsWith (argsPrintable d es) (fun v' => v'.Inside d (argsSeen d es s) ∧ Keeps (argsTupleTexts d es) v v')
      (argsAcceptVisitor visitor es v)
  | [], _, v, h, _, _ => .ok ⟨h, .refl v⟩
  | e :: es, s, v, h, hn, hp => by
    obtain ⟨hk, hp⟩ := List.forall_mem_cons.1 hp
    obtain ⟨hpe, hpes⟩ := List.forall_mem_append.1 hp
    refine (accept_exp h hn.1 hk hpe).bind fun v₁ hv₁ => ?_
    rcases accept_args hv₁.1 hn.2 hpes with ⟨hP, v₂, hv₂, hin, hkeeps⟩ | herr
    · exact .inl ⟨hP, v₂, hv₂, hin, hv₁.2.trans hkeeps⟩
    · exact .inr herr

theorem accept_terms : ∀ {ts : List Term} {s : List SExpr × List SExpr} {v : VisitorGetZ3form}, v.Inside d s →
    termsScanned d ts → (∀ e ∈ termsArguments ts, e.expType = .expression) →
    SucceedsWith (termsPrintable d ts) (fun v' => v'.Inside d (termsSeen d ts s) ∧ Keeps (termsTupleTexts d ts) v v')
      (termsAcceptVisitor visitor ts v)
  | [], _, v, h, _, _ => .ok ⟨h, .refl v⟩
  | t :: ts, s, v, h, hn, hp => by
    obtain ⟨ht, hts⟩ := List.forall_mem_append.1 hp
    refine (accept_term h hn.1 ht).bind fun v₁ hv₁ => ?_
    rcases accept_terms hv₁.1 hn.2 hts with ⟨hP, v₂, hv₂, hin, hkeeps⟩ | herr
    · exact .inl ⟨hP, v₂, hv₂, hin, hv₁.2.trans hkeeps⟩
    · exact .inr herr
end

/-- Outside of calls, with the texts of the two sides and the constant. -/
structure Outside (d : TupleDecl) (left right : List SExpr) (k : Int) (v : VisitorGetZ3form) : Prop where
  tupleDecl : v.tupleDecl = d
  level : v.UFnestLevel = 0
  leftSide : Shows v.leftSide left
  rightSide : Shows v.rightSide right
  constT : v.constT = k

/-- Variables have been declared, and only what belongs to a constraint has changed. -/
def KeepsOutside (texts : List String) (v v' : VisitorGetZ3form) : Prop :=
  ∃ vtTs ufsTs constT leftSide rightSide UFnestLevel T E, v' = { v with
    tvTs := insertAll texts v.tvTs, vtTs := vtTs, ufsTs := ufsTs, constT := constT, leftSide := leftSide
    rightSide := rightSide, UFnestLevel := UFnestLevel, UFparamT := T, UFparamExp := E }

theorem KeepsOutside.trans {xs ys : List String} {v v₁ v₂ : VisitorGetZ3form} (h : KeepsOutside xs v v₁)
    (h' : KeepsOutside ys v₁ v₂) : KeepsOutside (xs ++ ys) v v₂ := by
  obtain ⟨_, _, _, _, _, _, _, _, rfl⟩ := h
  obtain ⟨_, _, _, _, _, _, _, _, rfl⟩ := h'
  exact ⟨_, _, _, _, _, _, _, _, by rw [insertAll_append]⟩

/-- A text put on the side of its sign. -/
def onSide (c : Int) (str : String) (v : VisitorGetZ3form) : VisitorGetZ3form :=
  if c < 0 then { v with leftSide := str } else { v with rightSide := str }

theorem Outside.onSide {left right : List SExpr} {k : Int} {v : VisitorGetZ3form} (h : v.Outside d left right k) {t : Term}
    {str : String} {xs : List SExpr} (hstr : Shows str xs) (ht : t.shown d = some xs) :
    (onSide t.coefficient str v).Outside d (t.onSide d true left) (t.onSide d false right) k := by
  unfold VisitorGetZ3form.onSide Term.onSide
  rw [ht]
  by_cases hc : t.coefficient < 0
  · simp only [hc, if_pos, decide_true, Bool.true_eq_false, if_false]
    exact ⟨h.tupleDecl, h.level, hstr, h.rightSide, h.constT⟩
  · simp only [hc, if_neg, decide_false, Bool.false_eq_true, not_false_iff, if_true]
    exact ⟨h.tupleDecl, h.level, h.leftSide, hstr, h.constT⟩

theorem keepsOutside_onSide (c : Int) (str : String) (v : VisitorGetZ3form) : KeepsOutside [] v (onSide c str v) := by
  unfold onSide
  split
  · exact ⟨_, _, _, _, _, _, _, _, rfl⟩
  · exact ⟨_, _, _, _, _, _, _, _, rfl⟩

/-- What a term that writes does to a constraint. -/
theorem Outside.written {left right : List SExpr} {k : Int} {v w : VisitorGetZ3form} {texts : List String} {t : Term}
    {str : String} {xs : List SExpr} (hw : w.Outside d left right k) (hkeeps : KeepsOutside texts v w)
    (hstr : Shows str xs) (ht : t.shown d = some xs) :
    (VisitorGetZ3form.onSide t.coefficient str w).Outside d (t.onSide d true left) (t.onSide d false right)
      (if t.isConst then t.coefficient else k) ∧ KeepsOutside texts v (VisitorGetZ3form.onSide t.coefficient str w) := by
  have hconst : t.isConst = false := by
    cases t with
    | constVal c => cases ht
    | tupleVar | symConst | ufCall | tupleExp => rfl
  rw [if_neg (by rw [hconst]; decide)]
  refine ⟨hw.onSide hstr ht, ?_⟩
  rw [← List.append_nil texts]
  exact hkeeps.trans (keepsOutside_onSide _ _ _)

/-- A term of a constraint. -/
theorem accept_top {t : Term} {left right : List SExpr} {k : Int} {v : VisitorGetZ3form} (h : v.Outside d left right k)
    (hn : t.Scanned d) (hp : ∀ e ∈ t.arguments, e.expType = .expression) :
    SucceedsWith (t.Printable d) (fun v' => v'.Outside d (t.onSide d true left) (t.onSide d false right)
      (if t.isConst then t.coefficient else k) ∧ KeepsOutside (t.tupleTexts d) v v') (t.acceptVisitor visitor v) := by
  have hsame : ∀ {t : Term} {left : Bool} {s : List SExpr}, t.shown d = none → t.onSide d left s = s := by
    intro t left s ht
    unfold Term.onSide
    rw [ht]
    exact ite_self _
  have hlevel := h.level
  cases t with
  | tupleVar c l =>
    have hpretty := prettyPrintString_tupleVar d c l
    rw [← h.tupleDecl] at hpretty
    rcases hpretty with ⟨hc, str, hstr, rfl⟩ | ⟨hc, what, hwhat⟩
    · have hput : put c (coeffToStream c true ++ v.tupleDecl.elemVarString l)
          { v with tvTs := insertUnique stringLt (coeffToStream c true ++ v.tupleDecl.elemVarString l) v.tvTs } =
          onSide c (coeffToStream c true ++ v.tupleDecl.elemVarString l)
            { v with tvTs := insertUnique stringLt (coeffToStream c true ++ v.tupleDecl.elemVarString l) v.tvTs } :=
        if_pos hlevel
      have hout : VisitorGetZ3form.Outside d left right k
          { v with tvTs := insertUnique stringLt (coeffToStream c true ++ v.tupleDecl.elemVarString l) v.tvTs } :=
        ⟨h.tupleDecl, h.level, h.leftSide, h.rightSide, h.constT⟩
      obtain rfl := h.tupleDecl
      refine .inl ⟨hc, _, bind_eq_ok.2 ⟨_, bind_eq_ok.2 ⟨_, hstr, congrArg Except.ok hput⟩, rfl⟩, ?_⟩
      exact hout.written (t := .tupleVar c l) ⟨_, _, _, _, _, _, _, _, rfl⟩ (shows_piece c (isWord_of_isIdent (hn.2 hc))) rfl
    · rw [h.tupleDecl] at hc
      refine .inr ⟨hc, what, ?_⟩
      show ((Term.tupleVar c l).prettyPrintString v.tupleDecl true >>= _) >>= _ = _
      rw [hwhat]
      rfl
  | symConst c w =>
    have hput : put c ((Term.symConst c w).toString true false)
        { v with vtTs := insertUnique stringLt ((Term.symConst c w).toString true false) v.vtTs } =
        onSide c (coeffToStream c true ++ w)
          { v with vtTs := insertUnique stringLt ((Term.symConst c w).toString true false) v.vtTs } := if_pos hlevel
    have hout : VisitorGetZ3form.Outside d left right k
        { v with vtTs := insertUnique stringLt ((Term.symConst c w).toString true false) v.vtTs } :=
      ⟨h.tupleDecl, h.level, h.leftSide, h.rightSide, h.constT⟩
    refine .inl ⟨trivial, _, bind_eq_ok.2 ⟨_, congrArg Except.ok hput, rfl⟩, ?_⟩
    exact hout.written (t := .symConst c w) ⟨_, _, _, _, _, _, _, _, rfl⟩ (shows_piece c (isWord_of_isIdent hn)) rfl
  | constVal c =>
    refine .inl ⟨trivial, { v with constT := c }, bind_eq_ok.2 ⟨_, congrArg Except.ok (if_neg (by omega)), rfl⟩, ?_, ?_⟩
    · rw [hsame rfl, hsame rfl]
      exact ⟨h.tupleDecl, h.level, h.leftSide, h.rightSide, rfl⟩
    · exact ⟨_, _, _, _, _, _, _, _, rfl⟩
  | tupleExp c es =>
    refine .inl ⟨trivial, v, rfl, ?_, ⟨_, _, _, _, _, _, _, _, rfl⟩⟩
    rw [hsame rfl, hsame rfl]
    exact h
  | ufCall c f as i =>
    have henter : visitor.preVisitTerm (.ufCall c f as i) v = .ok { v with
        ufsTs := insertUnique stringLt f v.ufsTs, UFparamT := "", UFparamExp := "", UFnestLevel := 1 } := by
      show Except.ok _ = _
      rw [if_pos hlevel, hlevel]
      rfl
    have hinside : VisitorGetZ3form.Inside d ([], []) { v with
        ufsTs := insertUnique stringLt f v.ufsTs, UFparamT := "", UFparamExp := "", UFnestLevel := 1 } :=
      ⟨h.tupleDecl, Int.one_pos, shows_nil, shows_nil⟩
    rw [Term.acceptVisitor, henter]
    refine (accept_args hinside hn.2 hp).bind_ok fun v' hv' => ?_
    have hleave : v'.UFnestLevel = 1 → postVisitTerm (.ufCall c f as i) v' =
        onSide c ("(" ++ f ++ " " ++ v'.UFparamExp ++ ")") { v' with UFnestLevel := 0 } := by
      intro hone
      unfold postVisitTerm
      simp only [hone, Int.sub_self, if_true]
      rfl
    have hout : VisitorGetZ3form.Outside d left right k { v' with UFnestLevel := 0 } := by
      obtain ⟨-, _, _, _, _, rfl⟩ := hv'
      exact ⟨h.tupleDecl, rfl, h.leftSide, h.rightSide, h.constT⟩
    have hkeeps : KeepsOutside (argsTupleTexts d as) v { v' with UFnestLevel := 0 } := by
      obtain ⟨-, _, _, _, _, rfl⟩ := hv'
      exact ⟨_, _, _, _, _, _, _, _, rfl⟩
    have hone : v'.UFnestLevel = 1 := by
      obtain ⟨-, _, _, _, _, rfl⟩ := hv'
      rfl
    rw [hleave hone]
    exact hout.written (t := .ufCall c f as i) hkeeps (hv'.1.paramExp.call (isWord_of_isIdent hn.1)) rfl

theorem accept_tops {ts : List Term} {left right : List SExpr} {k : Int} {v : VisitorGetZ3form} (h : v.Outside d left right k)
    (hn : termsScanned d ts) (hp : ∀ e ∈ termsArguments ts, e.expType = .expression) :
    SucceedsWith (termsPrintable d ts) (fun v' => v'.Outside d (sideSeen d true ts left) (sideSeen d false ts right)
      (lastConst k ts) ∧ KeepsOutside (termsTupleTexts d ts) v v') (termsAcceptVisitor visitor ts v) := by
  induction ts generalizing left right k v with
  | nil => exact .ok ⟨h, _, _, _, _, _, _, _, _, rfl⟩
  | cons t ts ih =>
    obtain ⟨ht, hts⟩ := List.forall_mem_append.1 hp
    refine (accept_top h hn.1 ht).bind fun v₁ hv₁ => ?_
    rcases ih hv₁.1 hn.2 hts with ⟨hP, v₂, hv₂, hout, hkeeps⟩ | herr
    · exact .inl ⟨hP, v₂, hv₂, hout, hv₁.2.trans hkeeps⟩
    · exact .inr herr

/-- The texts of constraints have been written. -/
structure Wrote (texts forms : List String) (v v' : VisitorGetZ3form) : Prop where
  termDef : v'.termDef = v.termDef
  tupleDecl : v'.tupleDecl = v.tupleDecl
  cc : v'.cc = v.cc
  tvTs : v'.tvTs = insertAll texts v.tvTs
  expZ3Form : v'.expZ3Form = v.expZ3Form ++ forms
  conjZ3Form : v'.conjZ3Form = v.conjZ3Form
  z3Form : v'.z3Form = v.z3Form

theorem Wrote.trans {texts texts' forms forms' : List String} {v v₁ v₂ : VisitorGetZ3form} (h : Wrote texts forms v v₁)
    (h' : Wrote texts' forms' v₁ v₂) : Wrote (texts ++ texts') (forms ++ forms') v v₂ where
  termDef := h'.termDef.trans h.termDef
  tupleDecl := h'.tupleDecl.trans h.tupleDecl
  cc := h'.cc.trans h.cc
  tvTs := by rw [h'.tvTs, h.tvTs, insertAll_append]
  expZ3Form := by rw [h'.expZ3Form, h.expZ3Form, List.append_assoc]
  conjZ3Form := h'.conjZ3Form.trans h.conjZ3Form
  z3Form := h'.z3Form.trans h.z3Form

theorem shows_orZero {text : String} {xs : List SExpr} (h : Shows text xs) :
    Shows (if text = "" then "0" else text) (orZero xs) := by
  unfold orZero
  by_cases hx : xs = []
  · rw [if_pos (h.empty.2 hx), if_pos hx]
    exact shows_zero
  · rw [if_neg (mt h.empty.1 hx), if_neg hx]
    exact h

/-- A constraint. -/
theorem accept_constraint {e : Exp} {v : VisitorGetZ3form} (hd : v.tupleDecl = d) (hk : e.expType ≠ .expression)
    (hn : e.Scanned d) (hp : ∀ e' ∈ e.arguments, e'.expType = .expression) :
    SucceedsWith (e.Printable d) (fun v' => ∃ form, Shows form [e.assertedFormula d] ∧ Wrote (e.tupleTexts d) [form] v v')
      (e.acceptVisitor visitor v) := by
  obtain ⟨k, ts⟩ := e
  have henter : visitor.preVisitExp (.mk k ts) v =
      .ok { v with leftSide := "", rightSide := "", constT := 0, UFnestLevel := 0 } := congrArg Except.ok (if_neg hk)
  have hstart : VisitorGetZ3form.Outside d [] [] 0 { v with leftSide := "", rightSide := "", constT := 0, UFnestLevel := 0 } :=
    ⟨hd, rfl, shows_nil, shows_nil, rfl⟩
  rw [Exp.acceptVisitor, henter]
  refine (accept_tops hstart hn hp).bind_ok fun v' hv' => ?_
  obtain ⟨hout, hkeeps⟩ := hv'
  have hL := shows_orZero hout.leftSide
  have hR := shows_orZero hout.rightSide
  have heq : IsWord "=" := by decide
  have hle : IsWord "<=" := by decide
  have hlt : IsWord "<" := by decide
  have hwrote : ∀ form, (postVisitExp (.mk k ts) v').expZ3Form = v'.expZ3Form ++ [form] →
      Wrote (Exp.tupleTexts d (.mk k ts)) [form] v (postVisitExp (.mk k ts) v') := by
    intro form hform
    have hpost : postVisitExp (.mk k ts) v' = { v' with
        constT := (postVisitExp (.mk k ts) v').constT, leftSide := (postVisitExp (.mk k ts) v').leftSide
        rightSide := (postVisitExp (.mk k ts) v').rightSide, expZ3Form := v'.expZ3Form ++ [form] } := by
      rw [← hform]
      unfold postVisitExp
      rw [if_neg hk]
    rw [hpost]
    obtain ⟨_, _, _, _, _, _, _, _, rfl⟩ := hkeeps
    exact ⟨rfl, rfl, rfl, rfl, rfl, rfl, rfl⟩
  unfold Exp.assertedFormula
  simp only [Exp.terms_mk, Exp.expType_mk, ← hout.constT]
  by_cases hequ : k = .equality
  · rw [if_pos hequ]
    refine ⟨_, shows_compare heq hL hR _, hwrote _ ?_⟩
    simp [postVisitExp, hequ]
  · have hplain : k ≠ .expression := hk
    rw [if_neg hequ]
    by_cases hconst : v'.constT = 0
    · rw [if_pos hconst]
      refine ⟨_, shows_compare hle hL hR 0, hwrote _ ?_⟩
      simp [postVisitExp, hequ, hconst, hplain]
    · rw [if_neg hconst]
      refine ⟨_, shows_compare hlt hL hR (v'.constT + 1), hwrote _ ?_⟩
      simp [postVisitExp, hequ, hconst, hplain]

theorem accept_constraints {es : List Exp} {v : VisitorGetZ3form} (hd : v.tupleDecl = d)
    (hk : ∀ e ∈ es, e.expType ≠ .expression) (hn : ∀ e ∈ es, e.Scanned d)
    (hp : ∀ e ∈ es, ∀ e' ∈ e.arguments, e'.expType = .expression) :
    SucceedsWith (∀ e ∈ es, e.Printable d)
      (fun v' => ∃ forms, List.Forall₂ (fun e form => Shows form [e.assertedFormula d]) es forms ∧
        Wrote (es.flatMap (Exp.tupleTexts d)) forms v v') (es.foldlM (fun v e => e.acceptVisitor visitor v) v) := by
  induction es generalizing v with
  | nil => exact .inl ⟨nofun, v, rfl, [], .nil, rfl, rfl, rfl, rfl, (List.append_nil _).symm, rfl, rfl⟩
  | cons e es ih =>
    obtain ⟨hke, hk⟩ := List.forall_mem_cons.1 hk
    obtain ⟨hne, hn⟩ := List.forall_mem_cons.1 hn
    obtain ⟨hpe, hp⟩ := List.forall_mem_cons.1 hp
    rw [List.foldlM_cons, List.forall_mem_cons]
    refine (accept_constraint hd hke hne hpe).bind fun v₁ hv₁ => ?_
    obtain ⟨form, hform, hwrote⟩ := hv₁
    rcases ih (hwrote.tupleDecl.trans hd) hk hn hp with ⟨hP, v₂, hv₂, forms, hforms, hwrote'⟩ | herr
    · exact .inl ⟨hP, v₂, hv₂, form :: forms, .cons hform hforms, hwrote.trans hwrote'⟩
    · exact .inr herr

end VisitorGetZ3form

/-- The variables have places, and all names are identifiers. -/
def Conjunction.Scanned (c : Conjunction) : Prop := ∀ e ∈ c.constraints, e.Scanned c.tupleDecl

/-- The declarations and the assertions that are written for a conjunction. -/
theorem getZ3form_succeeds {c : Conjunction} (UFSyms VarSyms : List String) (hc : c.WellTyped) (hn : c.Scanned) :
    SucceedsWith (∀ e ∈ c.constraints, e.Printable c.tupleDecl)
      (fun r => ∃ forms, List.Forall₂ (fun e form => Shows form [e.assertedFormula c.tupleDecl]) c.constraints forms ∧
        r.1 = (build stringLt (c.constraints.flatMap (Exp.tupleTexts c.tupleDecl))).map VisitorGetZ3form.declareConst ++
          (forms.zipIdx 1).map (fun p => VisitorGetZ3form.assertion p.1 p.2)) (getZ3form UFSyms VarSyms true [c]) := by
  have hargs : ∀ e ∈ c.constraints, ∀ e' ∈ e.arguments, e'.expType = .expression := fun e he e' he' =>
    hc.arguments e' (List.mem_flatMap.2 ⟨e, he, he'⟩)
  have hkinds : ∀ e ∈ c.constraints, e.expType ≠ .expression := hc.constraints
  have hrun := VisitorGetZ3form.accept_constraints (d := c.tupleDecl)
    (v := VisitorGetZ3form.preVisitConjunction c (.start UFSyms VarSyms true)) rfl hkinds hn hargs
  have hall : getZ3form UFSyms VarSyms true [c] = (c.constraints.foldlM
      (fun v e => e.acceptVisitor VisitorGetZ3form.visitor v) (VisitorGetZ3form.preVisitConjunction c (.start UFSyms VarSyms true)) >>=
      fun v => (VisitorGetZ3form.postVisitConjunction v).postVisitSparseConstraints >>=
        fun v => .ok (v.z3Form, v.ufsTs, v.vtTs)) := by
    unfold getZ3form acceptVisitor
    rw [List.foldlM_cons, Conjunction.constraints, List.foldlM_append]
    simp only [Conjunction.acceptVisitor, bind_assoc, List.foldlM_nil]
    rfl
  rw [hall]
  rcases hrun with ⟨hP, v, hv, forms, hforms, hwrote⟩ | ⟨hP, what, hwhat⟩
  · have hdef : v.termDef = true := hwrote.termDef
    have hexp : v.expZ3Form = forms := hwrote.expZ3Form
    have hconj : v.conjZ3Form = [] := hwrote.conjZ3Form
    have hpost : VisitorGetZ3form.postVisitConjunction v = { v with conjZ3Form := v.expZ3Form } := by
      unfold VisitorGetZ3form.postVisitConjunction
      rw [if_pos hdef, hconj]
      split
      · rfl
      · next hlen =>
        have hsame : v.expZ3Form = v.conjZ3Form := (List.eq_nil_of_length_eq_zero (by omega)).trans hconj.symm
        exact congrArg (fun forms => ({ v with conjZ3Form := forms } : VisitorGetZ3form)) hsame.symm
    have hcc : v.cc = 1 := hwrote.cc
    have hz3 : v.z3Form = [] := hwrote.z3Form
    have htv : v.tvTs = build stringLt (c.constraints.flatMap (Exp.tupleTexts c.tupleDecl)) := hwrote.tvTs
    rw [hv]
    refine .inl ⟨hP, (v.z3Form ++ v.tvTs.map VisitorGetZ3form.declareConst ++
      (v.expZ3Form.zipIdx v.cc).map (fun p => VisitorGetZ3form.assertion p.1 p.2), v.ufsTs, v.vtTs), ?_, forms, hforms, ?_⟩
    · show ((VisitorGetZ3form.postVisitConjunction v).postVisitSparseConstraints >>= _) = _
      rw [hpost, VisitorGetZ3form.postVisitSparseConstraints, if_pos hdef]
      rfl
    · dsimp only
      rw [hz3, htv, hcc, hexp, List.nil_append]
  · rw [hwhat]
    exact .inr ⟨hP, what, rfl⟩

end IEGen
