import IEGen.Inside
import IEGen.Fixed

/-!
# The string of a set or relation

`getString` prints the terms of a constraint that have a negative coefficient on the left of a comparison and the others on
the right, without signs, and puts the constant on the side where it is not negative where there are terms on both sides. Its
visitor writes one text, constraint by constraint and conjunction by conjunction; `Set.getString_eq` and `Relation.getString_eq`
give that text.
-/

namespace IEGen

open Outcome (bind_eq_ok forall₂_of_mapM)

/-! ## A constraint -/

/-- The constant of an expression. -/
def Exp.constT (e : Exp) : Option Int := (e.terms.filter Term.isConst).getLast?.map Term.coefficient

/-- The terms for the left side, those with a negative coefficient, the last one first. -/
def Exp.leftSide (e : Exp) : List Term := (e.terms.filter (fun t => !t.isConst && decide (t.coefficient < 0))).reverse

/-- The terms for the right side, the last one first. -/
def Exp.rightSide (e : Exp) : List Term := (e.terms.filter (fun t => !t.isConst && !decide (t.coefficient < 0))).reverse

/-- A constant behind the terms of a side, with a plus where `side` is not empty. -/
def constAfter (side : List String) (c : Int) : String := if side.isEmpty then toString c else " + " ++ toString c

/-- What is printed to the left of the comparison. -/
def printLeft (k : ExpType) (constT : Option Int) (left : List String) : String :=
  String.join left ++
    match k, constT with
    | _, none => if left.isEmpty then "0" else ""
    | .equality, some c => if c < 0 then constAfter left (-c) else ""
    | .inequality, some c =>
      if c < 0 then (if -c - 1 ≠ 0 then constAfter left (-c - 1) else if left.isEmpty then "0" else "")
      else if 0 < c && left.isEmpty then toString (-c - 1) else ""
    | .expression, some _ => ""

/-- The comparison: a negative constant, or a positive one alone on the left, makes it strict. -/
def printOp (k : ExpType) (constT : Option Int) (left : List String) : String :=
  match k, constT with
  | .inequality, some c => if c < 0 || (0 < c && left.isEmpty) then " < " else " <= "
  | .inequality, none => " <= "
  | _, _ => " = "

/-- What is printed to the right of the comparison. -/
def printRight (k : ExpType) (constT : Option Int) (left right : List String) : String :=
  String.join right ++
    match k, constT with
    | _, none => if right.isEmpty then "0" else ""
    | .equality, some c => if 0 < c then constAfter left c else ""
    | .inequality, some c => if 0 < c && !left.isEmpty then constAfter right c else ""
    | .expression, some _ => ""

/-- What `preVisitExp` prints for a constraint. -/
def Exp.getString (d : TupleDecl) (e : Exp) : Except Failure String := do
  let left ← e.leftSide.mapM (Term.prettyPrintString d true)
  let right ← e.rightSide.mapM (Term.prettyPrintString d true)
  .ok (printLeft e.expType e.constT left ++ printOp e.expType e.constT left ++ printRight e.expType e.constT left right)

/-! ## The visitor -/

/-- `VisitorGetString`, which prints with the names of the declarations. -/
structure VisitorGetString where
  str : String
  aTupleDecl : TupleDecl
  aritySplit : Nat
  firstConj : Bool
  firstExp : Bool

namespace VisitorGetString

/-- `preVisitExp`, which ignores the arguments of calls. -/
def preVisitExp (e : Exp) (v : VisitorGetString) : Except Failure VisitorGetString :=
  match e.expType with
  | .expression => .ok v
  | _ => do
    let text ← e.getString v.aTupleDecl
    .ok { v with str := v.str ++ (if v.firstExp then "" else " && ") ++ text, firstExp := false }

def preVisitConjunction (c : Conjunction) (v : VisitorGetString) : VisitorGetString :=
  { v with
    aTupleDecl := c.tupleDecl
    str := v.str ++ (if v.firstConj then "" else " union ") ++ ("\x7b " ++ c.tupleDecl.toString v.aritySplit ++ " : ")
    firstConj := false
    firstExp := true }

def visitor : Visitor VisitorGetString where
  preVisitExp := preVisitExp
  preVisitConjunction := fun c v => .ok (preVisitConjunction c v)
  postVisitConjunction := fun _ v => .ok { v with str := v.str ++ " \x7d" }

/-- `preVisitSet` and `preVisitRelation`: a union without conjunctions is printed with default names. -/
def start (arity aritySplit : Nat) (cs : List Conjunction) : VisitorGetString where
  str := if cs.isEmpty then "\x7b " ++ (TupleDecl.sDefaultTupleDecl arity).toString aritySplit ++ " : FALSE \x7d" else ""
  aTupleDecl := .sDefaultTupleDecl 0
  aritySplit := aritySplit
  firstConj := true
  firstExp := true

end VisitorGetString

/-- `Set::getString` -/
def Set.getString (s : Set) : Except Failure String :=
  (acceptVisitor VisitorGetString.visitor s.conjunctions (.start s.arity 0 s.conjunctions)).map VisitorGetString.str

/-- `Relation::getString` -/
def Relation.getString (r : Relation) : Except Failure String :=
  (acceptVisitor VisitorGetString.visitor r.conjunctions
    (.start (r.inArity + r.outArity) r.inArity r.conjunctions)).map VisitorGetString.str

/-! ## The text -/

/-- Texts with a separator between each two. -/
def joinWith (sep : String) : List String → String
  | [] => ""
  | [s] => s
  | s :: s' :: ss => s ++ (sep ++ joinWith sep (s' :: ss))

/-- The text of one conjunction. -/
def Conjunction.getString (aritySplit : Nat) (c : Conjunction) : Except Failure String := do
  let texts ← (c.equalities ++ c.inequalities).mapM (Exp.getString c.tupleDecl)
  .ok ("\x7b " ++ (c.tupleDecl.toString aritySplit ++ (" : " ++ (joinWith " && " texts ++ " \x7d"))))

namespace VisitorGetString

theorem ignoresInside : visitor.IgnoresInside fun _ => True where
  term _ s _ := ⟨s, rfl, trivial, rfl⟩
  exp e he s _ := by
    refine ⟨s, ?_, trivial, rfl⟩
    show preVisitExp e s = .ok s
    rw [preVisitExp, he]

theorem accept_exp {e : Exp} (he : e.expType ≠ .expression) (hp : ∀ d ∈ e.arguments, d.expType = .expression)
    (v : VisitorGetString) : e.acceptVisitor visitor v = (e.getString v.aTupleDecl).map fun text =>
      { v with str := v.str ++ (if v.firstExp then "" else " && ") ++ text, firstExp := false } := by
  obtain ⟨k, ts⟩ := e
  have hpre : preVisitExp (.mk k ts) v = ((Exp.mk k ts).getString v.aTupleDecl).map fun text =>
      { v with str := v.str ++ (if v.firstExp then "" else " && ") ++ text, firstExp := false } := by
    unfold preVisitExp
    cases k with
    | expression => exact absurd rfl he
    | _ => cases (Exp.mk _ ts).getString v.aTupleDecl <;> rfl
  show (preVisitExp (.mk k ts) v >>= fun s => termsAcceptVisitor visitor ts s >>= fun s => .ok s) = _
  rw [hpre]
  cases (Exp.mk k ts).getString v.aTupleDecl with
  | error _ => rfl
  | ok text => exact bind_eq_ok.2 ⟨_, rfl, bind_eq_ok.2 ⟨_, ignoresInside.accept_terms hp trivial, rfl⟩⟩

/-- The texts of the constraints, each behind a separator but the first. -/
theorem accept_exps {es : List Exp} (he : ∀ e ∈ es, e.expType ≠ .expression)
    (hp : ∀ e ∈ es, ∀ d ∈ e.arguments, d.expType = .expression) (v : VisitorGetString) :
    es.foldlM (fun v e => e.acceptVisitor visitor v) v = (es.mapM (Exp.getString v.aTupleDecl)).map fun texts =>
      { v with
        str := v.str ++ (if v.firstExp || texts.isEmpty then "" else " && ") ++ joinWith " && " texts
        firstExp := v.firstExp && texts.isEmpty } := by
  induction es generalizing v with
  | nil => simp [joinWith, pure, Except.pure, Except.map]
  | cons e es ih =>
    obtain ⟨he₀, he⟩ := List.forall_mem_cons.1 he
    obtain ⟨hp₀, hp⟩ := List.forall_mem_cons.1 hp
    rw [List.foldlM_cons, accept_exp he₀ hp₀, List.mapM_cons]
    cases e.getString v.aTupleDecl with
    | error _ => rfl
    | ok text =>
      show es.foldlM (fun v e => e.acceptVisitor visitor v) _ = _
      rw [ih he hp]
      dsimp only
      cases es.mapM (Exp.getString v.aTupleDecl) with
      | error _ => rfl
      | ok texts =>
        cases texts <;> simp [joinWith, pure, Except.pure, Except.map, bind, Except.bind, String.append_assoc]

theorem accept_conjunction {c : Conjunction} (hc : c.WellTyped) (v : VisitorGetString) :
    c.acceptVisitor visitor v = (c.getString v.aritySplit).map fun text =>
      { v with
        aTupleDecl := c.tupleDecl
        str := v.str ++ (if v.firstConj then "" else " union ") ++ text
        firstConj := false
        firstExp := (c.equalities ++ c.inequalities).isEmpty } := by
  have hrun := accept_exps hc.constraints (fun e he d hd => hc.arguments d (List.mem_flatMap.2 ⟨e, he, hd⟩))
    (preVisitConjunction c v)
  have hall : c.acceptVisitor visitor v = (c.equalities ++ c.inequalities).foldlM (fun v e => e.acceptVisitor visitor v)
      (preVisitConjunction c v) >>= fun v => .ok { v with str := v.str ++ " \x7d" } := by
    rw [List.foldlM_append]
    simp only [Conjunction.acceptVisitor, bind_assoc]
    rfl
  rw [hall, hrun, Conjunction.getString]
  dsimp only [preVisitConjunction]
  cases htexts : (c.equalities ++ c.inequalities).mapM (Exp.getString c.tupleDecl) with
  | error _ => rfl
  | ok texts =>
    have hlen : texts.isEmpty = (c.equalities ++ c.inequalities).isEmpty := by
      rw [Bool.eq_iff_iff, List.isEmpty_iff_length_eq_zero, List.isEmpty_iff_length_eq_zero, (forall₂_of_mapM htexts).length_eq]
    simp [bind, Except.bind, Except.map, hlen, String.append_assoc]

/-- The texts of the conjunctions, each behind a separator but the first. -/
theorem accept_conjunctions {cs : List Conjunction} (hcs : ∀ c ∈ cs, c.WellTyped) (v : VisitorGetString) :
    (acceptVisitor visitor cs v).map VisitorGetString.str = (cs.mapM (Conjunction.getString v.aritySplit)).map fun texts =>
      v.str ++ (if v.firstConj || texts.isEmpty then "" else " union ") ++ joinWith " union " texts := by
  induction cs generalizing v with
  | nil => simp [acceptVisitor, joinWith, pure, Except.pure, Except.map]
  | cons c cs ih =>
    obtain ⟨hc, hcs⟩ := List.forall_mem_cons.1 hcs
    rw [acceptVisitor, List.foldlM_cons, accept_conjunction hc, List.mapM_cons]
    cases c.getString v.aritySplit with
    | error _ => rfl
    | ok text =>
      show (acceptVisitor visitor cs _).map _ = _
      rw [ih hcs]
      dsimp only
      cases cs.mapM (Conjunction.getString v.aritySplit) with
      | error _ => rfl
      | ok texts =>
        cases texts <;> simp [joinWith, pure, Except.pure, Except.map, bind, Except.bind, String.append_assoc]

end VisitorGetString

/-- The texts of the conjunctions of a union. -/
def unionString (aritySplit : Nat) (cs : List Conjunction) : Except Failure String :=
  (cs.mapM (Conjunction.getString aritySplit)).map (joinWith " union ")

theorem unionString_of_start {arity aritySplit : Nat} {cs : List Conjunction} (hne : cs ≠ []) (hcs : ∀ c ∈ cs, c.WellTyped) :
    (acceptVisitor VisitorGetString.visitor cs (.start arity aritySplit cs)).map VisitorGetString.str =
      unionString aritySplit cs := by
  have hempty : cs.isEmpty = false := by simp [hne]
  rw [VisitorGetString.accept_conjunctions hcs, VisitorGetString.start, hempty, unionString]
  simp

theorem Set.getString_eq {s : Set} (hne : s.conjunctions ≠ []) (hs : ∀ c ∈ s.conjunctions, c.WellTyped) :
    s.getString = unionString 0 s.conjunctions := unionString_of_start hne hs

theorem Relation.getString_eq {r : Relation} (hne : r.conjunctions ≠ []) (hr : ∀ c ∈ r.conjunctions, c.WellTyped) :
    r.getString = unionString r.inArity r.conjunctions := unionString_of_start hne hr

end IEGen
