import IEGen.Conjunction

/-!
# Visitors

`acceptVisitor` walks the conjunctions of a union, their equalities and then their inequalities, the terms of each
expression, and the arguments of each call; at each node it calls the visitor before and after it has walked the
children. A visitor here is a state with one function for each kind of node (`Visitor`); the five methods for the
classes of terms are one function by cases. The elements of a tuple of expressions are not visited.
-/

namespace IEGen

/-- `Visitor`, with its members as the state `σ`. -/
structure Visitor (σ : Type) where
  preVisitTerm : Term → σ → Except Failure σ := fun _ s => .ok s
  postVisitTerm : Term → σ → Except Failure σ := fun _ s => .ok s
  preVisitExp : Exp → σ → Except Failure σ := fun _ s => .ok s
  postVisitExp : Exp → σ → Except Failure σ := fun _ s => .ok s
  preVisitConjunction : Conjunction → σ → Except Failure σ := fun _ s => .ok s
  postVisitConjunction : Conjunction → σ → Except Failure σ := fun _ s => .ok s

section Accept

variable {σ : Type} (v : Visitor σ)

mutual
/-- `Term::acceptVisitor` and its overrides -/
def Term.acceptVisitor : Term → σ → Except Failure σ
  | .ufCall c f as i, s => do
    let s ← v.preVisitTerm (.ufCall c f as i) s
    let s ← argsAcceptVisitor as s
    v.postVisitTerm (.ufCall c f as i) s
  | t, s => do
    let s ← v.preVisitTerm t s
    v.postVisitTerm t s

/-- `Exp::acceptVisitor` -/
def Exp.acceptVisitor : Exp → σ → Except Failure σ
  | .mk k ts, s => do
    let s ← v.preVisitExp (.mk k ts) s
    let s ← termsAcceptVisitor ts s
    v.postVisitExp (.mk k ts) s

/-- The arguments of a call, one after the other. -/
def argsAcceptVisitor : List Exp → σ → Except Failure σ
  | [], s => .ok s
  | e :: es, s => do
    let s ← e.acceptVisitor s
    argsAcceptVisitor es s

/-- The terms of an expression, one after the other. -/
def termsAcceptVisitor : List Term → σ → Except Failure σ
  | [], s => .ok s
  | t :: ts, s => do
    let s ← t.acceptVisitor s
    termsAcceptVisitor ts s
end

/-- `Conjunction::acceptVisitor` -/
def Conjunction.acceptVisitor (c : Conjunction) (s : σ) : Except Failure σ := do
  let s ← v.preVisitConjunction c s
  let s ← c.equalities.foldlM (fun s e => e.acceptVisitor v s) s
  let s ← c.inequalities.foldlM (fun s e => e.acceptVisitor v s) s
  v.postVisitConjunction c s

/-- `SparseConstraints::acceptVisitor` -/
def acceptVisitor (cs : List Conjunction) (s : σ) : Except Failure σ := cs.foldlM (fun s c => c.acceptVisitor v s) s

theorem termsAcceptVisitor_eq (ts : List Term) (s : σ) :
    termsAcceptVisitor v ts s = ts.foldlM (fun s t => t.acceptVisitor v s) s := by
  induction ts generalizing s with
  | nil => rfl
  | cons t ts ih => simp only [termsAcceptVisitor, List.foldlM_cons, ih]

end Accept

end IEGen
