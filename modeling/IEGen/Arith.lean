import IEGen.Order

/-!
# Adding and scaling expressions

`addTerm` walks the sorted list of terms: it merges the new term with the first one that has its factor (and drops the
result when the coefficients cancel), or inserts it before the first term that comes after it. `addExp`, `multiplyBy`
and `divideBy` go through the terms in order.

Two tuples of expressions of one size merge element by element, which adds expressions inside terms. The recursion is
on the term that is added, so what is added is `k` times a term, where the source has multiplied it out before.
-/

namespace IEGen

/-- `Term::multiplyBy` -/
def Term.multiplyBy (constant : Int) (t : Term) : Term := t.setCoefficient (t.coefficient * constant)

/-- `Exp::multiplyBy` -/
def Exp.multiplyBy (constant : Int) (e : Exp) : Exp := .mk e.expType (e.terms.map (Term.multiplyBy constant))

/-- The walk of `Exp::addTerm`; `combine t` is `t` with the new term merged into it, if the two can be merged. -/
def insertTerm (combine : Term → Option Term) (term : Term) : List Term → List Term
  | [] => [term]
  | t :: ts =>
    match combine t with
    | some t' => if t'.coefficient = 0 then ts else t' :: ts
    | none => if term.lt t then term :: t :: ts else t :: insertTerm combine term ts

/-- `Term::combine`: `k` times `other` merged into `t`, if the factors match. -/
def combineSimple (k : Int) (other t : Term) : Option Term :=
  if t.factorMatches other then some (t.setCoefficient (t.coefficient + other.coefficient * k)) else none

mutual
/-- `combine` and its override: `k` times the first term merged into the second, if their factors match. -/
def Term.combineInto (k : Int) : Term → Term → Option Term
  | .tupleExp c es, .tupleExp c' es' =>
    -- the own coefficient goes into the elements and stays on the tuple as well
    if es'.length = es.length then some (.tupleExp c' (combineElems c' (c * k) es es')) else none
  | other, t => combineSimple k other t
termination_by structural other => other

/-- The elements of the second list, each times `c'`, plus `k` times the elements of the first. -/
def combineElems (c' k : Int) : List Exp → List Exp → List Exp
  | e :: es, e' :: es' => .mk e'.expType (e.addInto k (e'.multiplyBy c').terms) :: combineElems c' k es es'
  | _, es' => es'
termination_by structural es => es

/-- `k` times the expression, added term by term to a list of terms. -/
def Exp.addInto (k : Int) : Exp → List Term → List Term
  | .mk _ ts, acc => termsAddInto k ts acc
termination_by structural e => e

/-- `k` times each of the terms, added to the second list one after the other. -/
def termsAddInto (k : Int) : List Term → List Term → List Term
  | [], acc => acc
  | t :: ts, acc =>
    termsAddInto k ts
      (if t.coefficient * k = 0 then acc else insertTerm (t.combineInto k) (t.multiplyBy k) acc)
termination_by structural ts => ts
end

namespace Exp

/-- `Exp::addTerm` -/
def addTerm (e : Exp) (term : Term) : Exp := .mk e.expType (termsAddInto 1 [term] e.terms)

/-- `Exp::addExp` -/
def addExp (e e' : Exp) : Exp := .mk e.expType (termsAddInto 1 e'.terms e.terms)

/-- `Exp::isDivisible` -/
def isDivisible (e : Exp) (divisor : Int) : Bool := e.terms.all (fun t => t.coefficient.tmod divisor == 0)

/-- `Exp::divideBy`, which fails at the first coefficient that `divisor` does not divide. -/
def divideBy (e : Exp) (divisor : Int) : Except Failure Exp :=
  if e.isDivisible divisor then
    .ok (.mk e.expType (e.terms.map (fun t => t.setCoefficient (t.coefficient.tdiv divisor))))
  else .error (.assertException "Term::divideBy: mCoeff is not divisible by divisor")

/-- `Exp::equalsZero` -/
def equalsZero (e : Exp) : Bool :=
  match e.terms with
  | [] => true
  | [t] => t.coefficient == 0
  | _ => false

/-- `Exp::normalizeForEquality`: the first coefficient becomes positive, a last term with coefficient zero goes. -/
def normalizeForEquality (e : Exp) : Exp :=
  match e.terms with
  | [] => e
  | first :: _ =>
    let e' := if first.coefficient < 0 then e.multiplyBy (-1) else e
    match e'.terms.getLast? with
    | some last => if last.coefficient = 0 then .mk e'.expType e'.terms.dropLast else e'
    | none => e'

/-- `Exp::isContradiction`: an equality that is a constant other than zero. -/
def isContradiction (e : Exp) : Bool :=
  match e.terms with
  | [t] => t.isConst && t.coefficient != 0 && e.expType == .equality
  | _ => false

/-- `Exp::getTerm`: the only term. -/
def getTerm (e : Exp) : Option Term :=
  match e.terms with
  | [t] => some t
  | _ => none

@[simp] theorem expType_multiplyBy (k : Int) (e : Exp) : (e.multiplyBy k).expType = e.expType := rfl
@[simp] theorem terms_multiplyBy (k : Int) (e : Exp) : (e.multiplyBy k).terms = e.terms.map (Term.multiplyBy k) := rfl
@[simp] theorem expType_addTerm (e : Exp) (t : Term) : (e.addTerm t).expType = e.expType := rfl
@[simp] theorem expType_addExp (e e' : Exp) : (e.addExp e').expType = e.expType := rfl

/-- Normalizing multiplies by `1` or `-1` and drops terms with coefficient zero. -/
theorem normalizeForEquality_spec (e : Exp) : ∃ s : Int, (s = 1 ∨ s = -1) ∧ ∃ z,
    (e.multiplyBy s).terms = e.normalizeForEquality.terms ++ z ∧ ∀ t ∈ z, t.coefficient = 0 := by
  have one : e.multiplyBy 1 = e := by
    have h : Term.multiplyBy 1 = id := by funext t; simp [Term.multiplyBy]
    cases e with
    | mk k ts => simp [Exp.multiplyBy, h]
  have drop : ∀ e' : Exp, ∃ z, e'.terms = (match e'.terms.getLast? with
      | some last => if last.coefficient = 0 then Exp.mk e'.expType e'.terms.dropLast else e'
      | none => e').terms ++ z ∧ ∀ t ∈ z, t.coefficient = 0 := by
    intro e'
    cases hl : e'.terms.getLast? with
    | none => exact ⟨[], by simp, by simp⟩
    | some last =>
      dsimp only
      split_ifs with h0
      · exact ⟨[last], by rw [terms_mk, List.dropLast_append_getLast? last hl], by simpa using h0⟩
      · exact ⟨[], by simp, by simp⟩
  simp only [normalizeForEquality]
  split
  · next hn => exact ⟨1, .inl rfl, [], by rw [one, List.append_nil], by simp⟩
  · split_ifs with hneg
    · exact ⟨-1, .inr rfl, drop _⟩
    · exact ⟨1, .inl rfl, by rw [one]; exact drop e⟩

end Exp

-- the elements merge, and the coefficient `-1` of the first tuple is both in the elements and on the tuple
example : ((Exp.ofTerm (.tupleExp (-1) [.ofTerm (.symConst 1 "a"), .ofTerm (.symConst 1 "b")])).addTerm
    (.tupleExp 1 [.ofTerm (.symConst 1 "c"), .ofTerm (.symConst 1 "b")])) =
    .ofTerm (.tupleExp (-1) [.mk .expression [.symConst (-1) "a", .symConst 1 "c"], .mk .expression []]) := rfl

end IEGen
