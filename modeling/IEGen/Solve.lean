import IEGen.Merging
import IEGen.CleanUp

/-!
# Solving for a factor

`solveForFactor` takes an expression to be zero and solves it for a factor: one of its terms, or, when no term will do, a
term of an argument of a call that can be inverted. The remainder of the expression, divided by the coefficient of the
call, is what the call is equal to, and the argument is equal to the inverse of that.

* `findInvertible_eq`: which call is inverted, by the list of the calls that depend on the factor.
* `Exp.divideBy_addTerm`: the division that ends `solveForFactor` never fails.
-/

namespace IEGen

open Outcome (bind_eq_ok)

/-! ## The code -/

mutual
/-- The walk of `Exp::dependsOn` into the expressions of a term. -/
def Term.dependsInside (factor : Term) : Term → Bool
  | .ufCall _ _ args _ => argsDependOn factor args
  | .tupleExp _ es => argsDependOn factor es
  | _ => false
termination_by structural t => t

/-- `Exp::dependsOn` -/
def Exp.dependsOn (factor : Term) : Exp → Bool
  | .mk _ ts => termsDependOn factor ts
termination_by structural e => e

def argsDependOn (factor : Term) : List Exp → Bool
  | [] => false
  | e :: es => e.dependsOn factor || argsDependOn factor es
termination_by structural es => es

def termsDependOn (factor : Term) : List Term → Bool
  | [] => false
  | t :: ts => t.factorMatches factor || Term.dependsInside factor t || termsDependOn factor ts
termination_by structural ts => ts
end

/-- The loop of `findMatchingFactor`; the remainder by a coefficient zero is not defined. -/
def findMatching (factor : Term) (e : Exp) : List Term → Except Failure (Option Term)
  | [] => .ok none
  | t :: ts =>
    if t.factorMatches factor then
      if t.coefficient = 0 then .error .undefined
      else if e.isDivisible t.coefficient then .ok (some t) else findMatching factor e ts
    else findMatching factor e ts

/-- `Exp::findMatchingFactor` -/
def Exp.findMatchingFactor (e : Exp) (factor : Term) : Except Failure (Option Term) :=
  if factor.coefficient ≠ 1 then
    .error (.assertException ("coefficient to factor is " ++ ToString.toString factor.coefficient ++ " it is required to be 1"))
  else findMatching factor e e.terms

/-- The expression of the term alone depends on the factor. -/
def Term.aloneDependsOn (t factor : Term) : Bool := ((Exp.mk .expression []).addTerm t).dependsOn factor

/-- The search of `invertFuncToExposeFactor`: `foundUFC`, and `inverseFuncName`, which every call that depends on the
factor sets. -/
def findInvertible (env : Environment) (factor : Term) : List Term → Option Term → String →
    Except Failure (Option Term × String)
  | [], foundUFC, inverseFuncName => .ok (foundUFC, inverseFuncName)
  | .ufCall c f args i :: ts, foundUFC, inverseFuncName =>
    if (Term.ufCall c f args i).aloneDependsOn factor then
      if env.funcInverse f = "" then findInvertible env factor ts foundUFC (env.funcInverse f)
      else if foundUFC.isSome then
        .error (.assertException "Exp::invertFuncToExposeFactor: Already found a UF call.")
      else findInvertible env factor ts (some (.ufCall c f args i)) (env.funcInverse f)
    else findInvertible env factor ts foundUFC inverseFuncName
  | _ :: ts, foundUFC, inverseFuncName => findInvertible env factor ts foundUFC inverseFuncName

/-- `relevant_arg` and `arg_index`: the last argument that depends on the factor. -/
def relevantArg (factor : Term) (args : List Exp) : Option (Exp × Nat) :=
  (args.zipIdx.filter (fun p => p.1.dependsOn factor)).getLast?

/-- The expression minus the call, divided by the negation of its coefficient. -/
def Exp.remainder (e : Exp) (foundUFC : Term) : Except Failure Exp :=
  (e.addExp ((Exp.mk .expression []).addTerm foundUFC |>.multiplyBy (-1))).divideBy (-foundUFC.coefficient)

/-- The argument at `argIndex` minus the inverse of the remainder, which is indexed unless there is one argument. -/
def exposedExp (inverseFuncName : String) (numArgs : Nat) (expClone relevant : Exp) (argIndex : Nat) : Exp :=
  ((Exp.mk .expression []).addTerm
    (.ufCall (-1) inverseFuncName [expClone] (if numArgs = 1 then none else some argIndex))).addExp relevant

/-- `Exp::invertFuncToExposeFactor` -/
def Exp.invertFuncToExposeFactor (env : Environment) (factor : Term) (e : Exp) : Except Failure (Option Exp) := do
  match ← findInvertible env factor e.terms none "" with
  | (some (.ufCall c f args i), inverseFuncName) => do
    let expClone ← e.remainder (.ufCall c f args i)
    match relevantArg factor args with
    | some (relevant, argIndex) => .ok (some (exposedExp inverseFuncName args.length expClone relevant argIndex))
    | none => .error .undefined
  | _ => .ok none

/-- The factor taken out of the expression with the coefficient of the matching term. -/
def Exp.solution (e : Exp) (factor matching : Term) : Except Failure Exp :=
  (e.addTerm (factor.multiplyBy (-matching.coefficient))).divideBy (-matching.coefficient)

/-- `Exp::solveForFactor` -/
def Exp.solveForFactor (env : Environment) (e : Exp) (factor : Term) : Except Failure (Option Exp) := do
  if factor.coefficient ≠ 1 then
    .error (.assertException ("coefficient to factor is " ++ ToString.toString factor.coefficient ++ " it is required to be 1"))
  else match ← e.findMatchingFactor factor with
    | some t => if e.isDivisible t.coefficient then do .ok (some (← e.solution factor t)) else .ok (some e)
    | none => match ← e.invertFuncToExposeFactor env factor with
      | none => .ok none
      | some exposed => match ← exposed.findMatchingFactor factor with
        -- what has to be divisible is this expression, not the exposed one
        | some t => if e.isDivisible t.coefficient then do .ok (some (← exposed.solution factor t)) else .ok (some exposed)
        | none => .ok (some exposed)

/-! ## Divisibility -/

theorem Exp.isDivisible_iff {e : Exp} {d : Int} : e.isDivisible d = true ↔ ∀ t ∈ e.terms, d ∣ t.coefficient := by
  simp [Exp.isDivisible, Int.dvd_iff_tmod_eq_zero]

theorem Exp.exists_divideBy {e : Exp} {d : Int} (h : ∀ t ∈ e.terms, d ∣ t.coefficient) : ∃ e', e.divideBy d = .ok e' := by
  rw [divideBy, if_pos (isDivisible_iff.2 h)]
  exact ⟨_, rfl⟩

theorem coefficient_of_combineInto {t u u' : Term} {k : Int} (h : t.combineInto k u = some u') :
    u'.coefficient = u.coefficient ∨ u'.coefficient = u.coefficient + t.coefficient * k := by
  have hsimple : combineSimple k t u = some u' → u'.coefficient = u.coefficient + t.coefficient * k := by
    unfold combineSimple
    split_ifs
    · intro h
      rw [← Option.some.inj h, Term.coefficient_setCoefficient]
    · exact fun h => (by cases h)
  cases t with
  | tupleExp c es =>
    cases u with
    | tupleExp c' es' =>
      simp only [Term.combineInto] at h
      split_ifs at h
      rw [← Option.some.inj h]
      exact .inl rfl
    | _ => exact .inr (hsimple h)
  | _ => exact .inr (hsimple h)

/-- What holds of the terms of a list, and of each term that is added or merged, holds after the walk of `addTerm`. -/
theorem forall_insertTerm_of_combine {P : Term → Prop} {combine : Term → Option Term} {term : Term} (ht : P term)
    (hc : ∀ u u', P u → combine u = some u' → u'.coefficient ≠ 0 → P u') :
    ∀ {ts : List Term}, (∀ u ∈ ts, P u) → ∀ u ∈ insertTerm combine term ts, P u
  | [], _ => by simpa [insertTerm] using ht
  | u :: us, hts => by
    obtain ⟨hu, hus⟩ := List.forall_mem_cons.1 hts
    simp only [insertTerm]
    cases hu' : combine u with
    | some u' =>
      dsimp only
      split_ifs with h0
      · exact hus
      · exact List.forall_mem_cons.2 ⟨hc u u' hu hu' h0, hus⟩
    | none =>
      dsimp only
      split_ifs
      · exact List.forall_mem_cons.2 ⟨ht, hts⟩
      · exact List.forall_mem_cons.2 ⟨hu, forall_insertTerm_of_combine ht hc hus⟩

theorem forall_termsAddInto {P : Term → Prop} {k : Int} : ∀ {ts acc : List Term},
    (∀ t ∈ ts, t.coefficient * k ≠ 0 → P (t.multiplyBy k) ∧
      ∀ u u', P u → t.combineInto k u = some u' → u'.coefficient ≠ 0 → P u') →
    (∀ u ∈ acc, P u) → ∀ u ∈ termsAddInto k ts acc, P u
  | [], _, _, hacc => hacc
  | t :: ts, acc, h, hacc => by
    obtain ⟨ht, hts⟩ := List.forall_mem_cons.1 h
    rw [termsAddInto]
    apply forall_termsAddInto hts
    split_ifs with h0
    · exact hacc
    · exact forall_insertTerm_of_combine (ht h0).1 (ht h0).2 hacc

/-- Adding terms whose coefficients a number divides to terms whose coefficients it divides. -/
theorem dvd_termsAddInto {d k : Int} {ts acc : List Term} (hts : ∀ t ∈ ts, d ∣ t.coefficient * k)
    (hacc : ∀ u ∈ acc, d ∣ u.coefficient) : ∀ u ∈ termsAddInto k ts acc, d ∣ u.coefficient := by
  refine forall_termsAddInto (fun t ht _ => ⟨?_, fun u u' hu hc _ => ?_⟩) hacc
  · rw [Term.multiplyBy, Term.coefficient_setCoefficient]
    exact hts t ht
  · rcases coefficient_of_combineInto hc with h | h
    · rw [h]
      exact hu
    · rw [h]
      exact Int.dvd_add hu (hts t ht)

/-- What is added up has no coefficient zero. -/
theorem nonzero_termsAddInto {k : Int} {ts acc : List Term} (hacc : ∀ u ∈ acc, u.coefficient ≠ 0) :
    ∀ u ∈ termsAddInto k ts acc, u.coefficient ≠ 0 := by
  refine forall_termsAddInto (fun t _ h0 => ⟨?_, fun _ _ _ _ h => h⟩) hacc
  rw [Term.multiplyBy, Term.coefficient_setCoefficient]
  exact h0

/-- A term that depends on the factor has a coefficient. -/
theorem coefficient_ne_zero_of_dependsOn {t factor : Term} (h : t.aloneDependsOn factor = true) : t.coefficient ≠ 0 := by
  intro h0
  rw [Term.aloneDependsOn, Exp.addTerm, Exp.terms_mk, termsAddInto, termsAddInto, mul_one, if_pos h0] at h
  cases h

/-- The division that ends `solveForFactor` does not fail. -/
theorem Exp.exists_solution {e : Exp} {factor t : Term} (hf : factor.coefficient = 1)
    (h : e.isDivisible t.coefficient = true) : ∃ r, e.solution factor t = .ok r := by
  rw [isDivisible_iff] at h
  refine exists_divideBy fun u hu => ?_
  rw [Int.neg_dvd]
  refine dvd_termsAddInto (fun s hs => ?_) h u hu
  obtain rfl := List.mem_singleton.1 hs
  rw [Term.multiplyBy, Term.coefficient_setCoefficient, hf]
  exact ⟨-1, by ring⟩

/-! ## What the searches find -/

theorem findMatching_eq {factor : Term} {e : Exp} : ∀ {ts : List Term},
    (∀ t ∈ ts, t.factorMatches factor = true → t.coefficient ≠ 0) → findMatching factor e ts =
      .ok (ts.find? (fun t => t.factorMatches factor && e.isDivisible t.coefficient))
  | [], _ => rfl
  | t :: ts, h => by
    obtain ⟨ht, hts⟩ := List.forall_mem_cons.1 h
    rw [findMatching, List.find?_cons]
    cases hm : t.factorMatches factor with
    | false => simp only [Bool.false_eq_true, if_false, Bool.false_and, findMatching_eq hts]
    | true =>
      rw [if_pos rfl, if_neg (ht hm), Bool.true_and]
      cases e.isDivisible t.coefficient with
      | true => rfl
      | false => simp only [Bool.false_eq_true, if_false, findMatching_eq hts]

theorem findMatching_eq_some {factor t : Term} {e : Exp} : ∀ {ts : List Term},
    findMatching factor e ts = .ok (some t) →
      t ∈ ts ∧ t.factorMatches factor = true ∧ t.coefficient ≠ 0 ∧ e.isDivisible t.coefficient = true
  | [], h => by cases h
  | u :: us, h => by
    have hrest : findMatching factor e us = .ok (some t) →
        t ∈ u :: us ∧ t.factorMatches factor = true ∧ t.coefficient ≠ 0 ∧ e.isDivisible t.coefficient = true :=
      fun h => (findMatching_eq_some h).imp_left (List.mem_cons_of_mem _)
    rw [findMatching] at h
    split_ifs at h with hm h0 hd
    · cases h
      exact ⟨List.mem_cons_self, hm, h0, hd⟩
    · exact hrest h
    · exact hrest h

/-- The calls that depend on the factor. -/
def Exp.dependentCalls (e : Exp) (factor : Term) : List Term :=
  e.terms.filter (fun t => t.isUFCall && t.aloneDependsOn factor)

/-- The call can be inverted in the environment. -/
def Term.isInvertible (env : Environment) : Term → Bool
  | .ufCall _ f _ _ => env.funcInverse f != ""
  | _ => false

section FindInvertible

variable {env : Environment} {factor : Term}

/-- The search, in terms of the calls that depend on the factor. -/
theorem findInvertible_filter : ∀ (ts : List Term) (found : Option Term) (name : String),
    findInvertible env factor (ts.filter (fun t => t.isUFCall && t.aloneDependsOn factor)) found name =
      findInvertible env factor ts found name
  | [], _, _ => rfl
  | t :: ts, found, name => by
    cases t with
    | ufCall c f args i =>
      rw [List.filter_cons]
      cases hd : (Term.ufCall c f args i).aloneDependsOn factor with
      | false =>
        rw [Bool.and_false, if_neg Bool.false_ne_true, findInvertible_filter ts]
        conv_rhs => rw [findInvertible, if_neg (by rw [hd]; exact Bool.false_ne_true)]
      | true =>
        rw [Bool.and_true, if_pos (by rfl)]
        simp only [findInvertible, findInvertible_filter ts]
    | _ => exact findInvertible_filter ts found name

/-- Calls that cannot be inverted are passed over. -/
theorem findInvertible_of_not : ∀ {ts : List Term} (found : Option Term) (name : String),
    (∀ t ∈ ts, t.isInvertible env = false) → ∃ name', ∀ us,
      findInvertible env factor (ts ++ us) found name = findInvertible env factor us found name'
  | [], _, name, _ => ⟨name, fun _ => rfl⟩
  | t :: ts, found, name, h => by
    obtain ⟨ht, hts⟩ := List.forall_mem_cons.1 h
    cases t with
    | ufCall c f args i =>
      have hf : env.funcInverse f = "" := by simpa [Term.isInvertible] using ht
      by_cases hd : (Term.ufCall c f args i).aloneDependsOn factor = true
      · obtain ⟨name', h'⟩ := findInvertible_of_not found (env.funcInverse f) hts
        refine ⟨name', fun us => ?_⟩
        rw [List.cons_append, findInvertible, if_pos hd, if_pos hf, h']
      · obtain ⟨name', h'⟩ := findInvertible_of_not found name hts
        refine ⟨name', fun us => ?_⟩
        rw [List.cons_append, findInvertible, if_neg hd, h']
    | _ =>
      obtain ⟨name', h'⟩ := findInvertible_of_not found name hts
      exact ⟨name', fun us => h' us⟩

/-- No call that depends on the factor can be inverted. -/
theorem findInvertible_eq_none {e : Exp} (h : ∀ t ∈ e.dependentCalls factor, t.isInvertible env = false) :
    ∃ name, findInvertible env factor e.terms none "" = .ok (none, name) := by
  obtain ⟨name, h'⟩ := findInvertible_of_not none "" h
  refine ⟨name, ?_⟩
  rw [← findInvertible_filter]
  have hnil := h' []
  rw [List.append_nil] at hnil
  exact hnil

/-- Exactly one of the calls that depend on the factor can be inverted, and it is the last of them. -/
theorem findInvertible_eq_some {e : Exp} {pre : List Term} {c : Int} {f : String} {args : List Exp} {i : Option Nat}
    (h : e.dependentCalls factor = pre ++ [.ufCall c f args i]) (hpre : ∀ t ∈ pre, t.isInvertible env = false)
    (hf : env.funcInverse f ≠ "") :
    findInvertible env factor e.terms none "" = .ok (some (.ufCall c f args i), env.funcInverse f) := by
  have hmem : Term.ufCall c f args i ∈ e.dependentCalls factor := by
    rw [h]
    exact List.mem_append_right _ List.mem_cons_self
  have hd := (List.mem_filter.1 hmem).2
  rw [Term.isUFCall, Bool.true_and] at hd
  obtain ⟨name, h'⟩ := findInvertible_of_not none "" hpre
  rw [← findInvertible_filter]
  show findInvertible env factor (e.dependentCalls factor) none "" = _
  rw [h, h', findInvertible, if_pos hd, if_neg hf, Option.isSome_none, if_neg Bool.false_ne_true, findInvertible]

end FindInvertible

end IEGen
