import IEGen.Solved
import IEGen.Remap
import IEGen.Restrict

/-!
# Tuple variables that are functions of others

`findFunction` solves the equalities of a conjunction for a tuple variable and takes the first solution whose tuple
variables are in a given range. Such a solution mentions no others, and the conjunction gives the variable its value,
where the equality that was solved is solved right (`FindsRight`). `isFunction` and `isFunctionInverse` ask this of all
output and of all input variables.
-/

namespace IEGen

open Outcome (bind_eq_ok)

/-! ## The code -/

namespace Conjunction

/-- The solution depends on a tuple variable outside of the range. -/
def dependsOutside (arity : Nat) (startTupleRange endTupleRange : Int) (solution : Exp) : Bool :=
  (List.range arity).any (fun (j : Nat) => decide (¬ (startTupleRange ≤ (j : Int) ∧ (j : Int) ≤ endTupleRange)) &&
    solution.dependsOn (.tupleVar 1 j))

/-- The search of `findFunction` among the equalities. -/
def findSolution (env : Environment) (arity tupleLocToFind : Nat) (startTupleRange endTupleRange : Int) :
    List Exp → Except Failure (Option Exp)
  | [] => .ok none
  | e :: es => do
    match ← e.solveForFactor env (.tupleVar 1 tupleLocToFind) with
    | none => findSolution env arity tupleLocToFind startTupleRange endTupleRange es
    | some solution =>
      if dependsOutside arity startTupleRange endTupleRange solution then
        findSolution env arity tupleLocToFind startTupleRange endTupleRange es
      else .ok (some solution)

/-- `findFunction` -/
def findFunction (env : Environment) (c : Conjunction) (tupleLocToFind : Nat) (startTupleRange endTupleRange : Int) :
    Except Failure (Option Exp) :=
  if c.tupleDecl.elemIsConst tupleLocToFind then
    .ok (some ((Exp.mk .expression []).addTerm (.constVal (c.tupleDecl.elemConstVal tupleLocToFind))))
  else findSolution env c.arity tupleLocToFind startTupleRange endTupleRange c.equalities

/-- The loop of `isFunction` and `isFunctionInverse`. -/
def allFunctions (env : Environment) (c : Conjunction) (startTupleRange endTupleRange : Int) :
    List Nat → Except Failure Bool
  | [] => .ok true
  | i :: is => do
    match ← c.findFunction env i startTupleRange endTupleRange with
    | none => .ok false
    | some _ => allFunctions env c startTupleRange endTupleRange is

/-- `isFunction` -/
def isFunction (env : Environment) (c : Conjunction) (inArity : Nat) : Except Failure Bool :=
  c.allFunctions env 0 (inArity - 1) (List.range' inArity (c.arity - inArity))

/-- `isFunctionInverse` -/
def isFunctionInverse (env : Environment) (c : Conjunction) (inArity : Nat) : Except Failure Bool :=
  c.allFunctions env inArity (c.arity - 1) (List.range inArity)

end Conjunction

/-! ## The tuple variables of a solution -/

theorem Exp.varsIn_iff {p : Nat → Prop} {e : Exp} : e.VarsIn p ↔ ∀ t ∈ e.terms, t.VarsIn p := by
  cases e
  exact termsVarsIn_iff

section Vars

variable {p q : Nat → Prop}

theorem Exp.varsIn_empty (k : ExpType) : (Exp.mk k []).VarsIn p := trivial

theorem varsIn_combineSimple {t u u' : Term} {k : Int} (hu : u.VarsIn p) (h : combineSimple k t u = some u') :
    u'.VarsIn p := by
  unfold combineSimple at h
  split_ifs at h
  rw [← Option.some.inj h]
  exact Term.varsIn_setCoefficient hu

theorem Exp.varsIn_multiplyBy {e : Exp} (c : Int) (h : e.VarsIn p) : (e.multiplyBy c).VarsIn p := by
  rw [varsIn_iff, terms_multiplyBy]
  intro t ht
  obtain ⟨u, hu, rfl⟩ := List.mem_map.1 ht
  exact Term.varsIn_setCoefficient (varsIn_iff.1 h u hu)

mutual
/-- Merging mentions no new tuple variables. -/
theorem Term.varsIn_combineInto : ∀ {t u u' : Term} {k : Int}, t.VarsIn p → u.VarsIn p → t.combineInto k u = some u' →
    u'.VarsIn p
  | .tupleExp c es, .tupleExp c' es', u', k, ht, hu, h => by
    simp only [Term.combineInto] at h
    split_ifs at h
    rw [← Option.some.inj h]
    exact argsVarsIn_combineElems ht hu
  | .tupleExp .., .tupleVar .., _, _, _, hu, h | .tupleExp .., .symConst .., _, _, _, hu, h
  | .tupleExp .., .ufCall .., _, _, _, hu, h | .tupleExp .., .constVal _, _, _, _, hu, h
  | .tupleVar .., _, _, _, _, hu, h | .symConst .., _, _, _, _, hu, h | .constVal _, _, _, _, _, hu, h
  | .ufCall .., _, _, _, _, hu, h => varsIn_combineSimple hu h

theorem argsVarsIn_combineElems : ∀ {es es' : List Exp} {c' k : Int}, argsVarsIn p es → argsVarsIn p es' →
    argsVarsIn p (combineElems c' k es es')
  | [], es', _, _, _, h => by cases es' <;> exact h
  | _ :: _, [], _, _, _, _ => trivial
  | e :: es, e' :: es', c', k, h, h' =>
    ⟨Exp.varsIn_addInto h.1 (termsVarsIn_iff.2 (Exp.varsIn_iff.1 (Exp.varsIn_multiplyBy c' h'.1))),
      argsVarsIn_combineElems h.2 h'.2⟩

theorem Exp.varsIn_addInto : ∀ {e : Exp} {acc : List Term} {k : Int}, e.VarsIn p → termsVarsIn p acc →
    termsVarsIn p (e.addInto k acc)
  | .mk _ _, _, _, h, ha => termsVarsIn_termsAddInto h ha

theorem termsVarsIn_termsAddInto : ∀ {ts acc : List Term} {k : Int}, termsVarsIn p ts → termsVarsIn p acc →
    termsVarsIn p (termsAddInto k ts acc)
  | [], _, _, _, ha => ha
  | t :: ts, acc, k, h, ha => by
    rw [termsAddInto]
    apply termsVarsIn_termsAddInto h.2
    split_ifs
    · exact ha
    · exact termsVarsIn_iff.2 (forall_insertTerm_of_combine (Term.varsIn_setCoefficient h.1)
        (fun u u' hu hc _ => Term.varsIn_combineInto h.1 hu hc) (termsVarsIn_iff.1 ha))
end

theorem Exp.varsIn_addExp {e e' : Exp} (h : e.VarsIn p) (h' : e'.VarsIn p) : (e.addExp e').VarsIn p :=
  termsVarsIn_termsAddInto (termsVarsIn_iff.2 (varsIn_iff.1 h')) (termsVarsIn_iff.2 (varsIn_iff.1 h))

theorem Exp.varsIn_addTerm {e : Exp} {t : Term} (h : e.VarsIn p) (ht : t.VarsIn p) : (e.addTerm t).VarsIn p :=
  termsVarsIn_termsAddInto ⟨ht, trivial⟩ (termsVarsIn_iff.2 (varsIn_iff.1 h))

theorem Exp.varsIn_divideBy {e e' : Exp} {d : Int} (h : e.VarsIn p) (hd : e.divideBy d = .ok e') : e'.VarsIn p := by
  unfold divideBy at hd
  split_ifs at hd
  rw [← Except.ok.inj hd, varsIn_iff]
  intro t ht
  obtain ⟨u, hu, rfl⟩ := List.mem_map.1 ht
  exact Term.varsIn_setCoefficient (varsIn_iff.1 h u hu)

theorem Exp.varsIn_solution {e x : Exp} {factor t : Term} (h : e.VarsIn p) (hf : factor.VarsIn p)
    (hx : e.solution factor t = .ok x) : x.VarsIn p :=
  varsIn_divideBy (varsIn_addTerm h (Term.varsIn_setCoefficient hf)) hx

/-- The search gives one of the calls. -/
theorem mem_of_findInvertible {env : Environment} {factor u : Term} {g : String} : ∀ {ts : List Term} {found : Option Term}
    {name : String}, findInvertible env factor ts found name = .ok (some u, g) → u ∈ ts ∨ found = some u
  | [], found, name, h => by
    cases h
    exact .inr rfl
  | t :: ts, found, name, h => by
    have hrest : ∀ {found' : Option Term} {name' : String}, findInvertible env factor ts found' name' = .ok (some u, g) →
        u ∈ t :: ts ∨ found' = some u := fun h => (mem_of_findInvertible h).imp_left (List.mem_cons_of_mem _)
    cases t with
    | ufCall c f args i =>
      rw [findInvertible] at h
      split_ifs at h
      · exact hrest h
      · rcases hrest h with hu | hu
        · exact .inl hu
        · exact .inl (Option.some.inj hu ▸ List.mem_cons_self)
      · exact hrest h
    | _ => exact hrest h

theorem Exp.varsIn_invertFuncToExposeFactor {env : Environment} {factor : Term} {e x : Exp} (h : e.VarsIn p)
    (hx : e.invertFuncToExposeFactor env factor = .ok (some x)) : x.VarsIn p := by
  rw [invertFuncToExposeFactor, bind_eq_ok] at hx
  obtain ⟨⟨found, g⟩, hfind, hx⟩ := hx
  split at hx
  · next c f args i _ heq =>
    cases heq
    have hcall : (Term.ufCall c f args i).VarsIn p := by
      rcases mem_of_findInvertible hfind with hmem | hno
      · exact varsIn_iff.1 h _ hmem
      · cases hno
    rw [bind_eq_ok] at hx
    obtain ⟨v, hv, hx⟩ := hx
    split at hx
    · next a k ha =>
      rw [← Option.some.inj (Except.ok.inj hx)]
      have hv' : v.VarsIn p := varsIn_divideBy
        (varsIn_addExp h (varsIn_multiplyBy _ (varsIn_addTerm (varsIn_empty .expression) hcall))) hv
      have ha' : a.VarsIn p := by
        have hargs : ∀ b ∈ args, b.VarsIn p := by
          clear * - hcall
          induction args with
          | nil => simp
          | cons b args ih => exact List.forall_mem_cons.2 ⟨hcall.1, ih hcall.2⟩
        exact hargs a (List.mem_of_getElem? (relevantArg_spec ha).1)
      exact varsIn_addExp (varsIn_addTerm (varsIn_empty .expression) ⟨hv', trivial⟩) ha'
    · cases hx
  · cases hx

/-- A solution mentions the tuple variables of the expression and of the factor only. -/
theorem Exp.varsIn_solveForFactor {env : Environment} {factor : Term} {e x : Exp} (h : e.VarsIn p)
    (hf : factor.VarsIn p) (hx : e.solveForFactor env factor = .ok (some x)) : x.VarsIn p := by
  have hsolve : ∀ {d : Exp} {t : Term}, d.VarsIn p →
      (do .ok (some (← d.solution factor t)) : Except Failure (Option Exp)) = .ok (some x) → x.VarsIn p := by
    intro d t hd hs
    rw [bind_eq_ok] at hs
    obtain ⟨y, hy, hs⟩ := hs
    cases hs
    exact varsIn_solution hd hf hy
  rw [solveForFactor] at hx
  split_ifs at hx
  rw [bind_eq_ok] at hx
  obtain ⟨m, -, hx⟩ := hx
  cases m with
  | some t =>
    dsimp only at hx
    split_ifs at hx
    · exact hsolve h hx
    · cases hx
      exact h
  | none =>
    dsimp only at hx
    rw [bind_eq_ok] at hx
    obtain ⟨exposed, hi, hx⟩ := hx
    cases exposed with
    | none => cases hx
    | some d =>
      have hd := varsIn_invertFuncToExposeFactor h hi
      dsimp only at hx
      rw [bind_eq_ok] at hx
      obtain ⟨m', -, hx⟩ := hx
      cases m' with
      | some t =>
        dsimp only at hx
        split_ifs at hx
        · exact hsolve hd hx
        · cases hx
          exact hd
      | none =>
        cases hx
        exact hd

mutual
theorem Term.varsIn_of_dependsOn : ∀ {t : Term}, t.VarsIn p →
    (∀ j, p j → ¬ q j → t.factorMatches (.tupleVar 1 j) = false ∧ Term.dependsInside (.tupleVar 1 j) t = false) →
    t.VarsIn q
  | .tupleVar c l, ht, h => by
    by_contra hq
    have hno := (h l ht hq).1
    simp [Term.factorMatches] at hno
  | .symConst .., _, _ | .constVal _, _, _ => trivial
  | .ufCall .., ht, h => argsVarsIn_of_dependsOn ht fun j hp hq => (h j hp hq).2
  | .tupleExp .., ht, h => argsVarsIn_of_dependsOn ht fun j hp hq => (h j hp hq).2

/-- The walk of `dependsOn` misses no tuple variable. -/
theorem Exp.varsIn_of_dependsOn : ∀ {e : Exp}, e.VarsIn p →
    (∀ j, p j → ¬ q j → e.dependsOn (.tupleVar 1 j) = false) → e.VarsIn q
  | .mk _ _, he, h => termsVarsIn_of_dependsOn he h

theorem argsVarsIn_of_dependsOn : ∀ {es : List Exp}, argsVarsIn p es →
    (∀ j, p j → ¬ q j → argsDependOn (.tupleVar 1 j) es = false) → argsVarsIn q es
  | [], _, _ => trivial
  | e :: es, hes, h => by
    have hor : ∀ j, p j → ¬ q j → e.dependsOn (.tupleVar 1 j) = false ∧ argsDependOn (.tupleVar 1 j) es = false :=
      fun j hp hq => by simpa [argsDependOn] using h j hp hq
    exact ⟨Exp.varsIn_of_dependsOn hes.1 fun j hp hq => (hor j hp hq).1,
      argsVarsIn_of_dependsOn hes.2 fun j hp hq => (hor j hp hq).2⟩

theorem termsVarsIn_of_dependsOn : ∀ {ts : List Term}, termsVarsIn p ts →
    (∀ j, p j → ¬ q j → termsDependOn (.tupleVar 1 j) ts = false) → termsVarsIn q ts
  | [], _, _ => trivial
  | t :: ts, hts, h => by
    have hor : ∀ j, p j → ¬ q j → (t.factorMatches (.tupleVar 1 j) = false ∧
        Term.dependsInside (.tupleVar 1 j) t = false) ∧ termsDependOn (.tupleVar 1 j) ts = false :=
      fun j hp hq => by simpa [termsDependOn, and_assoc] using h j hp hq
    exact ⟨Term.varsIn_of_dependsOn hts.1 fun j hp hq => (hor j hp hq).1,
      termsVarsIn_of_dependsOn hts.2 fun j hp hq => (hor j hp hq).2⟩
end

end Vars

/-! ## Functions -/

namespace Conjunction

variable {env : Environment} {dom cod : String → Nat} {c : Conjunction}

/-- The equality at which the search for the tuple variable stops, if there is one, is solved right, and the solution
mentions only tuple variables of the declaration. -/
def FindsRight (env : Environment) (dom cod : String → Nat) (c : Conjunction) (tv : Nat) (s t : Int) : Prop :=
  c.tupleDecl.elemIsConst tv = false → ∀ before e after x, c.equalities = before ++ e :: after →
    (∀ d ∈ before, ∃ r, d.solveForFactor env (.tupleVar 1 tv) = .ok r ∧
      ∀ y ∈ r, dependsOutside c.arity s t y = true) →
    e.solveForFactor env (.tupleVar 1 tv) = .ok (some x) → dependsOutside c.arity s t x = false →
    x.VarsIn (· < c.arity) ∧ e.SolvesRight env dom cod (.tupleVar 1 tv)

theorem dependsOutside_eq_false {arity : Nat} {s t : Int} {x : Exp} : dependsOutside arity s t x = false ↔
    ∀ j < arity, ¬ (s ≤ (j : Int) ∧ (j : Int) ≤ t) → x.dependsOn (.tupleVar 1 j) = false := by
  simp only [dependsOutside, List.any_eq_false, List.mem_range, Bool.and_eq_true, decide_eq_true_eq]
  refine forall₂_congr fun j _ => ?_
  rw [not_and, Bool.not_eq_true]

/-- The search stops at the first equality with a solution that depends on nothing outside of the range. -/
theorem findSolution_spec {arity tv : Nat} {s t : Int} {x : Exp} : ∀ {es : List Exp},
    findSolution env arity tv s t es = .ok (some x) → ∃ before e after, es = before ++ e :: after ∧
      (∀ d ∈ before, ∃ r, d.solveForFactor env (.tupleVar 1 tv) = .ok r ∧ ∀ y ∈ r, dependsOutside arity s t y = true) ∧
      e.solveForFactor env (.tupleVar 1 tv) = .ok (some x) ∧ dependsOutside arity s t x = false
  | [], h => by cases h
  | e :: es, h => by
    rw [findSolution, bind_eq_ok] at h
    obtain ⟨r, hr, h⟩ := h
    have hrest : findSolution env arity tv s t es = .ok (some x) → (∀ y ∈ r, dependsOutside arity s t y = true) →
        ∃ before d after, e :: es = before ++ d :: after ∧ (∀ d ∈ before, ∃ r, d.solveForFactor env (.tupleVar 1 tv) = .ok r ∧
          ∀ y ∈ r, dependsOutside arity s t y = true) ∧
          d.solveForFactor env (.tupleVar 1 tv) = .ok (some x) ∧ dependsOutside arity s t x = false := by
      intro h hpassed
      obtain ⟨before, d, after, rfl, hbefore, hd⟩ := findSolution_spec h
      exact ⟨e :: before, d, after, rfl, List.forall_mem_cons.2 ⟨⟨r, hr, hpassed⟩, hbefore⟩, hd⟩
    cases r with
    | none => exact hrest h (by simp)
    | some y =>
      dsimp only at h
      split_ifs at h with hd
      · exact hrest h (by simpa using hd)
      · cases h
        exact ⟨[], e, es, rfl, by simp, hr, by simpa using hd⟩

/-- What `findFunction` gives: only tuple variables of the range, and the value of the tuple variable. -/
def FindsFunction (env : Environment) (dom cod : String → Nat) (c : Conjunction) (tv : Nat) (s t : Int) : Prop :=
  ∀ x, c.findFunction env tv s t = .ok (some x) → x.VarsIn (fun l => s ≤ (l : Int) ∧ (l : Int) ≤ t) ∧
    ∀ I : Interp, I.dom = dom → I.cod = cod → I.Consistent env → ∀ tuple ∈ c.denote I,
      x.val I (valuation tuple) = scalar (valuation tuple tv)

theorem findFunction_spec {tv : Nat} (htv : tv < c.arity) {s t : Int}
    (hr : c.FindsRight env dom cod tv s t) : c.FindsFunction env dom cod tv s t := by
  intro x h
  rw [findFunction] at h
  split_ifs at h with hconst
  · cases h
    refine ⟨Exp.varsIn_addTerm (Exp.varsIn_empty .expression) trivial, fun I _ _ _ tuple ht => ?_⟩
    rw [ht.1.2 tv htv hconst]
    funext k
    rw [Exp.val_addTerm_of_merged (by simp [termsMerged, mergeTarget])]
    exact zero_add _
  · obtain ⟨before, e, after, heqs, hbefore, hx, hout⟩ := findSolution_spec h
    obtain ⟨hvars, hsolves⟩ := hr (Bool.eq_false_iff.2 hconst) before e after x heqs hbefore hx hout
    rw [dependsOutside_eq_false] at hout
    refine ⟨Exp.varsIn_of_dependsOn hvars hout, fun I hdom hcod hI tuple ht => ?_⟩
    have he : e ∈ c.equalities := heqs ▸ List.mem_append_right before List.mem_cons_self
    obtain ⟨r, hr', hsound⟩ := Exp.solveForFactor_of_solvesRight rfl hsolves
    rw [hx] at hr'
    cases hr'
    have hval := (hsound x rfl I hdom hcod hI (valuation tuple)).1 (ht.2.1 e he)
    rw [← hval, Term.val, one_mul]

theorem allFunctions_spec {s t : Int} : ∀ {is : List Nat}, c.allFunctions env s t is = .ok true →
    ∀ i ∈ is, ∃ x, c.findFunction env i s t = .ok (some x)
  | [], _, i, hi => by cases hi
  | i :: is, h, j, hj => by
    rw [allFunctions, bind_eq_ok] at h
    obtain ⟨r, hr, h⟩ := h
    cases r with
    | none => cases h
    | some x =>
      rcases List.mem_cons.1 hj with rfl | hj
      · exact ⟨x, hr⟩
      · exact allFunctions_spec h j hj

/-- Tuples that agree on the range agree on each tuple variable that is a function of the range. -/
theorem valuation_eq_of_found {tv : Nat} {s t : Int} (hf : c.FindsFunction env dom cod tv s t)
    (h : ∃ x, c.findFunction env tv s t = .ok (some x)) {I : Interp} (hdom : I.dom = dom) (hcod : I.cod = cod)
    (hI : I.Consistent env) {u v : List Int} (hu : u ∈ c.denote I) (hv : v ∈ c.denote I)
    (huv : ∀ l : Nat, s ≤ (l : Int) → (l : Int) ≤ t → valuation u l = valuation v l) :
    valuation u tv = valuation v tv := by
  obtain ⟨x, hx⟩ := h
  obtain ⟨hvars, hval⟩ := hf x hx
  have hu' := congrFun (hval I hdom hcod hI u hu) 0
  have hv' := congrFun (hval I hdom hcod hI v hv) 0
  rw [Exp.val_congr (fun l hl => huv l hl.1 hl.2) hvars, hv'] at hu'
  exact hu'.symm

theorem eq_of_valuation {u v : List Int} (hlen : u.length = v.length)
    (h : ∀ l < u.length, valuation u l = valuation v l) : u = v := by
  refine List.ext_getElem hlen fun l hu hv => ?_
  have hl := h l hu
  rw [valuation, valuation, List.getD_eq_getElem _ _ hu, List.getD_eq_getElem _ _ hv] at hl
  exact hl

/-- Where `isFunction` is true each input has at most one output. -/
def TellsFunction (env : Environment) (dom cod : String → Nat) (c : Conjunction) (n : Nat) : Prop :=
  c.isFunction env n = .ok true → ∀ I : Interp, I.dom = dom → I.cod = cod → I.Consistent env →
    ∀ u ∈ c.denote I, ∀ v ∈ c.denote I, u.take n = v.take n → u = v

/-- Where `isFunctionInverse` is true each output has at most one input. -/
def TellsFunctionInverse (env : Environment) (dom cod : String → Nat) (c : Conjunction) (n : Nat) : Prop :=
  c.isFunctionInverse env n = .ok true → ∀ I : Interp, I.dom = dom → I.cod = cod → I.Consistent env →
    ∀ u ∈ c.denote I, ∀ v ∈ c.denote I, u.drop n = v.drop n → u = v

theorem isFunction_tells {n : Nat} (h : ∀ tv, n ≤ tv → tv < c.arity → c.FindsRight env dom cod tv 0 (n - 1)) :
    c.TellsFunction env dom cod n := by
  intro hf I hdom hcod hI u hu v hv huv
  refine eq_of_valuation (hu.1.1.trans hv.1.1.symm) fun l hl => ?_
  have hlow : ∀ l < n, valuation u l = valuation v l := by
    intro l hl
    rw [← valuation_take hl, huv, valuation_take hl]
  rcases Nat.lt_or_ge l n with hln | hln
  · exact hlow l hln
  · have hla : l < c.arity := by rw [hu.1.1] at hl; exact hl
    refine valuation_eq_of_found (findFunction_spec hla (h l hln hla)) (allFunctions_spec hf l ?_) hdom hcod
      hI hu hv fun j _ hj => hlow j (by omega)
    rw [List.mem_range'_1]
    omega

theorem isFunctionInverse_tells {n : Nat} (hn : n ≤ c.arity)
    (h : ∀ tv < n, c.FindsRight env dom cod tv n (c.arity - 1)) : c.TellsFunctionInverse env dom cod n := by
  intro hf I hdom hcod hI u hu v hv huv
  refine eq_of_valuation (hu.1.1.trans hv.1.1.symm) fun l hl => ?_
  have hhigh : ∀ l, n ≤ l → valuation u l = valuation v l := by
    intro l hl
    have hd := congrArg (fun w => valuation w (l - n)) huv
    simpa [valuation, List.getD_eq_getElem?_getD, List.getElem?_drop, Nat.add_sub_cancel' hl] using hd
  rcases Nat.lt_or_ge l n with hln | hln
  · exact valuation_eq_of_found (findFunction_spec (by omega) (h l hln))
      (allFunctions_spec hf l (List.mem_range.2 hln)) hdom hcod hI hu hv fun j hj _ => hhigh j (by omega)
  · exact hhigh l hln

/-- `findFunction` finds functions, and a conjunction of which `isFunction` or `isFunctionInverse` is true relates every
input to at most one output, every output to at most one input. -/
theorem findFunction_finds (env : Environment) (dom cod : String → Nat) (c : Conjunction) :
    (∀ tv < c.arity, ∀ s t : Int, c.FindsRight env dom cod tv s t → c.FindsFunction env dom cod tv s t) ∧
    (∀ n, (∀ tv, n ≤ tv → tv < c.arity → c.FindsRight env dom cod tv 0 (n - 1)) → c.TellsFunction env dom cod n) ∧
    ∀ n ≤ c.arity, (∀ tv < n, c.FindsRight env dom cod tv n (c.arity - 1)) → c.TellsFunctionInverse env dom cod n :=
  ⟨fun _ htv _ _ hr => findFunction_spec htv hr, fun _ h => isFunction_tells h,
    fun _ hn h => isFunctionInverse_tells hn h⟩

/-- `{ [i] -> [j] : f(j, k)[1] = i }`: the index of the call is ignored, and `j` is taken for `f_inv(i)[0]`. -/
theorem isFunction_wrong : ∃ c : Conjunction, c.isFunction invertibleF 1 = .ok true ∧ ∃ I : Interp,
    I.Consistent invertibleF ∧ ∃ u ∈ c.denote I, ∃ v ∈ c.denote I, u.take 1 = v.take 1 ∧ u ≠ v := by
  have hvar : ∀ i < 2, (TupleDecl.mk [⟨false, 0, "i"⟩, ⟨false, 0, "j"⟩]).elemIsConst i = false := by decide
  refine ⟨⟨[.mk .equality [.tupleVar 1 0, .ufCall (-1) "f" [.ofTerm (.tupleVar 1 1), .ofTerm (.symConst 1 "k")] (some 1)]],
    [], ⟨[⟨false, 0, "i"⟩, ⟨false, 0, "j"⟩]⟩, 1⟩, rfl, ⟨fun _ => 0, fun _ as => as, fun _ => 2, fun _ => 2⟩, ?_,
    [0, 0], ⟨⟨rfl, fun i hi h => ?_⟩, fun e he => ?_, by simp⟩,
    [0, 1], ⟨⟨rfl, fun i hi h => ?_⟩, fun e he => ?_, by simp⟩, rfl, by decide⟩
  · exact fun f _ => ⟨⟨rfl, rfl, fun _ h => h, fun _ _ => rfl⟩, ⟨rfl, rfl, fun _ h => h, fun _ _ => rfl⟩⟩
  · rw [hvar i hi] at h
    cases h
  · obtain rfl := List.mem_singleton.1 he
    intro k
    cases k <;> rfl
  · rw [hvar i hi] at h
    cases h
  · obtain rfl := List.mem_singleton.1 he
    intro k
    cases k <;> rfl

/-- `{ [i] -> [j] : i = f(j) }` -/
def ofCall : Conjunction where
  equalities := [.mk .equality [.tupleVar 1 0, .ufCall (-1) "f" [.ofTerm (.tupleVar 1 1)] none]]
  inequalities := []
  tupleDecl := ⟨[⟨false, 0, "i"⟩, ⟨false, 0, "j"⟩]⟩
  inArity := 1

theorem ofCall_findsRight {tv : Nat} (htv : tv < 2) (s t : Int) :
    ofCall.FindsRight invertibleF (fun _ => 1) (fun _ => 1) tv s t := by
  intro _ before e after x heqs _ hx _
  have he : e ∈ ofCall.equalities := heqs ▸ List.mem_append_right before List.mem_cons_self
  obtain rfl := List.mem_singleton.1 he
  have hvars : (Exp.mk .equality [.tupleVar 1 0, .ufCall (-1) "f" [.ofTerm (.tupleVar 1 1)] none]).VarsIn (· < 2) :=
    ⟨Nat.two_pos, ⟨⟨Nat.one_lt_two, trivial⟩, trivial⟩, trivial⟩
  refine ⟨Exp.varsIn_solveForFactor hvars (show (Term.tupleVar 1 tv).VarsIn (· < 2) from htv) hx,
    by simp [Term.coefficient], ?_⟩
  have htv : tv = 0 ∨ tv = 1 := by omega
  rcases htv with rfl | rfl
  · intro p hp
    have hpair : p ∈ [(Term.tupleVar (-1) 0, Term.tupleVar 1 0)] := hp
    obtain rfl := List.mem_singleton.1 hpair
    trivial
  · refine .inr ⟨[], -1, "f", [.ofTerm (.tupleVar 1 1)], none, rfl, by simp, by decide, rfl, .mk .equality [.tupleVar 1 0],
      .ofTerm (.tupleVar 1 1), 0, rfl, rfl, ⟨.inl rfl, fun p hp => ?_, .inl ⟨rfl, fun t ht => ?_⟩, fun p hp => ?_⟩,
      .tupleVar 1 1, rfl, rfl, fun p hp => ?_⟩
    · have hpair : p ∈ [(Term.ufCall 1 "f" [.ofTerm (.tupleVar 1 1)] none,
          Term.ufCall (-1) "f" [.ofTerm (.tupleVar 1 1)] none)] := hp
      obtain rfl := List.mem_singleton.1 hpair
      exact ⟨rfl, rfl, .inl rfl⟩
    · obtain rfl := List.mem_singleton.1 ht
      exact le_rfl
    · have hnil : p ∈ ([] : List (Term × Term)) := hp
      cases hnil
    · have hpair : p ∈ [(Term.tupleVar (-1) 1, Term.tupleVar 1 1)] := hp
      obtain rfl := List.mem_singleton.1 hpair
      trivial
/-- The inverse gives `j`. -/
theorem findFunction_finds_inverse : ofCall.isFunction invertibleF 1 = .ok true ∧
    ofCall.isFunctionInverse invertibleF 1 = .ok true ∧ ofCall.FindsFunction invertibleF (fun _ => 1) (fun _ => 1) 1 0 0 ∧
    ofCall.TellsFunction invertibleF (fun _ => 1) (fun _ => 1) 1 ∧
    ofCall.TellsFunctionInverse invertibleF (fun _ => 1) (fun _ => 1) 1 := by
  obtain ⟨hfound, hfunction, hinverse⟩ := findFunction_finds invertibleF (fun _ => 1) (fun _ => 1) ofCall
  exact ⟨rfl, rfl, hfound 1 Nat.one_lt_two 0 0 (ofCall_findsRight Nat.one_lt_two 0 0),
    hfunction 1 fun tv _ htv => ofCall_findsRight htv _ _,
    hinverse 1 Nat.one_lt_two.le fun tv htv => ofCall_findsRight (by omega) _ _⟩

end Conjunction

end IEGen
