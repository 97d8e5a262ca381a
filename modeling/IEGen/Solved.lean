import IEGen.Solve
import IEGen.Inverses

/-!
# What solving gives

When `solveForFactor` takes the factor from the top level, the solution is equal to the factor exactly where the
expression is zero. When it inverts a call, the argument of the call is equal to the inverse of the remainder where the
expression is zero, in every interpretation that agrees with the recorded inverses (`holdsEq_exposedExp`). Both need that
the terms that are merged on the way are merged right; the call has to be used as a whole and with the number of
arguments of its function, and what is left has to have the factor at its top level (`SolvesRight`).
-/

namespace IEGen

open Outcome (bind_eq_ok)

/-! ## The conditions -/

/-- The term of the expression that `findMatchingFactor` looks for. -/
def Exp.matchingTerm (e : Exp) (factor : Term) : Option Term :=
  e.terms.find? (fun t => t.factorMatches factor && e.isDivisible t.coefficient)

/-- The factor is merged right when it is taken out with the coefficient of the matching term. -/
def Exp.TakesRight (cod : String → Nat) (e : Exp) (factor matching : Term) : Prop :=
  ∀ p ∈ termsMerged 1 [factor.multiplyBy (-matching.coefficient)] e.terms, MergesRight cod p

/-- The call `c f(args)[i]` is inverted right: it stands for all its components, it has as many arguments as its
function, and its terms, those of the argument `relevant` and those of the inverse of `expClone` are merged right. -/
structure Exp.InvertsRight (dom cod : String → Nat) (e : Exp) (c : Int) (f : String) (args : List Exp) (i : Option Nat)
    (inverseFuncName : String) (expClone relevant : Exp) (argIndex : Nat) : Prop where
  whole : i = none ∨ (i = some 0 ∧ cod f = 1)
  taken : ∀ p ∈ termsMerged 1 [(Term.ufCall c f args i).multiplyBy (-1)] e.terms, MergesRight cod p
  fits : (args.length = 1 ∧ relevant.Within cod (dom f)) ∨
    (args.length ≠ 1 ∧ args.length = dom f ∧ relevant.Within cod 1)
  added : ∀ p ∈ termsMerged 1 relevant.terms
    [.ufCall (-1) inverseFuncName [expClone] (if args.length = 1 then none else some argIndex)], MergesRight cod p

/-- The one call that depends on the factor and can be inverted exposes it, with a coefficient that divides the
expression; and no other call that depends on it comes after. -/
def Exp.CallSolvesRight (env : Environment) (dom cod : String → Nat) (e : Exp) (factor : Term) : Prop :=
  ∃ pre c f args i, e.dependentCalls factor = pre ++ [.ufCall c f args i] ∧ (∀ t ∈ pre, t.isInvertible env = false) ∧
    env.funcInverse f ≠ "" ∧ e.isDivisible c = true ∧
    ∃ v a k, e.remainder (.ufCall c f args i) = .ok v ∧ relevantArg factor args = some (a, k) ∧
      e.InvertsRight dom cod c f args i (env.funcInverse f) v a k ∧
      ∃ t, (exposedExp (env.funcInverse f) args.length v a k).matchingTerm factor = some t ∧
        e.isDivisible t.coefficient = true ∧
        (exposedExp (env.funcInverse f) args.length v a k).TakesRight cod factor t

/-- The factor is taken from the top level, or from a call that can be inverted, or no call can be inverted. -/
def Exp.SolvesRight (env : Environment) (dom cod : String → Nat) (e : Exp) (factor : Term) : Prop :=
  (∀ t ∈ e.terms, t.factorMatches factor = true → t.coefficient ≠ 0) ∧
  match e.matchingTerm factor with
  | some t => e.TakesRight cod factor t
  | none => (∀ t ∈ e.dependentCalls factor, t.isInvertible env = false) ∨ e.CallSolvesRight env dom cod factor

/-- The factor stands at the top level or in a call of one argument that can be inverted. -/
def Exp.ExposedAlone (env : Environment) (e : Exp) (factor : Term) : Prop :=
  (e.matchingTerm factor).isSome = true ∨
    ∃ c f a i, .ufCall c f [a] i ∈ e.dependentCalls factor ∧ env.funcInverse f ≠ ""

/-- The terms of the expression have no more components than a call of one argument that can be inverted. -/
def Exp.FitsCall (env : Environment) (cod : String → Nat) (e : Exp) (factor : Term) : Prop :=
  ∀ c f a i, .ufCall c f [a] i ∈ e.dependentCalls factor → env.funcInverse f ≠ "" → e.Within cod (cod f)

/-- `solveForFactor` returns, and what it returns is the factor where the expression is zero, and the other way around
when the factor was exposed alone. -/
def Exp.IsSolved (env : Environment) (dom cod : String → Nat) (e : Exp) (factor : Term) : Prop :=
  ∃ r, e.solveForFactor env factor = .ok r ∧ ∀ x, r = some x →
    ∀ I : Interp, I.dom = dom → I.cod = cod → I.Consistent env → ∀ τ,
      (e.HoldsEq I τ → factor.val I τ = x.val I τ) ∧
      (e.ExposedAlone env factor → factor.val I τ = x.val I τ → e.HoldsEq I τ)

/-! ## Values -/

section Val

variable {I : Interp} {τ : Nat → Int} {dom cod : String → Nat} {env : Environment} {e : Exp} {factor : Term}

/-- The solution is the factor where the expression is zero, and only there. -/
theorem Exp.holdsEq_iff_of_solution {t : Term} {x : Exp} (h : e.solution factor t = .ok x)
    (hr : e.TakesRight I.cod factor t) (h0 : t.coefficient ≠ 0) : e.HoldsEq I τ ↔ factor.val I τ = x.val I τ := by
  have hval : ∀ k, x.val I τ k * (-t.coefficient) = e.val I τ k + factor.val I τ k * (-t.coefficient) := by
    intro k
    rw [val_divideBy h, val_addTerm_of_merged hr, Term.val_multiplyBy]
  constructor
  · intro he
    funext k
    have hk := hval k
    rw [he k, zero_add] at hk
    exact (mul_right_cancel₀ (neg_ne_zero.2 h0) hk).symm
  · intro hx k
    have hk := hval k
    rw [← hx] at hk
    omega

/-- The remainder, with its coefficient, and the call make up the expression. -/
theorem Exp.val_of_remainder {u : Term} {v : Exp} (h : e.remainder u = .ok v) (h0 : u.coefficient ≠ 0)
    (hr : ∀ p ∈ termsMerged 1 [u.multiplyBy (-1)] e.terms, MergesRight I.cod p) (k : Nat) :
    e.val I τ k = u.val I τ k - u.coefficient * v.val I τ k := by
  have hterms : ((Exp.mk .expression []).addTerm u |>.multiplyBy (-1)).terms = [u.multiplyBy (-1)] := by
    rw [terms_multiplyBy, terms_addTerm_empty h0, List.map_singleton]
  have hv := val_divideBy (I := I) (τ := τ) h k
  rw [val_addExp_of_merged (by rw [hterms]; exact hr), Exp.val_eq (multiplyBy _ _), hterms, termsVal_cons, termsVal_nil,
    Term.val_multiplyBy, mul_neg, mul_comm] at hv
  omega

theorem relevantArg_spec {args : List Exp} {a : Exp} {k : Nat} (h : relevantArg factor args = some (a, k)) :
    args[k]? = some a ∧ a.dependsOn factor = true := by
  have hmem := List.mem_filter.1 (List.mem_of_getLast? h)
  exact ⟨List.mem_zipIdx_iff_getElem?.1 hmem.1, hmem.2⟩

theorem relevantArg_singleton {b a : Exp} {k : Nat} (h : relevantArg factor [b] = some (a, k)) : b = a ∧ k = 0 := by
  have hget := (relevantArg_spec h).1
  cases k with
  | zero => exact ⟨Option.some.inj hget, rfl⟩
  | succ k => cases hget

/-- The value of the exposed expression: the argument minus the inverse. -/
theorem val_exposedExp {g : String} {n k : Nat} {v a : Exp}
    (h : ∀ p ∈ termsMerged 1 a.terms [.ufCall (-1) g [v] (if n = 1 then none else some k)], MergesRight I.cod p) (j : Nat) :
    (exposedExp g n v a k).val I τ j = a.val I τ j -
      (if n = 1 then I.callVal g [v.val I τ] j else scalar (I.indexVal g [v.val I τ] k) j) := by
  have hterms : ((Exp.mk .expression []).addTerm (.ufCall (-1) g [v] (if n = 1 then none else some k))).terms =
      [.ufCall (-1) g [v] (if n = 1 then none else some k)] := terms_addTerm_empty (by simp [Term.coefficient])
  rw [exposedExp, Exp.val_addExp_of_merged (by rw [hterms]; exact h), Exp.val_eq, hterms, termsVal_cons, termsVal_nil]
  split_ifs
  · simp only [Term.val, argsVal]
    ring
  · cases j <;> simp only [Term.val, argsVal, scalar] <;> ring

/-- Where the expression is zero the exposed expression is zero; with one argument also the other way around. -/
theorem Exp.holdsEq_exposedExp {c : Int} {f : String} {args : List Exp} {i : Option Nat} {v a : Exp} {k : Nat}
    (hI : I.Consistent env) (hf : env.funcInverse f ≠ "") (hc : c ≠ 0) (hv : e.remainder (.ufCall c f args i) = .ok v)
    (ha : relevantArg factor args = some (a, k))
    (h : e.InvertsRight I.dom I.cod c f args i (env.funcInverse f) v a k) :
    (e.HoldsEq I τ → (exposedExp (env.funcInverse f) args.length v a k).HoldsEq I τ) ∧
      (args.length = 1 → e.Within I.cod (I.cod f) →
        (exposedExp (env.funcInverse f) args.length v a k).HoldsEq I τ → e.HoldsEq I τ) := by
  have hget := (relevantArg_spec ha).1
  have hrem : ∀ j, e.val I τ j = c * (I.callVal f (argsVal I τ args) j - v.val I τ j) := by
    intro j
    rw [val_of_remainder hv hc h.taken, Term.val_ufCall_of_whole h.whole, mul_sub]
    rfl
  obtain ⟨hfg, hgf⟩ := hI f hf
  have hX := fun j => val_exposedExp (τ := τ) h.added j
  constructor
  · intro he
    have hcall : I.callVal f (argsVal I τ args) = v.val I τ := by
      funext j
      have hj := hrem j
      rw [he j] at hj
      rcases mul_eq_zero.1 hj.symm with h0 | h0
      · exact absurd h0 hc
      · omega
    intro j
    rw [hX, ← hcall]
    rcases h.fits with ⟨hone, hw⟩ | ⟨hne, hlen, hw⟩
    · obtain ⟨b, rfl⟩ := List.length_eq_one_iff.1 hone
      obtain ⟨rfl, rfl⟩ := relevantArg_singleton ha
      rw [if_pos hone, argsVal, argsVal, hfg.callVal_callVal (fun _ => val_of_within hw), sub_self]
    · rw [if_neg hne, hfg.indexVal_callVal (by rw [length_argsVal]; exact hne) (by rw [length_argsVal]; exact hlen)]
      have hk : (argsVal I τ args).getD k (scalar 0) = a.val I τ := by
        rw [argsVal_eq_map, List.getD_eq_getElem?_getD, List.getElem?_map, hget]
        rfl
      rw [hk]
      cases j with
      | zero => rw [scalar_zero, sub_self]
      | succ j => rw [scalar_succ, sub_zero, val_of_within hw (by omega)]
  · intro hone hw hzero j
    obtain ⟨b, rfl⟩ := List.length_eq_one_iff.1 hone
    obtain ⟨rfl, rfl⟩ := relevantArg_singleton ha
    -- the argument is the inverse of the remainder, so the call is the remainder
    have hb : b.val I τ = I.callVal (env.funcInverse f) [v.val I τ] := by
      funext j
      have hj := hX j
      rw [hzero j, if_pos hone] at hj
      omega
    have hlast : ∀ j, I.cod f ≤ j → v.val I τ j = 0 := by
      intro j hj
      have hej := hrem j
      rw [val_of_within hw hj, Interp.callVal, if_neg (Nat.not_lt.2 hj), zero_sub] at hej
      rcases mul_eq_zero.1 hej.symm with h0 | h0
      · exact absurd h0 hc
      · omega
    rw [hrem, argsVal, argsVal, hb, hgf.callVal_callVal (by rw [hfg.dom]; exact hlast), sub_self, mul_zero]

end Val

/-! ## The solver -/

section Solver

variable {env : Environment} {e : Exp} {factor : Term}

theorem Exp.findMatchingFactor_eq (hf : factor.coefficient = 1)
    (h : ∀ t ∈ e.terms, t.factorMatches factor = true → t.coefficient ≠ 0) :
    e.findMatchingFactor factor = .ok (e.matchingTerm factor) := by
  rw [findMatchingFactor, if_neg (not_not.2 hf), findMatching_eq h, matchingTerm]

theorem Exp.matchingTerm_spec {t : Term} (h : e.matchingTerm factor = some t) :
    t ∈ e.terms ∧ t.factorMatches factor = true ∧ e.isDivisible t.coefficient = true := by
  have hp := List.find?_some h
  simp only [Bool.and_eq_true] at hp
  exact ⟨List.mem_of_find?_eq_some h, hp⟩

/-- The exposed expression has no coefficient zero. -/
theorem nonzero_exposedExp (g : String) (n : Nat) (v a : Exp) (k : Nat) :
    ∀ t ∈ (exposedExp g n v a k).terms, t.coefficient ≠ 0 := by
  refine nonzero_termsAddInto fun t ht => ?_
  rw [terms_addTerm_empty (by simp [Term.coefficient])] at ht
  obtain rfl := List.mem_singleton.1 ht
  simp [Term.coefficient]

/-- The factor is taken from the top level. -/
theorem Exp.solveForFactor_of_matching {t : Term} {x : Exp} (hf : factor.coefficient = 1)
    (hm : e.findMatchingFactor factor = .ok (some t)) (hd : e.isDivisible t.coefficient = true)
    (hx : e.solution factor t = .ok x) : e.solveForFactor env factor = .ok (some x) := by
  simp only [solveForFactor, hf, ne_eq, not_true_eq_false, if_false, hm, bind, Except.bind, hd, if_true, hx]

/-- No call is inverted. -/
theorem Exp.solveForFactor_of_none (hf : factor.coefficient = 1) (hm : e.findMatchingFactor factor = .ok none)
    (hi : e.invertFuncToExposeFactor env factor = .ok none) : e.solveForFactor env factor = .ok none := by
  simp only [solveForFactor, hf, ne_eq, not_true_eq_false, if_false, hm, bind, Except.bind, hi]

/-- The factor is taken from the exposed expression. -/
theorem Exp.solveForFactor_of_exposed {exposed x : Exp} {t : Term} (hf : factor.coefficient = 1)
    (hm : e.findMatchingFactor factor = .ok none) (hi : e.invertFuncToExposeFactor env factor = .ok (some exposed))
    (ht : exposed.findMatchingFactor factor = .ok (some t)) (hd : e.isDivisible t.coefficient = true)
    (hx : exposed.solution factor t = .ok x) : e.solveForFactor env factor = .ok (some x) := by
  simp only [solveForFactor, hf, ne_eq, not_true_eq_false, if_false, hm, bind, Except.bind, hi, ht, hd, if_true, hx]

theorem Exp.invertFuncToExposeFactor_of_some {c : Int} {f g : String} {args : List Exp} {i : Option Nat} {v a : Exp}
    {k : Nat} (hfind : findInvertible env factor e.terms none "" = .ok (some (.ufCall c f args i), g))
    (hv : e.remainder (.ufCall c f args i) = .ok v) (ha : relevantArg factor args = some (a, k)) :
    e.invertFuncToExposeFactor env factor = .ok (some (exposedExp g args.length v a k)) := by
  simp only [invertFuncToExposeFactor, hfind, bind, Except.bind, hv, ha]

/-- The solver returns, and a solution is equal to the factor where the expression is zero. -/
theorem Exp.solveForFactor_of_solvesRight {dom cod : String → Nat} (hf : factor.coefficient = 1)
    (h : e.SolvesRight env dom cod factor) : ∃ r, e.solveForFactor env factor = .ok r ∧ ∀ x, r = some x →
      ∀ I : Interp, I.dom = dom → I.cod = cod → I.Consistent env → ∀ τ,
        (e.HoldsEq I τ → factor.val I τ = x.val I τ) ∧
        (e.ExposedAlone env factor → e.matchingTerm factor = none → e.FitsCall env cod factor → factor.val I τ = x.val I τ →
          e.HoldsEq I τ) ∧
        (∀ t, e.matchingTerm factor = some t → factor.val I τ = x.val I τ → e.HoldsEq I τ) := by
  obtain ⟨hnz, h⟩ := h
  have hm := findMatchingFactor_eq hf hnz
  cases hmt : e.matchingTerm factor with
  | some t =>
    rw [hmt] at h hm
    obtain ⟨htm, hmatch, hd⟩ := matchingTerm_spec hmt
    obtain ⟨x, hx⟩ := exists_solution hf hd
    refine ⟨some x, solveForFactor_of_matching hf hm hd hx, fun x' hx' I hdom hcod _ τ => ?_⟩
    cases hx'
    subst hcod
    have hiff := holdsEq_iff_of_solution (τ := τ) hx h (hnz t htm hmatch)
    exact ⟨hiff.1, fun _ hno => (by cases hno), fun _ _ => hiff.2⟩
  | none =>
    rw [hmt] at h hm
    rcases h with hnone | ⟨pre, c, f, args, i, hcalls, hpre, hfi, hd, v, a, k, hv, ha, hr, t, ht, hdt, htr⟩
    · obtain ⟨name, hfind⟩ := findInvertible_eq_none hnone
      refine ⟨none, solveForFactor_of_none hf hm ?_, fun x hx => (by cases hx)⟩
      simp only [invertFuncToExposeFactor, hfind, bind, Except.bind]
    · have hfind := findInvertible_eq_some hcalls hpre hfi
      have hX := invertFuncToExposeFactor_of_some hfind hv ha
      have hXnz := nonzero_exposedExp (env.funcInverse f) args.length v a k
      have hXm := findMatchingFactor_eq hf (fun u hu _ => hXnz u hu)
      rw [ht] at hXm
      obtain ⟨htm, -, hdX⟩ := matchingTerm_spec ht
      obtain ⟨x, hx⟩ := exists_solution hf hdX
      refine ⟨some x, solveForFactor_of_exposed hf hm hX hXm hdt hx, fun x' hx' I hdom hcod hI τ => ?_⟩
      cases hx'
      subst hdom hcod
      have hmem : Term.ufCall c f args i ∈ e.dependentCalls factor := by
        rw [hcalls]
        exact List.mem_append_right _ List.mem_cons_self
      have hc : c ≠ 0 := coefficient_ne_zero_of_dependsOn (Bool.and_eq_true_iff.1 (List.mem_filter.1 hmem).2).2
      have hiff := holdsEq_iff_of_solution (τ := τ) hx htr (hXnz t htm)
      have hexp := holdsEq_exposedExp (τ := τ) hI hfi hc hv ha hr
      refine ⟨fun he => hiff.1 (hexp.1 he), fun hex _ hfit hfx => ?_, fun t hno => (by cases hno)⟩
      rcases hex with hs | ⟨c', f', a', i', hmem', hf'⟩
      · rw [hmt] at hs
        cases hs
      · have hlast := hmem'
        rw [hcalls, List.mem_append, List.mem_singleton] at hlast
        rcases hlast with hlast | hlast
        · have hno := hpre _ hlast
          simp [Term.isInvertible, hf'] at hno
        · cases hlast
          exact hexp.2 rfl (hfit _ _ _ _ hmem' hf') (hiff.2 hfx)

/-- Solving for a factor with coefficient one: it returns, and a solution is equal to the factor where the expression is
zero, in every interpretation that agrees with the recorded inverses; and the other way around. -/
theorem Exp.solveForFactor_solves (env : Environment) (dom cod : String → Nat) (e : Exp) (factor : Term)
    (hf : factor.coefficient = 1) (h : e.SolvesRight env dom cod factor)
    (hfit : e.matchingTerm factor = none → e.FitsCall env cod factor) : e.IsSolved env dom cod factor := by
  obtain ⟨r, hr, hx⟩ := solveForFactor_of_solvesRight hf h
  refine ⟨r, hr, fun x hrx I hdom hcod hI τ => ?_⟩
  obtain ⟨h₁, h₂, h₃⟩ := hx x hrx I hdom hcod hI τ
  refine ⟨h₁, fun hex => ?_⟩
  cases hm : e.matchingTerm factor with
  | some t => exact h₃ t hm
  | none => exact h₂ hex hm (hfit hm)

end Solver

/-- `2 * f( __tv0 ) + 3`: the division by the coefficient of the call throws. -/
theorem Exp.solveForFactor_throws : ¬ (Exp.mk .equality [.ufCall 2 "f" [.ofTerm (.tupleVar 1 0)] none, .constVal 3]).IsSolved
    invertibleF (fun _ => 1) (fun _ => 1) (.tupleVar 1 0) := by
  rintro ⟨r, hr, -⟩
  cases hr

/-- `__tv0 + x + f( y )` solved for `y`, the example in the comment of the source. -/
theorem Exp.solveForFactor_solves_inverse : (Exp.mk .expression [.tupleVar 1 0, .symConst 1 "x",
    .ufCall 1 "f" [.ofTerm (.symConst 1 "y")] none]).IsSolved invertibleF (fun _ => 1) (fun _ => 1) (.symConst 1 "y") := by
  refine Exp.solveForFactor_solves _ _ _ _ _ rfl ⟨by simp [Term.coefficient], .inr ⟨[], 1, "f",
    [.ofTerm (.symConst 1 "y")], none, rfl, by simp, by decide, rfl,
    .mk .expression [.tupleVar (-1) 0, .symConst (-1) "x"], .ofTerm (.symConst 1 "y"), 0, rfl, rfl, ?_,
    .symConst 1 "y", rfl, rfl, ?_⟩⟩ fun _ _ _ _ _ _ _ t ht => ?_
  · refine ⟨.inl rfl, fun p hp => ?_, .inl ⟨rfl, fun t ht => ?_⟩, fun p hp => ?_⟩
    · have hpair : p ∈ [(Term.ufCall (-1) "f" [.ofTerm (.symConst 1 "y")] none,
          Term.ufCall 1 "f" [.ofTerm (.symConst 1 "y")] none)] := hp
      obtain rfl := List.mem_singleton.1 hpair
      exact ⟨rfl, rfl, .inl rfl⟩
    · obtain rfl := List.mem_singleton.1 ht
      exact le_rfl
    · have hnil : p ∈ ([] : List (Term × Term)) := hp
      cases hnil
  · intro p hp
    have hpair : p ∈ [(Term.symConst (-1) "y", Term.symConst 1 "y")] := hp
    obtain rfl := List.mem_singleton.1 hpair
    trivial
  · simp only [Exp.terms_mk, List.mem_cons, List.not_mem_nil, or_false] at ht
    rcases ht with rfl | rfl | rfl <;> exact le_rfl

end IEGen
