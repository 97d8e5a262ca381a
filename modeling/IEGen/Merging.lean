import IEGen.Objects

/-!
# What adding expressions merges

`addTerm` merges the new term with a term of the expression whose factor matches. `termsMerged` is the list of the pairs
of terms that are merged when terms are added, those inside the elements of tuples included. A sequence of additions,
multiplications and divisions has the value of the sums, products and quotients where each of these pairs is right
(`MergesRight`): two calls have arguments that can be read back from their texts and are indexed alike, and a tuple that
others are merged into has the coefficient one. The code multiplies the elements of such a tuple by its coefficient and
leaves the coefficient on the tuple as well.
-/

namespace IEGen

open Outcome (bind_eq_ok)

/-! ## The pairs that are merged -/

/-- The term into which the walk of `addTerm` merges the new one. -/
def mergeTarget (combine : Term → Option Term) (term : Term) : List Term → Option Term
  | [] => none
  | t :: ts => if (combine t).isSome then some t else if term.lt t then none else mergeTarget combine term ts

mutual
/-- The pairs merged when `k` times the first term is merged into the second. -/
def Term.merged (k : Int) : Term → Term → List (Term × Term)
  | .tupleExp c es, .tupleExp c' es' => (.tupleExp c es, .tupleExp c' es') :: elemsMerged c' (c * k) es es'
  | t, u => [(t, u)]
termination_by structural t => t

def elemsMerged (c' k : Int) : List Exp → List Exp → List (Term × Term)
  | e :: es, e' :: es' => e.merged k (e'.multiplyBy c').terms ++ elemsMerged c' k es es'
  | _, _ => []
termination_by structural es => es

def Exp.merged (k : Int) : Exp → List Term → List (Term × Term)
  | .mk _ ts, acc => termsMerged k ts acc
termination_by structural e => e

/-- The pairs merged when `k` times the terms are added to the second list one after the other. -/
def termsMerged (k : Int) : List Term → List Term → List (Term × Term)
  | [], _ => []
  | t :: ts, acc =>
    if t.coefficient * k = 0 then termsMerged k ts acc
    else (match mergeTarget (t.combineInto k) (t.multiplyBy k) acc with
      | some u => t.merged k u
      | none => []) ++ termsMerged k ts (insertTerm (t.combineInto k) (t.multiplyBy k) acc)
termination_by structural ts => ts
end

/-- Merging the pair gives the sum, when a call of `f` gives `cod f` components. -/
def MergesRight (cod : String → Nat) : Term × Term → Prop
  | (.ufCall _ f as i, .ufCall _ _ as' i') => argsLegible as = true ∧ argsLegible as' = true ∧ (i = i' ∨ cod f = 1)
  | (.tupleExp _ _, .tupleExp c' _) => c' = 1
  | _ => True

/-! ## The value of sums -/

section Val

variable {I : Interp} {τ : Nat → Int}

/-- The walk of `addTerm` adds the value of the new term, when the merge that it makes does. -/
theorem termsVal_insertTerm_of_target {combine : Term → Option Term} {term : Term} {k : Nat} : ∀ {ts : List Term},
    (∀ t, mergeTarget combine term ts = some t → ∀ t', combine t = some t' →
      t'.val I τ k = t.val I τ k + term.val I τ k) →
    termsVal I τ (insertTerm combine term ts) k = termsVal I τ ts k + term.val I τ k
  | [], _ => by simp [insertTerm]
  | t :: ts, h => by
    simp only [insertTerm]
    cases hc : combine t with
    | some t' =>
      have hv := h t (by simp [mergeTarget, hc]) t' hc
      dsimp only
      split_ifs with h0
      · rw [Term.val_of_coefficient_zero h0] at hv
        rw [termsVal_cons]
        omega
      · rw [termsVal_cons, termsVal_cons, hv]
        omega
    | none =>
      dsimp only
      split_ifs with hlt
      · simp only [termsVal_cons]
        omega
      · have hrest : ∀ u, mergeTarget combine term ts = some u → ∀ u', combine u = some u' →
            u'.val I τ k = u.val I τ k + term.val I τ k := fun u hu => h u (by simp [mergeTarget, hc, hlt, hu])
        rw [termsVal_cons, termsVal_cons, termsVal_insertTerm_of_target hrest]
        omega

/-- A function with one component: the index does not matter. -/
theorem val_ufCall_of_cod {f : String} (h : I.cod f = 1) (as : List Exp) (i : Option Nat) (k : Nat) :
    (Term.ufCall 1 f as i).val I τ k = scalar (I.indexVal f (argsVal I τ as) (i.getD 0)) k := by
  cases i with
  | none => cases k <;> simp [Term.val, Interp.callVal, Interp.indexVal, h]
  | some j => simp [Term.val]

/-- A call that stands for all its components. -/
theorem Term.val_ufCall_of_whole {c : Int} {f : String} {args : List Exp} {i : Option Nat}
    (h : i = none ∨ (i = some 0 ∧ I.cod f = 1)) (k : Nat) :
    (Term.ufCall c f args i).val I τ k = c * I.callVal f (argsVal I τ args) k := by
  rcases h with rfl | ⟨rfl, hcod⟩
  · rfl
  · rw [val_eq_mul, setCoefficient, val_ufCall_of_cod hcod]
    cases k <;> simp [coefficient, Interp.callVal, Interp.indexVal, hcod]

/-- Two factors that are merged right have one value. -/
theorem val_factor_of_mergesRight {t u : Term} (ht : t.isTupleExp = false) (hm : u.factorMatches t = true)
    (h : MergesRight I.cod (t, u)) (k : Nat) : (t.setCoefficient 1).val I τ k = (u.setCoefficient 1).val I τ k := by
  cases t <;> cases u <;> simp only [Term.factorMatches, Bool.false_eq_true] at hm
  case tupleVar.tupleVar => rw [eq_of_beq hm]; rfl
  case symConst.symConst => rw [eq_of_beq hm]; rfl
  case constVal.constVal => rfl
  case tupleExp.tupleExp => cases ht
  case ufCall.ufCall c f as i c' f' as' i' =>
    simp only [Bool.and_eq_true, beq_iff_eq] at hm
    obtain ⟨⟨rfl, hi⟩, hargs⟩ := hm
    obtain ⟨hl, hl', hind⟩ := h
    have hv := argsVal_of_toString_eq (I := I) (τ := τ) hl hl' hargs.symm
    rcases hind with rfl | hcod
    · cases i <;> simp only [Term.setCoefficient, Term.val, hv]
    · rw [Term.setCoefficient, Term.setCoefficient, val_ufCall_of_cod hcod, val_ufCall_of_cod hcod, hv, hi]

theorem val_of_combineSimple {t u u' : Term} {j : Int} (ht : t.isTupleExp = false) (h : combineSimple j t u = some u')
    (hr : MergesRight I.cod (t, u)) (k : Nat) : u'.val I τ k = u.val I τ k + t.val I τ k * j := by
  unfold combineSimple at h
  split_ifs at h with hm
  rw [← Option.some.inj h, Term.val_setCoefficient, Term.val_eq_mul u, Term.val_eq_mul t,
    val_factor_of_mergesRight ht hm hr]
  ring

mutual
theorem Term.val_combineInto : ∀ {t u u' : Term} {j : Int}, t.combineInto j u = some u' →
    (∀ p ∈ t.merged j u, MergesRight I.cod p) → ∀ k, u'.val I τ k = u.val I τ k + t.val I τ k * j
  | .tupleExp c es, .tupleExp c' es', u', j, h, hr, k => by
    simp only [Term.combineInto] at h
    split_ifs at h with hlen
    simp only [Term.merged, List.forall_mem_cons] at hr
    obtain rfl : c' = 1 := hr.1
    rw [← Option.some.inj h]
    simp only [Term.val, elemsVal_combineElems hlen hr.2]
    ring
  | .tupleExp c es, .tupleVar .., u', j, h, _, _ | .tupleExp c es, .symConst .., u', j, h, _, _
  | .tupleExp c es, .ufCall .., u', j, h, _, _ | .tupleExp c es, .constVal _, u', j, h, _, _ => by
    simp [Term.combineInto, combineSimple, Term.factorMatches] at h
  | .tupleVar c l, u, u', j, h, hr, k => val_of_combineSimple rfl h (hr _ List.mem_cons_self) k
  | .symConst c s, u, u', j, h, hr, k => val_of_combineSimple rfl h (hr _ List.mem_cons_self) k
  | .constVal c, u, u', j, h, hr, k => val_of_combineSimple rfl h (hr _ List.mem_cons_self) k
  | .ufCall c f as i, u, u', j, h, hr, k => val_of_combineSimple rfl h (hr _ List.mem_cons_self) k

theorem elemsVal_combineElems : ∀ {es es' : List Exp} {c' j : Int}, es'.length = es.length →
    (∀ p ∈ elemsMerged c' j es es', MergesRight I.cod p) → ∀ {k : Nat},
    ((argsVal I τ (combineElems c' j es es')).getD k (scalar 0)) 0 =
      ((argsVal I τ es').getD k (scalar 0)) 0 * c' + ((argsVal I τ es).getD k (scalar 0)) 0 * j
  | [], [], c', j, _, _, k => by simp [combineElems, argsVal]
  | [], _ :: _, _, _, h, _, _ => by cases h
  | _ :: _, [], _, _, h, _, _ => by cases h
  | e :: es, e' :: es', c', j, h, hr, k => by
    simp only [elemsMerged, List.forall_mem_append] at hr
    cases k with
    | zero =>
      have he := Exp.val_addInto hr.1 0
      rw [Exp.terms_multiplyBy, termsVal_map_multiplyBy, ← Exp.val_eq] at he
      simp only [combineElems, argsVal, List.getD_cons_zero, Exp.val, Exp.terms_multiplyBy, he]
    | succ k =>
      simp only [combineElems, argsVal, List.getD_cons_succ]
      exact elemsVal_combineElems (by simpa using h) hr.2

theorem Exp.val_addInto : ∀ {e : Exp} {acc : List Term} {j : Int}, (∀ p ∈ e.merged j acc, MergesRight I.cod p) →
    ∀ k, termsVal I τ (e.addInto j acc) k = termsVal I τ acc k + e.val I τ k * j
  | .mk _ ts, acc, j, hr, k => termsVal_termsAddInto hr k

/-- Adding terms adds their values, where the pairs that are merged are right. -/
theorem termsVal_termsAddInto : ∀ {ts acc : List Term} {j : Int}, (∀ p ∈ termsMerged j ts acc, MergesRight I.cod p) →
    ∀ k, termsVal I τ (termsAddInto j ts acc) k = termsVal I τ acc k + termsVal I τ ts k * j
  | [], acc, j, _, k => by simp [termsAddInto]
  | t :: ts, acc, j, hr, k => by
    simp only [termsMerged, termsAddInto] at hr ⊢
    by_cases h0 : t.coefficient * j = 0
    · rw [if_pos h0] at hr ⊢
      have hz : t.val I τ k * j = 0 := by
        rw [Term.val_eq_mul, mul_right_comm, h0, zero_mul]
      rw [termsVal_termsAddInto hr, termsVal_cons, add_mul, hz]
      omega
    · rw [if_neg h0, List.forall_mem_append] at hr
      rw [if_neg h0, termsVal_termsAddInto hr.2, termsVal_insertTerm_of_target, Term.val_multiplyBy, termsVal_cons]
      · ring
      · intro u hu u' hc
        have hpairs := hr.1
        rw [hu] at hpairs
        rw [Term.val_multiplyBy]
        exact Term.val_combineInto hc hpairs k
end

/-- `addTerm`, where the pairs that it merges are right. -/
theorem Exp.val_addTerm_of_merged {e : Exp} {t : Term} (h : ∀ p ∈ termsMerged 1 [t] e.terms, MergesRight I.cod p)
    (k : Nat) : (e.addTerm t).val I τ k = e.val I τ k + t.val I τ k := by
  rw [Exp.val_eq, Exp.addTerm, terms_mk, termsVal_termsAddInto h, ← Exp.val_eq, termsVal_cons, termsVal_nil]
  ring

theorem Exp.val_addExp_of_merged {e e' : Exp} (h : ∀ p ∈ termsMerged 1 e'.terms e.terms, MergesRight I.cod p) (k : Nat) :
    (e.addExp e').val I τ k = e.val I τ k + e'.val I τ k := by
  rw [Exp.val_eq, Exp.addExp, terms_mk, termsVal_termsAddInto h, ← Exp.val_eq, ← Exp.val_eq, mul_one]

/-- The quotient by a number that divides every coefficient. -/
theorem Exp.val_divideBy {e e' : Exp} {d : Int} (h : e.divideBy d = .ok e') (k : Nat) :
    e'.val I τ k * d = e.val I τ k := by
  unfold Exp.divideBy at h
  split_ifs at h with hd
  rw [Exp.isDivisible, List.all_eq_true] at hd
  rw [← Except.ok.inj h, Exp.val_eq, Exp.val_eq, terms_mk]
  generalize e.terms = ts at hd
  induction ts with
  | nil => simp
  | cons t ts ih =>
    obtain ⟨ht, hts⟩ := List.forall_mem_cons.1 hd
    have hc : t.coefficient.tdiv d * d = t.coefficient := Int.tdiv_mul_cancel_of_tmod_eq_zero (by simpa using ht)
    rw [List.map_cons, termsVal_cons, termsVal_cons, add_mul, ih hts, Term.val_setCoefficient, Term.val_eq_mul t,
      mul_right_comm, hc]

end Val

/-! ## The pairs match -/

theorem mergeTarget_spec {combine : Term → Option Term} {term u : Term} : ∀ {ts : List Term},
    mergeTarget combine term ts = some u → u ∈ ts ∧ (combine u).isSome = true
  | [], h => by cases h
  | t :: ts, h => by
    simp only [mergeTarget] at h
    split_ifs at h with hc
    · cases h
      exact ⟨List.mem_cons_self, hc⟩
    · obtain ⟨hu, hs⟩ := mergeTarget_spec h
      exact ⟨List.mem_cons_of_mem _ hu, hs⟩

theorem factorMatches_of_combineInto {t u : Term} {j : Int} (h : (t.combineInto j u).isSome = true) :
    u.factorMatches t = true := by
  have hsimple : (combineSimple j t u).isSome = true → u.factorMatches t = true := by
    unfold combineSimple
    split_ifs with hm
    · exact fun _ => hm
    · simp
  cases t with
  | tupleExp c es =>
    cases u with
    | tupleExp c' es' =>
      simp only [Term.combineInto] at h
      split_ifs at h with hlen
      · simpa [Term.factorMatches] using hlen
      · cases h
    | _ => exact hsimple h
  | _ => exact hsimple h

mutual
theorem Term.factorMatches_of_merged : ∀ {t u : Term} {j : Int}, u.factorMatches t = true →
    ∀ p ∈ t.merged j u, p.2.factorMatches p.1 = true
  | .tupleExp c es, .tupleExp c' es', j, hm, p, hp => by
    simp only [Term.merged, List.mem_cons] at hp
    rcases hp with rfl | hp
    · exact hm
    · exact elems_factorMatches_of_merged p hp
  | .tupleExp .., .tupleVar .., _, hm, _, _ | .tupleExp .., .symConst .., _, hm, _, _
  | .tupleExp .., .ufCall .., _, hm, _, _ | .tupleExp .., .constVal _, _, hm, _, _ => by
    simp [Term.factorMatches] at hm
  | .tupleVar .., u, _, hm, p, hp | .symConst .., u, _, hm, p, hp | .constVal _, u, _, hm, p, hp
  | .ufCall .., u, _, hm, p, hp => by
    obtain rfl := List.mem_singleton.1 hp
    exact hm

theorem elems_factorMatches_of_merged : ∀ {es es' : List Exp} {c' j : Int}, ∀ p ∈ elemsMerged c' j es es',
    p.2.factorMatches p.1 = true
  | [], [], _, _, p, hp | [], _ :: _, _, _, p, hp | _ :: _, [], _, _, p, hp => by simp [elemsMerged] at hp
  | e :: es, e' :: es', c', j, p, hp => by
    simp only [elemsMerged, List.mem_append] at hp
    rcases hp with hp | hp
    · exact Exp.factorMatches_of_merged p hp
    · exact elems_factorMatches_of_merged p hp

theorem Exp.factorMatches_of_merged : ∀ {e : Exp} {acc : List Term} {j : Int}, ∀ p ∈ e.merged j acc,
    p.2.factorMatches p.1 = true
  | .mk _ _, _, _, p, hp => terms_factorMatches_of_merged p hp

/-- Only terms whose factors match are merged. -/
theorem terms_factorMatches_of_merged : ∀ {ts acc : List Term} {j : Int}, ∀ p ∈ termsMerged j ts acc,
    p.2.factorMatches p.1 = true
  | [], acc, j, p, hp => by cases hp
  | t :: ts, acc, j, p, hp => by
    simp only [termsMerged] at hp
    split_ifs at hp with h0
    · exact terms_factorMatches_of_merged p hp
    · rcases List.mem_append.1 hp with hp | hp
      · cases hu : mergeTarget (t.combineInto j) (t.multiplyBy j) acc with
        | none => simp [hu] at hp
        | some u =>
          rw [hu] at hp
          exact Term.factorMatches_of_merged (factorMatches_of_combineInto (mergeTarget_spec hu).2) p hp
      · exact terms_factorMatches_of_merged p hp
end

/-! ## Sequences of operations -/

/-- The operations that change an expression. -/
inductive ArithOp where
  | addTerm (term : Term)
  | addExp (exp : Exp)
  | multiplyBy (constant : Int)
  | divideBy (divisor : Int)

namespace ArithOp

def apply : ArithOp → Exp → Except Failure Exp
  | .addTerm t, e => .ok (e.addTerm t)
  | .addExp e', e => .ok (e.addExp e')
  | .multiplyBy c, e => .ok (e.multiplyBy c)
  | .divideBy d, e => e.divideBy d

/-- The value after the operation. -/
def value (I : Interp) (τ : Nat → Int) : ArithOp → (Nat → Int) → Nat → Int
  | .addTerm t, v, k => v k + t.val I τ k
  | .addExp e', v, k => v k + e'.val I τ k
  | .multiplyBy c, v, k => v k * c
  | .divideBy d, v, k => v k / d

/-- The pairs of terms that the operation merges. -/
def merged : ArithOp → Exp → List (Term × Term)
  | .addTerm t, e => termsMerged 1 [t] e.terms
  | .addExp e', e => termsMerged 1 e'.terms e.terms
  | _, _ => []

/-- The pairs are merged right, and nothing is divided by zero. -/
def Right (cod : String → Nat) (e : Exp) (op : ArithOp) : Prop :=
  (∀ p ∈ op.merged e, MergesRight cod p) ∧ op ≠ .divideBy 0

/-- One step has the value of the operation. -/
theorem val_apply {I : Interp} {τ : Nat → Int} {op : ArithOp} {e e' : Exp} (h : op.apply e = .ok e')
    (hr : op.Right I.cod e) : e'.val I τ = op.value I τ (e.val I τ) := by
  funext k
  cases op with
  | addTerm t =>
    cases h
    exact Exp.val_addTerm_of_merged hr.1 k
  | addExp e'' =>
    cases h
    exact Exp.val_addExp_of_merged hr.1 k
  | multiplyBy c =>
    cases h
    exact Exp.val_multiplyBy c e k
  | divideBy d =>
    have hd : d ≠ 0 := by
      rintro rfl
      exact hr.2 rfl
    rw [value, ← Exp.val_divideBy h k, Int.mul_ediv_cancel _ hd]

/-- The operations one after the other. -/
def run (ops : List ArithOp) (e : Exp) : Except Failure Exp := ops.foldlM (fun e op => op.apply e) e

/-- Every step is right in the state before it. -/
def RunsRight (cod : String → Nat) : List ArithOp → Exp → Prop
  | [], _ => True
  | op :: ops, e => op.Right cod e ∧ ∀ e', op.apply e = .ok e' → RunsRight cod ops e'

/-- In every state of a run of right steps the value is that of the operations so far, and what the next step merges
(tuples apart, whose elements are added) is equal up to the coefficients. -/
theorem run_denotes (cod : String → Nat) (ops : List ArithOp) (e : Exp) (h : RunsRight cod ops e)
    (pre post : List ArithOp) (hops : ops = pre ++ post) (e' : Exp) (hrun : run pre e = .ok e') :
    ∀ I, I.cod = cod → ∀ τ, e'.val I τ = pre.foldl (fun v op => op.value I τ v) (e.val I τ) ∧
      ∀ op ∈ post.head?, ∀ p ∈ op.merged e', p.1.isTupleExp = false →
        (p.1.setCoefficient 1).val I τ = (p.2.setCoefficient 1).val I τ := by
  rintro I rfl τ
  subst hops
  induction pre generalizing e with
  | nil =>
    cases hrun
    refine ⟨rfl, fun op hop p hp ht => ?_⟩
    cases post with
    | nil => cases hop
    | cons op' post =>
      cases hop
      have hm : p.2.factorMatches p.1 = true := by
        cases op with
        | addTerm t => exact terms_factorMatches_of_merged p hp
        | addExp e'' => exact terms_factorMatches_of_merged p hp
        | multiplyBy c => cases hp
        | divideBy d => cases hp
      exact funext fun k => val_factor_of_mergesRight ht hm (h.1.1 p hp) k
  | cons op pre ih =>
    rw [run, List.foldlM_cons, bind_eq_ok] at hrun
    obtain ⟨e₁, he₁, hrun⟩ := hrun
    have hstep := val_apply (τ := τ) he₁ h.1
    rw [List.foldl_cons, ← hstep]
    exact ih e₁ hrun (h.2 e₁ he₁)

/-- `-1 * ( a, b )` and then `( c, b )`: the elements merge to `( -a + c, 0 )`, and the tuple is still times `-1`. -/
theorem run_wrong : ∃ e, run [.addTerm (.tupleExp (-1) [.ofTerm (.symConst 1 "a"), .ofTerm (.symConst 1 "b")]),
      .addTerm (.tupleExp 1 [.ofTerm (.symConst 1 "c"), .ofTerm (.symConst 1 "b")])] (.mk .expression []) = .ok e ∧
    ∃ I τ, e.val I τ 0 ≠ (Term.tupleExp (-1) [.ofTerm (.symConst 1 "a"), .ofTerm (.symConst 1 "b")]).val I τ 0 +
      (Term.tupleExp 1 [.ofTerm (.symConst 1 "c"), .ofTerm (.symConst 1 "b")]).val I τ 0 := by
  refine ⟨_, rfl, ⟨fun s => if s = "a" then 1 else 0, fun _ _ => [], fun _ => 0, fun _ => 0⟩, fun _ => 0, ?_⟩
  decide

theorem run_denotes_tuple : ∃ e, run [.addTerm (.tupleExp 1 [.ofTerm (.symConst 1 "a")]),
      .addTerm (.tupleExp (-2) [.ofTerm (.symConst 3 "a")]), .multiplyBy 4, .divideBy 2] (.mk .expression []) = .ok e ∧
    ∀ I τ, e.val I τ 0 = (0 + 1 * (1 * I.sym "a" + 0) + -2 * (3 * I.sym "a" + 0)) * 4 / 2 := by
  have hrun : run [.addTerm (.tupleExp 1 [.ofTerm (.symConst 1 "a")]),
      .addTerm (.tupleExp (-2) [.ofTerm (.symConst 3 "a")]), .multiplyBy 4, .divideBy 2] (.mk .expression []) =
      .ok (.ofTerm (.tupleExp 2 [.mk .expression [.symConst (-5) "a"]])) := rfl
  refine ⟨_, hrun, fun I τ => ?_⟩
  refine congrFun (run_denotes I.cod _ _ ?_ _ [] (List.append_nil _).symm _ hrun I rfl τ).1 0
  refine ⟨⟨by simp [merged, termsMerged, mergeTarget, Term.coefficient], by simp⟩, fun e₁ h₁ => ?_⟩
  cases h₁
  refine ⟨⟨fun p hp => ?_, by simp⟩, fun e₂ _ => ⟨⟨by simp [merged], by simp⟩, fun e₃ _ => ⟨⟨by simp [merged], by simp⟩,
    fun _ _ => trivial⟩⟩⟩
  have hpairs : p ∈ [(Term.tupleExp (-2) [.ofTerm (.symConst 3 "a")], Term.tupleExp 1 [.ofTerm (.symConst 1 "a")]),
      (Term.symConst 3 "a", Term.symConst 1 "a")] := hp
  rcases List.mem_cons.1 hpairs with rfl | hp
  · rfl
  · obtain rfl := List.mem_singleton.1 hp
    trivial

end ArithOp

end IEGen
