import IEGen.CleanUp
import Mathlib.Data.Prod.Lex
import Mathlib.Data.Int.Order.Basic

/-!
# Canonical expressions

`addTerm` keeps the terms of an expression in the order of their factors, one term for each factor, without a zero
coefficient. An expression that `collapseNestedInvertibleFunctions` has built is so in its arguments as well
(`Exp.Canonical`), and two canonical expressions with one text are equal.
-/

namespace IEGen

open SortedList (Tied StrictWeak Sorted)

/-! ## The comparisons are strict weak orders -/

namespace Term

/-- What `Term.lt` compares, in its order: the kind, a name, an index, the printed arguments, and the coefficient. -/
def key : Term → ℕ ×ₗ String ×ₗ ℤ ×ₗ String ×ₗ ℤ
  | .tupleVar c l => toLex (0, toLex ("", toLex ((l : ℤ), toLex ("", c))))
  | .symConst c s => toLex (1, toLex (s, toLex (0, toLex ("", c))))
  | .ufCall c f as i => toLex (2, toLex (f, toLex (rawIndex i, toLex (argsToStream false as, c))))
  | .constVal c => toLex (3, toLex ("", toLex (0, toLex ("", c))))
  | .tupleExp _ es => toLex (4, toLex ("", toLex ((es.length : ℤ), toLex ("", 0))))

theorem ltBy_eq_decide {κ μ : Type*} [LinearOrder κ] [LinearOrder μ] {k k' : κ} {m n : μ} {b : Bool}
    (hb : b = decide (m < n)) : ltBy k k' b = decide (toLex (k, m) < toLex (k', n)) := by
  subst hb
  unfold ltBy
  rcases lt_trichotomy k k' with h | rfl | h
  · simp [Prod.Lex.toLex_lt_toLex, h]
  · simp [Prod.Lex.toLex_lt_toLex]
  · simp [Prod.Lex.toLex_lt_toLex, h, h.not_gt, h.ne']

theorem toLex_lt_iff_of_eq {κ μ : Type*} [LinearOrder κ] [LinearOrder μ] (k : κ) {m m' : μ} :
    toLex (k, m) < toLex (k, m') ↔ m < m' := by simp [Prod.Lex.toLex_lt_toLex]

theorem lt_eq_key (a b : Term) : a.lt b = decide (a.key < b.key) := by
  cases a with
  | tupleVar c l =>
    cases b with
    | tupleVar c' l' =>
      simp only [Term.lt, Term.key, toLex_lt_iff_of_eq]
      rw [ltBy_eq_decide (m := c) (n := c') rfl]
      simp [Prod.Lex.toLex_lt_toLex]
    | _ => simp [Term.lt, Term.key, Term.typeRank, Prod.Lex.toLex_lt_toLex]
  | symConst c s =>
    cases b with
    | symConst c' s' =>
      simp only [Term.lt, Term.key, toLex_lt_iff_of_eq]
      exact ltBy_eq_decide (by simp only [toLex_lt_iff_of_eq])
    | _ => simp [Term.lt, Term.key, Term.typeRank, Prod.Lex.toLex_lt_toLex]
  | ufCall c f as i =>
    cases b with
    | ufCall c' f' as' i' =>
      simp only [Term.lt, Term.key, toLex_lt_iff_of_eq]
      exact ltBy_eq_decide (ltBy_eq_decide (ltBy_eq_decide rfl))
    | _ => simp [Term.lt, Term.key, Term.typeRank, Prod.Lex.toLex_lt_toLex]
  | constVal c =>
    cases b with
    | constVal c' => simp only [Term.lt, Term.key, toLex_lt_iff_of_eq]
    | _ => simp [Term.lt, Term.key, Term.typeRank, Prod.Lex.toLex_lt_toLex]
  | tupleExp c es =>
    cases b with
    | tupleExp c' es' => simp [Term.lt, Term.key, Prod.Lex.toLex_lt_toLex]
    | _ => simp [Term.lt, Term.key, Term.typeRank, Prod.Lex.toLex_lt_toLex]

theorem strictWeak_lt : StrictWeak Term.lt := StrictWeak.of_key lt_eq_key

/-- The comparison of factors: of the terms with coefficient one. -/
def factorLt (a b : Term) : Bool := (a.setCoefficient 1).lt (b.setCoefficient 1)

theorem strictWeak_factorLt : StrictWeak factorLt := strictWeak_lt.comap _

@[simp] theorem factorLt_setCoefficient_left (c : Int) (a b : Term) : (a.setCoefficient c).factorLt b = a.factorLt b := by
  simp [factorLt]

@[simp] theorem factorLt_setCoefficient_right (c : Int) (a b : Term) :
    a.factorLt (b.setCoefficient c) = a.factorLt b := by
  simp [factorLt]

@[simp] theorem factorMatches_setCoefficient_left (c : Int) (a b : Term) :
    (a.setCoefficient c).factorMatches b = a.factorMatches b := by
  cases a <;> cases b <;> rfl

@[simp] theorem factorMatches_setCoefficient_right (c : Int) (a b : Term) :
    a.factorMatches (b.setCoefficient c) = a.factorMatches b := by
  cases a <;> cases b <;> rfl

theorem factorMatches_comm (a b : Term) : a.factorMatches b = b.factorMatches a := by
  cases a <;> cases b <;> simp [factorMatches, Bool.beq_comm]

theorem setCoefficient_isTupleExp (c : Int) (a : Term) : (a.setCoefficient c).isTupleExp = a.isTupleExp := by
  cases a <;> rfl

/-- Factors that neither comes before the other match. -/
theorem factorMatches_of_tied_factor {a b : Term} (ha : a.isTupleExp = false) (h : Tied factorLt a b) :
    a.factorMatches b = true := by
  have := (factorMatches_of_tied (a := a.setCoefficient 1) (b := b.setCoefficient 1) h
    (by rw [setCoefficient_isTupleExp]; exact ha)).1
  simpa using this

theorem ltBy_mono {κ : Type*} [LT κ] [DecidableLT κ] {k k' : κ} {r r' : Bool} (h : r = true → r' = true)
    (hl : ltBy k k' r = true) : ltBy k k' r' = true := by
  unfold ltBy at hl ⊢
  split_ifs at hl ⊢
  · rfl
  · exact h hl

theorem lt_of_factorLt {a b : Term} (h : a.factorLt b = true) : a.lt b = true := by
  have none_of : ∀ {c c' : Int}, decide ((1 : Int) < 1) = true → decide (c < c') = true := by
    intro c c' h; simp at h
  cases a <;> cases b <;> first | exact h | skip
  case tupleVar.tupleVar => exact ltBy_mono none_of h
  case symConst.symConst => exact ltBy_mono none_of h
  case ufCall.ufCall => exact ltBy_mono (ltBy_mono (ltBy_mono none_of)) h
  case constVal.constVal => exact none_of h

/-- Where the factors do not match, terms compare as their factors do. -/
theorem factorLt_eq_lt {a b : Term} (ha : a.isTupleExp = false) (h : a.factorMatches b = false) :
    a.factorLt b = a.lt b := by
  cases h₁ : a.factorLt b with
  | true => exact (lt_of_factorLt h₁).symm
  | false =>
    cases h₂ : b.factorLt a with
    | true => exact (strictWeak_lt.asymm (lt_of_factorLt h₂)).symm
    | false =>
      rw [factorMatches_of_tied_factor ha ⟨h₁, h₂⟩] at h
      cases h

end Term

theorem strictWeak_expLt : StrictWeak Exp.lt := Term.strictWeak_lt.sizeLexLt.comap _

theorem strictWeak_elemLt : StrictWeak TupleDecl.elemLt := by
  refine StrictWeak.of_key (f := fun e => if e.isConst then (e.constVal : WithBot ℤ) else ⊥) fun a b => ?_
  unfold TupleDecl.elemLt
  cases a.isConst <;> cases b.isConst <;> simp

/-- The comparison of conjunctions, one part after the other. -/
theorem Conjunction.lt_parts (a b : Conjunction) : a.lt b =
    SortedList.thenLt (fun a b : Conjunction => a.tupleDecl.lt b.tupleDecl)
      (SortedList.thenLt (fun a b => decide (a.equalities.length < b.equalities.length))
        (SortedList.thenLt (fun a b => decide (a.inequalities.length < b.inequalities.length))
          (SortedList.thenLt (fun a b => SortedList.sizeLexLt Exp.lt a.equalities b.equalities)
            (fun a b => SortedList.sizeLexLt Exp.lt a.inequalities b.inequalities)))) a b := by
  unfold Conjunction.lt SortedList.thenLt SortedList.sizeLexLt
  simp only [decide_eq_true_eq]
  split_ifs <;> rfl

theorem strictWeak_conjunctionLt : StrictWeak Conjunction.lt := by
  have hdecl : StrictWeak (fun a b : Conjunction => a.tupleDecl.lt b.tupleDecl) :=
    strictWeak_elemLt.sizeLexLt.comap (fun c : Conjunction => c.tupleDecl.elems)
  have hlen : ∀ f : Conjunction → Nat, StrictWeak (fun a b : Conjunction => decide (f a < f b)) :=
    fun f => StrictWeak.of_key (f := f) fun _ _ => rfl
  have heqs : StrictWeak (fun a b : Conjunction => SortedList.sizeLexLt Exp.lt a.equalities b.equalities) :=
    strictWeak_expLt.sizeLexLt.comap _
  have hineqs : StrictWeak (fun a b : Conjunction => SortedList.sizeLexLt Exp.lt a.inequalities b.inequalities) :=
    strictWeak_expLt.sizeLexLt.comap _
  have h := hdecl.thenLt ((hlen (fun c => c.equalities.length)).thenLt
    ((hlen (fun c => c.inequalities.length)).thenLt (heqs.thenLt hineqs)))
  exact (funext₂ Conjunction.lt_parts : Conjunction.lt = _) ▸ h

/-! ## Terms in the order of their factors -/

section Insert

/-- `addTerm` on the terms, for a term that is no tuple. -/
def addOne (ts : List Term) (term : Term) : List Term :=
  if term.coefficient = 0 then ts else insertTerm (combineSimple 1 term) term ts

theorem combineInto_eq {t : Term} (ht : t.isTupleExp = false) (k : Int) : t.combineInto k = combineSimple k t := by
  funext u
  cases t with
  | tupleExp => cases ht
  | _ => rfl

@[simp] theorem multiplyBy_one (t : Term) : t.multiplyBy 1 = t := by simp [Term.multiplyBy]

theorem termsAddInto_one : ∀ {us acc : List Term}, (∀ u ∈ us, u.isTupleExp = false) →
    termsAddInto 1 us acc = us.foldl addOne acc
  | [], _, _ => rfl
  | u :: us, acc, h => by
    rw [List.foldl_cons, ← termsAddInto_one (fun v hv => h v (List.mem_cons_of_mem _ hv))]
    simp only [termsAddInto, mul_one, combineInto_eq (h u List.mem_cons_self), multiplyBy_one, addOne]

theorem terms_addExp_noTuples {e e' : Exp} (h : ∀ t ∈ e'.terms, t.isTupleExp = false) :
    (e.addExp e').terms = e'.terms.foldl addOne e.terms := termsAddInto_one h

theorem terms_addTerm_noTuple {e : Exp} {t : Term} (h : t.isTupleExp = false) : (e.addTerm t).terms = addOne e.terms t := by
  have hone : ∀ u ∈ [t], u.isTupleExp = false := List.forall_mem_singleton.2 h
  exact termsAddInto_one hone

/-- What one term makes of the empty sum. -/
theorem terms_addTerm_empty {k : ExpType} {t : Term} (h : t.coefficient ≠ 0) : ((Exp.mk k []).addTerm t).terms = [t] := by
  rw [Exp.addTerm, Exp.terms_mk, Exp.terms_mk, termsAddInto, termsAddInto, mul_one, if_neg h, insertTerm, multiplyBy_one]

/-- What holds of terms with any coefficient holds of the terms after adding one. -/
theorem forall_insertTerm {P : Term → Prop} (hP : ∀ c t, P t → P (t.setCoefficient c)) {term other : Term} {k : Int}
    (ht : P term) : ∀ {ts : List Term}, (∀ t ∈ ts, P t) → ∀ t ∈ insertTerm (combineSimple k other) term ts, P t
  | [], _ => by simpa [insertTerm] using ht
  | u :: us, hts => by
    obtain ⟨hu, hus⟩ := List.forall_mem_cons.1 hts
    simp only [insertTerm, combineSimple]
    by_cases hm : u.factorMatches other = true
    · simp only [hm, if_true]
      split_ifs
      · exact hus
      · exact List.forall_mem_cons.2 ⟨hP _ _ hu, hus⟩
    · simp only [hm, Bool.false_eq_true, if_false]
      split_ifs
      · exact List.forall_mem_cons.2 ⟨ht, hts⟩
      · exact List.forall_mem_cons.2 ⟨hu, forall_insertTerm hP ht hus⟩

theorem forall_addOne {P : Term → Prop} (hP : ∀ c t, P t → P (t.setCoefficient c)) {ts : List Term} {term : Term}
    (ht : P term) (hts : ∀ t ∈ ts, P t) : ∀ t ∈ addOne ts term, P t := by
  unfold addOne
  split_ifs
  · exact hts
  · exact forall_insertTerm hP ht hts

theorem nonzero_addOne {ts : List Term} {term : Term} (hts : ∀ t ∈ ts, t.coefficient ≠ 0) :
    ∀ t ∈ addOne ts term, t.coefficient ≠ 0 := by
  unfold addOne
  split_ifs with h0
  · exact hts
  · induction ts with
    | nil => simpa [insertTerm] using h0
    | cons u us ih =>
      obtain ⟨hu, hus⟩ := List.forall_mem_cons.1 hts
      simp only [insertTerm]
      cases combineSimple 1 term u with
      | some t' =>
        dsimp only
        split_ifs with h1
        · exact hus
        · exact List.forall_mem_cons.2 ⟨h1, hus⟩
      | none =>
        dsimp only
        split_ifs
        · exact List.forall_mem_cons.2 ⟨h0, hts⟩
        · exact List.forall_mem_cons.2 ⟨hu, ih hus⟩

/-- Adding a term keeps the terms in the order of their factors. -/
theorem sorted_addOne {ts : List Term} {term : Term} (ht : term.isTupleExp = false)
    (hs : Sorted Term.factorLt ts) : Sorted Term.factorLt (addOne ts term) := by
  unfold addOne
  split_ifs
  · exact hs
  · induction ts with
    | nil => simp [insertTerm, Sorted]
    | cons u us ih =>
      obtain ⟨hu, hus⟩ := List.pairwise_cons.1 hs
      simp only [insertTerm, combineSimple]
      by_cases hm : u.factorMatches term = true
      · simp only [hm, if_true]
        split_ifs
        · exact hus
        · exact List.pairwise_cons.2 ⟨fun v hv => by simpa using hu v hv, hus⟩
      · have hm' : term.factorMatches u = false := by rw [Term.factorMatches_comm]; simpa using hm
        simp only [hm, Bool.false_eq_true, if_false]
        split_ifs with hlt
        · rw [← Term.factorLt_eq_lt ht hm'] at hlt
          refine List.pairwise_cons.2 ⟨fun v hv => ?_, hs⟩
          rcases List.mem_cons.1 hv with rfl | hv
          · exact hlt
          · exact Term.strictWeak_factorLt.trans hlt (hu v hv)
        · rw [← Term.factorLt_eq_lt ht hm'] at hlt
          have hlt' : u.factorLt term = true := by
            cases h : u.factorLt term with
            | true => rfl
            | false =>
              have := Term.factorMatches_of_tied_factor ht ⟨by simpa using hlt, h⟩
              rw [hm'] at this; cases this
          exact List.pairwise_cons.2 ⟨forall_insertTerm (fun c t h => by simpa using h) hlt' hu, ih hus⟩

theorem forall_foldl_addOne {P : Term → Prop} (hP : ∀ c t, P t → P (t.setCoefficient c)) {us acc : List Term}
    (hu : ∀ u ∈ us, P u) (ha : ∀ t ∈ acc, P t) : ∀ t ∈ us.foldl addOne acc, P t := by
  induction us generalizing acc with
  | nil => exact ha
  | cons u us ih =>
    obtain ⟨h, hus⟩ := List.forall_mem_cons.1 hu
    exact ih hus (forall_addOne hP h ha)

theorem nonzero_foldl_addOne {us acc : List Term} (ha : ∀ t ∈ acc, t.coefficient ≠ 0) :
    ∀ t ∈ us.foldl addOne acc, t.coefficient ≠ 0 := by
  induction us generalizing acc with
  | nil => exact ha
  | cons u us ih => exact ih (nonzero_addOne ha)

theorem sorted_foldl_addOne {us acc : List Term} (hu : ∀ u ∈ us, u.isTupleExp = false)
    (ha : Sorted Term.factorLt acc) : Sorted Term.factorLt (us.foldl addOne acc) := by
  induction us generalizing acc with
  | nil => exact ha
  | cons u us ih =>
    obtain ⟨h, hus⟩ := List.forall_mem_cons.1 hu
    exact ih hus (sorted_addOne h ha)

end Insert

/-! ## Canonical expressions -/

mutual
/-- The arguments of a call are canonical. -/
def Term.Canonical : Term → Prop
  | .ufCall _ _ as _ => argsCanonical as
  | _ => True

/-- A plain expression whose terms are in the order of their factors, with canonical arguments and nonzero
coefficients. -/
def Exp.Canonical : Exp → Prop
  | .mk k ts => k = .expression ∧ Sorted Term.factorLt ts ∧ termsCanonical ts

def argsCanonical : List Exp → Prop
  | [] => True
  | e :: es => e.Canonical ∧ argsCanonical es

def termsCanonical : List Term → Prop
  | [] => True
  | t :: ts => (t.coefficient ≠ 0 ∧ t.Canonical) ∧ termsCanonical ts
end

theorem termsCanonical_iff {ts : List Term} :
    termsCanonical ts ↔ ∀ t ∈ ts, t.coefficient ≠ 0 ∧ t.Canonical := by
  induction ts with
  | nil => simp [termsCanonical]
  | cons t ts ih => simp [termsCanonical, ih]

theorem canonical_setCoefficient {c : Int} {t : Term} (h : t.Canonical) : (t.setCoefficient c).Canonical := by
  cases t <;> exact h

mutual
/-- The arguments of a call and the elements of a tuple are proper. -/
def Term.Proper : Term → Prop
  | .ufCall _ _ as _ => argsProper as
  | .tupleExp _ es => argsProper es
  | _ => True

/-- A plain expression without zeros among its terms. -/
def Exp.Proper : Exp → Prop
  | .mk k ts => k = .expression ∧ termsProper ts

def argsProper : List Exp → Prop
  | [] => True
  | e :: es => e.Proper ∧ argsProper es

def termsProper : List Term → Prop
  | [] => True
  | t :: ts => (t.coefficient ≠ 0 ∧ t.Proper) ∧ termsProper ts
end

mutual
theorem Term.proper_of_canonical : ∀ {t : Term}, t.readable = true → t.Canonical → t.Proper
  | .tupleVar .., _, _ | .symConst .., _, _ | .constVal _, _, _ => trivial
  | .tupleExp .., hr, _ => by cases hr
  | .ufCall .., hr, hc => by
    simp only [Term.readable, Bool.and_eq_true] at hr
    exact argsProper_of_canonical hr.2 hc

theorem Exp.proper_of_canonical : ∀ {e : Exp}, e.readable = true → e.Canonical → e.Proper
  | .mk _ _, hr, hc => ⟨hc.1, termsProper_of_canonical hr hc.2.2⟩

theorem argsProper_of_canonical : ∀ {es : List Exp}, argsReadable es = true → argsCanonical es → argsProper es
  | [], _, _ => trivial
  | e :: es, hr, hc => by
    simp only [argsReadable, Bool.and_eq_true] at hr
    exact ⟨Exp.proper_of_canonical hr.1 hc.1, argsProper_of_canonical hr.2 hc.2⟩

theorem termsProper_of_canonical : ∀ {ts : List Term}, termsReadable ts = true → termsCanonical ts → termsProper ts
  | [], _, _ => trivial
  | t :: ts, hr, hc => by
    simp only [termsReadable, Bool.and_eq_true] at hr
    exact ⟨⟨hc.1.1, Term.proper_of_canonical hr.1 hc.1.2⟩, termsProper_of_canonical hr.2 hc.2⟩
end

mutual
theorem Term.plain_injective : ∀ {t t' : Term}, t.Proper → t'.Proper → t.plain = t'.plain → t = t'
  | .tupleVar .., t', _, _, h | .symConst .., t', _, _, h | .constVal _, t', _, _, h => by
    cases t' <;> simp only [Term.plain, reduceCtorEq] at h ⊢
    exact h
  | .tupleExp c es, t', hp, hp', h => by
    cases t' with
    | tupleExp c' es' =>
      simp only [Term.plain, Term.tupleExp.injEq] at h ⊢
      exact ⟨h.1, args_plain_injective hp hp' h.2⟩
    | _ => simp [Term.plain] at h
  | .ufCall c f as i, t', hp, hp', h => by
    cases t' with
    | ufCall c' f' as' i' =>
      simp only [Term.plain, Term.ufCall.injEq] at h ⊢
      exact ⟨h.1, h.2.1, args_plain_injective hp hp' h.2.2.1, h.2.2.2⟩
    | _ => simp [Term.plain] at h

/-- Proper expressions with one text are equal. -/
theorem Exp.plain_injective : ∀ {e e' : Exp}, e.Proper → e'.Proper → e.plain = e'.plain → e = e'
  | .mk k [], .mk k' [], hp, hp', _ => by rw [hp.1, hp'.1]
  | .mk k [], .mk k' (t' :: ts'), _, hp', h => by
    simp only [Exp.plain, Exp.mk.injEq, List.cons.injEq, true_and] at h
    have h0 : t'.coefficient = 0 := by rw [← coefficient_plain, ← h.1]; rfl
    exact absurd h0 hp'.2.1.1
  | .mk k (t :: ts), .mk k' [], hp, _, h => by
    simp only [Exp.plain, Exp.mk.injEq, List.cons.injEq, true_and] at h
    have h0 : t.coefficient = 0 := by rw [← coefficient_plain, h.1]; rfl
    exact absurd h0 hp.2.1.1
  | .mk k (t :: ts), .mk k' (t' :: ts'), hp, hp', h => by
    simp only [Exp.plain, Exp.mk.injEq, List.cons.injEq, true_and] at h
    rw [hp.1, hp'.1, Term.plain_injective hp.2.1.2 hp'.2.1.2 h.1, terms_plain_injective hp.2.2 hp'.2.2 h.2]

theorem args_plain_injective : ∀ {es es' : List Exp}, argsProper es → argsProper es' →
    argsPlain es = argsPlain es' → es = es'
  | [], [], _, _, _ => rfl
  | [], _ :: _, _, _, h => by cases h
  | _ :: _, [], _, _, h => by cases h
  | e :: es, e' :: es', hp, hp', h => by
    simp only [argsPlain, List.cons.injEq] at h
    rw [Exp.plain_injective hp.1 hp'.1 h.1, args_plain_injective hp.2 hp'.2 h.2]

theorem terms_plain_injective : ∀ {ts ts' : List Term}, termsProper ts → termsProper ts' →
    termsPlain ts = termsPlain ts' → ts = ts'
  | [], [], _, _, _ => rfl
  | [], _ :: _, _, _, h => by cases h
  | _ :: _, [], _, _, h => by cases h
  | t :: ts, t' :: ts', hp, hp', h => by
    simp only [termsPlain, List.cons.injEq] at h
    rw [Term.plain_injective hp.1.2 hp'.1.2 h.1, terms_plain_injective hp.2 hp'.2 h.2]
end

/-- Proper calls that neither comes before the other are equal. -/
theorem Term.eq_of_tied_calls {t t' : Term} (hcall : t.isUFCall = true) (hl : t.legible = true) (hl' : t'.legible = true)
    (hp : t.Proper) (hp' : t'.Proper) (h : Tied Term.lt t t') : t = t' := by
  obtain ⟨hf, -⟩ := factorMatches_of_tied h (by cases t <;> first | rfl | cases hcall)
  cases t with
  | ufCall c f as i =>
    cases t' with
    | ufCall c' f' as' i' =>
      obtain ⟨rfl, rfl, ha, rfl⟩ := tied_ufCall h
      simp only [Term.legible, Bool.and_eq_true] at hl hl'
      rw [args_plain_injective hp hp' (argsPlain_of_toString_eq hl.2 hl'.2 ha)]
    | _ => cases hf
  | _ => cases hcall

/-- Canonical terms that neither comes before the other are equal. -/
theorem Term.eq_of_tied {t t' : Term} (hr : t.readable = true) (hr' : t'.readable = true) (hc : t.Canonical)
    (hc' : t'.Canonical) (h : Tied Term.lt t t') : t = t' := by
  obtain ⟨hf, hk⟩ := factorMatches_of_tied h (by cases t <;> first | rfl | cases hr)
  cases t <;> cases t' <;> simp [Term.factorMatches, Term.coefficient] at hf hk
  case tupleVar.tupleVar => rw [hf, hk]
  case symConst.symConst => rw [hf, hk]
  case constVal.constVal => rw [hk]
  case tupleExp.tupleExp => cases hr
  case ufCall.ufCall =>
    exact Term.eq_of_tied_calls rfl (Term.legible_of_readable hr) (Term.legible_of_readable hr')
      (Term.proper_of_canonical hr hc) (Term.proper_of_canonical hr' hc') h

end IEGen
