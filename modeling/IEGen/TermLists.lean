import IEGen.Group

/-!
# The terms of an expression

`addTerm` stops at the first term that comes after the new one, so that it finds the term to merge with only if no such term
stands before it. `operator<` tells a call with tuple index 0 from the call without an index, where `factorMatches` does not:
such calls can both be in the list, with another term in between. Otherwise the terms are strictly sorted, no two of them match
and none is zero; and scalar terms of which no two are one call in both notations give equal expressions in whatever order they
are added.
-/

namespace IEGen

open SortedList (Tied Sorted StrictWeak SameClasses)

/-! ## Building an expression -/

/-- A call that adds to an expression. -/
inductive Addition where
  | addTerm (term : Term)
  | addExp (exp : Exp)

namespace Addition

def apply (e : Exp) : Addition → Exp
  | .addTerm term => e.addTerm term
  | .addExp exp => e.addExp exp

/-- The terms that are added, one after the other. -/
def terms : Addition → List Term
  | .addTerm term => [term]
  | .addExp exp => exp.terms

end Addition

namespace Exp

/-- What a sequence of calls makes of the empty expression. -/
def built (as : List Addition) : Exp := as.foldl Addition.apply (.mk .expression [])

/-- The empty expression with terms added one after the other. -/
def summed (ts : List Term) : Exp := ts.foldl addTerm (.mk .expression [])

/-- Strictly sorted, with no two terms to be merged and no zero. -/
structure Normal (e : Exp) : Prop where
  sorted : Sorted Term.lt e.terms
  apart : e.terms.Pairwise (fun t u => t.factorMatches u = false)
  nonzero : ∀ t ∈ e.terms, t.coefficient ≠ 0

/-- Behind a term that comes after `t` there is one to merge `t` with. -/
def PassesBy (e : Exp) (t : Term) : Prop :=
  t.coefficient ≠ 0 ∧ ∃ pre u post, e.terms = pre ++ u :: post ∧ u.factorMatches t = true ∧ ∃ v ∈ pre, t.lt v = true

end Exp

/-- `addTerm` on the terms. -/
def addToTerms (ts : List Term) (t : Term) : List Term :=
  if t.coefficient = 0 then ts else insertTerm (t.combineInto 1) t ts

theorem termsAddInto_eq_foldl (us acc : List Term) : termsAddInto 1 us acc = us.foldl addToTerms acc := by
  induction us generalizing acc with
  | nil => rfl
  | cons u us ih =>
    rw [termsAddInto, mul_one, multiplyBy_one, ih]
    rfl

namespace Exp

@[simp] theorem terms_addTerm_eq (e : Exp) (t : Term) : (e.addTerm t).terms = addToTerms e.terms t :=
  termsAddInto_eq_foldl [t] e.terms

theorem terms_foldl_addTerm (ts : List Term) (e : Exp) : (ts.foldl addTerm e).terms = ts.foldl addToTerms e.terms := by
  induction ts generalizing e with
  | nil => rfl
  | cons t ts ih => rw [List.foldl_cons, ih, terms_addTerm_eq, List.foldl_cons]

theorem terms_summed (ts : List Term) : (summed ts).terms = ts.foldl addToTerms [] := terms_foldl_addTerm ts _

/-- Adding an expression adds its terms. -/
theorem addExp_eq (e e' : Exp) : e.addExp e' = e'.terms.foldl addTerm e := by
  have hkind : ∀ (ts : List Term) (e : Exp), (ts.foldl addTerm e).expType = e.expType := by
    intro ts
    induction ts with
    | nil => exact fun _ => rfl
    | cons t ts ih => exact fun e => ih _
  have hterms := terms_foldl_addTerm e'.terms e
  rw [← termsAddInto_eq_foldl] at hterms
  have hk := hkind e'.terms e
  unfold addExp
  cases h : e'.terms.foldl addTerm e with
  | mk k us =>
    rw [h] at hterms hk
    exact congrArg₂ Exp.mk hk.symm hterms.symm

/-- All calls add single terms in the end. -/
theorem built_eq_summed (as : List Addition) : built as = summed (as.flatMap Addition.terms) := by
  unfold built summed
  generalize Exp.mk .expression [] = e
  induction as generalizing e with
  | nil => rfl
  | cons a as ih =>
    rw [List.foldl_cons, ih, List.flatMap_cons, List.foldl_append]
    cases a with
    | addTerm t => rfl
    | addExp e' => exact congrArg (fun e => (as.flatMap Addition.terms).foldl addTerm e) (addExp_eq e e')

end Exp

/-! ## Terms with one factor -/

namespace Term

/-- Matching terms match the same terms. -/
theorem factorMatches_congr {t u : Term} (h : t.factorMatches u = true) (v : Term) : t.factorMatches v = u.factorMatches v := by
  cases t <;> cases u <;> cases v <;> simp [factorMatches] at h ⊢ <;> simp [h]

theorem factorMatches_refl (t : Term) : t.factorMatches t = true := by
  cases t <;> simp [factorMatches]

/-- Factors that neither comes before the other match, those of tuples too. -/
theorem factorMatches_of_tied_factors {t u : Term} (h : Tied factorLt t u) : t.factorMatches u = true := by
  cases ht : t.isTupleExp with
  | false => exact factorMatches_of_tied_factor ht h
  | true =>
    cases t <;> cases u <;> simp [isTupleExp, Tied, factorLt, setCoefficient, lt, typeRank] at ht h
    case tupleExp.tupleExp c es c' es' =>
      have hlen : es.length = es'.length := by omega
      simp [factorMatches, hlen]

theorem factorLt_of_lt {t u : Term} (hm : t.factorMatches u = false) (h : t.lt u = true) : t.factorLt u = true := by
  cases h₁ : t.factorLt u with
  | true => rfl
  | false =>
    cases h₂ : u.factorLt t with
    | true => rw [strictWeak_lt.asymm (lt_of_factorLt h₂)] at h; cases h
    | false =>
      rw [factorMatches_of_tied_factors ⟨h₁, h₂⟩] at hm
      cases hm

/-- Matching factors that are not tied are a call without an index and the call with index 0. -/
theorem isIndexed_of_factorLt {t u : Term} (hm : t.factorMatches u = true) (h : t.factorLt u = true) :
    t.isIndexed = false ∧ u.isIndexed = true := by
  cases t <;> cases u <;> simp only [factorMatches, Bool.and_eq_true, beq_iff_eq, reduceCtorEq] at hm
  case ufCall.ufCall c f as i c' f' as' i' =>
    obtain ⟨⟨rfl, hi⟩, has⟩ := hm
    have hidx : rawIndex i < rawIndex i' := by
      simpa [factorLt, setCoefficient, lt, ltBy, has] using h
    cases i with
    | none =>
      cases i' with
      | none => simp at hidx
      | some k => exact ⟨rfl, rfl⟩
    | some k =>
      cases i' with
      | none =>
        have hlt : (k : Int) < -1 := hidx
        omega
      | some k' =>
        have hlt : (k : Int) < k' := hidx
        have heq : k = k' := hi
        omega
  case tupleVar.tupleVar =>
    subst hm
    simp [factorLt, setCoefficient, lt, ltBy] at h
  case symConst.symConst =>
    subst hm
    simp [factorLt, setCoefficient, lt, ltBy] at h
  case constVal.constVal => simp [factorLt, setCoefficient, lt] at h
  case tupleExp.tupleExp => simp [factorLt, setCoefficient, lt, hm] at h

/-- A term into which another has been merged stands where it stood. -/
structure Replaces (u' u : Term) : Prop where
  factorLt_left : ∀ v : Term, u'.factorLt v = u.factorLt v
  factorLt_right : ∀ v : Term, v.factorLt u' = v.factorLt u
  factorMatches : ∀ v : Term, u'.factorMatches v = u.factorMatches v

theorem replaces_setCoefficient (c : Int) (u : Term) : (u.setCoefficient c).Replaces u :=
  ⟨fun v => by simp, fun v => by simp, fun v => by simp⟩

theorem length_combineElems : ∀ {es es' : List Exp} {c k : Int}, (combineElems c k es es').length = es'.length
  | [], _, _, _ | _ :: _, [], _, _ => rfl
  | _ :: es, _ :: es', c, k => by
    rw [combineElems, List.length_cons, List.length_cons, length_combineElems]

theorem combineInto_spec (t u : Term) : (u.factorMatches t = false ∧ t.combineInto 1 u = none) ∨
    (u.factorMatches t = true ∧ ∃ u', t.combineInto 1 u = some u' ∧ u'.Replaces u) := by
  have hsimple : (u.factorMatches t = false ∧ combineSimple 1 t u = none) ∨
      (u.factorMatches t = true ∧ ∃ u', combineSimple 1 t u = some u' ∧ u'.Replaces u) := by
    unfold combineSimple
    split_ifs with h
    · exact .inr ⟨h, _, rfl, replaces_setCoefficient _ u⟩
    · exact .inl ⟨by simpa using h, rfl⟩
  cases t with
  | tupleExp c es =>
    cases u with
    | tupleExp c' es' =>
      have hcombine : (Term.tupleExp c es).combineInto 1 (.tupleExp c' es') =
        if es'.length = es.length then some (.tupleExp c' (combineElems c' (c * 1) es es')) else none := rfl
      rw [hcombine]
      by_cases hlen : es'.length = es.length
      · rw [if_pos hlen]
        refine .inr ⟨by simp [Term.factorMatches, hlen], _, rfl, fun v => ?_, fun v => ?_, fun v => ?_⟩
        · cases v <;> simp [factorLt, setCoefficient, lt, typeRank, length_combineElems]
        · cases v <;> simp [factorLt, setCoefficient, lt, typeRank, length_combineElems]
        · cases v <;> simp [Term.factorMatches, length_combineElems]
      · rw [if_neg hlen]
        exact .inl ⟨by simp [Term.factorMatches, hlen], rfl⟩
    | _ => exact hsimple
  | _ => exact hsimple

end Term

/-! ## One term -/

section Step

variable {ts : List Term} {t : Term}

theorem replaces_of_mem_insertTerm {x : Term} {ts : List Term} (h : x ∈ insertTerm (t.combineInto 1) t ts) :
    x = t ∨ ∃ u ∈ ts, x.Replaces u := by
  induction ts with
  | nil => exact .inl (List.mem_singleton.1 h)
  | cons u us ih =>
    have hself : ∀ {x}, x ∈ u :: us → x = t ∨ ∃ u' ∈ u :: us, Term.Replaces x u' := fun hx =>
      .inr ⟨_, hx, fun _ => rfl, fun _ => rfl, fun _ => rfl⟩
    rw [insertTerm] at h
    rcases Term.combineInto_spec t u with ⟨-, hc⟩ | ⟨-, u', hc, hr⟩
    · simp only [hc] at h
      split_ifs at h
      · exact (List.mem_cons.1 h).imp id hself |>.elim .inl id
      · rcases List.mem_cons.1 h with rfl | h
        · exact hself List.mem_cons_self
        · obtain rfl | ⟨v, hv, hx⟩ := ih h
          · exact .inl rfl
          · exact .inr ⟨v, List.mem_cons_of_mem _ hv, hx⟩
    · simp only [hc] at h
      split_ifs at h
      · exact hself (List.mem_cons_of_mem _ h)
      · rcases List.mem_cons.1 h with rfl | h
        · exact .inr ⟨u, List.mem_cons_self, hr⟩
        · exact hself (List.mem_cons_of_mem _ h)

/-- Adding a term keeps the terms in the order of their factors. -/
theorem sorted_addToTerms (hs : Sorted Term.factorLt ts) : Sorted Term.factorLt (addToTerms ts t) := by
  unfold addToTerms
  split_ifs
  · exact hs
  · induction ts with
    | nil => exact List.pairwise_singleton _ _
    | cons u us ih =>
      obtain ⟨hu, hus⟩ := List.pairwise_cons.1 hs
      rw [insertTerm]
      rcases Term.combineInto_spec t u with ⟨hm, hc⟩ | ⟨-, u', hc, hr⟩
      · simp only [hc]
        have hm' : t.factorMatches u = false := by rw [Term.factorMatches_comm, hm]
        split_ifs with hlt
        · have hfirst := Term.factorLt_of_lt hm' hlt
          refine List.pairwise_cons.2 ⟨List.forall_mem_cons.2 ⟨hfirst, fun v hv => ?_⟩, hs⟩
          exact Term.strictWeak_factorLt.trans hfirst (hu v hv)
        · have hlt' : u.factorLt t = true := by
            cases h₁ : u.factorLt t with
            | true => rfl
            | false =>
              cases h₂ : t.factorLt u with
              | true => exact absurd (Term.lt_of_factorLt h₂) hlt
              | false =>
                rw [Term.factorMatches_of_tied_factors ⟨h₁, h₂⟩] at hm
                cases hm
          refine List.pairwise_cons.2 ⟨fun x hx => ?_, ih hus⟩
          rcases replaces_of_mem_insertTerm hx with rfl | ⟨v, hv, hx⟩
          · exact hlt'
          · rw [hx.factorLt_right]
            exact hu v hv
      · simp only [hc]
        split_ifs
        · exact hus
        · exact List.pairwise_cons.2 ⟨fun v hv => by rw [hr.factorLt_left]; exact hu v hv, hus⟩

theorem nonzero_addToTerms (h : ∀ u ∈ ts, u.coefficient ≠ 0) : ∀ u ∈ addToTerms ts t, u.coefficient ≠ 0 := by
  unfold addToTerms
  split_ifs with h0
  · exact h
  · induction ts with
    | nil => simpa [insertTerm] using h0
    | cons u us ih =>
      obtain ⟨hu, hus⟩ := List.forall_mem_cons.1 h
      rw [insertTerm]
      cases t.combineInto 1 u with
      | some u' =>
        dsimp only
        split_ifs with hu'
        · exact hus
        · exact List.forall_mem_cons.2 ⟨hu', hus⟩
      | none =>
        dsimp only
        split_ifs
        · exact List.forall_mem_cons.2 ⟨h0, h⟩
        · exact List.forall_mem_cons.2 ⟨hu, ih hus⟩

/-- Terms that match end up beside each other just where the new one passes by the old one. -/
theorem apart_insertTerm_iff (hp : ts.Pairwise (fun t u => t.factorMatches u = false)) :
    (insertTerm (t.combineInto 1) t ts).Pairwise (fun t u => t.factorMatches u = false) ↔
      ¬ ∃ pre u post, ts = pre ++ u :: post ∧ u.factorMatches t = true ∧ ∃ v ∈ pre, t.lt v = true := by
  induction ts with
  | nil => exact ⟨fun _ ⟨pre, u, post, h, _⟩ => by simp at h, fun _ => List.pairwise_singleton _ _⟩
  | cons w ws ih =>
    obtain ⟨hw, hws⟩ := List.pairwise_cons.1 hp
    rw [insertTerm]
    rcases Term.combineInto_spec t w with ⟨hm, hc⟩ | ⟨hm, w', hc, hr⟩
    · simp only [hc]
      have hm' : t.factorMatches w = false := by rw [Term.factorMatches_comm, hm]
      split_ifs with hlt
      · -- the new term goes before `w`, and one that matches would stand behind it
        constructor
        · rintro h ⟨pre, u, post, hws', hu, -⟩
          have hmem : u ∈ w :: ws := by rw [hws']; exact List.mem_append_right _ List.mem_cons_self
          have := (List.pairwise_cons.1 h).1 u hmem
          rw [Term.factorMatches_comm, hu] at this
          cases this
        · intro h
          refine List.pairwise_cons.2 ⟨List.forall_mem_cons.2 ⟨hm', fun u hu => ?_⟩, hp⟩
          by_contra hne
          obtain ⟨pre, post, rfl⟩ := List.append_of_mem hu
          refine h ⟨w :: pre, u, post, rfl, ?_, w, List.mem_cons_self, hlt⟩
          rw [Term.factorMatches_comm]
          simpa using hne
      · have hrest : ∀ x ∈ insertTerm (t.combineInto 1) t ws, w.factorMatches x = false := by
          intro x hx
          rcases replaces_of_mem_insertTerm hx with rfl | ⟨u, hu, hx⟩
          · exact hm
          · rw [Term.factorMatches_comm, hx.factorMatches, Term.factorMatches_comm]
            exact hw u hu
        rw [List.pairwise_cons, and_iff_right hrest, ih hws, not_iff_not]
        constructor
        · rintro ⟨pre, u, post, rfl, hu, v, hv, hlt⟩
          exact ⟨w :: pre, u, post, rfl, hu, v, List.mem_cons_of_mem _ hv, hlt⟩
        · rintro ⟨pre, u, post, hws', hu, v, hv, hv'⟩
          cases pre with
          | nil => cases hv
          | cons w' pre =>
            obtain ⟨rfl, rfl⟩ := List.cons.inj hws'
            rcases List.mem_cons.1 hv with rfl | hv
            · exact absurd hv' hlt
            · exact ⟨pre, u, post, rfl, hu, v, hv, hv'⟩
    · simp only [hc]
      have hnot : ¬ ∃ pre u post, w :: ws = pre ++ u :: post ∧ u.factorMatches t = true ∧ ∃ v ∈ pre, t.lt v = true := by
        rintro ⟨pre, u, post, hws', hu, v, hv, -⟩
        cases pre with
        | nil => cases hv
        | cons w' pre =>
          obtain ⟨rfl, rfl⟩ := List.cons.inj hws'
          have hwu := hw u (List.mem_append_right _ List.mem_cons_self)
          rw [Term.factorMatches_congr hm, Term.factorMatches_comm, hu] at hwu
          cases hwu
      refine iff_of_true ?_ hnot
      split_ifs
      · exact hws
      · exact List.pairwise_cons.2 ⟨fun v hv => by rw [hr.factorMatches]; exact hw v hv, hws⟩

end Step

namespace Exp

theorem normal_empty (k : ExpType) : (Exp.mk k []).Normal := ⟨.nil, .nil, fun _ h => absurd h List.not_mem_nil⟩

variable {e : Exp} {t : Term}

theorem Normal.sortedFactors (h : e.Normal) : Sorted Term.factorLt e.terms :=
  (h.sorted.and h.apart).imp fun ⟨hlt, hm⟩ => Term.factorLt_of_lt hm hlt

/-- One term is added to a normal expression. -/
theorem normal_addTerm_iff (h : e.Normal) : (e.addTerm t).Normal ↔ ¬ e.PassesBy t := by
  have hsorted := sorted_addToTerms (t := t) h.sortedFactors
  have hnonzero := nonzero_addToTerms (t := t) h.nonzero
  rw [← terms_addTerm_eq] at hsorted hnonzero
  have hapart : (e.addTerm t).terms.Pairwise (fun t u => t.factorMatches u = false) ↔ ¬ e.PassesBy t := by
    rw [terms_addTerm_eq, addToTerms]
    split_ifs with h0
    · exact iff_of_true h.apart fun hp => hp.1 h0
    · rw [apart_insertTerm_iff h.apart, PassesBy, and_iff_right h0]
  rw [← hapart]
  exact ⟨Normal.apart, fun ha => ⟨hsorted.imp Term.lt_of_factorLt, ha, hnonzero⟩⟩

theorem summed_append (us : List Term) (t : Term) : summed (us ++ [t]) = (summed us).addTerm t := by
  unfold summed
  rw [List.foldl_append]
  rfl

/-- The expressions on the way are normal just where no term passes by one to merge with. -/
theorem normal_summed_iff (ts : List Term) : (∀ us, us <+: ts → (summed us).Normal) ↔
    ∀ us t, us ++ [t] <+: ts → ¬ (summed us).PassesBy t := by
  constructor
  · intro h us t hus
    have hall := h _ hus
    rw [summed_append, normal_addTerm_iff (h us ((List.prefix_append us [t]).trans hus))] at hall
    exact hall
  · intro h us
    induction us using List.reverseRecOn with
    | nil => exact fun _ => normal_empty _
    | append_singleton us t ih =>
      intro hus
      rw [summed_append, normal_addTerm_iff (ih ((List.prefix_append us [t]).trans hus))]
      exact h us t hus

/-- What is passed by is a call with index 0, by the call without an index. -/
theorem PassesBy.indexed (h : e.PassesBy t) (hn : e.Normal) : t.isIndexed = false ∧
    ∃ u ∈ e.terms, u.factorMatches t = true ∧ u.isIndexed = true := by
  obtain ⟨-, pre, u, post, hterms, hu, v, hv, hlt⟩ := h
  have hsorted := hn.sortedFactors
  have hapart := hn.apart
  rw [hterms, List.pairwise_append] at hapart
  rw [hterms, Sorted, List.pairwise_append] at hsorted
  have hvu : v.factorLt u = true := hsorted.2.2 v hv u List.mem_cons_self
  have hvt : t.factorMatches v = false := by
    have hm := hapart.2.2 v hv u List.mem_cons_self
    rw [Term.factorMatches_comm, Term.factorMatches_congr hu] at hm
    exact hm
  have htu := Term.strictWeak_factorLt.trans (Term.factorLt_of_lt hvt hlt) hvu
  rw [Term.factorMatches_comm] at hu
  obtain ⟨ht, hui⟩ := Term.isIndexed_of_factorLt hu htu
  refine ⟨ht, u, ?_, Term.factorMatches_comm t u ▸ hu, hui⟩
  rw [hterms]
  exact List.mem_append_right _ List.mem_cons_self

end Exp

/-! ## Orders of adding -/

/-- No two of the terms are one call, with an index and without. -/
def Agreeing (ts : List Term) : Prop := ∀ t ∈ ts, ∀ u ∈ ts, t.factorMatches u = true → t.isIndexed = u.isIndexed

/-- The coefficients of the terms with the factor of `z`. -/
def totalCoefficient (z : Term) (ts : List Term) : Int := ((ts.filter z.factorMatches).map Term.coefficient).sum

section Total

variable {z t : Term} {ts us vs : List Term}

theorem totalCoefficient_cons (z t : Term) (ts : List Term) : totalCoefficient z (t :: ts) =
    (if z.factorMatches t then t.coefficient else 0) + totalCoefficient z ts := by
  unfold totalCoefficient
  rw [List.filter_cons]
  split_ifs
  · rfl
  · exact (zero_add _).symm

theorem totalCoefficient_perm (z : Term) (h : us.Perm vs) : totalCoefficient z us = totalCoefficient z vs :=
  ((h.filter _).map _).sum_eq

theorem totalCoefficient_insertTerm (z : Term) (ts : List Term) :
    totalCoefficient z (insertTerm (combineSimple 1 t) t ts) =
      (if z.factorMatches t then t.coefficient else 0) + totalCoefficient z ts := by
  induction ts with
  | nil => exact totalCoefficient_cons z t []
  | cons u us ih =>
    rw [insertTerm]
    by_cases hm : u.factorMatches t = true
    · have hc : combineSimple 1 t u = some (u.setCoefficient (u.coefficient + t.coefficient)) := by
        rw [combineSimple, if_pos hm, mul_one]
      have hz : z.factorMatches t = z.factorMatches u := by
        rw [Term.factorMatches_comm z u, Term.factorMatches_congr hm, Term.factorMatches_comm]
      simp only [hc, Term.coefficient_setCoefficient]
      rw [totalCoefficient_cons, hz]
      split_ifs with h0 hzu hzu
      · omega
      · omega
      · rw [totalCoefficient_cons, Term.factorMatches_setCoefficient_right, if_pos hzu, Term.coefficient_setCoefficient]
        ring
      · rw [totalCoefficient_cons, Term.factorMatches_setCoefficient_right, if_neg hzu]
        ring
    · have hc : combineSimple 1 t u = none := if_neg hm
      simp only [hc]
      split_ifs with hlt hz hz
      · rw [totalCoefficient_cons, if_pos hz]
      · rw [totalCoefficient_cons, if_neg hz]
      · rw [totalCoefficient_cons, ih, if_pos hz, totalCoefficient_cons]
        ring
      · rw [totalCoefficient_cons, ih, if_neg hz, totalCoefficient_cons]
        ring

theorem totalCoefficient_addOne (z : Term) (ts : List Term) (t : Term) : totalCoefficient z (addOne ts t) =
    (if z.factorMatches t then t.coefficient else 0) + totalCoefficient z ts := by
  unfold addOne
  split_ifs with h0 hz
  · rw [h0, zero_add]
  · exact (zero_add _).symm
  · rw [totalCoefficient_insertTerm, if_pos ‹_›]
  · rw [totalCoefficient_insertTerm, if_neg ‹_›]

/-- Adding terms adds their coefficients, factor by factor. -/
theorem totalCoefficient_foldl (z : Term) (us ts : List Term) :
    totalCoefficient z (us.foldl addOne ts) = totalCoefficient z us + totalCoefficient z ts := by
  induction us generalizing ts with
  | nil => exact (zero_add _).symm
  | cons u us ih =>
    rw [List.foldl_cons, ih, totalCoefficient_addOne, totalCoefficient_cons]
    ring

/-- In a list where no two terms match, a factor has the coefficient of its term. -/
theorem totalCoefficient_eq (hp : ts.Pairwise (fun t u => t.factorMatches u = false)) {x : Term} (hx : x ∈ ts)
    (hz : z.factorMatches x = true) : totalCoefficient z ts = x.coefficient := by
  obtain ⟨pre, post, rfl⟩ := List.append_of_mem hx
  obtain ⟨hpre, hrest, hacross⟩ := List.pairwise_append.1 hp
  have hnone : ∀ {l : List Term}, (∀ u ∈ l, x.factorMatches u = false) → l.filter z.factorMatches = [] := by
    intro l hl
    refine List.filter_eq_nil_iff.2 fun u hu => ?_
    rw [Term.factorMatches_congr hz, hl u hu]
    exact Bool.false_ne_true
  have hbefore := hnone (l := pre) fun u hu => by
    rw [Term.factorMatches_comm]
    exact hacross u hu x List.mem_cons_self
  have hbehind := hnone (List.pairwise_cons.1 hrest).1
  rw [totalCoefficient, List.filter_append, List.filter_cons, if_pos hz, hbefore, hbehind]
  exact add_zero _

theorem exists_of_totalCoefficient_ne_zero (h : totalCoefficient z ts ≠ 0) : ∃ x ∈ ts, z.factorMatches x = true := by
  by_contra hno
  have hnil : ts.filter z.factorMatches = [] := List.filter_eq_nil_iff.2 fun x hx hz => hno ⟨x, hx, hz⟩
  rw [totalCoefficient, hnil] at h
  exact h rfl

end Total

section Orders

variable {us vs : List Term}

/-- A property of terms that does not look at coefficients, and the terms of a sum. -/
theorem exists_added (hu : ∀ u ∈ us, u.isTupleExp = false) : ∀ x ∈ (Exp.summed us).terms,
    x.isTupleExp = false ∧ ∃ u ∈ us, x.factorMatches u = true ∧ x.isIndexed = u.isIndexed := by
  rw [Exp.terms_summed, ← termsAddInto_eq_foldl, termsAddInto_one hu]
  refine forall_foldl_addOne (P := fun x => x.isTupleExp = false ∧ ∃ u ∈ us, x.factorMatches u = true ∧
    x.isIndexed = u.isIndexed) ?_ (fun u hmem => ⟨hu u hmem, u, hmem, u.factorMatches_refl, rfl⟩)
    fun _ h => absurd h List.not_mem_nil
  rintro c x ⟨hx, u, hmem, hm, hi⟩
  refine ⟨by rw [Term.setCoefficient_isTupleExp]; exact hx, u, hmem, ?_, ?_⟩
  · rw [Term.factorMatches_setCoefficient_left]
    exact hm
  · rw [← hi]
    cases x <;> rfl

/-- No term passes by another, where no two are one call in both notations. -/
theorem normal_of_agreeing (hu : ∀ u ∈ us, u.isTupleExp = false) (ha : Agreeing us) : (Exp.summed us).Normal := by
  induction us using List.reverseRecOn with
  | nil => exact Exp.normal_empty _
  | append_singleton us t ih =>
    have hus : ∀ u ∈ us, u ∈ us ++ [t] := fun u h => List.mem_append_left _ h
    have hn := ih (fun u h => hu u (hus u h)) fun u h v h' => ha u (hus u h) v (hus v h')
    rw [Exp.summed_append, Exp.normal_addTerm_iff hn]
    intro hp
    obtain ⟨ht, x, hx, hxt, hxi⟩ := hp.indexed hn
    obtain ⟨-, u, hmem, hxu, hi⟩ := exists_added (fun u h => hu u (hus u h)) x hx
    rw [Term.factorMatches_congr hxu] at hxt
    have heq := ha u (hus u hmem) t (List.mem_append_right _ (List.mem_singleton_self t)) hxt
    rw [← hi, hxi, ht] at heq
    cases heq

theorem tied_of_factorMatches {x y : Term} (hx : x.isTupleExp = false) (hm : x.factorMatches y = true)
    (hi : x.isIndexed = y.isIndexed) (hc : x.coefficient = y.coefficient) : Tied Term.lt x y := by
  cases x <;> cases y <;> simp only [Term.factorMatches, Bool.and_eq_true, beq_iff_eq, reduceCtorEq] at hm
  case ufCall.ufCall c f as i c' f' as' i' =>
    obtain ⟨⟨rfl, hidx⟩, has⟩ := hm
    obtain rfl : c = c' := hc
    obtain rfl : i = i' := by
      cases i <;> cases i' <;> first | rfl | exact congrArg some hidx | cases hi
    simp [Tied, Term.lt, Term.ltBy, has]
  case tupleVar.tupleVar c l c' l' =>
    obtain rfl : c = c' := hc
    simp [Tied, Term.lt, Term.ltBy, hm]
  case symConst.symConst c s c' s' =>
    obtain rfl : c = c' := hc
    simp [Tied, Term.lt, Term.ltBy, hm]
  case constVal.constVal c c' =>
    obtain rfl : c = c' := hc
    simp [Tied, Term.lt]
  case tupleExp.tupleExp => cases hx

theorem exists_tied_of_perm (hu : ∀ u ∈ us, u.isTupleExp = false) (hp : us.Perm vs) (ha : Agreeing us) {x : Term}
    (hx : x ∈ (Exp.summed us).terms) : ∃ y ∈ (Exp.summed vs).terms, Tied Term.lt x y := by
  have hv : ∀ v ∈ vs, v.isTupleExp = false := fun v h => hu v (hp.mem_iff.2 h)
  have hav : Agreeing vs := fun u h v h' => ha u (hp.mem_iff.2 h) v (hp.mem_iff.2 h')
  have hn := normal_of_agreeing hu ha
  have hnv := normal_of_agreeing hv hav
  have htotal : ∀ {ws}, (∀ w ∈ ws, Term.isTupleExp w = false) →
      totalCoefficient x (Exp.summed ws).terms = totalCoefficient x ws := by
    intro ws hws
    rw [Exp.terms_summed, ← termsAddInto_eq_foldl, termsAddInto_one hws, totalCoefficient_foldl]
    exact add_zero _
  have hsame : totalCoefficient x (Exp.summed vs).terms = x.coefficient := by
    rw [htotal hv, ← totalCoefficient_perm x hp, ← htotal hu]
    exact totalCoefficient_eq hn.apart hx x.factorMatches_refl
  obtain ⟨y, hy, hxy⟩ := exists_of_totalCoefficient_ne_zero (hsame.trans_ne (hn.nonzero x hx))
  obtain ⟨hxs, u, hmem, hxu, hxi⟩ := exists_added hu x hx
  obtain ⟨-, v, hmem', hyv, hyi⟩ := exists_added hv y hy
  have huv : u.factorMatches v = true := by
    rw [← Term.factorMatches_congr hxu, Term.factorMatches_congr hxy, hyv]
  refine ⟨y, hy, tied_of_factorMatches hxs hxy ?_ ?_⟩
  · rw [hxi, hyi]
    exact ha u hmem v (hp.mem_iff.2 hmem') huv
  · rw [← hsame]
    exact totalCoefficient_eq hnv.apart hy hxy

/-- Scalar terms give equal expressions in any order. -/
theorem eq_summed_of_perm (hu : ∀ u ∈ us, u.isTupleExp = false) (hp : us.Perm vs) (ha : Agreeing us) :
    (Exp.summed us).eq (Exp.summed vs) = true := by
  have hv : ∀ v ∈ vs, v.isTupleExp = false := fun v h => hu v (hp.mem_iff.2 h)
  have hav : Agreeing vs := fun u h v h' => ha u (hp.mem_iff.2 h) v (hp.mem_iff.2 h')
  rw [eq_iff_tied, tied_exp]
  refine SortedList.forall₂_tied_of_sorted Term.strictWeak_lt (normal_of_agreeing hu ha).sorted
    (normal_of_agreeing hv hav).sorted ⟨fun x hx => exists_tied_of_perm hu hp ha hx, fun y hy => ?_⟩
  obtain ⟨x, hx, hyx⟩ := exists_tied_of_perm hv hp.symm hav hy
  exact ⟨x, hx, hyx.symm⟩

end Orders

/-- Where no call passes by itself in the other notation, the expressions on the way are normal; where no two of the scalar
terms are one call in both notations, their order does not matter. -/
theorem built_normal (as bs : List Addition) :
    (Exp.built as = Exp.summed (as.flatMap Addition.terms) ∧
      ((∀ ts, ts <+: as.flatMap Addition.terms → (Exp.summed ts).Normal) ↔
        ∀ ts t, ts ++ [t] <+: as.flatMap Addition.terms → ¬ (Exp.summed ts).PassesBy t)) ∧
    ((∀ t ∈ as.flatMap Addition.terms, t.isTupleExp = false) → Agreeing (as.flatMap Addition.terms) →
      (as.flatMap Addition.terms).Perm (bs.flatMap Addition.terms) →
        (Exp.built as).Normal ∧ (Exp.built as).eq (Exp.built bs) = true) := by
  refine ⟨⟨Exp.built_eq_summed as, Exp.normal_summed_iff _⟩, fun hs ha hp => ?_⟩
  rw [Exp.built_eq_summed, Exp.built_eq_summed]
  exact ⟨normal_of_agreeing hs ha, eq_summed_of_perm hs hp ha⟩

/-- A call of `f` with a symbolic constant. -/
def callOn (s : String) (i : Option Nat) : Term := .ufCall 1 "f" [.ofTerm (.symConst 1 s)] i

/-- `f(x)` is put before `f(a)[0]` and so beside `f(x)[0]`; and the first of the two in the list keeps its notation. -/
theorem built_mixes :
    ¬ (Exp.built [.addTerm (callOn "a" (some 0)), .addTerm (callOn "x" (some 0)), .addTerm (callOn "x" none)]).Normal ∧
    (Exp.built [.addTerm (callOn "x" none), .addTerm (callOn "x" (some 0))]).eq
      (Exp.built [.addTerm (callOn "x" (some 0)), .addTerm (callOn "x" none)]) = false := by
  refine ⟨fun h => absurd h.apart (by decide), by decide⟩

theorem built_normal_callOn :
    (Exp.built [.addTerm (callOn "x" (some 0)), .addExp (.mk .expression [.tupleVar 1 0, callOn "a" (some 0)])]).Normal ∧
    (Exp.built [.addTerm (callOn "x" (some 0)), .addExp (.mk .expression [.tupleVar 1 0, callOn "a" (some 0)])]).eq
      (Exp.built [.addTerm (callOn "a" (some 0)), .addTerm (callOn "x" (some 0)), .addTerm (.tupleVar 1 0)]) = true := by
  refine (built_normal _ _).2 (by decide) (by unfold Agreeing; decide) ?_
  show ([callOn "x" (some 0), .tupleVar 1 0] ++ [callOn "a" (some 0)]).Perm
    ([callOn "a" (some 0)] ++ [callOn "x" (some 0), .tupleVar 1 0])
  exact List.perm_append_comm

end IEGen
