import IEGen.Copies
import IEGen.Restored

/-!
# Linear readings

A constraint says something as soon as its terms are read as sequences of integers, linearly in the coefficient and alike
for factors that match (`Linear`): the value of a term under an interpretation is one such reading, but the terms of one
constraint may also be read at different tuples. What the operations do to constraints, they do for every reading:

- terms that are replaced and added up anew say the same (`holdsBy_mapTerms`), and so do terms that are changed in place
  (`holdsBy_changeTerms`);
- a union that is built in order says the same (`tuplesBy_build`), and what `addConjunction` keeps of it says the same iff
  nothing is lost (`tuplesBy_kept_iff`).
-/

namespace IEGen

open SortedList (Tied build)

/-- A reading of the terms in `P`, which are no tuples and stay in `P` when they are scaled. -/
structure Linear (P : Term → Prop) (ev : Term → Nat → Int) : Prop where
  simple : ∀ {t}, P t → t.isTupleExp = false
  setCoefficient : ∀ (c : Int) {t}, P t → P (t.setCoefficient c)
  scale : ∀ {t}, P t → ∀ c k, ev (t.setCoefficient c) k = c * ev (t.setCoefficient 1) k
  matched : ∀ {t u}, P t → P u → t.factorMatches u = true → ∀ k, ev (t.setCoefficient 1) k = ev (u.setCoefficient 1) k

/-- What the terms of a constraint are read as together. -/
def total (ev : Term → Nat → Int) (ts : List Term) (k : Nat) : Int := (ts.map fun t => ev t k).sum

theorem total_nil (ev : Term → Nat → Int) (k : Nat) : total ev [] k = 0 := rfl

theorem total_cons (ev : Term → Nat → Int) (t : Term) (ts : List Term) (k : Nat) :
    total ev (t :: ts) k = ev t k + total ev ts k := by
  rw [total, List.map_cons, List.sum_cons, total]

theorem total_append (ev : Term → Nat → Int) (ts us : List Term) (k : Nat) :
    total ev (ts ++ us) k = total ev ts k + total ev us k := by
  rw [total, List.map_append, List.sum_append, total, total]

/-- The constraints of a conjunction hold in a reading. -/
def Conjunction.HoldsBy (ev : Term → Nat → Int) (c : Conjunction) : Prop :=
  (∀ e ∈ c.equalities, ∀ k, total ev e.terms k = 0) ∧ ∀ e ∈ c.inequalities, ∀ k, 0 ≤ total ev e.terms k

/-- The tuples of a union, where each tuple comes with a reading. -/
def tuplesBy (E : List Int → Term → Nat → Int) (cs : List Conjunction) : IntTuples :=
  {t | ∃ c ∈ cs, c.tupleDecl.Admits t ∧ c.HoldsBy (E t)}

/-! ## Values are linear readings -/

section Values

variable {I : Interp} {τ : Nat → Int}

theorem total_val (ts : List Term) (k : Nat) : total (Term.val I τ) ts k = termsVal I τ ts k := by
  induction ts with
  | nil => rfl
  | cons t ts ih => rw [total_cons, termsVal_cons, ih]

theorem holdsBy_val {c : Conjunction} : c.HoldsBy (Term.val I τ) ↔ c.Holds I τ := by
  unfold Conjunction.HoldsBy Conjunction.Holds Exp.HoldsEq Exp.HoldsGe
  simp only [Exp.val_eq, total_val]

theorem mem_tuplesBy_val {J : List Int → Interp} {cs : List Conjunction} {t : List Int} :
    t ∈ tuplesBy (fun t => Term.val (J t) (valuation t)) cs ↔ t ∈ denoteUnion (J t) cs :=
  exists_congr fun _ => and_congr_right fun _ => and_congr_right fun _ => holdsBy_val

theorem tuplesBy_val (cs : List Conjunction) : tuplesBy (fun t => Term.val I (valuation t)) cs = denoteUnion I cs :=
  Set.ext fun _ => mem_tuplesBy_val (J := fun _ => I)

/-- No tuple, and a call only where it can be read back and stands for an integer. -/
def Addable (cod : String → Nat) (t : Term) : Prop :=
  t.isTupleExp = false ∧ (t.isUFCall = true → Mergeable cod false t)

theorem addable_leaf {cod : String → Nat} {t : Term} (h : IsLeaf t) : Addable cod t :=
  ⟨h.1, fun hcall => absurd (h.2.symm.trans hcall) Bool.false_ne_true⟩

theorem addable_mergeable {cod : String → Nat} {t : Term} (h : Mergeable cod false t) : Addable cod t :=
  ⟨isTupleExp_of_readable h.1, fun _ => h⟩

theorem Addable.setCoefficient {cod : String → Nat} {t : Term} (c : Int) (h : Addable cod t) : Addable cod (t.setCoefficient c) := by
  refine ⟨by rw [Term.setCoefficient_isTupleExp]; exact h.1, fun hcall => (h.2 ?_).setCoefficient c⟩
  cases t <;> exact hcall

theorem Addable.val_of_factorMatches {t u : Term} (ht : Addable I.cod t) (hu : Addable I.cod u)
    (hm : t.factorMatches u = true) (k : Nat) :
    (t.setCoefficient 1).val I τ k = (u.setCoefficient 1).val I τ k := by
  cases hcall : t.isUFCall with
  | true =>
    have hcall' : u.isUFCall = true := by
      cases t <;> cases u <;> first | rfl | exact absurd hcall Bool.false_ne_true | exact absurd hm Bool.false_ne_true
    obtain ⟨hr, hs⟩ := ht.2 hcall
    obtain ⟨hr', hs'⟩ := hu.2 hcall'
    exact Term.val_of_factorMatches hr hr' hs hs' hm k
  | false =>
    cases t <;> cases u <;> simp [Term.factorMatches, Term.isUFCall] at hm hcall
    case tupleVar.tupleVar => rw [hm]; rfl
    case symConst.symConst => rw [hm]; rfl
    case constVal.constVal => rfl
    case tupleExp.tupleExp => cases ht.1

/-- The values of addable terms are a linear reading. -/
theorem linear_val (I : Interp) (τ : Nat → Int) : Linear (Addable I.cod) (Term.val I τ) :=
  ⟨fun h => h.1, fun c _ h => h.setCoefficient c, fun _ c k => Term.val_setCoefficient c _ k,
    fun ht hu hm k => ht.val_of_factorMatches hu hm k⟩

theorem addable_of_readable {c : Conjunction} (hr : c.readable = true) {cod : String → Nat}
    (hu : ∀ t ∈ c.terms, t.UsedAs cod false) : ∀ t ∈ c.terms, Addable cod t := by
  intro t ht
  obtain ⟨heqs, hineqs⟩ := Conjunction.readable_iff.1 hr
  obtain ⟨e, he, hte⟩ := List.mem_flatMap.1 ht
  rcases List.mem_append.1 he with he | he
  · exact addable_mergeable ⟨Exp.readable_iff.1 (heqs e he) t hte, hu t ht⟩
  · exact addable_mergeable ⟨Exp.readable_iff.1 (hineqs e he) t hte, hu t ht⟩

end Values

/-! ## Sums of terms -/

section Sums

variable {P : Term → Prop} {ev ev' : Term → Nat → Int} {φ : Term → Term} {e : Exp}

namespace Linear

theorem of_coefficient (h : Linear P ev) {t : Term} (ht : P t) (k : Nat) :
    ev t k = t.coefficient * ev (t.setCoefficient 1) k := by
  rw [← h.scale ht, Term.setCoefficient_self]

theorem of_zero (h : Linear P ev) {t : Term} (ht : P t) (h0 : t.coefficient = 0) (k : Nat) : ev t k = 0 := by
  rw [h.of_coefficient ht, h0, zero_mul]

theorem multiplyBy (h : Linear P ev) {t : Term} (ht : P t) (c : Int) (k : Nat) : ev (t.multiplyBy c) k = ev t k * c := by
  rw [Term.multiplyBy, h.scale ht, h.of_coefficient ht]
  ring

/-- Terms that neither comes before the other are read alike. -/
theorem of_tied (h : Linear P ev) {t u : Term} (ht : P t) (hu : P u) (htu : Tied Term.lt t u) (k : Nat) : ev t k = ev u k := by
  obtain ⟨hm, hc⟩ := factorMatches_of_tied htu (h.simple ht)
  rw [h.of_coefficient ht, h.of_coefficient hu, hc, h.matched ht hu hm]

theorem total_of_tied (h : Linear P ev) {ts us : List Term} (ht : ∀ t ∈ ts, P t) (hu : ∀ u ∈ us, P u)
    (htu : List.Forall₂ (Tied Term.lt) ts us) (k : Nat) : total ev ts k = total ev us k := by
  induction htu with
  | nil => rfl
  | cons htied _ ih =>
    obtain ⟨ht, hts⟩ := List.forall_mem_cons.1 ht
    obtain ⟨hu, hus⟩ := List.forall_mem_cons.1 hu
    rw [total_cons, total_cons, h.of_tied ht hu htied, ih hts hus]

/-- The walk of `addTerm` adds what the new term is read as. -/
theorem total_insertTerm (h : Linear P ev) {ts : List Term} {t : Term} (hts : ∀ u ∈ ts, P u) (ht : P t) (k : Nat) :
    total ev (insertTerm (combineSimple 1 t) t ts) k = total ev ts k + ev t k := by
  induction ts with
  | nil =>
    rw [insertTerm, total_cons, total_nil]
    omega
  | cons u us ih =>
    obtain ⟨hu, hus⟩ := List.forall_mem_cons.1 hts
    rw [insertTerm]
    by_cases hm : u.factorMatches t = true
    · have hc : combineSimple 1 t u = some (u.setCoefficient (u.coefficient + t.coefficient)) := by
        simp [combineSimple, hm]
      have hv : ev (u.setCoefficient (u.coefficient + t.coefficient)) k = ev u k + ev t k := by
        rw [h.scale hu, h.of_coefficient hu, h.of_coefficient ht, h.matched hu ht hm]
        ring
      simp only [hc]
      split_ifs with h0
      · rw [h.of_zero (h.setCoefficient _ hu) h0] at hv
        rw [total_cons]
        omega
      · rw [total_cons, total_cons, hv]
        omega
    · have hc : combineSimple 1 t u = none := by simp [combineSimple, hm]
      simp only [hc]
      split_ifs
      · rw [total_cons]
        omega
      · rw [total_cons, total_cons, ih hus]
        omega

theorem total_addOne (h : Linear P ev) {ts : List Term} {t : Term} (hts : ∀ u ∈ ts, P u) (ht : P t) (k : Nat) :
    total ev (addOne ts t) k = total ev ts k + ev t k := by
  unfold addOne
  split_ifs with h0
  · rw [h.of_zero ht h0, add_zero]
  · exact h.total_insertTerm hts ht k

/-- A sum of terms is read as the sum of what they are read as. -/
theorem total_foldl_addOne (h : Linear P ev) {us l : List Term} (hu : ∀ u ∈ us, P u) (ha : ∀ t ∈ l, P t) (k : Nat) :
    total ev (us.foldl addOne l) k = total ev l k + total ev us k ∧ ∀ t ∈ us.foldl addOne l, P t := by
  induction us generalizing l with
  | nil => exact ⟨(add_zero _).symm, ha⟩
  | cons u us ih =>
    obtain ⟨hu, hus⟩ := List.forall_mem_cons.1 hu
    obtain ⟨hsum, hP⟩ := ih hus (forall_addOne (fun c t ht => h.setCoefficient c ht) hu ha)
    refine ⟨?_, hP⟩
    rw [List.foldl_cons, hsum, h.total_addOne ha hu, total_cons, add_assoc]

theorem total_map (hv : ∀ t ∈ e.terms, ∀ k, ev' (φ t) k = ev t k) (k : Nat) :
    total ev' (e.terms.map φ) k = total ev e.terms k := by
  rw [total, total, List.map_map]
  exact congrArg List.sum (List.map_congr_left fun t ht => hv t ht k)

/-- Terms that are replaced and added up anew are read as before. -/
theorem total_mapTerms (h : Linear P ev') (hP : ∀ t ∈ e.terms, P (φ t)) (hv : ∀ t ∈ e.terms, ∀ k, ev' (φ t) k = ev t k)
    (k : Nat) : total ev' (e.mapTerms φ).terms k = total ev e.terms k ∧ ∀ t ∈ (e.mapTerms φ).terms, P t := by
  have hmap : ∀ u ∈ e.terms.map φ, P u := by
    intro u hu
    obtain ⟨t, ht, rfl⟩ := List.mem_map.1 hu
    exact hP t ht
  rw [mapTerms_eq fun t ht => h.simple (hP t ht), Exp.terms_mk]
  obtain ⟨hsum, hall⟩ := h.total_foldl_addOne (l := []) hmap (by simp) k
  exact ⟨by rw [hsum, total_nil, zero_add, total_map hv], hall⟩

theorem total_multiplyBy (h : Linear P ev) (he : ∀ t ∈ e.terms, P t) (c : Int) (k : Nat) :
    total ev (e.multiplyBy c).terms k = total ev e.terms k * c := by
  rw [Exp.terms_multiplyBy]
  generalize e.terms = ts at he
  induction ts with
  | nil => simp [total_nil]
  | cons t ts ih =>
    obtain ⟨ht, hts⟩ := List.forall_mem_cons.1 he
    rw [List.map_cons, total_cons, total_cons, h.multiplyBy ht, ih hts, add_mul]

theorem total_of_equalsZero (h : Linear P ev) (he : ∀ t ∈ e.terms, P t) (hz : e.equalsZero = true) (k : Nat) :
    total ev e.terms k = 0 := by
  simp only [Exp.equalsZero] at hz
  split at hz
  · next hn => rw [hn, total_nil]
  · next t ht =>
    rw [ht] at he ⊢
    rw [total_cons, total_nil, h.of_zero (he t List.mem_cons_self) (by simpa using hz), add_zero]
  · cases hz

/-- A normalized expression is read as zero where the expression is. -/
theorem normalizeForEquality_iff (h : Linear P ev) (he : ∀ t ∈ e.terms, P t) :
    (∀ k, total ev e.normalizeForEquality.terms k = 0) ↔ ∀ k, total ev e.terms k = 0 := by
  obtain ⟨s, hs, z, hz, h0⟩ := e.normalizeForEquality_spec
  refine forall_congr' fun k => ?_
  have hP : ∀ t ∈ (e.multiplyBy s).terms, P t := by
    intro t ht
    obtain ⟨u, hu, rfl⟩ := List.mem_map.1 ht
    exact h.setCoefficient _ (he u hu)
  have hzero : total ev z k = 0 := by
    rw [hz] at hP
    refine List.sum_eq_zero fun x hx => ?_
    obtain ⟨t, ht, rfl⟩ := List.mem_map.1 hx
    exact h.of_zero (hP t (List.mem_append_right _ ht)) (h0 t ht) k
  have hsum := h.total_multiplyBy he s k
  rw [hz, total_append, hzero, add_zero] at hsum
  rw [hsum]
  rcases hs with rfl | rfl <;> omega

end Linear

end Sums

/-! ## Constraints -/

section Constraints

variable {P : Term → Prop} {ev ev' : Term → Nat → Int} {φ : Term → Term}

/-- What holds of the elements that stay holds of all, where it holds alike of elements that neither comes before the
other. -/
theorem forall_build_iff {α : Type*} {lt : α → α → Bool} {Q : α → Prop} {l : List α}
    (hQ : ∀ x ∈ l, ∀ y ∈ l, Tied lt x y → Q y → Q x) : (∀ x ∈ build lt l, Q x) ↔ ∀ x ∈ l, Q x := by
  refine ⟨fun h x hx => ?_, fun h x hx => h x (SortedList.mem_of_mem_build hx)⟩
  rcases SortedList.build_covers lt hx with hb | ⟨y, hy, ht⟩
  · exact h x hb
  · exact hQ x hx y (SortedList.mem_of_mem_build hy) ht (h y hy)

theorem Linear.terms_asEquality (h : Linear P ev) {e d : Exp} (he : ∀ t ∈ e.terms, P t) (hd : d ∈ e.asEquality) :
    ∀ t ∈ d.terms, P t := by
  rw [Exp.eq_of_mem_asEquality hd]
  intro t ht
  rw [Exp.terms_setEquality] at ht
  obtain ⟨c, u, hu, rfl⟩ := terms_normalizeForEquality e t ht
  exact h.setCoefficient c (he u hu)

/-- The equalities that `addEquality` puts into the list are zero where the given ones are. -/
theorem Linear.forall_asEquality_iff (h : Linear P ev) {es : List Exp} (hP : ∀ e ∈ es, ∀ t ∈ e.terms, P t) :
    (∀ d ∈ build Exp.lt (es.filterMap Exp.asEquality), ∀ k, total ev d.terms k = 0) ↔
      ∀ e ∈ es, ∀ k, total ev e.terms k = 0 := by
  rw [forall_build_iff]
  · constructor
    · intro hall e he
      by_cases hz : e.normalizeForEquality.equalsZero = true
      · refine (h.normalizeForEquality_iff (hP e he)).1 fun k => h.total_of_equalsZero (fun t ht => ?_) hz k
        obtain ⟨c, u, hu, rfl⟩ := terms_normalizeForEquality e t ht
        exact h.setCoefficient c (hP e he u hu)
      · have hsome : e.asEquality = some e.normalizeForEquality.setEquality := if_neg hz
        have := hall _ (List.mem_filterMap.2 ⟨e, he, hsome⟩)
        rw [Exp.terms_setEquality] at this
        exact (h.normalizeForEquality_iff (hP e he)).1 this
    · intro hall d hd
      obtain ⟨e, he, hd⟩ := List.mem_filterMap.1 hd
      rw [Exp.eq_of_mem_asEquality hd, Exp.terms_setEquality]
      exact (h.normalizeForEquality_iff (hP e he)).2 (hall e he)
  · intro x hx y hy ht hall k
    obtain ⟨e, he, hx⟩ := List.mem_filterMap.1 hx
    obtain ⟨d, hd, hy⟩ := List.mem_filterMap.1 hy
    rw [h.total_of_tied (h.terms_asEquality (hP e he) hx) (h.terms_asEquality (hP d hd) hy) (tied_exp.1 ht), hall k]

/-- The same for inequalities. -/
theorem Linear.forall_asInequality_iff (h : Linear P ev) {es : List Exp} (hP : ∀ e ∈ es, ∀ t ∈ e.terms, P t) :
    (∀ d ∈ build Exp.lt (es.filterMap Exp.asInequality), ∀ k, 0 ≤ total ev d.terms k) ↔
      ∀ e ∈ es, ∀ k, 0 ≤ total ev e.terms k := by
  have hterms : ∀ {e d : Exp}, d ∈ e.asInequality → d.terms = e.terms := by
    intro e d hd
    rw [Exp.eq_of_mem_asInequality hd, Exp.terms_setInequality]
  rw [forall_build_iff]
  · constructor
    · intro hall e he
      by_cases hz : e.equalsZero = true
      · exact fun k => (h.total_of_equalsZero (hP e he) hz k).ge
      · have hsome : e.asInequality = some e.setInequality := if_neg hz
        have := hall _ (List.mem_filterMap.2 ⟨e, he, hsome⟩)
        rwa [Exp.terms_setInequality] at this
    · intro hall d hd
      obtain ⟨e, he, hd⟩ := List.mem_filterMap.1 hd
      rw [hterms hd]
      exact hall e he
  · intro x hx y hy ht hall k
    obtain ⟨e, he, hx⟩ := List.mem_filterMap.1 hx
    obtain ⟨d, hd, hy⟩ := List.mem_filterMap.1 hy
    rw [h.total_of_tied (fun t ht => hP e he t (hterms hx ▸ ht)) (fun t ht => hP d hd t (hterms hy ▸ ht)) (tied_exp.1 ht)]
    exact hall k

/-- Replacing terms by terms that are read alike keeps what a conjunction says. -/
theorem holdsBy_mapTerms (h : Linear P ev') {c : Conjunction} (hP : ∀ t ∈ c.terms, P (φ t))
    (hv : ∀ t ∈ c.terms, ∀ k, ev' (φ t) k = ev t k) : (c.mapTerms φ).HoldsBy ev' ↔ c.HoldsBy ev := by
  have heq : ∀ e ∈ c.equalities, ∀ k, total ev' (e.mapTerms φ).terms k = total ev e.terms k ∧
      ∀ t ∈ (e.mapTerms φ).terms, P t := fun e he => h.total_mapTerms (fun t ht => hP t (mem_terms_equality he t ht))
    fun t ht => hv t (mem_terms_equality he t ht)
  have hineq : ∀ e ∈ c.inequalities, ∀ k, total ev' (e.mapTerms φ).terms k = total ev e.terms k ∧
      ∀ t ∈ (e.mapTerms φ).terms, P t := fun e he => h.total_mapTerms (fun t ht => hP t (mem_terms_inequality he t ht))
    fun t ht => hv t (mem_terms_inequality he t ht)
  rw [Conjunction.mapTerms, foldl_addInequality_eq, foldl_addEquality_eq]
  refine and_congr ((h.forall_asEquality_iff fun d hd => ?_).trans ?_) ((h.forall_asInequality_iff fun d hd => ?_).trans ?_)
  · obtain ⟨e, he, rfl⟩ := List.mem_map.1 hd
    exact (heq e he 0).2
  · rw [List.forall_mem_map]
    exact forall₂_congr fun e he => forall_congr' fun k => by rw [(heq e he k).1]
  · obtain ⟨e, he, rfl⟩ := List.mem_map.1 hd
    exact (hineq e he 0).2
  · rw [List.forall_mem_map]
    exact forall₂_congr fun e he => forall_congr' fun k => by rw [(hineq e he k).1]

theorem terms_mapTerms (h : Linear P ev) {c : Conjunction} (hP : ∀ t ∈ c.terms, P (φ t)) : ∀ t ∈ (c.mapTerms φ).terms, P t :=
  forall_terms_mapTerms (fun c _ ht => h.setCoefficient c ht) fun t ht => ⟨h.simple (hP t ht), hP t ht⟩

/-- A conjunction whose terms are changed where they stand. -/
def Conjunction.changeTerms (φ : Term → Term) (c : Conjunction) : Conjunction :=
  { c with equalities := c.equalities.map fun e => .mk e.expType (e.terms.map φ)
           inequalities := c.inequalities.map fun e => .mk e.expType (e.terms.map φ) }

/-- Conjunctions that neither comes before the other say the same. -/
theorem Linear.holdsBy_of_tied (h : Linear P ev) {c d : Conjunction} (hc : ∀ t ∈ c.terms, P t) (hd : ∀ t ∈ d.terms, P t)
    (ht : Tied Conjunction.lt c d) (hh : c.HoldsBy ev) : d.HoldsBy ev := by
  obtain ⟨-, heqs, hineqs⟩ := Conjunction.tied_parts ht
  constructor
  · intro e he k
    obtain ⟨e', he', htied⟩ := Outcome.exists_of_mem_forall₂ heqs he
    rw [← h.total_of_tied (fun t ht => hc t (mem_terms_equality he' t ht)) (fun t ht => hd t (mem_terms_equality he t ht))
      (tied_exp.1 htied)]
    exact hh.1 e' he' k
  · intro e he k
    obtain ⟨e', he', htied⟩ := Outcome.exists_of_mem_forall₂ hineqs he
    rw [← h.total_of_tied (fun t ht => hc t (mem_terms_inequality he' t ht)) (fun t ht => hd t (mem_terms_inequality he t ht))
      (tied_exp.1 htied)]
    exact hh.2 e' he' k

end Constraints

/-! ## Unions -/

section Unions

variable {P : Term → Prop} {E E' : List Int → Term → Nat → Int} {φ : Term → Term} {cs : List Conjunction}

theorem tuplesBy_mapTerms (h : ∀ t, Linear P (E' t)) (hP : ∀ c ∈ cs, ∀ u ∈ c.terms, P (φ u))
    (hv : ∀ t, ∀ c ∈ cs, ∀ u ∈ c.terms, ∀ k, E' t (φ u) k = E t u k) :
    tuplesBy E' (cs.map (Conjunction.mapTerms φ)) = tuplesBy E cs := by
  ext t
  have hc : ∀ c ∈ cs, ((c.mapTerms φ).tupleDecl.Admits t ∧ (c.mapTerms φ).HoldsBy (E' t) ↔
      c.tupleDecl.Admits t ∧ c.HoldsBy (E t)) := fun c hc => by
    rw [tupleDecl_mapTerms, holdsBy_mapTerms (h t) (hP c hc) (hv t c hc)]
  constructor
  · rintro ⟨d, hd, ht⟩
    obtain ⟨c, hmem, rfl⟩ := List.mem_map.1 hd
    exact ⟨c, hmem, (hc c hmem).1 ht⟩
  · rintro ⟨c, hmem, ht⟩
    exact ⟨_, List.mem_map_of_mem hmem, (hc c hmem).2 ht⟩

/-- A union that is built in order has the tuples of the list. -/
theorem tuplesBy_build (h : ∀ t, Linear P (E t)) (hP : ∀ c ∈ cs, ∀ u ∈ c.terms, P u) :
    tuplesBy E (build Conjunction.lt cs) = tuplesBy E cs := by
  ext t
  constructor
  · rintro ⟨c, hc, ht⟩
    exact ⟨c, SortedList.mem_of_mem_build hc, ht⟩
  · rintro ⟨c, hc, ht, hh⟩
    rcases SortedList.build_covers Conjunction.lt hc with hb | ⟨d, hd, htied⟩
    · exact ⟨c, hb, ht, hh⟩
    · exact ⟨d, hd, TupleDecl.admits_of_tied (Conjunction.tied_parts htied).1 ht,
        (h t).holdsBy_of_tied (hP c hc) (hP d (SortedList.mem_of_mem_build hd)) htied hh⟩

/-- The tuples of the conjunctions that give way are tuples of conjunctions that stay. -/
def LosesNothingBy (E : List Int → Term → Nat → Int) (cs : List Conjunction) : Prop :=
  ∀ c ∈ replaced Conjunction.hasConstraints cs, ∀ t, c.tupleDecl.Admits t → t ∈ tuplesBy E (kept Conjunction.hasConstraints cs)

theorem losesNothingBy_val {I : Interp} : LosesNothingBy (fun t => Term.val I (valuation t)) cs ↔ LosesNothingIn I cs := by
  unfold LosesNothingBy LosesNothingIn
  rw [tuplesBy_val]

theorem holdsBy_of_unconstrained {ev : Term → Nat → Int} {c : Conjunction} (h : c.hasConstraints = false) : c.HoldsBy ev := by
  obtain ⟨heqs, hineqs⟩ := hasConstraints_eq_false.1 h
  constructor
  · rw [heqs]
    exact fun e he => absurd he List.not_mem_nil
  · rw [hineqs]
    exact fun e he => absurd he List.not_mem_nil

theorem tuplesBy_append (cs ds : List Conjunction) : tuplesBy E (cs ++ ds) = tuplesBy E cs ∪ tuplesBy E ds := by
  ext t
  constructor
  · rintro ⟨c, hc, ht⟩
    rcases List.mem_append.1 hc with hc | hc
    · exact .inl ⟨c, hc, ht⟩
    · exact .inr ⟨c, hc, ht⟩
  · rintro (⟨c, hc, ht⟩ | ⟨c, hc, ht⟩)
    · exact ⟨c, List.mem_append_left _ hc, ht⟩
    · exact ⟨c, List.mem_append_right _ hc, ht⟩

/-- What stays says what all say iff nothing is lost. -/
theorem tuplesBy_kept_iff : tuplesBy E (kept Conjunction.hasConstraints cs) = tuplesBy E cs ↔ LosesNothingBy E cs := by
  have hsplit := tuplesBy_append (E := E) (replaced Conjunction.hasConstraints cs) (kept Conjunction.hasConstraints cs)
  rw [replaced_append_kept] at hsplit
  rw [hsplit, eq_comm, Set.union_eq_right]
  constructor
  · intro h c hc t ht
    exact h ⟨c, hc, ht, holdsBy_of_unconstrained (has_of_mem_replaced _ hc)⟩
  · rintro h t ⟨c, hc, ht, -⟩
    exact h c hc t ht

end Unions

end IEGen
