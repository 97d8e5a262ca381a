import IEGen.CleanedUp
import IEGen.SuperAffine

/-!
# Replacing calls by symbols and putting them back

For a cleaned-up set or relation and a map that was empty, `reverseAffineSubstitution` gives back what
`superAffineSet` was given iff

* copying loses no conjunction, and the arity of each one is one that `setInArity` accepts,
* two calls that are flattened to one name are one call, and no symbolic constant has the name of a call,
* for sets, there is a conjunction.

A constraint is encoded and decoded term by term; its terms come back in another order and with another sign, and are
put in order and normalized again (`foldl_addOne_decode`, `decode_encode`). The constraints of a conjunction and the
conjunctions of a union are sorted lists that are encoded and decoded element by element (`SortedList.build_build`).
-/

namespace IEGen

open SortedList (Tied Sorted build insertUnique)

/-! ## Adding up terms that do not match -/

theorem perm_addOne {ts : List Term} {t : Term} (h0 : t.coefficient ≠ 0) (hm : ∀ u ∈ ts, u.factorMatches t = false) :
    (addOne ts t).Perm (t :: ts) := by
  rw [addOne, if_neg h0]
  induction ts with
  | nil => exact List.Perm.refl _
  | cons u us ih =>
    obtain ⟨hu, hus⟩ := List.forall_mem_cons.1 hm
    simp only [insertTerm, combineSimple, hu, Bool.false_eq_true, if_false]
    split_ifs
    · exact List.Perm.refl _
    · exact ((ih hus).cons u).trans (List.Perm.swap t u us)

/-- Terms that do not match are all there after they have been added up. -/
theorem perm_foldl_addOne {us l : List Term} (h0 : ∀ u ∈ us, u.coefficient ≠ 0) (hu : Unmatched us)
    (hacc : ∀ a ∈ l, ∀ u ∈ us, a.factorMatches u = false) : (us.foldl addOne l).Perm (us ++ l) := by
  induction us generalizing l with
  | nil => exact List.Perm.refl _
  | cons u us ih =>
    obtain ⟨hu0, hus0⟩ := List.forall_mem_cons.1 h0
    obtain ⟨hm, hus⟩ := List.pairwise_cons.1 hu
    have hone := perm_addOne hu0 (fun a ha => hacc a ha u List.mem_cons_self)
    have hacc' : ∀ a ∈ addOne l u, ∀ v ∈ us, a.factorMatches v = false := by
      intro a ha v hv
      rcases List.mem_cons.1 (hone.mem_iff.1 ha) with rfl | ha
      · exact hm v hv
      · exact hacc a ha v (List.mem_cons_of_mem _ hv)
    rw [List.foldl_cons]
    refine (ih hus0 hus hacc').trans ((List.Perm.append_left us hone).trans ?_)
    exact List.perm_middle

theorem Unmatched.perm {ts us : List Term} (h : Unmatched ts) (hp : ts.Perm us) : Unmatched us := by
  have hsymm : Std.Symm (fun t u : Term => t.factorMatches u = false) := ⟨fun t u h => by rw [Term.factorMatches_comm]; exact h⟩
  exact (hp.pairwise_iff (fun {t u} h => hsymm.symm t u h)).1 h

/-- Adding up terms that do not match puts them in the order of their factors. -/
theorem foldl_addOne_eq {us ts : List Term} (hp : us.Perm ts) (ht : ∀ t ∈ ts, t.isTupleExp = false)
    (h0 : ∀ t ∈ ts, t.coefficient ≠ 0) (hu : Unmatched ts) (hs : Sorted Term.factorLt ts) : us.foldl addOne [] = ts := by
  have hperm := perm_foldl_addOne (fun u h => h0 u (hp.mem_iff.1 h)) (hu.perm hp.symm) (l := []) (by simp)
  rw [List.append_nil] at hperm
  exact SortedList.eq_of_sorted Term.strictWeak_factorLt
    (sorted_foldl_addOne (fun u h => ht u (hp.mem_iff.1 h)) .nil) hs fun t => (hperm.trans hp).mem_iff

theorem terms_foldl_addTerm {us : List Term} (hu : ∀ u ∈ us, u.isTupleExp = false) (e : Exp) :
    us.foldl Exp.addTerm e = .mk e.expType (us.foldl addOne e.terms) := by
  induction us generalizing e with
  | nil => exact (Exp.mk_expType_terms e).symm
  | cons u us ih =>
    obtain ⟨h, hus⟩ := List.forall_mem_cons.1 hu
    have hone : e.addTerm u = .mk e.expType (addOne e.terms u) := by
      rw [← terms_addTerm_noTuple h]
      rfl
    rw [List.foldl_cons, ih hus, hone]
    rfl

theorem mapTerms_eq {φ : Term → Term} {e : Exp} (h : ∀ t ∈ e.terms, (φ t).isTupleExp = false) :
    e.mapTerms φ = .mk .expression ((e.terms.map φ).foldl addOne []) :=
  terms_foldl_addTerm (fun u hu => by
    obtain ⟨t, ht, rfl⟩ := List.mem_map.1 hu
    exact h t ht) _

/-! ## Codes for terms -/

/-- `φ` gives the terms codes that are neither calls nor tuples, `ψ` gives the terms back, and the codes of two terms
match only where the terms do. -/
structure Codes (φ ψ : Term → Term) (ts : List Term) : Prop where
  enc : ∀ c t, φ (t.setCoefficient c) = (φ t).setCoefficient c
  dec : ∀ c t, ψ (t.setCoefficient c) = (ψ t).setCoefficient c
  leaf : ∀ t ∈ ts, (φ t).isTupleExp = false ∧ (φ t).isUFCall = false
  back : ∀ t ∈ ts, ψ (φ t) = t
  apart : ∀ t ∈ ts, ∀ u ∈ ts, (φ t).factorMatches (φ u) = true → t.factorMatches u = true

namespace Codes

variable {φ ψ : Term → Term} {ts : List Term}

theorem mono {us : List Term} (h : Codes φ ψ ts) (hsub : ∀ u ∈ us, u ∈ ts) : Codes φ ψ us :=
  ⟨h.enc, h.dec, fun t ht => h.leaf t (hsub t ht), fun t ht => h.back t (hsub t ht),
    fun t ht u hu => h.apart t (hsub t ht) u (hsub u hu)⟩

theorem coefficient (h : Codes φ ψ ts) (t : Term) : (φ t).coefficient = t.coefficient := by
  have := h.enc t.coefficient t
  rw [Term.setCoefficient_self] at this
  rw [this, Term.coefficient_setCoefficient]

theorem back_multiplyBy (h : Codes φ ψ ts) (k : Int) {t : Term} (ht : t ∈ ts) :
    ψ ((φ t).multiplyBy k) = t.multiplyBy k := by
  rw [Term.multiplyBy, h.dec, h.back t ht, h.coefficient, Term.multiplyBy]

theorem unmatched (h : Codes φ ψ ts) (hu : Unmatched ts) : Unmatched (ts.map φ) := by
  refine List.pairwise_map.2 (hu.imp_of_mem fun {t u} ht hu hm => ?_)
  cases hc : (φ t).factorMatches (φ u) with
  | false => rfl
  | true => rw [h.apart t ht u hu hc] at hm; cases hm

end Codes

theorem unmatched_map_multiplyBy {ts : List Term} (k : Int) (h : Unmatched ts) : Unmatched (ts.map (Term.multiplyBy k)) := by
  refine List.pairwise_map.2 (h.imp fun {t u} hm => ?_)
  simpa [Term.multiplyBy] using hm

/-- The codes of clean terms, added up and scaled, decode to the terms, scaled. -/
theorem foldl_addOne_decode {φ ψ : Term → Term} {ts : List Term} (h : Codes φ ψ ts) (ht : CleanTerms ts) {k : Int}
    (hk : k ≠ 0) : ((((ts.map φ).foldl addOne []).map (Term.multiplyBy k)).map ψ).foldl addOne [] =
      ts.map (Term.multiplyBy k) := by
  have h0 : ∀ u ∈ ts.map φ, u.coefficient ≠ 0 := by
    intro u hu
    obtain ⟨t, ht', rfl⟩ := List.mem_map.1 hu
    rw [h.coefficient]
    exact (ht.canonical t ht').1
  have hperm := perm_foldl_addOne h0 (h.unmatched ht.unmatched) (l := []) (by simp)
  rw [List.append_nil] at hperm
  have hback : ((ts.map φ).map (Term.multiplyBy k)).map ψ = ts.map (Term.multiplyBy k) := by
    rw [List.map_map, List.map_map]
    exact List.map_congr_left fun t ht' => h.back_multiplyBy k ht'
  have hmem : ∀ u ∈ ts.map (Term.multiplyBy k), u.isTupleExp = false ∧ u.coefficient ≠ 0 := by
    intro u hu
    obtain ⟨t, ht', rfl⟩ := List.mem_map.1 hu
    refine ⟨?_, by simpa [Term.multiplyBy, hk] using (ht.canonical t ht').1⟩
    rw [Term.multiplyBy, Term.setCoefficient_isTupleExp]
    exact isTupleExp_of_readable (ht.readable t ht')
  refine foldl_addOne_eq ?_ (fun u hu => (hmem u hu).1) (fun u hu => (hmem u hu).2)
    (unmatched_map_multiplyBy k ht.unmatched) (sorted_map_multiplyBy ht.sorted)
  rw [← hback]
  exact (hperm.map _).map _

/-! ## Codes for constraints -/

section Constraints

variable {env : Environment} {φ ψ : Term → Term} {e : Exp}

/-- The code of an equality. -/
def Exp.encodeEquality (φ : Term → Term) (e : Exp) : Exp := (e.mapTerms φ).normalizeForEquality.setEquality

/-- The code of an inequality. -/
def Exp.encodeInequality (φ : Term → Term) (e : Exp) : Exp := (e.mapTerms φ).setInequality

theorem leaf_mapTerms (h : Codes φ ψ e.terms) : ∀ t ∈ e.terms, (φ t).isTupleExp = false := fun t ht => (h.leaf t ht).1

theorem nonzero_mapTerms (h : Codes φ ψ e.terms) : ∀ t ∈ (e.mapTerms φ).terms, t.coefficient ≠ 0 := by
  rw [mapTerms_eq (leaf_mapTerms h)]
  exact nonzero_foldl_addOne (by simp)

theorem perm_mapTerms (h : Codes φ ψ e.terms) (ht : CleanTerms e.terms) : (e.mapTerms φ).terms.Perm (e.terms.map φ) := by
  have h0 : ∀ u ∈ e.terms.map φ, u.coefficient ≠ 0 := by
    intro u hu
    obtain ⟨t, ht', rfl⟩ := List.mem_map.1 hu
    rw [h.coefficient]
    exact (ht.canonical t ht').1
  have hperm := perm_foldl_addOne h0 (h.unmatched ht.unmatched) (l := []) (by simp)
  rw [List.append_nil] at hperm
  rw [mapTerms_eq (leaf_mapTerms h)]
  exact hperm

theorem mapTerms_ne_nil (h : Codes φ ψ e.terms) (ht : CleanTerms e.terms) (hne : e.terms ≠ []) :
    (e.mapTerms φ).terms ≠ [] := by
  intro hn
  have := perm_mapTerms h ht
  rw [hn] at this
  exact hne (List.map_eq_nil_iff.1 this.symm.eq_nil)

/-- Decoding the scaled sum of the codes gives the scaled terms. -/
theorem mapTerms_mapTerms_multiplyBy (h : Codes φ ψ e.terms) (ht : CleanTerms e.terms) {k : Int} (hk : k ≠ 0) {d : Exp}
    (hd : d.terms = (e.mapTerms φ).terms.map (Term.multiplyBy k)) :
    d.mapTerms ψ = (Exp.mk .expression e.terms).multiplyBy k := by
  have hsimple : ∀ t ∈ d.terms, (ψ t).isTupleExp = false := by
    intro t htd
    rw [hd] at htd
    obtain ⟨u, hu, rfl⟩ := List.mem_map.1 htd
    obtain ⟨v, hv, rfl⟩ := List.mem_map.1 ((perm_mapTerms h ht).mem_iff.1 hu)
    rw [h.back_multiplyBy k hv, Term.multiplyBy, Term.setCoefficient_isTupleExp]
    exact isTupleExp_of_readable (ht.readable v hv)
  rw [mapTerms_eq hsimple, hd, mapTerms_eq (leaf_mapTerms h), Exp.terms_mk, foldl_addOne_decode h ht hk]
  rfl

/-- An equality is encoded, and comes back. -/
theorem decode_encodeEquality (he : CleanExp env .equality e) (hn : e.normalizeForEquality = e) (h : Codes φ ψ e.terms) :
    (e.mapTerms φ).asEquality = some (e.encodeEquality φ) ∧
      ((e.encodeEquality φ).mapTerms ψ).asEquality = some e := by
  have hz := nonzero_mapTerms h
  obtain ⟨k, hk, hscale⟩ := exists_scale hz
  have hk0 : k ≠ 0 := by rcases hk with rfl | rfl <;> omega
  have hne : (e.mapTerms φ).normalizeForEquality.terms ≠ [] := by
    rw [hscale, Exp.terms_multiplyBy]
    exact fun hnil => mapTerms_ne_nil h he.terms he.ne_nil (List.map_eq_nil_iff.1 hnil)
  constructor
  · rw [Exp.asEquality, equalsZero_of_nonzero hne (nonzero_normalizeForEquality hz), if_neg Bool.false_ne_true]
    rfl
  · have hzt : ∀ t ∈ e.terms, t.coefficient ≠ 0 := fun t ht => (he.terms.canonical t ht).1
    have hpos := head_pos_normalizeForEquality hzt
    rw [hn] at hpos
    have hdec := mapTerms_mapTerms_multiplyBy h he.terms hk0 (d := e.encodeEquality φ)
      (by rw [Exp.encodeEquality, Exp.terms_setEquality, hscale, Exp.terms_multiplyBy])
    have hback : ((Exp.mk .expression e.terms).multiplyBy k).normalizeForEquality = .mk .expression e.terms :=
      normalizeForEquality_multiplyBy (e := .mk .expression e.terms) hzt hpos hk
    rw [hdec, Exp.asEquality, hback, he.equalsZero, if_neg Bool.false_ne_true]
    exact congrArg some he.mk_terms

/-- An inequality is encoded, and comes back. -/
theorem decode_encodeInequality (he : CleanExp env .inequality e) (h : Codes φ ψ e.terms) :
    (e.mapTerms φ).asInequality = some (e.encodeInequality φ) ∧
      ((e.encodeInequality φ).mapTerms ψ).asInequality = some e := by
  constructor
  · rw [Exp.asInequality, equalsZero_of_nonzero (mapTerms_ne_nil h he.terms he.ne_nil) (nonzero_mapTerms h),
      if_neg Bool.false_ne_true]
    rfl
  · have hone : ∀ ts : List Term, ts.map (Term.multiplyBy 1) = ts := fun ts => by
      rw [List.map_congr_left (g := id) (fun t _ => multiplyBy_one t), List.map_id]
    have hdec := mapTerms_mapTerms_multiplyBy h he.terms one_ne_zero (d := e.encodeInequality φ)
      (by rw [Exp.encodeInequality, Exp.terms_setInequality, hone])
    rw [hdec, Exp.multiplyBy, Exp.terms_mk, hone]
    exact he.asInequality

/-- Neither a call nor a tuple. -/
def IsLeaf (t : Term) : Prop := t.isTupleExp = false ∧ t.isUFCall = false

theorem eq_of_tied_leaf {t u : Term} (ht : IsLeaf t) (h : Tied Term.lt t u) : t = u := by
  obtain ⟨hf, hc⟩ := factorMatches_of_tied h ht.1
  cases t <;> cases u <;> simp [Term.factorMatches, Term.coefficient, IsLeaf, Term.isTupleExp, Term.isUFCall] at hf hc ht
  case tupleVar.tupleVar => rw [hf, hc]
  case symConst.symConst => rw [hf, hc]
  case constVal.constVal => rw [hc]

theorem terms_eq_of_tied_leaf {d d' : Exp} (hd : ∀ t ∈ d.terms, IsLeaf t) (h : Tied Exp.lt d d') : d.terms = d'.terms := by
  have hf := tied_exp.1 h
  generalize d.terms = ts, d'.terms = us at hf hd
  induction hf with
  | nil => rfl
  | cons htu _ ih =>
    obtain ⟨ht, hts⟩ := List.forall_mem_cons.1 hd
    rw [eq_of_tied_leaf ht htu, ih hts]

theorem isLeaf_multiplyBy {t : Term} (k : Int) (h : IsLeaf t) : IsLeaf (t.multiplyBy k) := by
  cases t <;> exact h

/-- The terms of the code of a constraint are leaves. -/
theorem isLeaf_mapTerms (h : Codes φ ψ e.terms) (ht : CleanTerms e.terms) : ∀ t ∈ (e.mapTerms φ).terms, IsLeaf t := by
  intro t htm
  obtain ⟨u, hu, rfl⟩ := List.mem_map.1 ((perm_mapTerms h ht).mem_iff.1 htm)
  exact h.leaf u hu

theorem isLeaf_encodeEquality (h : Codes φ ψ e.terms) (ht : CleanTerms e.terms) :
    ∀ t ∈ (e.encodeEquality φ).terms, IsLeaf t := by
  obtain ⟨k, -, hscale⟩ := exists_scale (nonzero_mapTerms h)
  intro t htm
  rw [Exp.encodeEquality, Exp.terms_setEquality, hscale, Exp.terms_multiplyBy] at htm
  obtain ⟨u, hu, rfl⟩ := List.mem_map.1 htm
  exact isLeaf_multiplyBy k (isLeaf_mapTerms h ht u hu)

end Constraints

/-! ## Codes for conjunctions -/

section Conjunctions

variable {env : Environment} {φ ψ : Term → Term}

theorem Conjunction.mapTerms_eq (φ : Term → Term) (c : Conjunction) : c.mapTerms φ =
    ⟨build Exp.lt (c.equalities.filterMap (fun e => (e.mapTerms φ).asEquality)),
      build Exp.lt (c.inequalities.filterMap (fun e => (e.mapTerms φ).asInequality)), c.tupleDecl, c.inArity⟩ := by
  rw [Conjunction.mapTerms, foldl_addInequality_eq, foldl_addEquality_eq, List.filterMap_map, List.filterMap_map]
  rfl

theorem mem_terms_equality {c : Conjunction} {e : Exp} (he : e ∈ c.equalities) : ∀ t ∈ e.terms, t ∈ c.terms :=
  fun _ ht => List.mem_flatMap.2 ⟨e, List.mem_append_left _ he, ht⟩

theorem mem_terms_inequality {c : Conjunction} {e : Exp} (he : e ∈ c.inequalities) : ∀ t ∈ e.terms, t ∈ c.terms :=
  fun _ ht => List.mem_flatMap.2 ⟨e, List.mem_append_right _ he, ht⟩

theorem equality_eq_of_tied {e d : Exp} (he : CleanExp env .equality e) (hn : e.normalizeForEquality = e)
    (hd : CleanExp env .equality d) (hn' : d.normalizeForEquality = d) (hc : Codes φ ψ e.terms)
    (hc' : Codes φ ψ d.terms) (ht : Tied Exp.lt (e.encodeEquality φ) (d.encodeEquality φ)) : e = d := by
  have hterms := terms_eq_of_tied_leaf (isLeaf_encodeEquality hc he.terms) ht
  have hsame : e.encodeEquality φ = d.encodeEquality φ := by
    rw [← Exp.mk_expType_terms (e.encodeEquality φ), hterms]
    exact Exp.mk_expType_terms (d.encodeEquality φ)
  have h₁ := (decode_encodeEquality he hn hc).2
  rw [hsame, (decode_encodeEquality hd hn' hc').2] at h₁
  exact (Option.some.inj h₁).symm

theorem inequality_eq_of_tied {e d : Exp} (he : CleanExp env .inequality e) (hd : CleanExp env .inequality d)
    (hc : Codes φ ψ e.terms) (hc' : Codes φ ψ d.terms)
    (ht : Tied Exp.lt (e.encodeInequality φ) (d.encodeInequality φ)) : e = d := by
  have hterms := terms_eq_of_tied_leaf (d := e.encodeInequality φ) (isLeaf_mapTerms hc he.terms) ht
  have hsame : e.encodeInequality φ = d.encodeInequality φ := by
    rw [← Exp.mk_expType_terms (e.encodeInequality φ), hterms]
    exact Exp.mk_expType_terms (d.encodeInequality φ)
  have h₁ := (decode_encodeInequality he hc).2
  rw [hsame, (decode_encodeInequality hd hc').2] at h₁
  exact (Option.some.inj h₁).symm

/-- A conjunction comes back from its code. -/
theorem mapTerms_mapTerms {c : Conjunction} (hc : c.Clean env) (h : Codes φ ψ c.terms) :
    (c.mapTerms φ).mapTerms ψ = c := by
  have heq : ∀ e ∈ c.equalities, Codes φ ψ e.terms := fun e he => h.mono (mem_terms_equality he)
  have hineq : ∀ e ∈ c.inequalities, Codes φ ψ e.terms := fun e he => h.mono (mem_terms_inequality he)
  have h₁ : build Exp.lt ((build Exp.lt (c.equalities.filterMap (fun e => (e.mapTerms φ).asEquality))).filterMap
      (fun e => (e.mapTerms ψ).asEquality)) = c.equalities := by
    refine SortedList.build_filterMap_build strictWeak_expLt hc.sorted_equalities
      (fun e he => (decode_encodeEquality (hc.equalities e he).1 (hc.equalities e he).2 (heq e he)).1)
      (fun e he => (decode_encodeEquality (hc.equalities e he).1 (hc.equalities e he).2 (heq e he)).2)
      fun e he d hd ht => ?_
    exact equality_eq_of_tied (hc.equalities e he).1 (hc.equalities e he).2 (hc.equalities d hd).1
      (hc.equalities d hd).2 (heq e he) (heq d hd) ht
  have h₂ : build Exp.lt ((build Exp.lt (c.inequalities.filterMap (fun e => (e.mapTerms φ).asInequality))).filterMap
      (fun e => (e.mapTerms ψ).asInequality)) = c.inequalities := by
    refine SortedList.build_filterMap_build strictWeak_expLt hc.sorted_inequalities
      (fun e he => (decode_encodeInequality (hc.inequalities e he) (hineq e he)).1)
      (fun e he => (decode_encodeInequality (hc.inequalities e he) (hineq e he)).2) fun e he d hd ht => ?_
    exact inequality_eq_of_tied (hc.inequalities e he) (hc.inequalities d hd) (hineq e he) (hineq d hd) ht
  rw [Conjunction.mapTerms_eq ψ, Conjunction.mapTerms_eq φ]
  simp only [h₁, h₂]

/-- The terms of a code are leaves. -/
theorem isLeaf_terms_mapTerms {c : Conjunction} (hc : c.Clean env) (h : Codes φ ψ c.terms) :
    ∀ t ∈ (c.mapTerms φ).terms, IsLeaf t := by
  intro t ht
  rw [Conjunction.terms, Conjunction.mapTerms_eq φ] at ht
  obtain ⟨d, hd, ht⟩ := List.mem_flatMap.1 ht
  rcases List.mem_append.1 hd with hd | hd
  · obtain ⟨e, he, hde⟩ := List.mem_filterMap.1 (SortedList.mem_of_mem_build hd)
    have hcodes := h.mono (mem_terms_equality he)
    rw [(decode_encodeEquality (hc.equalities e he).1 (hc.equalities e he).2 hcodes).1, Option.some.injEq] at hde
    exact isLeaf_encodeEquality hcodes (hc.equalities e he).1.terms t (hde ▸ ht)
  · obtain ⟨e, he, hde⟩ := List.mem_filterMap.1 (SortedList.mem_of_mem_build hd)
    have hcodes := h.mono (mem_terms_inequality he)
    rw [(decode_encodeInequality (hc.inequalities e he) hcodes).1, Option.some.injEq] at hde
    rw [← hde] at ht
    exact isLeaf_mapTerms hcodes (hc.inequalities e he).terms t ht

theorem forall₂_tied_leaf {es ds : List Exp} (hes : ∀ e ∈ es, ∀ t ∈ e.terms, IsLeaf t) {k : ExpType}
    (hk : ∀ e ∈ es, e.expType = k) (hk' : ∀ d ∈ ds, d.expType = k) (h : List.Forall₂ (Tied Exp.lt) es ds) : es = ds := by
  induction h with
  | nil => rfl
  | @cons e d es ds htied _ ih =>
    obtain ⟨he, hes⟩ := List.forall_mem_cons.1 hes
    obtain ⟨hke, hk⟩ := List.forall_mem_cons.1 hk
    obtain ⟨hkd, hk'⟩ := List.forall_mem_cons.1 hk'
    have hed : e = d := by
      rw [← Exp.mk_expType_terms e, terms_eq_of_tied_leaf he htied, hke, ← hkd]
      exact Exp.mk_expType_terms d
    rw [ih hes hk hk', hed]

theorem typed_mapTerms (φ : Term → Term) (c : Conjunction) : (c.mapTerms φ).Typed := by
  rw [Conjunction.mapTerms_eq φ]
  constructor
  · intro d hd
    obtain ⟨e, -, hde⟩ := List.mem_filterMap.1 (SortedList.mem_of_mem_build hd)
    rw [Exp.eq_of_mem_asEquality hde]
    rfl
  · intro d hd
    obtain ⟨e, -, hde⟩ := List.mem_filterMap.1 (SortedList.mem_of_mem_build hd)
    rw [Exp.eq_of_mem_asInequality hde]
    rfl

/-- Conjunctions with tied declarations and the same constraints are tied. -/
theorem tied_of_parts {a b : Conjunction} (hd : Tied TupleDecl.lt a.tupleDecl b.tupleDecl)
    (he : a.equalities = b.equalities) (hi : a.inequalities = b.inequalities) : Tied Conjunction.lt a b := by
  have key : ∀ c d : Conjunction, Tied TupleDecl.lt c.tupleDecl d.tupleDecl → c.equalities = d.equalities →
      c.inequalities = d.inequalities → c.lt d = false := by
    intro c d hcd hce hci
    have := strictWeak_conjunctionLt.irrefl c
    simp only [Conjunction.lt] at this
    simp only [Conjunction.lt, hcd.1, hcd.2, ← hce, ← hci] at this ⊢
    simpa [TupleDecl.lt, strictWeak_elemLt.sizeLexLt.irrefl] using this
  exact ⟨key a b hd he hi, key b a hd.symm he.symm hi.symm⟩

/-- Conjunctions whose codes are tied are tied. -/
theorem tied_of_tied_mapTerms {c d : Conjunction} (hc : c.Clean env) (hd : d.Clean env) (h : Codes φ ψ c.terms)
    (h' : Codes φ ψ d.terms) (ht : Tied Conjunction.lt (c.mapTerms φ) (d.mapTerms φ)) : Tied Conjunction.lt c d := by
  obtain ⟨hdecl, heqs, hineqs⟩ := Conjunction.tied_parts ht
  have hleaf := isLeaf_terms_mapTerms hc h
  have h₁ : (c.mapTerms φ).equalities = (d.mapTerms φ).equalities :=
    forall₂_tied_leaf (fun e he t ht => hleaf t (mem_terms_equality he t ht)) (typed_mapTerms φ c).1
      (typed_mapTerms φ d).1 heqs
  have h₂ : (c.mapTerms φ).inequalities = (d.mapTerms φ).inequalities :=
    forall₂_tied_leaf (fun e he t ht => hleaf t (mem_terms_inequality he t ht)) (typed_mapTerms φ c).2
      (typed_mapTerms φ d).2 hineqs
  have hcc := mapTerms_mapTerms hc h
  have hdd := mapTerms_mapTerms hd h'
  rw [Conjunction.mapTerms_eq ψ] at hcc hdd
  have e₁ := (congrArg Conjunction.equalities hcc).symm
  have e₂ := (congrArg Conjunction.equalities hdd).symm
  have i₁ := (congrArg Conjunction.inequalities hcc).symm
  have i₂ := (congrArg Conjunction.inequalities hdd).symm
  simp only at e₁ e₂ i₁ i₂
  refine tied_of_parts ?_ (by rw [e₁, e₂, h₁]) (by rw [i₁, i₂, h₂])
  rw [Conjunction.mapTerms_eq φ, Conjunction.mapTerms_eq φ] at hdecl
  exact hdecl

end Conjunctions

end IEGen
