import IEGen.Bound
import IEGen.Copied
import IEGen.Substituted
import IEGen.Walk

/-!
# Bounds are exact

The conjunction that `boundDomainRange` makes of another holds where this one holds and every call in it has its argument
in the declared domain and its result in the declared range (`boundDomainRange_holds`), as long as each declared domain
and range comes as one conjunction and the calls of a bound that collapse keep their values. So a bounded set has the
tuples of those conjunctions whose own calls are as declared (`boundDomainRange_denotes`).
-/

namespace IEGen

/-! ## Integers for tuple variables -/

/-- The map that `boundTupleExp` substitutes with, for a declaration of variables. -/
def tupleSubMap (es : List Exp) : SubMap := es.zipIdx.map (fun p => (.tupleVar 1 p.2, some p.1))

theorem subExp_tupleSubMap (es : List Exp) (l : Nat) : (tupleSubMap es).subExp (.tupleVar 1 l) = es[l]? := by
  have hfrom : ∀ n, SubMap.subExp ((es.zipIdx n).map (fun p => (.tupleVar 1 p.2, some p.1))) (.tupleVar 1 l) =
      if n ≤ l then es[l - n]? else none := by
    induction es with
    | nil => simp [SubMap.subExp]
    | cons e es ih =>
      intro n
      have ih := ih (n + 1)
      simp only [SubMap.subExp] at ih ⊢
      rw [List.zipIdx_cons, List.map_cons, List.find?_cons]
      by_cases hln : l = n
      · subst hln
        simp [Term.factorMatches]
      · have hm : (Term.tupleVar 1 l).factorMatches (.tupleVar 1 n) = false := by simpa [Term.factorMatches] using hln
        simp only [hm, ih]
        by_cases hle : n + 1 ≤ l
        · rw [if_pos hle, if_pos (by omega), show l - n = (l - (n + 1)) + 1 by omega, List.getElem?_cons_succ]
        · rw [if_neg hle, if_neg (by omega)]
  have h := hfrom 0
  rw [if_pos (Nat.zero_le l), Nat.sub_zero] at h
  exact h

theorem onTupleVars_tupleSubMap (es : List Exp) : (tupleSubMap es).OnTupleVars := by
  intro p hp
  obtain ⟨q, -, rfl⟩ := List.mem_map.1 hp
  exact ⟨1, q.2, rfl⟩

section Bound

variable {q : Prop} {env : Environment} {I : Interp} {τ : Nat → Int}

/-- An expression for a component: readable, and an integer all the way down. -/
def IsInteger (I : Interp) (e : Exp) : Prop := e.readable = true ∧ e.FitsAs I.cod Scalar Scalar AnyCall

/-- The components of a list of expressions. -/
def components (I : Interp) (τ : Nat → Int) (es : List Exp) : List Int := es.map (fun e => e.val I τ 0)

theorem evaluates_tupleSubMap {es : List Exp} (hes : ∀ e ∈ es, IsInteger I e) :
    (tupleSubMap es).Evaluates I τ (fun l => if l < es.length then valuation (components I τ es) l else τ l)
      Scalar AnyCall := by
  have hmem : ∀ {l : Nat} {e : Exp}, (tupleSubMap es).subExp (.tupleVar 1 l) = some e → e ∈ es ∧
      ∃ h : l < es.length, es[l] = e := by
    intro l e h
    rw [subExp_tupleSubMap] at h
    exact ⟨List.mem_of_getElem? h, List.getElem?_eq_some_iff.1 h⟩
  refine ⟨onTupleVars_tupleSubMap es, fun l h => ?_, fun l e h k => ?_, fun l e h => (hes e (hmem h).1).1,
    fun l e h => ?_⟩
  · rw [subExp_tupleSubMap, List.getElem?_eq_none_iff] at h
    simp only [not_lt.2 h, if_false]
  · obtain ⟨hr, v, hv, hf⟩ := hes e (hmem h).1
    obtain ⟨hl, he⟩ := (hmem h).2
    subst hv
    rw [Exp.val_eq_scalar hr fun t ht => (hf t ht).1, if_pos hl, ← he]
    simp [valuation, components, hl]
  · obtain ⟨-, v, hv, hf⟩ := hes e (hmem h).1
    subst hv
    exact hf

/-! ## The constraints of one conjunction -/

/-- What a conjunction of a declared domain or range has to be for its bound to be exact: its tuple variables are those
of the tuple, and the calls that collapse when they are replaced keep their values. -/
structure Conjunction.Bounds (env : Environment) (I : Interp) (τ : Nat → Int) (es : List Exp) (c : Conjunction) : Prop where
  readable : c.readable = true
  vars : c.pushConstToConstraints.VarsIn (· < c.arity)
  fits : c.pushConstToConstraints.Fits I.cod Scalar Scalar AnyCall
  keeps : ∀ e ∈ c.pushConstToConstraints.equalities ++ c.pushConstToConstraints.inequalities,
    (e.substitute (tupleSubMap es)).CollapseKeeps env I τ

/-- What bounds are built as. -/
structure Conjunction.Ready (cod : String → Nat) (c : Conjunction) : Prop where
  built : c.Built
  fits : c.Fits cod Scalar Scalar AnyCall

theorem Conjunction.Built.readable {c : Conjunction} (h : c.Built) : c.readable = true :=
  Conjunction.readable_iff.2 ⟨fun e he => (h.equalities e he).1.readable, fun e he => (h.inequalities e he).readable⟩

theorem boundTupleExp_eq_ok {c b : Conjunction} {es : List Exp} (hc : c.readable = true)
    (h : c.boundTupleExp env es = .ok b) : es.length = c.arity ∧
      Conjunction.cleanUp env ⟨c.pushConstToConstraints.equalities.map (Exp.substitute (tupleSubMap es)),
        c.pushConstToConstraints.inequalities.map (Exp.substitute (tupleSubMap es)), .sDefaultTupleDecl 0, 0⟩ = .ok b := by
  unfold Conjunction.boundTupleExp at h
  split_ifs at h with hlen
  rw [ne_eq, not_not] at hlen
  refine ⟨hlen, ?_⟩
  have hmap : (es.zipIdx).map (fun p => (c.pushConstToConstraints.tupleDecl.elemCreateTerm p.2 p.2, some p.1)) =
      tupleSubMap es := by
    refine List.map_congr_left fun p hp => ?_
    obtain ⟨-, hlt, -⟩ := List.mem_zipIdx hp
    have hconst : c.pushConstToConstraints.tupleDecl.elemIsConst p.2 = false :=
      Conjunction.elemIsConst_pushConstToConstraints hc (by omega)
    simp only [TupleDecl.elemCreateTerm, hconst, Bool.false_eq_true, if_false]
  simp only [hmap] at h
  exact h

/-- The bound that a conjunction gives holds where it has the components. -/
theorem holds_boundTupleExp {c b : Conjunction} {es : List Exp} (hc : c.Bounds env I τ es)
    (hes : ∀ e ∈ es, IsInteger I e) (h : c.boundTupleExp env es = .ok b) :
    (b.Holds I τ ↔ components I τ es ∈ c.denote I) ∧ b.Ready I.cod := by
  obtain ⟨hlen, hclean⟩ := boundTupleExp_eq_ok hc.readable h
  obtain ⟨hpush, -⟩ := Conjunction.foldl_pushConst (I := I) (τ := τ) hc.readable c.arity
  obtain ⟨hpeq, hpineq⟩ := Conjunction.readable_iff.1 hpush
  have hev := evaluates_tupleSubMap (τ := τ) hes
  have hsub : ∀ e ∈ c.pushConstToConstraints.equalities ++ c.pushConstToConstraints.inequalities,
      (e.substitute (tupleSubMap es)).readable = true ∧
      (∀ k, (e.substitute (tupleSubMap es)).val I τ k = e.val I (valuation (components I τ es)) k) ∧
      (e.substitute (tupleSubMap es)).FitsAs I.cod Scalar Scalar AnyCall := by
    intro e he
    obtain ⟨v, hv, hf⟩ := hc.fits e he
    have hr : e.readable = true := (List.mem_append.1 he).elim (hpeq e) (hpineq e)
    obtain ⟨h₁, h₂, h₃⟩ := Exp.val_substitute hev.leaves (P := AnyCall) (fun _ _ _ _ _ _ => trivial) hr hf
    refine ⟨h₁, fun k => ?_, v, hv, h₃⟩
    rw [h₂]
    refine congrFun (Exp.val_congr (fun l hl => ?_) (hc.vars e he)) k
    exact if_pos (hlen ▸ hl)
  have hholds : c.pushConstToConstraints.Holds I (valuation (components I τ es)) ↔ components I τ es ∈ c.denote I :=
    Conjunction.holds_pushConstToConstraints hc.readable (by simp [components, hlen])
  have hread : (Conjunction.mk (c.pushConstToConstraints.equalities.map (Exp.substitute (tupleSubMap es)))
      (c.pushConstToConstraints.inequalities.map (Exp.substitute (tupleSubMap es))) (.sDefaultTupleDecl 0) 0).readable = true := by
    refine Conjunction.readable_iff.2 ⟨fun d hd => ?_, fun d hd => ?_⟩
    · obtain ⟨e, he, rfl⟩ := List.mem_map.1 hd
      exact (hsub e (List.mem_append_left _ he)).1
    · obtain ⟨e, he, rfl⟩ := List.mem_map.1 hd
      exact (hsub e (List.mem_append_right _ he)).1
  have hmemsub : ∀ d ∈ c.pushConstToConstraints.equalities.map (Exp.substitute (tupleSubMap es)) ++
      c.pushConstToConstraints.inequalities.map (Exp.substitute (tupleSubMap es)),
      ∃ e ∈ c.pushConstToConstraints.equalities ++ c.pushConstToConstraints.inequalities,
        d = e.substitute (tupleSubMap es) := by
    intro d hd
    rw [← List.map_append] at hd
    obtain ⟨e, he, rfl⟩ := List.mem_map.1 hd
    exact ⟨e, he, rfl⟩
  have hfitsub : (Conjunction.mk (c.pushConstToConstraints.equalities.map (Exp.substitute (tupleSubMap es)))
      (c.pushConstToConstraints.inequalities.map (Exp.substitute (tupleSubMap es))) (.sDefaultTupleDecl 0) 0).Fits
      I.cod Scalar Scalar AnyCall := by
    intro d hd
    obtain ⟨e, he, rfl⟩ := hmemsub d hd
    exact (hsub e he).2.2
  obtain ⟨hiff, hfits⟩ := Conjunction.cleanUp_keeps (I := I) (τ := τ)
    (fun _ _ _ _ _ _ => trivial) hread hfitsub
    (fun d hd => by obtain ⟨e, he, rfl⟩ := hmemsub d hd; exact hc.keeps e he) hclean
  refine ⟨hiff.trans (Iff.trans ?_ hholds), built_cleanUp hread hclean, hfits⟩
  unfold Conjunction.Holds
  dsimp only
  rw [List.forall_mem_map, List.forall_mem_map]
  refine and_congr (forall₂_congr fun e he => ?_) (forall₂_congr fun e he => ?_)
  · exact forall_congr' fun k => by rw [(hsub e (List.mem_append_left _ he)).2.1]
  · exact forall_congr' fun k => by rw [(hsub e (List.mem_append_right _ he)).2.1]

/-! ## The bounds of one call -/

theorem fits_foldl_insertUnique {cod : String → Nat} {es ds : List Exp} (hes : ∀ e ∈ es, e.FitsAs cod Scalar Scalar AnyCall)
    (hds : ∀ e ∈ ds, e.FitsAs cod Scalar Scalar AnyCall) :
    ∀ e ∈ ds.foldl (fun acc x => SortedList.insertUnique Exp.lt x acc) es, e.FitsAs cod Scalar Scalar AnyCall := by
  intro e he
  exact (SortedList.foldl_insertUnique_subset he).elim (hes e) (hds e)

theorem ready_intersect {cod : String → Nat} {c d : Conjunction} (hc : c.Ready cod) (hd : d.Ready cod) :
    (c.Intersect d).Ready cod := by
  refine ⟨built_intersect hc.built hd.built, ?_⟩
  rw [intersect_of_built hd.built]
  intro e he
  rcases List.mem_append.1 he with he | he
  · exact fits_foldl_insertUnique (fun e h => hc.fits e (List.mem_append_left _ h))
      (fun e h => hd.fits e (List.mem_append_left _ h)) e he
  · exact fits_foldl_insertUnique (fun e h => hc.fits e (List.mem_append_right _ h))
      (fun e h => hd.fits e (List.mem_append_right _ h)) e he

theorem ready_ofTupleDecl (cod : String → Nat) (d : TupleDecl) : (Conjunction.ofTupleDecl d).Ready cod :=
  ⟨⟨by simp [Conjunction.ofTupleDecl], by simp [Conjunction.ofTupleDecl], .nil, .nil⟩,
    by simp [Conjunction.Fits, Conjunction.ofTupleDecl]⟩

theorem holds_ofTupleDecl (d : TupleDecl) : (Conjunction.ofTupleDecl d).Holds I τ := by
  simp [Conjunction.Holds, Conjunction.ofTupleDecl]

/-- The bounds that have been added so far: one conjunction, which holds when `q` does. -/
def HoldsOne (q : Prop) (I : Interp) (τ : Nat → Int) (s : Set) : Prop :=
  ∃ d, s.conjunctions = [d] ∧ (d.Holds I τ ↔ q) ∧ d.Ready I.cod

/-- A conjunction with another declaration has the same constraints. -/
theorem setTupleDecl_keeps {c c' : Conjunction} {d : TupleDecl} (h : c.setTupleDecl d = .ok c') :
    c'.equalities = c.equalities ∧ c'.inequalities = c.inequalities := by
  unfold Conjunction.setTupleDecl at h
  rw [Outcome.bind_eq_ok] at h
  obtain ⟨elems, -, h⟩ := h
  cases h
  exact ⟨rfl, rfl⟩

theorem holdsOne_setTupleDecl {s s' : Set} {d : TupleDecl} (hs : HoldsOne q I τ s) (h : s.setTupleDecl d = .ok s') :
    HoldsOne q I τ s' := by
  obtain ⟨c, hc, hh, hr⟩ := hs
  unfold Set.setTupleDecl at h
  rw [hc, Outcome.bind_eq_ok] at h
  obtain ⟨cs, hcs, h⟩ := h
  cases h
  have hf := Outcome.forall₂_of_mapM hcs
  cases hf with
  | @cons _ c' _ cs' hset hnil =>
    cases hnil
    obtain ⟨he, hi⟩ := setTupleDecl_keeps hset
    refine ⟨c', rfl, ?_, ⟨?_, ?_⟩⟩
    · unfold Conjunction.Holds
      rw [he, hi]
      exact hh
    · exact ⟨by rw [he]; exact hr.built.equalities, by rw [hi]; exact hr.built.inequalities,
        by rw [he]; exact hr.built.sorted_equalities, by rw [hi]; exact hr.built.sorted_inequalities⟩
    · unfold Conjunction.Fits
      rw [he, hi]
      exact hr.fits

theorem holdsOne_intersect {q' : Prop} {s s' u : Set} (hs : HoldsOne q I τ s) (hs' : HoldsOne q' I τ s')
    (h : s.Intersect s' = .ok u) : HoldsOne (q ∧ q') I τ u := by
  obtain ⟨c, hc, hh, hr⟩ := hs
  obtain ⟨c', hc', hh', hr'⟩ := hs'
  unfold Set.Intersect at h
  split_ifs at h
  rw [hc, hc'] at h
  cases h
  refine ⟨c.Intersect c', rfl, ?_, ready_intersect hr hr'⟩
  rw [(Conjunction.intersect_adds hr.built.readable hr'.built.readable).holds I τ]
  exact and_congr hh hh'

/-- The functions take and give as many components as is declared. -/
structure Interp.Declared (I : Interp) (env : Environment) : Prop where
  dom : I.dom = env.domainArity
  cod : I.cod = env.rangeArity

/-- What a declared domain or range has to be: it has the tuples of one conjunction, which is what a copy of it holds. -/
def Bounding (env : Environment) (I : Interp) (τ : Nat → Int) (declared : Set) (es : List Exp) : Prop :=
  ∃ c, declared.copy env = .ok ⟨declared.arity, [c]⟩ ∧ c.arity = declared.arity ∧ c.denote I = declared.denote I ∧
    c.Bounds env I τ es

theorem holdsOne_boundTupleExp {declared bound b : Set} {es : List Exp} (hb : Bounding env I τ declared es)
    (hbound : declared.copy env = .ok bound) (hes : ∀ e ∈ es, IsInteger I e) {vs : List Int}
    (hvs : es.length = declared.arity → components I τ es = vs) (h : bound.boundTupleExp env es = .ok b) :
    HoldsOne (vs ∈ declared.denote I) I τ b := by
  obtain ⟨c, hcopy, harity, hdenote, hc⟩ := hb
  obtain rfl : bound = ⟨declared.arity, [c]⟩ := Except.ok.inj (hbound.symm.trans hcopy)
  unfold Set.boundTupleExp at h
  rw [Outcome.bind_eq_ok] at h
  obtain ⟨bs, hbs, h⟩ := h
  cases h
  have hf := Outcome.forall₂_of_mapM hbs
  cases hf with
  | @cons _ b' _ bs' hbc hnil =>
    cases hnil
    obtain ⟨hh, hr⟩ := holds_boundTupleExp hc hes hbc
    rw [hdenote, hvs ((boundTupleExp_eq_ok hc.readable hbc).1.trans harity)] at hh
    exact ⟨b', rfl, hh, hr⟩

/-- A bound that is exact keeps the bounds so far exact. -/
theorem holdsOne_addBound {declared bound s s' : Set} {es : List Exp} (hb : Bounding env I τ declared es)
    (hbound : declared.copy env = .ok bound) (hes : ∀ e ∈ es, IsInteger I e) {vs : List Int}
    (hvs : es.length = declared.arity → components I τ es = vs) (hs : HoldsOne q I τ s)
    (h : addBound env bound es s = .ok s') : HoldsOne (q ∧ vs ∈ declared.denote I) I τ s' := by
  unfold addBound at h
  simp only [Outcome.bind_eq_ok] at h
  obtain ⟨b, hbb, d, -, b', hset, h⟩ := h
  exact holdsOne_intersect hs (holdsOne_setTupleDecl (holdsOne_boundTupleExp hb hbound hes hvs hbb) hset) h

/-! ## The bounds of all calls -/

/-- The argument is in the declared domain, and the result in the declared range. -/
def Interp.Respects (I : Interp) (env : Environment) (τ : Nat → Int) (f : String) (as : List Exp) : Prop :=
  ∀ u, env.uninterpFuncMap.lookup f = some u → I.argTuple f (argsVal I τ as) ∈ u.domain.denote I ∧
    (List.range (I.cod f)).map (I.indexVal f (argsVal I τ as)) ∈ u.range.denote I

/-- The expressions for the components of a call, whatever its index. -/
def callComponents (cod : String → Nat) (f : String) (i : Option Nat) (as : List Exp) : List Exp :=
  (List.range (cod f)).map (fun j =>
    (Exp.mk .expression []).addTerm (.ufCall 1 f as (if cod f = 1 then i else some j)))

/-- What a call has to be for its bounds to be exact. -/
structure CallBounding (env : Environment) (I : Interp) (τ : Nat → Int) (f : String) (i : Option Nat) (as : List Exp) :
    Prop where
  index : ∀ j, i = some j → j < I.cod f
  domain : ∀ u, env.uninterpFuncMap.lookup f = some u → Bounding env I τ u.domain as
  range : ∀ u, env.uninterpFuncMap.lookup f = some u → Bounding env I τ u.range (callComponents I.cod f i as)

theorem components_args {f : String} {as : List Exp} (h : as.length = I.dom f) :
    components I τ as = I.argTuple f (argsVal I τ as) := by
  rw [argsVal_eq_map]
  cases as with
  | nil => rfl
  | cons e es =>
    cases es with
    | nil =>
      have hdom : I.dom f = 1 := h.symm
      simp [components, Interp.argTuple, hdom]
    | cons e' es => simp [components, Interp.argTuple]

/-- The components of a call are integers, with the values of the result. -/
theorem integer_callComponents {c : Int} {f : String} {i : Option Nat} {as : List Exp}
    (hr : (Term.ufCall c f as i).readable = true) (has : argsFits I.cod Scalar AnyCall as)
    (hindex : ∀ j, i = some j → j < I.cod f) :
    (∀ e ∈ callComponents I.cod f i as, IsInteger I e) ∧
      components I τ (callComponents I.cod f i as) = (List.range (I.cod f)).map (I.indexVal f (argsVal I τ as)) := by
  have hone : ∀ j < I.cod f, IsInteger I ((Exp.mk .expression []).addTerm
      (.ufCall 1 f as (if I.cod f = 1 then i else some j))) ∧ ((Exp.mk .expression []).addTerm
      (.ufCall 1 f as (if I.cod f = 1 then i else some j))).val I τ 0 = I.indexVal f (argsVal I τ as) j := by
    intro j hj
    have hread : (Term.ufCall 1 f as (if I.cod f = 1 then i else some j)).readable = true := hr
    have hused : (Term.ufCall 1 f as (if I.cod f = 1 then i else some j)).UsedAs I.cod false := by
      split_ifs with hcod
      · cases i with
        | none => exact iff_of_true rfl hcod
        | some j => rfl
      · rfl
    obtain ⟨hval, hfits⟩ := fits_addTerm_empty (τ := τ) (P := AnyCall) hread hused ⟨trivial, has⟩
    refine ⟨⟨?_, false, rfl, hfits⟩, ?_⟩
    · rw [Exp.readable_iff, terms_addTerm hread]
      exact forall_addOne (fun c t h => by rw [readable_setCoefficient]; exact h) hread (by simp)
    · rw [hval]
      split_ifs with hcod
      · obtain rfl : j = 0 := by omega
        cases i with
        | none => simp [Term.val, Interp.callVal, Interp.indexVal, hcod]
        | some j' =>
          obtain rfl : j' = 0 := by have := hindex j' rfl; omega
          simp [Term.val]
      · simp [Term.val]
  refine ⟨fun e he => ?_, ?_⟩
  · obtain ⟨j, hj, rfl⟩ := List.mem_map.1 he
    exact (hone j (List.mem_range.1 hj)).1
  · rw [components, callComponents, List.map_map]
    exact List.map_congr_left fun j hj => (hone j (List.mem_range.1 hj)).2

theorem isInteger_args {as : List Exp} (hr : argsReadable as = true) (h : argsFits I.cod Scalar AnyCall as) :
    ∀ e ∈ as, IsInteger I e := fun e he =>
  ⟨argsReadable_iff.1 hr e he, Exp.fits_iff.1 (argsFits_iff.1 h e he)⟩

/-- The bounds of a call say that its argument and its result are as declared. -/
theorem holdsOne_preVisitTerm {c : Int} {f : String} {i : Option Nat} {as : List Exp} {s s' : Set} (hI : I.Declared env)
    (hcall : CallBounding env I τ f i as) (hr : (Term.ufCall c f as i).readable = true)
    (has : argsFits I.cod Scalar AnyCall as) (hs : HoldsOne q I τ s)
    (h : VisitorBoundDomainRange.preVisitTerm env (.ufCall c f as i) s = .ok s') :
    HoldsOne (q ∧ I.Respects env τ f as) I τ s' := by
  unfold VisitorBoundDomainRange.preVisitTerm at h
  simp only [Outcome.bind_eq_ok] at h
  obtain ⟨dom, hdom, s₁, hs₁, ran, hran, h⟩ := h
  unfold Environment.queryDomain at hdom
  unfold Environment.queryRange at hran
  cases hu : env.uninterpFuncMap.lookup f with
  | none => rw [hu] at hdom; cases hdom
  | some u =>
    rw [hu] at hdom hran
    have hargs : argsReadable as = true := by
      simp only [Term.readable, Bool.and_eq_true] at hr
      exact hr.2
    have hd : I.dom f = u.domain.arity := by
      rw [hI.dom, Environment.domainArity, hu]
      rfl
    have h₁ := holdsOne_addBound (hcall.domain u hu) hdom (isInteger_args hargs has)
      (fun hlen => components_args (hlen.trans hd.symm)) hs hs₁
    have hcod : ran.arity = I.cod f := by
      obtain ⟨cs, -, hran⟩ := Outcome.bind_eq_ok.1 hran
      cases hran
      rw [hI.cod, Environment.rangeArity, hu]
      rfl
    obtain ⟨h₂, h₃⟩ := integer_callComponents (τ := τ) hr has hcall.index
    rw [hcod] at h
    have h₄ := holdsOne_addBound (hcall.range u hu) hran h₂ (fun _ => h₃) h₁ h
    rw [and_assoc] at h₄
    have hresp : I.Respects env τ f as ↔ I.argTuple f (argsVal I τ as) ∈ u.domain.denote I ∧
        (List.range (I.cod f)).map (I.indexVal f (argsVal I τ as)) ∈ u.range.denote I := by
      simp only [Interp.Respects, hu, Option.some.injEq, forall_eq']
    rwa [hresp]

theorem tupleDecl_intersect (c d : Conjunction) : (c.Intersect d).tupleDecl = c.tupleDecl := by
  rw [Conjunction.Intersect, foldl_addEquality_eq, foldl_addInequality_eq]

/-- A conjunction with the bounds that the visitor gathers, which start at the placeholder. -/
theorem boundDomainRange_gathers {G : Term → Prop} {P : String → Option Nat → List Exp → Prop} {R : Prop → Set → Prop}
    (hv : (VisitorBoundDomainRange.visitor env).Gathers G P R) {c c' : Conjunction}
    (hg : ∀ e ∈ c.equalities ++ c.inequalities, ∀ t ∈ e.terms, G t) {q : Prop} (hstart : R q (.ofTupleDecl c.tupleDecl))
    (h : c.boundDomainRange env = .ok c') : ∃ s d rest, R (q ∧ c.AllCalls P) s ∧ s.conjunctions = d :: rest ∧
      c.inArity < c.arity ∧ c' = { c.Intersect d with inArity := c.inArity } := by
  obtain ⟨hgeq, hgineq⟩ := List.forall_mem_append.1 hg
  unfold Conjunction.boundDomainRange Conjunction.acceptVisitor at h
  simp only [VisitorBoundDomainRange.visitor, Outcome.bind_eq_ok, Except.ok.injEq, exists_eq_left'] at h
  obtain ⟨s, ⟨s₁, h₁, s₂, h₂, rfl⟩, h⟩ := h
  have hgathered := hv.constraints hgineq (hv.constraints hgeq hstart h₁) h₂
  rw [and_assoc, ← List.forall_mem_append] at hgathered
  split at h
  · next d rest hd =>
    simp only [Conjunction.setInArity] at h
    split_ifs at h with hge
    cases h
    rw [tupleDecl_intersect] at hge
    exact ⟨s₂, d, rest, hgathered, hd, not_le.1 hge, rfl⟩
  · cases h

/-- The bounds say of each call that its argument and its result are as declared. -/
theorem gathers_holdsOne (hI : I.Declared env) : (VisitorBoundDomainRange.visitor env).Gathers
    (fun t => t.readable = true ∧ t.Fits I.cod Scalar (CallBounding env I τ))
    (fun f _ as => I.Respects env τ f as) (fun q s => HoldsOne q I τ s) where
  args h e he t ht := by
    obtain ⟨hr, hf⟩ := h
    simp only [Term.readable, Bool.and_eq_true] at hr
    obtain ⟨v, -, hfe⟩ := Exp.fits_iff.1 (argsFits_iff.1 hf.2 e he)
    exact ⟨Exp.readable_iff.1 (argsReadable_iff.1 hr.2 e he) t ht, (hfe t ht).2⟩
  call h hs ha :=
    holdsOne_preVisitTerm hI h.2.1 h.1 (argsFits.imp (fun _ _ _ _ => trivial) h.2.2) hs ha
  other {t s} h := by
    cases t with
    | ufCall c f as i => exact absurd rfl (h c f as i)
    | _ => rfl
  postTerm _ _ := rfl
  preExp _ _ := rfl
  postExp _ _ := rfl

/-- The bounded conjunction holds where the conjunction does and all of its calls are as declared. -/
theorem boundDomainRange_holds (hI : I.Declared env) {c c' : Conjunction} (hc : c.readable = true)
    (hf : c.Fits I.cod (fun _ => True) Scalar (CallBounding env I τ)) (h : c.boundDomainRange env = .ok c') :
    (c'.Holds I τ ↔ c.Holds I τ ∧ c.AllCalls (fun f _ as => I.Respects env τ f as)) ∧ c'.tupleDecl = c.tupleDecl := by
  obtain ⟨heqs, hineqs⟩ := Conjunction.readable_iff.1 hc
  have hstart : HoldsOne True I τ (Set.ofTupleDecl c.tupleDecl) :=
    ⟨.ofTupleDecl c.tupleDecl, rfl, iff_true_intro (holds_ofTupleDecl _), ready_ofTupleDecl _ _⟩
  have hg : ∀ e ∈ c.equalities ++ c.inequalities, ∀ t ∈ e.terms,
      t.readable = true ∧ t.Fits I.cod Scalar (CallBounding env I τ) := by
    intro e he t ht
    obtain ⟨v, -, hfe⟩ := hf e he
    exact ⟨Exp.readable_iff.1 ((List.mem_append.1 he).elim (heqs e) (hineqs e)) t ht, (hfe t ht).2⟩
  obtain ⟨s, d, rest, hone, hd, -, rfl⟩ := boundDomainRange_gathers (gathers_holdsOne hI) hg hstart h
  obtain ⟨d', hd', hdh, hdr⟩ := hone
  obtain ⟨rfl, -⟩ := List.cons_eq_cons.1 (hd.symm.trans hd')
  have hadds := Conjunction.intersect_adds hc hdr.built.readable
  refine ⟨(hadds.holds I τ).trans (and_congr_right fun _ => ?_), hadds.tupleDecl⟩
  rw [hdh, true_and]

end Bound

end IEGen
