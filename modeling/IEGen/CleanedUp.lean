import IEGen.Collapse

/-!
# Cleaned-up unions

What `cleanUp` leaves as it is: the constraints are canonical, normalized, in order, and collapse to themselves
(`Conjunction.Clean`). The proof counts terms: no step of `cleanUp` adds to the size of a constraint, so where the whole
union comes back, no constraint was collapsed and no terms were merged.

Copying a cleaned-up union keeps the conjunctions that `addConjunction` keeps, each one as it is.
-/

namespace IEGen

open SortedList (Tied Sorted build insertUnique)
open Outcome (bind_eq_ok forall₂_of_mapM)

/-! ## Normalizing nonzero terms -/

/-- Normalizing expressions without zero coefficients only changes the sign. -/
theorem normalizeForEquality_of_nonzero {e : Exp} (h : ∀ t ∈ e.terms, t.coefficient ≠ 0) :
    e.normalizeForEquality = e ∧ (∀ t ∈ e.terms.head?, 0 < t.coefficient) ∨
      e.normalizeForEquality = e.multiplyBy (-1) ∧ ∃ t ∈ e.terms.head?, t.coefficient < 0 := by
  unfold Exp.normalizeForEquality
  split
  · next hn => exact .inl ⟨rfl, by simp [hn]⟩
  · next first rest hn =>
    have h0 := h first (hn ▸ List.mem_cons_self)
    split_ifs with hneg
    · refine .inr ⟨?_, first, by simp [hn], hneg⟩
      dsimp only
      split
      · next last hl =>
        obtain ⟨u, hu, rfl⟩ := List.mem_map.1 (List.mem_of_getLast? hl)
        have hu0 := h u hu
        rw [if_neg]
        simp only [Term.multiplyBy, Term.coefficient_setCoefficient]
        omega
      · rfl
    · refine .inl ⟨?_, fun t ht => ?_⟩
      · dsimp only
        split
        · next last hl => rw [if_neg (h last (List.mem_of_getLast? hl))]
        · rfl
      · simp only [hn, List.head?_cons, Option.mem_some_iff] at ht
        subst ht
        omega

theorem nonzero_multiplyBy {e : Exp} {k : Int} (hk : k ≠ 0) (h : ∀ t ∈ e.terms, t.coefficient ≠ 0) :
    ∀ t ∈ (e.multiplyBy k).terms, t.coefficient ≠ 0 := by
  intro t ht
  obtain ⟨u, hu, rfl⟩ := List.mem_map.1 ht
  simpa [Term.multiplyBy, hk] using h u hu

theorem nonzero_normalizeForEquality {e : Exp} (h : ∀ t ∈ e.terms, t.coefficient ≠ 0) :
    ∀ t ∈ e.normalizeForEquality.terms, t.coefficient ≠ 0 := by
  rcases normalizeForEquality_of_nonzero h with ⟨he, -⟩ | ⟨he, -⟩
  · rw [he]; exact h
  · rw [he]; exact nonzero_multiplyBy (by omega) h

theorem head_pos_normalizeForEquality {e : Exp} (h : ∀ t ∈ e.terms, t.coefficient ≠ 0) :
    ∀ t ∈ e.normalizeForEquality.terms.head?, 0 < t.coefficient := by
  rcases normalizeForEquality_of_nonzero h with ⟨he, hpos⟩ | ⟨he, u, hu, hneg⟩
  · rw [he]; exact hpos
  · intro t ht
    rw [he, Exp.terms_multiplyBy, List.head?_map, Option.mem_def.1 hu, Option.map_some, Option.mem_some_iff] at ht
    subst ht
    simp only [Term.multiplyBy, Term.coefficient_setCoefficient]
    omega

/-- An expression without zero coefficients that starts with a positive one is normalized. -/
theorem normalizeForEquality_eq_self {e : Exp} (h : ∀ t ∈ e.terms, t.coefficient ≠ 0)
    (hpos : ∀ t ∈ e.terms.head?, 0 < t.coefficient) : e.normalizeForEquality = e := by
  rcases normalizeForEquality_of_nonzero h with ⟨he, -⟩ | ⟨-, t, ht, hneg⟩
  · exact he
  · have := hpos t ht
    omega

theorem multiplyBy_multiplyBy (e : Exp) {k : Int} (hk : k = 1 ∨ k = -1) : (e.multiplyBy k).multiplyBy k = e := by
  have hkk : k * k = 1 := by rcases hk with rfl | rfl <;> rfl
  have hterm : ∀ t : Term, (t.multiplyBy k).multiplyBy k = t := by
    intro t
    simp only [Term.multiplyBy, Term.coefficient_setCoefficient, Term.setCoefficient_setCoefficient, mul_assoc, hkk,
      mul_one, Term.setCoefficient_self]
  have hterms : e.terms.map (Term.multiplyBy k ∘ Term.multiplyBy k) = e.terms :=
    (List.map_congr_left fun t _ => hterm t).trans (List.map_id _)
  rw [← Exp.mk_expType_terms ((e.multiplyBy k).multiplyBy k), Exp.terms_multiplyBy, Exp.terms_multiplyBy, List.map_map,
    hterms]
  exact Exp.mk_expType_terms e

theorem exists_scale {e : Exp} (hz : ∀ t ∈ e.terms, t.coefficient ≠ 0) :
    ∃ k : Int, (k = 1 ∨ k = -1) ∧ e.normalizeForEquality = e.multiplyBy k := by
  rcases normalizeForEquality_of_nonzero hz with ⟨h, -⟩ | ⟨h, -⟩
  · refine ⟨1, .inl rfl, ?_⟩
    rw [h, Exp.multiplyBy, List.map_congr_left (g := id) (fun t _ => multiplyBy_one t), List.map_id, Exp.mk_expType_terms]
  · exact ⟨-1, .inr rfl, h⟩

/-- Normalizing undoes a change of the sign. -/
theorem normalizeForEquality_multiplyBy {e : Exp} (hz : ∀ t ∈ e.terms, t.coefficient ≠ 0)
    (hpos : ∀ t ∈ e.terms.head?, 0 < t.coefficient) {k : Int} (hk : k = 1 ∨ k = -1) :
    (e.multiplyBy k).normalizeForEquality = e := by
  have hz' : ∀ t ∈ (e.multiplyBy k).terms, t.coefficient ≠ 0 :=
    nonzero_multiplyBy (by rcases hk with rfl | rfl <;> omega) hz
  obtain ⟨j, hj, hn⟩ := exists_scale hz'
  by_cases hjk : j = k
  · rw [hn, hjk, multiplyBy_multiplyBy e hk]
  · -- the other sign would leave a negative coefficient in front
    have hpos' := head_pos_normalizeForEquality hz'
    cases hts : e.terms with
    | nil =>
      rw [hn, ← Exp.mk_expType_terms ((e.multiplyBy k).multiplyBy j), Exp.terms_multiplyBy, Exp.terms_multiplyBy, hts]
      rw [← Exp.mk_expType_terms e, hts]
      rfl
    | cons t ts =>
      rw [hts] at hpos
      have h₁ := hpos t rfl
      have h₂ := hpos' ((t.multiplyBy k).multiplyBy j) (by rw [hn, Exp.terms_multiplyBy, Exp.terms_multiplyBy, hts]; rfl)
      simp only [Term.multiplyBy, Term.coefficient_setCoefficient] at h₂
      rcases hk with rfl | rfl <;> rcases hj with rfl | rfl <;> first | exact absurd rfl hjk | omega

theorem size_normalizeForEquality_le (e : Exp) : e.normalizeForEquality.size ≤ e.size := by
  obtain ⟨s, -, z, hz, -⟩ := e.normalizeForEquality_spec
  have h := size_multiplyBy s e
  rw [Exp.size_eq, hz, termsSize_append] at h
  rw [Exp.size_eq]
  omega

/-! ## Clean terms -/

/-- The terms of an expression that has been built term by term, none of them a tuple, and no two of one factor. -/
structure CleanTerms (ts : List Term) : Prop where
  readable : ∀ t ∈ ts, t.readable = true
  canonical : ∀ t ∈ ts, t.coefficient ≠ 0 ∧ t.Canonical
  sorted : Sorted Term.factorLt ts
  unmatched : Unmatched ts

theorem sorted_map_multiplyBy {ts : List Term} {k : Int} (h : Sorted Term.factorLt ts) :
    Sorted Term.factorLt (ts.map (Term.multiplyBy k)) := by
  refine List.pairwise_map.2 (h.imp fun {a b} hab => ?_)
  simpa [Term.multiplyBy] using hab

theorem canonical_multiplyBy {e : Exp} {k : Int} (hk : k ≠ 0) (h : e.Canonical) : (e.multiplyBy k).Canonical := by
  obtain ⟨ht, hs, hz⟩ := Exp.canonical_iff.1 h
  refine Exp.canonical_iff.2 ⟨ht, sorted_map_multiplyBy hs, fun t h => ?_⟩
  obtain ⟨u, hu, rfl⟩ := List.mem_map.1 h
  exact ⟨by simpa [Term.multiplyBy, hk] using (hz u hu).1, canonical_setCoefficient (hz u hu).2⟩

theorem canonical_normalizeForEquality {e : Exp} (h : e.Canonical) : e.normalizeForEquality.Canonical := by
  have hz : ∀ t ∈ e.terms, t.coefficient ≠ 0 := fun t ht => ((Exp.canonical_iff.1 h).2.2 t ht).1
  rcases normalizeForEquality_of_nonzero hz with ⟨he, -⟩ | ⟨he, -⟩
  · rw [he]; exact h
  · rw [he]; exact canonical_multiplyBy (by omega) h

/-! ## Sizes of lists of constraints -/

section Sizes

/-- The size of a list of constraints. -/
def expsSize (es : List Exp) : Nat := (es.map Exp.size).sum

@[simp] theorem expsSize_nil : expsSize [] = 0 := rfl

@[simp] theorem expsSize_cons (e : Exp) (es : List Exp) : expsSize (e :: es) = e.size + expsSize es := by
  simp [expsSize]

theorem expsSize_insertUnique_le (e : Exp) (es : List Exp) : expsSize (insertUnique Exp.lt e es) ≤ e.size + expsSize es := by
  induction es with
  | nil => simp [insertUnique]
  | cons d es ih =>
    simp only [insertUnique]
    split_ifs <;> simp only [expsSize_cons] <;> omega

theorem expsSize_foldl_insertUnique_le (es acc : List Exp) :
    expsSize (es.foldl (fun acc x => insertUnique Exp.lt x acc) acc) ≤ expsSize acc + expsSize es := by
  induction es generalizing acc with
  | nil => simp
  | cons e es ih =>
    have h₁ := ih (insertUnique Exp.lt e acc)
    have h₂ := expsSize_insertUnique_le e acc
    simp only [List.foldl_cons, expsSize_cons]
    omega

theorem expsSize_build_le (es : List Exp) : expsSize (build Exp.lt es) ≤ expsSize es := by
  simpa [build] using expsSize_foldl_insertUnique_le es []

theorem expsSize_filterMap_le {f : Exp → Option Exp} (hf : ∀ e, ∀ e' ∈ f e, e'.size ≤ e.size) (es : List Exp) :
    expsSize (es.filterMap f) ≤ expsSize es := by
  induction es with
  | nil => simp
  | cons e es ih =>
    rw [List.filterMap_cons]
    cases h : f e with
    | none => simp only [expsSize_cons]; omega
    | some e' =>
      have := hf e e' (by rw [h]; rfl)
      simp only [expsSize_cons]
      omega

/-- Where no element grows and the sum stays, no element shrinks. -/
theorem size_eq_of_sum_le {α β : Type*} {f : α → Nat} {g : β → Nat} {R : α → β → Prop} (hR : ∀ {a b}, R a b → g b ≤ f a)
    {l : List α} {r : List β} (h : List.Forall₂ R l r) (hsum : (l.map f).sum ≤ (r.map g).sum) :
    List.Forall₂ (fun a b => R a b ∧ g b = f a) l r := by
  have total : ∀ {l : List α} {r : List β}, List.Forall₂ R l r → (r.map g).sum ≤ (l.map f).sum := by
    intro l r h
    induction h with
    | nil => simp
    | cons hab _ ih => have := hR hab; simp only [List.map_cons, List.sum_cons]; omega
  induction h with
  | nil => exact .nil
  | cons hab hrest ih =>
    have h₁ := hR hab
    have h₂ := total hrest
    simp only [List.map_cons, List.sum_cons] at hsum
    exact .cons ⟨hab, by omega⟩ (ih (by omega))

end Sizes

/-! ## The lists that adding constraints builds -/

/-- What `addEquality` puts into the list, if anything. -/
def Exp.asEquality (e : Exp) : Option Exp :=
  if e.normalizeForEquality.equalsZero then none else some e.normalizeForEquality.setEquality

/-- What `addInequality` puts into the list, if anything. -/
def Exp.asInequality (e : Exp) : Option Exp := if e.equalsZero then none else some e.setInequality

theorem Exp.eq_of_mem_asEquality {e d : Exp} (h : d ∈ e.asEquality) : d = e.normalizeForEquality.setEquality := by
  unfold asEquality at h
  split_ifs at h
  · cases h
  · exact (Option.mem_some_iff.1 h).symm

theorem Exp.eq_of_mem_asInequality {e d : Exp} (h : d ∈ e.asInequality) : d = e.setInequality := by
  unfold asInequality at h
  split_ifs at h
  · cases h
  · exact (Option.mem_some_iff.1 h).symm

theorem foldl_addEquality_eq (es : List Exp) (c : Conjunction) : es.foldl Conjunction.addEquality c =
    { c with equalities := (es.filterMap Exp.asEquality).foldl (fun acc x => insertUnique Exp.lt x acc) c.equalities } := by
  induction es generalizing c with
  | nil => rfl
  | cons e es ih =>
    rw [List.foldl_cons, ih, List.filterMap_cons]
    by_cases h : e.normalizeForEquality.equalsZero = true
    · simp [Conjunction.addEquality, Exp.asEquality, h]
    · simp [Conjunction.addEquality, Exp.asEquality, h]

theorem foldl_addInequality_eq (es : List Exp) (c : Conjunction) : es.foldl Conjunction.addInequality c =
    { c with inequalities :=
        (es.filterMap Exp.asInequality).foldl (fun acc x => insertUnique Exp.lt x acc) c.inequalities } := by
  induction es generalizing c with
  | nil => rfl
  | cons e es ih =>
    rw [List.foldl_cons, ih, List.filterMap_cons]
    by_cases h : e.equalsZero = true
    · simp [Conjunction.addInequality, Exp.asInequality, h]
    · simp [Conjunction.addInequality, Exp.asInequality, h]

section CleanUp

variable {env : Environment}

/-- The lists of a conjunction that has been cleaned up. -/
theorem cleanUp_eq_ok {c c' : Conjunction} (h : c.cleanUp env = .ok c') : ∃ eqs ineqs,
    List.Forall₂ (fun e d => e.normalizeForEquality.collapseNestedInvertibleFunctions env = .ok d) c.equalities eqs ∧
    List.Forall₂ (fun e d => e.collapseNestedInvertibleFunctions env = .ok d) c.inequalities ineqs ∧
    c' = ⟨build Exp.lt ((eqs.filter (fun e => !e.equalsZero)).filterMap Exp.asEquality),
      build Exp.lt ((ineqs.filter (fun e => !e.equalsZero)).filterMap Exp.asInequality), c.tupleDecl, c.inArity⟩ := by
  unfold Conjunction.cleanUp at h
  simp only [bind_eq_ok] at h
  obtain ⟨eqs, heqs, ineqs, hineqs, h⟩ := h
  rw [foldl_addEquality_eq, foldl_addInequality_eq] at h
  cases h
  exact ⟨eqs, ineqs, forall₂_of_mapM heqs, forall₂_of_mapM hineqs, rfl⟩

/-- An equality that is left is what one of the equalities collapsed to, normalized. -/
theorem exists_of_mem_cleanUp_equalities {c c' : Conjunction} (h : c.cleanUp env = .ok c') {d : Exp} (hd : d ∈ c'.equalities) :
    ∃ e ∈ c.equalities, ∃ e', e.normalizeForEquality.collapseNestedInvertibleFunctions env = .ok e' ∧ d ∈ e'.asEquality := by
  obtain ⟨eqs, ineqs, h₁, -, rfl⟩ := cleanUp_eq_ok h
  obtain ⟨e', he', hde⟩ := List.mem_filterMap.1 (SortedList.mem_of_mem_build hd)
  obtain ⟨e, he, hcol⟩ := Outcome.exists_of_mem_forall₂ h₁ (List.mem_filter.1 he').1
  exact ⟨e, he, e', hcol, hde⟩

/-- An inequality that is left is what one of the inequalities collapsed to. -/
theorem exists_of_mem_cleanUp_inequalities {c c' : Conjunction} (h : c.cleanUp env = .ok c') {d : Exp}
    (hd : d ∈ c'.inequalities) :
    ∃ e ∈ c.inequalities, ∃ e', e.collapseNestedInvertibleFunctions env = .ok e' ∧ d ∈ e'.asInequality := by
  obtain ⟨eqs, ineqs, -, h₂, rfl⟩ := cleanUp_eq_ok h
  obtain ⟨e', he', hde⟩ := List.mem_filterMap.1 (SortedList.mem_of_mem_build hd)
  obtain ⟨e, he, hcol⟩ := Outcome.exists_of_mem_forall₂ h₂ (List.mem_filter.1 he').1
  exact ⟨e, he, e', hcol, hde⟩

/-- Where every constraint collapses, the clean-up returns. -/
theorem Conjunction.cleanUp_returns {c : Conjunction}
    (heqs : ∀ e ∈ c.equalities, ∃ d, e.normalizeForEquality.collapseNestedInvertibleFunctions env = .ok d)
    (hineqs : ∀ e ∈ c.inequalities, ∃ d, e.collapseNestedInvertibleFunctions env = .ok d) : ∃ c', c.cleanUp env = .ok c' := by
  obtain ⟨eqs, heqs⟩ := Outcome.exists_mapM heqs
  obtain ⟨ineqs, hineqs⟩ := Outcome.exists_mapM hineqs
  unfold Conjunction.cleanUp
  simp only [bind_eq_ok]
  exact ⟨_, eqs, heqs, ineqs, hineqs, rfl⟩

/-- A constraint that is normalized, in order and not changed by collapsing. -/
structure CleanExp (env : Environment) (k : ExpType) (e : Exp) : Prop where
  expType : e.expType = k
  terms : CleanTerms e.terms
  ne_nil : e.terms ≠ []
  collapse : e.collapseNestedInvertibleFunctions env = .ok (.mk .expression e.terms)

/-- A conjunction that `cleanUp` leaves as it is. -/
structure Conjunction.Clean (env : Environment) (c : Conjunction) : Prop where
  equalities : ∀ e ∈ c.equalities, CleanExp env .equality e ∧ e.normalizeForEquality = e
  inequalities : ∀ e ∈ c.inequalities, CleanExp env .inequality e
  sorted_equalities : Sorted Exp.lt c.equalities
  sorted_inequalities : Sorted Exp.lt c.inequalities

def Conjunction.size (c : Conjunction) : Nat := expsSize c.equalities + expsSize c.inequalities

theorem size_setEquality (e : Exp) : e.setEquality.size = e.size := by cases e; rfl

theorem size_setInequality (e : Exp) : e.setInequality.size = e.size := by cases e; rfl

theorem size_asEquality_le (e : Exp) : ∀ e' ∈ e.asEquality, e'.size ≤ e.size := by
  intro e' h
  rw [Exp.eq_of_mem_asEquality h, size_setEquality]
  exact size_normalizeForEquality_le e

theorem size_asInequality_le (e : Exp) : ∀ e' ∈ e.asInequality, e'.size ≤ e.size := by
  intro e' h
  rw [Exp.eq_of_mem_asInequality h, size_setInequality]

theorem expsSize_filter_le (p : Exp → Bool) (es : List Exp) : expsSize (es.filter p) ≤ expsSize es := by
  rw [← List.filterMap_eq_filter]
  refine expsSize_filterMap_le (fun e e' h => ?_) es
  unfold Option.guard at h
  split_ifs at h
  · rw [Option.mem_some_iff] at h; rw [h]
  · cases h

theorem size_normalize_collapse_le {e d : Exp} (hr : e.readable = true)
    (h : e.normalizeForEquality.collapseNestedInvertibleFunctions env = .ok d) : d.size ≤ e.size :=
  le_trans (Exp.size_collapse_le (readable_normalizeForEquality hr) h) (size_normalizeForEquality_le e)

/-- What `cleanUp` makes of a constraint: canonical terms, at least one, of the right kind. -/
structure BuiltExp (k : ExpType) (e : Exp) : Prop where
  expType : e.expType = k
  readable : e.readable = true
  canonical : (Exp.mk .expression e.terms).Canonical
  ne_nil : e.terms ≠ []

theorem ne_nil_of_equalsZero {e : Exp} (h : ¬ e.equalsZero = true) : e.terms ≠ [] := by
  intro hn
  simp [Exp.equalsZero, hn] at h

theorem builtExp_asEquality {e d : Exp} (hc : e.Canonical) (hr : e.readable = true) (hd : d ∈ e.asEquality) :
    BuiltExp .equality d ∧ d.normalizeForEquality = d := by
  unfold Exp.asEquality at hd
  split_ifs at hd with h0
  · cases hd
  · rw [Option.mem_some_iff] at hd
    subst hd
    have hz : ∀ t ∈ e.terms, t.coefficient ≠ 0 := fun t ht => ((Exp.canonical_iff.1 hc).2.2 t ht).1
    have hcn := canonical_normalizeForEquality hc
    have hk := (Exp.canonical_iff.1 hcn).1
    refine ⟨⟨rfl, ?_, ?_, ne_nil_of_equalsZero h0⟩, ?_⟩
    · rw [readable_setEquality]
      exact readable_normalizeForEquality hr
    · rw [Exp.terms_setEquality, ← hk, Exp.mk_expType_terms]
      exact hcn
    · exact normalizeForEquality_eq_self (nonzero_normalizeForEquality hz) (head_pos_normalizeForEquality hz)

theorem builtExp_asInequality {e d : Exp} (hc : e.Canonical) (hr : e.readable = true) (hd : d ∈ e.asInequality) :
    BuiltExp .inequality d := by
  unfold Exp.asInequality at hd
  split_ifs at hd with h0
  · cases hd
  · rw [Option.mem_some_iff] at hd
    subst hd
    refine ⟨rfl, ?_, ?_, ne_nil_of_equalsZero h0⟩
    · rw [readable_setInequality]
      exact hr
    · rw [Exp.terms_setInequality, ← (Exp.canonical_iff.1 hc).1, Exp.mk_expType_terms]
      exact hc

/-- Constraints of one kind that neither comes before the other are equal. -/
theorem BuiltExp.eq_of_tied {k : ExpType} {e d : Exp} (he : BuiltExp k e) (hd : BuiltExp k d) (h : Tied Exp.lt e d) :
    e = d := by
  have hterms : e.terms = d.terms := by
    have hf : List.Forall₂ (Tied Term.lt) e.terms d.terms := SortedList.tied_sizeLexLt.1 h
    have hcan : ∀ {b : Exp}, BuiltExp k b → ∀ t ∈ b.terms, t.readable = true ∧ t.Canonical := fun hb t ht =>
      ⟨Exp.readable_iff.1 hb.readable t ht, ((Exp.canonical_iff.1 hb.canonical).2.2 t ht).2⟩
    refine Outcome.eq_of_forall₂ hf fun t ht u hu htied => ?_
    exact Term.eq_of_tied (hcan he t ht).1 (hcan hd u hu).1 (hcan he t ht).2 (hcan hd u hu).2 htied
  rw [← Exp.mk_expType_terms e, ← Exp.mk_expType_terms d, hterms, he.expType, hd.expType]

/-- What `cleanUp` makes of a conjunction. -/
structure Conjunction.Built (c : Conjunction) : Prop where
  equalities : ∀ e ∈ c.equalities, BuiltExp .equality e ∧ e.normalizeForEquality = e
  inequalities : ∀ e ∈ c.inequalities, BuiltExp .inequality e
  sorted_equalities : Sorted Exp.lt c.equalities
  sorted_inequalities : Sorted Exp.lt c.inequalities

theorem built_cleanUp {c c' : Conjunction} (hr : c.readable = true) (h : c.cleanUp env = .ok c') : c'.Built := by
  obtain ⟨heqs, hineqs⟩ := Conjunction.readable_iff.1 hr
  refine ⟨fun d hd => ?_, fun d hd => ?_, ?_, ?_⟩
  · obtain ⟨e, he, e', hcol, hde⟩ := exists_of_mem_cleanUp_equalities h hd
    obtain ⟨hc, hr'⟩ := Exp.canonical_collapse (readable_normalizeForEquality (heqs e he)) hcol
    exact builtExp_asEquality hc hr' hde
  · obtain ⟨e, he, e', hcol, hde⟩ := exists_of_mem_cleanUp_inequalities h hd
    obtain ⟨hc, hr'⟩ := Exp.canonical_collapse (hineqs e he) hcol
    exact builtExp_asInequality hc hr' hde
  all_goals
    obtain ⟨eqs, ineqs, -, -, rfl⟩ := cleanUp_eq_ok h
    exact SortedList.sorted_build strictWeak_expLt _

theorem expsSize_le_of_forall₂ {R : Exp → Exp → Prop} (hR : ∀ {e d}, R e d → d.size ≤ e.size) {es ds : List Exp}
    (h : List.Forall₂ R es ds) : expsSize ds ≤ expsSize es := by
  induction h with
  | nil => exact le_rfl
  | cons hed _ ih =>
    have := hR hed
    simp only [expsSize_cons]
    omega

/-- The steps of `cleanUp` that do not add to the size of the constraints. -/
theorem size_cleanUp_le {c c' : Conjunction} (hr : c.readable = true) (h : c.cleanUp env = .ok c') :
    c'.size ≤ c.size ∧ (c'.size = c.size →
      (∀ e ∈ c.equalities, ∃ d, e.normalizeForEquality.collapseNestedInvertibleFunctions env = .ok d ∧ d.size = e.size) ∧
      ∀ e ∈ c.inequalities, ∃ d, e.collapseNestedInvertibleFunctions env = .ok d ∧ d.size = e.size) := by
  obtain ⟨heqs, hineqs⟩ := Conjunction.readable_iff.1 hr
  obtain ⟨eqs, ineqs, h₁, h₂, rfl⟩ := cleanUp_eq_ok h
  have h₁' : List.Forall₂ (fun e d => e.normalizeForEquality.collapseNestedInvertibleFunctions env = .ok d ∧
      d.size ≤ e.size) c.equalities eqs := by
    refine (List.forall₂_and_left (p := fun e : Exp => e.readable = true) _ _).2 ⟨heqs, h₁⟩ |>.imp fun e d hed => ⟨hed.2, ?_⟩
    exact size_normalize_collapse_le hed.1 hed.2
  have h₂' : List.Forall₂ (fun e d => e.collapseNestedInvertibleFunctions env = .ok d ∧ d.size ≤ e.size)
      c.inequalities ineqs := by
    refine (List.forall₂_and_left (p := fun e : Exp => e.readable = true) _ _).2 ⟨hineqs, h₂⟩ |>.imp fun e d hed => ⟨hed.2, ?_⟩
    exact Exp.size_collapse_le hed.1 hed.2
  have hbuilt : ∀ {f : Exp → Option Exp}, (∀ e, ∀ e' ∈ f e, e'.size ≤ e.size) → ∀ es : List Exp,
      expsSize (build Exp.lt ((es.filter (fun e => !e.equalsZero)).filterMap f)) ≤ expsSize es := fun hf es =>
    (expsSize_build_le _).trans ((expsSize_filterMap_le hf _).trans (expsSize_filter_le _ es))
  have e₁ := hbuilt size_asEquality_le eqs
  have e₂ := hbuilt size_asInequality_le ineqs
  have e₃ := expsSize_le_of_forall₂ And.right h₁'
  have e₄ := expsSize_le_of_forall₂ And.right h₂'
  simp only [Conjunction.size]
  refine ⟨by omega, fun hsize => ⟨fun e he => ?_, fun e he => ?_⟩⟩
  · obtain ⟨d, -, hd⟩ := Outcome.exists_of_mem_forall₂ (size_eq_of_sum_le (f := Exp.size) (g := Exp.size) And.right h₁'
      (by unfold expsSize at *; omega)).flip he
    exact ⟨d, hd.1.1, hd.2⟩
  · obtain ⟨d, -, hd⟩ := Outcome.exists_of_mem_forall₂ (size_eq_of_sum_le (f := Exp.size) (g := Exp.size) And.right h₂'
      (by unfold expsSize at *; omega)).flip he
    exact ⟨d, hd.1.1, hd.2⟩

/-- A built constraint that keeps its size is not changed. -/
theorem cleanExp_of_size {k : ExpType} {e d : Exp} (hb : BuiltExp k e)
    (h : e.collapseNestedInvertibleFunctions env = .ok d) (hsize : d.size = e.size) : CleanExp env k e := by
  obtain ⟨k', ts⟩ := e
  obtain ⟨hk, hr, hc, hne⟩ := hb
  obtain ⟨-, hs, hz⟩ := Exp.canonical_iff.1 hc
  obtain ⟨hd, -, hu⟩ := termsCollapse_eq_of_size hr hz canonical_empty rfl hs h
    (by simpa [Exp.size, termsSize] using hsize)
  exact ⟨hk, ⟨Exp.readable_iff.1 hr, hz, hs, hu⟩, hne, by rw [h, hd]; rfl⟩

theorem clean_of_size {c c' : Conjunction} (hr : c.readable = true) (hb : c.Built) (h : c.cleanUp env = .ok c')
    (hsize : c'.size = c.size) : c.Clean env := by
  obtain ⟨heqs, hineqs⟩ := (size_cleanUp_le hr h).2 hsize
  refine ⟨fun e he => ?_, fun e he => ?_, hb.sorted_equalities, hb.sorted_inequalities⟩
  · obtain ⟨hbe, hn⟩ := hb.equalities e he
    obtain ⟨d, hd, hs⟩ := heqs e he
    rw [hn] at hd
    exact ⟨cleanExp_of_size hbe hd hs, hn⟩
  · obtain ⟨d, hd, hs⟩ := hineqs e he
    exact cleanExp_of_size (hb.inequalities e he) hd hs

theorem equalsZero_of_nonzero {e : Exp} (hne : e.terms ≠ []) (hz : ∀ t ∈ e.terms, t.coefficient ≠ 0) : e.equalsZero = false := by
  unfold Exp.equalsZero
  split
  · next hn => exact absurd hn hne
  · next t ht => simpa using hz t (ht ▸ List.mem_singleton_self t)
  · rfl

namespace BuiltExp

variable {k : ExpType} {e : Exp}

theorem equalsZero (h : BuiltExp k e) : e.equalsZero = false :=
  equalsZero_of_nonzero h.ne_nil fun t ht => ((Exp.canonical_iff.1 h.canonical).2.2 t ht).1

theorem asEquality (h : BuiltExp .equality e) (hn : e.normalizeForEquality = e) : e.asEquality = some e := by
  rw [Exp.asEquality, hn, h.equalsZero, if_neg Bool.false_ne_true, Exp.setEquality, ← h.expType, Exp.mk_expType_terms]

theorem asInequality (h : BuiltExp .inequality e) : e.asInequality = some e := by
  rw [Exp.asInequality, h.equalsZero, if_neg Bool.false_ne_true, Exp.setInequality, ← h.expType, Exp.mk_expType_terms]

end BuiltExp

/-- The intersection of built conjunctions has the constraints of both. -/
theorem intersect_of_built {c d : Conjunction} (hd : d.Built) : c.Intersect d =
    ⟨d.equalities.foldl (fun acc x => insertUnique Exp.lt x acc) c.equalities,
      d.inequalities.foldl (fun acc x => insertUnique Exp.lt x acc) c.inequalities, c.tupleDecl, c.inArity⟩ := by
  have heqs : d.equalities.filterMap Exp.asEquality = d.equalities :=
    (List.filterMap_congr fun e he => (hd.equalities e he).1.asEquality (hd.equalities e he).2).trans List.filterMap_some
  have hineqs : d.inequalities.filterMap Exp.asInequality = d.inequalities :=
    (List.filterMap_congr fun e he => (hd.inequalities e he).asInequality).trans List.filterMap_some
  rw [Conjunction.Intersect, foldl_addEquality_eq, foldl_addInequality_eq, heqs, hineqs]

theorem built_intersect {c d : Conjunction} (hc : c.Built) (hd : d.Built) : (c.Intersect d).Built := by
  rw [intersect_of_built hd]
  refine ⟨fun e he => ?_, fun e he => ?_, SortedList.sorted_foldl_insertUnique strictWeak_expLt hc.sorted_equalities,
    SortedList.sorted_foldl_insertUnique strictWeak_expLt hc.sorted_inequalities⟩
  · exact (SortedList.foldl_insertUnique_subset he).elim (hc.equalities e) (hd.equalities e)
  · exact (SortedList.foldl_insertUnique_subset he).elim (hc.inequalities e) (hd.inequalities e)

/-! ## Cleaned-up unions -/

namespace CleanExp

variable {k : ExpType} {e : Exp}

/-- The constraint before its kind is set. -/
theorem mk_terms (h : CleanExp env k e) : Exp.mk k e.terms = e := by
  rw [← h.expType, Exp.mk_expType_terms]

theorem equalsZero (h : CleanExp env k e) : (Exp.mk .expression e.terms).equalsZero = false := by
  unfold Exp.equalsZero
  split
  · next hn => exact absurd hn h.ne_nil
  · next t ht =>
    rw [Exp.terms_mk] at ht
    simpa using (h.terms.canonical t (ht ▸ List.mem_singleton_self t)).1
  · rfl

theorem asInequality (h : CleanExp env .inequality e) : (Exp.mk .expression e.terms).asInequality = some e := by
  rw [Exp.asInequality, h.equalsZero, if_neg Bool.false_ne_true]
  exact congrArg some h.mk_terms

theorem asEquality (h : CleanExp env .equality e) (hn : e.normalizeForEquality = e) :
    (Exp.mk .expression e.terms).asEquality = some e := by
  have hz : ∀ t ∈ e.terms, t.coefficient ≠ 0 := fun t ht => (h.terms.canonical t ht).1
  have hpos := head_pos_normalizeForEquality hz
  rw [hn] at hpos
  have hn' : (Exp.mk .expression e.terms).normalizeForEquality = .mk .expression e.terms :=
    normalizeForEquality_eq_self hz hpos
  rw [Exp.asEquality, hn', h.equalsZero, if_neg Bool.false_ne_true]
  exact congrArg some h.mk_terms

end CleanExp

/-- Setting the kind of collapsed constraints again, for a list in order. -/
theorem foldl_insert_of_clean {k : ExpType} {f : Exp → Option Exp} {es : List Exp} (hc : ∀ e ∈ es, CleanExp env k e)
    (hf : ∀ e ∈ es, f (.mk .expression e.terms) = some e) (hs : Sorted Exp.lt es) :
    (((es.map (fun e => Exp.mk .expression e.terms)).filter (fun e => !e.equalsZero)).filterMap f).foldl
      (fun acc x => insertUnique Exp.lt x acc) [] = es := by
  have hfilter : (es.map (fun e => Exp.mk .expression e.terms)).filter (fun e => !e.equalsZero) =
      es.map (fun e => Exp.mk .expression e.terms) := by
    refine List.filter_eq_self.2 fun e he => ?_
    obtain ⟨d, hd, rfl⟩ := List.mem_map.1 he
    rw [(hc d hd).equalsZero]
    rfl
  have hback : es.filterMap (f ∘ fun e => Exp.mk .expression e.terms) = es :=
    (List.filterMap_congr hf).trans List.filterMap_some
  rw [hfilter, List.filterMap_map, hback]
  exact SortedList.build_eq_self strictWeak_expLt hs

theorem cleanUp_conjunction_of_clean {c : Conjunction} (h : c.Clean env) : c.cleanUp env = .ok c := by
  have heqs : c.equalities.mapM (fun e => e.normalizeForEquality.collapseNestedInvertibleFunctions env) =
      .ok (c.equalities.map (fun e => Exp.mk .expression e.terms)) := by
    refine Outcome.mapM_eq_map fun e he => ?_
    obtain ⟨hc, hn⟩ := h.equalities e he
    rw [hn]
    exact hc.collapse
  have hineqs : c.inequalities.mapM (fun e => e.collapseNestedInvertibleFunctions env) =
      .ok (c.inequalities.map (fun e => Exp.mk .expression e.terms)) :=
    Outcome.mapM_eq_map fun e he => (h.inequalities e he).collapse
  unfold Conjunction.cleanUp
  rw [heqs, hineqs]
  simp only [Outcome.bind_eq_ok, Except.ok.injEq]
  refine ⟨_, rfl, _, rfl, ?_⟩
  rw [foldl_addEquality_eq, foldl_addInequality_eq]
  simp only
  rw [foldl_insert_of_clean (fun e he => (h.equalities e he).1)
      (fun e he => (h.equalities e he).1.asEquality (h.equalities e he).2) h.sorted_equalities,
    foldl_insert_of_clean h.inequalities (fun e he => (h.inequalities e he).asInequality) h.sorted_inequalities]

/-- The order that `cleanUp` sorts by. -/
theorem sorted_insertionSort_conjunctions (cs : List Conjunction) :
    (cs.insertionSort (fun a b => b.lt a = false)).Pairwise (fun a b => b.lt a = false) := by
  have htotal : Std.Total (fun a b : Conjunction => b.lt a = false) := ⟨fun a b => by
    cases h : b.lt a with
    | false => exact .inl rfl
    | true => exact .inr (strictWeak_conjunctionLt.asymm h)⟩
  have htrans : IsTrans Conjunction (fun a b => b.lt a = false) := ⟨fun a b c hab hbc => by
    cases h : c.lt a with
    | false => rfl
    | true =>
      rcases strictWeak_conjunctionLt.cotrans b h with h' | h'
      · rw [hbc] at h'; cases h'
      · rw [hab] at h'; cases h'⟩
  exact List.pairwise_insertionSort _ cs

theorem cleanUp_of_clean {cs : List Conjunction} (hc : ∀ c ∈ cs, c.Clean env ∧ c.satisfiable = true)
    (hs : cs.Pairwise (fun a b => b.lt a = false)) : IEGen.cleanUp env cs = .ok cs := by
  have hm : cs.mapM (Conjunction.cleanUp env) = .ok cs := by
    have := Outcome.mapM_eq_map (f := Conjunction.cleanUp env) (g := id) fun c h => cleanUp_conjunction_of_clean (hc c h).1
    rwa [List.map_id] at this
  unfold IEGen.cleanUp
  rw [hm]
  simp only [Outcome.bind_eq_ok, Except.ok.injEq]
  refine ⟨cs, rfl, ?_⟩
  rw [List.filter_eq_self.2 fun c h => (hc c h).2]
  exact hs.insertionSort_eq

/-- A union that `cleanUp` returns as it was has clean conjunctions only, in order. -/
theorem clean_of_cleanUp {cs : List Conjunction} (hr : ∀ c ∈ cs, c.readable = true) (h : IEGen.cleanUp env cs = .ok cs) :
    (∀ c ∈ cs, c.Clean env ∧ c.satisfiable = true) ∧ cs.Pairwise (fun a b => b.lt a = false) := by
  unfold IEGen.cleanUp at h
  rw [bind_eq_ok] at h
  obtain ⟨cs', hm, h⟩ := h
  rw [Except.ok.injEq] at h
  have hall := (List.forall₂_and_left (p := fun c : Conjunction => c.readable = true) _ _).2 ⟨hr, forall₂_of_mapM hm⟩
  have hperm : (cs'.filter Conjunction.satisfiable).Perm cs := by
    have := List.perm_insertionSort (fun a b : Conjunction => b.lt a = false) (cs'.filter Conjunction.satisfiable)
    rw [h] at this
    exact this.symm
  -- as many conjunctions come out as went in, so all are satisfiable
  have hfilter : cs'.filter Conjunction.satisfiable = cs' :=
    List.filter_sublist.eq_of_length (hperm.length_eq.trans hall.length_eq)
  rw [hfilter] at hperm
  have hsum : (cs.map Conjunction.size).sum ≤ (cs'.map Conjunction.size).sum :=
    (hperm.map Conjunction.size).sum_eq.ge
  have hsize := size_eq_of_sum_le (fun hab => (size_cleanUp_le hab.1 hab.2).1) hall hsum
  refine ⟨fun c hc => ⟨?_, ?_⟩, h ▸ sorted_insertionSort_conjunctions _⟩
  · obtain ⟨c₀, -, hc₀⟩ := Outcome.exists_of_mem_forall₂ hall (hperm.mem_iff.2 hc)
    obtain ⟨c', -, hc'⟩ := Outcome.exists_of_mem_forall₂ hsize.flip hc
    exact clean_of_size (hr c hc) (built_cleanUp hc₀.1 hc₀.2) hc'.1.2 hc'.2
  · exact (List.filter_eq_self.1 hfilter) c (hperm.mem_iff.2 hc)

/-! ## Copying -/

theorem foldl_addConjunction_of_settled {ds : List Conjunction} : ∀ {cs : List Conjunction}, dropPlaceholder cs = cs →
    cs ≠ [] → ds.foldl addConjunction cs = ds.foldl (fun acc c => insertUnique Conjunction.lt c acc) cs := by
  induction ds with
  | nil => exact fun _ _ => rfl
  | cons d ds ih =>
    intro cs h hne
    rw [List.foldl_cons, List.foldl_cons, ih (dropPlaceholder_addConjunction h hne d) (SortedList.insertUnique_ne_nil _ _ _),
      addConjunction, h]

/-- The run of `addConjunction` builds the list of what it keeps. -/
theorem foldl_addConjunction_eq_build (cs : List Conjunction) :
    cs.foldl addConjunction [] = build Conjunction.lt (kept Conjunction.hasConstraints cs) := by
  cases cs with
  | nil => rfl
  | cons c cs =>
    induction cs generalizing c with
    | nil => rfl
    | cons d cs ih =>
      by_cases hk : c.hasConstraints = true
      · rw [kept, if_pos hk, List.foldl_cons]
        exact foldl_addConjunction_of_settled (by simp [addConjunction, dropPlaceholder, hk, insertUnique])
          (by simp [addConjunction, dropPlaceholder, insertUnique])
      · rw [kept, if_neg hk, ← ih d]
        simp [addConjunction, dropPlaceholder, hk, insertUnique]

theorem mem_of_mem_kept {α : Type*} {has : α → Bool} {c : α} {cs : List α} (h : c ∈ kept has cs) : c ∈ cs := by
  rw [← replaced_append_kept has cs]
  exact List.mem_append_right _ h

/-- What a copy of a union holds, when the union is cleaned up. -/
def copied (cs : List Conjunction) : List Conjunction := build Conjunction.lt (kept Conjunction.hasConstraints cs)

theorem mem_of_mem_copied {cs : List Conjunction} {c : Conjunction} (h : c ∈ copied cs) : c ∈ cs :=
  mem_of_mem_kept (SortedList.mem_of_mem_build h)

theorem sorted_copied (cs : List Conjunction) : Sorted Conjunction.lt (copied cs) :=
  SortedList.sorted_build strictWeak_conjunctionLt _

/-- Copying a union of clean conjunctions keeps each one as it is. -/
theorem copyConjunctions_of_clean {cs : List Conjunction} (hc : ∀ c ∈ cs, c.Clean env ∧ c.satisfiable = true) :
    copyConjunctions env cs = .ok (copied cs) := by
  unfold copyConjunctions
  rw [foldl_addConjunction_eq_build]
  exact cleanUp_of_clean (fun c h => hc c (mem_of_mem_copied h))
    ((sorted_copied cs).imp fun hab => strictWeak_conjunctionLt.asymm hab)

end CleanUp

end IEGen
