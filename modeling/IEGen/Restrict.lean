import IEGen.Algebra
import IEGen.Substituted

/-!
# Restricting a relation to a set

`Relation::Restrict` adds the constraints of each conjunction of the set to each conjunction of the relation. The tuple
variables of the set are those of the inputs, so the constraints are copied as they are; the constants of the set's
declaration are left behind.

The result has the pairs of the relation with the input in the set iff no pair is kept wrongly for the lack of these
constants (`RestrictsExactly`) and none is lost with a conjunction that gives way.
-/

namespace IEGen

/-- `Conjunction::Restrict` -/
def Conjunction.Restrict (c rhs : Conjunction) : Conjunction :=
  rhs.inequalities.foldl addInequality (rhs.equalities.foldl addEquality c)

/-- `Relation::Restrict` -/
def Relation.Restrict (r : Relation) (rhs : Set) : Except Failure Relation :=
  if r.inArity ≠ rhs.arity then .error (.assertException "Relation::Restrict: mismatched arities")
  else do
    .ok ⟨rhs.arity, r.outArity, ← r.conjunctions.foldlM (fun retVal c =>
      rhs.conjunctions.foldlM (fun retVal d => addConjunction rhs.arity retVal (c.Restrict d)) retVal)
      (ofArity rhs.arity r.outArity).conjunctions⟩

/-- Restricting a conjunction and intersecting it are one operation. -/
theorem Conjunction.restrict_eq (c rhs : Conjunction) : c.Restrict rhs = c.Intersect rhs := rfl

/-- The tuple variables of the set are declared. -/
def Set.VarsDeclared (s : Set) : Prop := ∀ c ∈ s.conjunctions, c.VarsIn (· < s.arity)

/-- No pair of a relation is wrongly kept, and none is lost with a conjunction that gives way. -/
def RestrictsExactly (n : Nat) (cs ds : List Conjunction) : Prop :=
  (∀ I, ∀ p ∈ kept constrains (cs.product ds), ∀ t ∈ p.1.denote I, p.2.Holds I (valuation t) →
    t.take n ∈ denoteUnion I ds) ∧
  ∀ I, ∀ p ∈ replaced constrains (cs.product ds), ∀ t, p.1.tupleDecl.Admits t → p.2.tupleDecl.Admits (t.take n) →
    ∃ q ∈ kept constrains (cs.product ds), t ∈ q.1.denote I ∧ q.2.Holds I (valuation t)

section Restrict

variable {n : Nat} {cs ds : List Conjunction}

theorem valuation_take {t : List Int} {l : Nat} (h : l < n) : valuation (t.take n) l = valuation t l := by
  unfold valuation
  rw [List.getD_eq_getElem?_getD, List.getD_eq_getElem?_getD, List.getElem?_take_of_lt h]

/-- The constraints of a set see the inputs only. -/
theorem holds_take {d : Conjunction} (hd : d.VarsIn (· < n)) {I : Interp} {t : List Int} :
    d.Holds I (valuation (t.take n)) ↔ d.Holds I (valuation t) :=
  Conjunction.holds_congr hd fun _ hl => valuation_take hl

theorem restricts_denote_iff (hc : ∀ c ∈ cs, c.readable = true) (hd : ∀ d ∈ ds, d.readable = true)
    (hv : ∀ d ∈ ds, d.VarsIn (· < n)) :
    (∀ I, denoteUnion I (((cs.product ds).map (fun p => p.1.Intersect p.2)).foldl addConjunction []) =
      {t | t ∈ denoteUnion I cs ∧ t.take n ∈ denoteUnion I ds}) ↔ RestrictsExactly n cs ds := by
  have hprod : ∀ {p}, p ∈ cs.product ds ↔ p ∈ replaced constrains (cs.product ds) ∨
      p ∈ kept constrains (cs.product ds) := by
    intro p
    rw [← List.mem_append, replaced_append_kept]
  constructor
  · intro h
    refine ⟨fun I p hp t h₁ h₂ => ?_, fun I p hp t h₁ h₂ => ?_⟩
    · have ht : t ∈ denoteUnion I cs ∧ t.take n ∈ denoteUnion I ds := by
        apply (Set.ext_iff.1 (h I) t).1
        rw [mem_denoteUnion_intersects hc hd]
        exact ⟨p, hp, h₁, h₂⟩
      exact ht.2
    · obtain ⟨hp₁, hp₂⟩ := List.mem_product.1 (hprod.2 (.inl hp))
      have hnone := has_of_mem_replaced _ hp
      rw [← mem_denoteUnion_intersects hc hd, h I]
      exact ⟨⟨p.1, hp₁, (mem_denote_of_unconstrained (constrains_false hnone (I := I) (τ := valuation t)).1).2 h₁⟩,
        ⟨p.2, hp₂, h₂, (constrains_false hnone).2⟩⟩
  · rintro ⟨hk, hr⟩ I
    ext t
    rw [mem_denoteUnion_intersects hc hd]
    constructor
    · rintro ⟨p, hp, h₁, h₂⟩
      exact ⟨⟨p.1, (List.mem_product.1 (hprod.2 (.inr hp))).1, h₁⟩, hk I p hp t h₁ h₂⟩
    · rintro ⟨⟨c, hcm, h₁⟩, ⟨d, hdm, h₂⟩⟩
      rcases hprod.1 (List.mem_product.2 ⟨hcm, hdm⟩ : (c, d) ∈ cs.product ds) with hp | hp
      · exact hr I _ hp t h₁.1 h₂.1
      · exact ⟨_, hp, h₁, (holds_take (hv d hdm)).1 h₂.2⟩

end Restrict

/-- `Restrict` has the pairs of the relation with the input in the set iff the pairs of conjunctions do exactly. -/
theorem Restrict_denotes (r : Relation) (s : Set) (hr : r.readable = true) (hs : s.readable = true)
    (hw : r.wellFormed = true) (hv : s.VarsDeclared) (ha : r.inArity = s.arity) : ∃ u, r.Restrict s = .ok u ∧
      u.inArity = r.inArity ∧ u.outArity = r.outArity ∧
      ((∀ I, u.denote I = {t | t ∈ r.denote I ∧ t.take r.inArity ∈ s.denote I}) ↔
        RestrictsExactly r.inArity r.conjunctions s.conjunctions) := by
  simp only [Relation.readable, Set.readable, List.all_eq_true] at hr hs
  refine ⟨⟨s.arity, r.outArity, ((r.conjunctions.product s.conjunctions).map
    (fun p => p.1.Intersect p.2)).foldl addConjunction []⟩, ?_, ha.symm, rfl, ?_⟩
  · rw [Relation.wellFormed_iff, ha] at hw
    simp only [Relation.Restrict, Relation.ofArity, ha, Conjunction.restrict_eq, nested_foldlM_eq hw, ne_eq, not_true,
      if_false, Outcome.bind_eq_ok, Except.ok.injEq, exists_eq_left']
  · rw [ha]
    exact restricts_denote_iff hr hs hv

/-- `{ [i] -> [j] : i - j = 0 }` -/
def equalRel : Relation :=
  ⟨1, 1, [⟨[.mk .equality [.tupleVar 1 0, .tupleVar (-1) 1]], [], ⟨[⟨false, 0, "i"⟩, ⟨false, 0, "j"⟩]⟩, 1⟩]⟩

theorem mem_denote_equalRel {I : Interp} {i j : Int} : [i, j] ∈ equalRel.denote I ↔ i = j := by
  have hholds : (Exp.mk .equality [.tupleVar 1 0, .tupleVar (-1) 1]).HoldsEq I (valuation [i, j]) ↔ i = j := by
    have hval : ∀ k, (Exp.mk .equality [.tupleVar 1 0, .tupleVar (-1) 1]).val I (valuation [i, j]) k = scalar (i - j) k := by
      intro k
      cases k with
      | zero => simp [Exp.val, Term.val, valuation]; omega
      | succ k => simp [Exp.val, Term.val]
    simp only [Exp.HoldsEq, hval]
    constructor
    · intro h
      have := h 0
      rw [scalar_zero] at this
      omega
    · rintro rfl k
      cases k <;> simp
  constructor
  · rintro ⟨c, hc, -, hh⟩
    obtain rfl := List.mem_singleton.1 hc
    exact hholds.1 (hh.1 _ List.mem_cons_self)
  · intro h
    refine ⟨_, List.mem_cons_self, ⟨rfl, fun l hl hconst => ?_⟩, ⟨fun e he => ?_, by simp⟩⟩
    · rcases Nat.lt_succ_iff_lt_or_eq.1 hl with h0 | rfl
      · obtain rfl := Nat.lt_one_iff.1 h0
        cases hconst
      · cases hconst
    · obtain rfl := List.mem_singleton.1 he
      exact hholds.2 h

/-- The constant of `{ [1] }` is not looked at: the pair `(0, 0)` stays. -/
theorem Restrict_keeps : ∃ u, equalRel.Restrict (pointSet 1) = .ok u ∧
    ∀ I, u.denote I ≠ {t | t ∈ equalRel.denote I ∧ t.take 1 ∈ (pointSet 1).denote I} := by
  refine ⟨equalRel, rfl, fun I h => ?_⟩
  have h0 : [0, 0] ∈ equalRel.denote I := mem_denote_equalRel.2 rfl
  have h1 : [0] ∈ (pointSet 1).denote I := ((Set.ext_iff.1 h [0, 0]).1 h0).2
  rw [denote_pointSet] at h1
  simp at h1

theorem Restrict_denotes_symbol : ∃ u, equalRel.Restrict symbolSet = .ok u ∧
    ∀ I, u.denote I = {t | t ∈ equalRel.denote I ∧ t.take 1 ∈ symbolSet.denote I} := by
  have hv : symbolSet.VarsDeclared := by
    intro c hc e he
    obtain rfl := List.mem_singleton.1 hc
    obtain rfl := List.mem_singleton.1 he
    simp [Exp.VarsIn, termsVarsIn, Term.VarsIn, symbolSet]
  obtain ⟨u, hu, -, -, h⟩ := Restrict_denotes equalRel symbolSet (by decide) (by decide) rfl hv rfl
  refine ⟨u, hu, h.2 ⟨fun I p hp t h₁ h₂ => ?_, fun I p hp => ?_⟩⟩
  · simp only [equalRel, symbolSet, List.product, List.flatMap_cons, List.map_cons, List.map_nil, List.flatMap_nil,
      List.append_nil, kept, List.mem_singleton] at hp
    subst hp
    have hlen : t.length = 2 := h₁.1.1
    refine ⟨symbolConj, List.mem_cons_self, ⟨?_, fun i hi hc => ?_⟩, ?_⟩
    · rw [List.length_take, hlen]
      rfl
    · obtain rfl : i = 0 := Nat.lt_one_iff.1 hi
      cases hc
    · exact (holds_take (hv symbolConj List.mem_cons_self)).2 h₂
  · simp [equalRel, symbolSet, List.product, replaced] at hp

end IEGen
