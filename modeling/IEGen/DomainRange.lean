import IEGen.Expensive
import IEGen.Monotonic

/-!
# What bounding a set denotes

`boundDomainRange` bounds each conjunction of a copy by the calls of this conjunction alone. So a bounded union has the
tuples of those conjunctions all of whose own calls are as declared (`boundDomainRange_denotes`), and not the tuples at
which all calls of the union are.

Of the bounds that come together only the first conjunction is used, and a declared set without conjunctions bounds
nothing (`boundDomainRange_wrong`); this is where the declared domains and ranges have to be one conjunction each.
-/

namespace IEGen

open Outcome (bind_eq_ok)
open SortedList (Tied build)

/-- All calls of the conjunction have their argument in the declared domain and their result in the declared range. -/
def Conjunction.RespectedAt (env : Environment) (I : Interp) (c : Conjunction) (t : List Int) : Prop :=
  c.AllCalls (fun f _ as => I.Respects env (valuation t) f as)

/-- The tuples of the conjunctions whose own calls are as declared. -/
def boundedTuples (env : Environment) (I : Interp) (cs : List Conjunction) : IntTuples :=
  {t | ∃ c ∈ cs, t ∈ c.denote I ∧ c.RespectedAt env I t}

/-- What a conjunction has to be for its bounds to be exact: calls have integers as arguments, and the bounds of each
call are exact. -/
def Conjunction.Boundable (env : Environment) (I : Interp) (c : Conjunction) : Prop :=
  ∀ τ, c.Fits I.cod (fun _ => True) Scalar (CallBounding env I τ)

section Bounded

variable {env : Environment} {I : Interp} {cs ds : List Conjunction}

theorem denote_boundDomainRange (hI : I.Declared env) (hr : ∀ c ∈ cs, c.readable = true)
    (hb : ∀ c ∈ cs, c.Boundable env I) (h : cs.mapM (Conjunction.boundDomainRange env) = .ok ds) :
    denoteUnion I ds = boundedTuples env I cs := by
  have hf := Outcome.forall₂_of_mapM h
  have hone : ∀ c ∈ cs, ∀ d, c.boundDomainRange env = .ok d → ∀ t,
      t ∈ d.denote I ↔ t ∈ c.denote I ∧ c.RespectedAt env I t := by
    intro c hc d hcd t
    obtain ⟨hiff, hdecl⟩ := boundDomainRange_holds hI (hr c hc) (hb c hc (valuation t)) hcd
    show d.tupleDecl.Admits t ∧ d.Holds I (valuation t) ↔ (c.tupleDecl.Admits t ∧ c.Holds I (valuation t)) ∧ _
    rw [hiff, hdecl, and_assoc]
    rfl
  ext t
  constructor
  · rintro ⟨d, hd, ht⟩
    obtain ⟨c, hc, hcd⟩ := Outcome.exists_of_mem_forall₂ hf hd
    exact ⟨c, hc, (hone c hc d hcd t).1 ht⟩
  · rintro ⟨c, hc, ht⟩
    obtain ⟨d, hd, hcd⟩ := Outcome.exists_of_mem_forall₂ hf.flip hc
    exact ⟨d, hd, (hone c hc d hcd t).2 ht⟩

/-- A call is as declared or not by the values of its arguments. -/
theorem Interp.Respects.congr {τ : Nat → Int} {f : String} {as as' : List Exp} (h : argsVal I τ as' = argsVal I τ as)
    (hf : I.Respects env τ f as) : I.Respects env τ f as' := by
  unfold Interp.Respects
  rw [h]
  exact hf

/-- Of tied conjunctions, one is enough. -/
theorem boundedTuples_copied (hr : ∀ c ∈ cs, c.readable = true) :
    boundedTuples env I (copied cs) = boundedTuples env I (kept Conjunction.hasConstraints cs) := by
  ext t
  constructor
  · rintro ⟨c, hc, ht⟩
    exact ⟨c, SortedList.mem_of_mem_build hc, ht⟩
  · rintro ⟨c, hc, ht, hresp⟩
    rcases SortedList.build_covers Conjunction.lt hc with hb | ⟨b, hb, htied⟩
    · exact ⟨c, hb, ht, hresp⟩
    · have hrc := hr c (mem_of_mem_kept hc)
      have hrb := hr b (mem_of_mem_copied hb)
      refine ⟨b, hb, Conjunction.denote_of_tied (Conjunction.comparable_of_readable hrc)
        (Conjunction.comparable_of_readable hrb) htied ht, ?_⟩
      have hcongr : ∀ f (_ : Option Nat) as as', argsVal I (valuation t) as' = argsVal I (valuation t) as →
          I.Respects env (valuation t) f as → I.Respects env (valuation t) f as' :=
        fun _ _ _ _ hv hf => hf.congr hv
      exact Conjunction.allCalls_of_tied hcongr hrc hrb htied hresp

/-- What bounding makes of the conjunctions of a copy. -/
theorem denote_bounded_copy {cs' : List Conjunction} (hI : I.Declared env) (hr : ∀ c ∈ cs, c.readable = true)
    (hcopy : copyConjunctions env cs = .ok cs') (hb : ∀ c ∈ cs', c.Boundable env I)
    (h : cs'.mapM (Conjunction.boundDomainRange env) = .ok ds) : denoteUnion I ds = boundedTuples env I cs' ∧
      ((∀ c ∈ cs, c.Clean env ∧ c.satisfiable = true) →
        denoteUnion I ds = boundedTuples env I (kept Conjunction.hasConstraints cs)) := by
  have hden := denote_boundDomainRange hI (fun c hc => (built_copyConjunctions hr hcopy c hc).readable) hb h
  refine ⟨hden, fun hclean => ?_⟩
  rw [copyConjunctions_of_clean hclean] at hcopy
  obtain rfl : copied cs = cs' := Except.ok.inj hcopy
  rw [hden, boundedTuples_copied hr]

/-- A relation that can be copied has one input arity. -/
theorem copyConjunctions_of_relation {r r' : Relation} (h : r.copy env = .ok r') :
    copyConjunctions env r.conjunctions = .ok r'.conjunctions ∧ r'.inArity = r.inArity ∧ r'.outArity = r.outArity := by
  obtain ⟨cs, hcs, h⟩ := bind_eq_ok.1 h
  obtain ⟨ds, hds, h⟩ := bind_eq_ok.1 h
  cases h
  refine ⟨?_, rfl, rfl⟩
  have hfold : ∀ (cs acc acc' : List Conjunction), cs.foldlM (Relation.addConjunction r.inArity) acc = .ok acc' →
      acc' = cs.foldl addConjunction acc := by
    intro cs
    induction cs with
    | nil =>
      intro acc acc' h
      cases h
      rfl
    | cons c cs ih =>
      intro acc acc' h
      rw [List.foldlM_cons, bind_eq_ok] at h
      obtain ⟨acc₁, h₁, h⟩ := h
      unfold Relation.addConjunction at h₁
      split_ifs at h₁
      cases h₁
      exact ih _ _ h
  rw [copyConjunctions, ← hfold _ _ _ hcs]
  exact hds

end Bounded

/-- A bounded set or relation has the tuples of those conjunctions of its copy all of whose own calls are as declared;
where the conjunctions are as the clean-up leaves them, these are the conjunctions that `addConjunction` keeps. -/
theorem boundDomainRange_denotes (env : Environment) (I : Interp) (s s' b : Set) (r r' p : Relation)
    (hI : I.Declared env) (hs : s.readable = true) (hr : r.readable = true) (hcopy : s.copy env = .ok s')
    (hcopy' : r.copy env = .ok r') (hbound : ∀ c ∈ s'.conjunctions, c.Boundable env I)
    (hbound' : ∀ c ∈ r'.conjunctions, c.Boundable env I) :
    (s.boundDomainRange env = .ok b → b.arity = s.arity ∧ b.denote I = boundedTuples env I s'.conjunctions ∧
      ((∀ c ∈ s.conjunctions, c.Clean env ∧ c.satisfiable = true) →
        b.denote I = boundedTuples env I (kept Conjunction.hasConstraints s.conjunctions))) ∧
    (r.boundDomainRange env = .ok p → (p.inArity = r.inArity ∧ p.outArity = r.outArity) ∧
      p.denote I = boundedTuples env I r'.conjunctions ∧
      ((∀ c ∈ r.conjunctions, c.Clean env ∧ c.satisfiable = true) →
        p.denote I = boundedTuples env I (kept Conjunction.hasConstraints r.conjunctions))) := by
  constructor
  · intro h
    obtain ⟨s₁, hs₁, h⟩ := bind_eq_ok.1 h
    obtain rfl : s' = s₁ := Except.ok.inj (hcopy.symm.trans hs₁)
    obtain ⟨ds, hds, h⟩ := bind_eq_ok.1 h
    cases h
    obtain ⟨cs, hcs, hs'⟩ := bind_eq_ok.1 hcopy
    cases hs'
    exact ⟨rfl, denote_bounded_copy hI (List.all_eq_true.1 hs) hcs hbound hds⟩
  · intro h
    obtain ⟨r₁, hr₁, h⟩ := bind_eq_ok.1 h
    obtain rfl : r' = r₁ := Except.ok.inj (hcopy'.symm.trans hr₁)
    obtain ⟨ds, hds, h⟩ := bind_eq_ok.1 h
    cases h
    obtain ⟨hcs, hin, hout⟩ := copyConjunctions_of_relation hcopy'
    exact ⟨⟨hin, hout⟩, denote_bounded_copy hI (List.all_eq_true.1 hr) hcs hbound' hds⟩

theorem declared_naturalEnv : identityInterp.Declared naturalEnv := by
  have harity : ∀ f, naturalEnv.domainArity f = 1 ∧ naturalEnv.rangeArity f = 1 := by
    intro f
    unfold Environment.domainArity Environment.rangeArity naturalEnv
    rw [List.lookup_cons]
    split <;> exact ⟨rfl, rfl⟩
  exact ⟨funext fun f => (harity f).1.symm, funext fun f => (harity f).2.symm⟩

/-- The natural numbers bound one expression, as long as the clean-up keeps its value. -/
theorem bounding_naturals {τ : Nat → Int} {es : List Exp}
    (h : ((Exp.mk .inequality [.tupleVar 1 0]).substitute (tupleSubMap es)).CollapseKeeps naturalEnv identityInterp τ) :
    Bounding naturalEnv identityInterp τ naturals es := by
  refine ⟨⟨[], [.mk .inequality [.tupleVar 1 0]], ⟨[⟨false, 0, "x"⟩]⟩, 0⟩, rfl, rfl,
    by simp [Set.denote, denoteUnion, naturals], rfl, ?_, ?_, ?_⟩
  · intro e he
    obtain rfl : e = .mk .inequality [.tupleVar 1 0] := List.mem_singleton.1 he
    exact ⟨Nat.zero_lt_one, trivial⟩
  · intro e he
    obtain rfl : e = .mk .inequality [.tupleVar 1 0] := List.mem_singleton.1 he
    refine ⟨false, rfl, fun t ht => ?_⟩
    obtain rfl := List.mem_singleton.1 ht
    exact ⟨rfl, trivial⟩
  · intro e he
    obtain rfl : e = .mk .inequality [.tupleVar 1 0] := List.mem_singleton.1 he
    exact h

theorem callBounding_naturals (τ : Nat → Int) :
    CallBounding naturalEnv identityInterp τ "f" none [.ofTerm (.tupleVar 1 0)] := by
  refine ⟨by simp, fun u hu => ?_, fun u hu => ?_⟩
  · obtain rfl : _ = u := Option.some.inj hu
    exact bounding_naturals ⟨trivial, trivial⟩
  · obtain rfl : _ = u := Option.some.inj hu
    exact bounding_naturals ⟨⟨⟨⟨trivial, trivial⟩, trivial⟩, fun h => by cases h⟩, trivial⟩

theorem boundable_call {c : Conjunction} (hineqs : c.inequalities = [])
    (heqs : c.equalities = [.mk .equality [.ufCall 1 "f" [.ofTerm (.tupleVar 1 0)] none]]) :
    c.Boundable naturalEnv identityInterp := by
  intro τ e he
  rw [heqs, hineqs, List.append_nil] at he
  obtain rfl := List.mem_singleton.1 he
  refine ⟨false, trivial, fun t ht => ?_⟩
  obtain rfl := List.mem_singleton.1 ht
  exact ⟨iff_of_true rfl rfl, callBounding_naturals τ, Exp.fits_iff.2 ⟨false, rfl, by simp [Exp.ofTerm, Term.UsedAs, Term.Fits]⟩,
    trivial⟩

/-- `[i, j] : f(i) = 0`, from `i` to `j` -/
def rootPairConj : Conjunction :=
  ⟨[.mk .equality [.ufCall 1 "f" [.ofTerm (.tupleVar 1 0)] none]], [], ⟨[⟨false, 0, "i"⟩, ⟨false, 0, "j"⟩]⟩, 1⟩

theorem boundDomainRange_denotes_root :
    (∃ b, (Set.mk 1 [rootConj]).boundDomainRange naturalEnv = .ok b ∧
      b.denote identityInterp = boundedTuples naturalEnv identityInterp [rootConj]) ∧
    ∃ p, (Relation.mk 1 1 [rootPairConj]).boundDomainRange naturalEnv = .ok p ∧
      p.denote identityInterp = boundedTuples naturalEnv identityInterp [rootPairConj] := by
  have hb : (Set.mk 1 [rootConj]).boundDomainRange naturalEnv = .ok ⟨1, [boundedRootConj]⟩ := rfl
  have hp : (Relation.mk 1 1 [rootPairConj]).boundDomainRange naturalEnv =
      .ok ⟨1, 1, [{ rootPairConj with inequalities := naturalBounds }]⟩ := rfl
  obtain ⟨hs, hr⟩ := boundDomainRange_denotes naturalEnv identityInterp ⟨1, [rootConj]⟩ ⟨1, [rootConj]⟩ _
    ⟨1, 1, [rootPairConj]⟩ ⟨1, 1, [rootPairConj]⟩ _ declared_naturalEnv (by decide) (by decide) rfl rfl
    (fun c hc => boundable_call (by rw [List.mem_singleton.1 hc]; rfl) (by rw [List.mem_singleton.1 hc]; rfl))
    (fun c hc => boundable_call (by rw [List.mem_singleton.1 hc]; rfl) (by rw [List.mem_singleton.1 hc]; rfl))
  exact ⟨⟨_, hb, (hs hb).2.1⟩, ⟨_, hp, (hr hp).2.1⟩⟩

/-! ## Where bounds are not exact -/

/-- A bounded set has exactly the tuples at which all calls of the set are as declared. -/
def Set.BoundedExactly (env : Environment) (I : Interp) (s b : Set) : Prop :=
  ∀ t, t ∈ b.denote I ↔ t ∈ s.denote I ∧ ∀ c ∈ s.conjunctions, c.RespectedAt env I t

/-- `f` from a declared domain to all integers -/
def domainEnv (domain : Set) : Environment := ⟨[("f", ⟨"f", domain, wholeSet, false, .none⟩)], [], []⟩

theorem mem_wholeSet {I : Interp} (v : Int) : [v] ∈ wholeSet.denote I := by
  refine ⟨_, List.mem_singleton.2 rfl, (mem_denote_of_unconstrained rfl).2 ⟨rfl, ?_⟩⟩
  intro i hi hc
  obtain rfl : i = 0 := Nat.lt_one_iff.1 hi
  cases hc

theorem mem_rootConj (v : Int) : [v] ∈ rootConj.denote zeroInterp := by
  refine ⟨⟨rfl, fun i hi hc => ?_⟩, fun e he k => ?_, by simp [rootConj]⟩
  · obtain rfl : i = 0 := Nat.lt_one_iff.1 hi
    cases hc
  · obtain rfl := List.mem_singleton.1 he
    cases k <;> simp [Exp.val, termsVal, Term.val, Interp.callVal, zeroInterp]

theorem respectedAt_rootConj {domain : Set} {v : Int} :
    rootConj.RespectedAt (domainEnv domain) zeroInterp [v] ↔ [v] ∈ domain.denote zeroInterp := by
  have hlookup : (domainEnv domain).uninterpFuncMap.lookup "f" = some ⟨"f", domain, wholeSet, false, .none⟩ := rfl
  have harg : zeroInterp.argTuple "f" (argsVal zeroInterp (valuation [v]) [.ofTerm (.tupleVar 1 0)]) = [v] := by
    simp [argsVal, Interp.argTuple, zeroInterp, Exp.ofTerm, Exp.val, termsVal, Term.val, valuation]
  have hval : (List.range (zeroInterp.cod "f")).map
      (zeroInterp.indexVal "f" (argsVal zeroInterp (valuation [v]) [.ofTerm (.tupleVar 1 0)])) = [0] := rfl
  have hresp : zeroInterp.Respects (domainEnv domain) (valuation [v]) "f" [.ofTerm (.tupleVar 1 0)] ↔
      [v] ∈ domain.denote zeroInterp := by
    simp only [Interp.Respects, hlookup, Option.some.injEq, forall_eq', harg, hval]
    exact and_iff_left (mem_wholeSet 0)
  rw [← hresp]
  simp [Conjunction.RespectedAt, Conjunction.AllCalls, rootConj, Exp.AllCalls, termsAllCalls, Term.AllCalls, argsAllCalls,
    Exp.ofTerm]

/-- `f` is undefined at the tuple `100` of the second conjunction, where it is not called; of the domain
`{ [i] : i = 1 }` united with `{ [i] : i = 3 }` the second is left, and of the empty domain nothing. -/
theorem boundDomainRange_wrong :
    (∃ b, (Set.mk 1 [rootConj, atConj 100]).boundDomainRange (domainEnv ⟨1, [atConj 1]⟩) = .ok b ∧
      ¬ (Set.mk 1 [rootConj, atConj 100]).BoundedExactly (domainEnv ⟨1, [atConj 1]⟩) zeroInterp b) ∧
    (∃ b, (Set.mk 1 [rootConj]).boundDomainRange (domainEnv gapSet) = .ok b ∧
      ¬ (Set.mk 1 [rootConj]).BoundedExactly (domainEnv gapSet) zeroInterp b) ∧
    (∃ b, (Set.mk 1 [rootConj]).boundDomainRange (domainEnv ⟨1, []⟩) = .ok b ∧
      ¬ (Set.mk 1 [rootConj]).BoundedExactly (domainEnv ⟨1, []⟩) zeroInterp b) := by
  refine ⟨⟨⟨1, [⟨rootConj.equalities ++ [.mk .equality [.tupleVar 1 0, .constVal (-1)]], [], rootConj.tupleDecl, 0⟩,
    atConj 100]⟩, rfl, fun h => ?_⟩, ⟨⟨1, [⟨rootConj.equalities ++ [.mk .equality [.tupleVar 1 0, .constVal (-3)]], [],
      rootConj.tupleDecl, 0⟩]⟩, rfl, fun h => ?_⟩, ⟨⟨1, [rootConj]⟩, rfl, fun h => ?_⟩⟩
  · -- the conjunction without a call has its tuples
    have hmem := (h [100]).1 ⟨atConj 100, by simp, (mem_denote_atConj _ _ _).2 rfl⟩
    obtain ⟨c, hc, hin⟩ := respectedAt_rootConj.1 (hmem.2 rootConj (by simp))
    rw [List.mem_singleton.1 hc, mem_denote_atConj] at hin
    cases hin
  · -- the tuple 1 is lost
    have hmem := (h [1]).2 ⟨⟨rootConj, by simp, mem_rootConj 1⟩, fun c hc => ?_⟩
    · obtain ⟨c, hc, -, heq, -⟩ := hmem
      rw [List.mem_singleton.1 hc] at heq
      have hval := heq _ (List.mem_append_right _ (List.mem_singleton.2 rfl)) 0
      simp [Exp.val, termsVal, Term.val, valuation] at hval
    · rw [List.mem_singleton.1 hc, respectedAt_rootConj]
      exact ⟨atConj 1, List.mem_cons_self, (mem_denote_atConj _ _ _).2 rfl⟩
  · -- the tuple 0 stays
    have hmem := (h [0]).1 ⟨rootConj, by simp, mem_rootConj 0⟩
    obtain ⟨c, hc, -⟩ := respectedAt_rootConj.1 (hmem.2 rootConj (by simp))
    cases hc

end IEGen
