import IEGen.LinearReading

/-!
# The tuples of an affine set

`superAffineSet` and `reverseAffineSubstitution` replace terms and build the constraints anew. Where a term and what
replaces it have one value, the conjunctions have the same tuples (`tuplesBy_mapTerms`). The values of the symbols that
make it so are those of the calls that the map knows (`Interp.withCalls`); they depend on the tuple.

- the affine set has, with the values of the calls for the symbols, the tuples of the set that it has been made from;
- putting the calls back gives the tuples that the affine set has with these values;
- so a step in between that keeps the tuples of the affine set, whatever the values of the symbols, keeps those of the set.
-/

namespace IEGen

open SortedList (build)

/-! ## Symbols with the values of calls -/

/-- The symbols of a map with the values of the calls that they stand for. -/
def Interp.withCalls (I : Interp) (m : UFCallMap) (τ : Nat → Int) : Interp :=
  { I with sym := fun s => match m.findVar s with
      | none => I.sym s
      | some call => call.val I τ 0 }

section Calls

variable {I : Interp} {τ : Nat → Int} {m : UFCallMap}

/-- The calls of a map stand for integers. -/
def UFCallMap.Integers (m : UFCallMap) (cod : String → Nat) : Prop :=
  ∀ s call, m.findVar s = some call → call.UsedAs cod false

/-- A symbol has the value of the call that replaces it. -/
theorem val_reverseTerm (hm : m.Wf) (hi : m.Integers I.cod) {t : Term} (ht : IsLeaf t) :
    t.val (I.withCalls m τ) τ = (reverseTerm m t).val I τ := by
  cases t with
  | tupleVar | constVal => rfl
  | tupleExp => cases ht.1
  | ufCall => cases ht.2
  | symConst c s =>
    cases hf : m.findVar s with
    | none => simp only [Term.val, reverseTerm, Interp.withCalls, hf]
    | some call =>
      obtain ⟨-, hone, hr, -⟩ := hm.of_findVar hf
      have hself : call.setCoefficient 1 = call := by rw [← hone, Term.setCoefficient_self]
      funext k
      simp only [reverseTerm, hf]
      rw [Term.val_setCoefficient, hself, Term.val_eq_scalar hr (hi s call hf)]
      cases k <;> simp [Term.val, Interp.withCalls, hf]

theorem addable_reverseTerm (hm : m.Wf) (hi : m.Integers I.cod) {t : Term} (ht : IsLeaf t) : Addable I.cod (reverseTerm m t) := by
  cases t with
  | tupleVar | constVal => exact addable_leaf ht
  | tupleExp => cases ht.1
  | ufCall => cases ht.2
  | symConst c s =>
    cases hf : m.findVar s with
    | none =>
      simp only [reverseTerm, hf]
      exact addable_leaf ht
    | some call =>
      obtain ⟨-, -, hr, -⟩ := hm.of_findVar hf
      simp only [reverseTerm, hf]
      exact addable_mergeable (Mergeable.setCoefficient c ⟨hr, hi s call hf⟩)

/-- No tuples and no calls outside of arguments, the constraints marked as what they are. -/
def Conjunction.Affine (c : Conjunction) : Prop := c.Typed ∧ ∀ t ∈ c.terms, IsLeaf t

/-- Putting the calls back into affine conjunctions gives the tuples that these have with the values of the calls; what
is built of them has these tuples iff none is lost. -/
theorem denoteUnion_reverse (hm : m.Wf) (hi : m.Integers I.cod) {bs : List Conjunction} (hb : ∀ b ∈ bs, b.Affine) :
    (denoteUnion I (build Conjunction.lt (kept Conjunction.hasConstraints (bs.map (Conjunction.mapTerms (reverseTerm m))))) =
        {t | t ∈ denoteUnion (I.withCalls m (valuation t)) bs}) ↔
      LosesNothingIn I (bs.map (Conjunction.mapTerms (reverseTerm m))) := by
  have hadd : ∀ b ∈ bs, ∀ u ∈ b.terms, Addable I.cod (reverseTerm m u) := fun b hmem u hu =>
    addable_reverseTerm hm hi ((hb b hmem).2 u hu)
  have hsame : tuplesBy (fun t => Term.val I (valuation t)) (bs.map (Conjunction.mapTerms (reverseTerm m))) =
      {t | t ∈ denoteUnion (I.withCalls m (valuation t)) bs} := by
    rw [tuplesBy_mapTerms (E := fun t => Term.val (I.withCalls m (valuation t)) (valuation t)) (fun t => linear_val I _) hadd
      fun t b hmem u hu k => by rw [val_reverseTerm hm hi ((hb b hmem).2 u hu)]]
    exact Set.ext fun t => mem_tuplesBy_val
  rw [← losesNothingBy_val, ← tuplesBy_kept_iff, hsame, ← tuplesBy_val, tuplesBy_build (fun t => linear_val I _)]
  intro c hc
  obtain ⟨b, hmem, rfl⟩ := List.mem_map.1 (mem_of_mem_kept hc)
  exact terms_mapTerms (linear_val I (valuation [])) (hadd b hmem)

end Calls

/-! ## The affine union of a cleaned-up one -/

section Encoded

variable {env : Environment} {d : Option TupleDecl} {cs : List Conjunction} {I : Interp}

/-- The calls outside of arguments stand for integers. -/
def IntegersOutside (cod : String → Nat) (cs : List Conjunction) : Prop :=
  ∀ t ∈ cs.flatMap Conjunction.terms, t.UsedAs cod false

theorem integers_affineMap (h : IntegersOutside I.cod cs) : (affineMap d cs).Integers I.cod := by
  intro s call hf
  rcases UFCallMap.findVar_foldl_record hf with hf | ⟨t, ht, -, -, rfl⟩
  · cases hf
  · exact (h t (mem_copied_terms ht)).setCoefficient 1

theorem affine_encoded (hc : ∀ c ∈ cs, c.Clean env) (hn : OwnNames d cs) : ∀ b ∈ encoded d cs, b.Affine := by
  intro b hb
  obtain ⟨c, hmem, rfl⟩ := List.mem_map.1 (mem_of_mem_kept (SortedList.mem_of_mem_build hb))
  have hcodes := (codes_of_names hc hn).mono fun u hu => List.mem_flatMap.2 ⟨c, hmem, hu⟩
  exact ⟨typed_mapTerms _ c, isLeaf_terms_mapTerms (hc c (mem_of_mem_copied hmem)) hcodes⟩

/-- Where each term has the value of what stands for it, the affine union has the tuples of the copy. -/
theorem mem_encoded_of_val (hc : ∀ c ∈ cs, c.Clean env) (hs : cs.Pairwise (fun a b => b.lt a = false)) (hn : OwnNames d cs)
    {J : Interp} {t : List Int} (hval : ∀ u ∈ (copied cs).flatMap Conjunction.terms,
      (affineTerm d u).val J (valuation t) = u.val I (valuation t)) :
    t ∈ denoteUnion J (encoded d cs) ↔ t ∈ denoteUnion I (copied cs) := by
  have hcodes := codes_of_names hc hn
  have hadd : ∀ c ∈ copied cs, ∀ u ∈ c.terms, Addable J.cod (affineTerm d u) := fun c hmem u h =>
    addable_leaf (hcodes.leaf u (List.mem_flatMap.2 ⟨c, hmem, h⟩))
  have hlinear : Linear (Addable J.cod) (Term.val J (valuation t)) := linear_val J _
  have hat : ∀ (J : Interp) (cs : List Conjunction),
      t ∈ tuplesBy (fun _ => Term.val J (valuation t)) cs ↔ t ∈ denoteUnion J cs := fun J cs =>
    exists_congr fun _ => and_congr_right fun _ => and_congr_right fun _ => holdsBy_val
  rw [← hat, ← hat, (decoded_eq_copied hc hs hcodes).2, tuplesBy_build (fun _ => hlinear),
    tuplesBy_mapTerms (E := fun _ => Term.val I (valuation t)) (fun _ => hlinear) hadd]
  · intro _ c hmem u h k
    rw [hval u (List.mem_flatMap.2 ⟨c, hmem, h⟩)]
  · intro b hb
    obtain ⟨c, hmem, rfl⟩ := List.mem_map.1 hb
    exact terms_mapTerms hlinear (hadd c hmem)

/-- A symbol that stands for a call has its value under the map, and any other term its own. -/
theorem val_affineTerm_affineMap (hc : ∀ c ∈ cs, c.Clean env) (hn : OwnNames d cs) (hu : IntegersOutside I.cod cs)
    {τ : Nat → Int} {u : Term} (h : u ∈ (copied cs).flatMap Conjunction.terms) :
    (affineTerm d u).val (I.withCalls (affineMap d cs) τ) τ = u.val I τ := by
  have hcodes := codes_of_names hc hn
  have hm := (wf_affineMap hc fun u h => hn.named u (mem_copied_terms h)).1
  rw [val_reverseTerm hm (integers_affineMap hu) (hcodes.leaf u h), hcodes.back u h]

/-- With the values of the calls for the symbols, the affine union has the tuples of the copy. -/
theorem mem_denoteUnion_encoded (hc : ∀ c ∈ cs, c.Clean env) (hs : cs.Pairwise (fun a b => b.lt a = false))
    (hn : OwnNames d cs) (hu : IntegersOutside I.cod cs) {t : List Int} :
    t ∈ denoteUnion (I.withCalls (affineMap d cs) (valuation t)) (encoded d cs) ↔ t ∈ denoteUnion I (copied cs) :=
  mem_encoded_of_val hc hs hn fun _ h => val_affineTerm_affineMap hc hn hu h

theorem denoteUnion_copied_iff (hr : ∀ c ∈ cs, c.readable = true) (hu : IntegersOutside I.cod cs) :
    denoteUnion I (copied cs) = denoteUnion I cs ↔ LosesNothingIn I cs := by
  rw [← kept_denote_iff, ← tuplesBy_val (copied cs), copied, tuplesBy_build (fun t => linear_val I _), tuplesBy_val]
  intro c hc
  have hmem := mem_of_mem_kept hc
  exact addable_of_readable (hr c hmem) fun u h => hu u (List.mem_flatMap.2 ⟨c, hmem, h⟩)

/-- The affine union is exact iff no tuples of the union were lost when it was copied. -/
theorem encoded_exact_iff (hr : ∀ c ∈ cs, c.readable = true) (hc : ∀ c ∈ cs, c.Clean env)
    (hs : cs.Pairwise (fun a b => b.lt a = false)) (hn : OwnNames d cs) (hu : IntegersOutside I.cod cs) :
    (∀ t, t ∈ denoteUnion (I.withCalls (affineMap d cs) (valuation t)) (encoded d cs) ↔ t ∈ denoteUnion I cs) ↔
      LosesNothingIn I cs := by
  rw [← denoteUnion_copied_iff hr hu, Set.ext_iff]
  exact forall_congr' fun t => by rw [mem_denoteUnion_encoded hc hs hn hu]

end Encoded

/-! ## Sets and relations -/

/-- A cleaned-up union whose calls have names of their own and, outside of arguments, stand for integers. -/
structure Encodable (env : Environment) (d : Option TupleDecl) (cod : String → Nat) (cs : List Conjunction) : Prop where
  readable : ∀ c ∈ cs, c.readable = true
  cleaned : IEGen.cleanUp env cs = .ok cs
  names : OwnNames d cs
  integers : IntegersOutside cod cs

section Exact

variable {env : Environment} {d : Option TupleDecl} {I : Interp} {m : UFCallMap}

/-- What an affine set and its map are, also where there is no conjunction. -/
theorem Set.eq_of_superAffineSet {s a : Set} (hc : ∀ c ∈ s.conjunctions, c.Clean env ∧ c.satisfiable = true)
    (h : s.superAffineSet env (.empty d) false = .ok (a, m)) :
    a = ⟨s.arity, encoded d s.conjunctions⟩ ∧ m = affineMap d s.conjunctions := by
  by_cases hne : s.conjunctions = []
  · have hcopy : s.copy env = .ok ⟨s.arity, []⟩ := by
      rw [Set.copy_of_clean (by simp [hne]), hne]
      rfl
    unfold superAffineSet at h
    simp only [hcopy, Outcome.bind_eq_ok, Except.ok.injEq, exists_eq_left', List.length_nil, if_true, Prod.mk.injEq] at h
    obtain ⟨rfl, rfl⟩ := h
    rw [hne]
    exact ⟨rfl, rfl⟩
  · exact ((Set.superAffineSet_iff hc hne).1 h).2

theorem Relation.eq_of_superAffineRelation {r p : Relation} (hc : ∀ c ∈ r.conjunctions, c.Clean env ∧ c.satisfiable = true)
    (hw : r.wellFormed = true) (h : r.superAffineRelation env (.empty d) false = .ok (p, m)) :
    p = ⟨r.inArity, r.outArity, encoded d r.conjunctions⟩ ∧ m = affineMap d r.conjunctions := by
  by_cases hne : r.conjunctions = []
  · have hcopy : r.copy env = .ok ⟨r.inArity, r.outArity, []⟩ := by
      rw [Relation.copy_of_clean hc hw, hne]
      rfl
    unfold superAffineRelation at h
    simp only [hne, hcopy, Outcome.bind_eq_ok, Except.ok.injEq, exists_eq_left', List.length_nil, if_true,
      Prod.mk.injEq] at h
    obtain ⟨rfl, rfl⟩ := h
    rw [hne]
    exact ⟨rfl, rfl⟩
  · exact ((Relation.superAffineRelation_iff hc hw hne).1 h).2

/-- The affine set, and the affine relation, have no calls outside of arguments; with the values of the calls for the
symbols they are exact iff no tuples were lost to the copy. -/
theorem affine_exact_iff (env : Environment) (d : Option TupleDecl) (I : Interp) (s a : Set) (r p : Relation)
    (m m' : UFCallMap) (hs : Encodable env d I.cod s.conjunctions) (hr : Encodable env d I.cod r.conjunctions)
    (hw : r.wellFormed = true) (ha : s.superAffineSet env (.empty d) false = .ok (a, m))
    (hp : r.superAffineRelation env (.empty d) false = .ok (p, m')) :
    (a.arity = s.arity ∧ (∀ b ∈ a.conjunctions, b.Affine) ∧
      ((∀ t, t ∈ a.denote (I.withCalls m (valuation t)) ↔ t ∈ s.denote I) ↔ LosesNothingIn I s.conjunctions)) ∧
    p.inArity = r.inArity ∧ p.outArity = r.outArity ∧ (∀ b ∈ p.conjunctions, b.Affine) ∧
      ((∀ t, t ∈ p.denote (I.withCalls m' (valuation t)) ↔ t ∈ r.denote I) ↔ LosesNothingIn I r.conjunctions) := by
  obtain ⟨hsc, hss⟩ := clean_of_cleanUp hs.readable hs.cleaned
  obtain ⟨hrc, hrs⟩ := clean_of_cleanUp hr.readable hr.cleaned
  obtain ⟨rfl, rfl⟩ := Set.eq_of_superAffineSet hsc ha
  obtain ⟨rfl, rfl⟩ := Relation.eq_of_superAffineRelation hrc hw hp
  have hsc' := fun c h => (hsc c h).1
  have hrc' := fun c h => (hrc c h).1
  exact ⟨⟨rfl, affine_encoded hsc' hs.names, encoded_exact_iff hs.readable hsc' hss hs.names hs.integers⟩, rfl, rfl,
    affine_encoded hrc' hr.names, encoded_exact_iff hr.readable hrc' hrs hr.names hr.integers⟩

/-- Putting the calls back is exact iff there is a conjunction and none that has lost its constraints gives way with
tuples of its own. -/
theorem Set.reverse_exact_iff (hm : m.Wf) (hi : m.Integers I.cod) {a s' : Set} (hb : ∀ b ∈ a.conjunctions, b.Affine)
    (h : a.reverseAffineSubstitution m = .ok s') : s'.denote I = {t | t ∈ a.denote (I.withCalls m (valuation t))} ↔
      a.conjunctions ≠ [] ∧ LosesNothingIn I (a.conjunctions.map (Conjunction.mapTerms (reverseTerm m))) := by
  by_cases hne : a.conjunctions = []
  · refine iff_of_false (fun heq => ?_) fun h => h.1 hne
    unfold reverseAffineSubstitution at h
    rw [hne] at h
    cases h
    -- the result starts as the set of all tuples, and nothing is added
    have hall : List.replicate a.arity 0 ∈ (Set.ofArity a.arity).denote I := mem_denote_ofArity.2 List.length_replicate
    have hnone : ∀ t, t ∉ a.denote (I.withCalls m (valuation t)) := by
      intro t ht
      obtain ⟨c, hc, -⟩ := ht
      rw [hne] at hc
      cases hc
    exact hnone _ (heq.subset hall)
  · obtain ⟨-, rfl⟩ := (Set.reverseAffineSubstitution_iff (fun b hmem => (hb b hmem).1) hne).1 h
    rw [and_iff_right hne, ← denoteUnion_reverse hm hi hb]
    rfl

theorem Relation.reverse_exact_iff (hm : m.Wf) (hi : m.Integers I.cod) {p r' : Relation} (hw : p.wellFormed = true)
    (hb : ∀ b ∈ p.conjunctions, b.Affine) (h : p.reverseAffineSubstitution m = .ok r') :
    r'.denote I = {t | t ∈ p.denote (I.withCalls m (valuation t))} ↔
      LosesNothingIn I (p.conjunctions.map (Conjunction.mapTerms (reverseTerm m))) := by
  obtain ⟨-, rfl⟩ := (Relation.reverseAffineSubstitution_iff (fun b hmem => (hb b hmem).1) hw).1 h
  rw [← denoteUnion_reverse hm hi hb]
  rfl

/-- Between replacing the calls and putting them back, a step that keeps the affine tuples, whatever the values of the
symbols, keeps the tuples of the set and of the relation. -/
theorem affine_step_exact_iff (env : Environment) (d : Option TupleDecl) (I : Interp) (s a a' s' : Set)
    (r p p' r' : Relation) (m m' : UFCallMap) (hs : Encodable env d I.cod s.conjunctions)
    (hr : Encodable env d I.cod r.conjunctions) (hw : r.wellFormed = true) (hls : LosesNothingIn I s.conjunctions)
    (hlr : LosesNothingIn I r.conjunctions) (ha : s.superAffineSet env (.empty d) false = .ok (a, m))
    (hp : r.superAffineRelation env (.empty d) false = .ok (p, m'))
    (hstep : ∀ sym, a'.denote { I with sym := sym } = a.denote { I with sym := sym }) (hb : ∀ b ∈ a'.conjunctions, b.Affine)
    (hstep' : ∀ sym, p'.denote { I with sym := sym } = p.denote { I with sym := sym }) (hw' : p'.wellFormed = true)
    (hb' : ∀ b ∈ p'.conjunctions, b.Affine) (hs' : a'.reverseAffineSubstitution m = .ok s')
    (hr' : p'.reverseAffineSubstitution m' = .ok r') :
    (s'.denote I = s.denote I ↔
      a'.conjunctions ≠ [] ∧ LosesNothingIn I (a'.conjunctions.map (Conjunction.mapTerms (reverseTerm m)))) ∧
    (r'.denote I = r.denote I ↔ LosesNothingIn I (p'.conjunctions.map (Conjunction.mapTerms (reverseTerm m')))) := by
  obtain ⟨hsc, hss⟩ := clean_of_cleanUp hs.readable hs.cleaned
  obtain ⟨hrc, hrs⟩ := clean_of_cleanUp hr.readable hr.cleaned
  obtain ⟨rfl, rfl⟩ := Set.eq_of_superAffineSet hsc ha
  obtain ⟨rfl, rfl⟩ := Relation.eq_of_superAffineRelation hrc hw hp
  have hsc' := fun c h => (hsc c h).1
  have hrc' := fun c h => (hrc c h).1
  have hexact := (encoded_exact_iff hs.readable hsc' hss hs.names hs.integers).2 hls
  have hexact' := (encoded_exact_iff hr.readable hrc' hrs hr.names hr.integers).2 hlr
  constructor
  · have hsame : s.denote I = {t | t ∈ a'.denote (I.withCalls (affineMap d s.conjunctions) (valuation t))} :=
      Set.ext fun t => (hexact t).symm.trans (Set.ext_iff.1 (hstep _) t).symm
    rw [hsame]
    exact Set.reverse_exact_iff (wf_affineMap hsc' fun u h => hs.names.named u (mem_copied_terms h)).1
      (integers_affineMap hs.integers) hb hs'
  · have hsame : r.denote I = {t | t ∈ p'.denote (I.withCalls (affineMap d r.conjunctions) (valuation t))} :=
      Set.ext fun t => (hexact' t).symm.trans (Set.ext_iff.1 (hstep' _) t).symm
    rw [hsame]
    exact Relation.reverse_exact_iff (wf_affineMap hrc' fun u h => hr.names.named u (mem_copied_terms h)).1
      (integers_affineMap hr.integers) hw' hb' hr'

end Exact

/-! ## A set with a nested call and a relation with two calls -/

/-- `{ [i] : m - 3 * f(g(i))[1] = 0 }` -/
def tripleSet : Set := ⟨1, [⟨[.mk .equality [.symConst 1 "m",
  .ufCall (-3) "f" [.ofTerm (.ufCall 1 "g" [.ofTerm (.tupleVar 1 0)] none)] (some 1)]], [], ⟨[⟨false, 0, "i"⟩]⟩, 0⟩]⟩

/-- `{ [i] -> [o] : h(i) - h(o) >= 0 }` -/
def descendingRelation : Relation := ⟨1, 1, [⟨[], [.mk .inequality [.ufCall 1 "h" [.ofTerm (.tupleVar 1 0)] none,
  .ufCall (-1) "h" [.ofTerm (.tupleVar 1 1)] none]], ⟨[⟨false, 0, "i"⟩, ⟨false, 0, "o"⟩]⟩, 1⟩]⟩

theorem encodable_tripleSet : Encodable noFunctions none identityInterp.cod tripleSet.conjunctions := by
  have hterms : ∀ t ∈ tripleSet.conjunctions.flatMap Conjunction.terms, t = .symConst 1 "m" ∨
      t = .ufCall (-3) "f" [.ofTerm (.ufCall 1 "g" [.ofTerm (.tupleVar 1 0)] none)] (some 1) := by
    simp [tripleSet, Conjunction.terms]
  refine ⟨by decide, rfl, ⟨fun t ht hcall => ?_, fun t ht u hu hcall hcall' _ => ?_, fun k s hk t ht hcall => ?_⟩,
    fun t ht => ?_⟩
  · rcases hterms t ht with rfl | rfl
    · cases hcall
    · exact ⟨_, rfl⟩
  · rcases hterms t ht with rfl | rfl
    · cases hcall
    · rcases hterms u hu with rfl | rfl
      · cases hcall'
      · exact Term.strictWeak_lt.tied_refl _
  · rcases hterms _ hk with h | h <;> cases h
    rcases hterms t ht with rfl | rfl
    · cases hcall
    · decide +kernel
  · rcases hterms t ht with rfl | rfl <;> rfl

theorem encodable_descendingRelation : Encodable noFunctions none identityInterp.cod descendingRelation.conjunctions := by
  have hterms : ∀ t ∈ descendingRelation.conjunctions.flatMap Conjunction.terms,
      (t = .ufCall 1 "h" [.ofTerm (.tupleVar 1 0)] none) ∨ t = .ufCall (-1) "h" [.ofTerm (.tupleVar 1 1)] none := by
    simp [descendingRelation, Conjunction.terms]
  have hsym : symbolOf none (.ufCall 1 "h" [.ofTerm (.tupleVar 1 0)] none) ≠
      symbolOf none (.ufCall (-1) "h" [.ofTerm (.tupleVar 1 1)] none) := by decide +kernel
  refine ⟨by decide, rfl, ⟨fun t ht hcall => ?_, fun t ht u hu hcall hcall' h => ?_, fun k s hk t ht hcall => ?_⟩,
    fun t ht => ?_⟩
  · rcases hterms t ht with rfl | rfl <;> exact ⟨_, rfl⟩
  · rcases hterms t ht with rfl | rfl
    · rcases hterms u hu with rfl | rfl
      · exact Term.strictWeak_lt.tied_refl _
      · exact absurd h hsym
    · rcases hterms u hu with rfl | rfl
      · exact absurd h.symm hsym
      · exact Term.strictWeak_lt.tied_refl _
  · rcases hterms _ hk with h | h <;> cases h
  · rcases hterms t ht with rfl | rfl <;> exact iff_of_true rfl rfl

/-- `{ [i] : m - 3 * f_g_i__B1B = 0 }`, in the printed name of the call -/
def tripleAffine : Set × UFCallMap := ⟨⟨1, encoded none tripleSet.conjunctions⟩, affineMap none tripleSet.conjunctions⟩

def descendingAffine : Relation × UFCallMap :=
  ⟨⟨1, 1, encoded none descendingRelation.conjunctions⟩, affineMap none descendingRelation.conjunctions⟩

theorem superAffine_examples : tripleSet.superAffineSet noFunctions (.empty none) false = .ok tripleAffine ∧
    descendingRelation.superAffineRelation noFunctions (.empty none) false = .ok descendingAffine := by
  obtain ⟨hs, -⟩ := clean_of_cleanUp encodable_tripleSet.readable encodable_tripleSet.cleaned
  obtain ⟨hr, -⟩ := clean_of_cleanUp encodable_descendingRelation.readable encodable_descendingRelation.cleaned
  refine ⟨(Set.superAffineSet_iff hs (by decide)).2 ⟨fun c hc => ?_, rfl, rfl⟩,
    (Relation.superAffineRelation_iff hr (by decide) (by decide)).2 ⟨fun c hc => ?_, rfl, rfl⟩⟩
  · have hmem := mem_of_mem_copied hc
    refine ⟨?_, fun t ht => encodable_tripleSet.names.named t (List.mem_flatMap.2 ⟨c, hmem, ht⟩)⟩
    rw [List.mem_singleton.1 hmem]
    decide
  · have hmem := mem_of_mem_copied hc
    refine ⟨?_, fun t ht => encodable_descendingRelation.names.named t (List.mem_flatMap.2 ⟨c, hmem, ht⟩)⟩
    rw [List.mem_singleton.1 hmem]
    decide

theorem affine_exact_triple :
    (∀ t, t ∈ tripleAffine.1.denote (identityInterp.withCalls tripleAffine.2 (valuation t)) ↔
      t ∈ tripleSet.denote identityInterp) ∧
    ∀ t, t ∈ descendingAffine.1.denote (identityInterp.withCalls descendingAffine.2 (valuation t)) ↔
      t ∈ descendingRelation.denote identityInterp := by
  obtain ⟨ha, hp⟩ := superAffine_examples
  obtain ⟨⟨-, -, hs⟩, -, -, -, hr⟩ := affine_exact_iff noFunctions none identityInterp tripleSet tripleAffine.1
    descendingRelation descendingAffine.1 tripleAffine.2 descendingAffine.2 encodable_tripleSet encodable_descendingRelation
    (by decide) ha hp
  exact ⟨hs.2 (by simp [LosesNothingIn, replaced, tripleSet]), hr.2 (by simp [LosesNothingIn, replaced, descendingRelation])⟩

theorem affine_step_triple : ∃ s' r', tripleAffine.1.reverseAffineSubstitution tripleAffine.2 = .ok s' ∧
    descendingAffine.1.reverseAffineSubstitution descendingAffine.2 = .ok r' ∧
    s'.denote identityInterp = tripleSet.denote identityInterp ∧
    r'.denote identityInterp = descendingRelation.denote identityInterp := by
  obtain ⟨ha, hp⟩ := superAffine_examples
  obtain ⟨⟨-, hb, -⟩, -, -, hb', -⟩ := affine_exact_iff noFunctions none identityInterp tripleSet tripleAffine.1
    descendingRelation descendingAffine.1 tripleAffine.2 descendingAffine.2 encodable_tripleSet encodable_descendingRelation
    (by decide) ha hp
  obtain ⟨b, hone⟩ := List.length_eq_one_iff.1 (by decide +kernel : tripleAffine.1.conjunctions.length = 1)
  obtain ⟨b', hone'⟩ := List.length_eq_one_iff.1 (by decide +kernel : descendingAffine.1.conjunctions.length = 1)
  have hne : tripleAffine.1.conjunctions ≠ [] := by simp [hone]
  have hw' : descendingAffine.1.wellFormed = true := by decide +kernel
  have harity : ∀ c ∈ tripleAffine.1.conjunctions, c.inArity < c.arity := by decide +kernel
  have harity' : ∀ c ∈ descendingAffine.1.conjunctions, c.inArity < c.arity := by decide +kernel
  have hs' := (Set.reverseAffineSubstitution_iff (m := tripleAffine.2) (fun c hc => (hb c hc).1) hne).2
    ⟨fun c hc => ⟨harity c hc, fun t ht => ((hb c hc).2 t ht).2⟩, rfl⟩
  have hr' := (Relation.reverseAffineSubstitution_iff (m := descendingAffine.2) (fun c hc => (hb' c hc).1) hw').2
    ⟨fun c hc => ⟨harity' c hc, fun t ht => ((hb' c hc).2 t ht).2⟩, rfl⟩
  obtain ⟨h, h'⟩ := affine_step_exact_iff noFunctions none identityInterp tripleSet tripleAffine.1 tripleAffine.1 _
    descendingRelation descendingAffine.1 descendingAffine.1 _ tripleAffine.2 descendingAffine.2 encodable_tripleSet
    encodable_descendingRelation (by decide) (by simp [LosesNothingIn, replaced, tripleSet])
    (by simp [LosesNothingIn, replaced, descendingRelation]) ha hp (fun _ => rfl) hb (fun _ => rfl) hw' hb' hs' hr'
  exact ⟨_, _, hs', hr', h.2 ⟨hne, by simp [hone, LosesNothingIn, replaced]⟩,
    h'.2 (by simp [hone', LosesNothingIn, replaced])⟩

end IEGen
