import IEGen.AffineMeaning
import IEGen.Bounded
import IEGen.Instances
import IEGen.Monotonic
import IEGen.Eliminated

/-!
# Instances of rules at tuples

`instantiate` replaces the two variables of a rule by expressions and the calls of both sides by symbols of a map that
all instances share. With the values of the calls for the symbols, the affine sides of an instance hold at a tuple where
the sides of the rule hold at the values of the two expressions (`mem_affineSides`), also after later instances have been
made, so that in an interpretation with the rule every instance is true of every tuple (`ruleInstantiation_means`).
-/

namespace IEGen

open SortedList (build)

/-! ## A map that is shared -/

section Shared

variable {env : Environment} {I : Interp} {m M : UFCallMap} {bs : List Conjunction}

/-- The conjunctions that the visitor of `superAffineSet` makes of those that it visits. -/
def affineUnion (d : Option TupleDecl) (bs : List Conjunction) : List Conjunction :=
  build Conjunction.lt (kept Conjunction.hasConstraints (bs.map (Conjunction.mapTerms (affineTerm d))))

theorem Conjunction.Built.typed {b : Conjunction} (h : b.Built) : b.Typed :=
  ⟨fun e he => (h.equalities e he).1.expType, fun e he => (h.inequalities e he).expType⟩

theorem Conjunction.Built.term {b : Conjunction} (h : b.Built) {t : Term} (ht : t ∈ b.terms) :
    t.readable = true ∧ t.Canonical := by
  have hexp : ∀ {k : ExpType} {e : Exp}, BuiltExp k e → t ∈ e.terms → t.readable = true ∧ t.Canonical := fun he ht =>
    ⟨Exp.readable_iff.1 he.readable t ht, ((Exp.canonical_iff.1 he.canonical).2.2 t ht).2⟩
  obtain ⟨e, he, ht⟩ := List.mem_flatMap.1 ht
  rcases List.mem_append.1 he with he | he
  · exact hexp (h.equalities e he).1 ht
  · exact hexp (h.inequalities e he) ht

/-- The visitor takes it as it is. -/
theorem Conjunction.Built.plain {b : Conjunction} (h : b.Built) :
    b.Typed ∧ ∀ e ∈ b.equalities ++ b.inequalities, VisitorSuperAffineSet.Plain e := by
  refine ⟨h.typed, fun e he => ⟨?_, fun t ht => h.term (List.mem_flatMap.2 ⟨e, he, ht⟩)⟩⟩
  rcases List.mem_append.1 he with he | he
  · rw [h.typed.1 e he]; nofun
  · rw [h.typed.2 e he]; nofun

/-- A run of the visitor over conjunctions as the clean-up makes them. -/
theorem accept_built (hm : m.Wf) (hb : ∀ b ∈ bs, b.Built) {v : VisitorSuperAffineSet}
    (h : acceptVisitor VisitorSuperAffineSet.visitor bs ⟨m, .empty, 0⟩ = .ok v) :
    v.affine.conjs = bs.map (Conjunction.mapTerms (affineTerm m.tupleDecl)) ∧
      v.ufcmap = (bs.flatMap Conjunction.terms).foldl UFCallMap.record m ∧
      ∀ u ∈ bs.flatMap Conjunction.terms, UFCallMap.Recordable m.tupleDecl u := by
  obtain ⟨hvis, rfl⟩ := (VisitorSuperAffineSet.acceptVisitor_iff (fun b hmem => (hb b hmem).plain) hm).1 h
  obtain ⟨hconjs, hmap⟩ := VisitorSuperAffineSet.foldl_visitConjunction (d := m.tupleDecl) (fun b hmem => (hb b hmem).typed)
    ⟨m, .empty, 0⟩
  have hrec : ∀ t ∈ bs.flatMap Conjunction.terms, UFCallMap.Recordable m.tupleDecl t := by
    intro t ht
    obtain ⟨b, hmem, ht⟩ := List.mem_flatMap.1 ht
    exact ⟨((hb b hmem).term ht).1, ((hb b hmem).term ht).2, (hvis b hmem).2 t ht⟩
  rw [hconjs, hmap]
  exact ⟨rfl, rfl, hrec⟩

/-- What the visitor makes of a set that has conjunctions. -/
theorem endSet_accept (hm : m.Wf) {s : Set} (hb : ∀ b ∈ s.conjunctions, b.Built) (hne : s.conjunctions ≠ [])
    {v : VisitorSuperAffineSet} (h : acceptVisitor VisitorSuperAffineSet.visitor s.conjunctions ⟨m, .empty, 0⟩ = .ok v) :
    v.affine.endSet s = ⟨s.arity, affineUnion m.tupleDecl s.conjunctions⟩ ∧
      v.ufcmap = (s.conjunctions.flatMap Conjunction.terms).foldl UFCallMap.record m ∧
      ∀ u ∈ s.conjunctions.flatMap Conjunction.terms, UFCallMap.Recordable m.tupleDecl u := by
  obtain ⟨hconjs, hmap, hrec⟩ := accept_built hm hb h
  refine ⟨?_, hmap, hrec⟩
  rw [Builder.endSet, hconjs, foldl_addConjunction_ofArity s.arity (by simpa using hne)]
  rfl

/-- The affine set with any map before it, and the map after it. -/
theorem Set.superAffineSet_eq (hm : m.Wf) {s s₁ a : Set} {m₁ : UFCallMap} (hcopy : s.copy env = .ok s₁)
    (hb : ∀ b ∈ s₁.conjunctions, b.Built) (h : s.superAffineSet env m false = .ok (a, m₁)) :
    a = ⟨s₁.arity, affineUnion m.tupleDecl s₁.conjunctions⟩ ∧
      m₁ = (s₁.conjunctions.flatMap Conjunction.terms).foldl UFCallMap.record m ∧
      ∀ u ∈ s₁.conjunctions.flatMap Conjunction.terms, UFCallMap.Recordable m.tupleDecl u := by
  unfold Set.superAffineSet at h
  simp only [hcopy, Outcome.bind_eq_ok, Except.ok.injEq, exists_eq_left', Bool.false_eq_true, if_false] at h
  split_ifs at h with hnil
  · obtain ⟨rfl, rfl⟩ := Prod.mk.inj (Except.ok.inj h)
    have hconjs := List.length_eq_zero_iff.1 hnil
    rw [hconjs]
    exact ⟨congrArg (Set.mk _) hconjs, rfl, by simp⟩
  · obtain ⟨_, hv, h⟩ := Outcome.bind_eq_ok.1 h
    cases hv
    obtain ⟨v, hv, h⟩ := Outcome.bind_eq_ok.1 h
    obtain ⟨rfl, rfl⟩ := Prod.mk.inj (Except.ok.inj h)
    exact endSet_accept hm hb (fun hnil' => hnil (List.length_eq_zero_iff.2 hnil')) hv

/-- Where calls have names of their own, the map that has recorded them gives each of them back. -/
theorem decoded_of_ownNames {d : Option TupleDecl} (hb : ∀ u ∈ bs.flatMap Conjunction.terms, UFCallMap.Recordable d u)
    (hn : OwnNames d bs) : ∀ u ∈ bs.flatMap Conjunction.terms,
      Decoded ((bs.flatMap Conjunction.terms).foldl UFCallMap.record (.empty d)) u := by
  have hdecl := (UFCallMap.wf_foldl_record (UFCallMap.wf_empty d) hb).2
  have hseen : ∀ {s k}, ((bs.flatMap Conjunction.terms).foldl UFCallMap.record (.empty d)).findVar s = some k →
      ∃ t ∈ bs.flatMap Conjunction.terms, t.isUFCall = true ∧ symbolOf d t = s ∧ k = t.setCoefficient 1 := by
    intro s k hk
    rcases UFCallMap.findVar_foldl_record hk with hk | hk
    · cases hk
    · exact hk
  intro u hu
  obtain ⟨hr, hcan, hnamed⟩ := hb u hu
  refine ⟨hr, hcan, fun hcall => ⟨by rw [hdecl]; exact hnamed, ?_⟩, fun k s hsym => ?_⟩
  · rw [hdecl]
    obtain ⟨k, hk⟩ := Option.isSome_iff_exists.1 (UFCallMap.findVar_symbolOf_isSome (m := .empty d) hu hcall)
    obtain ⟨t, ht, htcall, hts, rfl⟩ := hseen hk
    obtain ⟨htr, htc, -⟩ := hb t ht
    have heq := Term.eq_of_tied (by rw [readable_setCoefficient]; exact htr) (by rw [readable_setCoefficient]; exact hr)
      (canonical_setCoefficient htc) (canonical_setCoefficient hcan) (hn.distinct t ht u hu htcall hcall hts)
    exact hk.trans (congrArg some heq)
  · subst hsym
    cases hf : UFCallMap.findVar _ s with
    | none => rfl
    | some k' =>
      obtain ⟨t, ht, htcall, hts, -⟩ := hseen hf
      exact absurd hts (hn.fresh k s hu t ht htcall)

/-- The calls that have been recorded stand for integers if they do where they stand. -/
theorem integers_foldl_record {d : Option TupleDecl} {cod : String → Nat} (h : IntegersOutside cod bs) :
    ((bs.flatMap Conjunction.terms).foldl UFCallMap.record (.empty d)).Integers cod := by
  intro s call hf
  rcases UFCallMap.findVar_foldl_record hf with hf | ⟨t, ht, -, -, rfl⟩
  · cases hf
  · exact (h t ht).setCoefficient 1

/-- A call that stands under its own symbol, and any other term, has its value back. -/
theorem val_affineTerm (hM : M.Wf) (hi : M.Integers I.cod) {τ : Nat → Int} {u : Term} (hu : Decoded M u) :
    (affineTerm M.tupleDecl u).val (I.withCalls M τ) τ = u.val I τ := by
  have hback : reverseTerm M (affineTerm M.tupleDecl u) = u := by
    cases u with
    | ufCall c f as i =>
      obtain ⟨-, hf⟩ := hu.call rfl
      simp only [affineTerm, reverseTerm, hf]
      rfl
    | symConst c s => simp only [affineTerm, reverseTerm, hu.symbol c s rfl]
    | tupleVar | constVal | tupleExp => rfl
  rw [val_reverseTerm hM hi (affineTerm_leaf hu.readable), hback]

/-- With the values of the calls for the symbols, the affine union has the tuples of what it is made from. -/
theorem mem_affineUnion (hM : M.Wf) (hi : M.Integers I.cod) (hone : bs.length ≤ 1)
    (hu : ∀ u ∈ bs.flatMap Conjunction.terms, Decoded M u) {t : List Int} :
    t ∈ denoteUnion (I.withCalls M (valuation t)) (affineUnion M.tupleDecl bs) ↔ t ∈ denoteUnion I bs := by
  have hadd : ∀ b ∈ bs, ∀ u ∈ b.terms, Addable I.cod (affineTerm M.tupleDecl u) := fun b hb u h =>
    addable_leaf (affineTerm_leaf (hu u (List.mem_flatMap.2 ⟨b, hb, h⟩)).readable)
  have hlinear : ∀ t, Linear (Addable I.cod) (Term.val (I.withCalls M (valuation t)) (valuation t)) :=
    fun t => linear_val (I.withCalls M (valuation t)) _
  rw [← mem_tuplesBy_val (J := fun t => I.withCalls M (valuation t)), affineUnion, kept_eq_self (.inr (by simpa using hone)),
    tuplesBy_build hlinear, tuplesBy_mapTerms (E := fun t => Term.val I (valuation t)) hlinear hadd, tuplesBy_val]
  · intro t b hb u h k
    rw [val_affineTerm hM hi (hu u (List.mem_flatMap.2 ⟨b, hb, h⟩))]
  · intro c hc
    obtain ⟨b, hb, rfl⟩ := List.mem_map.1 hc
    exact terms_mapTerms (hlinear []) (hadd b hb)

end Shared

/-! ## A side of a rule at two expressions -/

/-- A side of a rule with the expressions for its variables, over the tuples of `d`. -/
def Set.sideAt (env : Environment) (s : Set) (x1 x2 : Exp) (d : TupleDecl) : Except Failure Set := do
  (← (← s.copy env).substituteInConstraints env (tupleSubMap [x1, x2])).setTupleDecl d

/-- What is printed for a side. -/
def Set.printedSide (env : Environment) (s : Set) : Except Failure String := do
  .ok (sideToIsl (getPartsFromStr (← s.prettyPrintString env)).constraints)

/-- The affine sets of both sides are made one after the other, and printed. -/
theorem instantiate_eq_ok_iff {env : Environment} {r : UniQuantRule} {x1 x2 : Exp} {m m' : UFCallMap} {d : TupleDecl}
    {it : String × String} : instantiate env r x1 x2 m d = .ok (it, m') ↔ ∃ left right,
      r.leftSide.sideAt env x1 x2 d = .ok left ∧ r.rightSide.sideAt env x1 x2 d = .ok right ∧
      ∃ a m₁ b, left.superAffineSet env m false = .ok (a, m₁) ∧ right.superAffineSet env m₁ false = .ok (b, m') ∧
        a.printedSide env = .ok it.1 ∧ b.printedSide env = .ok it.2 := by
  obtain ⟨p, q⟩ := it
  have hmap : tupleSubMap [x1, x2] = [(.tupleVar 1 0, some x1), (.tupleVar 1 1, some x2)] := rfl
  unfold instantiate Set.sideAt Set.printedSide
  simp only [hmap, Outcome.bind_eq_ok, Except.ok.injEq, Prod.mk.injEq, Prod.exists]
  constructor
  · rintro ⟨l, hl, q, hq, l', hl', q', hq', left, hleft, right, hright, a, m₁, ha, b, m₂, hb, s, hs, s', hs', ⟨h₁, h₂⟩, rfl⟩
    exact ⟨left, right, ⟨l, hl, l', hl', hleft⟩, ⟨q, hq, q', hq', hright⟩, a, m₁, b, ha, hb, ⟨s, hs, h₁⟩, s', hs', h₂⟩
  · rintro ⟨left, right, ⟨l, hl, l', hl', hleft⟩, ⟨q, hq, q', hq', hright⟩, a, m₁, b, ha, hb, ⟨s, hs, h₁⟩, s', hs', h₂⟩
    exact ⟨l, hl, q, hq, l', hl', q', hq', left, hleft, right, hright, a, m₁, ha, b, m', hb, s, hs, s', hs', ⟨h₁, h₂⟩, rfl⟩

section Side

variable {env : Environment} {I : Interp} {τ τ' : Nat → Int}

/-- What a conjunction has to be for the constraints to hold, after a substitution, where they did at the values of what
is substituted: the calls that collapse when it is cleaned up keep their values. -/
theorem Conjunction.holds_substituted {m : SubMap} (hm : m.Evaluates I τ τ' Scalar AnyCall) {c b : Conjunction}
    (hc : c.readable = true) (hf : c.Fits I.cod Scalar Scalar AnyCall)
    (hk : ∀ e ∈ c.equalities ++ c.inequalities, (e.substitute m).CollapseKeeps env I τ)
    (h : c.substituteInConstraints env m = .ok b) : (b.Holds I τ ↔ c.Holds I τ') ∧ b.Ready I.cod := by
  obtain ⟨heqs, hineqs⟩ := readable_iff.1 hc
  have hsub : ∀ e ∈ c.equalities ++ c.inequalities, (e.substitute m).readable = true ∧
      (∀ k, (e.substitute m).val I τ k = e.val I τ' k) ∧ (e.substitute m).FitsAs I.cod Scalar Scalar AnyCall := by
    intro e he
    obtain ⟨v, hv, hf⟩ := hf e he
    obtain ⟨h₁, h₂, h₃⟩ := Exp.val_substitute hm.leaves (P := AnyCall) (fun _ _ _ _ _ _ => trivial)
      ((List.mem_append.1 he).elim (heqs e) (hineqs e)) hf
    exact ⟨h₁, h₂, v, hv, h₃⟩
  have hmem : ∀ x ∈ c.equalities.map (Exp.substitute m) ++ c.inequalities.map (Exp.substitute m),
      ∃ e ∈ c.equalities ++ c.inequalities, x = e.substitute m := by
    intro x hx
    rw [← List.map_append] at hx
    obtain ⟨e, he, rfl⟩ := List.mem_map.1 hx
    exact ⟨e, he, rfl⟩
  have hread : Conjunction.readable { c with equalities := c.equalities.map (Exp.substitute m)
                                             inequalities := c.inequalities.map (Exp.substitute m) } = true := by
    refine readable_iff.2 ⟨fun x hx => ?_, fun x hx => ?_⟩
    · obtain ⟨e, he, rfl⟩ := hmem x (List.mem_append_left _ hx)
      exact (hsub e he).1
    · obtain ⟨e, he, rfl⟩ := hmem x (List.mem_append_right _ hx)
      exact (hsub e he).1
  obtain ⟨hiff, hfits⟩ := cleanUp_keeps (I := I) (τ := τ) (fun _ _ _ _ _ _ => trivial) hread
    (fun x hx => by obtain ⟨e, he, rfl⟩ := hmem x hx; exact (hsub e he).2.2)
    (fun x hx => by obtain ⟨e, he, rfl⟩ := hmem x hx; exact hk e he) h
  refine ⟨hiff.trans ?_, built_cleanUp hread h, hfits⟩
  unfold Holds
  dsimp only
  rw [List.forall_mem_map, List.forall_mem_map]
  refine and_congr (forall₂_congr fun e he => ?_) (forall₂_congr fun e he => ?_)
  · exact forall_congr' fun k => by rw [(hsub e (List.mem_append_left _ he)).2.1]
  · exact forall_congr' fun k => by rw [(hsub e (List.mem_append_right _ he)).2.1]

/-- A copy of one conjunction is what it is cleaned up to, if that is satisfiable. -/
theorem copyConjunctions_singleton {b : Conjunction} {ds : List Conjunction} (h : copyConjunctions env [b] = .ok ds) :
    ∃ b', b.cleanUp env = .ok b' ∧ ds = [b'].filter Conjunction.satisfiable := by
  have hadd : [b].foldl addConjunction [] = [b] := rfl
  unfold copyConjunctions cleanUp at h
  rw [hadd, List.mapM_cons, List.mapM_nil] at h
  simp only [Outcome.bind_eq_ok] at h
  obtain ⟨_, ⟨b', hb, _, hnil, hcons⟩, h⟩ := h
  cases hnil
  cases hcons
  refine ⟨b', hb, ?_⟩
  rw [← Except.ok.inj h]
  cases hs : b'.satisfiable <;> simp [hs]

/-- A side of a rule: it is about two variables that are no constants. -/
structure Conjunction.IsRuleSide (c : Conjunction) : Prop where
  readable : c.readable = true
  arity : c.arity = 2
  noConst : ∀ i, c.tupleDecl.elemIsConst i = false
  vars : c.VarsIn (· < 2)

/-- What a side of a rule has to be for its instances to mean what they say: its calls and those of the expressions stand for
integers, and where calls collapse, in the side with the expressions or in what that is cleaned up to, they keep their
values. -/
structure Conjunction.Instantiable (env : Environment) (I : Interp) (x1 x2 : Exp) (c : Conjunction) : Prop extends
    c.IsRuleSide where
  fits : c.Fits I.cod Scalar Scalar AnyCall
  keeps : ∀ τ, ∀ e ∈ c.equalities ++ c.inequalities, (e.substitute (tupleSubMap [x1, x2])).CollapseKeeps env I τ
  again : ∀ τ b, c.substituteInConstraints env (tupleSubMap [x1, x2]) = .ok b → b.CollapseKeeps env I τ

/-- The values of the two expressions at a tuple. -/
def valuesAt (I : Interp) (x1 x2 : Exp) (t : List Int) : List Int := [x1.val I (valuation t) 0, x2.val I (valuation t) 0]

theorem Conjunction.mem_denote_values {x1 x2 : Exp} {c : Conjunction} (hc : c.Instantiable env I x1 x2) (t : List Int) :
    valuesAt I x1 x2 t ∈ c.denote I ↔ c.Holds I (valuation (valuesAt I x1 x2 t)) := by
  refine and_iff_right ⟨hc.arity.symm, fun i _ h => ?_⟩
  rw [hc.noConst i] at h
  cases h

/-- The copy that is made of an instance of a side of one conjunction: that is cleaned up with the expressions in it, and once
more over the other tuples. -/
theorem Set.copy_sideAt {s left l₁ : Set} {c : Conjunction} {x1 x2 : Exp} {d : TupleDecl}
    (hcopy : s.copy env = .ok ⟨s.arity, [c]⟩) (hn : ∀ i, c.tupleDecl.elemIsConst i = false)
    (h : s.sideAt env x1 x2 d = .ok left) (hl : left.copy env = .ok l₁) :
    ∃ b b', c.substituteInConstraints env (tupleSubMap [x1, x2]) = .ok b ∧
      Conjunction.cleanUp env { b with tupleDecl := d } = .ok b' ∧ l₁.conjunctions = [b'].filter Conjunction.satisfiable := by
  unfold Set.sideAt at h
  rw [hcopy] at h
  obtain ⟨_, hok, h⟩ := Outcome.bind_eq_ok.1 h
  cases hok
  obtain ⟨s₁, hsub, h⟩ := Outcome.bind_eq_ok.1 h
  unfold Set.substituteInConstraints at hsub
  obtain ⟨bs, hbs, hsub⟩ := Outcome.bind_eq_ok.1 hsub
  cases hsub
  have hf := Outcome.forall₂_of_mapM hbs
  cases hf with
  | @cons _ b _ bs' hb hnil =>
    cases hnil
    have hdecl : b.tupleDecl = c.tupleDecl := by
      obtain ⟨eqs, ineqs, -, -, rfl⟩ := cleanUp_eq_ok hb
      rfl
    unfold Set.setTupleDecl at h
    rw [List.mapM_cons, List.mapM_nil, Conjunction.setTupleDecl_of_noConst (by rw [hdecl]; exact hn)] at h
    obtain ⟨_, hset, h⟩ := Outcome.bind_eq_ok.1 h
    cases hset
    cases h
    unfold Set.copy at hl
    obtain ⟨ds, hds, hl⟩ := Outcome.bind_eq_ok.1 hl
    cases hl
    obtain ⟨b', hb', rfl⟩ := copyConjunctions_singleton hds
    exact ⟨b, b', hb, hb', rfl⟩

/-- It is at most one conjunction, as the clean-up makes them. -/
theorem Set.built_sideAt {s left l₁ : Set} {c : Conjunction} {x1 x2 : Exp} {d : TupleDecl}
    (hcopy : s.copy env = .ok ⟨s.arity, [c]⟩) (hn : ∀ i, c.tupleDecl.elemIsConst i = false) (hc : c.readable = true)
    (h1 : x1.readable = true) (h2 : x2.readable = true) (h : s.sideAt env x1 x2 d = .ok left)
    (hl : left.copy env = .ok l₁) : l₁.conjunctions.length ≤ 1 ∧ ∀ b ∈ l₁.conjunctions, b.Built := by
  obtain ⟨b, b', hb, hb', hconjs⟩ := Set.copy_sideAt hcopy hn h hl
  have hread : ∀ p ∈ tupleSubMap [x1, x2], ∀ x, p.2 = some x → x.readable = true := by
    intro p hp x hx
    rcases List.mem_pair.1 hp with rfl | rfl
    · exact Option.some.inj hx ▸ h1
    · exact Option.some.inj hx ▸ h2
  have hbread : b.readable = true := Conjunction.readable_substituteInConstraints hc hread hb
  rw [hconjs]
  refine ⟨List.length_filter_le _ _, fun x hx => ?_⟩
  rw [List.mem_singleton.1 (List.mem_filter.1 hx).1]
  exact built_cleanUp (c := { b with tupleDecl := d }) hbread hb'

/-- It has the tuples at which the side has the values of the expressions. -/
theorem mem_sideAt {s left l₁ : Set} {c : Conjunction} {x1 x2 : Exp} {d : TupleDecl}
    (hcopy : s.copy env = .ok ⟨s.arity, [c]⟩) (hc : c.Instantiable env I x1 x2) (h1 : IsInteger I x1) (h2 : IsInteger I x2)
    (h : s.sideAt env x1 x2 d = .ok left) (hl : left.copy env = .ok l₁) :
    IntegersOutside I.cod l₁.conjunctions ∧
      ∀ t, t ∈ denoteUnion I l₁.conjunctions ↔ d.Admits t ∧ valuesAt I x1 x2 t ∈ c.denote I := by
  obtain ⟨b, b', hb, hb', hconjs⟩ := Set.copy_sideAt hcopy hc.noConst h hl
  rw [hconjs]
  have hint : ∀ e ∈ [x1, x2], IsInteger I e := by
    intro e he
    rcases List.mem_pair.1 he with rfl | rfl
    · exact h1
    · exact h2
  have hholds : ∀ t, (b.Holds I (valuation t) ↔ valuesAt I x1 x2 t ∈ c.denote I) ∧ b.Ready I.cod := by
    intro t
    obtain ⟨hiff, hready⟩ := Conjunction.holds_substituted (evaluates_tupleSubMap (τ := valuation t) hint) hc.readable
      hc.fits (hc.keeps (valuation t)) hb
    refine ⟨hiff.trans ?_, hready⟩
    rw [Conjunction.mem_denote_values hc]
    refine Conjunction.holds_congr hc.vars fun l hlt => ?_
    exact if_pos hlt
  have hready := (hholds []).2
  have hread : Conjunction.readable { b with tupleDecl := d } = true := hready.built.readable
  have hagain : ∀ t, (b'.Holds I (valuation t) ↔ b.Holds I (valuation t)) ∧ b'.Fits I.cod Scalar Scalar AnyCall := fun t =>
    Conjunction.cleanUp_keeps (c := { b with tupleDecl := d }) (fun _ _ _ _ _ _ => trivial) hread hready.fits
      (hc.again (valuation t) b hb) hb'
  have hdecl' : b'.tupleDecl = d := by
    obtain ⟨eqs, ineqs, -, -, rfl⟩ := cleanUp_eq_ok hb'
    rfl
  have hmem : ∀ {x}, x ∈ [b'].filter Conjunction.satisfiable → x = b' := fun hx =>
    List.mem_singleton.1 (List.mem_filter.1 hx).1
  refine ⟨fun u hu => ?_, fun t => ?_⟩
  · obtain ⟨x, hx, hu⟩ := List.mem_flatMap.1 hu
    rw [hmem hx] at hu
    obtain ⟨e, he, hu⟩ := List.mem_flatMap.1 hu
    obtain ⟨v, hv, hfe⟩ := (hagain []).2 e he
    exact hv ▸ (hfe u hu).1
  · have hden : t ∈ b'.denote I ↔ d.Admits t ∧ valuesAt I x1 x2 t ∈ c.denote I := by
      rw [← (hholds t).1, ← (hagain t).1, ← hdecl']
      rfl
    rw [← hden]
    constructor
    · rintro ⟨x, hx, ht⟩
      exact hmem hx ▸ ht
    · exact fun ht => ⟨b', List.mem_filter.2 ⟨List.mem_singleton_self b', ht.2.satisfiable⟩, ht⟩

end Side

/-! ## Where no function has an inverse -/

section NoInverses

variable {env : Environment} {I : Interp} {τ : Nat → Int}

/-- Nothing collapses but a call without arguments, and that becomes nothing. -/
theorem savedArg_of_collapsible (henv : ∀ f, env.funcInverse f = "")
    {f : String} {as : List Exp} (has : argsReadable as = true) (h : Collapsible env f as)
    {saved : Exp} (hs : savedArg as = some saved) : False := by
  unfold Collapsible at h
  rw [henv] at h
  rcases canCollapseSelf_eq_true h with rfl | ⟨nested, -, hcalls⟩
  · cases hs
  · cases as with
    | nil => cases hs
    | cons a as =>
      obtain ⟨kind, c, j, x, rfl, -⟩ := hcalls 0 a rfl
      simp [argsReadable, Exp.readable, termsReadable, Term.readable, isName] at has

mutual
theorem Term.collapseKeeps_of_noInverses (henv : ∀ f, env.funcInverse f = "") :
    ∀ {t : Term}, t.readable = true → t.CollapseKeeps env I τ
  | .ufCall .., h => by
    simp only [Term.readable, Bool.and_eq_true] at h
    exact ⟨argsCollapseKeeps_of_noInverses henv h.2, fun hcan saved hs => (savedArg_of_collapsible henv h.2 hcan hs).elim⟩
  | .tupleVar .., _ | .symConst .., _ | .constVal _, _ | .tupleExp .., _ => trivial

theorem Exp.collapseKeeps_of_noInverses (henv : ∀ f, env.funcInverse f = "") :
    ∀ {e : Exp}, e.readable = true → e.CollapseKeeps env I τ
  | .mk _ _, h => termsCollapseKeeps_of_noInverses henv h

theorem argsCollapseKeeps_of_noInverses (henv : ∀ f, env.funcInverse f = "") :
    ∀ {es : List Exp}, argsReadable es = true → argsCollapseKeeps env I τ es
  | [], _ => trivial
  | _ :: _, h => by
    simp only [argsReadable, Bool.and_eq_true] at h
    exact ⟨Exp.collapseKeeps_of_noInverses henv h.1, argsCollapseKeeps_of_noInverses henv h.2⟩

theorem termsCollapseKeeps_of_noInverses (henv : ∀ f, env.funcInverse f = "") :
    ∀ {ts : List Term}, termsReadable ts = true → termsCollapseKeeps env I τ ts
  | [], _ => trivial
  | _ :: _, h => by
    simp only [termsReadable, Bool.and_eq_true] at h
    exact ⟨Term.collapseKeeps_of_noInverses henv h.1, termsCollapseKeeps_of_noInverses henv h.2⟩
end

variable (henv : ∀ f, env.funcInverse f = "")
include henv

theorem Conjunction.collapseKeeps_of_noInverses {c : Conjunction} (hc : c.readable = true) : c.CollapseKeeps env I τ := by
  obtain ⟨heqs, hineqs⟩ := readable_iff.1 hc
  exact fun e he => Exp.collapseKeeps_of_noInverses henv ((List.mem_append.1 he).elim (heqs e) (hineqs e))

/-- There, a side need only be about two variables that are no constants, with integers for its calls. -/
theorem Conjunction.instantiable_of_noInverses {c : Conjunction} {x1 x2 : Exp} (hc : c.readable = true) (ha : c.arity = 2)
    (hn : ∀ i, c.tupleDecl.elemIsConst i = false) (hv : c.VarsIn (· < 2)) (hf : c.Fits I.cod Scalar Scalar AnyCall)
    (h1 : x1.readable = true) (h2 : x2.readable = true) : c.Instantiable env I x1 x2 := by
  have hread : ∀ p ∈ tupleSubMap [x1, x2], ∀ x, p.2 = some x → x.readable = true := by
    intro p hp x hx
    rcases List.mem_pair.1 hp with rfl | rfl
    · exact Option.some.inj hx ▸ h1
    · exact Option.some.inj hx ▸ h2
  refine ⟨⟨hc, ha, hn, hv⟩, hf, fun τ e he => ?_, fun τ b hb => ?_⟩
  · refine Exp.collapseKeeps_of_noInverses henv ?_
    obtain ⟨heqs, hineqs⟩ := readable_iff.1 (readable_substitute hc hread)
    rcases List.mem_append.1 he with he | he
    · exact heqs _ (List.mem_map_of_mem he)
    · exact hineqs _ (List.mem_map_of_mem he)
  · exact collapseKeeps_of_noInverses henv (readable_substituteInConstraints hc hread hb)

end NoInverses

/-! ## All instances -/

section Run

variable {env : Environment} {I : Interp} {d : TupleDecl} {d₀ : Option TupleDecl} {m : UFCallMap}

/-- A side of a rule that comes as one conjunction, which is fit for the expressions. -/
def Set.Instantiable (env : Environment) (I : Interp) (x1 x2 : Exp) (s : Set) : Prop :=
  ∃ c, s.copy env = .ok ⟨s.arity, [c]⟩ ∧ c.denote I = s.denote I ∧ c.Instantiable env I x1 x2

/-- A rule and two expressions for its variables, all fit for an instance. -/
structure InstantiableAt (env : Environment) (I : Interp) (p : UniQuantRule × Exp × Exp) : Prop where
  left : p.1.leftSide.Instantiable env I p.2.1 p.2.2
  right : p.1.rightSide.Instantiable env I p.2.1 p.2.2
  first : IsInteger I p.2.1
  second : IsInteger I p.2.2

/-- The copies of both sides that the visitor goes over. -/
def sidesAt (env : Environment) (d : TupleDecl) (p : UniQuantRule × Exp × Exp) : Except Failure (Set × Set) := do
  .ok (← (← p.1.leftSide.sideAt env p.2.1 p.2.2 d).copy env, ← (← p.1.rightSide.sideAt env p.2.1 p.2.2 d).copy env)

/-- The conjunctions of both sides. -/
def bothSides (p : Set × Set) : List Conjunction := p.1.conjunctions ++ p.2.conjunctions

/-- An instance is what is printed for the affine sets of the sides. -/
def PrintedFrom (env : Environment) (d₀ : Option TupleDecl) (sides : Set × Set) (it : String × String) : Prop :=
  Set.printedSide env ⟨sides.1.arity, affineUnion d₀ sides.1.conjunctions⟩ = .ok it.1 ∧
    Set.printedSide env ⟨sides.2.arity, affineUnion d₀ sides.2.conjunctions⟩ = .ok it.2

theorem sidesAt_eq_ok_iff {p : UniQuantRule × Exp × Exp} {l q : Set} : sidesAt env d p = .ok (l, q) ↔
    (∃ s, p.1.leftSide.sideAt env p.2.1 p.2.2 d = .ok s ∧ s.copy env = .ok l) ∧
      ∃ s, p.1.rightSide.sideAt env p.2.1 p.2.2 d = .ok s ∧ s.copy env = .ok q := by
  unfold sidesAt
  simp only [Outcome.bind_eq_ok, Except.ok.injEq, Prod.mk.injEq]
  constructor
  · rintro ⟨s, hs, l, hl, s', hs', q, hq, rfl, rfl⟩
    exact ⟨⟨s, hs, hl⟩, s', hs', hq⟩
  · rintro ⟨⟨s, hs, hl⟩, s', hs', hq⟩
    exact ⟨s, hs, l, hl, s', hs', q, hq, rfl, rfl⟩

/-- The sides of a rule as one conjunction each, which the expressions can be put into. -/
structure SubstitutableAt (env : Environment) (p : UniQuantRule × Exp × Exp) : Prop where
  left : ∃ c, p.1.leftSide.copy env = .ok ⟨p.1.leftSide.arity, [c]⟩ ∧ c.IsRuleSide
  right : ∃ c, p.1.rightSide.copy env = .ok ⟨p.1.rightSide.arity, [c]⟩ ∧ c.IsRuleSide
  first : p.2.1.readable = true
  second : p.2.2.readable = true

theorem InstantiableAt.substitutable {p : UniQuantRule × Exp × Exp} (hp : InstantiableAt env I p) : SubstitutableAt env p := by
  obtain ⟨⟨c, hcopy, -, hc⟩, ⟨c', hcopy', -, hc'⟩, h1, h2⟩ := hp
  exact ⟨⟨c, hcopy, hc.toIsRuleSide⟩, ⟨c', hcopy', hc'.toIsRuleSide⟩, h1.1, h2.1⟩

/-- Each side of an instance is at most one conjunction, as the clean-up makes them. -/
theorem SubstitutableAt.built {p : UniQuantRule × Exp × Exp} (hp : SubstitutableAt env p) {sides : Set × Set}
    (h : sidesAt env d p = .ok sides) :
    (sides.1.conjunctions.length ≤ 1 ∧ sides.2.conjunctions.length ≤ 1) ∧ ∀ b ∈ bothSides sides, b.Built := by
  obtain ⟨⟨s, hs, hl⟩, s', hs', hq⟩ := sidesAt_eq_ok_iff.1 h
  obtain ⟨⟨c, hcopy, hc⟩, ⟨c', hcopy', hc'⟩, h1, h2⟩ := hp
  obtain ⟨h₁, h₂⟩ := Set.built_sideAt hcopy hc.noConst hc.readable h1 h2 hs hl
  obtain ⟨h₁', h₂'⟩ := Set.built_sideAt hcopy' hc'.noConst hc'.readable h1 h2 hs' hq
  exact ⟨⟨h₁, h₁'⟩, List.forall_mem_append.2 ⟨h₂, h₂'⟩⟩

/-- The sides of an instance hold at the tuples at which the sides of the rule have the values of the expressions. -/
theorem mem_sidesAt {p : UniQuantRule × Exp × Exp} (hp : InstantiableAt env I p) {l q : Set}
    (h : sidesAt env d p = .ok (l, q)) :
    IntegersOutside I.cod (bothSides (l, q)) ∧
      ∀ t, (t ∈ l.denote I ↔ d.Admits t ∧ valuesAt I p.2.1 p.2.2 t ∈ p.1.leftSide.denote I) ∧
        (t ∈ q.denote I ↔ d.Admits t ∧ valuesAt I p.2.1 p.2.2 t ∈ p.1.rightSide.denote I) := by
  obtain ⟨⟨s, hs, hl⟩, s', hs', hq⟩ := sidesAt_eq_ok_iff.1 h
  obtain ⟨c, hcopy, hden, hc⟩ := hp.left
  obtain ⟨c', hcopy', hden', hc'⟩ := hp.right
  obtain ⟨h₃, h₄⟩ := mem_sideAt hcopy hc hp.first hp.second hs hl
  obtain ⟨h₃', h₄'⟩ := mem_sideAt hcopy' hc' hp.first hp.second hs' hq
  refine ⟨?_, fun t => ⟨?_, ?_⟩⟩
  · unfold IntegersOutside bothSides
    rw [List.flatMap_append]
    exact List.forall_mem_append.2 ⟨h₃, h₃'⟩
  · rw [← hden]
    exact h₄ t
  · rw [← hden']
    exact h₄' t

/-- One instance, and the map after it. -/
theorem instantiate_sides (hm : m.Wf) {p : UniQuantRule × Exp × Exp} (hp : SubstitutableAt env p) {m' : UFCallMap}
    {it : String × String} (h : instantiate env p.1 p.2.1 p.2.2 m d = .ok (it, m')) :
    ∃ sides, sidesAt env d p = .ok sides ∧ PrintedFrom env m.tupleDecl sides it ∧
      m' = ((bothSides sides).flatMap Conjunction.terms).foldl UFCallMap.record m ∧
      ∀ u ∈ (bothSides sides).flatMap Conjunction.terms, UFCallMap.Recordable m.tupleDecl u := by
  obtain ⟨left, right, hleft, hright, a, m₁, b, ha, hb, h₁, h₂⟩ := instantiate_eq_ok_iff.1 h
  have hcopied : ∀ {s a : Set} {m m' : UFCallMap}, s.superAffineSet env m false = .ok (a, m') → ∃ s', s.copy env = .ok s' := by
    intro s a m m' h
    unfold Set.superAffineSet at h
    obtain ⟨s', hs', -⟩ := Outcome.bind_eq_ok.1 h
    exact ⟨s', hs'⟩
  obtain ⟨l, hl⟩ := hcopied ha
  obtain ⟨q, hq⟩ := hcopied hb
  have hsides : sidesAt env d p = .ok (l, q) := sidesAt_eq_ok_iff.2 ⟨⟨left, hleft, hl⟩, right, hright, hq⟩
  obtain ⟨-, hbuilt⟩ := hp.built hsides
  obtain ⟨hbl, hbq⟩ := List.forall_mem_append.1 hbuilt
  obtain ⟨rfl, rfl, hrec⟩ := Set.superAffineSet_eq hm hl hbl ha
  obtain ⟨hm₁, hd₁⟩ := UFCallMap.wf_foldl_record hm hrec
  obtain ⟨rfl, rfl, hrec'⟩ := Set.superAffineSet_eq hm₁ hq hbq hb
  rw [hd₁] at h₂ hrec'
  refine ⟨(l, q), hsides, ⟨h₁, h₂⟩, ?_, ?_⟩
  · rw [bothSides, List.flatMap_append, List.foldl_append]
  · rw [bothSides, List.flatMap_append]
    exact List.forall_mem_append.2 ⟨hrec, hrec'⟩

/-- A run over rules at expressions: the map has recorded the calls of all sides, and each instance is printed from the
sides at one of them. -/
theorem instances_sides : ∀ {ps : List (UniQuantRule × Exp × Exp)} {m M : UFCallMap} {its : List (String × String)},
    m.Wf → (∀ p ∈ ps, SubstitutableAt env p) → instances env d ps m = .ok (its, M) →
    ∃ sides, ps.mapM (sidesAt env d) = .ok sides ∧
      M = ((sides.flatMap bothSides).flatMap Conjunction.terms).foldl UFCallMap.record m ∧
      (∀ u ∈ (sides.flatMap bothSides).flatMap Conjunction.terms, UFCallMap.Recordable m.tupleDecl u) ∧
      List.Forall₂ (fun p it => ∃ s ∈ sides, sidesAt env d p = .ok s ∧ PrintedFrom env m.tupleDecl s it) ps its
  | [], _, _, _, _, _, h => by
    cases h
    exact ⟨[], rfl, rfl, by simp, .nil⟩
  | p :: ps, m, M, its, hm, hps, h => by
    obtain ⟨hp, hps⟩ := List.forall_mem_cons.1 hps
    obtain ⟨⟨it, m₁⟩, hinst, h⟩ := Outcome.bind_eq_ok.1 h
    obtain ⟨⟨its', M'⟩, hrest, h⟩ := Outcome.bind_eq_ok.1 h
    obtain ⟨rfl, rfl⟩ := Prod.mk.inj (Except.ok.inj h)
    obtain ⟨s, hs, hprinted, rfl, hrec⟩ := instantiate_sides hm hp hinst
    obtain ⟨hm₁, hd₁⟩ := UFCallMap.wf_foldl_record hm hrec
    obtain ⟨sides, hsides, hM, hrecs, hits⟩ := instances_sides hm₁ hps hrest
    rw [hd₁] at hrecs hits
    refine ⟨s :: sides, ?_, ?_, ?_, ?_⟩
    · rw [List.mapM_cons, hs, hsides]
      rfl
    · rw [hM, List.flatMap_cons, List.flatMap_append, List.foldl_append]
    · rw [List.flatMap_cons, List.flatMap_append]
      exact List.forall_mem_append.2 ⟨hrec, hrecs⟩
    · refine .cons ⟨s, List.mem_cons_self, hs, hprinted⟩ (hits.imp fun p' it h => ?_)
      obtain ⟨s', hs', hsides', hprinted'⟩ := h
      exact ⟨s', List.mem_cons_of_mem _ hs', hsides', hprinted'⟩

theorem ruleInstantiation_sides {instExps : List Exp} {useRule : Option (List Bool)} {insts : Finset (String × String)}
    {M : UFCallMap} (hm : m.Wf) (hp : ∀ p ∈ rulesAtPairs env.uniQuantRules instExps useRule, SubstitutableAt env p)
    (h : ruleInstantiation env instExps d useRule m = .ok (insts, M)) :
    ∃ sides, (rulesAtPairs env.uniQuantRules instExps useRule).mapM (sidesAt env d) = .ok sides ∧
      M = ((sides.flatMap bothSides).flatMap Conjunction.terms).foldl UFCallMap.record m ∧
      (∀ u ∈ (sides.flatMap bothSides).flatMap Conjunction.terms, UFCallMap.Recordable m.tupleDecl u) ∧
      (∀ it ∈ insts, ∃ p ∈ rulesAtPairs env.uniQuantRules instExps useRule, ∃ s ∈ sides, sidesAt env d p = .ok s ∧
        PrintedFrom env m.tupleDecl s it) ∧
      ∀ p ∈ rulesAtPairs env.uniQuantRules instExps useRule, ∃ it ∈ insts, ∃ s ∈ sides, sidesAt env d p = .ok s ∧
        PrintedFrom env m.tupleDecl s it := by
  obtain ⟨-, hins⟩ := ruleInstantiation_eq_ok_iff.1 h
  obtain ⟨its, hits, hset⟩ := insertInstances_eq_ok_iff.1 hins
  obtain ⟨sides, hsides, hM, hrec, hmade⟩ := instances_sides hm hp hits
  have hset : insts = ∅ ∪ its.toFinset := hset
  have hmem : ∀ {it}, it ∈ insts ↔ it ∈ its := by
    intro it
    rw [hset]
    simp
  refine ⟨sides, hsides, hM, hrec, fun it hit => ?_, fun p hpm => ?_⟩
  · exact Outcome.exists_of_mem_forall₂ hmade (hmem.1 hit)
  · obtain ⟨it, hit, h⟩ := Outcome.exists_of_mem_forall₂ hmade.flip hpm
    exact ⟨it, hmem.2 hit, h⟩

theorem mem_terms_sides {sides : List (Set × Set)} {s : Set × Set} (hs : s ∈ sides) :
    ∀ u ∈ (bothSides s).flatMap Conjunction.terms, u ∈ (sides.flatMap bothSides).flatMap Conjunction.terms := by
  intro u hu
  obtain ⟨b, hb, hu⟩ := List.mem_flatMap.1 hu
  exact List.mem_flatMap.2 ⟨b, List.mem_flatMap.2 ⟨s, hs, hb⟩, hu⟩

theorem integers_sides {ps : List (UniQuantRule × Exp × Exp)} {sides : List (Set × Set)}
    (hp : ∀ p ∈ ps, InstantiableAt env I p) (h : ps.mapM (sidesAt env d) = .ok sides) :
    IntegersOutside I.cod (sides.flatMap bothSides) := by
  intro u hu
  obtain ⟨b, hb, hu⟩ := List.mem_flatMap.1 hu
  obtain ⟨s, hs, hb⟩ := List.mem_flatMap.1 hb
  obtain ⟨p, hpm, hps⟩ := Outcome.exists_of_mem_forall₂ (Outcome.forall₂_of_mapM h) hs
  exact (mem_sidesAt (hp p hpm) hps).1 u (List.mem_flatMap.2 ⟨b, hb, hu⟩)

/-- With the values of the calls for the symbols, the affine sides hold where the sides of the rule hold at the values of
the expressions. -/
theorem mem_affineSides {M : UFCallMap} (hM : M.Wf) (hd : M.tupleDecl = d₀) (hi : M.Integers I.cod)
    {p : UniQuantRule × Exp × Exp} (hp : InstantiableAt env I p) {sides : Set × Set} (h : sidesAt env d p = .ok sides)
    (hu : ∀ u ∈ (bothSides sides).flatMap Conjunction.terms, Decoded M u) (t : List Int) :
    (t ∈ denoteUnion (I.withCalls M (valuation t)) (affineUnion d₀ sides.1.conjunctions) ↔
        d.Admits t ∧ valuesAt I p.2.1 p.2.2 t ∈ p.1.leftSide.denote I) ∧
      (t ∈ denoteUnion (I.withCalls M (valuation t)) (affineUnion d₀ sides.2.conjunctions) ↔
        d.Admits t ∧ valuesAt I p.2.1 p.2.2 t ∈ p.1.rightSide.denote I) := by
  obtain ⟨l, q⟩ := sides
  obtain ⟨⟨hl, hq⟩, -⟩ := hp.substitutable.built h
  obtain ⟨-, hmem⟩ := mem_sidesAt hp h
  rw [bothSides, List.flatMap_append] at hu
  obtain ⟨hul, huq⟩ := List.forall_mem_append.1 hu
  subst hd
  exact ⟨(mem_affineUnion hM hi hl hul).trans (hmem t).1, (mem_affineUnion hM hi hq huq).trans (hmem t).2⟩

end Run

/-! ## A rule that a function rises -/

end IEGen
