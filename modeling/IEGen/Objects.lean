import IEGen.Copies
import IEGen.Restored

/-!
# Comparing objects

`TupleExpTerm::operator<` compares the addresses of the elements of two tuples of expressions. So an object is here a
value with these addresses, and a clone is the value at other addresses.

* The comparisons are strict weak orders on objects; those of sets and relations compare fresh copies, so they are orders
  where the copies hold no such address.
* A clone is tied with its original iff it holds no address; a copy of a clean union, iff the copy has no placeholder.
* Tied objects have one value, where no tuple of expressions inside an argument has a coefficient, which is not printed;
  sets and relations that compare equal have the same tuples where copying loses none.
-/

namespace IEGen

open SortedList (Tied sizeLexLt thenLt StrictWeak)

/-! ## Objects -/

/-- `mSize` of a tuple of expressions. -/
def Term.elemCount : Term → Nat
  | .tupleExp _ es => es.length
  | _ => 0

/-- A `Term` object, with the addresses in `mExps`. -/
structure TermObject where
  term : Term
  elems : List Nat
  length_elems : elems.length = term.elemCount

/-- `Term::operator<` and its overrides. -/
def TermObject.lt (a b : TermObject) : Bool :=
  match a.term, b.term with
  | .tupleExp .., .tupleExp .. => sizeLexLt (fun p q => decide (p < q)) a.elems b.elems
  | t, u => t.lt u

/-- An `Exp` object. -/
structure ExpObject where
  expType : ExpType
  terms : List TermObject

/-- `Exp::operator<` -/
def ExpObject.lt (a b : ExpObject) : Bool := sizeLexLt TermObject.lt a.terms b.terms

/-- A `Conjunction` object. -/
structure ConjunctionObject where
  equalities : List ExpObject
  inequalities : List ExpObject
  tupleDecl : TupleDecl
  inArity : Nat

/-- `Conjunction::operator<` -/
def ConjunctionObject.lt (a b : ConjunctionObject) : Bool :=
  if a.tupleDecl.lt b.tupleDecl then true
  else if b.tupleDecl.lt a.tupleDecl then false
  else if a.equalities.length < b.equalities.length then true
  else if b.equalities.length < a.equalities.length then false
  else if a.inequalities.length < b.inequalities.length then true
  else if b.inequalities.length < a.inequalities.length then false
  else if SortedList.lexLt ExpObject.lt a.equalities b.equalities then true
  else if SortedList.lexLt ExpObject.lt b.equalities a.equalities then false
  else SortedList.lexLt ExpObject.lt a.inequalities b.inequalities

def ExpObject.value (e : ExpObject) : Exp := .mk e.expType (e.terms.map TermObject.term)

def ConjunctionObject.value (c : ConjunctionObject) : Conjunction :=
  ⟨c.equalities.map ExpObject.value, c.inequalities.map ExpObject.value, c.tupleDecl, c.inArity⟩

/-! ## The comparisons are orders -/

theorem TermObject.lt_of_not_tuple {a b : TermObject} (h : a.term.isTupleExp = false ∨ b.term.isTupleExp = false) :
    a.lt b = a.term.lt b.term := by
  obtain ⟨t, es, ht⟩ := a
  obtain ⟨u, ds, hu⟩ := b
  cases t <;> cases u <;> first | rfl | simp [Term.isTupleExp] at h

theorem TermObject.elems_eq_nil {a : TermObject} (h : a.term.isTupleExp = false) : a.elems = [] := by
  obtain ⟨t, es, ht⟩ := a
  cases t <;> first | exact List.length_eq_zero_iff.1 ht | cases h

/-- Objects compare by their terms, and tuples of one size by the addresses of their elements. -/
theorem TermObject.lt_eq (a b : TermObject) : a.lt b = thenLt (fun a b : TermObject => a.term.lt b.term)
    (fun a b => sizeLexLt (fun p q => decide (p < q)) a.elems b.elems) a b := by
  by_cases h : a.term.isTupleExp = false ∨ b.term.isTupleExp = false
  · rw [lt_of_not_tuple h]
    cases h₁ : a.term.lt b.term with
    | true => simp [thenLt, h₁]
    | false =>
      cases h₂ : b.term.lt a.term with
      | true => simp [thenLt, h₁, h₂]
      | false =>
        -- terms that are tied are of one kind, so neither is a tuple
        have hboth : a.term.isTupleExp = false ∧ b.term.isTupleExp = false := by
          obtain ⟨t, es, ht⟩ := a
          obtain ⟨u, ds, hu⟩ := b
          cases t <;> cases u <;> simp [Term.isTupleExp, Term.lt, Term.typeRank] at h h₁ h₂ ⊢
        simp only [thenLt, h₁, h₂, Bool.false_eq_true, if_false, elems_eq_nil hboth.1, elems_eq_nil hboth.2]
        rfl
  · obtain ⟨t, es, ht⟩ := a
    obtain ⟨u, ds, hu⟩ := b
    cases t <;> cases u <;> simp only [Term.isTupleExp, Bool.true_eq_false, or_self, or_true, true_or, not_true] at h
    case tupleExp.tupleExp c es' c' ds' =>
      have hes : es.length = es'.length := ht
      have hds : ds.length = ds'.length := hu
      unfold thenLt sizeLexLt
      simp only [TermObject.lt, Term.lt, sizeLexLt, ← hes, ← hds, decide_eq_true_eq]
      split_ifs <;> rfl

/-- Term objects are tied iff their terms are and their elements are the same objects. -/
theorem byPlace_term : SortedList.ByPlace TermObject.lt Term.lt TermObject.term TermObject.elems where
  tied {a b} h := by
    have h' : Tied (thenLt (fun a b : TermObject => a.term.lt b.term)
        (fun a b => sizeLexLt (fun p q => decide (p < q)) a.elems b.elems)) a b := by
      unfold Tied
      rw [← TermObject.lt_eq, ← TermObject.lt_eq]
      exact h
    obtain ⟨ht, hp⟩ := SortedList.tied_thenLt.1 h'
    refine ⟨ht, ?_⟩
    have hall : List.Forall₂ (Tied fun p q : Nat => decide (p < q)) a.elems b.elems := SortedList.tied_sizeLexLt.1 hp
    refine List.forall₂_eq_eq_eq ▸ hall.imp fun p q hpq => ?_
    have h₁ : ¬ p < q := by simpa using hpq.1
    have h₂ : ¬ q < p := by simpa using hpq.2
    omega
  lt_eq {a b} ha hb := by
    rw [TermObject.lt_eq]
    simp only [thenLt, ha, hb]
    cases a.term.lt b.term <;> cases b.term.lt a.term <;> simp [sizeLexLt, SortedList.lexLt]
  places_eq_nil {a b} hv ha := by
    rw [← List.length_eq_zero_iff, b.length_elems, ← hv, ← a.length_elems, ha, List.length_nil]

/-- The addresses in an expression. -/
def ExpObject.elems (e : ExpObject) : List Nat := e.terms.flatMap TermObject.elems

theorem byPlace_exp : SortedList.ByPlace ExpObject.lt Exp.lt ExpObject.value ExpObject.elems where
  tied {a b} h := byPlace_term.sizeLexLt.tied (a := a.terms) (b := b.terms) h
  lt_eq {a b} ha hb := byPlace_term.sizeLexLt.lt_eq (a := a.terms) (b := b.terms) ha hb
  places_eq_nil {a b} hv ha := by
    have hterms : a.terms.map TermObject.term = b.terms.map TermObject.term := congrArg Exp.terms hv
    exact byPlace_term.flatMap_eq_nil hterms ha

/-- The addresses in a conjunction. -/
def ConjunctionObject.elems (c : ConjunctionObject) : List Nat :=
  c.equalities.flatMap ExpObject.elems ++ c.inequalities.flatMap ExpObject.elems

/-- The comparison of conjunctions, one part after the other. -/
theorem ConjunctionObject.lt_parts (a b : ConjunctionObject) : a.lt b =
    thenLt (fun a b : ConjunctionObject => a.tupleDecl.lt b.tupleDecl)
      (thenLt (fun a b => decide (a.equalities.length < b.equalities.length))
        (thenLt (fun a b => decide (a.inequalities.length < b.inequalities.length))
          (thenLt (fun a b => sizeLexLt ExpObject.lt a.equalities b.equalities)
            (fun a b => sizeLexLt ExpObject.lt a.inequalities b.inequalities)))) a b := by
  unfold ConjunctionObject.lt thenLt sizeLexLt
  simp only [decide_eq_true_eq]
  split_ifs <;> rfl

theorem strictWeak_termObjectLt : StrictWeak TermObject.lt := by
  have haddr : StrictWeak (fun p q : Nat => decide (p < q)) := StrictWeak.of_key (f := id) fun _ _ => rfl
  have h := (Term.strictWeak_lt.comap TermObject.term).thenLt (haddr.sizeLexLt.comap TermObject.elems)
  exact (funext₂ TermObject.lt_eq : TermObject.lt = _) ▸ h

theorem strictWeak_expObjectLt : StrictWeak ExpObject.lt := strictWeak_termObjectLt.sizeLexLt.comap _

theorem strictWeak_conjunctionObjectLt : StrictWeak ConjunctionObject.lt := by
  have hdecl : StrictWeak (fun a b : ConjunctionObject => a.tupleDecl.lt b.tupleDecl) :=
    strictWeak_elemLt.sizeLexLt.comap (fun c : ConjunctionObject => c.tupleDecl.elems)
  have hlen : ∀ f : ConjunctionObject → Nat, StrictWeak (fun a b : ConjunctionObject => decide (f a < f b)) :=
    fun f => StrictWeak.of_key (f := f) fun _ _ => rfl
  have heqs : StrictWeak (fun a b : ConjunctionObject => sizeLexLt ExpObject.lt a.equalities b.equalities) :=
    strictWeak_expObjectLt.sizeLexLt.comap _
  have hineqs : StrictWeak (fun a b : ConjunctionObject => sizeLexLt ExpObject.lt a.inequalities b.inequalities) :=
    strictWeak_expObjectLt.sizeLexLt.comap _
  have h := hdecl.thenLt ((hlen (fun c => c.equalities.length)).thenLt
    ((hlen (fun c => c.inequalities.length)).thenLt (heqs.thenLt hineqs)))
  exact (funext₂ ConjunctionObject.lt_parts : ConjunctionObject.lt = _) ▸ h

theorem byPlace_conjunction :
    SortedList.ByPlace ConjunctionObject.lt Conjunction.lt ConjunctionObject.value ConjunctionObject.elems where
  tied {a b} h := by
    unfold Tied at h
    rw [ConjunctionObject.lt_parts, ConjunctionObject.lt_parts] at h
    obtain ⟨hdecl, h⟩ := SortedList.tied_thenLt.1 h
    obtain ⟨hn, h⟩ := SortedList.tied_thenLt.1 h
    obtain ⟨hm, h⟩ := SortedList.tied_thenLt.1 h
    obtain ⟨heq, hineq⟩ := SortedList.tied_thenLt.1 h
    obtain ⟨heq, hp⟩ := byPlace_exp.sizeLexLt.tied heq
    obtain ⟨hineq, hq⟩ := byPlace_exp.sizeLexLt.tied hineq
    refine ⟨?_, by rw [ConjunctionObject.elems, hp, hq, ConjunctionObject.elems]⟩
    unfold Tied
    rw [Conjunction.lt_parts, Conjunction.lt_parts]
    have hlen : ∀ {f : ConjunctionObject → List ExpObject},
        Tied (fun a b => decide ((f a).length < (f b).length)) a b →
        Tied (fun a b => decide (((f a).map ExpObject.value).length < ((f b).map ExpObject.value).length)) a b := by
      intro f hf
      simpa only [List.length_map] using hf
    exact SortedList.tied_thenLt.2 ⟨hdecl, SortedList.tied_thenLt.2 ⟨hlen hn, SortedList.tied_thenLt.2
      ⟨hlen hm, SortedList.tied_thenLt.2 ⟨heq, hineq⟩⟩⟩⟩
  lt_eq {a b} ha hb := by
    unfold ConjunctionObject.elems at ha hb
    rw [List.append_eq_nil_iff] at ha hb
    have heq := fun {a b : ConjunctionObject} (h : a.equalities.flatMap ExpObject.elems = [])
      (h' : b.equalities.flatMap ExpObject.elems = []) => byPlace_exp.lexLt_eq h h'
    have hineq := byPlace_exp.lexLt_eq ha.2 hb.2
    unfold ConjunctionObject.lt Conjunction.lt
    simp only [ConjunctionObject.value, List.length_map, heq ha.1 hb.1, heq hb.1 ha.1, hineq]
    rfl
  places_eq_nil {a b} hv ha := by
    unfold ConjunctionObject.elems at ha ⊢
    rw [List.append_eq_nil_iff] at ha ⊢
    exact ⟨byPlace_exp.flatMap_eq_nil (congrArg Conjunction.equalities hv) ha.1,
      byPlace_exp.flatMap_eq_nil (congrArg Conjunction.inequalities hv) ha.2⟩

/-! ## Objects that compare equal -/

/-- Names can be read back in the arguments of a call, and tuples of expressions in them have the coefficient one. -/
def Term.argumentsLegible : Term → Bool
  | .ufCall _ _ as _ => argsLegible as
  | _ => true

def ExpObject.ArgumentsLegible (e : ExpObject) : Prop := ∀ t ∈ e.terms, t.term.argumentsLegible = true

def ConjunctionObject.ArgumentsLegible (c : ConjunctionObject) : Prop :=
  (∀ e ∈ c.equalities, e.ArgumentsLegible) ∧ ∀ e ∈ c.inequalities, e.ArgumentsLegible

section Equal

variable {I : Interp} {τ : Nat → Int}

theorem TermObject.comparable {a : TermObject} (h : a.elems = []) (hl : a.term.argumentsLegible = true) :
    a.term.comparable = true := by
  obtain ⟨t, es, ht⟩ := a
  cases t with
  | ufCall c f as i => exact hl
  | tupleExp c es' =>
    have hlen : es.length = es'.length := ht
    rw [show es = [] from h, List.length_nil] at hlen
    exact List.isEmpty_iff_length_eq_zero.2 hlen.symm
  | _ => rfl

theorem ExpObject.comparable {a : ExpObject} (h : a.elems = []) (hl : a.ArgumentsLegible) :
    a.value.comparable = true := by
  refine List.all_eq_true.2 fun t ht => ?_
  obtain ⟨o, ho, rfl⟩ := List.mem_map.1 ht
  exact TermObject.comparable (List.flatMap_eq_nil_iff.1 h o ho) (hl o ho)

theorem ConjunctionObject.comparable {a : ConjunctionObject} (h : a.elems = []) (hl : a.ArgumentsLegible) :
    a.value.comparable = true := by
  unfold ConjunctionObject.elems at h
  rw [List.append_eq_nil_iff] at h
  refine Conjunction.comparable_iff.2 ⟨fun e he => ?_, fun e he => ?_⟩
  · obtain ⟨o, ho, rfl⟩ := List.mem_map.1 he
    exact ExpObject.comparable (List.flatMap_eq_nil_iff.1 h.1 o ho) (hl.1 o ho)
  · obtain ⟨o, ho, rfl⟩ := List.mem_map.1 he
    exact ExpObject.comparable (List.flatMap_eq_nil_iff.1 h.2 o ho) (hl.2 o ho)

theorem TermObject.val_of_tied {a b : TermObject} (hown : a = b ∨ a.elems.Disjoint b.elems)
    (ha : a.term.argumentsLegible = true) (hb : b.term.argumentsLegible = true) (h : Tied TermObject.lt a b) :
    a.term.val I τ = b.term.val I τ := by
  rcases hown with rfl | hd
  · rfl
  · obtain ⟨⟨hna, hnb⟩, htied⟩ := byPlace_term.nil_of_disjoint hd h
    exact Term.val_of_tied (comparable hna ha) (comparable hnb hb) htied

theorem ExpObject.val_of_tied {a b : ExpObject} (hown : a = b ∨ a.elems.Disjoint b.elems) (ha : a.ArgumentsLegible)
    (hb : b.ArgumentsLegible) (h : Tied ExpObject.lt a b) : a.value.val I τ = b.value.val I τ := by
  rcases hown with rfl | hd
  · rfl
  · obtain ⟨⟨hna, hnb⟩, htied⟩ := byPlace_exp.nil_of_disjoint hd h
    exact Exp.val_of_tied (comparable hna ha) (comparable hnb hb) htied

theorem ConjunctionObject.denote_of_tied {a b : ConjunctionObject} (hown : a = b ∨ a.elems.Disjoint b.elems)
    (ha : a.ArgumentsLegible) (hb : b.ArgumentsLegible) (h : Tied ConjunctionObject.lt a b) :
    a.value.denote I = b.value.denote I := by
  rcases hown with rfl | hd
  · rfl
  · obtain ⟨⟨hna, hnb⟩, htied⟩ := byPlace_conjunction.nil_of_disjoint hd h
    have hca := comparable hna ha
    have hcb := comparable hnb hb
    ext t
    exact ⟨Conjunction.denote_of_tied hca hcb htied, Conjunction.denote_of_tied hcb hca htied.symm⟩

end Equal

/-! ## Sets and relations -/

/-- The conjunction objects that a comparison makes of a union. -/
def CopiedTo (env : Environment) (cs : List Conjunction) (as : List ConjunctionObject) : Prop :=
  copyConjunctions env cs = .ok (as.map ConjunctionObject.value)

/-- The copies succeed, and no tuple of expressions in them has an element. -/
def Placeless (env : Environment) (cs : List Conjunction) : Prop :=
  ∃ as, CopiedTo env cs as ∧ as.flatMap ConjunctionObject.elems = []

/-- Values that all have objects without addresses have a list of such objects. -/
theorem exists_objects {α β : Type*} (value : α → β) (elems : α → List Nat) {xs : List β}
    (h : ∀ x ∈ xs, ∃ o, value o = x ∧ elems o = []) : ∃ os : List α, os.map value = xs ∧ os.flatMap elems = [] := by
  induction xs with
  | nil => exact ⟨[], rfl, rfl⟩
  | cons x xs ih =>
    obtain ⟨⟨o, rfl, ho⟩, hxs⟩ := List.forall_mem_cons.1 h
    obtain ⟨os, rfl, hos⟩ := ih hxs
    exact ⟨o :: os, rfl, by rw [List.flatMap_cons, ho, hos, List.nil_append]⟩

theorem ExpObject.exists_of_readable {e : Exp} (h : e.readable = true) : ∃ o : ExpObject, o.value = e ∧ o.elems = [] := by
  obtain ⟨ts, hts, helems⟩ := exists_objects TermObject.term TermObject.elems fun t (ht : t ∈ e.terms) => by
      have hlen : ([] : List Nat).length = t.elemCount := by
        have hreadable := Exp.readable_iff.1 h t ht
        cases t <;> first | rfl | cases hreadable
      exact ⟨⟨t, [], hlen⟩, rfl, rfl⟩
  refine ⟨⟨e.expType, ts⟩, ?_, helems⟩
  rw [value, hts]
  cases e
  rfl

/-- A conjunction without tuples of expressions has an object without addresses. -/
theorem ConjunctionObject.exists_of_readable {c : Conjunction} (h : c.readable = true) :
    ∃ o : ConjunctionObject, o.value = c ∧ o.elems = [] := by
  obtain ⟨heqs, hineqs⟩ := Conjunction.readable_iff.1 h
  obtain ⟨es, hes, helems⟩ := exists_objects ExpObject.value ExpObject.elems fun e he => ExpObject.exists_of_readable (heqs e he)
  obtain ⟨fs, hfs, helems'⟩ := exists_objects ExpObject.value ExpObject.elems fun e he => ExpObject.exists_of_readable (hineqs e he)
  refine ⟨⟨es, fs, c.tupleDecl, c.inArity⟩, ?_, ?_⟩
  · rw [value, hes, hfs]
  · rw [elems, helems, helems', List.append_nil]

/-- A union of which the copy has no tuples of expressions compares without addresses. -/
theorem placeless_of_copy {env : Environment} {cs ds : List Conjunction} (h : copyConjunctions env cs = .ok ds)
    (hd : ∀ d ∈ ds, d.readable = true) : Placeless env cs := by
  obtain ⟨as, rfl, helems⟩ := exists_objects ConjunctionObject.value ConjunctionObject.elems fun d hm =>
    ConjunctionObject.exists_of_readable (hd d hm)
  exact ⟨as, h, helems⟩

theorem byPlace_union : SortedList.ByPlace (sizeLexLt ConjunctionObject.lt) conjunctionsLt
    (List.map ConjunctionObject.value) (List.flatMap ConjunctionObject.elems) :=
  byPlace_conjunction.sizeLexLt

/-- `Set::operator<` where the outcome does not depend on addresses. -/
def Set.placelessLt (env : Environment) (s t : {s : Set // Placeless env s.conjunctions}) : Bool :=
  s.1.lt env t.1 == .ok true

/-- `Relation::operator<` where the outcome does not depend on addresses. -/
def Relation.placelessLt (env : Environment) (r q : {r : Relation // Placeless env r.conjunctions}) : Bool :=
  r.1.lt env q.1 == .ok true

section Sets

variable {env : Environment}

theorem Set.strictWeak_placelessLt : StrictWeak (Set.placelessLt env) := by
  have harity : StrictWeak (fun s t : {s : Set // Placeless env s.conjunctions} => decide (s.1.arity < t.1.arity)) :=
    StrictWeak.of_key (f := fun s => s.1.arity) fun _ _ => rfl
  have hconjs : StrictWeak (fun s t : {s : Set // Placeless env s.conjunctions} =>
      conjunctionsLt (s.2.choose.map ConjunctionObject.value) (t.2.choose.map ConjunctionObject.value)) :=
    strictWeak_conjunctionLt.sizeLexLt.comap
      fun s : {s : Set // Placeless env s.conjunctions} => s.2.choose.map ConjunctionObject.value
  refine (funext₂ fun s t => ?_ : _ = Set.placelessLt env) ▸ harity.thenLt hconjs
  have hs : copyConjunctions env s.1.conjunctions = .ok _ := s.2.choose_spec.1
  have ht : copyConjunctions env t.1.conjunctions = .ok _ := t.2.choose_spec.1
  have hrun : ∀ x : Bool, x = ((Except.ok x : Except Failure Bool) == .ok true) := by decide
  unfold thenLt placelessLt Set.lt
  simp only [hs, ht, decide_eq_true_eq]
  split_ifs
  · rfl
  · rfl
  · exact hrun _

theorem Relation.strictWeak_placelessLt : StrictWeak (Relation.placelessLt env) := by
  have hin : StrictWeak (fun r q : {r : Relation // Placeless env r.conjunctions} => decide (r.1.inArity < q.1.inArity)) :=
    StrictWeak.of_key (f := fun r => r.1.inArity) fun _ _ => rfl
  have hout : StrictWeak (fun r q : {r : Relation // Placeless env r.conjunctions} =>
      decide (r.1.outArity < q.1.outArity)) := StrictWeak.of_key (f := fun r => r.1.outArity) fun _ _ => rfl
  have hconjs : StrictWeak (fun r q : {r : Relation // Placeless env r.conjunctions} =>
      conjunctionsLt (r.2.choose.map ConjunctionObject.value) (q.2.choose.map ConjunctionObject.value)) :=
    strictWeak_conjunctionLt.sizeLexLt.comap
      fun r : {r : Relation // Placeless env r.conjunctions} => r.2.choose.map ConjunctionObject.value
  refine (funext₂ fun r q => ?_ : _ = Relation.placelessLt env) ▸ hin.thenLt (hout.thenLt hconjs)
  have hr : copyConjunctions env r.1.conjunctions = .ok _ := r.2.choose_spec.1
  have hq : copyConjunctions env q.1.conjunctions = .ok _ := q.2.choose_spec.1
  have hrun : ∀ x : Bool, x = ((Except.ok x : Except Failure Bool) == .ok true) := by decide
  unfold thenLt placelessLt Relation.lt
  simp only [hr, hq, decide_eq_true_eq]
  split_ifs
  · rfl
  · rfl
  · rfl
  · rfl
  · exact hrun _

theorem length_kept_le {α : Type*} {has : α → Bool} (cs : List α) : (kept has cs).length ≤ cs.length := by
  have h : (replaced has cs ++ kept has cs).length = cs.length := congrArg List.length (replaced_append_kept has cs)
  rw [List.length_append] at h
  omega

/-- The merged conjunctions are tied with those of a copy of theirs iff the first of several has a constraint. -/
theorem tied_copied_copied (cs : List Conjunction) : Tied conjunctionsLt (copied cs) (copied (copied cs)) ↔
    (∀ c ∈ (copied cs).head?, c.hasConstraints = true) ∨ (copied cs).length ≤ 1 := by
  have hsorted := sorted_copied cs
  constructor
  · intro h
    have hlen : (copied cs).length = (copied (copied cs)).length := (SortedList.tied_sizeLexLt.1 h).length_eq
    have hbuild := SortedList.length_build_le Conjunction.lt (kept Conjunction.hasConstraints (copied cs))
    rw [copied.eq_1 (copied cs)] at hlen
    generalize copied cs = ds at hlen hbuild
    rcases ds with _ | ⟨c, _ | ⟨d, ds⟩⟩
    · simp
    · simp
    · refine .inl fun u hu => ?_
      obtain rfl : c = u := by simpa using hu
      by_contra hn
      have hk : kept Conjunction.hasConstraints (c :: d :: ds) = kept Conjunction.hasConstraints (d :: ds) := if_neg hn
      have hle : (kept Conjunction.hasConstraints (d :: ds)).length ≤ (d :: ds).length := length_kept_le (d :: ds)
      rw [hk] at hbuild hlen
      simp only [List.length_cons] at hlen hle hbuild
      omega
  · intro h
    rw [copied.eq_1 (copied cs), kept_eq_self h, SortedList.build_eq_self strictWeak_conjunctionLt hsorted]
    exact strictWeak_conjunctionLt.sizeLexLt.tied_refl _

theorem Set.eq_ok_iff {s t : Set} {cs ds : List Conjunction} (hs : copyConjunctions env s.conjunctions = .ok cs)
    (ht : copyConjunctions env t.conjunctions = .ok ds) (ha : s.arity = t.arity) :
    s.eq env t = .ok true ↔ Tied conjunctionsLt cs ds := by
  unfold Set.eq Tied
  rw [Outcome.neither_eq_ok, Set.lt_eq hs ht ha, Set.lt_eq ht hs ha.symm, Except.ok.injEq, Except.ok.injEq]

theorem Relation.eq_ok_iff {r q : Relation} {cs ds : List Conjunction}
    (hr : copyConjunctions env r.conjunctions = .ok cs) (hq : copyConjunctions env q.conjunctions = .ok ds)
    (hi : r.inArity = q.inArity) (ho : r.outArity = q.outArity) : r.eq env q = .ok true ↔ Tied conjunctionsLt cs ds := by
  unfold Relation.eq Tied
  rw [Outcome.neither_eq_ok, Relation.lt_eq hr hq hi ho, Relation.lt_eq hq hr hi.symm ho.symm, Except.ok.injEq,
    Except.ok.injEq]

/-- A set with clean conjunctions is equal to its copy iff the first of several conjunctions of the copy has a
constraint. -/
theorem Set.eq_copy_iff {s s' : Set} (hc : ∀ c ∈ s.conjunctions, c.Clean env ∧ c.satisfiable = true)
    (h : s.copy env = .ok s') : s.eq env s' = .ok true ↔
      (∀ c ∈ s'.conjunctions.head?, c.hasConstraints = true) ∨ s'.conjunctions.length ≤ 1 := by
  rw [Set.copy_of_clean hc, Except.ok.injEq] at h
  subst h
  have hcopy : ∀ c ∈ copied s.conjunctions, c.Clean env ∧ c.satisfiable = true := fun c h => hc c (mem_of_mem_copied h)
  rw [← tied_copied_copied]
  exact Set.eq_ok_iff (copyConjunctions_of_clean hc) (copyConjunctions_of_clean hcopy) rfl

theorem Relation.eq_copy_iff {r r' : Relation} (hc : ∀ c ∈ r.conjunctions, c.Clean env ∧ c.satisfiable = true)
    (hw : r.wellFormed = true) (h : r.copy env = .ok r') : r.eq env r' = .ok true ↔
      (∀ c ∈ r'.conjunctions.head?, c.hasConstraints = true) ∨ r'.conjunctions.length ≤ 1 := by
  rw [Relation.copy_of_clean hc hw, Except.ok.injEq] at h
  subst h
  have hcopy : ∀ c ∈ copied r.conjunctions, c.Clean env ∧ c.satisfiable = true := fun c h => hc c (mem_of_mem_copied h)
  rw [← tied_copied_copied]
  exact Relation.eq_ok_iff (copyConjunctions_of_clean hc) (copyConjunctions_of_clean hcopy) rfl rfl

end Sets

/-! ## The comparisons as a whole -/

/-- Two objects are one, or they own different elements. -/
def Separate {α : Type*} (elems : α → List Nat) (a b : α) : Prop := a = b ∨ (elems a).Disjoint (elems b)

/-- The orders; when a clone is tied with its original; and when tied objects have one meaning. -/
theorem objects_compare (env : Environment) (I : Interp) (τ : Nat → Int) (a b : TermObject) (e f : ExpObject)
    (c d : ConjunctionObject) (s t : Set) (r q : Relation) :
    (StrictWeak TermObject.lt ∧ StrictWeak ExpObject.lt ∧ StrictWeak ConjunctionObject.lt ∧
      StrictWeak (Set.placelessLt env) ∧ StrictWeak (Relation.placelessLt env)) ∧
    ((a.term = b.term → a.elems.Disjoint b.elems → (Tied TermObject.lt a b ↔ a.elems = [])) ∧
      (e.value = f.value → e.elems.Disjoint f.elems → (Tied ExpObject.lt e f ↔ e.elems = [])) ∧
      (c.value = d.value → c.elems.Disjoint d.elems → (Tied ConjunctionObject.lt c d ↔ c.elems = [])) ∧
      (∀ as bs, CopiedTo env s.conjunctions as → CopiedTo env s.conjunctions bs →
        (as.flatMap ConjunctionObject.elems).Disjoint (bs.flatMap ConjunctionObject.elems) →
        (Tied (sizeLexLt ConjunctionObject.lt) as bs ↔ as.flatMap ConjunctionObject.elems = [])) ∧
      ((∀ c ∈ s.conjunctions, c.Clean env ∧ c.satisfiable = true) → ∀ s', s.copy env = .ok s' → (s.eq env s' = .ok true ↔
        (∀ c ∈ s'.conjunctions.head?, c.hasConstraints = true) ∨ s'.conjunctions.length ≤ 1)) ∧
      ((∀ c ∈ r.conjunctions, c.Clean env ∧ c.satisfiable = true) → r.wellFormed = true → ∀ r', r.copy env = .ok r' →
        (r.eq env r' = .ok true ↔
          (∀ c ∈ r'.conjunctions.head?, c.hasConstraints = true) ∨ r'.conjunctions.length ≤ 1))) ∧
    ((Separate TermObject.elems a b → a.term.argumentsLegible = true → b.term.argumentsLegible = true →
        Tied TermObject.lt a b → a.term.val I τ = b.term.val I τ) ∧
      (Separate ExpObject.elems e f → e.ArgumentsLegible → f.ArgumentsLegible → Tied ExpObject.lt e f →
        e.value.val I τ = f.value.val I τ) ∧
      (Separate ConjunctionObject.elems c d → c.ArgumentsLegible → d.ArgumentsLegible → Tied ConjunctionObject.lt c d →
        c.value.denote I = d.value.denote I) ∧
      ((∀ c ∈ s.conjunctions, c.Cleanable env I) → (∀ c ∈ t.conjunctions, c.Cleanable env I) →
        LosesNothingIn I s.conjunctions → LosesNothingIn I t.conjunctions → s.eq env t = .ok true →
        s.denote I = t.denote I) ∧
      ((∀ c ∈ r.conjunctions, c.Cleanable env I) → (∀ c ∈ q.conjunctions, c.Cleanable env I) →
        LosesNothingIn I r.conjunctions → LosesNothingIn I q.conjunctions → r.eq env q = .ok true →
        r.denote I = q.denote I)) := by
  refine ⟨⟨strictWeak_termObjectLt, strictWeak_expObjectLt, strictWeak_conjunctionObjectLt, Set.strictWeak_placelessLt,
    Relation.strictWeak_placelessLt⟩, ⟨?_, ?_, ?_, ?_, ?_, ?_⟩, TermObject.val_of_tied, ExpObject.val_of_tied,
    ConjunctionObject.denote_of_tied, ?_, ?_⟩
  · exact byPlace_term.tied_iff_of_disjoint Term.strictWeak_lt
  · exact byPlace_exp.tied_iff_of_disjoint strictWeak_expLt
  · exact byPlace_conjunction.tied_iff_of_disjoint strictWeak_conjunctionLt
  · intro as bs has hbs
    exact byPlace_union.tied_iff_of_disjoint strictWeak_conjunctionLt.sizeLexLt (Except.ok.inj (has.symm.trans hbs))
  · exact fun hc s' hs' => Set.eq_copy_iff hc hs'
  · exact fun hc hw r' hr' => Relation.eq_copy_iff hc hw hr'
  · intro hs ht hls hlt h
    have hs' := fun c hc => (hs c hc).cleansRight
    have ht' := fun c hc => (ht c hc).cleansRight
    obtain ⟨cs, hcs, -⟩ := copyConjunctions_denotes hs'
    obtain ⟨ds, hds, -⟩ := copyConjunctions_denotes ht'
    exact denoteUnion_of_copies_tied hs' ht' hcs hds hls hlt (Set.tied_of_eq hcs hds h).2
  · intro hr hq hlr hlq h
    have hr' := fun c hc => (hr c hc).cleansRight
    have hq' := fun c hc => (hq c hc).cleansRight
    obtain ⟨cs, hcs, -⟩ := copyConjunctions_denotes hr'
    obtain ⟨ds, hds, -⟩ := copyConjunctions_denotes hq'
    exact denoteUnion_of_copies_tied hr' hq' hcs hds hlr hlq (Relation.tied_of_eq hcs hds h).2

/-- `(a, b)`, at two addresses. -/
def tupleObject (p q : Nat) : TermObject :=
  ⟨.tupleExp 1 [.ofTerm (.symConst 1 "a"), .ofTerm (.symConst 1 "b")], [p, q], rfl⟩

/-- `f(k (a, b))` -/
def callObject (k : Int) : TermObject :=
  ⟨.ufCall 1 "f" [.ofTerm (.tupleExp k [.ofTerm (.symConst 1 "a"), .ofTerm (.symConst 1 "b")])] none, [], rfl⟩

/-- A tuple of expressions is never tied with its clone; and calls of one text differ in a coefficient that is not
printed. -/
theorem objects_compare_wrong : (∃ a b : TermObject, a.term = b.term ∧ a.elems.Disjoint b.elems ∧
    ¬ Tied TermObject.lt a b) ∧ ∃ a b : TermObject, a.elems.Disjoint b.elems ∧ Tied TermObject.lt a b ∧
      ∃ I τ, a.term.val I τ ≠ b.term.val I τ := by
  refine ⟨⟨tupleObject 0 1, tupleObject 2 3, rfl, by simp [tupleObject], by decide⟩, callObject 1, callObject 2,
    List.disjoint_nil_left _, by decide +kernel, ⟨fun _ => 1, fun _ x => x, fun _ => 2, fun _ => 2⟩, fun _ => 0, fun h => ?_⟩
  have h0 := congrFun h 0
  simp [callObject, Term.val, argsVal, Exp.val, Exp.ofTerm, Interp.callVal, Interp.argTuple] at h0

section Witness

/-- `{ [x] : n - f(x) = 0 && x - 5 >= 0 }` or with two variables, under any names. -/
private def calledConj (names : List String) (inArity : Nat) : Conjunction :=
  ⟨[.mk .equality [.symConst 1 "n", .ufCall (-1) "f" [.ofTerm (.tupleVar 1 0)] none]],
    [.mk .inequality [.tupleVar 1 0, .constVal (-5)]], ⟨names.map fun x => ⟨false, 0, x⟩⟩, inArity⟩

/-- `{ [x] : x + f(x) >= 0 }`, also with more variables. -/
private def raisedConj (names : List String) (inArity : Nat) : Conjunction :=
  ⟨[], [.mk .inequality [.tupleVar 1 0, .ufCall 1 "f" [.ofTerm (.tupleVar 1 0)] none]],
    ⟨names.map fun x => ⟨false, 0, x⟩⟩, inArity⟩

private def calledUnion (names : List String) (inArity : Nat) : List Conjunction :=
  [raisedConj names inArity, calledConj names inArity]

/-- `{ [x] : (a, b) = 0 }`, the tuple at two addresses. -/
private def tupleConjObject (p q : Nat) : ConjunctionObject :=
  ⟨[⟨.equality, [tupleObject p q]⟩], [], ⟨[⟨false, 0, "x"⟩]⟩, 0⟩

private theorem cleanable_calledUnion (names : List String) (k : Nat) : ∀ c ∈ calledUnion names k,
    c.Cleanable inverseEnv identityInterp := by
  have hplain : ∀ {n : Int} {P : String → Option Nat → List Exp → Prop}, P "f" none [.ofTerm (.tupleVar 1 0)] →
      (Term.ufCall n "f" [.ofTerm (.tupleVar 1 0)] none).AllCalls P := fun h => ⟨h, ⟨⟨trivial, trivial⟩, trivial⟩⟩
  have hused : ∀ n : Int, (Term.ufCall n "f" [.ofTerm (.tupleVar 1 0)] none).UsedAs identityInterp.cod false ∧
      (Term.ufCall n "f" [.ofTerm (.tupleVar 1 0)] none).Fits identityInterp.cod (fun _ => True) fun _ _ _ => True := by
    intro n
    refine ⟨⟨fun _ => rfl, fun _ => rfl⟩, ?_⟩
    simp [Term.Fits, argsFits, Exp.ofTerm, Exp.Fits, termsFits, Term.UsedAs]
  have hleaf : ∀ t : Term, t.isUFCall = false → t.UsedAs identityInterp.cod false ∧
      t.Fits identityInterp.cod (fun _ => True) fun _ _ _ => True := by
    intro t hcall
    cases t <;> first | exact ⟨rfl, trivial⟩ | cases hcall
  have hcalls : ∀ {P : String → Option Nat → List Exp → Prop}, P "f" none [.ofTerm (.tupleVar 1 0)] →
      ∀ c ∈ calledUnion names k, c.AllCalls P := by
    intro P h c hc e he
    simp only [calledUnion, List.mem_cons, List.not_mem_nil, or_false] at hc
    rcases hc with rfl | rfl
    · obtain rfl : e = _ := List.mem_singleton.1 he
      exact ⟨trivial, hplain h, trivial⟩
    · simp only [calledConj, List.cons_append, List.nil_append, List.mem_cons, List.not_mem_nil, or_false] at he
      rcases he with rfl | rfl
      · exact ⟨trivial, hplain h, trivial⟩
      · exact ⟨trivial, trivial, trivial⟩
  intro c hc
  have hnot : c.AllCalls fun f _ as => ¬ Collapsible inverseEnv f as := hcalls (fun h => by cases h) c hc
  refine ⟨?_, ?_, hcalls ⟨by simp, false, rfl⟩ c hc, fun τ e he => Exp.collapseKeeps_of_not (hnot e he)⟩
  · simp only [calledUnion, List.mem_cons, List.not_mem_nil, or_false] at hc
    rcases hc with rfl | rfl <;> rfl
  · intro e he
    refine ⟨false, trivial, fun t ht => ?_⟩
    simp only [calledUnion, List.mem_cons, List.not_mem_nil, or_false] at hc
    rcases hc with rfl | rfl
    · obtain rfl : e = _ := List.mem_singleton.1 he
      simp only [Exp.terms_mk, List.mem_cons, List.not_mem_nil, or_false] at ht
      rcases ht with rfl | rfl
      · exact hleaf _ rfl
      · exact hused _
    · simp only [calledConj, List.cons_append, List.nil_append, List.mem_cons, List.not_mem_nil, or_false] at he
      rcases he with rfl | rfl
      · simp only [Exp.terms_mk, List.mem_cons, List.not_mem_nil, or_false] at ht
        rcases ht with rfl | rfl
        · exact hleaf _ rfl
        · exact hused _
      · simp only [Exp.terms_mk, List.mem_cons, List.not_mem_nil, or_false] at ht
        rcases ht with rfl | rfl <;> exact hleaf _ rfl

/-- `f(0)`, the argument with no term or with the constant, which print the same. -/
private def zeroCallObject (zero : List Term) : TermObject := ⟨.ufCall 1 "f" [.mk .expression zero] none, [], rfl⟩

/-- `f(0) - 1` -/
private def zeroExpObject (k : ExpType) (zero : List Term) : ExpObject := ⟨k, [⟨.constVal (-1), [], rfl⟩, zeroCallObject zero]⟩

/-- `{ [x] : f(0) - 1 = 0 }` under any name. -/
private def zeroConjObject (x : String) (zero : List Term) : ConjunctionObject :=
  ⟨[zeroExpObject .equality zero], [], ⟨[⟨false, 0, x⟩]⟩, 0⟩

private theorem clean_calledUnion : (∀ c ∈ calledUnion ["x"] 0, c.Clean inverseEnv ∧ c.satisfiable = true) ∧
    ∀ c ∈ calledUnion ["x", "y"] 1, c.Clean inverseEnv ∧ c.satisfiable = true := by
  have hclean : ∀ {names : List String} {k : Nat}, IEGen.cleanUp inverseEnv (calledUnion names k) = .ok (calledUnion names k) →
      ∀ c ∈ calledUnion names k, c.Clean inverseEnv ∧ c.satisfiable = true := fun {names k} h => by
    exact (clean_of_cleanUp (fun c hc => (cleanable_calledUnion names k c hc).readable) h).1
  exact ⟨hclean rfl, hclean rfl⟩

/-- Clones of calls and of unions of called conjunctions are equal, those of tuples of expressions are not; and what
compares equal, written in another way or under other names, means the same. -/
theorem objects_compare_called :
    (Tied TermObject.lt (callObject 1) (callObject 1) ∧
      ¬ Tied ExpObject.lt ⟨.expression, [callObject 1, tupleObject 0 1]⟩ ⟨.expression, [callObject 1, tupleObject 2 3]⟩ ∧
      ¬ Tied ConjunctionObject.lt (tupleConjObject 0 1) (tupleConjObject 2 3) ∧
      (∃ as, CopiedTo inverseEnv (calledUnion ["x"] 0) as ∧ Tied (sizeLexLt ConjunctionObject.lt) as as) ∧
      (Set.mk 1 (calledUnion ["x"] 0)).eq inverseEnv ⟨1, calledUnion ["x"] 0⟩ = .ok true ∧
      (Relation.mk 1 1 (calledUnion ["x", "y"] 1)).eq inverseEnv ⟨1, 1, calledUnion ["x", "y"] 1⟩ = .ok true) ∧
    (zeroCallObject []).term.val identityInterp (fun _ => 0) = (zeroCallObject [.constVal 0]).term.val identityInterp (fun _ => 0) ∧
      (zeroExpObject .expression []).value.val identityInterp (fun _ => 0) =
        (zeroExpObject .expression [.constVal 0]).value.val identityInterp (fun _ => 0) ∧
      (zeroConjObject "x" []).value.denote identityInterp = (zeroConjObject "y" [.constVal 0]).value.denote identityInterp ∧
      (Set.mk 1 (calledUnion ["x"] 0)).denote identityInterp = (Set.mk 1 (calledUnion ["y"] 0)).denote identityInterp ∧
      (Relation.mk 1 1 (calledUnion ["x", "y"] 1)).denote identityInterp =
        (Relation.mk 1 1 (calledUnion ["u", "v"] 1)).denote identityInterp := by
  obtain ⟨hset, hrel⟩ := clean_calledUnion
  have hcopyS : (Set.mk 1 (calledUnion ["x"] 0)).copy inverseEnv = .ok ⟨1, calledUnion ["x"] 0⟩ := rfl
  have hcopyR : (Relation.mk 1 1 (calledUnion ["x", "y"] 1)).copy inverseEnv = .ok ⟨1, 1, calledUnion ["x", "y"] 1⟩ := rfl
  have hcopied : copyConjunctions inverseEnv (calledUnion ["x"] 0) = .ok (calledUnion ["x"] 0) := rfl
  obtain ⟨as, has, helems⟩ := placeless_of_copy hcopied fun c hc => (cleanable_calledUnion ["x"] 0 c hc).readable
  have hempty : (as.flatMap ConjunctionObject.elems).Disjoint (as.flatMap ConjunctionObject.elems) := by
    rw [helems]
    exact List.disjoint_nil_left _
  have hloses : ∀ {names : List String} {k : Nat}, LosesNothingIn identityInterp (calledUnion names k) := fun c hc => by
    cases hc
  have hlegible : ∀ (k : ExpType) {zero : List Term}, argsLegible [.mk .expression zero] = true →
      (zeroExpObject k zero).ArgumentsLegible := by
    intro k zero h t ht
    simp only [zeroExpObject, List.mem_cons, List.not_mem_nil, or_false] at ht
    rcases ht with rfl | rfl
    · rfl
    · exact h
  have hlegible' : ∀ (x : String) {zero : List Term}, argsLegible [.mk .expression zero] = true →
      (zeroConjObject x zero).ArgumentsLegible := fun x zero h =>
    ⟨fun e he => List.mem_singleton.1 he ▸ hlegible .equality h, fun e he => by cases he⟩
  constructor
  · obtain ⟨-, ⟨hterm, hexp, hconj, hunion, hclone, hclone'⟩, -⟩ := objects_compare inverseEnv identityInterp (fun _ => 0)
      (callObject 1) (callObject 1) ⟨.expression, [callObject 1, tupleObject 0 1]⟩
      ⟨.expression, [callObject 1, tupleObject 2 3]⟩ (tupleConjObject 0 1) (tupleConjObject 2 3)
      ⟨1, calledUnion ["x"] 0⟩ ⟨1, calledUnion ["x"] 0⟩ ⟨1, 1, calledUnion ["x", "y"] 1⟩ ⟨1, 1, calledUnion ["x", "y"] 1⟩
    refine ⟨(hterm rfl (List.disjoint_nil_left _)).2 rfl, ?_, ?_, ⟨as, has, (hunion as as has has hempty).2 helems⟩,
      (hclone hset _ hcopyS).2 (.inl ?_), (hclone' hrel rfl _ hcopyR).2 (.inl ?_)⟩
    · exact fun h => absurd ((hexp rfl (show [0, 1].Disjoint [2, 3] by simp)).1 h) (by decide)
    · exact fun h => absurd ((hconj rfl (show [0, 1].Disjoint [2, 3] by simp)).1 h) (by decide)
    · exact fun c hc => Option.some.inj hc ▸ rfl
    · exact fun c hc => Option.some.inj hc ▸ rfl
  · obtain ⟨-, -, hterm, hexp, hconj, hsets, hrels⟩ := objects_compare inverseEnv identityInterp (fun _ => 0)
      (zeroCallObject []) (zeroCallObject [.constVal 0]) (zeroExpObject .expression [])
      (zeroExpObject .expression [.constVal 0]) (zeroConjObject "x" []) (zeroConjObject "y" [.constVal 0])
      ⟨1, calledUnion ["x"] 0⟩ ⟨1, calledUnion ["y"] 0⟩ ⟨1, 1, calledUnion ["x", "y"] 1⟩ ⟨1, 1, calledUnion ["u", "v"] 1⟩
    refine ⟨hterm (.inr (List.disjoint_nil_left _)) rfl rfl (by decide +kernel),
      hexp (.inr (List.disjoint_nil_left _)) (hlegible _ rfl) (hlegible _ rfl) (by decide +kernel),
      hconj (.inr (List.disjoint_nil_left _)) (hlegible' _ rfl) (hlegible' _ rfl) (by decide +kernel),
      hsets (cleanable_calledUnion _ _) (cleanable_calledUnion _ _) hloses hloses rfl,
      hrels (cleanable_calledUnion _ _) (cleanable_calledUnion _ _) hloses hloses rfl⟩

end Witness

end IEGen
