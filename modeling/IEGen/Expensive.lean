import IEGen.Removed
import IEGen.Bounded
import IEGen.Named
import IEGen.Walk

/-!
# The budget of a removal

The constraints that `removeExpensiveConstraints` may remove for free are those that bounding the calls has added: what
`constraintsDifference` finds in the bounded set and not in the set itself. They are kept in a set that is ordered by
`Exp::operator<`, which does not look at the kind of a constraint. So an equality of the set goes uncounted when a bound
is an inequality with the same expression.

* `removals` is the loop with the visits at which it removes constraints; `removedConstraints` counts those of a
  conjunction that it removes.
* Without such a pair the budget is kept, and with one it is exceeded by some run (`removeExpensive_withinBudget_iff`).
-/

namespace IEGen

open Outcome (bind_eq_ok)
open SortedList (Tied build Sorted)

/-! ## What is ignored -/

/-- The constraints, equalities first. -/
def Conjunction.constraints (c : Conjunction) : List Exp := c.equalities ++ c.inequalities

/-- The constraints of one list that are not tied with one of the other list. -/
def notFound (es ds : List Exp) : List Exp := es.filter (fun e => !ds.any (fun d => Tied Exp.lt e d))

/-- `constraintsDifference`: what is in the single conjunction of one union and not in the first one of the other. -/
def constraintsDifference (bs as : List Conjunction) : Except Failure (List Exp) :=
  match bs with
  | [conjB] =>
    match as with
    | conjA :: _ => .ok (build Exp.lt
        (notFound conjB.equalities conjA.equalities ++ notFound conjB.inequalities conjA.inequalities))
    | [] => .error .nullPointer
  | _ => .error (.assertException "constraintsDifference:: more than one Conjunction in Relation")

/-! ## The visits that remove -/

section Removals

variable (remove : Nat → List Conjunction → Except Failure (List Conjunction)) (parallelTvs : List Nat) (ignore : List Exp)

/-- The loop of `removeExpensiveConstraints`, with the variables that it removes and the conjunctions it finds then. -/
def removals : List Nat → Int → List Conjunction → Except Failure (List (Nat × List Conjunction))
  | [], _, _ => .ok []
  | i :: tvs, mNumConstsToRemove, cs =>
    if i ∈ parallelTvs then removals tvs mNumConstsToRemove cs
    else do
      let nConstsToRemove ← numUFCallConstsMustRemove i ignore cs
      if nConstsToRemove > mNumConstsToRemove then removals tvs mNumConstsToRemove cs
      else if 0 ≤ nConstsToRemove then do
        let rest ← removals tvs (mNumConstsToRemove - nConstsToRemove) (← remove i cs)
        .ok ((i, cs) :: rest)
      else removals tvs mNumConstsToRemove cs

/-- The loop removes the variables that it is seen to remove. -/
theorem removeExpensiveAt_of_removals : ∀ {tvs : List Nat} {k : Int} {cs : List Conjunction}
    {visits : List (Nat × List Conjunction)}, removals remove parallelTvs ignore tvs k cs = .ok visits →
    removeExpensiveAt remove parallelTvs ignore tvs k cs = (visits.map Prod.fst).foldlM (fun cs i => remove i cs) cs
  | [], _, _, _, h => by
    cases h
    rfl
  | i :: tvs, k, cs, visits, h => by
    unfold removals at h
    unfold removeExpensiveAt
    split_ifs at h ⊢ with hpar
    · exact removeExpensiveAt_of_removals h
    · obtain ⟨n, hn, h⟩ := bind_eq_ok.1 h
      rw [hn]
      show (if n > k then _ else if 0 ≤ n then _ else _) = _
      split_ifs at h ⊢ with hmany hpos
      · exact removeExpensiveAt_of_removals h
      · obtain ⟨ds, hds, h⟩ := bind_eq_ok.1 h
        obtain ⟨rest, hrest, h⟩ := bind_eq_ok.1 h
        cases h
        rw [hds, List.map_cons, List.foldlM_cons, hds]
        exact removeExpensiveAt_of_removals hrest
      · exact removeExpensiveAt_of_removals h

end Removals

/-- A visit removes the constraint. -/
def removesConstraint (e : Exp) (visit : Nat × List Conjunction) : Bool :=
  e.showsArgument visit.1 && decide (e ∈ visit.2.flatMap Conjunction.constraints)

/-- How many constraints of the conjunction the visits remove, each of them once. -/
def removedConstraints (visits : List (Nat × List Conjunction)) (c : Conjunction) : Nat :=
  c.constraints.countP (fun e => visits.any (removesConstraint e))

/-! ## Built conjunctions -/

section Built

variable {env : Environment}

mutual
theorem Term.plain_arguments : ∀ {t : Term}, t.Canonical → ∀ e ∈ t.arguments, e.expType = .expression
  | .ufCall .., h => plain_argsArguments h
  | .tupleVar .., _ | .symConst .., _ | .constVal _, _ | .tupleExp .., _ => by simp [Term.arguments]

theorem plain_argsArguments : ∀ {es : List Exp}, argsCanonical es → ∀ e ∈ argsArguments es, e.expType = .expression
  | [], _ => by simp [argsArguments]
  | .mk _ _ :: _, ⟨⟨hk, _, hts⟩, hes⟩ =>
    List.forall_mem_cons.2 ⟨hk, List.forall_mem_append.2 ⟨plain_termsArguments hts, plain_argsArguments hes⟩⟩

theorem plain_termsArguments : ∀ {ts : List Term}, termsCanonical ts → ∀ e ∈ termsArguments ts, e.expType = .expression
  | [], _ => by simp [termsArguments]
  | _ :: _, ⟨⟨_, ht⟩, hts⟩ => List.forall_mem_append.2 ⟨Term.plain_arguments ht, plain_termsArguments hts⟩
end

theorem BuiltExp.plain {k : ExpType} {e : Exp} (h : BuiltExp k e) : ∀ d ∈ e.arguments, d.expType = .expression := by
  obtain ⟨_, ts⟩ := e
  exact plain_termsArguments h.canonical.2.2

/-- The constraints of a built conjunction are marked as what they are. -/
theorem Conjunction.Built.wellTyped {c : Conjunction} (hc : c.Built) : c.WellTyped := by
  refine ⟨⟨fun e he => (hc.equalities e he).1.expType, fun e he => (hc.inequalities e he).expType⟩, fun d hd => ?_⟩
  obtain ⟨e, he, hd⟩ := List.mem_flatMap.1 hd
  rcases List.mem_append.1 he with he | he
  · exact (hc.equalities e he).1.plain d hd
  · exact (hc.inequalities e he).plain d hd

/-- A built conjunction has no constraint twice. -/
theorem Conjunction.Built.nodup {c : Conjunction} (hc : c.Built) : c.constraints.Nodup := by
  refine List.nodup_append.2 ⟨hc.sorted_equalities.nodup strictWeak_expLt, hc.sorted_inequalities.nodup strictWeak_expLt, ?_⟩
  rintro e he d hd rfl
  have h := (hc.equalities e he).1.expType
  rw [(hc.inequalities e hd).expType] at h
  cases h

/-- Removing a variable gives built conjunctions. -/
theorem built_of_removed {i : Nat} {cs ds : List Conjunction} (hcs : ∀ c ∈ cs, c.Built)
    (h : removeUFCallConsts env i cs = .ok ds) : ∀ d ∈ ds, d.Built := by
  intro d hd
  obtain ⟨c, hc, hcd⟩ := exists_of_mem_removed (fun c hc => (hcs c hc).wellTyped) h hd
  exact built_cleanUp (Conjunction.reduced_adds (hcs c hc).readable).readable hcd

end Built

/-! ## The conjunctions of a bounded set -/

/-- The names in the declared domains and ranges can be read back. -/
def Environment.Readable (env : Environment) : Prop :=
  ∀ f u, env.uninterpFuncMap.lookup f = some u → u.domain.readable = true ∧ u.range.readable = true

section Bounds

variable {env : Environment}

theorem Conjunction.Built.of_constraints {c d : Conjunction} (hc : c.Built) (heqs : d.equalities = c.equalities)
    (hineqs : d.inequalities = c.inequalities) : d.Built :=
  ⟨by rw [heqs]; exact hc.equalities, by rw [hineqs]; exact hc.inequalities, by rw [heqs]; exact hc.sorted_equalities,
    by rw [hineqs]; exact hc.sorted_inequalities⟩

theorem built_ofTupleDecl (d : TupleDecl) : (Conjunction.ofTupleDecl d).Built :=
  (ready_ofTupleDecl (fun _ => 1) d).built

/-- All conjunctions of the set are built. -/
def Set.Built (s : Set) : Prop := ∀ c ∈ s.conjunctions, c.Built

theorem built_copyConjunctions {cs ds : List Conjunction} (hcs : ∀ c ∈ cs, c.readable = true)
    (h : copyConjunctions env cs = .ok ds) : ∀ d ∈ ds, d.Built := by
  intro d hd
  obtain ⟨c, hc, hcd⟩ := exists_of_mem_cleanUp h hd
  exact built_cleanUp (hcs c ((mem_foldl_addConjunction hc).resolve_left List.not_mem_nil)) hcd

theorem built_boundTupleExp {c b : Conjunction} {es : List Exp} (hc : c.readable = true) (hes : ∀ e ∈ es, e.readable = true)
    (h : c.boundTupleExp env es = .ok b) : b.Built := by
  obtain ⟨-, hclean⟩ := boundTupleExp_eq_ok hc h
  have hm : ∀ t e, (tupleSubMap es).subExp t = some e → e.readable = true := by
    intro t e hte
    simp only [SubMap.subExp] at hte
    cases hfind : (tupleSubMap es).find? (fun p => t.factorMatches p.1) with
    | none => rw [hfind] at hte; cases hte
    | some p =>
      rw [hfind] at hte
      obtain ⟨q, hq, rfl⟩ := List.mem_map.1 (List.mem_of_find?_eq_some hfind)
      obtain rfl : q.1 = e := Option.some.inj hte
      exact hes _ (List.fst_mem_of_mem_zipIdx hq)
  obtain ⟨hpush, -⟩ := Conjunction.foldl_pushConst (I := ⟨fun _ => 0, fun _ x => x, fun _ => 1, fun _ => 1⟩)
    (τ := fun _ => 0) hc c.arity
  obtain ⟨heqs, hineqs⟩ := Conjunction.readable_iff.1 hpush
  refine built_cleanUp (Conjunction.readable_iff.2 ⟨fun e he => ?_, fun e he => ?_⟩) hclean
  · obtain ⟨d, hd, rfl⟩ := List.mem_map.1 he
    exact Exp.readable_substitute hm (heqs d hd)
  · obtain ⟨d, hd, rfl⟩ := List.mem_map.1 he
    exact Exp.readable_substitute hm (hineqs d hd)

theorem built_addBound {bound s s' : Set} {es : List Exp} (hb : bound.readable = true) (hes : ∀ e ∈ es, e.readable = true)
    (hs : s.Built) (h : addBound env bound es s = .ok s') : s'.Built := by
  have hb : ∀ c ∈ bound.conjunctions, c.readable = true := List.all_eq_true.1 hb
  unfold addBound at h
  simp only [bind_eq_ok] at h
  obtain ⟨b, hbb, d, -, b', hset, h⟩ := h
  unfold Set.boundTupleExp at hbb
  obtain ⟨bs, hbs, hbb⟩ := bind_eq_ok.1 hbb
  cases hbb
  unfold Set.setTupleDecl at hset
  obtain ⟨bs', hbs', hset⟩ := bind_eq_ok.1 hset
  cases hset
  have hbuilt : ∀ c ∈ bs, c.Built := by
    intro c hc
    obtain ⟨c₀, hc₀, hcb⟩ := Outcome.exists_of_mem_forall₂ (Outcome.forall₂_of_mapM hbs) hc
    exact built_boundTupleExp (hb c₀ hc₀) hes hcb
  have hbuilt' : ∀ c ∈ bs', c.Built := by
    intro c hc
    obtain ⟨c₀, hc₀, hcb⟩ := Outcome.exists_of_mem_forall₂ (Outcome.forall₂_of_mapM hbs') hc
    obtain ⟨heqs, hineqs⟩ := setTupleDecl_keeps hcb
    refine Conjunction.Built.of_constraints ?_ heqs hineqs
    rcases mem_foldl_addConjunction hc₀ with hc₀ | hc₀
    · obtain rfl := List.mem_singleton.1 hc₀
      exact built_ofTupleDecl _
    · exact hbuilt c₀ hc₀
  unfold Set.Intersect at h
  split_ifs at h
  cases h
  intro c hc
  dsimp only at hc
  rw [nested_foldl_eq] at hc
  rcases mem_foldl_addConjunction hc with hc | hc
  · obtain rfl := List.mem_singleton.1 hc
    exact built_ofTupleDecl _
  · obtain ⟨⟨c₁, c₂⟩, hp, rfl⟩ := List.mem_map.1 hc
    obtain ⟨hc₁, hc₂⟩ := List.pair_mem_product.1 hp
    exact built_intersect (hs c₁ hc₁) (hbuilt' c₂ hc₂)

/-- What the visitor gathers is built. -/
theorem gathers_built (henv : env.Readable) : (VisitorBoundDomainRange.visitor env).Gathers
    (fun t => t.readable = true) (fun _ _ _ => True) (fun _ s => s.Built) where
  args h e he t ht := by
    simp only [Term.readable, Bool.and_eq_true] at h
    exact Exp.readable_iff.1 (argsReadable_iff.1 h.2 e he) t ht
  call {c f as i q s s'} hr hs h := by
    simp only [VisitorBoundDomainRange.visitor, VisitorBoundDomainRange.preVisitTerm, bind_eq_ok] at h
    obtain ⟨dom, hdom, s₁, hs₁, ran, hran, h⟩ := h
    have hargs : argsReadable as = true := by
      simp only [Term.readable, Bool.and_eq_true] at hr
      exact hr.2
    have hcopy : ∀ {d d' : Set}, d.readable = true → d.copy env = .ok d' → d'.readable = true := by
      intro d d' hd hd'
      obtain ⟨cs, hcs, hd'⟩ := bind_eq_ok.1 hd'
      cases hd'
      exact List.all_eq_true.2 fun c hc => (built_copyConjunctions (List.all_eq_true.1 hd) hcs c hc).readable
    unfold Environment.queryDomain at hdom
    unfold Environment.queryRange at hran
    cases hu : env.uninterpFuncMap.lookup f with
    | none => rw [hu] at hdom; cases hdom
    | some u =>
      rw [hu] at hdom hran
      refine built_addBound (hcopy (henv f u hu).2 hran) (fun e he => ?_)
        (built_addBound (hcopy (henv f u hu).1 hdom) (argsReadable_iff.1 hargs) hs hs₁) h
      obtain ⟨j, -, rfl⟩ := List.mem_map.1 he
      exact readable_addTerm rfl hr
  other {t s} h := by
    cases t with
    | ufCall c f as i => exact absurd rfl (h c f as i)
    | _ => rfl
  postTerm _ _ := rfl
  preExp _ _ := rfl
  postExp _ _ := rfl

/-- A conjunction with its bounds is built, with the constraints that it had. -/
theorem built_conjunction_bounds (henv : env.Readable) {c d : Conjunction} (hc : c.Built)
    (h : c.boundDomainRange env = .ok d) :
    d.Built ∧ c.constraints ⊆ d.constraints ∧ d.inArity < d.arity ∧ d.arity = c.arity := by
  have hg : ∀ e ∈ c.equalities ++ c.inequalities, ∀ t ∈ e.terms, t.readable = true := by
    obtain ⟨heqs, hineqs⟩ := Conjunction.readable_iff.1 hc.readable
    exact fun e he => Exp.readable_iff.1 ((List.mem_append.1 he).elim (heqs e) (hineqs e))
  have hstart : (Set.ofTupleDecl c.tupleDecl).Built := by
    intro d hd
    obtain rfl : d = .ofTupleDecl c.tupleDecl := List.mem_singleton.1 hd
    exact built_ofTupleDecl _
  obtain ⟨s, b, rest, hs, hb, hin, rfl⟩ := boundDomainRange_gathers (q := True) (gathers_built henv) hg hstart h
  have hbb : b.Built := hs b (by rw [hb]; exact List.mem_cons_self ..)
  refine ⟨(built_intersect hc hbb).of_constraints rfl rfl, fun e he => ?_, ?_, ?_⟩
  · show e ∈ (c.Intersect b).equalities ++ (c.Intersect b).inequalities
    rw [intersect_of_built hbb]
    rcases List.mem_append.1 he with he | he
    · exact List.mem_append_left _ (SortedList.subset_foldl_insertUnique he)
    · exact List.mem_append_right _ (SortedList.subset_foldl_insertUnique he)
  · show c.inArity < (c.Intersect b).tupleDecl.size
    rw [tupleDecl_intersect]
    exact hin
  · show (c.Intersect b).tupleDecl.size = c.tupleDecl.size
    rw [tupleDecl_intersect]

end Bounds

/-! ## Within the budget -/

section Budget

variable {env : Environment} {parallelTvs : List Nat} {ignore : List Exp}

/-- What one visit removes is counted when it is not ignored. -/
theorem countP_visit_le {i : Nat} {c : Conjunction} (hc : c.constraints.Nodup)
    (h : ∀ e ∈ c.constraints, e.showsArgument i = true → ignore.any (fun d => Tied Exp.lt d e) = false)
    (cs : List Conjunction) : c.constraints.countP (fun e => removesConstraint e (i, cs)) ≤
      (cs.flatMap Conjunction.constraints).countP (Exp.counted i ignore) := by
  rw [List.countP_eq_length_filter, List.countP_eq_length_filter]
  refine (List.subperm_of_subset (hc.filter _) fun e he => ?_).length_le
  obtain ⟨he, hrem⟩ := List.mem_filter.1 he
  simp only [removesConstraint, Bool.and_eq_true, decide_eq_true_eq] at hrem
  refine List.mem_filter.2 ⟨hrem.2, ?_⟩
  rw [Exp.counted, hrem.1, h e he hrem.1]
  rfl

theorem countP_or_le {α : Type} (p q : α → Bool) (l : List α) :
    l.countP (fun a => p a || q a) ≤ l.countP p + l.countP q := by
  induction l with
  | nil => simp
  | cons a l ih =>
    simp only [List.countP_cons, Bool.or_eq_true]
    rcases hp : p a <;> rcases hq : q a <;> simp <;> omega

/-- Where none of the constraints that may be removed is ignored, the budget is kept. -/
theorem removedConstraints_le {c : Conjunction} (hc : c.constraints.Nodup) : ∀ {tvs : List Nat} {k : Int}
    {cs : List Conjunction} {visits : List (Nat × List Conjunction)}, (∀ d ∈ cs, d.Built) → 0 ≤ k →
    removals (removeUFCallConsts env) parallelTvs ignore tvs k cs = .ok visits →
    (∀ e ∈ c.constraints, ∀ i ∈ tvs, i ∉ parallelTvs → e.showsArgument i = true →
      ignore.any (fun d => Tied Exp.lt d e) = false) → (removedConstraints visits c : Int) ≤ k
  | [], k, cs, visits, _, hk, h, _ => by
    cases h
    simpa [removedConstraints] using hk
  | i :: tvs, k, cs, visits, hcs, hk, h, hnone => by
    have hrest : ∀ e ∈ c.constraints, ∀ j ∈ tvs, j ∉ parallelTvs → e.showsArgument j = true →
        ignore.any (fun d => Tied Exp.lt d e) = false := fun e he j hj => hnone e he j (List.mem_cons_of_mem _ hj)
    unfold removals at h
    split_ifs at h with hpar
    · exact removedConstraints_le hc hcs hk h hrest
    · have hcount : numUFCallConstsMustRemove i ignore cs =
          .ok ((cs.flatMap Conjunction.constraints).countP (Exp.counted i ignore) : Nat) :=
        numUFCallConstsMustRemove_eq fun d hd => (hcs d hd).wellTyped
      rw [hcount] at h
      change (if _ then _ else if _ then _ else _) = _ at h
      split_ifs at h with hmany hpos
      · exact removedConstraints_le hc hcs hk h hrest
      · obtain ⟨ds, hds, h⟩ := bind_eq_ok.1 h
        obtain ⟨rest, hvisits, h⟩ := bind_eq_ok.1 h
        cases h
        have hleft := removedConstraints_le hc (built_of_removed hcs hds) (by omega) hvisits hrest
        have hhere := countP_visit_le hc (fun e he => hnone e he i (List.mem_cons_self ..) hpar) cs
        have hsplit : removedConstraints ((i, cs) :: rest) c ≤
            c.constraints.countP (fun e => removesConstraint e (i, cs)) + removedConstraints rest c := by
          simp only [removedConstraints, List.any_cons]
          exact countP_or_le _ _ _
        omega
      · exact removedConstraints_le hc hcs hk h hrest

end Budget

/-! ## What a clean union loses -/

section Clean

variable {env : Environment} {parallelTvs : List Nat} {ignore : List Exp} {i : Nat}

theorem constraints_without (c : Conjunction) :
    (c.without i).constraints = c.constraints.filter (fun e => !e.showsArgument i) :=
  (List.filter_append ..).symm

/-- A conjunction that the clean-up leaves as it is and does not drop, with an input arity that `setInArity` accepts. -/
structure Conjunction.Settled (env : Environment) (c : Conjunction) : Prop where
  built : c.Built
  clean : c.Clean env
  satisfiable : c.satisfiable = true
  inArity : c.inArity < c.arity

namespace Conjunction.Settled

theorem without {c : Conjunction} (hc : c.Settled env) : (c.without i).Settled env where
  built := ⟨fun e he => hc.built.equalities e (List.mem_of_mem_filter he),
    fun e he => hc.built.inequalities e (List.mem_of_mem_filter he), hc.built.sorted_equalities.filter _,
    hc.built.sorted_inequalities.filter _⟩
  clean := ⟨fun e he => hc.clean.equalities e (List.mem_of_mem_filter he),
    fun e he => hc.clean.inequalities e (List.mem_of_mem_filter he), hc.clean.sorted_equalities.filter _,
    hc.clean.sorted_inequalities.filter _⟩
  satisfiable := List.all_eq_true.2 fun e he => List.all_eq_true.1 hc.satisfiable e (List.mem_of_mem_filter he)
  inArity := hc.inArity

/-- Such a conjunction alone is a copy of itself. -/
theorem copy {c : Conjunction} (hc : c.Settled env) : copyConjunctions env [c] = .ok [c] :=
  copyConjunctions_of_clean fun d hd => by
    rw [List.mem_singleton.1 hd]
    exact ⟨hc.clean, hc.satisfiable⟩

/-- Removing a variable takes the constraints out in which an argument shows it, and leaves the others as they are. -/
theorem removed {c : Conjunction} (hc : c.Settled env) : removeUFCallConsts env i [c] = .ok [c.without i] := by
  have hreduced : c.reduced i = c.without i := by
    unfold Conjunction.reduced
    rw [intersect_of_built hc.without.built]
    have heqs := SortedList.build_eq_self strictWeak_expLt (hc.without (i := i)).built.sorted_equalities
    have hineqs := SortedList.build_eq_self strictWeak_expLt (hc.without (i := i)).built.sorted_inequalities
    exact congrArg₂ (fun eqs ineqs => Conjunction.mk eqs ineqs c.tupleDecl c.inArity) heqs hineqs
  have hred : redSparseConstraints i [c] = .ok [c.without i] := by
    refine (redSparseConstraints_eq_ok fun d hd => ?_).2 ⟨fun d hd => ?_, ?_⟩
    · rw [List.mem_singleton.1 hd]
      exact hc.built.wellTyped
    · rw [List.mem_singleton.1 hd]
      exact hc.inArity
    · rw [← hreduced]
      rfl
  exact bind_eq_ok.2 ⟨_, hred, hc.without.copy⟩

end Conjunction.Settled

/-- A constraint that is counted when one of the variables is removed. -/
def Exp.chargeable (parallelTvs : List Nat) (ignore : List Exp) (tvs : List Nat) (e : Exp) : Bool :=
  tvs.any (fun i => !decide (i ∈ parallelTvs) && e.counted i ignore)

theorem countP_filter_le {α : Type} {p q r : α → Bool} (h : ∀ a, p a = true → r a = false) (l : List α) :
    l.countP p + (l.filter r).countP q ≤ l.countP (fun a => p a || q a) := by
  induction l with
  | nil => simp
  | cons a l ih =>
    simp only [List.countP_cons, List.filter_cons]
    cases hp : p a with
    | true =>
      rw [h a hp]
      simp
      omega
    | false => cases hr : r a <;> cases hq : q a <;> simp [hq] <;> omega

/-- With a budget for all constraints that can be charged, every constraint with a variable that may be removed goes. -/
theorem exists_removals : ∀ (tvs : List Nat) {k : Int} {c : Conjunction}, c.Settled env →
    (c.constraints.countP (Exp.chargeable parallelTvs ignore tvs) : Int) ≤ k →
    ∃ visits, removals (removeUFCallConsts env) parallelTvs ignore tvs k [c] = .ok visits ∧
      ∀ e ∈ c.constraints, ∀ i ∈ tvs, i ∉ parallelTvs → e.showsArgument i = true →
        visits.any (removesConstraint e) = true
  | [], _, _, _, _ => ⟨[], rfl, by simp⟩
  | i :: tvs, k, c, hc, hk => by
    by_cases hpar : i ∈ parallelTvs
    · have hskip : Exp.chargeable parallelTvs ignore (i :: tvs) = Exp.chargeable parallelTvs ignore tvs := by
        funext e
        simp [Exp.chargeable, hpar]
      rw [hskip] at hk
      obtain ⟨visits, hvisits, hall⟩ := exists_removals tvs hc hk
      refine ⟨visits, ?_, fun e he j hj hjpar => ?_⟩
      · rw [removals, if_pos hpar]
        exact hvisits
      · exact hall e he j ((List.mem_cons.1 hj).resolve_left fun h => hjpar (h ▸ hpar)) hjpar
    · have hcount : numUFCallConstsMustRemove i ignore [c] = .ok (c.constraints.countP (Exp.counted i ignore) : Nat) := by
        have h : numUFCallConstsMustRemove i ignore [c] = _ := numUFCallConstsMustRemove_eq fun d hd => by
          rw [List.mem_singleton.1 hd]
          exact hc.built.wellTyped
        rwa [List.flatMap_singleton] at h
      have hsplit := countP_filter_le (p := Exp.counted i ignore) (q := Exp.chargeable parallelTvs ignore tvs)
        (r := fun e => !e.showsArgument i) (fun e he => by simp_all [Exp.counted]) c.constraints
      have hcons : (fun e => Exp.counted i ignore e || Exp.chargeable parallelTvs ignore tvs e) =
          Exp.chargeable parallelTvs ignore (i :: tvs) := by
        funext e
        simp [Exp.chargeable, hpar]
      rw [hcons, ← constraints_without] at hsplit
      have hleft : ((c.without i).constraints.countP (Exp.chargeable parallelTvs ignore tvs) : Int) ≤
          k - (c.constraints.countP (Exp.counted i ignore) : Nat) := by omega
      obtain ⟨rest, hrest, hall⟩ := exists_removals tvs hc.without hleft
      refine ⟨(i, [c]) :: rest, ?_, fun e he j hj hjpar hshow => ?_⟩
      · rw [removals, if_neg hpar, hcount]
        show (if _ then _ else if _ then _ else _) = _
        rw [if_neg (by omega), if_pos (by omega)]
        exact bind_eq_ok.2 ⟨_, hc.removed, bind_eq_ok.2 ⟨rest, hrest, rfl⟩⟩
      · rw [List.any_cons, Bool.or_eq_true]
        cases hi : e.showsArgument i with
        | true =>
          left
          rw [removesConstraint, hi, List.flatMap_singleton]
          simpa using he
        | false =>
          right
          have hj : j ∈ tvs := (List.mem_cons.1 hj).resolve_left fun h => by
            rw [h, hi] at hshow
            cases hshow
          refine hall e ?_ j hj hjpar hshow
          rw [constraints_without]
          exact List.mem_filter.2 ⟨he, by simp [hi]⟩

end Clean

/-! ## The budget is kept -/

section Kept

variable {env : Environment} {parallelTvs : List Nat} {ignore : List Exp} {c : Conjunction}

/-- What has the expression of a constraint that may be removed is itself a constraint of its kind. -/
def KindsApart (parallelTvs : List Nat) (arity : Nat) (c : Conjunction) (bs : List Conjunction) : Prop :=
  ∀ b ∈ bs, ∀ e ∈ c.constraints, (∃ i < arity, i ∉ parallelTvs ∧ e.showsArgument i = true) →
    (∀ d ∈ b.equalities, Tied Exp.lt d e → ∃ e' ∈ c.equalities, Tied Exp.lt d e') ∧
      ∀ d ∈ b.inequalities, Tied Exp.lt d e → ∃ e' ∈ c.inequalities, Tied Exp.lt d e'

/-- For every budget, no more constraints of the conjunction are removed. -/
def WithinBudget (env : Environment) (parallelTvs : List Nat) (ignore : List Exp) (c : Conjunction) (b : Set) : Prop :=
  ∀ k : Int, 0 ≤ k → ∀ visits, removals (removeUFCallConsts env) parallelTvs ignore (List.range b.arity).reverse k
    b.conjunctions = .ok visits → removedConstraints visits c ≤ k

theorem mem_notFound {es ds : List Exp} {e : Exp} : e ∈ notFound es ds ↔ e ∈ es ∧ ∀ d ∈ ds, ¬ Tied Exp.lt e d := by
  simp [notFound]

/-- Some ignored expression is tied iff one is that the second conjunction does not have. -/
theorem ignored_iff {b : Conjunction} (h : constraintsDifference [b] [c] = .ok ignore) {e : Exp} :
    ignore.any (fun d => Tied Exp.lt d e) = true ↔
      (∃ d ∈ b.equalities, Tied Exp.lt d e ∧ ∀ e' ∈ c.equalities, ¬ Tied Exp.lt d e') ∨
        ∃ d ∈ b.inequalities, Tied Exp.lt d e ∧ ∀ e' ∈ c.inequalities, ¬ Tied Exp.lt d e' := by
  cases h
  have hsame : ∀ l : List Exp, (build Exp.lt l).any (fun d => Tied Exp.lt d e) = true ↔ ∃ d ∈ l, Tied Exp.lt d e := by
    intro l
    simp only [List.any_eq_true, decide_eq_true_eq]
    constructor
    · rintro ⟨d, hd, htied⟩
      exact ⟨d, SortedList.mem_of_mem_build hd, htied⟩
    · rintro ⟨d, hd, htied⟩
      rcases SortedList.build_covers Exp.lt hd with hb | ⟨z, hz, hdz⟩
      · exact ⟨d, hb, htied⟩
      · exact ⟨z, hz, strictWeak_expLt.tied_trans hdz.symm htied⟩
  rw [hsame]
  simp only [List.mem_append, mem_notFound]
  constructor
  · rintro ⟨d, ⟨hd, hnone⟩ | ⟨hd, hnone⟩, htied⟩
    · exact .inl ⟨d, hd, htied, hnone⟩
    · exact .inr ⟨d, hd, htied, hnone⟩
  · rintro (⟨d, hd, htied, hnone⟩ | ⟨d, hd, htied, hnone⟩)
    · exact ⟨d, .inl ⟨hd, hnone⟩, htied⟩
    · exact ⟨d, .inr ⟨hd, hnone⟩, htied⟩

/-- Nothing that may be removed is ignored iff the bounds with such an expression are constraints of their kind. -/
theorem kindsApart_iff {b : Conjunction} (h : constraintsDifference [b] [c] = .ok ignore) {arity : Nat} :
    KindsApart parallelTvs arity c [b] ↔ ∀ e ∈ c.constraints, ∀ i ∈ (List.range arity).reverse, i ∉ parallelTvs →
      e.showsArgument i = true → ignore.any (fun d => Tied Exp.lt d e) = false := by
  constructor
  · intro hapart e he i hi hpar hshow
    obtain ⟨heqs, hineqs⟩ := hapart b (List.mem_singleton.2 rfl) e he ⟨i, by simpa using hi, hpar, hshow⟩
    rw [← Bool.not_eq_true, ignored_iff h]
    rintro (⟨d, hd, htied, hnone⟩ | ⟨d, hd, htied, hnone⟩)
    · obtain ⟨e', he', htied'⟩ := heqs d hd htied
      exact hnone e' he' htied'
    · obtain ⟨e', he', htied'⟩ := hineqs d hd htied
      exact hnone e' he' htied'
  · intro hnone b' hb' e he ⟨i, hi, hpar, hshow⟩
    obtain rfl := List.mem_singleton.1 hb'
    have hignored := hnone e he i (by simpa using hi) hpar hshow
    rw [← Bool.not_eq_true, ignored_iff h, not_or] at hignored
    refine ⟨fun d hd htied => ?_, fun d hd htied => ?_⟩
    · by_contra hno
      exact hignored.1 ⟨d, hd, htied, fun e' he' ht => hno ⟨e', he', ht⟩⟩
    · by_contra hno
      exact hignored.2 ⟨d, hd, htied, fun e' he' ht => hno ⟨e', he', ht⟩⟩

/-- A bounded set whose difference can be taken has one conjunction. -/
theorem exists_of_constraintsDifference {bs : List Conjunction} (h : constraintsDifference bs [c] = .ok ignore) :
    ∃ b, bs = [b] := by
  unfold constraintsDifference at h
  split at h
  · exact ⟨_, rfl⟩
  · cases h

/-- Where all constraints are as the clean-up leaves them, an ignored constraint that may be removed breaks a budget. -/
theorem kindsApart_of_withinBudget {b : Conjunction} {n : Nat} (hb : b.Settled env) (hc : c.Built)
    (hsub : c.constraints ⊆ b.constraints) (h : constraintsDifference [b] [c] = .ok ignore)
    (hwithin : WithinBudget env parallelTvs ignore c ⟨n, [b]⟩) : KindsApart parallelTvs n c [b] := by
  refine (kindsApart_iff h).2 fun e he i hi hpar hshow => ?_
  -- the budget is what removing all variables costs
  have hcost : ((b.constraints.countP (Exp.chargeable parallelTvs ignore (List.range n).reverse) : Nat) : Int) ≤
      (b.constraints.countP (Exp.chargeable parallelTvs ignore (List.range n).reverse) : Nat) := le_rfl
  obtain ⟨visits, hvisits, hall⟩ := exists_removals (List.range n).reverse hb hcost
  have hle := Int.ofNat_le.1 (hwithin _ (Int.natCast_nonneg _) visits hvisits)
  by_contra hignored
  rw [Bool.not_eq_false] at hignored
  -- whatever is charged is a constraint of the set, and the ignored one comes on top
  have hmem : ∀ d ∈ b.constraints, d.chargeable parallelTvs ignore (List.range n).reverse = true →
      d ∈ c.constraints ∧ visits.any (removesConstraint d) = true ∧ d ≠ e := by
    intro d hd hcharge
    obtain ⟨j, hj, hcharge⟩ := List.any_eq_true.1 hcharge
    simp only [Exp.counted, Bool.and_eq_true, Bool.not_eq_true', decide_eq_false_iff_not] at hcharge
    obtain ⟨hjpar, hjshow, hnot⟩ := hcharge
    refine ⟨?_, hall d hd j hj hjpar hjshow, ?_⟩
    · rw [← Bool.not_eq_true, ignored_iff h, not_or] at hnot
      rcases List.mem_append.1 hd with hd | hd
      · have hfound : ∃ e' ∈ c.equalities, Tied Exp.lt d e' := by
          by_contra hno
          exact hnot.1 ⟨d, hd, strictWeak_expLt.tied_refl d, fun e' he' ht => hno ⟨e', he', ht⟩⟩
        obtain ⟨e', he', htied⟩ := hfound
        rw [(hb.built.equalities d hd).1.eq_of_tied (hc.equalities e' he').1 htied]
        exact List.mem_append_left _ he'
      · have hfound : ∃ e' ∈ c.inequalities, Tied Exp.lt d e' := by
          by_contra hno
          exact hnot.2 ⟨d, hd, strictWeak_expLt.tied_refl d, fun e' he' ht => hno ⟨e', he', ht⟩⟩
        obtain ⟨e', he', htied⟩ := hfound
        rw [(hb.built.inequalities d hd).eq_of_tied (hc.inequalities e' he') htied]
        exact List.mem_append_right _ he'
    · rintro rfl
      rw [hignored] at hnot
      cases hnot
  have hnodup : (e :: b.constraints.filter (Exp.chargeable parallelTvs ignore (List.range n).reverse)).Nodup := by
    refine List.nodup_cons.2 ⟨fun he' => ?_, hb.built.nodup.filter _⟩
    obtain ⟨he', hcharge⟩ := List.mem_filter.1 he'
    exact (hmem e he' hcharge).2.2 rfl
  have hlen : (e :: b.constraints.filter (Exp.chargeable parallelTvs ignore (List.range n).reverse)).length ≤
      (c.constraints.filter (fun d => visits.any (removesConstraint d))).length := by
    refine (List.subperm_of_subset hnodup fun d hd => ?_).length_le
    rcases List.mem_cons.1 hd with rfl | hd
    · exact List.mem_filter.2 ⟨he, hall d (hsub he) i hi hpar hshow⟩
    · obtain ⟨hd, hcharge⟩ := List.mem_filter.1 hd
      exact List.mem_filter.2 ⟨(hmem d hd hcharge).1, (hmem d hd hcharge).2.1⟩
  rw [List.length_cons, ← List.countP_eq_length_filter, ← List.countP_eq_length_filter] at hlen
  exact absurd hlen (not_le.2 (Nat.lt_succ_of_le hle))

end Kept

/-- In every budget at most as many constraints of a conjunction are removed from what bounding made of it, as long as
the bounds with the expression of a constraint that may be removed are constraints of its kind. Where the clean-up
leaves the conjunction and its bounds as they are, this is exactly when. -/
theorem removeExpensive_withinBudget_iff (env : Environment) (parallelTvs : List Nat) (c : Conjunction) (b : Set)
    (ignore : List Exp) (hc : c.Built) (henv : env.Readable) (hb : (Set.mk c.arity [c]).boundDomainRange env = .ok b)
    (h : constraintsDifference b.conjunctions [c] = .ok ignore) :
    (KindsApart parallelTvs c.arity c b.conjunctions → WithinBudget env parallelTvs ignore c b) ∧
      ((∀ d ∈ [c] ++ b.conjunctions, d.Clean env ∧ d.satisfiable = true) →
        (WithinBudget env parallelTvs ignore c b ↔ KindsApart parallelTvs c.arity c b.conjunctions)) := by
  obtain ⟨b', hb'⟩ := exists_of_constraintsDifference h
  unfold Set.boundDomainRange at hb
  obtain ⟨s, hs, hb⟩ := bind_eq_ok.1 hb
  obtain ⟨cs, hcs, hs⟩ := bind_eq_ok.1 hs
  cases hs
  obtain ⟨ds, hds, hb⟩ := bind_eq_ok.1 hb
  cases hb
  obtain rfl : ds = [b'] := hb'
  have hf := Outcome.forall₂_of_mapM hds
  have hbuilt : ∀ d ∈ cs, d.Built := built_copyConjunctions (fun d hd => by
    rw [List.mem_singleton.1 hd]
    exact hc.readable) hcs
  have hsuff : KindsApart parallelTvs c.arity c [b'] → WithinBudget env parallelTvs ignore c ⟨c.arity, [b']⟩ := by
    intro hapart k hk visits hvisits
    refine removedConstraints_le hc.nodup (fun d hd => ?_) hk hvisits ((kindsApart_iff h).1 hapart)
    obtain ⟨c₀, hc₀, hd⟩ := Outcome.exists_of_mem_forall₂ hf hd
    exact (built_conjunction_bounds henv (hbuilt c₀ hc₀) hd).1
  refine ⟨hsuff, fun hclean => ⟨fun hwithin => ?_, hsuff⟩⟩
  obtain ⟨hcc, hbc⟩ := List.forall_mem_append.1 hclean
  rw [copyConjunctions_of_clean hcc] at hcs
  obtain rfl : cs = [c] := (Except.ok.inj hcs).symm
  obtain ⟨c₀, hc₀, hd⟩ := Outcome.exists_of_mem_forall₂ hf (List.mem_singleton.2 rfl)
  obtain rfl := List.mem_singleton.1 hc₀
  obtain ⟨hbb, hsub, hin, -⟩ := built_conjunction_bounds henv hc hd
  obtain ⟨hclean, hsat⟩ := hbc b' (List.mem_singleton.2 rfl)
  exact kindsApart_of_withinBudget ⟨hbb, hclean, hsat, hin⟩ hc hsub h hwithin

/-- `{ [x] : x >= 0 }` -/
def naturals : Set := ⟨1, [⟨[], [.mk .inequality [.tupleVar 1 0]], ⟨[⟨false, 0, "x"⟩]⟩, 0⟩]⟩

/-- `f`, from natural numbers to natural numbers -/
def naturalEnv : Environment := ⟨[("f", ⟨"f", naturals, naturals, false, .none⟩)], [], []⟩

/-- The bounds `i >= 0 && f(i) >= 0` -/
def naturalBounds : List Exp :=
  [.mk .inequality [.tupleVar 1 0], .mk .inequality [.ufCall 1 "f" [.ofTerm (.tupleVar 1 0)] none]]

/-- `[i] : f(i) = 0 && i >= 0 && f(i) >= 0` -/
def boundedRootConj : Conjunction :=
  ⟨[.mk .equality [.ufCall 1 "f" [.ofTerm (.tupleVar 1 0)] none]], naturalBounds, ⟨[⟨false, 0, "i"⟩]⟩, 0⟩

/-- The bound `f(i) >= 0` hides the equality `f(i) = 0`, which is removed for nothing. -/
theorem removeExpensive_exceeds :
    (Set.mk 1 [rootConj]).boundDomainRange naturalEnv = .ok ⟨1, [boundedRootConj]⟩ ∧
    constraintsDifference [boundedRootConj] [rootConj] = .ok naturalBounds ∧
    ∃ visits, removals (removeUFCallConsts naturalEnv) [] naturalBounds [0] 0 [boundedRootConj] = .ok visits ∧
      removedConstraints visits rootConj = 1 := by
  refine ⟨rfl, rfl, [(0, [boundedRootConj])], rfl, ?_⟩
  have hshow : (Exp.mk .equality [.ufCall 1 "f" [.ofTerm (.tupleVar 1 0)] none]).showsArgument 0 = true := rfl
  simp [removedConstraints, removesConstraint, Conjunction.constraints, boundedRootConj, rootConj, hshow]

/-- `[i] : f(i) - 5 = 0` -/
def fiveConj : Conjunction :=
  ⟨[.mk .equality [.ufCall 1 "f" [.ofTerm (.tupleVar 1 0)] none, .constVal (-5)]], [], ⟨[⟨false, 0, "i"⟩]⟩, 0⟩

theorem readable_naturalEnv : naturalEnv.Readable := by
  intro f u h
  unfold naturalEnv at h
  rw [List.lookup_cons] at h
  split at h
  · cases h
    exact ⟨rfl, rfl⟩
  · cases h

theorem built_fiveConj : fiveConj.Built := by
  have hdone : fiveConj.cleanUp naturalEnv = .ok fiveConj := rfl
  exact built_cleanUp rfl hdone

theorem removeExpensive_withinBudget_iff_five : WithinBudget naturalEnv [] naturalBounds fiveConj
    ⟨1, [{ fiveConj with inequalities := naturalBounds }]⟩ := by
  have hb : (Set.mk 1 [fiveConj]).boundDomainRange naturalEnv = .ok ⟨1, [{ fiveConj with inequalities := naturalBounds }]⟩ :=
    rfl
  have hignore : constraintsDifference [{ fiveConj with inequalities := naturalBounds }] [fiveConj] = .ok naturalBounds :=
    rfl
  refine (removeExpensive_withinBudget_iff naturalEnv [] fiveConj _ _ built_fiveConj readable_naturalEnv hb hignore).1 ?_
  intro b hbm e he _
  obtain rfl := List.mem_singleton.1 hbm
  obtain rfl : e = _ := List.mem_singleton.1 he
  refine ⟨fun d hd htied => ⟨_, List.mem_singleton.2 rfl, htied⟩, fun d hd htied => ?_⟩
  simp only [naturalBounds, List.mem_cons, List.not_mem_nil, or_false] at hd
  rcases hd with rfl | rfl
  · exact absurd htied (by decide)
  · exact absurd htied (by decide)

end IEGen
