import IEGen.Copied

/-!
# Copies of sets and relations

Copying adds the conjunctions to an empty union and cleans the result up.

* The clean-up ends well when it can tell of each call whether it collapses (`Decides`, `Conjunction.exists_cleanUp`).
* It keeps the tuples of each conjunction when the calls that collapse keep their values (`Conjunction.Cleanable`).
* So a copy has the tuples of the original iff no tuple is lost with a conjunction that `addConjunction` takes for the
  placeholder (`copy_denotes`); `operator==` compares such copies.
-/

namespace IEGen

open SortedList (Tied build)

/-! ## Copies that do not fail -/

section Runs

variable {env : Environment}

/-- The collapse of a call gets past its arguments. -/
def Decides (env : Environment) (f : String) (as : List Exp) : Prop :=
  as ≠ [] ∧ ∃ b, canCollapseSelf (env.funcInverse f) as = .ok b

/-- A call collapses when its first argument is a call with one argument. -/
theorem shape_of_canCollapseSelf {inverse : String} {as : List Exp} (hne : as ≠ [])
    (h : canCollapseSelf inverse as = .ok true) : ∃ k c g saved j es, as = .mk k [.ufCall c g [saved] j] :: es := by
  cases as with
  | nil => exact absurd rfl hne
  | cons arg rest =>
    unfold canCollapseSelf at h
    rw [Outcome.bind_eq_ok] at h
    obtain ⟨o, ho, h⟩ := h
    unfold Exp.nestedParam at ho
    split at ho
    · next c g args j hterm =>
      obtain ⟨k, ts⟩ := arg
      have hts : ts = [.ufCall c g args j] := by
        unfold Exp.getTerm at hterm
        split at hterm
        · next t ht => rw [Exp.terms_mk] at ht; rw [ht, Option.some.inj hterm]
        · cases hterm
      split_ifs at ho with hg hj
      · cases ho; cases h
      · cases ho; cases h
      · split at ho
        · next saved => exact ⟨k, c, g, saved, j, rest, by rw [hts]⟩
        · cases ho
    · cases ho; cases h

mutual
theorem Term.exists_collapse : ∀ {t : Term}, t.AllCalls (fun f _ as => Decides env f as) →
    ∃ e, t.collapseNestedInvertibleFunctions env = .ok e
  | .ufCall c f as i, h => by
    obtain ⟨⟨hne, b, hb⟩, has⟩ := h
    unfold Term.collapseNestedInvertibleFunctions
    simp only [hb, Outcome.bind_eq_ok, Except.ok.injEq, exists_eq_left']
    cases b with
    | false =>
      obtain ⟨as', has'⟩ := exists_argsCollapse has
      exact ⟨_, by rw [if_neg Bool.false_ne_true, Outcome.bind_eq_ok]; exact ⟨as', has', rfl⟩⟩
    | true =>
      obtain ⟨k, c', g, saved, j, es, rfl⟩ := shape_of_canCollapseSelf hne hb
      obtain ⟨e, he⟩ := Exp.exists_collapse has.1.1.2.1
      exact ⟨_, by rw [if_pos rfl]; exact Outcome.bind_eq_ok.2 ⟨e, he, rfl⟩⟩
  | .tupleVar .., _ | .symConst .., _ | .constVal _, _ | .tupleExp .., _ => ⟨_, rfl⟩

theorem Exp.exists_collapse : ∀ {e : Exp}, e.AllCalls (fun f _ as => Decides env f as) →
    ∃ d, e.collapseNestedInvertibleFunctions env = .ok d
  | .mk _ _, h => exists_termsCollapse h

theorem exists_argsCollapse : ∀ {es : List Exp}, argsAllCalls (fun f _ as => Decides env f as) es →
    ∃ ds, argsCollapse env es = .ok ds
  | [], _ => ⟨[], rfl⟩
  | e :: es, h => by
    obtain ⟨d, hd⟩ := Exp.exists_collapse h.1
    obtain ⟨ds, hds⟩ := exists_argsCollapse h.2
    exact ⟨d :: ds, by simp only [argsCollapse, Outcome.bind_eq_ok]; exact ⟨d, hd, ds, hds, rfl⟩⟩

theorem exists_termsCollapse : ∀ {ts : List Term} {acc : Exp}, termsAllCalls (fun f _ as => Decides env f as) ts →
    ∃ d, termsCollapse env ts acc = .ok d
  | [], acc, _ => ⟨acc, rfl⟩
  | t :: ts, acc, h => by
    obtain ⟨e, he⟩ := Term.exists_collapse h.1
    obtain ⟨d, hd⟩ : ∃ d, termsCollapse env ts (acc.addExp e) = .ok d := exists_termsCollapse h.2
    exact ⟨d, by simp only [termsCollapse, Outcome.bind_eq_ok]; exact ⟨e, he, hd⟩⟩
end

theorem Term.AllCalls.setCoefficient {P : String → Option Nat → List Exp → Prop} {t : Term} (c : Int)
    (h : t.AllCalls P) : (t.setCoefficient c).AllCalls P := by
  cases t <;> exact h

theorem Exp.AllCalls.normalize {P : String → Option Nat → List Exp → Prop} {e : Exp} (h : e.AllCalls P) :
    e.normalizeForEquality.AllCalls P := by
  rw [Exp.allCalls_iff] at h ⊢
  intro t ht
  obtain ⟨c, u, hu, rfl⟩ := terms_normalizeForEquality e t ht
  exact (h u hu).setCoefficient c

theorem Conjunction.exists_cleanUp {c : Conjunction} (h : c.AllCalls (fun f _ as => Decides env f as)) :
    ∃ d, c.cleanUp env = .ok d :=
  Conjunction.cleanUp_returns (fun e he => Exp.exists_collapse (h e (List.mem_append_left _ he)).normalize)
    (fun e he => Exp.exists_collapse (h e (List.mem_append_right _ he)))

end Runs

/-! ## The tuples of a copy -/

section Denotes

variable {env : Environment} {I : Interp}

/-- A conjunction that is cleaned up without a failure and without a change of value: names can be read back, each
call is used for its components or as an integer, and a call that collapses has the value of what it becomes. -/
structure Conjunction.Cleanable (env : Environment) (I : Interp) (c : Conjunction) : Prop where
  readable : c.readable = true
  fits : c.Fits I.cod (fun _ => True) (fun _ => True) (fun _ _ _ => True)
  decides : c.AllCalls (fun f _ as => Decides env f as)
  keeps : ∀ τ, c.CollapseKeeps env I τ

theorem readable_of_built {c : Conjunction} (h : c.Built) : c.readable = true :=
  Conjunction.readable_iff.2 ⟨fun e he => (h.equalities e he).1.readable, fun e he => (h.inequalities e he).readable⟩

/-- Cleaning up keeps the tuples of a conjunction. -/
theorem Conjunction.Cleanable.denote {c d : Conjunction} (hc : c.Cleanable env I) (h : c.cleanUp env = .ok d) :
    d.readable = true ∧ d.denote I = c.denote I := by
  have hdecl : d.tupleDecl = c.tupleDecl := by
    obtain ⟨eqs, ineqs, -, -, rfl⟩ := cleanUp_eq_ok h
    rfl
  refine ⟨readable_of_built (built_cleanUp hc.readable h), ?_⟩
  ext t
  have hiff := (Conjunction.cleanUp_keeps (τ := valuation t) (fun _ _ _ _ _ _ => trivial) hc.readable hc.fits
    (hc.keeps (valuation t)) h).1
  show d.tupleDecl.Admits t ∧ d.Holds I (valuation t) ↔ c.tupleDecl.Admits t ∧ c.Holds I (valuation t)
  rw [hiff, hdecl]

/-- Cleaning up a conjunction returns one with the same tuples. -/
structure Conjunction.CleansRight (env : Environment) (I : Interp) (c : Conjunction) : Prop where
  readable : c.readable = true
  denotes : ∃ d, c.cleanUp env = .ok d ∧ d.denote I = c.denote I

theorem Conjunction.Cleanable.cleansRight {c : Conjunction} (h : c.Cleanable env I) : c.CleansRight env I := by
  obtain ⟨d, hd⟩ := Conjunction.exists_cleanUp h.decides
  exact ⟨h.readable, d, hd, (h.denote hd).2⟩

/-- Cleaning up keeps the tuples of a union. -/
theorem cleanUp_denotes {cs : List Conjunction} (hcs : ∀ c ∈ cs, c.CleansRight env I) : ∃ ds,
    cleanUp env cs = .ok ds ∧ (∀ d ∈ ds, d.readable = true) ∧ denoteUnion I ds = denoteUnion I cs := by
  have hden : ∀ {c d : Conjunction}, c ∈ cs → c.cleanUp env = .ok d → d.denote I = c.denote I := by
    intro c d hc hd
    obtain ⟨d', hd', h⟩ := (hcs c hc).denotes
    obtain rfl : d = d' := Except.ok.inj (hd.symm.trans hd')
    exact h
  obtain ⟨cs', hm⟩ := Outcome.exists_mapM fun c hc => (hcs c hc).denotes.imp fun d h => h.1
  have hclean : cleanUp env cs = .ok ((cs'.filter Conjunction.satisfiable).insertionSort (fun a b => b.lt a = false)) := by
    unfold cleanUp
    rw [Outcome.bind_eq_ok]
    exact ⟨cs', hm, rfl⟩
  refine ⟨_, hclean, fun d hd => ?_, ?_⟩
  · obtain ⟨c, hc, hcd⟩ := exists_of_mem_cleanUp hclean hd
    exact readable_of_built (built_cleanUp (hcs c hc).readable hcd)
  · ext t
    constructor
    · rintro ⟨d, hd, ht⟩
      obtain ⟨c, hc, hcd⟩ := exists_of_mem_cleanUp hclean hd
      rw [hden hc hcd] at ht
      exact ⟨c, hc, ht⟩
    · rintro ⟨c, hc, ht⟩
      obtain ⟨d, hcd, h⟩ := (hcs c hc).denotes
      rw [← h] at ht
      exact ⟨d, mem_cleanUp hclean hc hcd ht.2.satisfiable, ht⟩

/-- A copy has the tuples of the conjunctions that stay. -/
theorem copyConjunctions_kept {cs : List Conjunction} (hcs : ∀ c ∈ cs, c.CleansRight env I) : ∃ ds,
    copyConjunctions env cs = .ok ds ∧ (∀ d ∈ ds, d.readable = true) ∧
      denoteUnion I ds = denoteUnion I (kept Conjunction.hasConstraints cs) := by
  have hmem : ∀ c ∈ cs.foldl addConjunction [], c.CleansRight env I := by
    rw [foldl_addConjunction_eq_build]
    exact fun c hc => hcs c (mem_of_mem_copied hc)
  obtain ⟨ds, hds, hread, hden⟩ := cleanUp_denotes hmem
  exact ⟨ds, hds, hread, hden.trans (Set.ext fun t => mem_denoteUnion_foldl fun c hc => (hcs c hc).readable)⟩

theorem copyConjunctions_denotes {cs : List Conjunction} (hcs : ∀ c ∈ cs, c.CleansRight env I) : ∃ ds,
    copyConjunctions env cs = .ok ds ∧ (∀ d ∈ ds, d.readable = true) ∧
      (denoteUnion I ds = denoteUnion I cs ↔ LosesNothingIn I cs) := by
  obtain ⟨ds, hds, hread, hden⟩ := copyConjunctions_kept hcs
  exact ⟨ds, hds, hread, by rw [hden, kept_denote_iff]⟩

/-- Unions that neither comes before the other have the same tuples. -/
theorem denoteUnion_of_tied {cs ds : List Conjunction} (hcs : ∀ c ∈ cs, c.comparable = true)
    (hds : ∀ d ∈ ds, d.comparable = true) (h : Tied conjunctionsLt cs ds) : denoteUnion I cs = denoteUnion I ds := by
  have hall : List.Forall₂ (Tied Conjunction.lt) cs ds := SortedList.tied_sizeLexLt.1 h
  ext t
  constructor
  · rintro ⟨c, hc, ht⟩
    obtain ⟨d, hd, htied⟩ := Outcome.exists_of_mem_forall₂ hall.flip hc
    exact ⟨d, hd, Conjunction.denote_of_tied (hcs c hc) (hds d hd) htied ht⟩
  · rintro ⟨d, hd, ht⟩
    obtain ⟨c, hc, htied⟩ := Outcome.exists_of_mem_forall₂ hall hd
    exact ⟨c, hc, Conjunction.denote_of_tied (hds d hd) (hcs c hc) htied.symm ht⟩

theorem Set.lt_eq {s t : Set} {cs ds : List Conjunction} (hs : copyConjunctions env s.conjunctions = .ok cs)
    (ht : copyConjunctions env t.conjunctions = .ok ds) (ha : s.arity = t.arity) :
    s.lt env t = .ok (conjunctionsLt cs ds) := by
  unfold Set.lt
  rw [if_neg ha.not_lt, if_neg ha.not_gt, hs, ht]
  rfl

/-- Sets that `operator==` finds equal are of one arity, and their copies are tied. -/
theorem Set.tied_of_eq {s t : Set} {cs ds : List Conjunction} (hs : copyConjunctions env s.conjunctions = .ok cs)
    (ht : copyConjunctions env t.conjunctions = .ok ds) (h : s.eq env t = .ok true) :
    s.arity = t.arity ∧ Tied conjunctionsLt cs ds := by
  obtain ⟨h₁, h₂⟩ := Outcome.neither_eq_ok.1 h
  rcases lt_trichotomy s.arity t.arity with hlt | heq | hgt
  · simp [Set.lt, hlt] at h₁
  · rw [Set.lt_eq hs ht heq, Except.ok.injEq] at h₁
    rw [Set.lt_eq ht hs heq.symm, Except.ok.injEq] at h₂
    exact ⟨heq, h₁, h₂⟩
  · simp [Set.lt, hgt] at h₂

theorem Relation.lt_eq {r q : Relation} {cs ds : List Conjunction} (hr : copyConjunctions env r.conjunctions = .ok cs)
    (hq : copyConjunctions env q.conjunctions = .ok ds) (hi : r.inArity = q.inArity) (ho : r.outArity = q.outArity) :
    r.lt env q = .ok (conjunctionsLt cs ds) := by
  unfold Relation.lt
  rw [if_neg hi.not_lt, if_neg hi.not_gt, if_neg ho.not_lt, if_neg ho.not_gt, hr, hq]
  rfl

theorem Relation.tied_of_eq {r q : Relation} {cs ds : List Conjunction}
    (hr : copyConjunctions env r.conjunctions = .ok cs) (hq : copyConjunctions env q.conjunctions = .ok ds)
    (h : r.eq env q = .ok true) : (r.inArity = q.inArity ∧ r.outArity = q.outArity) ∧ Tied conjunctionsLt cs ds := by
  obtain ⟨h₁, h₂⟩ := Outcome.neither_eq_ok.1 h
  rcases lt_trichotomy r.inArity q.inArity with hlt | heq | hgt
  · simp [Relation.lt, hlt] at h₁
  · rcases lt_trichotomy r.outArity q.outArity with hlt | heq' | hgt
    · simp [Relation.lt, heq, hlt] at h₁
    · rw [Relation.lt_eq hr hq heq heq', Except.ok.injEq] at h₁
      rw [Relation.lt_eq hq hr heq.symm heq'.symm, Except.ok.injEq] at h₂
      exact ⟨⟨heq, heq'⟩, h₁, h₂⟩
    · simp [Relation.lt, heq, hgt] at h₂
  · simp [Relation.lt, hgt] at h₂

theorem Set.copy_denote_iff {s : Set} (hs : ∀ c ∈ s.conjunctions, c.CleansRight env I) : ∃ s', s.copy env = .ok s' ∧
    s'.arity = s.arity ∧ (s'.denote I = s.denote I ↔ LosesNothingIn I s.conjunctions) := by
  obtain ⟨ds, hds, -, hiff⟩ := copyConjunctions_denotes hs
  refine ⟨⟨s.arity, ds⟩, ?_, rfl, hiff⟩
  unfold Set.copy
  rw [hds]
  rfl

theorem Relation.copy_denote_iff {r : Relation} (hr : ∀ c ∈ r.conjunctions, c.CleansRight env I)
    (hw : r.wellFormed = true) : ∃ r', r.copy env = .ok r' ∧ (r'.inArity = r.inArity ∧ r'.outArity = r.outArity) ∧
      (r'.denote I = r.denote I ↔ LosesNothingIn I r.conjunctions) := by
  obtain ⟨ds, hds, -, hiff⟩ := copyConjunctions_denotes hr
  refine ⟨⟨r.inArity, r.outArity, ds⟩, ?_, ⟨rfl, rfl⟩, hiff⟩
  unfold Relation.copy
  rw [foldlM_addConjunction (wellFormed_iff.1 hw)]
  exact Outcome.bind_eq_ok.2 ⟨_, rfl, Outcome.bind_eq_ok.2 ⟨ds, hds, rfl⟩⟩

/-- The tuples of unions that `operator==` finds equal, when copying loses none of either. -/
theorem denoteUnion_of_copies_tied {cs ds cs' ds' : List Conjunction} (hc : ∀ c ∈ cs, c.CleansRight env I)
    (hd : ∀ d ∈ ds, d.CleansRight env I) (hcs : copyConjunctions env cs = .ok cs') (hds : copyConjunctions env ds = .ok ds')
    (hlc : LosesNothingIn I cs) (hld : LosesNothingIn I ds) (h : Tied conjunctionsLt cs' ds') :
    denoteUnion I cs = denoteUnion I ds := by
  obtain ⟨cs₁, hcs₁, hrc, hdc⟩ := copyConjunctions_denotes hc
  obtain ⟨ds₁, hds₁, hrd, hdd⟩ := copyConjunctions_denotes hd
  obtain rfl : cs' = cs₁ := Except.ok.inj (hcs.symm.trans hcs₁)
  obtain rfl : ds' = ds₁ := Except.ok.inj (hds.symm.trans hds₁)
  rw [← hdc.2 hlc, ← hdd.2 hld]
  exact denoteUnion_of_tied (fun c hc => Conjunction.comparable_of_readable (hrc c hc))
    (fun d hd => Conjunction.comparable_of_readable (hrd d hd)) h

end Denotes

/-- A copy, of a set or of a relation, has the arity and the tuples of the original iff no tuple is lost with a
conjunction that gave way; and then what `operator==` finds equal has the same tuples. -/
theorem copy_denotes (env : Environment) (I : Interp) (s t : Set) (r q : Relation)
    (hs : ∀ c ∈ s.conjunctions, c.Cleanable env I) (ht : ∀ c ∈ t.conjunctions, c.Cleanable env I)
    (hr : ∀ c ∈ r.conjunctions, c.Cleanable env I) (hq : ∀ c ∈ q.conjunctions, c.Cleanable env I)
    (hw : r.wellFormed = true) :
    ((∃ s', s.copy env = .ok s' ∧ s'.arity = s.arity ∧ (s'.denote I = s.denote I ↔ LosesNothingIn I s.conjunctions)) ∧
      (s.eq env t = .ok true → LosesNothingIn I s.conjunctions → LosesNothingIn I t.conjunctions →
        s.arity = t.arity ∧ s.denote I = t.denote I)) ∧
    (∃ r', r.copy env = .ok r' ∧ (r'.inArity = r.inArity ∧ r'.outArity = r.outArity) ∧
        (r'.denote I = r.denote I ↔ LosesNothingIn I r.conjunctions)) ∧
      (r.eq env q = .ok true → LosesNothingIn I r.conjunctions → LosesNothingIn I q.conjunctions →
        (r.inArity = q.inArity ∧ r.outArity = q.outArity) ∧ r.denote I = q.denote I) := by
  have hs' := fun c hc => (hs c hc).cleansRight
  have ht' := fun c hc => (ht c hc).cleansRight
  have hr' := fun c hc => (hr c hc).cleansRight
  have hq' := fun c hc => (hq c hc).cleansRight
  refine ⟨⟨Set.copy_denote_iff hs', fun h hls hlt => ?_⟩, Relation.copy_denote_iff hr' hw, fun h hlr hlq => ?_⟩
  · obtain ⟨cs, hcs, -⟩ := copyConjunctions_denotes hs'
    obtain ⟨ds, hds, -⟩ := copyConjunctions_denotes ht'
    obtain ⟨ha, htied⟩ := Set.tied_of_eq hcs hds h
    exact ⟨ha, denoteUnion_of_copies_tied hs' ht' hcs hds hls hlt htied⟩
  · obtain ⟨cs, hcs, -⟩ := copyConjunctions_denotes hr'
    obtain ⟨ds, hds, -⟩ := copyConjunctions_denotes hq'
    obtain ⟨ha, htied⟩ := Relation.tied_of_eq hcs hds h
    exact ⟨ha, denoteUnion_of_copies_tied hr' hq' hcs hds hlr hlq htied⟩

/-- `{ [j] }` -/
def wholeSet : Set := ⟨1, [.ofTupleDecl ⟨[⟨false, 0, "j"⟩]⟩]⟩

/-- Functions that give their arguments back, and symbolic constants that are zero. -/
def identityInterp : Interp := ⟨fun _ => 0, fun _ x => x, fun _ => 1, fun _ => 1⟩

theorem not_mem_symbolSet : [1] ∉ symbolSet.denote identityInterp := by
  rintro ⟨c, hc, -, heq, -⟩
  obtain rfl : c = symbolConj := by simpa [symbolSet] using hc
  have h := heq _ (List.mem_singleton.2 rfl) 0
  simp [identityInterp, Exp.val, Term.val, valuation] at h

/-- In the union of `{ [i] : i - n = 0 }` and `{ [j] }` the second comes first, and a copy takes it for the placeholder. -/
theorem copy_loses : ∃ u s', symbolSet.Union wholeSet = .ok u ∧ u.copy ⟨[], [], []⟩ = .ok s' ∧
    u.eq ⟨[], [], []⟩ symbolSet = .ok true ∧ ∃ I, s'.denote I ≠ u.denote I ∧ u.denote I ≠ symbolSet.denote I := by
  refine ⟨⟨1, [.ofTupleDecl ⟨[⟨false, 0, "j"⟩]⟩, symbolConj]⟩, symbolSet, rfl, rfl, rfl, identityInterp, ?_⟩
  have hmem : [1] ∈ (Set.mk 1 [.ofTupleDecl ⟨[⟨false, 0, "j"⟩]⟩, symbolConj]).denote identityInterp := by
    refine ⟨.ofTupleDecl ⟨[⟨false, 0, "j"⟩]⟩, List.mem_cons_self, (mem_denote_of_unconstrained rfl).2 ⟨rfl, ?_⟩⟩
    intro i hi hc
    obtain rfl : i = 0 := Nat.lt_one_iff.1 hi
    cases hc
  exact ⟨fun h => not_mem_symbolSet (h ▸ hmem), fun h => not_mem_symbolSet (h ▸ hmem)⟩

/-- `f` and `f_inv` undo each other. -/
def inverseEnv : Environment := ⟨[], [("f", "f_inv"), ("f_inv", "f")], []⟩

/-- `[i] : n - f(f_inv(i)) = 0` -/
def undoneConj : Conjunction :=
  ⟨[.mk .equality [.symConst 1 "n", .ufCall (-1) "f" [.ofTerm (.ufCall 1 "f_inv" [.ofTerm (.tupleVar 1 0)] none)] none]],
    [], ⟨[⟨false, 0, "i"⟩]⟩, 0⟩

theorem cleanable_undoneConj : undoneConj.Cleanable inverseEnv identityInterp := by
  refine ⟨by decide, ?_, ?_, ?_⟩
  · intro e he
    obtain rfl : e = _ := List.mem_singleton.1 he
    refine ⟨false, trivial, fun t ht => ?_⟩
    simp only [Exp.terms_mk, List.mem_cons, List.not_mem_nil, or_false] at ht
    rcases ht with rfl | rfl
    · exact ⟨rfl, trivial⟩
    · refine ⟨⟨fun _ => rfl, fun _ => rfl⟩, ?_⟩
      simp [Term.Fits, argsFits, Exp.ofTerm, Exp.Fits, termsFits, Term.UsedAs, identityInterp]
  · intro e he
    obtain rfl : e = _ := List.mem_singleton.1 he
    have hf : Decides inverseEnv "f" [.ofTerm (.ufCall 1 "f_inv" [.ofTerm (.tupleVar 1 0)] none)] :=
      ⟨by simp, true, rfl⟩
    have hg : Decides inverseEnv "f_inv" [.ofTerm (.tupleVar 1 0)] := ⟨by simp, false, rfl⟩
    exact ⟨trivial, ⟨hf, ⟨⟨hg, ⟨trivial, trivial⟩, trivial⟩, trivial⟩, trivial⟩, trivial⟩
  · intro τ e he
    obtain rfl : e = _ := List.mem_singleton.1 he
    refine ⟨trivial, ⟨⟨⟨⟨⟨⟨trivial, trivial⟩, trivial⟩, ?_⟩, trivial⟩, trivial⟩, ?_⟩, trivial⟩
    · intro h
      cases h
    · intro _ saved hs
      obtain rfl : _ = saved := Option.some.inj hs
      refine ⟨fun k => ?_, fun v hv u hu => ?_⟩
      · cases k <;>
          simp [Exp.ofTerm, Term.val, Exp.val, argsVal, Interp.callVal, Interp.argTuple, identityInterp]
      · rw [List.mem_singleton.1 hu]
        exact hv.2 rfl

theorem copy_denotes_undone : (∃ s', (Set.mk 1 [undoneConj]).copy inverseEnv = .ok s' ∧
    s'.denote identityInterp = (Set.mk 1 [undoneConj]).denote identityInterp) := by
  have hc : ∀ c ∈ [undoneConj], c.Cleanable inverseEnv identityInterp := by
    intro c hc
    rw [List.mem_singleton.1 hc]
    exact cleanable_undoneConj
  obtain ⟨⟨⟨s', hs', -, h⟩, -⟩, -⟩ := copy_denotes inverseEnv identityInterp ⟨1, [undoneConj]⟩ ⟨1, [undoneConj]⟩
    (.ofArity 1 1) (.ofArity 1 1) hc hc (by simp [Relation.ofArity]) (by simp [Relation.ofArity]) rfl
  exact ⟨s', hs', h.2 (by simp [LosesNothingIn, replaced])⟩

end IEGen
