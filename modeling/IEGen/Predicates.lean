import IEGen.Expensive
import IEGen.Inside

/-!
# Removing uninterpreted predicates

`removeUPs` builds a conjunction anew without the equalities that have a symbolic constant and a constant of their own (or
a single term), and assigns a set of this conjunction. The visitor has one new conjunction at a time and adds it to the new
set when the whole set has been visited, so the new set is made of the last conjunction alone.

* `newSet_eq` says what a visit leaves.
* `removeUPs_iff`: the result contains the set and no constraint is lost that is to be kept exactly where the last
  conjunction has the constraints of all others that are to be kept, and their tuples satisfy what is left of it.
-/

namespace IEGen

open Outcome (bind_eq_ok)

/-! ## The visitor -/

/-- `VisitorRmvUPs`: whether `vt` points to a constant, and the conjunction that is built, when there is one. -/
structure VisitorRmvUPs where
  vt : Bool
  ct : Int
  UFnestLevel : Int
  newConj : Option Conjunction

namespace VisitorRmvUPs

/-- `preVisitUFCallTerm`, and `preVisitTerm`, which is for constants. -/
def preVisitTerm (t : Term) (v : VisitorRmvUPs) : VisitorRmvUPs :=
  match t with
  | .ufCall .. => { v with UFnestLevel := v.UFnestLevel + 1 }
  | .constVal c => if v.UFnestLevel = 0 then { v with ct := c } else v
  | _ => v

/-- `postVisitUFCallTerm` and `postVisitVarTerm` -/
def postVisitTerm (t : Term) (v : VisitorRmvUPs) : VisitorRmvUPs :=
  match t with
  | .ufCall .. => { v with UFnestLevel := v.UFnestLevel - 1 }
  | .symConst .. => if v.UFnestLevel = 0 then { v with vt := true } else v
  | _ => v

def preVisitExp (v : VisitorRmvUPs) : VisitorRmvUPs :=
  if v.UFnestLevel = 0 then { v with vt := false, ct := -100 } else v

/-- `postVisitExp`; `getTerm` gives the term of an expression that has only one. -/
def postVisitExp (e : Exp) (v : VisitorRmvUPs) : Except Failure VisitorRmvUPs :=
  if v.UFnestLevel > 0 then .ok v
  else
    let v := if e.terms.length = 1 then { v with ct := 0 } else v
    if v.vt && v.ct != -100 && e.expType == .equality then .ok v
    else match v.newConj with
      | none => .error .undefined
      | some c => .ok { v with newConj := some (if e.expType = .inequality then c.addInequality e else c.addEquality e) }

def preVisitConjunction (c : Conjunction) (v : VisitorRmvUPs) : VisitorRmvUPs :=
  { v with newConj := some (.ofTupleDecl c.tupleDecl) }

def visitor : Visitor VisitorRmvUPs where
  preVisitTerm := fun t v => .ok (preVisitTerm t v)
  postVisitTerm := fun t v => .ok (postVisitTerm t v)
  preVisitExp := fun _ v => .ok (preVisitExp v)
  postVisitExp := postVisitExp
  preVisitConjunction := fun c v => .ok (preVisitConjunction c v)

end VisitorRmvUPs

/-- The conjunctions of `newSet`, to which `postVisitSet` adds `newConj`; it was never set when there is no conjunction. -/
def Set.newSet (s : Set) : Except Failure (List Conjunction) := do
  let v ← acceptVisitor VisitorRmvUPs.visitor s.conjunctions ⟨false, -100, 0, none⟩
  match v.newConj with
  | none => .error .undefined
  | some newConj => .ok (addConjunction (Set.ofArity s.arity).conjunctions newConj)

/-- `removeUPs`, which assigns the new set. -/
def Set.removeUPs (env : Environment) (s : Set) : Except Failure Set := do
  .ok ⟨s.arity, ← copyConjunctions env (← s.newSet)⟩

/-! ## What a visit leaves -/

/-- The term is a symbolic constant. -/
def Term.isSymConst : Term → Bool
  | .symConst .. => true
  | _ => false

/-- A symbolic constant is one of the terms. -/
def Exp.hasSymConst (e : Exp) : Bool := e.terms.any Term.isSymConst

/-- The last constant of a list of terms. -/
def lastConst (ct : Int) (ts : List Term) : Int := ts.foldl (fun ct t => if t.isConst then t.coefficient else ct) ct

/-- `removeUPs` takes the equality for an uninterpreted predicate; `-100` stands for no constant. -/
def Exp.isUP (e : Exp) : Bool := e.hasSymConst && (if e.terms.length = 1 then 0 else lastConst (-100) e.terms) != -100

/-- A conjunction without the equalities that are removed. -/
def Conjunction.withoutUPs (c : Conjunction) : Conjunction := { c with equalities := c.equalities.filter (fun e => !e.isUP) }

namespace VisitorRmvUPs

/-- Inside of a call nothing changes. -/
theorem ignoresInside : visitor.IgnoresInside (fun v => 0 < v.UFnestLevel) where
  term t v h := by
    have hne : v.UFnestLevel ≠ 0 := h.ne'
    cases t with
    | ufCall c f as i =>
      refine ⟨{ v with UFnestLevel := v.UFnestLevel + 1 }, rfl, by dsimp only; omega, congrArg Except.ok ?_⟩
      simp [postVisitTerm]
    | constVal c => exact ⟨v, congrArg Except.ok (if_neg hne), h, rfl⟩
    | symConst c f => exact ⟨v, rfl, h, congrArg Except.ok (if_neg hne)⟩
    | tupleVar c l => exact ⟨v, rfl, h, rfl⟩
    | tupleExp c es => exact ⟨v, rfl, h, rfl⟩
  exp e _ v h := ⟨v, congrArg Except.ok (if_neg h.ne'), h, if_pos h⟩

/-- What the terms of a constraint do. -/
def see (ts : List Term) (v : VisitorRmvUPs) : VisitorRmvUPs :=
  { v with vt := v.vt || ts.any Term.isSymConst, ct := lastConst v.ct ts }

theorem accept_term {t : Term} (hp : ∀ e ∈ t.arguments, e.expType = .expression) {v : VisitorRmvUPs}
    (h : v.UFnestLevel = 0) : t.acceptVisitor visitor v = .ok (see [t] v) := by
  cases t with
  | ufCall c f as i =>
    have hargs := ignoresInside.accept_args (s := { v with UFnestLevel := v.UFnestLevel + 1 }) hp
      (by show 0 < v.UFnestLevel + 1; omega)
    refine bind_eq_ok.2 ⟨_, rfl, bind_eq_ok.2 ⟨_, hargs, congrArg Except.ok ?_⟩⟩
    simp [postVisitTerm, see, Term.isSymConst, lastConst, Term.isConst]
  | constVal c =>
    refine bind_eq_ok.2 ⟨_, congrArg Except.ok (if_pos h), congrArg Except.ok ?_⟩
    simp [postVisitTerm, see, Term.isSymConst, lastConst, Term.isConst, Term.coefficient]
  | symConst c f =>
    refine bind_eq_ok.2 ⟨v, rfl, congrArg Except.ok ?_⟩
    simp [postVisitTerm, h, see, Term.isSymConst, lastConst, Term.isConst]
  | tupleVar | tupleExp =>
    refine bind_eq_ok.2 ⟨v, rfl, congrArg Except.ok ?_⟩
    simp [postVisitTerm, see, Term.isSymConst, lastConst, Term.isConst]

theorem accept_terms {ts : List Term} (hp : ∀ e ∈ termsArguments ts, e.expType = .expression) {v : VisitorRmvUPs}
    (h : v.UFnestLevel = 0) : termsAcceptVisitor visitor ts v = .ok (see ts v) := by
  induction ts generalizing v with
  | nil => simp [termsAcceptVisitor, see, lastConst]
  | cons t ts ih =>
    obtain ⟨ht, hts⟩ := List.forall_mem_append.1 hp
    refine bind_eq_ok.2 ⟨_, accept_term ht h, (ih hts (v := see [t] v) h).trans ?_⟩
    simp [see, lastConst, Bool.or_assoc]

/-- What a constraint does to the conjunction that is built. -/
def addKept (c : Conjunction) (e : Exp) : Conjunction :=
  if e.isUP && e.expType == .equality then c
  else if e.expType = .inequality then c.addInequality e else c.addEquality e

theorem accept_constraint {e : Exp} (hp : ∀ d ∈ e.arguments, d.expType = .expression) {v : VisitorRmvUPs} {c : Conjunction}
    (h : v.UFnestLevel = 0) (hc : v.newConj = some c) : ∃ v', e.acceptVisitor visitor v = .ok v' ∧ v'.UFnestLevel = 0 ∧
      v'.newConj = some (addKept c e) := by
  obtain ⟨k, ts⟩ := e
  have hterms := accept_terms (v := { v with vt := false, ct := -100 }) hp h
  have hpost : ∃ v', postVisitExp (.mk k ts) (see ts { v with vt := false, ct := -100 }) = .ok v' ∧ v'.UFnestLevel = 0 ∧
      v'.newConj = some (addKept c (.mk k ts)) := by
    have hlevel : ¬ (see ts { v with vt := false, ct := -100 }).UFnestLevel > 0 := by simp [see, h]
    have hup : (Exp.mk k ts).isUP = (ts.any Term.isSymConst && (if ts.length = 1 then 0 else lastConst (-100) ts) != -100) := rfl
    rw [postVisitExp, if_neg hlevel]
    simp only [addKept, hup, Exp.terms, Exp.expType]
    by_cases hlen : ts.length = 1
    · simp only [if_pos hlen, see, Bool.false_or, hc]
      split_ifs with hkeep
      · exact ⟨_, rfl, h, rfl⟩
      · exact ⟨_, rfl, h, rfl⟩
      · exact ⟨_, rfl, h, rfl⟩
    · simp only [if_neg hlen, see, Bool.false_or, hc]
      split_ifs with hkeep
      · exact ⟨_, rfl, h, rfl⟩
      · exact ⟨_, rfl, h, rfl⟩
      · exact ⟨_, rfl, h, rfl⟩
  obtain ⟨v', hv', hrest⟩ := hpost
  exact ⟨v', bind_eq_ok.2 ⟨_, congrArg Except.ok (if_pos h), bind_eq_ok.2 ⟨_, hterms, hv'⟩⟩, hrest⟩

theorem accept_constraints {es : List Exp} (hp : ∀ e ∈ es, ∀ d ∈ e.arguments, d.expType = .expression)
    {v : VisitorRmvUPs} {c : Conjunction} (h : v.UFnestLevel = 0) (hc : v.newConj = some c) :
    ∃ v', es.foldlM (fun s e => e.acceptVisitor visitor s) v = .ok v' ∧ v'.UFnestLevel = 0 ∧
      v'.newConj = some (es.foldl addKept c) := by
  induction es generalizing v c with
  | nil => exact ⟨v, rfl, h, hc⟩
  | cons e es ih =>
    obtain ⟨he, hes⟩ := List.forall_mem_cons.1 hp
    obtain ⟨v₁, hv₁, hlevel, hconj⟩ := accept_constraint he h hc
    obtain ⟨v₂, hv₂, hrest⟩ := ih hes hlevel hconj
    refine ⟨v₂, ?_, hrest⟩
    rw [List.foldlM_cons, hv₁]
    exact hv₂

/-- What is left of the constraints is put together anew. -/
theorem foldl_addKept {c : Conjunction} (hc : c.WellTyped) (b : Conjunction) :
    (c.equalities ++ c.inequalities).foldl addKept b = b.Intersect c.withoutUPs := by
  have heqs : ∀ (es : List Exp) (b : Conjunction), (∀ e ∈ es, e.expType = .equality) →
      es.foldl addKept b = (es.filter (fun e => !e.isUP)).foldl Conjunction.addEquality b := by
    intro es
    induction es with
    | nil => exact fun _ _ => rfl
    | cons e es ih =>
      intro b hk
      obtain ⟨he, hes⟩ := List.forall_mem_cons.1 hk
      have hstep : addKept b e = if e.isUP then b else b.addEquality e := by
        cases hup : e.isUP <;> simp [addKept, hup, he]
      rw [List.foldl_cons, ih _ hes, hstep]
      cases hup : e.isUP <;> simp [hup]
  have hineqs : ∀ (es : List Exp) (b : Conjunction), (∀ e ∈ es, e.expType = .inequality) →
      es.foldl addKept b = es.foldl Conjunction.addInequality b := by
    intro es
    induction es with
    | nil => exact fun _ _ => rfl
    | cons e es ih =>
      intro b hk
      obtain ⟨he, hes⟩ := List.forall_mem_cons.1 hk
      rw [List.foldl_cons, List.foldl_cons, ih _ hes]
      simp [addKept, he]
  rw [List.foldl_append, heqs _ _ hc.typed.1, hineqs _ _ hc.typed.2]
  rfl

theorem accept_conjunction {c : Conjunction} (hc : c.WellTyped) {v : VisitorRmvUPs} (h : v.UFnestLevel = 0) :
    ∃ v', c.acceptVisitor visitor v = .ok v' ∧ v'.UFnestLevel = 0 ∧
      v'.newConj = some ((Conjunction.ofTupleDecl c.tupleDecl).Intersect c.withoutUPs) := by
  obtain ⟨heqs, hineqs⟩ := List.forall_mem_append.1 hc.plain
  obtain ⟨v₁, hv₁, hlevel₁, hconj₁⟩ := accept_constraints (v := preVisitConjunction c v) heqs h rfl
  obtain ⟨v₂, hv₂, hlevel₂, hconj₂⟩ := accept_constraints hineqs hlevel₁ hconj₁
  refine ⟨v₂, bind_eq_ok.2 ⟨_, rfl, bind_eq_ok.2 ⟨v₁, hv₁, bind_eq_ok.2 ⟨v₂, hv₂, rfl⟩⟩⟩, hlevel₂, ?_⟩
  rw [hconj₂, ← List.foldl_append, foldl_addKept hc]

theorem accept_union {cs : List Conjunction} (hcs : ∀ c ∈ cs, c.WellTyped) {v : VisitorRmvUPs} (h : v.UFnestLevel = 0) :
    ∃ v', acceptVisitor visitor cs v = .ok v' ∧ v'.UFnestLevel = 0 ∧
      v'.newConj = (cs.getLast?.map fun c => (Conjunction.ofTupleDecl c.tupleDecl).Intersect c.withoutUPs).or v.newConj := by
  induction cs generalizing v with
  | nil => exact ⟨v, rfl, h, rfl⟩
  | cons c cs ih =>
    obtain ⟨hc, hcs⟩ := List.forall_mem_cons.1 hcs
    obtain ⟨v₁, hv₁, hlevel, hconj⟩ := accept_conjunction hc h
    obtain ⟨v₂, hv₂, hlevel₂, hconj₂⟩ := ih hcs hlevel
    refine ⟨v₂, bind_eq_ok.2 ⟨v₁, hv₁, hv₂⟩, hlevel₂, ?_⟩
    rw [hconj₂, hconj]
    cases cs with
    | nil => rfl
    | cons d cs => rw [List.getLast?_cons_cons, List.getLast?_eq_some_getLast (List.cons_ne_nil d cs)]; rfl

end VisitorRmvUPs

/-- The new set is made of the last conjunction. -/
theorem Set.newSet_eq {s : Set} (hs : ∀ c ∈ s.conjunctions, c.WellTyped) : s.newSet =
    match s.conjunctions.getLast? with
    | none => .error .undefined
    | some c => .ok [(Conjunction.ofTupleDecl c.tupleDecl).Intersect c.withoutUPs] := by
  obtain ⟨v, hv, -, hconj⟩ := VisitorRmvUPs.accept_union hs (v := ⟨false, -100, 0, none⟩) rfl
  unfold Set.newSet
  rw [hv]
  cases hlast : s.conjunctions.getLast? with
  | none =>
    rw [hlast] at hconj
    simp only [Option.map_none, Option.none_or] at hconj
    simp only [bind, Except.bind, hconj]
  | some c =>
    rw [hlast] at hconj
    simp only [Option.map_some, Option.some_or] at hconj
    simp only [bind, Except.bind, hconj]
    rfl

/-! ## What is left of a conjunction -/

section Left

variable {env : Environment} {I : Interp} {c : Conjunction}

theorem Conjunction.Built.withoutUPs (hc : c.Built) : c.withoutUPs.Built :=
  ⟨fun e he => hc.equalities e (List.mem_of_mem_filter he), hc.inequalities, hc.sorted_equalities.filter _,
    hc.sorted_inequalities⟩

/-- The new conjunction has the constraints that are left, as they are. -/
theorem Conjunction.Built.newConj_eq (hc : c.Built) : (Conjunction.ofTupleDecl c.tupleDecl).Intersect c.withoutUPs =
    { c.withoutUPs with inArity := 0 } := by
  rw [intersect_of_built hc.withoutUPs]
  have heqs := SortedList.build_eq_self strictWeak_expLt hc.withoutUPs.sorted_equalities
  have hineqs := SortedList.build_eq_self strictWeak_expLt hc.withoutUPs.sorted_inequalities
  exact congrArg₂ (fun eqs ineqs => Conjunction.mk eqs ineqs c.tupleDecl 0) heqs hineqs

theorem Conjunction.Cleanable.withoutUPs (hc : c.Cleanable env I) :
    Conjunction.Cleanable env I { c.withoutUPs with inArity := 0 } := by
  have hsub : ∀ e ∈ c.withoutUPs.equalities ++ c.withoutUPs.inequalities, e ∈ c.equalities ++ c.inequalities := fun e he =>
    List.mem_append.2 ((List.mem_append.1 he).imp_left List.mem_of_mem_filter)
  obtain ⟨heqs, hineqs⟩ := Conjunction.readable_iff.1 hc.readable
  exact ⟨Conjunction.readable_iff.2 ⟨fun e he => heqs e (List.mem_of_mem_filter he), hineqs⟩,
    fun e he => hc.fits e (hsub e he), fun e he => hc.decides e (hsub e he), fun τ e he => hc.keeps τ e (hsub e he)⟩

theorem Conjunction.denote_subset_withoutUPs (c : Conjunction) : c.denote I ⊆ c.withoutUPs.denote I := by
  rintro t ⟨hadm, heqs, hineqs⟩
  exact ⟨hadm, fun e he => heqs e (List.mem_of_mem_filter he), hineqs⟩

end Left

/-! ## What removing is to do -/

/-- The set `s'` that is assigned from the new conjunctions contains `s`, and no constraint is lost that is to be kept. -/
structure KeepsAllButUPs (I : Interp) (s : Set) (newConjs : List Conjunction) (s' : Set) : Prop where
  contains : s.denote I ⊆ s'.denote I
  keeps : ∀ c ∈ s.conjunctions, ∃ b ∈ newConjs, (∀ e ∈ c.inequalities, e ∈ b.inequalities) ∧
    ∀ e ∈ c.equalities, e.hasSymConst = false → e ∈ b.equalities

/-- The last conjunction has what is to be kept of all conjunctions, and their tuples satisfy what is left of it. -/
def LastHasAll (I : Interp) (cs : List Conjunction) : Prop :=
  ∃ last ∈ cs.getLast?, ∀ c ∈ cs, c.denote I ⊆ last.withoutUPs.denote I ∧ (∀ e ∈ c.inequalities, e ∈ last.inequalities) ∧
    ∀ e ∈ c.equalities, e.hasSymConst = false → e ∈ last.equalities

theorem Exp.isUP_of_not_hasSymConst {e : Exp} (h : e.hasSymConst = false) : e.isUP = false := by
  rw [isUP, h, Bool.false_and]

/-- `removeUPs` ends well and does what it is to do exactly where the last conjunction has it all. -/
theorem Set.removeUPs_iff (env : Environment) (I : Interp) (s : Set) (hb : s.Built)
    (hs : ∀ c ∈ s.conjunctions, c.Cleanable env I) :
    (∃ newConjs s', s.newSet = .ok newConjs ∧ s.removeUPs env = .ok s' ∧ KeepsAllButUPs I s newConjs s') ↔
      LastHasAll I s.conjunctions := by
  have hnew := Set.newSet_eq fun c hc => (hb c hc).wellTyped
  unfold LastHasAll
  cases hlast : s.conjunctions.getLast? with
  | none =>
    rw [hlast] at hnew
    simp [hnew]
  | some last =>
    have hmem : last ∈ s.conjunctions := List.mem_of_getLast? hlast
    rw [hlast] at hnew
    dsimp only at hnew
    rw [(hb last hmem).newConj_eq] at hnew
    have hclean : ∀ d ∈ [{ last.withoutUPs with inArity := 0 }], d.Cleanable env I := fun d hd => by
      rw [List.mem_singleton.1 hd]
      exact (hs last hmem).withoutUPs
    obtain ⟨ds, hds, -, hden⟩ := cleanUp_denotes fun d hd => (hclean d hd).cleansRight
    have hrun : s.removeUPs env = .ok ⟨s.arity, ds⟩ := bind_eq_ok.2 ⟨_, hnew, bind_eq_ok.2 ⟨ds, hds, rfl⟩⟩
    have hres : denoteUnion I ds = last.withoutUPs.denote I := by
      rw [hden]
      ext t
      exact ⟨fun ⟨d, hd, ht⟩ => by rw [List.mem_singleton.1 hd] at ht; exact ht, fun ht => ⟨_, List.mem_singleton.2 rfl, ht⟩⟩
    have hpure : ∀ e, e ∈ last.equalities → e.hasSymConst = false → e ∈ last.withoutUPs.equalities := fun e he h =>
      List.mem_filter.2 ⟨he, by rw [Exp.isUP_of_not_hasSymConst h]; rfl⟩
    constructor
    · rintro ⟨_, _, hn, hr, hcontains, hkeeps⟩
      cases hnew.symm.trans hn
      cases hrun.symm.trans hr
      refine ⟨last, rfl, fun c hc => ⟨fun t ht => ?_, ?_⟩⟩
      · rw [← hres]
        exact hcontains ⟨c, hc, ht⟩
      · obtain ⟨b, hb, hineqs, heqs⟩ := hkeeps c hc
        rw [List.mem_singleton.1 hb] at hineqs heqs
        exact ⟨hineqs, fun e he h => List.mem_of_mem_filter (heqs e he h)⟩
    · rintro ⟨_, hl, hall⟩
      cases hl
      refine ⟨_, _, hnew, hrun, ?_, fun c hc => ⟨_, List.mem_singleton.2 rfl, (hall c hc).2.1, fun e he h => ?_⟩⟩
      · rintro t ⟨c, hc, ht⟩
        show t ∈ denoteUnion I ds
        rw [hres]
        exact (hall c hc).1 ht
      · exact hpure e ((hall c hc).2.2 e he h) h

/-- A set of one conjunction. -/
theorem lastHasAll_singleton (I : Interp) (c : Conjunction) : LastHasAll I [c] := by
  refine ⟨c, rfl, fun d hd => ?_⟩
  rw [List.mem_singleton.1 hd]
  exact ⟨c.denote_subset_withoutUPs, fun _ h => h, fun _ h _ => h⟩

/-- `[i] : -i >= 0` -/
def untilZeroConj : Conjunction := ⟨[], [.mk .inequality [.tupleVar (-1) 0]], ⟨[⟨false, 0, "i"⟩]⟩, 0⟩

/-- Of `{ [i] : -i >= 0 } union { [i] : i - 5 >= 0 }` the second conjunction is left. -/
theorem Set.removeUPs_loses : ∃ s', (Set.mk 1 [untilZeroConj, fromFiveConj]).removeUPs ⟨[], [], []⟩ = .ok s' ∧
    [0] ∈ (Set.mk 1 [untilZeroConj, fromFiveConj]).denote identityInterp ∧ [0] ∉ s'.denote identityInterp := by
  refine ⟨⟨1, [fromFiveConj]⟩, rfl, ⟨untilZeroConj, by simp, ⟨rfl, ?_⟩, by simp [untilZeroConj], ?_⟩, ?_⟩
  · intro i hi hc
    obtain rfl : i = 0 := Nat.lt_one_iff.1 hi
    cases hc
  · intro e he k
    rw [List.mem_singleton.1 he]
    cases k <;> simp [Exp.val, Term.val, valuation]
  · rintro ⟨c, hc, -, -, hineq⟩
    rw [List.mem_singleton.1 hc] at hineq
    have h := hineq _ (List.mem_singleton.2 rfl) 0
    revert h
    decide

/-- `[i] : n - 1 = 0 && i - 5 >= 0` -/
def predicateConj : Conjunction :=
  ⟨[.mk .equality [.symConst 1 "n", .constVal (-1)]], [.mk .inequality [.tupleVar 1 0, .constVal (-5)]],
    ⟨[⟨false, 0, "i"⟩]⟩, 0⟩

theorem Set.removeUPs_iff_predicate : ∃ newConjs s', (Set.mk 1 [predicateConj]).newSet = .ok newConjs ∧
    (Set.mk 1 [predicateConj]).removeUPs ⟨[], [], []⟩ = .ok s' ∧
    KeepsAllButUPs identityInterp (Set.mk 1 [predicateConj]) newConjs s' := by
  have hb : (Set.mk 1 [predicateConj]).Built := by
    intro c hc
    rw [List.mem_singleton.1 hc]
    have hdone : predicateConj.cleanUp ⟨[], [], []⟩ = .ok predicateConj := rfl
    exact built_cleanUp rfl hdone
  refine (Set.removeUPs_iff ⟨[], [], []⟩ identityInterp ⟨1, [predicateConj]⟩ hb fun c hc => ?_).2 (lastHasAll_singleton _ _)
  rw [List.mem_singleton.1 hc]
  have hexp : ∀ e ∈ predicateConj.equalities ++ predicateConj.inequalities,
      e = .mk .equality [.symConst 1 "n", .constVal (-1)] ∨ e = .mk .inequality [.tupleVar 1 0, .constVal (-5)] := by
    intro e he
    simpa [predicateConj] using he
  refine ⟨rfl, fun e he => ⟨false, trivial, ?_⟩, fun e he => ?_, fun τ e he => ?_⟩
  · rcases hexp e he with rfl | rfl <;> simp [Term.Fits, Term.UsedAs]
  · rcases hexp e he with rfl | rfl <;> exact ⟨trivial, trivial, trivial⟩
  · rcases hexp e he with rfl | rfl <;> exact ⟨trivial, trivial, trivial⟩

end IEGen
