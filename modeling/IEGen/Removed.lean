import IEGen.Arguments
import IEGen.Copies
import IEGen.Fixed

/-!
# Removing constraints on a tuple variable in an argument

`removeUFCallConsts` builds the conjunctions of a union anew without the constraints in which a tuple variable is an
argument of a call, and assigns the union of what is left. `numUFCallConstsMustRemove` counts these constraints, and
`removeExpensiveConstraints` removes them variable by variable while there are few.

A conjunction that loses all of its constraints stands for all tuples, but for `addConjunction` it is the placeholder
that gives way to the next conjunction, when the union is built and once more when it is copied.
-/

namespace IEGen

open Outcome (bind_eq_ok)
open SortedList (Tied build)

/-! ## The two visitors -/

/-- What `VisitorNumUFCallConstsMustRemove` and `VisitorRemoveUFCallConsts` do apart from each other, with the other
members as `σ`. -/
structure VisitorOfArguments (σ : Type) where
  mTupleID : Nat
  /-- the end of a constraint, with whether the variable was seen -/
  atConstraint : Exp → Bool → σ → σ
  preVisitConjunction : Conjunction → σ → Except Failure σ := fun _ => .ok
  postVisitConjunction : Conjunction → σ → Except Failure σ := fun _ => .ok

/-- The members. -/
structure ArgumentState (σ : Type) where
  seenTupleVar : Bool
  UFCLevel : Int
  rest : σ

namespace VisitorOfArguments

variable {σ : Type}

/-- `preVisitTupleVarTerm` -/
def preVisitTerm (w : VisitorOfArguments σ) (t : Term) (v : ArgumentState σ) : ArgumentState σ :=
  match t with
  | .tupleVar _ tvloc => if v.UFCLevel > 0 ∧ tvloc = w.mTupleID then { v with seenTupleVar := true } else v
  | _ => v

def preVisitExp (e : Exp) (v : ArgumentState σ) : ArgumentState σ :=
  if e.expType = .expression then { v with UFCLevel := v.UFCLevel + 1 }
  else { v with UFCLevel := 0, seenTupleVar := false }

def postVisitExp (w : VisitorOfArguments σ) (e : Exp) (v : ArgumentState σ) : ArgumentState σ :=
  if e.expType = .expression then { v with UFCLevel := v.UFCLevel - 1 }
  else { v with rest := w.atConstraint e v.seenTupleVar v.rest }

def visitor (w : VisitorOfArguments σ) : Visitor (ArgumentState σ) where
  preVisitTerm := fun t v => .ok (w.preVisitTerm t v)
  preVisitExp := fun e v => .ok (preVisitExp e v)
  postVisitExp := fun e v => .ok (w.postVisitExp e v)
  preVisitConjunction := fun c v => do .ok { v with rest := ← w.preVisitConjunction c v.rest }
  postVisitConjunction := fun c v => do .ok { v with rest := ← w.postVisitConjunction c v.rest }

end VisitorOfArguments

/-- `VisitorNumUFCallConstsMustRemove`, with the count: the constraints in `ignore` are left out. -/
def VisitorNumUFCallConstsMustRemove (mTupleID : Nat) (ignore : List Exp) : VisitorOfArguments Int where
  mTupleID := mTupleID
  atConstraint e seenTupleVar count :=
    if seenTupleVar ∧ ¬ ignore.any (fun d => Tied Exp.lt d e) then count + 1 else count

/-- `numUFCallConstsMustRemove` -/
def numUFCallConstsMustRemove (i : Nat) (ignore : List Exp) (cs : List Conjunction) : Except Failure Int := do
  let v ← acceptVisitor (VisitorNumUFCallConstsMustRemove i ignore).visitor cs ⟨false, 0, 0⟩
  .ok v.rest

/-- `redConj` and `mRedConj` -/
structure ReducedConjunctions where
  redConj : Conjunction
  mRedConj : List Conjunction

/-- `VisitorRemoveUFCallConsts`: the constraints in which the variable was not seen are kept. -/
def VisitorRemoveUFCallConsts (mTupleID : Nat) : VisitorOfArguments ReducedConjunctions where
  mTupleID := mTupleID
  atConstraint e seenTupleVar v :=
    if seenTupleVar then v
    else { v with redConj := if e.expType = .inequality then v.redConj.addInequality e else v.redConj.addEquality e }
  preVisitConjunction c v := do
    .ok { v with redConj := ← (Conjunction.ofTupleDecl c.tupleDecl).setInArity c.inArity }
  postVisitConjunction _ v := .ok { v with mRedConj := v.mRedConj ++ [v.redConj] }

/-- What `VisitorRemoveUFCallConsts` has added up at the end of its visit. -/
def redSparseConstraints (i : Nat) (cs : List Conjunction) : Except Failure (List Conjunction) := do
  let v ← acceptVisitor (VisitorRemoveUFCallConsts i).visitor cs ⟨false, 0, ⟨.ofTupleDecl ⟨[]⟩, []⟩⟩
  .ok (v.rest.mRedConj.foldl addConjunction [])

/-- `removeUFCallConsts`, which assigns the result of the visit. -/
def removeUFCallConsts (env : Environment) (i : Nat) (cs : List Conjunction) : Except Failure (List Conjunction) := do
  copyConjunctions env (← redSparseConstraints i cs)

/-- `removeUFCallConsts` of a relation, whose conjunctions are added with the check of their input arity. -/
def Relation.removeUFCallConsts (env : Environment) (inArity i : Nat) (cs : List Conjunction) :
    Except Failure (List Conjunction) := do
  let result ← redSparseConstraints i cs
  IEGen.cleanUp env (← result.foldlM (addConjunction inArity) [])

section Expensive

variable (remove : Nat → List Conjunction → Except Failure (List Conjunction)) (parallelTvs : List Nat) (ignore : List Exp)

/-- The loop of `removeExpensiveConstraints` over the tuple variables that are left. -/
def removeExpensiveAt : List Nat → Int → List Conjunction → Except Failure (List Conjunction)
  | [], _, cs => .ok cs
  | i :: tvs, mNumConstsToRemove, cs =>
    if i ∈ parallelTvs then removeExpensiveAt tvs mNumConstsToRemove cs
    else do
      let nConstsToRemove ← numUFCallConstsMustRemove i ignore cs
      if nConstsToRemove > mNumConstsToRemove then removeExpensiveAt tvs mNumConstsToRemove cs
      else if 0 ≤ nConstsToRemove then
        removeExpensiveAt tvs (mNumConstsToRemove - nConstsToRemove) (← remove i cs)
      else removeExpensiveAt tvs mNumConstsToRemove cs

end Expensive

/-- `removeExpensiveConstraints` of a set, from the last tuple variable to the first -/
def Set.removeExpensiveConstraints (env : Environment) (parallelTvs : List Nat) (mNumConstsToRemove : Int)
    (ignore : List Exp) (s : Set) : Except Failure Set := do
  let tvs := (List.range s.arity).reverse
  .ok { s with conjunctions :=
    ← removeExpensiveAt (removeUFCallConsts env) parallelTvs ignore tvs mNumConstsToRemove s.conjunctions }

/-- `removeExpensiveConstraints` of a relation -/
def Relation.removeExpensiveConstraints (env : Environment) (parallelTvs : List Nat) (mNumConstsToRemove : Int)
    (ignore : List Exp) (r : Relation) : Except Failure Relation := do
  let tvs := (List.range (r.inArity + r.outArity)).reverse
  .ok { r with conjunctions :=
    ← removeExpensiveAt (removeUFCallConsts env r.inArity) parallelTvs ignore tvs mNumConstsToRemove r.conjunctions }

/-! ## What a run sees -/

/-- The term is the tuple variable. -/
def Term.isVar (i : Nat) : Term → Bool
  | .tupleVar _ l => l == i
  | _ => false

/-- A tuple variable is one of the terms. -/
def Exp.hasVar (i : Nat) (e : Exp) : Bool := e.terms.any (Term.isVar i)

/-- A tuple variable is a term of an argument, outside tuples of expressions. -/
def Exp.showsArgument (i : Nat) (e : Exp) : Bool := e.arguments.any (Exp.hasVar i)

/-- The state after the variable was looked for. -/
def ArgumentState.see {σ : Type} (v : ArgumentState σ) (b : Bool) : ArgumentState σ :=
  { v with seenTupleVar := v.seenTupleVar || b }

namespace VisitorOfArguments

variable {σ : Type}

/-- Inside of an argument the variable is seen, and outside in the arguments of the term alone. -/
def sees (i : Nat) (level : Int) (t : Term) : Bool :=
  (decide (level > 0) && t.isVar i) || t.arguments.any (Exp.hasVar i)

@[simp] theorem see_false (v : ArgumentState σ) : v.see false = v := by simp [ArgumentState.see]

@[simp] theorem see_see (v : ArgumentState σ) (a b : Bool) : (v.see a).see b = v.see (a || b) := by
  simp [ArgumentState.see, Bool.or_assoc]

theorem any_sees_of_pos {i : Nat} {level : Int} (h : 0 < level) (ts : List Term) :
    ts.any (sees i level) = (ts.any (Term.isVar i) || (termsArguments ts).any (Exp.hasVar i)) := by
  induction ts with
  | nil => rfl
  | cons t ts ih =>
    rw [List.any_cons, ih, sees, termsArguments, List.any_cons, List.any_append, decide_eq_true h, Bool.true_and]
    ac_rfl

theorem any_sees_zero {i : Nat} (ts : List Term) : ts.any (sees i 0) = (termsArguments ts).any (Exp.hasVar i) := by
  induction ts with
  | nil => rfl
  | cons t ts ih =>
    rw [List.any_cons, ih, sees, termsArguments, List.any_append]
    rfl

variable (w : VisitorOfArguments σ)

mutual
theorem accept_term : ∀ {t : Term} (v : ArgumentState σ), (∀ e ∈ t.arguments, e.expType = .expression) →
    0 ≤ v.UFCLevel → t.acceptVisitor w.visitor v = .ok (v.see (sees w.mTupleID v.UFCLevel t))
  | .ufCall c f as j, v, hp, hl => by
    have h := accept_args as v hp hl
    have hsees : sees w.mTupleID v.UFCLevel (.ufCall c f as j) = (argsArguments as).any (Exp.hasVar w.mTupleID) := by
      simp [sees, Term.isVar, Term.arguments]
    rw [hsees]
    exact bind_eq_ok.2 ⟨v, rfl, bind_eq_ok.2 ⟨_, h, rfl⟩⟩
  | .tupleVar c l, v, _, _ => by
    refine bind_eq_ok.2 ⟨_, rfl, congrArg Except.ok ?_⟩
    simp only [preVisitTerm, sees, Term.isVar, Term.arguments, List.any_nil, Bool.or_false]
    split_ifs with hsee
    · simp [ArgumentState.see, hsee]
    · have hnone : (decide (v.UFCLevel > 0) && l == w.mTupleID) = false := by
        simpa using hsee
      rw [hnone, see_false]
  | .symConst .., v, _, _ | .constVal _, v, _, _ | .tupleExp .., v, _, _ => by
    refine bind_eq_ok.2 ⟨v, rfl, congrArg Except.ok ?_⟩
    simp [sees, Term.isVar, Term.arguments]

theorem accept_args : ∀ (es : List Exp) (v : ArgumentState σ), (∀ e ∈ argsArguments es, e.expType = .expression) →
    0 ≤ v.UFCLevel → argsAcceptVisitor w.visitor es v = .ok (v.see ((argsArguments es).any (Exp.hasVar w.mTupleID)))
  | [], v, _, _ => by simp [argsAcceptVisitor, argsArguments]
  | .mk k ts :: es, v, hp, hl => by
    obtain ⟨hk, hp⟩ := List.forall_mem_cons.1 hp
    obtain ⟨hts, hes⟩ := List.forall_mem_append.1 hp
    obtain rfl : k = .expression := hk
    have hterms := accept_terms ts ⟨v.seenTupleVar, v.UFCLevel + 1, v.rest⟩ hts (by dsimp only; omega)
    have hargs := accept_args es (v.see (ts.any (sees w.mTupleID (v.UFCLevel + 1)))) hes hl
    have hpost : w.visitor.postVisitExp (.mk .expression ts)
        (ArgumentState.see ⟨v.seenTupleVar, v.UFCLevel + 1, v.rest⟩ (ts.any (sees w.mTupleID (v.UFCLevel + 1)))) =
        .ok (v.see (ts.any (sees w.mTupleID (v.UFCLevel + 1)))) := by
      refine congrArg Except.ok ?_
      simp [postVisitExp, ArgumentState.see]
    refine bind_eq_ok.2 ⟨_, bind_eq_ok.2 ⟨_, rfl, bind_eq_ok.2 ⟨_, hterms, hpost⟩⟩, hargs.trans ?_⟩
    rw [see_see, any_sees_of_pos (by omega), argsArguments, List.any_cons, List.any_append, Bool.or_assoc]
    rfl

theorem accept_terms : ∀ (ts : List Term) (v : ArgumentState σ), (∀ e ∈ termsArguments ts, e.expType = .expression) →
    0 ≤ v.UFCLevel → termsAcceptVisitor w.visitor ts v = .ok (v.see (ts.any (sees w.mTupleID v.UFCLevel)))
  | [], v, _, _ => by simp [termsAcceptVisitor]
  | t :: ts, v, hp, hl => by
    obtain ⟨ht, hts⟩ := List.forall_mem_append.1 hp
    have hrest := accept_terms ts (v.see (sees w.mTupleID v.UFCLevel t)) hts hl
    refine bind_eq_ok.2 ⟨_, accept_term v ht hl, hrest.trans ?_⟩
    rw [see_see, List.any_cons]
    rfl
end

/-- At the end of a constraint the flag is whether an argument shows the variable. -/
theorem accept_constraint {e : Exp} (hk : e.expType ≠ .expression) (hp : ∀ d ∈ e.arguments, d.expType = .expression)
    (v : ArgumentState σ) : e.acceptVisitor w.visitor v =
      .ok ⟨e.showsArgument w.mTupleID, 0, w.atConstraint e (e.showsArgument w.mTupleID) v.rest⟩ := by
  obtain ⟨k, ts⟩ := e
  have hpre : preVisitExp (.mk k ts) v = ⟨false, 0, v.rest⟩ := if_neg hk
  have hterms := accept_terms w ts ⟨false, 0, v.rest⟩ hp le_rfl
  refine bind_eq_ok.2 ⟨_, congrArg Except.ok hpre, bind_eq_ok.2 ⟨_, hterms, congrArg Except.ok ?_⟩⟩
  rw [postVisitExp, if_neg hk, any_sees_zero]
  rfl

/-- What the visitor does at the constraints, one after the other. -/
def collect (es : List Exp) (rest : σ) : σ :=
  es.foldl (fun rest e => w.atConstraint e (e.showsArgument w.mTupleID) rest) rest

theorem foldlM_constraints {es : List Exp} (hk : ∀ e ∈ es, e.expType ≠ .expression)
    (hp : ∀ e ∈ es, ∀ d ∈ e.arguments, d.expType = .expression) (v : ArgumentState σ) :
    ∃ v', es.foldlM (fun s e => e.acceptVisitor w.visitor s) v = .ok v' ∧ v'.rest = w.collect es v.rest := by
  induction es generalizing v with
  | nil => exact ⟨v, rfl, rfl⟩
  | cons e es ih =>
    obtain ⟨hke, hkes⟩ := List.forall_mem_cons.1 hk
    obtain ⟨hpe, hpes⟩ := List.forall_mem_cons.1 hp
    obtain ⟨v', hv', hrest⟩ := ih hkes hpes ⟨_, _, _⟩
    refine ⟨v', ?_, hrest⟩
    rw [List.foldlM_cons, bind_eq_ok]
    exact ⟨_, accept_constraint w hke hpe v, hv'⟩

/-- A visit of a conjunction. -/
def atConjunction (c : Conjunction) (rest : σ) : Except Failure σ := do
  w.postVisitConjunction c (w.collect (c.equalities ++ c.inequalities) (← w.preVisitConjunction c rest))

theorem accept_conjunction {c : Conjunction} (hc : c.WellTyped) (v : ArgumentState σ) {r : σ} :
    (∃ v', c.acceptVisitor w.visitor v = .ok v' ∧ v'.rest = r) ↔ w.atConjunction c v.rest = .ok r := by
  have hrun : ∀ v : ArgumentState σ, ∃ v₁, c.equalities.foldlM (fun s e => e.acceptVisitor w.visitor s) v = .ok v₁ ∧
      ∃ v₂, c.inequalities.foldlM (fun s e => e.acceptVisitor w.visitor s) v₁ = .ok v₂ ∧
        v₂.rest = w.collect (c.equalities ++ c.inequalities) v.rest := by
    intro v
    obtain ⟨v₂, hv₂, hrest⟩ := foldlM_constraints w hc.constraints hc.plain v
    rw [List.foldlM_append, bind_eq_ok] at hv₂
    obtain ⟨v₁, hv₁, hv₂⟩ := hv₂
    exact ⟨v₁, hv₁, v₂, hv₂, hrest⟩
  have hpre : ∀ v v₀ : ArgumentState σ, w.visitor.preVisitConjunction c v = .ok v₀ ↔
      ∃ r₀, w.preVisitConjunction c v.rest = .ok r₀ ∧ v₀ = { v with rest := r₀ } := by
    intro v v₀
    simp only [visitor, bind_eq_ok, Except.ok.injEq]
    exact exists_congr fun _ => and_congr_right fun _ => eq_comm
  have hpost : ∀ v v₀ : ArgumentState σ, w.visitor.postVisitConjunction c v = .ok v₀ ↔
      ∃ r₀, w.postVisitConjunction c v.rest = .ok r₀ ∧ v₀ = { v with rest := r₀ } := by
    intro v v₀
    simp only [visitor, bind_eq_ok, Except.ok.injEq]
    exact exists_congr fun _ => and_congr_right fun _ => eq_comm
  unfold Conjunction.acceptVisitor atConjunction
  simp only [bind_eq_ok, hpre, hpost]
  constructor
  · rintro ⟨v', ⟨v₀, ⟨r₀, hr₀, rfl⟩, v₁, hv₁, v₂, hv₂, r', hr', rfl⟩, rfl⟩
    obtain ⟨u₁, hu₁, u₂, hu₂, hrest⟩ := hrun ⟨v.seenTupleVar, v.UFCLevel, r₀⟩
    obtain rfl : v₁ = u₁ := Except.ok.inj (hv₁.symm.trans hu₁)
    obtain rfl : v₂ = u₂ := Except.ok.inj (hv₂.symm.trans hu₂)
    exact ⟨r₀, hr₀, hrest ▸ hr'⟩
  · rintro ⟨r₀, hr₀, hr⟩
    obtain ⟨v₁, hv₁, v₂, hv₂, hrest⟩ := hrun ⟨v.seenTupleVar, v.UFCLevel, r₀⟩
    exact ⟨{ v₂ with rest := r }, ⟨_, ⟨r₀, hr₀, rfl⟩, v₁, hv₁, v₂, hv₂, r, hrest ▸ hr, rfl⟩, rfl⟩

/-- A visit of a union. -/
theorem accept_union {cs : List Conjunction} (hcs : ∀ c ∈ cs, c.WellTyped) {v : ArgumentState σ} {r : σ} :
    (∃ v', acceptVisitor w.visitor cs v = .ok v' ∧ v'.rest = r) ↔
      cs.foldlM (fun rest c => w.atConjunction c rest) v.rest = .ok r := by
  unfold acceptVisitor
  induction cs generalizing v with
  | nil =>
    constructor
    · rintro ⟨v', hv', rfl⟩
      cases hv'
      rfl
    · intro h
      cases h
      exact ⟨v, rfl, rfl⟩
  | cons c cs ih =>
    obtain ⟨hc, hcs⟩ := List.forall_mem_cons.1 hcs
    simp only [List.foldlM_cons, bind_eq_ok, ← accept_conjunction w hc]
    constructor
    · rintro ⟨v', ⟨v₁, hv₁, hv'⟩, rfl⟩
      exact ⟨_, ⟨v₁, hv₁, rfl⟩, (ih hcs).1 ⟨v', hv', rfl⟩⟩
    · rintro ⟨_, ⟨v₁, hv₁, rfl⟩, h⟩
      obtain ⟨v', hv', rfl⟩ := (ih hcs).2 h
      exact ⟨v', ⟨v₁, hv₁, hv'⟩, rfl⟩

end VisitorOfArguments

/-! ## The count -/

section Count

variable {i : Nat} {ignore : List Exp}

/-- A constraint that `numUFCallConstsMustRemove` counts. -/
def Exp.counted (i : Nat) (ignore : List Exp) (e : Exp) : Bool :=
  e.showsArgument i && !ignore.any (fun d => Tied Exp.lt d e)

theorem collect_count (es : List Exp) (count : Int) :
    (VisitorNumUFCallConstsMustRemove i ignore).collect es count = count + es.countP (Exp.counted i ignore) := by
  induction es generalizing count with
  | nil => simp [VisitorOfArguments.collect]
  | cons e es ih =>
    have hstep : (VisitorNumUFCallConstsMustRemove i ignore).atConstraint e (e.showsArgument i) count =
        if e.counted i ignore = true then count + 1 else count := by
      simp [VisitorNumUFCallConstsMustRemove, Exp.counted]
    refine (ih _).trans ?_
    show (VisitorNumUFCallConstsMustRemove i ignore).atConstraint e (e.showsArgument i) count + _ = _
    rw [hstep, List.countP_cons]
    split_ifs <;> push_cast <;> omega

/-- The constraints of all conjunctions are counted. -/
theorem numUFCallConstsMustRemove_eq {cs : List Conjunction} (hcs : ∀ c ∈ cs, c.WellTyped) :
    numUFCallConstsMustRemove i ignore cs =
      .ok ((cs.flatMap (fun c => c.equalities ++ c.inequalities)).countP (Exp.counted i ignore) : Nat) := by
  have hfold : ∀ count : Int, cs.foldlM (fun rest c =>
      (VisitorNumUFCallConstsMustRemove i ignore).atConjunction c rest) count =
        .ok (count + ((cs.flatMap (fun c => c.equalities ++ c.inequalities)).countP (Exp.counted i ignore) : Nat)) := by
    clear hcs
    induction cs with
    | nil => exact fun count => by simp [pure, Except.pure]
    | cons c cs ih =>
      intro count
      rw [List.foldlM_cons, bind_eq_ok]
      refine ⟨_, congrArg Except.ok (collect_count _ count), ?_⟩
      rw [ih]
      simp only [List.flatMap_cons, List.countP_append, Nat.cast_add, add_assoc]
  obtain ⟨v, hv, hrest⟩ := (VisitorOfArguments.accept_union (VisitorNumUFCallConstsMustRemove i ignore) hcs
    (v := ⟨false, 0, 0⟩)).2 (hfold 0)
  unfold numUFCallConstsMustRemove
  rw [hv, zero_add] at *
  exact congrArg Except.ok hrest

end Count

/-! ## What is left of a conjunction -/

namespace Conjunction

/-- The conjunction without the constraints in which an argument shows the variable. -/
def without (i : Nat) (c : Conjunction) : Conjunction :=
  { c with
    equalities := c.equalities.filter (fun e => !e.showsArgument i)
    inequalities := c.inequalities.filter (fun e => !e.showsArgument i) }

/-- The conjunction that is built of what is left. -/
def reduced (i : Nat) (c : Conjunction) : Conjunction :=
  Intersect { ofTupleDecl c.tupleDecl with inArity := c.inArity } (c.without i)

/-- A constraint is left that is not trivial. -/
def keepsConstraint (i : Nat) (c : Conjunction) : Bool :=
  c.equalities.any (fun e => !e.showsArgument i && !e.normalizeForEquality.equalsZero) ||
    c.inequalities.any (fun e => !e.showsArgument i && !e.equalsZero)

theorem hasConstraints_reduced (i : Nat) (c : Conjunction) : (c.reduced i).hasConstraints = c.keepsConstraint i := by
  unfold reduced keepsConstraint
  rw [hasConstraints_intersect, constrains, without, List.any_filter, List.any_filter]
  rfl

end Conjunction

section Run

variable {i : Nat}

/-- The visitor adds up the constraints that do not show the variable. -/
theorem collect_eq {c : Conjunction} (hc : c.WellTyped) (v : ReducedConjunctions) :
    (VisitorRemoveUFCallConsts i).collect (c.equalities ++ c.inequalities) v =
      { v with redConj := v.redConj.Intersect (c.without i) } := by
  have hfold : ∀ (add : Conjunction → Exp → Conjunction) (es : List Exp) (v : ReducedConjunctions),
      (∀ e ∈ es, ∀ d, (if e.expType = .inequality then d.addInequality e else d.addEquality e) = add d e) →
      (VisitorRemoveUFCallConsts i).collect es v =
        { v with redConj := (es.filter (fun e => !e.showsArgument i)).foldl add v.redConj } := by
    intro add es
    induction es with
    | nil => exact fun v _ => rfl
    | cons e es ih =>
      intro v hadd
      obtain ⟨he, hes⟩ := List.forall_mem_cons.1 hadd
      refine (ih _ hes).trans ?_
      cases hshow : e.showsArgument i with
      | true => simp [VisitorRemoveUFCallConsts, hshow]
      | false => simp [VisitorRemoveUFCallConsts, hshow, he]
  have heqs := hfold Conjunction.addEquality c.equalities v
    (fun e he d => by rw [hc.typed.1 e he]; rfl)
  have hineqs := hfold Conjunction.addInequality c.inequalities
  rw [VisitorOfArguments.collect, List.foldl_append]
  refine (hineqs _ (fun e he d => by rw [hc.typed.2 e he]; rfl)).trans ?_
  rw [show List.foldl _ v c.equalities = _ from heqs]
  rfl

/-- A conjunction that `setInArity` accepts is added without what shows the variable. -/
theorem atConjunction_eq_ok {c : Conjunction} (hc : c.WellTyped) {v v' : ReducedConjunctions} :
    (VisitorRemoveUFCallConsts i).atConjunction c v = .ok v' ↔
      c.inArity < c.arity ∧ v' = ⟨c.reduced i, v.mRedConj ++ [c.reduced i]⟩ := by
  unfold VisitorOfArguments.atConjunction
  have hpre : ∀ v₀, (VisitorRemoveUFCallConsts i).preVisitConjunction c v = .ok v₀ ↔ c.inArity < c.arity ∧
      v₀ = { v with redConj := { Conjunction.ofTupleDecl c.tupleDecl with inArity := c.inArity } } := by
    intro v₀
    simp only [VisitorRemoveUFCallConsts, Conjunction.setInArity, bind_eq_ok]
    split_ifs with hge
    · have hnot : ¬ c.inArity < c.arity := not_lt.2 hge
      simp [hnot]
    · have hlt : c.inArity < c.arity := not_le.1 hge
      simp [hlt, eq_comm]
  simp only [bind_eq_ok, hpre]
  constructor
  · rintro ⟨v₀, ⟨hlt, rfl⟩, h⟩
    rw [collect_eq hc] at h
    exact ⟨hlt, (Except.ok.inj h).symm⟩
  · rintro ⟨hlt, rfl⟩
    refine ⟨_, ⟨hlt, rfl⟩, ?_⟩
    rw [collect_eq hc]
    rfl

/-- The result of the visit: what is left of the conjunctions, added one after the other. -/
theorem redSparseConstraints_eq_ok {cs ds : List Conjunction} (hcs : ∀ c ∈ cs, c.WellTyped) :
    redSparseConstraints i cs = .ok ds ↔
      (∀ c ∈ cs, c.inArity < c.arity) ∧ ds = (cs.map (Conjunction.reduced i)).foldl addConjunction [] := by
  have hfold : ∀ v : ReducedConjunctions, (cs.foldl (fun (v : ReducedConjunctions) c =>
      ⟨c.reduced i, v.mRedConj ++ [c.reduced i]⟩) v).mRedConj = v.mRedConj ++ cs.map (Conjunction.reduced i) := by
    clear hcs
    induction cs with
    | nil => simp
    | cons c cs ih =>
      intro v
      rw [List.foldl_cons, ih, List.map_cons, List.append_assoc]
      rfl
  have hrun : ∀ {v v' : ReducedConjunctions},
      cs.foldlM (fun rest c => (VisitorRemoveUFCallConsts i).atConjunction c rest) v = .ok v' ↔
        (∀ c ∈ cs, c.inArity < c.arity) ∧ v' = cs.foldl (fun (v : ReducedConjunctions) c =>
          ⟨c.reduced i, v.mRedConj ++ [c.reduced i]⟩) v :=
    Outcome.foldlM_eq_ok_iff (fun c hc _ (_ : True) _ => atConjunction_eq_ok (hcs c hc))
      (fun _ _ _ _ _ => trivial) trivial
  unfold redSparseConstraints
  rw [bind_eq_ok]
  constructor
  · rintro ⟨v, hv, h⟩
    cases h
    obtain ⟨hall, hrest⟩ := hrun.1 ((VisitorOfArguments.accept_union _ hcs).1 ⟨v, hv, rfl⟩)
    rw [hrest, hfold]
    exact ⟨hall, rfl⟩
  · rintro ⟨hall, rfl⟩
    obtain ⟨v, hv, hrest⟩ := (VisitorOfArguments.accept_union (VisitorRemoveUFCallConsts i) hcs
      (v := ⟨false, 0, ⟨.ofTupleDecl ⟨[]⟩, []⟩⟩)).2 (hrun.2 ⟨hall, rfl⟩)
    refine ⟨v, hv, ?_⟩
    rw [hrest, hfold]
    rfl

end Run

/-! ## The tuples of what is left -/

section Denotes

variable {env : Environment} {I : Interp} {i : Nat}

theorem mem_equalities_reduced {c : Conjunction} {d : Exp} (h : d ∈ (c.reduced i).equalities) :
    ∃ e ∈ c.equalities, e.showsArgument i = false ∧ d ∈ e.asEquality := by
  unfold Conjunction.reduced Conjunction.Intersect at h
  rw [foldl_addEquality_eq, foldl_addInequality_eq] at h
  obtain ⟨e, he, hde⟩ := List.mem_filterMap.1 (SortedList.mem_of_mem_build h)
  obtain ⟨he, hshow⟩ := List.mem_filter.1 he
  exact ⟨e, he, by simpa using hshow, hde⟩

theorem mem_inequalities_reduced {c : Conjunction} {d : Exp} (h : d ∈ (c.reduced i).inequalities) :
    ∃ e ∈ c.inequalities, e.showsArgument i = false ∧ d ∈ e.asInequality := by
  unfold Conjunction.reduced Conjunction.Intersect at h
  rw [foldl_addEquality_eq, foldl_addInequality_eq] at h
  obtain ⟨e, he, hde⟩ := List.mem_filterMap.1 (SortedList.mem_of_mem_build h)
  obtain ⟨he, hshow⟩ := List.mem_filter.1 he
  exact ⟨e, he, by simpa using hshow, hde⟩

/-- What holds of the constraints however they are normalized and marked holds of what is left. -/
theorem forall_reduced {P : Exp → Prop} (heq : ∀ e d, P e → d ∈ e.asEquality → P d)
    (hineq : ∀ e d, P e → d ∈ e.asInequality → P d) {c : Conjunction} (h : ∀ e ∈ c.equalities ++ c.inequalities, P e) :
    ∀ d ∈ (c.reduced i).equalities ++ (c.reduced i).inequalities, P d := by
  intro d hd
  rcases List.mem_append.1 hd with hd | hd
  · obtain ⟨e, he, -, hde⟩ := mem_equalities_reduced hd
    exact heq e d (h e (List.mem_append_left _ he)) hde
  · obtain ⟨e, he, -, hde⟩ := mem_inequalities_reduced hd
    exact hineq e d (h e (List.mem_append_right _ he)) hde

theorem Conjunction.without_readable {c : Conjunction} (hc : c.readable = true) : (c.without i).readable = true := by
  obtain ⟨heqs, hineqs⟩ := Conjunction.readable_iff.1 hc
  exact Conjunction.readable_iff.2
    ⟨fun e he => heqs e (List.mem_of_mem_filter he), fun e he => hineqs e (List.mem_of_mem_filter he)⟩

theorem Conjunction.reduced_adds {c : Conjunction} (hc : c.readable = true) :
    Conjunction.Adds { Conjunction.ofTupleDecl c.tupleDecl with inArity := c.inArity } (c.reduced i)
      (fun I τ => (c.without i).Holds I τ) :=
  Conjunction.intersect_adds rfl (Conjunction.without_readable hc)

/-- What is left can be cleaned up as well. -/
theorem Conjunction.Cleanable.reduced {c : Conjunction} (hc : c.Cleanable env I) : (c.reduced i).Cleanable env I := by
  refine ⟨(Conjunction.reduced_adds hc.readable).readable, ?_, ?_, fun τ => ?_⟩
  · exact forall_reduced (fun e d he hd => fits_asEquality he hd) (fun e d he hd => fits_asInequality he hd) hc.fits
  · refine forall_reduced (fun e d he hd => ?_) (fun e d he hd => ?_) hc.decides
    · rw [Exp.eq_of_mem_asEquality hd]
      have hn := Exp.AllCalls.normalize he
      rw [Exp.allCalls_iff] at hn ⊢
      exact hn
    · rw [Exp.eq_of_mem_asInequality hd]
      rw [Exp.allCalls_iff] at he ⊢
      exact he
  · refine forall_reduced (fun e d he hd => ?_) (fun e d he hd => ?_) (hc.keeps τ)
    · rw [Exp.eq_of_mem_asEquality hd]
      have hn := Exp.CollapseKeeps.normalize he
      rw [Exp.collapseKeeps_iff] at hn ⊢
      exact hn
    · rw [Exp.eq_of_mem_asInequality hd]
      rw [Exp.collapseKeeps_iff] at he ⊢
      exact he

/-- The conjunction that is built has the tuples of the constraints that are left. -/
theorem Conjunction.denote_reduced {c : Conjunction} (hc : c.readable = true) :
    (c.reduced i).denote I = (c.without i).denote I := by
  have hadds := Conjunction.reduced_adds (i := i) hc
  ext t
  show (c.reduced i).tupleDecl.Admits t ∧ (c.reduced i).Holds I (valuation t) ↔
    c.tupleDecl.Admits t ∧ (c.without i).Holds I (valuation t)
  rw [hadds.tupleDecl, hadds.holds I (valuation t)]
  simp [Conjunction.Holds, Conjunction.ofTupleDecl]

/-- A conjunction is part of what is left of it. -/
theorem Conjunction.denote_subset_without (c : Conjunction) : c.denote I ⊆ (c.without i).denote I := by
  rintro t ⟨hadm, heqs, hineqs⟩
  exact ⟨hadm, fun e he => heqs e (List.mem_of_mem_filter he), fun e he => hineqs e (List.mem_of_mem_filter he)⟩

end Denotes

/-! ## The conjunctions that stay -/

section Kept

variable {α : Type*} {has : α → Bool} {c d : α}

variable {lt : α → α → Bool} (hlt : ∀ {a b : α}, lt a b = true → lt b a = false)
include hlt

/-- In a sorted list what comes after an element with a constraint is kept. -/
theorem mem_kept_of_lt : ∀ {cs : List α}, SortedList.Sorted lt cs → d ∈ cs → has d = true → c ∈ cs → lt d c = true →
    c ∈ kept has cs
  | [_], _, _, _, hc, _ => hc
  | x :: y :: cs, hs, hd, hhas, hc, hdc => by
    simp only [kept]
    split_ifs with hx
    · exact hc
    · obtain ⟨hxs, hs⟩ := List.pairwise_cons.1 hs
      have hd' : d ∈ y :: cs := (List.mem_cons.1 hd).resolve_left fun h => hx (h ▸ hhas)
      have hne : c ≠ x := by
        rintro rfl
        rw [hlt (hxs d hd')] at hdc
        cases hdc
      exact mem_kept_of_lt hs hd' hhas ((List.mem_cons.1 hc).resolve_left hne) hdc

omit hlt in
/-- What is kept of a sorted list has a constraint or comes after an element with one, unless none has any. -/
theorem of_mem_kept : ∀ {cs : List α}, SortedList.Sorted lt cs → c ∈ kept has cs →
    has c = true ∨ (∃ d ∈ cs, has d = true ∧ lt d c = true) ∨ ∀ d ∈ cs, has d = false
  | [x], _, hc => by
    obtain rfl : c = x := List.mem_singleton.1 hc
    cases h : has c with
    | true => exact .inl rfl
    | false => exact .inr (.inr fun d hd => List.mem_singleton.1 hd ▸ h)
  | x :: y :: cs, hs, hc => by
    obtain ⟨hxs, hs⟩ := List.pairwise_cons.1 hs
    simp only [kept] at hc
    split_ifs at hc with hx
    · rcases List.mem_cons.1 hc with rfl | hc
      · exact .inl hx
      · exact .inr (.inl ⟨x, List.mem_cons_self .., hx, hxs c hc⟩)
    · rcases of_mem_kept hs hc with h | ⟨d, hd, h⟩ | h
      · exact .inl h
      · exact .inr (.inl ⟨d, List.mem_cons_of_mem _ hd, h⟩)
      · exact .inr (.inr (List.forall_mem_cons.2 ⟨by simpa using hx, h⟩))

omit hlt in
/-- Of elements without a constraint the last one is kept. -/
theorem kept_of_none : ∀ {cs : List α}, (∀ c ∈ cs, has c = false) → kept has cs = cs.getLast?.toList
  | [], _ | [_], _ => rfl
  | x :: y :: cs, h => by
    obtain ⟨hx, h⟩ := List.forall_mem_cons.1 h
    rw [kept, if_neg (by simp [hx]), kept_of_none h, List.getLast?_cons_cons]

end Kept

/-- The conjunction is there when the union of what is left was built and copied: it does not give way when it is
built, and when it is copied it has a constraint left or comes after one that has, unless none has any. -/
def StaysWithout (i : Nat) (cs : List Conjunction) (c : Conjunction) : Prop :=
  c ∈ kept (Conjunction.keepsConstraint i) cs ∧ (c.keepsConstraint i = true ∨
    (∃ d ∈ cs, d.keepsConstraint i = true ∧ d.tupleDecl.lt c.tupleDecl = true) ∨
      ∀ d ∈ cs, d.keepsConstraint i = false)

section Stays

variable {I : Interp} {i : Nat}

theorem strictWeak_tupleDeclLt : SortedList.StrictWeak TupleDecl.lt := strictWeak_elemLt.sizeLexLt.comap TupleDecl.elems

/-- One with a constraint comes before one without iff its declaration does. -/
theorem Conjunction.lt_of_unconstrained {c d : Conjunction} (hd : d.hasConstraints = true) (hc : c.hasConstraints = false) :
    d.lt c = d.tupleDecl.lt c.tupleDecl := by
  obtain ⟨heqs, hineqs⟩ := hasConstraints_eq_false.1 hc
  simp only [hasConstraints, decide_eq_true_eq] at hd
  unfold Conjunction.lt
  rw [heqs, hineqs, List.length_nil]
  cases hlt : d.tupleDecl.lt c.tupleDecl with
  | true => rfl
  | false =>
    rcases Nat.eq_zero_or_pos d.equalities.length with hzero | hpos
    · have hineq : 0 < d.inequalities.length := by omega
      simp [hzero, hineq]
    · simp [hpos]

/-- The tuples of what is left and stays are those of the union that is copied. -/
theorem mem_denoteUnion_stays {cs : List Conjunction} (hcs : ∀ c ∈ cs, c.readable = true) {t : List Int} :
    t ∈ denoteUnion I (kept Conjunction.hasConstraints ((cs.map (Conjunction.reduced i)).foldl addConjunction [])) ↔
      ∃ c ∈ cs, StaysWithout i cs c ∧ t ∈ (c.without i).denote I := by
  have hhas : Conjunction.hasConstraints ∘ Conjunction.reduced i = Conjunction.keepsConstraint i :=
    funext fun c => c.hasConstraints_reduced i
  have hmap : kept Conjunction.hasConstraints (cs.map (Conjunction.reduced i)) =
      (kept (Conjunction.keepsConstraint i) cs).map (Conjunction.reduced i) := by rw [kept_map, hhas]
  rw [foldl_addConjunction_eq_build, hmap]
  have hsorted := SortedList.sorted_build strictWeak_conjunctionLt
    ((kept (Conjunction.keepsConstraint i) cs).map (Conjunction.reduced i))
  have hdecl : ∀ c ∈ cs, (Conjunction.reduced i c).tupleDecl = c.tupleDecl := fun c hc =>
    (Conjunction.reduced_adds (hcs c hc)).tupleDecl
  have hden : ∀ c ∈ cs, (Conjunction.reduced i c).denote I = (c.without i).denote I := fun c hc =>
    Conjunction.denote_reduced (hcs c hc)
  have hcomp : ∀ c ∈ cs, (Conjunction.reduced i c).comparable = true := fun c hc =>
    Conjunction.comparable_of_readable (Conjunction.reduced_adds (hcs c hc)).readable
  -- one that is kept when the union is built is there, or one tied to it
  have hcover : ∀ c ∈ kept (Conjunction.keepsConstraint i) cs,
      ∃ d ∈ cs, d.reduced i ∈ build Conjunction.lt ((kept (Conjunction.keepsConstraint i) cs).map (Conjunction.reduced i)) ∧
        Tied Conjunction.lt (c.reduced i) (d.reduced i) := by
    intro c hc
    rcases SortedList.build_covers Conjunction.lt (List.mem_map_of_mem (f := Conjunction.reduced i) hc) with hb | ⟨b, hb, htied⟩
    · exact ⟨c, mem_of_mem_kept hc, hb, strictWeak_conjunctionLt.tied_refl _⟩
    · obtain ⟨d, hd, rfl⟩ := List.mem_map.1 (SortedList.mem_of_mem_build hb)
      exact ⟨d, mem_of_mem_kept hd, hb, htied⟩
  constructor
  · rintro ⟨b, hb, ht⟩
    obtain ⟨c, hkept, rfl⟩ := List.mem_map.1 (SortedList.mem_of_mem_build (mem_of_mem_kept hb))
    have hc := mem_of_mem_kept hkept
    rw [hden c hc] at ht
    refine ⟨c, hc, ⟨hkept, ?_⟩, ht⟩
    cases hk : c.keepsConstraint i with
    | true => exact .inl rfl
    | false =>
      rcases of_mem_kept hsorted hb with h | ⟨b', hb', hhas', hlt⟩ | hnone
      · rw [Conjunction.hasConstraints_reduced, hk] at h
        cases h
      · obtain ⟨d, hd, rfl⟩ := List.mem_map.1 (SortedList.mem_of_mem_build hb')
        have hd := mem_of_mem_kept hd
        rw [Conjunction.lt_of_unconstrained hhas' (c.hasConstraints_reduced i ▸ hk), hdecl d hd, hdecl c hc] at hlt
        exact .inr (.inl ⟨d, hd, (d.hasConstraints_reduced i).symm.trans hhas', hlt⟩)
      · refine .inr (.inr fun d hd => ?_)
        cases hkd : d.keepsConstraint i with
        | false => rfl
        | true =>
          obtain ⟨e, -, hb', htied⟩ := hcover d (mem_kept_of_has hd hkd)
          have h := hasConstraints_of_tied htied
          rw [hnone _ hb', Conjunction.hasConstraints_reduced, hkd] at h
          cases h
  · rintro ⟨c, hc, ⟨hkept, hstay⟩, ht⟩
    obtain ⟨d, hd, hb, htied⟩ := hcover c hkept
    rw [← hden c hc] at ht
    refine ⟨d.reduced i, ?_, Conjunction.denote_of_tied (hcomp c hc) (hcomp d hd) htied ht⟩
    have hhas := hasConstraints_of_tied htied
    cases hk : c.keepsConstraint i with
    | true =>
      rw [Conjunction.hasConstraints_reduced, hk] at hhas
      exact mem_kept_of_has hb hhas.symm
    | false =>
      rcases hstay with h | ⟨e, he, hke, hlt⟩ | hnone
      · rw [hk] at h
        cases h
      · obtain ⟨e', he', hb', htied'⟩ := hcover e (mem_kept_of_has he hke)
        have hhas' := hasConstraints_of_tied htied'
        rw [Conjunction.hasConstraints_reduced, hke] at hhas'
        rw [Conjunction.hasConstraints_reduced, hk] at hhas
        refine mem_kept_of_lt strictWeak_conjunctionLt.asymm hsorted hb' hhas'.symm hb ?_
        have h₁ := (Conjunction.tied_parts htied').1
        have h₂ := (Conjunction.tied_parts htied).1
        rw [hdecl e he] at h₁
        rw [hdecl c hc] at h₂
        rw [Conjunction.lt_of_unconstrained hhas'.symm hhas.symm, ← strictWeak_tupleDeclLt.lt_congr_left h₁,
          ← strictWeak_tupleDeclLt.lt_congr_right h₂, hlt]
      · rw [kept_of_none hnone] at hb ⊢
        cases hlast : cs.getLast? with
        | none => rw [hlast] at hb; cases hb
        | some l => rw [hlast] at hb; exact hb

end Stays

/-! ## Arguments without the variable -/

section Arguments

variable {env : Environment} {i : Nat}

mutual
theorem Term.mentions_eq_false : ∀ {t : Term}, t.mentions i = false ↔ t.VarsIn (· ≠ i)
  | .tupleVar .. => by simp [Term.mentions, Term.VarsIn]
  | .symConst .. | .constVal _ => by simp [Term.mentions, Term.VarsIn]
  | .ufCall .. | .tupleExp .. => argsMention_eq_false

theorem Exp.mentions_eq_false : ∀ {e : Exp}, e.mentions i = false ↔ e.VarsIn (· ≠ i)
  | .mk _ _ => termsMention_eq_false

theorem argsMention_eq_false : ∀ {es : List Exp}, argsMention i es = false ↔ argsVarsIn (· ≠ i) es
  | [] => by simp [argsMention, argsVarsIn]
  | e :: es => by rw [argsMention, Bool.or_eq_false_iff, Exp.mentions_eq_false, argsMention_eq_false, argsVarsIn]

theorem termsMention_eq_false : ∀ {ts : List Term}, termsMention i ts = false ↔ termsVarsIn (· ≠ i) ts
  | [] => by simp [termsMention, termsVarsIn]
  | t :: ts => by rw [termsMention, Bool.or_eq_false_iff, Term.mentions_eq_false, termsMention_eq_false, termsVarsIn]
end

mutual
/-- Outside tuples of expressions a variable that is mentioned is a term, or a term of an argument. -/
theorem argsMention_eq : ∀ {es : List Exp}, argsReadable es = true →
    argsMention i es = (argsArguments es).any (Exp.hasVar i)
  | [], _ => rfl
  | .mk k ts :: es, h => by
    simp only [argsReadable, Bool.and_eq_true] at h
    have hterms : (Exp.mk k ts).mentions i = (ts.any (Term.isVar i) || (termsArguments ts).any (Exp.hasVar i)) :=
      termsMention_eq h.1
    rw [argsMention, hterms, argsMention_eq h.2, argsArguments, List.any_cons, List.any_append, Bool.or_assoc]
    rfl

theorem termsMention_eq : ∀ {ts : List Term}, termsReadable ts = true →
    termsMention i ts = (ts.any (Term.isVar i) || (termsArguments ts).any (Exp.hasVar i))
  | [], _ => rfl
  | t :: ts, h => by
    simp only [termsReadable, Bool.and_eq_true] at h
    rw [termsMention, termsMention_eq h.2, Term.mentions_eq h.1, termsArguments, List.any_cons, List.any_append]
    ac_rfl

theorem Term.mentions_eq : ∀ {t : Term}, t.readable = true →
    t.mentions i = (t.isVar i || t.arguments.any (Exp.hasVar i))
  | .ufCall c f as j, h => by
    simp only [Term.readable, Bool.and_eq_true] at h
    rw [Term.mentions, argsMention_eq h.2]
    simp [Term.isVar, Term.arguments]
  | .tupleVar .., _ => by simp [Term.mentions, Term.isVar, Term.arguments]
  | .symConst .., _ | .constVal _, _ => rfl
end

theorem Exp.occursInArgument_eq_false {e : Exp} : e.occursInArgument i = false ↔
    ∀ t ∈ e.terms, t.occursInArgument i = false := by
  obtain ⟨k, ts⟩ := e
  show termsOccurInArgument i ts = false ↔ ∀ t ∈ ts, t.occursInArgument i = false
  induction ts with
  | nil => simp [termsOccurInArgument]
  | cons t ts ih => rw [termsOccurInArgument, Bool.or_eq_false_iff, ih, List.forall_mem_cons]

theorem Term.occursInArgument_eq {t : Term} (h : t.readable = true) :
    t.occursInArgument i = t.arguments.any (Exp.hasVar i) := by
  cases t with
  | ufCall c f as j =>
    simp only [Term.readable, Bool.and_eq_true] at h
    exact argsMention_eq h.2
  | tupleExp => cases h
  | _ => rfl

/-- Outside tuples of expressions the visitor sees every occurrence. -/
theorem Exp.occursInArgument_eq {e : Exp} (h : e.readable = true) : e.occursInArgument i = e.showsArgument i := by
  obtain ⟨k, ts⟩ := e
  have hr := Exp.readable_iff.1 h
  show termsOccurInArgument i ts = (termsArguments ts).any (Exp.hasVar i)
  clear h
  induction ts with
  | nil => rfl
  | cons t ts ih =>
    obtain ⟨ht, hts⟩ := List.forall_mem_cons.1 hr
    rw [termsOccurInArgument, termsArguments, List.any_append, Term.occursInArgument_eq ht, ih hts]

@[simp] theorem Term.occursInArgument_setCoefficient (c : Int) (t : Term) :
    (t.setCoefficient c).occursInArgument i = t.occursInArgument i := by cases t <;> rfl

theorem Term.occursInArgument_of_varsIn {t : Term} (hr : t.readable = true) (h : t.VarsIn (· ≠ i)) :
    t.occursInArgument i = false := by
  cases t with
  | ufCall => exact argsMention_eq_false.2 h
  | tupleExp => cases hr
  | _ => rfl

theorem Exp.occursInArgument_addExp {e e' : Exp} (hr : e'.readable = true) (h : e.occursInArgument i = false)
    (h' : e'.occursInArgument i = false) : (e.addExp e').occursInArgument i = false := by
  rw [Exp.occursInArgument_eq_false] at h h' ⊢
  rw [terms_addExp hr]
  exact forall_foldl_addOne (fun c t ht => by rw [Term.occursInArgument_setCoefficient, ht]) h' h

theorem Exp.occursInArgument_normalize {e : Exp} (h : e.occursInArgument i = false) :
    e.normalizeForEquality.occursInArgument i = false := by
  rw [Exp.occursInArgument_eq_false] at h ⊢
  intro t ht
  obtain ⟨c, u, hu, rfl⟩ := terms_normalizeForEquality e t ht
  rw [Term.occursInArgument_setCoefficient, h u hu]

/-- A call without the variable in its arguments collapses to an expression without the variable. -/
theorem Term.occursInArgument_collapse {t : Term} {e : Exp} (hr : t.readable = true) (h : t.occursInArgument i = false)
    (he : t.collapseNestedInvertibleFunctions env = .ok e) : e.readable = true ∧ e.occursInArgument i = false := by
  have hread : ∀ u ∈ e.terms, u.readable = true := fun u hu => (Term.termsOk_collapse hr he u hu).1
  refine ⟨Exp.readable_iff.2 hread, ?_⟩
  rw [Exp.occursInArgument_eq_false]
  cases t with
  | ufCall c f as j =>
    have hv : (Term.ufCall c f as j).VarsIn (· ≠ i) := argsMention_eq_false.1 h
    have hev := Exp.varsIn_iff.1 (Term.varsIn_collapse hv he)
    exact fun u hu => Term.occursInArgument_of_varsIn (hread u hu) (hev u hu)
  | tupleExp => cases hr
  | tupleVar | symConst | constVal =>
    cases he
    rw [terms_addTerm hr]
    exact forall_addOne (fun c u hu => by rw [Term.occursInArgument_setCoefficient, hu]) rfl (by simp)

theorem Exp.occursInArgument_collapse {e e' : Exp} (hr : e.readable = true) (h : e.occursInArgument i = false)
    (he : e.collapseNestedInvertibleFunctions env = .ok e') : e'.occursInArgument i = false := by
  obtain ⟨k, ts⟩ := e
  have hrun : ∀ (ts : List Term) (acc : Exp), (∀ t ∈ ts, t.readable = true) → (∀ t ∈ ts, t.occursInArgument i = false) →
      acc.occursInArgument i = false → termsCollapse env ts acc = .ok e' → e'.occursInArgument i = false := by
    intro ts
    induction ts with
    | nil =>
      intro acc _ _ hacc he
      cases he
      exact hacc
    | cons t ts ih =>
      intro acc hr h hacc he
      obtain ⟨hrt, hrts⟩ := List.forall_mem_cons.1 hr
      obtain ⟨ht, hts⟩ := List.forall_mem_cons.1 h
      simp only [termsCollapse, bind_eq_ok] at he
      obtain ⟨d, hd, he⟩ := he
      obtain ⟨hread, hocc⟩ := Term.occursInArgument_collapse hrt ht hd
      exact ih _ hrts hts (Exp.occursInArgument_addExp hread hacc hocc) he
  exact hrun ts _ (Exp.readable_iff.1 hr) (Exp.occursInArgument_eq_false.1 h) rfl he

/-- The variable is an argument in no constraint. -/
def Conjunction.AvoidsArgument (i : Nat) (c : Conjunction) : Prop :=
  ∀ e ∈ c.equalities ++ c.inequalities, e.occursInArgument i = false

theorem occursInArgument_eq_false {cs : List Conjunction} :
    occursInArgument i cs = false ↔ ∀ c ∈ cs, c.AvoidsArgument i := by
  simp only [occursInArgument, Conjunction.AvoidsArgument, List.any_eq_false, Bool.not_eq_true]

theorem Exp.occursInArgument_asEquality {e d : Exp} (h : e.occursInArgument i = false) (hd : d ∈ e.asEquality) :
    d.occursInArgument i = false := by
  rw [Exp.eq_of_mem_asEquality hd]
  have hn := Exp.occursInArgument_normalize h
  rw [Exp.occursInArgument_eq_false] at hn ⊢
  exact hn

theorem Exp.occursInArgument_asInequality {e d : Exp} (h : e.occursInArgument i = false) (hd : d ∈ e.asInequality) :
    d.occursInArgument i = false := by
  rw [Exp.eq_of_mem_asInequality hd]
  rw [Exp.occursInArgument_eq_false] at h ⊢
  exact h

theorem Conjunction.AvoidsArgument.cleanUp {c d : Conjunction} (hr : c.readable = true) (h : c.AvoidsArgument i)
    (hd : c.cleanUp env = .ok d) : d.AvoidsArgument i := by
  obtain ⟨heqs, hineqs⟩ := Conjunction.readable_iff.1 hr
  intro x hx
  rcases List.mem_append.1 hx with hx | hx
  · obtain ⟨e, he, e', hcol, hxe⟩ := exists_of_mem_cleanUp_equalities hd hx
    have hn := Exp.occursInArgument_normalize (h e (List.mem_append_left _ he))
    exact Exp.occursInArgument_asEquality
      (Exp.occursInArgument_collapse (readable_normalizeForEquality (heqs e he)) hn hcol) hxe
  · obtain ⟨e, he, e', hcol, hxe⟩ := exists_of_mem_cleanUp_inequalities hd hx
    exact Exp.occursInArgument_asInequality
      (Exp.occursInArgument_collapse (hineqs e he) (h e (List.mem_append_right _ he)) hcol) hxe

/-- What is left has the removed variable in no argument, and no other variable in more arguments than before. -/
theorem Conjunction.avoids_reduced {c : Conjunction} (hr : c.readable = true) :
    (c.reduced i).AvoidsArgument i ∧ ∀ j, c.AvoidsArgument j → (c.reduced i).AvoidsArgument j := by
  obtain ⟨heqs, hineqs⟩ := Conjunction.readable_iff.1 hr
  constructor
  · intro d hd
    rcases List.mem_append.1 hd with hd | hd
    · obtain ⟨e, he, hshow, hde⟩ := mem_equalities_reduced hd
      exact Exp.occursInArgument_asEquality ((Exp.occursInArgument_eq (heqs e he)).trans hshow) hde
    · obtain ⟨e, he, hshow, hde⟩ := mem_inequalities_reduced hd
      exact Exp.occursInArgument_asInequality ((Exp.occursInArgument_eq (hineqs e he)).trans hshow) hde
  · intro j hj
    exact forall_reduced (P := fun e => e.occursInArgument j = false) (fun e d he hd => Exp.occursInArgument_asEquality he hd)
      (fun e d he hd => Exp.occursInArgument_asInequality he hd) hj

end Arguments

/-! ## Removing a variable -/

section Remove

variable {env : Environment} {I : Interp} {i : Nat}

/-- Every conjunction has an input arity that `setInArity` accepts, and what a conjunction that does not stay has as
tuples is in what is left of those that stay. -/
def WidensWithout (I : Interp) (i : Nat) (cs : List Conjunction) : Prop :=
  (∀ c ∈ cs, c.inArity < c.arity) ∧ ∀ c ∈ cs, ¬ StaysWithout i cs c →
    c.denote I ⊆ {t | ∃ d ∈ cs, StaysWithout i cs d ∧ t ∈ (d.without i).denote I}

/-- The conjunctions that are copied, when the visit ends well. -/
theorem copy_redSparseConstraints {cs : List Conjunction} (hcs : ∀ c ∈ cs, c.Cleanable env I) : ∃ ds,
    copyConjunctions env ((cs.map (Conjunction.reduced i)).foldl addConjunction []) = .ok ds ∧
      denoteUnion I ds = {t | ∃ d ∈ cs, StaysWithout i cs d ∧ t ∈ (d.without i).denote I} := by
  have hmem : ∀ {L : List Conjunction} {c : Conjunction}, c ∈ L.foldl addConjunction [] → c ∈ L := fun hc =>
    (mem_foldl_addConjunction hc).resolve_left List.not_mem_nil
  have hclean : ∀ b ∈ (cs.map (Conjunction.reduced i)).foldl addConjunction [], b.Cleanable env I := by
    intro b hb
    obtain ⟨c, hc, rfl⟩ := List.mem_map.1 (hmem hb)
    exact (hcs c hc).reduced
  obtain ⟨ds, hds, -, hden⟩ := cleanUp_denotes fun b hb => (hclean b (hmem hb)).cleansRight
  refine ⟨ds, hds, ?_⟩
  ext t
  rw [hden, mem_denoteUnion_foldl fun c hc => (hclean c hc).readable]
  exact mem_denoteUnion_stays fun c hc => (hcs c hc).readable

/-- A conjunction of the result is what is left of one, cleaned up. -/
theorem exists_of_mem_removed {cs ds : List Conjunction} (hw : ∀ c ∈ cs, c.WellTyped)
    (h : removeUFCallConsts env i cs = .ok ds) {d : Conjunction} (hd : d ∈ ds) :
    ∃ c ∈ cs, (c.reduced i).cleanUp env = .ok d := by
  unfold removeUFCallConsts at h
  obtain ⟨_, hred, h⟩ := bind_eq_ok.1 h
  obtain ⟨-, rfl⟩ := (redSparseConstraints_eq_ok hw).1 hred
  obtain ⟨b, hb, hbd⟩ := exists_of_mem_cleanUp h hd
  have hb := (mem_foldl_addConjunction hb).resolve_left List.not_mem_nil
  obtain ⟨c, hc, rfl⟩ := List.mem_map.1 ((mem_foldl_addConjunction hb).resolve_left List.not_mem_nil)
  exact ⟨c, hc, hbd⟩

/-- The result has the removed variable in no argument, and no other variable in more arguments than before. -/
theorem avoids_of_removed {cs ds : List Conjunction} (hr : ∀ c ∈ cs, c.readable = true) (hw : ∀ c ∈ cs, c.WellTyped)
    (h : removeUFCallConsts env i cs = .ok ds) : occursInArgument i ds = false ∧
      ∀ j, occursInArgument j cs = false → occursInArgument j ds = false := by
  refine ⟨occursInArgument_eq_false.2 fun d hd => ?_, fun j hj => occursInArgument_eq_false.2 fun d hd => ?_⟩
  · obtain ⟨c, hc, hcd⟩ := exists_of_mem_removed hw h hd
    exact (Conjunction.avoids_reduced (hr c hc)).1.cleanUp (Conjunction.reduced_adds (hr c hc)).readable hcd
  · obtain ⟨c, hc, hcd⟩ := exists_of_mem_removed hw h hd
    exact ((Conjunction.avoids_reduced (hr c hc)).2 j (occursInArgument_eq_false.1 hj c hc)).cleanUp
      (Conjunction.reduced_adds (hr c hc)).readable hcd

/-- What the result of a removal is to be. -/
structure Removed (I : Interp) (i : Nat) (cs ds : List Conjunction) : Prop where
  contains : denoteUnion I cs ⊆ denoteUnion I ds
  avoids : occursInArgument i ds = false

theorem removeUFCallConsts_right_iff {cs : List Conjunction} (hcs : ∀ c ∈ cs, c.Cleanable env I)
    (hw : ∀ c ∈ cs, c.WellTyped) :
    (∃ ds, removeUFCallConsts env i cs = .ok ds ∧ Removed I i cs ds) ↔ WidensWithout I i cs := by
  obtain ⟨ds, hds, hden⟩ := copy_redSparseConstraints (i := i) hcs
  have hrun : ∀ ds', removeUFCallConsts env i cs = .ok ds' ↔ (∀ c ∈ cs, c.inArity < c.arity) ∧ ds' = ds := by
    intro ds'
    unfold removeUFCallConsts
    simp only [bind_eq_ok, redSparseConstraints_eq_ok hw]
    constructor
    · rintro ⟨_, ⟨hall, rfl⟩, h⟩
      exact ⟨hall, Except.ok.inj (h.symm.trans hds)⟩
    · rintro ⟨hall, rfl⟩
      exact ⟨_, ⟨hall, rfl⟩, hds⟩
  have havoid : ∀ ds', removeUFCallConsts env i cs = .ok ds' → occursInArgument i ds' = false := fun ds' h =>
    (avoids_of_removed (fun c hc => (hcs c hc).readable) hw h).1
  simp only [hrun] at havoid ⊢
  constructor
  · rintro ⟨_, ⟨hall, rfl⟩, hcontains, -⟩
    rw [hden] at hcontains
    exact ⟨hall, fun c hc _ t ht => hcontains ⟨c, hc, ht⟩⟩
  · rintro ⟨hall, hsub⟩
    refine ⟨ds, ⟨hall, rfl⟩, ?_, havoid ds ⟨hall, rfl⟩⟩
    rw [hden]
    rintro t ⟨c, hc, ht⟩
    by_cases hstay : StaysWithout i cs c
    · exact ⟨c, hc, hstay, c.denote_subset_without ht⟩
    · exact hsub c hc hstay ht

theorem inArity_reduced (c : Conjunction) : (c.reduced i).inArity = c.inArity :=
  inArity_intersect { Conjunction.ofTupleDecl c.tupleDecl with inArity := c.inArity } (c.without i)

/-- The check of the input arities passes when those of the relation are right. -/
theorem Relation.removeUFCallConsts_eq {n : Nat} {cs : List Conjunction} (hw : ∀ c ∈ cs, c.WellTyped)
    (hn : ∀ c ∈ cs, c.inArity = n) : Relation.removeUFCallConsts env n i cs = IEGen.removeUFCallConsts env i cs := by
  unfold Relation.removeUFCallConsts IEGen.removeUFCallConsts
  cases hred : redSparseConstraints i cs with
  | error f => rfl
  | ok ds =>
    obtain ⟨-, rfl⟩ := (redSparseConstraints_eq_ok hw).1 hred
    have hin : ∀ c ∈ (cs.map (Conjunction.reduced i)).foldl IEGen.addConjunction [], c.inArity = n := by
      intro b hb
      obtain ⟨c, hc, rfl⟩ := List.mem_map.1 ((mem_foldl_addConjunction hb).resolve_left List.not_mem_nil)
      rw [inArity_reduced, hn c hc]
    show (do IEGen.cleanUp env (← List.foldlM (Relation.addConjunction n) [] _)) = _
    rw [Relation.foldlM_addConjunction hin]
    rfl

/-- The conjunctions of a result have the input arities of those it is built from. -/
theorem inArity_of_mem_removed {n : Nat} {cs ds : List Conjunction} (hw : ∀ c ∈ cs, c.WellTyped)
    (h : removeUFCallConsts env i cs = .ok ds) (hn : ∀ c ∈ cs, c.inArity = n) : ∀ d ∈ ds, d.inArity = n := by
  intro d hd
  obtain ⟨c, hc, hcd⟩ := exists_of_mem_removed hw h hd
  obtain ⟨eqs, ineqs, -, -, rfl⟩ := cleanUp_eq_ok hcd
  exact (inArity_reduced c).trans (hn c hc)

/-- Each removal of a run of `removeExpensiveConstraints` widens what it finds. -/
def WidensAt (env : Environment) (I : Interp) (parallelTvs : List Nat) (ignore : List Exp) :
    List Nat → Int → List Conjunction → Prop
  | [], _, _ => True
  | i :: tvs, k, cs =>
    if i ∈ parallelTvs then WidensAt env I parallelTvs ignore tvs k cs
    else (∀ c ∈ cs, c.Cleanable env I ∧ c.WellTyped) ∧ ∀ n, numUFCallConstsMustRemove i ignore cs = .ok n →
      if n > k then WidensAt env I parallelTvs ignore tvs k cs
      else WidensWithout I i cs ∧ ∀ ds, removeUFCallConsts env i cs = .ok ds →
        WidensAt env I parallelTvs ignore tvs (k - n) ds

/-- The result of removing the variables `is`, one after the other. -/
structure RemovedAll (I : Interp) (remove : Nat → List Conjunction → Except Failure (List Conjunction)) (is : List Nat)
    (cs ds : List Conjunction) : Prop where
  run : is.foldlM (fun cs i => remove i cs) cs = .ok ds
  contains : denoteUnion I cs ⊆ denoteUnion I ds
  avoids : ∀ i ∈ is, occursInArgument i ds = false

/-- In a run whose removals widen what they find the result contains what was there. -/
theorem removeExpensiveAt_widens (remove : Nat → List Conjunction → Except Failure (List Conjunction))
    (Good : List Conjunction → Prop) (hremove : ∀ {i cs}, Good cs → (∀ c ∈ cs, c.WellTyped) →
      remove i cs = removeUFCallConsts env i cs ∧ ∀ ds, removeUFCallConsts env i cs = .ok ds → Good ds)
    {parallelTvs : List Nat} {ignore : List Exp} : ∀ {tvs : List Nat} {k : Int} {cs : List Conjunction}, Good cs →
      WidensAt env I parallelTvs ignore tvs k cs → ∃ ds is, is.Sublist tvs ∧
        removeExpensiveAt remove parallelTvs ignore tvs k cs = .ok ds ∧ RemovedAll I remove is cs ds ∧
        ∀ j, occursInArgument j cs = false → occursInArgument j ds = false
  | [], _, cs, _, _ => ⟨cs, [], List.Sublist.refl [], rfl, ⟨rfl, subset_rfl, by simp⟩, fun _ => id⟩
  | i :: tvs, k, cs, hgood, h => by
    have hskip : ∀ {x : Except Failure (List Conjunction)}, WidensAt env I parallelTvs ignore tvs k cs →
        x = removeExpensiveAt remove parallelTvs ignore tvs k cs → ∃ ds is, is.Sublist (i :: tvs) ∧ x = .ok ds ∧
          RemovedAll I remove is cs ds ∧ ∀ j, occursInArgument j cs = false → occursInArgument j ds = false := by
      rintro _ h rfl
      obtain ⟨ds, is, hsub, hds, hrem, hkeep⟩ := removeExpensiveAt_widens remove Good hremove hgood h
      exact ⟨ds, is, hsub.cons i, hds, hrem, hkeep⟩
    unfold WidensAt at h
    unfold removeExpensiveAt
    split_ifs at h ⊢ with hpar
    · exact hskip h rfl
    · obtain ⟨hall, h⟩ := h
      have hw : ∀ c ∈ cs, c.WellTyped := fun c hc => (hall c hc).2
      have hcs : ∀ c ∈ cs, c.Cleanable env I := fun c hc => (hall c hc).1
      have hcount : numUFCallConstsMustRemove i ignore cs = _ := numUFCallConstsMustRemove_eq hw
      have h := h _ hcount
      rw [hcount]
      split_ifs at h with hmany
      · exact hskip h (if_pos hmany)
      · obtain ⟨hwid, h⟩ := h
        obtain ⟨ds₁, hds₁, hrem₁⟩ := (removeUFCallConsts_right_iff hcs hw).2 hwid
        obtain ⟨heq, hgood₁⟩ := hremove (i := i) hgood hw
        obtain ⟨ds, is, hsub, hds, hrem, hkeep⟩ := removeExpensiveAt_widens remove Good hremove (hgood₁ ds₁ hds₁) (h ds₁ hds₁)
        have hstep : remove i cs = .ok ds₁ := heq.trans hds₁
        refine ⟨ds, i :: is, hsub.cons_cons i, ?_, ⟨?_, hrem₁.contains.trans hrem.contains, ?_⟩, ?_⟩
        · show (if _ then _ else if _ then _ else _) = _
          rw [if_neg hmany, if_pos (Int.natCast_nonneg _), hstep]
          exact hds
        · rw [List.foldlM_cons, hstep]
          exact hrem.run
        · exact List.forall_mem_cons.2 ⟨hkeep i hrem₁.avoids, hrem.avoids⟩
        · exact fun j hj => hkeep j ((avoids_of_removed (fun c hc => (hcs c hc).readable) hw hds₁).2 j hj)

end Remove

/-- `removeUFCallConsts` leaves a set or a relation that contains the original and has the variable in no argument iff
every conjunction has an input arity that `setInArity` accepts and what does not stay has no tuples of its own. Where
each removal of `removeExpensiveConstraints` is one like that, its result contains the original, with the removed
variables in no argument. -/
theorem removeUFCallConsts_iff (env : Environment) (I : Interp) (s : Set) (r : Relation) (i : Nat)
    (hs : ∀ c ∈ s.conjunctions, c.Cleanable env I ∧ c.WellTyped)
    (hr : ∀ c ∈ r.conjunctions, c.Cleanable env I ∧ c.WellTyped) (hw : r.wellFormed = true) :
    (((∃ ds, removeUFCallConsts env i s.conjunctions = .ok ds ∧ Removed I i s.conjunctions ds) ↔
        WidensWithout I i s.conjunctions) ∧
      ∀ parallelTvs ignore k, WidensAt env I parallelTvs ignore (List.range s.arity).reverse k s.conjunctions →
        ∃ s' is, is.Sublist (List.range s.arity).reverse ∧
          s.removeExpensiveConstraints env parallelTvs k ignore = .ok s' ∧
          RemovedAll I (removeUFCallConsts env) is s.conjunctions s'.conjunctions) ∧
    ((∃ ds, Relation.removeUFCallConsts env r.inArity i r.conjunctions = .ok ds ∧ Removed I i r.conjunctions ds) ↔
        WidensWithout I i r.conjunctions) ∧
      ∀ parallelTvs ignore k,
        WidensAt env I parallelTvs ignore (List.range (r.inArity + r.outArity)).reverse k r.conjunctions →
        ∃ r' is, is.Sublist (List.range (r.inArity + r.outArity)).reverse ∧
          r.removeExpensiveConstraints env parallelTvs k ignore = .ok r' ∧
          RemovedAll I (Relation.removeUFCallConsts env r.inArity) is r.conjunctions r'.conjunctions := by
  have hin := Relation.wellFormed_iff.1 hw
  refine ⟨⟨removeUFCallConsts_right_iff (fun c hc => (hs c hc).1) (fun c hc => (hs c hc).2), ?_⟩, ?_, ?_⟩
  · intro parallelTvs ignore k h
    obtain ⟨ds, is, hsub, hds, hrem, -⟩ := removeExpensiveAt_widens (removeUFCallConsts env) (fun _ => True)
      (fun _ _ => ⟨rfl, fun _ _ => trivial⟩) trivial h
    exact ⟨⟨s.arity, ds⟩, is, hsub, bind_eq_ok.2 ⟨ds, hds, rfl⟩, hrem⟩
  · rw [Relation.removeUFCallConsts_eq (fun c hc => (hr c hc).2) hin]
    exact removeUFCallConsts_right_iff (fun c hc => (hr c hc).1) (fun c hc => (hr c hc).2)
  · intro parallelTvs ignore k h
    obtain ⟨ds, is, hsub, hds, hrem, -⟩ := removeExpensiveAt_widens
      (Relation.removeUFCallConsts env r.inArity) (fun cs => ∀ c ∈ cs, c.inArity = r.inArity)
      (fun hgood hw => ⟨Relation.removeUFCallConsts_eq hw hgood, fun ds hds => inArity_of_mem_removed hw hds hgood⟩) hin h
    exact ⟨⟨r.inArity, r.outArity, ds⟩, is, hsub, bind_eq_ok.2 ⟨ds, hds, rfl⟩, hrem⟩

/-- `[i] : i - 5 >= 0` -/
def fromFiveConj : Conjunction := ⟨[], [.mk .inequality [.tupleVar 1 0, .constVal (-5)]], ⟨[⟨false, 0, "i"⟩]⟩, 0⟩

/-- `[i] : f(i) = 0` -/
def rootConj : Conjunction := ⟨[.mk .equality [.ufCall 1 "f" [.ofTerm (.tupleVar 1 0)] none]], [], ⟨[⟨false, 0, "i"⟩]⟩, 0⟩

/-- What loses all of its constraints gives way, so that the tuple `[0]` is lost. -/
theorem removeUFCallConsts_loses : ∃ ds, removeUFCallConsts ⟨[], [], []⟩ 0 [fromFiveConj, rootConj] = .ok ds ∧
    [0] ∈ denoteUnion identityInterp [fromFiveConj, rootConj] ∧ [0] ∉ denoteUnion identityInterp ds := by
  refine ⟨[fromFiveConj], rfl, ⟨rootConj, by simp, ⟨rfl, ?_⟩, ?_, by simp [rootConj]⟩, ?_⟩
  · intro i hi hc
    obtain rfl : i = 0 := Nat.lt_one_iff.1 hi
    cases hc
  · intro e he k
    obtain rfl : e = _ := List.mem_singleton.1 he
    cases k <;>
      simp [identityInterp, Exp.ofTerm, Exp.val, Term.val, argsVal, Interp.callVal, Interp.argTuple, valuation]
  · rintro ⟨c, hc, -, -, hineq⟩
    obtain rfl : c = fromFiveConj := List.mem_singleton.1 hc
    have h := hineq _ (List.mem_singleton.2 rfl) 0
    simp [Exp.val, Term.val, valuation] at h

/-- `n - f(i) = 0 && o - i >= 0`, with `i` and `o` declared -/
def pairedConj (inArity : Nat) : Conjunction :=
  ⟨[.mk .equality [.symConst 1 "n", .ufCall (-1) "f" [.ofTerm (.tupleVar 1 0)] none]],
    [.mk .inequality [.tupleVar (-1) 0, .tupleVar 1 1]], ⟨[⟨false, 0, "i"⟩, ⟨false, 0, "o"⟩]⟩, inArity⟩

theorem cleanable_pairedConj (n : Nat) : (pairedConj n).Cleanable ⟨[], [], []⟩ identityInterp ∧ (pairedConj n).WellTyped := by
  have hexp : ∀ e ∈ (pairedConj n).equalities ++ (pairedConj n).inequalities,
      e = .mk .equality [.symConst 1 "n", .ufCall (-1) "f" [.ofTerm (.tupleVar 1 0)] none] ∨
        e = .mk .inequality [.tupleVar (-1) 0, .tupleVar 1 1] := by
    intro e he
    simpa [pairedConj] using he
  refine ⟨⟨rfl, ?_, ?_, fun τ e he => Exp.collapseKeeps_of_not ?_⟩, ⟨?_, ?_⟩, ?_⟩
  · intro e he
    refine ⟨false, trivial, ?_⟩
    rcases hexp e he with rfl | rfl <;>
      simp [Exp.Fits, termsFits, Term.Fits, argsFits, Exp.ofTerm, Term.UsedAs, identityInterp]
  · intro e he
    rcases hexp e he with rfl | rfl
    · have hf : Decides ⟨[], [], []⟩ "f" [.ofTerm (.tupleVar 1 0)] := ⟨by simp, false, rfl⟩
      exact ⟨trivial, ⟨hf, ⟨trivial, trivial⟩, trivial⟩, trivial⟩
    · exact ⟨trivial, trivial, trivial⟩
  · rcases hexp e he with rfl | rfl
    · have hf : ¬ Collapsible ⟨[], [], []⟩ "f" [.ofTerm (.tupleVar 1 0)] := by
        intro h
        cases h
      exact ⟨trivial, ⟨hf, ⟨trivial, trivial⟩, trivial⟩, trivial⟩
    · exact ⟨trivial, trivial, trivial⟩
  · simp [pairedConj]
  · simp [pairedConj]
  · simp [pairedConj, Conjunction.arguments, Exp.arguments, termsArguments, Term.arguments, argsArguments, Exp.ofTerm]

theorem removeUFCallConsts_iff_paired :
    (∃ ds, removeUFCallConsts ⟨[], [], []⟩ 0 [pairedConj 0] = .ok ds ∧ Removed identityInterp 0 [pairedConj 0] ds) ∧
    (∃ s' is, (Set.mk 2 [pairedConj 0]).removeExpensiveConstraints ⟨[], [], []⟩ [1] 1 [] = .ok s' ∧
      RemovedAll identityInterp (removeUFCallConsts ⟨[], [], []⟩) is [pairedConj 0] s'.conjunctions) ∧
    ∃ ds, Relation.removeUFCallConsts ⟨[], [], []⟩ 1 0 [pairedConj 1] = .ok ds ∧
      Removed identityInterp 0 [pairedConj 1] ds := by
  have hc : ∀ n, ∀ c ∈ [pairedConj n], c.Cleanable ⟨[], [], []⟩ identityInterp ∧ c.WellTyped := by
    intro n c hc
    rw [List.mem_singleton.1 hc]
    exact cleanable_pairedConj n
  have hwid : ∀ n < 2, WidensWithout identityInterp 0 [pairedConj n] := by
    intro n hn
    refine ⟨fun c hc => ?_, fun c hc hstay => absurd ?_ hstay⟩
    · rw [List.mem_singleton.1 hc]
      exact hn
    · rw [List.mem_singleton.1 hc]
      exact ⟨List.mem_singleton.2 rfl, .inl rfl⟩
  obtain ⟨⟨hset, hrun⟩, hrel, -⟩ := removeUFCallConsts_iff ⟨[], [], []⟩ identityInterp ⟨2, [pairedConj 0]⟩
    ⟨1, 1, [pairedConj 1]⟩ 0 (hc 0) (hc 1) rfl
  have hat : WidensAt ⟨[], [], []⟩ identityInterp [1] [] [1, 0] 1 [pairedConj 0] := by
    refine ⟨hc 0, fun n hn => ?_⟩
    obtain rfl : 1 = n := Except.ok.inj hn
    exact ⟨hwid 0 (by decide), fun _ _ => trivial⟩
  obtain ⟨s', is, -, hs', hrem⟩ := hrun [1] [] 1 hat
  exact ⟨hset.2 (hwid 0 (by decide)), ⟨s', is, hs', hrem⟩, hrel.2 (hwid 1 (by decide))⟩

end IEGen
