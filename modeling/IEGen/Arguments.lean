import IEGen.SuperAffine

/-!
# Tuple variables that are arguments

`isUFCallParam` tells whether a tuple variable is in an argument of a call. Its visitor keeps one flag for the
expression that is visited and one for the expression around it, so that two levels of arguments overwrite what was
seen before them.

* A run finds a variable iff it is a term of an argument with no call after it whose arguments have calls of their own
  (`shows`, `walked_terms`).
* So the answer is right iff the variable is in no argument, or in one of these (`isUFCallParam_iff`).
-/

namespace IEGen

/-! ## Arguments and variables -/

mutual
/-- The arguments of the calls in a term, those inside arguments included; what is in a tuple is left out. -/
def Term.arguments : Term → List Exp
  | .ufCall _ _ as _ => argsArguments as
  | _ => []

def Exp.arguments : Exp → List Exp
  | .mk _ ts => termsArguments ts

def argsArguments : List Exp → List Exp
  | [] => []
  | e :: es => e :: (e.arguments ++ argsArguments es)

def termsArguments : List Term → List Exp
  | [] => []
  | t :: ts => t.arguments ++ termsArguments ts
end

/-- The arguments of the calls in the constraints. -/
def Conjunction.arguments (c : Conjunction) : List Exp := (c.equalities ++ c.inequalities).flatMap Exp.arguments

section Mentions

variable (i : Nat)

mutual
/-- A tuple variable occurs in a term. -/
def Term.mentions : Term → Bool
  | .tupleVar _ l => l == i
  | .symConst .. | .constVal _ => false
  | .ufCall _ _ as _ => argsMention as
  | .tupleExp _ es => argsMention es

def Exp.mentions : Exp → Bool
  | .mk _ ts => termsMention ts

def argsMention : List Exp → Bool
  | [] => false
  | e :: es => e.mentions || argsMention es

def termsMention : List Term → Bool
  | [] => false
  | t :: ts => t.mentions || termsMention ts
end

mutual
/-- A tuple variable occurs in an argument of a call. -/
def Term.occursInArgument : Term → Bool
  | .ufCall _ _ as _ => argsMention i as
  | .tupleExp _ es => elemsOccurInArgument es
  | .tupleVar .. | .symConst .. | .constVal _ => false

def Exp.occursInArgument : Exp → Bool
  | .mk _ ts => termsOccurInArgument ts

def elemsOccurInArgument : List Exp → Bool
  | [] => false
  | e :: es => e.occursInArgument || elemsOccurInArgument es

def termsOccurInArgument : List Term → Bool
  | [] => false
  | t :: ts => t.occursInArgument || termsOccurInArgument ts
end

/-- A tuple variable occurs in an argument of a call of a union. -/
def occursInArgument (cs : List Conjunction) : Bool :=
  cs.any (fun c => (c.equalities ++ c.inequalities).any (Exp.occursInArgument i))

variable {i}

mutual
theorem Term.mentions_of_argument : ∀ {t : Term} {e : Exp}, e ∈ t.arguments → e.mentions i = true → t.mentions i = true
  | .ufCall .., _, he, h => argsMention_of_argument he h
  | .tupleVar .., _, he, _ | .symConst .., _, he, _ | .constVal _, _, he, _ | .tupleExp .., _, he, _ => by cases he

theorem Exp.mentions_of_argument : ∀ {d e : Exp}, e ∈ d.arguments → e.mentions i = true → d.mentions i = true
  | .mk _ _, _, he, h => termsMention_of_argument he h

theorem argsMention_of_argument : ∀ {es : List Exp} {e : Exp}, e ∈ argsArguments es → e.mentions i = true →
    argsMention i es = true
  | [], _, he, _ => by cases he
  | d :: es, e, he, h => by
    simp only [argsMention, Bool.or_eq_true]
    rcases List.mem_cons.1 he with rfl | he
    · exact .inl h
    · rcases List.mem_append.1 he with he | he
      · exact .inl (Exp.mentions_of_argument he h)
      · exact .inr (argsMention_of_argument he h)

theorem termsMention_of_argument : ∀ {ts : List Term} {e : Exp}, e ∈ termsArguments ts → e.mentions i = true →
    termsMention i ts = true
  | [], _, he, _ => by cases he
  | t :: ts, e, he, h => by
    simp only [termsMention, Bool.or_eq_true]
    rcases List.mem_append.1 he with he | he
    · exact .inl (Term.mentions_of_argument he h)
    · exact .inr (termsMention_of_argument he h)
end

theorem Term.occursInArgument_of_argument {t : Term} {e : Exp} (he : e ∈ t.arguments) (h : e.mentions i = true) :
    t.occursInArgument i = true := by
  cases t with
  | ufCall c f as j => exact argsMention_of_argument he h
  | _ => cases he

theorem Exp.occursInArgument_of_argument {d e : Exp} (he : e ∈ d.arguments) (h : e.mentions i = true) :
    d.occursInArgument i = true := by
  obtain ⟨k, ts⟩ := d
  have hts : ∀ ts : List Term, e ∈ termsArguments ts → termsOccurInArgument i ts = true := by
    intro ts
    induction ts with
    | nil => intro he; cases he
    | cons t ts ih =>
      intro he
      simp only [termsOccurInArgument, Bool.or_eq_true]
      rcases List.mem_append.1 he with he | he
      · exact .inl (Term.occursInArgument_of_argument he h)
      · exact .inr (ih he)
  exact hts ts he

/-- What mentions the variable and is an argument makes it occur in one. -/
theorem occursInArgument_of_argument {cs : List Conjunction} {c : Conjunction} {e : Exp} (hc : c ∈ cs)
    (he : e ∈ c.arguments) (h : e.mentions i = true) : occursInArgument i cs = true := by
  obtain ⟨d, hd, he⟩ := List.mem_flatMap.1 he
  exact List.any_eq_true.2 ⟨c, hc, List.any_eq_true.2 ⟨d, hd, Exp.occursInArgument_of_argument he h⟩⟩

end Mentions

/-! ## The visitor -/

/-- `VisitorIsUFCallParam`, `mTupleID` left out. -/
structure VisitorIsUFCallParam where
  mResult : Bool
  mSeenTupleVar : Bool
  prevSeen : Bool

namespace VisitorIsUFCallParam

/-- `preVisitTupleVarTerm` -/
def preVisitTerm (mTupleID : Nat) (t : Term) (v : VisitorIsUFCallParam) : VisitorIsUFCallParam :=
  match t with
  | .tupleVar _ tvloc => if tvloc = mTupleID then { v with mSeenTupleVar := true } else v
  | _ => v

def preVisitExp (v : VisitorIsUFCallParam) : VisitorIsUFCallParam :=
  { v with prevSeen := v.mSeenTupleVar, mSeenTupleVar := false }

def postVisitExp (e : Exp) (v : VisitorIsUFCallParam) : VisitorIsUFCallParam :=
  let v := if e.expType = .expression ∧ v.mSeenTupleVar = true then { v with mResult := true } else v
  { v with mSeenTupleVar := v.prevSeen }

def visitor (mTupleID : Nat) : Visitor VisitorIsUFCallParam where
  preVisitTerm := fun t v => .ok (v.preVisitTerm mTupleID t)
  preVisitExp := fun _ v => .ok v.preVisitExp
  postVisitExp := fun e v => .ok (v.postVisitExp e)

end VisitorIsUFCallParam

/-- `SparseConstraints::isUFCallParam` -/
def isUFCallParam (cs : List Conjunction) (tupleID : Nat) : Except Failure Bool := do
  let v ← acceptVisitor (VisitorIsUFCallParam.visitor tupleID) cs ⟨false, false, false⟩
  .ok v.mResult

/-! ## What a run finds -/

/-- A call with calls inside its arguments. -/
def Term.hasInnerCalls : Term → Bool
  | .ufCall _ _ as _ => as.any (fun e => !e.arguments.isEmpty)
  | _ => false

/-- A tuple variable is one of the terms, and no call after it has calls inside its arguments. -/
def endsSeen (i : Nat) : List Term → Bool
  | [] => false
  | t :: ts =>
    (match t with
      | .tupleVar _ l => l == i && ts.all (fun u => !u.hasInnerCalls)
      | _ => false) || endsSeen i ts

/-- An argument of a union ends with the variable seen. -/
def seenInArgument (i : Nat) (cs : List Conjunction) : Bool :=
  cs.any (fun c => c.arguments.any (fun e => endsSeen i e.terms))

/-- The constraints are marked as what they are, and arguments as plain expressions. -/
structure Conjunction.WellTyped (c : Conjunction) : Prop where
  typed : c.Typed
  arguments : ∀ e ∈ c.arguments, e.expType = .expression

theorem Conjunction.WellTyped.constraints {c : Conjunction} (hc : c.WellTyped) :
    ∀ e ∈ c.equalities ++ c.inequalities, e.expType ≠ .expression := by
  intro e he
  rcases List.mem_append.1 he with he | he
  · rw [hc.typed.1 e he]; nofun
  · rw [hc.typed.2 e he]; nofun

theorem Conjunction.WellTyped.plain {c : Conjunction} (hc : c.WellTyped) :
    ∀ e ∈ c.equalities ++ c.inequalities, ∀ d ∈ e.arguments, d.expType = .expression := fun e he d hd =>
  hc.arguments d (List.mem_flatMap.2 ⟨e, he, hd⟩)

namespace VisitorIsUFCallParam

variable {i : Nat}

/-- What a walk over arguments or terms does to the three flags: `inner` when it meets no argument, `deep` when it meets
none with calls inside, `seen` when its own terms end with the variable seen, `found` when an argument shows it. -/
structure Walked (inner deep seen found : Prop) (v v' : VisitorIsUFCallParam) : Prop where
  result : v'.mResult = true ↔ v.mResult = true ∨ found
  seen_imp : v'.mSeenTupleVar = true → (v.mSeenTupleVar = true ∧ deep) ∨ seen ∨ found
  seen_of : (v.mSeenTupleVar = true ∧ deep) ∨ seen → v'.mSeenTupleVar = true
  prev_imp : v'.prevSeen = true → (v.prevSeen = true ∧ inner) ∨ (v.mSeenTupleVar = true ∧ deep) ∨ seen ∨ found
  prev_of : inner → v'.prevSeen = v.prevSeen

variable {v v' v'' : VisitorIsUFCallParam}

/-- Nothing of interest is met. -/
theorem Walked.refl : Walked True True False False v v :=
  ⟨by simp, fun h => .inl ⟨h, trivial⟩, by simp, fun h => .inl ⟨h, trivial⟩, fun _ => rfl⟩

theorem Walked.congr {p q r s p' q' r' s' : Prop} (h : Walked p q r s v v') (hp : p ↔ p') (hq : q ↔ q') (hr : r ↔ r')
    (hs : s ↔ s') : Walked p' q' r' s' v v' := by
  rwa [← hp, ← hq, ← hr, ← hs]

/-- One walk after the other: what the first has seen is lost where the second meets calls inside arguments. -/
theorem Walked.trans {p q r s p' q' r' s' : Prop} (h : Walked p q r s v v') (h' : Walked p' q' r' s' v' v'')
    (hpq : p' → q') : Walked (p ∧ p') (q ∧ q') ((r ∧ q') ∨ r') (s ∨ s') v v'' := by
  obtain ⟨h₁, h₂, h₃, h₄, h₅⟩ := h
  obtain ⟨h₁', h₂', h₃', h₄', h₅'⟩ := h'
  refine ⟨by rw [h₁', h₁, or_assoc], fun hs => ?_, fun hs => ?_, fun hs => ?_, fun hp => (h₅' hp.2).trans (h₅ hp.1)⟩
  · rcases h₂' hs with ⟨hv, hq'⟩ | hr' | hs'
    · rcases h₂ hv with ⟨hv, hq⟩ | hr | hs
      · exact .inl ⟨hv, hq, hq'⟩
      · exact .inr (.inl (.inl ⟨hr, hq'⟩))
      · exact .inr (.inr (.inl hs))
    · exact .inr (.inl (.inr hr'))
    · exact .inr (.inr (.inr hs'))
  · rcases hs with ⟨hv, hq, hq'⟩ | ⟨hr, hq'⟩ | hr'
    · exact h₃' (.inl ⟨h₃ (.inl ⟨hv, hq⟩), hq'⟩)
    · exact h₃' (.inl ⟨h₃ (.inr hr), hq'⟩)
    · exact h₃' (.inr hr')
  · rcases h₄' hs with ⟨hv, hp'⟩ | ⟨hv, hq'⟩ | hr' | hs'
    · -- the second walk meets no argument: the flag is the one that the first has left
      rcases h₄ hv with ⟨hv, hp⟩ | ⟨hv, hq⟩ | hr | hs
      · exact .inl ⟨hv, hp, hp'⟩
      · exact .inr (.inl ⟨hv, hq, hpq hp'⟩)
      · exact .inr (.inr (.inl (.inl ⟨hr, hpq hp'⟩)))
      · exact .inr (.inr (.inr (.inl hs)))
    · rcases h₂ hv with ⟨hv, hq⟩ | hr | hs
      · exact .inr (.inl ⟨hv, hq, hq'⟩)
      · exact .inr (.inr (.inl (.inl ⟨hr, hq'⟩)))
      · exact .inr (.inr (.inr (.inl hs)))
    · exact .inr (.inr (.inl (.inr hr')))
    · exact .inr (.inr (.inr (.inr hs')))

/-- An argument: its terms are walked with the flag for the variable cleared. -/
theorem Walked.argument {ts : List Term} {p q r s : Prop}
    (h : Walked p q r s ⟨v.mResult, false, v.mSeenTupleVar⟩ v') :
    Walked False p False (r ∨ s) v (postVisitExp (.mk .expression ts) v') := by
  have hpost : postVisitExp (.mk .expression ts) v' =
      ⟨v'.mResult || v'.mSeenTupleVar, v'.prevSeen, v'.prevSeen⟩ := by
    obtain ⟨a, b, c⟩ := v'
    cases b <;> simp [postVisitExp]
  obtain ⟨h₁, h₂, h₃, h₄, h₅⟩ := h
  simp only [Bool.false_eq_true, false_and, false_or] at h₂ h₃ h₄
  rw [hpost]
  have hprev : v'.prevSeen = true → v.mSeenTupleVar = true ∧ p ∨ r ∨ s := h₄
  refine ⟨?_, fun hs => ?_, fun hs => ?_, fun hs => ?_, False.elim⟩
  · simp only [Bool.or_eq_true, h₁]
    constructor
    · rintro ((hv | hs) | hv)
      · exact .inl hv
      · exact .inr (.inr hs)
      · exact .inr (h₂ hv)
    · rintro (hv | hr | hs)
      · exact .inl (.inl hv)
      · exact .inr (h₃ hr)
      · exact .inl (.inr hs)
  · exact (hprev hs).imp_right .inr
  · obtain ⟨hv, hp⟩ := hs.resolve_right id
    exact (h₅ hp).trans hv
  · exact .inr ((hprev hs).imp_right .inr)

theorem hasInnerCalls_of_arguments {t : Term} (h : t.arguments = []) : t.hasInnerCalls = false := by
  cases t with
  | ufCall c f as j =>
    cases as with
    | nil => rfl
    | cons e es => cases h
  | _ => rfl

theorem arguments_nil_of_terms {ts : List Term} (h : termsArguments ts = []) : ∀ t ∈ ts, t.arguments = [] := by
  induction ts with
  | nil => simp
  | cons t ts ih =>
    obtain ⟨ht, hts⟩ := List.append_eq_nil_iff.1 h
    exact List.forall_mem_cons.2 ⟨ht, ih hts⟩

mutual
theorem walked_term : ∀ {t : Term} (v : VisitorIsUFCallParam), (∀ e ∈ t.arguments, e.expType = .expression) →
    ∃ v', t.acceptVisitor (visitor i) v = .ok v' ∧ Walked (t.arguments = []) (t.hasInnerCalls = false)
      (∃ c, t = .tupleVar c i) (∃ e ∈ t.arguments, endsSeen i e.terms = true) v v'
  | .ufCall c f as j, v, hp => by
    obtain ⟨v', hv', hw⟩ := walked_args as v hp
    refine ⟨v', ?_, hw.congr ?_ ?_ ?_ Iff.rfl⟩
    · unfold Term.acceptVisitor
      simp only [visitor, preVisitTerm, Outcome.bind_eq_ok, Except.ok.injEq, exists_eq_left', exists_eq_right] at hv' ⊢
      exact hv'
    · cases as <;> simp [Term.arguments, argsArguments]
    · simp [Term.hasInnerCalls]
    · simp
  | .tupleVar c l, v, _ => by
    refine ⟨preVisitTerm i (.tupleVar c l) v, rfl, ?_⟩
    by_cases hl : l = i
    · subst hl
      constructor <;> simp [Term.arguments, Term.hasInnerCalls, preVisitTerm]
    · have hv : preVisitTerm i (.tupleVar c l) v = v := if_neg hl
      rw [hv]
      exact Walked.refl.congr (by simp [Term.arguments]) (by simp [Term.hasInnerCalls]) (by simp [hl])
        (by simp [Term.arguments])
  | .symConst .., v, _ | .constVal _, v, _ | .tupleExp .., v, _ =>
    ⟨v, rfl, Walked.refl.congr (by simp [Term.arguments]) (by simp [Term.hasInnerCalls]) (by simp)
      (by simp [Term.arguments])⟩

/-- The arguments of a call, one after the other. -/
theorem walked_args : ∀ (es : List Exp) (v : VisitorIsUFCallParam), (∀ e ∈ argsArguments es, e.expType = .expression) →
    ∃ v', argsAcceptVisitor (visitor i) es v = .ok v' ∧ Walked (es = []) (∀ e ∈ es, e.arguments = []) False
      (∃ e ∈ argsArguments es, endsSeen i e.terms = true) v v'
  | [], v, _ => ⟨v, rfl, Walked.refl.congr (by simp) (by simp) Iff.rfl (by simp [argsArguments])⟩
  | .mk k ts :: es, v, hp => by
    obtain ⟨hk, hp⟩ := List.forall_mem_cons.1 hp
    obtain ⟨hts, hes⟩ := List.forall_mem_append.1 hp
    obtain rfl : k = .expression := hk
    obtain ⟨v₁, hv₁, hw₁⟩ := walked_terms ts ⟨v.mResult, false, v.mSeenTupleVar⟩ hts
    obtain ⟨v₂, hv₂, hw₂⟩ := walked_args es (postVisitExp (.mk .expression ts) v₁) hes
    refine ⟨v₂, ?_, (hw₁.argument.trans hw₂ (by rintro rfl; simp)).congr (by simp) (by simp [Exp.arguments]) (by simp) ?_⟩
    · unfold argsAcceptVisitor Exp.acceptVisitor
      simp only [Outcome.bind_eq_ok]
      exact ⟨_, ⟨_, rfl, v₁, hv₁, rfl⟩, hv₂⟩
    · simp only [argsArguments, Exp.arguments, List.mem_cons, List.mem_append, or_and_right, exists_or, exists_eq_left,
        Exp.terms_mk, or_assoc]

theorem walked_terms : ∀ (ts : List Term) (v : VisitorIsUFCallParam), (∀ e ∈ termsArguments ts, e.expType = .expression) →
    ∃ v', termsAcceptVisitor (visitor i) ts v = .ok v' ∧ Walked (termsArguments ts = [])
      (∀ t ∈ ts, t.hasInnerCalls = false) (endsSeen i ts = true)
      (∃ e ∈ termsArguments ts, endsSeen i e.terms = true) v v'
  | [], v, _ => ⟨v, rfl, Walked.refl.congr (by simp [termsArguments]) (by simp) (by simp [endsSeen])
      (by simp [termsArguments])⟩
  | t :: ts, v, hp => by
    obtain ⟨ht, hts⟩ := List.forall_mem_append.1 hp
    obtain ⟨v₁, hv₁, hw₁⟩ := walked_term (t := t) v ht
    obtain ⟨v₂, hv₂, hw₂⟩ := walked_terms ts v₁ hts
    have hdeep : termsArguments ts = [] → ∀ t ∈ ts, t.hasInnerCalls = false := fun h t ht =>
      hasInnerCalls_of_arguments (arguments_nil_of_terms h t ht)
    refine ⟨v₂, ?_, (hw₁.trans hw₂ hdeep).congr ?_ ?_ ?_ ?_⟩
    · unfold termsAcceptVisitor
      exact Outcome.bind_eq_ok.2 ⟨v₁, hv₁, hv₂⟩
    · simp [termsArguments]
    · simp
    · cases t <;> simp [endsSeen]
    · simp only [termsArguments, List.mem_append, or_and_right, exists_or]
end

/-- A constraint is no argument itself. -/
theorem accept_constraint {e : Exp} (hk : e.expType ≠ .expression) (hp : ∀ d ∈ e.arguments, d.expType = .expression)
    (v : VisitorIsUFCallParam) : ∃ v', e.acceptVisitor (visitor i) v = .ok v' ∧
      (v'.mResult = true ↔ v.mResult = true ∨ ∃ d ∈ e.arguments, endsSeen i d.terms = true) := by
  obtain ⟨k, ts⟩ := e
  obtain ⟨v', hv', hw⟩ := walked_terms ts (preVisitExp v) hp
  refine ⟨postVisitExp (.mk k ts) v', ?_, ?_⟩
  · unfold Exp.acceptVisitor
    simp only [Outcome.bind_eq_ok]
    exact ⟨_, rfl, v', hv', rfl⟩
  · rw [postVisitExp, if_neg fun h => hk h.1]
    exact hw.result

theorem foldlM_constraints {es : List Exp} (hk : ∀ e ∈ es, e.expType ≠ .expression)
    (hp : ∀ e ∈ es, ∀ d ∈ e.arguments, d.expType = .expression) (v : VisitorIsUFCallParam) :
    ∃ v', es.foldlM (fun s e => e.acceptVisitor (visitor i) s) v = .ok v' ∧
      (v'.mResult = true ↔ v.mResult = true ∨ ∃ d ∈ es.flatMap Exp.arguments, endsSeen i d.terms = true) := by
  induction es generalizing v with
  | nil => exact ⟨v, rfl, by simp⟩
  | cons e es ih =>
    obtain ⟨hke, hkes⟩ := List.forall_mem_cons.1 hk
    obtain ⟨hpe, hpes⟩ := List.forall_mem_cons.1 hp
    obtain ⟨v₁, hv₁, h₁⟩ := accept_constraint hke hpe v
    obtain ⟨v₂, hv₂, h₂⟩ := ih hkes hpes v₁
    refine ⟨v₂, ?_, ?_⟩
    · rw [List.foldlM_cons, Outcome.bind_eq_ok]
      exact ⟨v₁, hv₁, hv₂⟩
    · rw [h₂, h₁, or_assoc, List.flatMap_cons]
      simp only [List.mem_append, or_and_right, exists_or]

theorem accept_conjunction {c : Conjunction} (hc : c.WellTyped) (v : VisitorIsUFCallParam) :
    ∃ v', c.acceptVisitor (visitor i) v = .ok v' ∧
      (v'.mResult = true ↔ v.mResult = true ∨ ∃ d ∈ c.arguments, endsSeen i d.terms = true) := by
  obtain ⟨v', hv', h⟩ := foldlM_constraints hc.constraints hc.plain v
  refine ⟨v', ?_, h⟩
  rw [List.foldlM_append, Outcome.bind_eq_ok] at hv'
  obtain ⟨v₁, h₁, h₂⟩ := hv'
  unfold Conjunction.acceptVisitor
  simp only [Outcome.bind_eq_ok]
  exact ⟨v, rfl, v₁, h₁, v', h₂, rfl⟩

end VisitorIsUFCallParam

/-- The answer is whether an argument ends with the variable seen. -/
theorem isUFCallParam_eq {cs : List Conjunction} (hcs : ∀ c ∈ cs, c.WellTyped) (i : Nat) :
    isUFCallParam cs i = .ok (seenInArgument i cs) := by
  have hrun : ∀ v : VisitorIsUFCallParam, ∃ v', acceptVisitor (VisitorIsUFCallParam.visitor i) cs v = .ok v' ∧
      (v'.mResult = true ↔ v.mResult = true ∨ seenInArgument i cs = true) := by
    induction cs with
    | nil => exact fun v => ⟨v, rfl, by simp [seenInArgument]⟩
    | cons c cs ih =>
      intro v
      obtain ⟨hc, hcs⟩ := List.forall_mem_cons.1 hcs
      obtain ⟨v₁, hv₁, h₁⟩ := VisitorIsUFCallParam.accept_conjunction (i := i) hc v
      obtain ⟨v₂, hv₂, h₂⟩ := ih hcs v₁
      refine ⟨v₂, ?_, ?_⟩
      · unfold acceptVisitor
        rw [List.foldlM_cons, Outcome.bind_eq_ok]
        exact ⟨v₁, hv₁, hv₂⟩
      · rw [h₂, h₁, or_assoc]
        simp [seenInArgument]
  obtain ⟨v, hv, h⟩ := hrun ⟨false, false, false⟩
  unfold isUFCallParam
  rw [hv]
  simp only [Bool.false_eq_true, false_or] at h
  exact congrArg Except.ok (Bool.eq_iff_iff.2 h)

theorem mentions_of_endsSeen {i : Nat} {e : Exp} (h : endsSeen i e.terms = true) : e.mentions i = true := by
  obtain ⟨k, ts⟩ := e
  have hts : ∀ ts : List Term, endsSeen i ts = true → termsMention i ts = true := by
    intro ts
    induction ts with
    | nil => exact id
    | cons t ts ih =>
      intro h
      simp only [endsSeen, Bool.or_eq_true] at h
      simp only [termsMention, Bool.or_eq_true]
      rcases h with h | h
      · left
        cases t with
        | tupleVar c l =>
          rw [Bool.and_eq_true] at h
          exact h.1
        | _ => cases h
      · exact .inr (ih h)
  exact hts ts h

/-- What is found occurs in an argument. -/
theorem occursInArgument_of_seen {cs : List Conjunction} {i : Nat} (h : seenInArgument i cs = true) :
    occursInArgument i cs = true := by
  obtain ⟨c, hc, h⟩ := List.any_eq_true.1 h
  obtain ⟨e, he, h⟩ := List.any_eq_true.1 h
  exact occursInArgument_of_argument hc he (mentions_of_endsSeen h)

theorem isUFCallParam_right_iff {cs : List Conjunction} (hcs : ∀ c ∈ cs, c.WellTyped) (i : Nat) :
    (∃ b, isUFCallParam cs i = .ok b ∧ (b = true ↔ occursInArgument i cs = true)) ↔
      (occursInArgument i cs = true → seenInArgument i cs = true) := by
  rw [isUFCallParam_eq hcs]
  simp only [Except.ok.injEq, exists_eq_left']
  exact ⟨fun h => h.2, fun h => ⟨occursInArgument_of_seen, h⟩⟩

/-- The answer for a set or a relation is right iff the variable is in no argument, or one of the arguments in which it
is ends with the variable seen. -/
theorem isUFCallParam_iff (s : Set) (r : Relation) (i : Nat) (hs : ∀ c ∈ s.conjunctions, c.WellTyped)
    (hr : ∀ c ∈ r.conjunctions, c.WellTyped) :
    ((∃ b, isUFCallParam s.conjunctions i = .ok b ∧ (b = true ↔ occursInArgument i s.conjunctions = true)) ↔
      (occursInArgument i s.conjunctions = true → seenInArgument i s.conjunctions = true)) ∧
    ((∃ b, isUFCallParam r.conjunctions i = .ok b ∧ (b = true ↔ occursInArgument i r.conjunctions = true)) ↔
      (occursInArgument i r.conjunctions = true → seenInArgument i r.conjunctions = true)) :=
  ⟨isUFCallParam_right_iff hs i, isUFCallParam_right_iff hr i⟩

/-- `[i] : f(i + g(h(n))) >= 0` -/
def nestedArgumentConj : Conjunction :=
  ⟨[], [.mk .inequality [.ufCall 1 "f" [.mk .expression [.tupleVar 1 0,
    .ufCall 1 "g" [.ofTerm (.ufCall 1 "h" [.ofTerm (.symConst 1 "n")] none)] none]] none]], ⟨[⟨false, 0, "i"⟩]⟩, 0⟩

/-- `[i] -> [o] : f(i) - g(o + f(i)) = 0` -/
def shallowArgumentConj : Conjunction :=
  ⟨[.mk .equality [.ufCall 1 "f" [.ofTerm (.tupleVar 1 0)] none, .ufCall (-1) "g" [.mk .expression [.tupleVar 1 1,
    .ufCall 1 "f" [.ofTerm (.tupleVar 1 0)] none]] none]], [], ⟨[⟨false, 0, "i"⟩, ⟨false, 0, "o"⟩]⟩, 1⟩

/-- The calls after the variable overwrite that it was seen. -/
theorem isUFCallParam_misses : isUFCallParam [nestedArgumentConj] 0 = .ok false ∧
    occursInArgument 0 [nestedArgumentConj] = true := ⟨rfl, rfl⟩

theorem wellTyped_shallowArgumentConj : shallowArgumentConj.WellTyped :=
  ⟨⟨by simp [shallowArgumentConj], by simp [shallowArgumentConj]⟩, by
    simp [shallowArgumentConj, Conjunction.arguments, Exp.arguments, termsArguments, Term.arguments, argsArguments,
      Exp.ofTerm]⟩

theorem isUFCallParam_iff_shallow : (∃ b, isUFCallParam [shallowArgumentConj] 1 = .ok b ∧
    (b = true ↔ occursInArgument 1 [shallowArgumentConj] = true)) := by
  have hc : ∀ c ∈ [shallowArgumentConj], c.WellTyped := by
    intro c hc
    rw [List.mem_singleton.1 hc]
    exact wellTyped_shallowArgumentConj
  exact (isUFCallParam_iff ⟨2, [shallowArgumentConj]⟩ ⟨1, 1, [shallowArgumentConj]⟩ 1 hc hc).2.2 fun _ => rfl

end IEGen
