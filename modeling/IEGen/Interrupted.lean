import IEGen.Remap

/-!
# Moves that are interrupted

`remapTupleVars` works in place: when it throws, the terms and constraints it has been through are at their new locations and
the others are not. Only a vector with two old locations for one new location is found before anything is moved.
-/

namespace IEGen

open Outcome (bind_eq_ok)

/-! ## The operations in place -/

section InPlace

variable {α ε : Type}

/-- A loop over the elements of a list in place, and the exception that ends it, if any. -/
def inPlace (step : α → α × Option ε) : List α → List α × Option ε
  | [] => ([], none)
  | x :: xs =>
    match step x with
    | (x', some what) => (x' :: xs, some what)
    | (x', none) => (x' :: (inPlace step xs).1, (inPlace step xs).2)

end InPlace

/-- `TupleVarTerm::remapLocation` -/
def remapLocationInPlace (oldToNewLocs : List Int) (coeff : Int) (location : Nat) : Nat × Option Failure :=
  match remapLocation oldToNewLocs coeff location with
  | .ok new => (new, none)
  | .error what => (location, some what)

mutual
/-- The body of the loop in `Exp::remapTupleVars`. -/
def Term.remapInPlace (oldToNewLocs : List Int) : Term → Term × Option Failure
  | .tupleVar c l => (.tupleVar c (remapLocationInPlace oldToNewLocs c l).1, (remapLocationInPlace oldToNewLocs c l).2)
  | .ufCall c f as i => (.ufCall c f (argsRemapInPlace oldToNewLocs as).1 i, (argsRemapInPlace oldToNewLocs as).2)
  | .tupleExp c es => (.tupleExp c (argsRemapInPlace oldToNewLocs es).1, (argsRemapInPlace oldToNewLocs es).2)
  | t => (t, none)

/-- `Exp::remapTupleVars` -/
def Exp.remapInPlace (oldToNewLocs : List Int) : Exp → Exp × Option Failure
  | .mk k ts =>
    if distinctLocs oldToNewLocs then (.mk k (termsRemapInPlace oldToNewLocs ts).1, (termsRemapInPlace oldToNewLocs ts).2)
    else (.mk k ts, some (.assertException
      "Exp::remapTupleVars: two old locations are being mapped to the same new location"))

def argsRemapInPlace (oldToNewLocs : List Int) : List Exp → List Exp × Option Failure
  | [] => ([], none)
  | e :: es =>
    match e.remapInPlace oldToNewLocs with
    | (e', some what) => (e' :: es, some what)
    | (e', none) => (e' :: (argsRemapInPlace oldToNewLocs es).1, (argsRemapInPlace oldToNewLocs es).2)

def termsRemapInPlace (oldToNewLocs : List Int) : List Term → List Term × Option Failure
  | [] => ([], none)
  | t :: ts =>
    match t.remapInPlace oldToNewLocs with
    | (t', some what) => (t' :: ts, some what)
    | (t', none) => (t' :: (termsRemapInPlace oldToNewLocs ts).1, (termsRemapInPlace oldToNewLocs ts).2)
end

/-- The body of the loop over the equalities. -/
def Exp.remapEqualityInPlace (oldToNewLocs : List Int) (e : Exp) : Exp × Option Failure :=
  match e.remapInPlace oldToNewLocs with
  | (e', some what) => (e', some what)
  | (e', none) => (e'.normalizeForEquality, none)

/-- `Conjunction::remapTupleVars` -/
def Conjunction.remapInPlace (oldToNewLocs : List Int) (c : Conjunction) : Conjunction × Option Failure :=
  match inPlace (Exp.remapEqualityInPlace oldToNewLocs) c.equalities with
  | (equalities, some what) => ({ c with equalities := equalities }, some what)
  | (equalities, none) =>
    match inPlace (Exp.remapInPlace oldToNewLocs) c.inequalities with
    | (inequalities, some what) => ({ c with equalities := equalities, inequalities := inequalities }, some what)
    | (inequalities, none) => (⟨equalities, inequalities, c.tupleDecl.remap oldToNewLocs, c.inArity⟩, none)

/-! ## What is left behind -/

section Stopped

variable (oldToNewLocs : List Int)

mutual
/-- The second term is the first one with the variables moved up to one that has no new location. -/
inductive Term.Stopped : Term → Term → Prop
  | tupleVar {c l what} : remapLocation oldToNewLocs c l = .error what → Term.Stopped (.tupleVar c l) (.tupleVar c l)
  | ufCall {c f as as' i} : ArgsStopped as as' → Term.Stopped (.ufCall c f as i) (.ufCall c f as' i)
  | tupleExp {c es es'} : ArgsStopped es es' → Term.Stopped (.tupleExp c es) (.tupleExp c es')

inductive Exp.Stopped : Exp → Exp → Prop
  | mk {k ts ts'} : TermsStopped ts ts' → Exp.Stopped (.mk k ts) (.mk k ts')

inductive ArgsStopped : List Exp → List Exp → Prop
  | here {e e' es} : Exp.Stopped e e' → ArgsStopped (e :: es) (e' :: es)
  | behind {e e' es es'} : e.remapTupleVars oldToNewLocs = .ok e' → ArgsStopped es es' → ArgsStopped (e :: es) (e' :: es')

inductive TermsStopped : List Term → List Term → Prop
  | here {t t' ts} : Term.Stopped t t' → TermsStopped (t :: ts) (t' :: ts)
  | behind {t t' ts ts'} : t.remapTupleVars oldToNewLocs = .ok t' → TermsStopped ts ts' → TermsStopped (t :: ts) (t' :: ts')
end

/-- An equality after the loop has been through it. -/
def MovedEquality (e e' : Exp) : Prop := ∃ m, e.remapTupleVars oldToNewLocs = .ok m ∧ e' = m.normalizeForEquality

/-- The constraints before one are moved, this one is moved in part, and those behind it stand as they were. -/
inductive Conjunction.Stopped (c : Conjunction) : Conjunction → Prop
  | atEquality {pre pre' e e' post} (hc : c.equalities = pre ++ e :: post)
      (hpre : List.Forall₂ (MovedEquality oldToNewLocs) pre pre') (he : Exp.Stopped oldToNewLocs e e') :
      Conjunction.Stopped c { c with equalities := pre' ++ e' :: post }
  | atInequality {equalities pre pre' e e' post} (hc : c.inequalities = pre ++ e :: post)
      (heqs : List.Forall₂ (MovedEquality oldToNewLocs) c.equalities equalities)
      (hpre : List.Forall₂ (fun d d' => d.remapTupleVars oldToNewLocs = .ok d') pre pre')
      (he : Exp.Stopped oldToNewLocs e e') :
      Conjunction.Stopped c { c with equalities := equalities, inequalities := pre' ++ e' :: post }

end Stopped

/-! ## Where a move stops -/

section Loop

variable {α ε : Type} {step : α → α × Option ε} {R : α → α → Prop} {S : α → α → ε → Prop}

/-- A loop in place goes through, or stops at one element with those before it done. -/
theorem inPlace_spec : ∀ {l : List α}, (∀ x ∈ l, (∃ x', R x x' ∧ step x = (x', none)) ∨
    ∃ x' what, S x x' what ∧ step x = (x', some what)) →
    (∃ l', List.Forall₂ R l l' ∧ inPlace step l = (l', none)) ∨ ∃ pre pre' x x' post what, l = pre ++ x :: post ∧
      List.Forall₂ R pre pre' ∧ S x x' what ∧ inPlace step l = (pre' ++ x' :: post, some what)
  | [], _ => .inl ⟨[], .nil, rfl⟩
  | x :: xs, h => by
    obtain ⟨hx, hxs⟩ := List.forall_mem_cons.1 h
    rcases hx with ⟨x', hr, hstep⟩ | ⟨x', what, hs, hstep⟩
    · rcases inPlace_spec hxs with ⟨l', hl, hrun⟩ | ⟨pre, pre', y, y', post, what, rfl, hpre, hs, hrun⟩
      · exact .inl ⟨x' :: l', .cons hr hl, by simp only [inPlace, hstep, hrun]⟩
      · exact .inr ⟨x :: pre, x' :: pre', y, y', post, what, rfl, .cons hr hpre, hs, by simp only [inPlace, hstep, hrun]; rfl⟩
    · exact .inr ⟨[], [], x, x', xs, what, rfl, .nil, hs, by simp only [inPlace, hstep]; rfl⟩

theorem mapM_eq_error {β : Type} {f : α → Except ε β} {x : α} {what : ε} {post : List α} (hx : f x = .error what) :
    ∀ {pre : List α} {pre' : List β}, List.Forall₂ (fun a b => f a = .ok b) pre pre' → (pre ++ x :: post).mapM f = .error what
  | _, _, .nil => by rw [List.nil_append, List.mapM_cons, hx]; rfl
  | _, _, .cons ha hpre => by rw [List.cons_append, List.mapM_cons, ha, mapM_eq_error hx hpre]; rfl

end Loop

section Spec

variable {oldToNewLocs : List Int}

mutual
theorem Term.remapInPlace_cases (hd : distinctLocs oldToNewLocs = true) : ∀ t : Term,
    (∃ t', t.remapTupleVars oldToNewLocs = .ok t' ∧ t.remapInPlace oldToNewLocs = (t', none)) ∨
    ∃ t' what, (t.remapTupleVars oldToNewLocs = .error what ∧ t.Stopped oldToNewLocs t') ∧
      t.remapInPlace oldToNewLocs = (t', some what)
  | .tupleVar c l => by
    rw [Term.remapTupleVars, Term.remapInPlace, remapLocationInPlace]
    cases h : remapLocation oldToNewLocs c l with
    | ok l' => exact .inl ⟨_, rfl, rfl⟩
    | error what => exact .inr ⟨_, what, ⟨rfl, .tupleVar h⟩, rfl⟩
  | .symConst c s | .constVal c => .inl ⟨_, rfl, rfl⟩
  | .ufCall c f as i => by
    rw [Term.remapTupleVars, Term.remapInPlace]
    rcases argsRemapInPlace_spec hd as with ⟨as', h, hrun⟩ | ⟨as', what, ⟨h, hs⟩, hrun⟩
    · exact .inl ⟨_, by rw [h]; rfl, by rw [hrun]⟩
    · exact .inr ⟨_, what, ⟨by rw [h]; rfl, .ufCall hs⟩, by rw [hrun]⟩
  | .tupleExp c es => by
    rw [Term.remapTupleVars, Term.remapInPlace]
    rcases argsRemapInPlace_spec hd es with ⟨es', h, hrun⟩ | ⟨es', what, ⟨h, hs⟩, hrun⟩
    · exact .inl ⟨_, by rw [h]; rfl, by rw [hrun]⟩
    · exact .inr ⟨_, what, ⟨by rw [h]; rfl, .tupleExp hs⟩, by rw [hrun]⟩

theorem Exp.remapInPlace_cases (hd : distinctLocs oldToNewLocs = true) : ∀ e : Exp,
    (∃ e', e.remapTupleVars oldToNewLocs = .ok e' ∧ e.remapInPlace oldToNewLocs = (e', none)) ∨
    ∃ e' what, (e.remapTupleVars oldToNewLocs = .error what ∧ e.Stopped oldToNewLocs e') ∧
      e.remapInPlace oldToNewLocs = (e', some what)
  | .mk k ts => by
    rw [Exp.remapTupleVars, Exp.remapInPlace, if_pos hd, if_pos hd]
    rcases termsRemapInPlace_spec hd ts with ⟨ts', h, hrun⟩ | ⟨ts', what, ⟨h, hs⟩, hrun⟩
    · exact .inl ⟨_, by rw [h]; rfl, by rw [hrun]⟩
    · exact .inr ⟨_, what, ⟨by rw [h]; rfl, .mk hs⟩, by rw [hrun]⟩

theorem argsRemapInPlace_spec (hd : distinctLocs oldToNewLocs = true) : ∀ es : List Exp,
    (∃ es', argsRemapTupleVars oldToNewLocs es = .ok es' ∧ argsRemapInPlace oldToNewLocs es = (es', none)) ∨
    ∃ es' what, (argsRemapTupleVars oldToNewLocs es = .error what ∧ ArgsStopped oldToNewLocs es es') ∧
      argsRemapInPlace oldToNewLocs es = (es', some what)
  | [] => .inl ⟨_, rfl, rfl⟩
  | e :: es => by
    rw [argsRemapTupleVars, argsRemapInPlace]
    rcases Exp.remapInPlace_cases hd e with ⟨e', h, hrun⟩ | ⟨e', what, ⟨h, hs⟩, hrun⟩
    · rcases argsRemapInPlace_spec hd es with ⟨es', h', hrun'⟩ | ⟨es', what, ⟨h', hs'⟩, hrun'⟩
      · exact .inl ⟨_, by rw [h, h']; rfl, by rw [hrun, hrun']⟩
      · exact .inr ⟨_, what, ⟨by rw [h, h']; rfl, .behind h hs'⟩, by rw [hrun, hrun']⟩
    · exact .inr ⟨_, what, ⟨by rw [h]; rfl, .here hs⟩, by rw [hrun]⟩

theorem termsRemapInPlace_spec (hd : distinctLocs oldToNewLocs = true) : ∀ ts : List Term,
    (∃ ts', termsRemapTupleVars oldToNewLocs ts = .ok ts' ∧ termsRemapInPlace oldToNewLocs ts = (ts', none)) ∨
    ∃ ts' what, (termsRemapTupleVars oldToNewLocs ts = .error what ∧ TermsStopped oldToNewLocs ts ts') ∧
      termsRemapInPlace oldToNewLocs ts = (ts', some what)
  | [] => .inl ⟨_, rfl, rfl⟩
  | t :: ts => by
    rw [termsRemapTupleVars, termsRemapInPlace]
    rcases Term.remapInPlace_cases hd t with ⟨t', h, hrun⟩ | ⟨t', what, ⟨h, hs⟩, hrun⟩
    · rcases termsRemapInPlace_spec hd ts with ⟨ts', h', hrun'⟩ | ⟨ts', what, ⟨h', hs'⟩, hrun'⟩
      · exact .inl ⟨_, by rw [h, h']; rfl, by rw [hrun, hrun']⟩
      · exact .inr ⟨_, what, ⟨by rw [h, h']; rfl, .behind h hs'⟩, by rw [hrun, hrun']⟩
    · exact .inr ⟨_, what, ⟨by rw [h]; rfl, .here hs⟩, by rw [hrun]⟩
end

variable (hd : distinctLocs oldToNewLocs = true)
include hd

theorem Exp.remapEqualityInPlace_spec (e : Exp) :
    (∃ e', MovedEquality oldToNewLocs e e' ∧ e.remapEqualityInPlace oldToNewLocs = (e', none)) ∨
    ∃ e' what, (e.remapTupleVars oldToNewLocs = .error what ∧ e.Stopped oldToNewLocs e') ∧
      e.remapEqualityInPlace oldToNewLocs = (e', some what) := by
  unfold remapEqualityInPlace
  rcases Exp.remapInPlace_cases hd e with ⟨e', h, hrun⟩ | ⟨e', what, h, hrun⟩
  · exact .inl ⟨_, ⟨e', h, rfl⟩, by rw [hrun]⟩
  · exact .inr ⟨_, what, h, by rw [hrun]⟩

/-- The move of a conjunction in place goes through where the move does, and otherwise stops on the way. -/
theorem Conjunction.remapInPlace_cases (c : Conjunction) :
    (∃ c', c.remapTupleVars oldToNewLocs = .ok c' ∧ c.remapInPlace oldToNewLocs = (c', none)) ∨
    ∃ c' what, (c.remapTupleVars oldToNewLocs = .error what ∧ c.Stopped oldToNewLocs c') ∧
      c.remapInPlace oldToNewLocs = (c', some what) := by
  have hmoved : ∀ {d d' : Exp}, MovedEquality oldToNewLocs d d' →
      (do .ok (← d.remapTupleVars oldToNewLocs).normalizeForEquality : Except Failure Exp) = .ok d' := by
    rintro d d' ⟨m, hm, rfl⟩
    rw [hm]
    rfl
  unfold remapTupleVars remapInPlace
  rcases inPlace_spec (fun e _ => Exp.remapEqualityInPlace_spec hd e) with ⟨eqs, heqs, hrun⟩ |
    ⟨pre, pre', e, e', post, what, hc, hpre, ⟨he, hs⟩, hrun⟩
  · rw [hrun, Outcome.mapM_of_forall₂ (heqs.imp fun _ _ => hmoved)]
    rcases inPlace_spec (fun e _ => Exp.remapInPlace_cases hd e) with ⟨ineqs, hineqs, hrun'⟩ |
      ⟨pre, pre', e, e', post, what, hc, hpre, ⟨he, hs⟩, hrun'⟩
    · rw [hrun', Outcome.mapM_of_forall₂ hineqs]
      exact .inl ⟨_, rfl, rfl⟩
    · rw [hrun', hc, mapM_eq_error he hpre]
      exact .inr ⟨_, what, ⟨rfl, .atInequality hc heqs hpre hs⟩, rfl⟩
  · rw [hrun, hc, mapM_eq_error (by rw [he]; rfl) (hpre.imp fun _ _ => hmoved)]
    exact .inr ⟨_, what, ⟨rfl, .atEquality hc hpre hs⟩, rfl⟩

end Spec

/-- A vector with two old locations for one new one is found first. -/
theorem Conjunction.remapInPlace_of_repeated {oldToNewLocs : List Int} (hd : distinctLocs oldToNewLocs = false) (c : Conjunction) :
    (∃ c', c.remapTupleVars oldToNewLocs = .ok c' ∧ c.remapInPlace oldToNewLocs = (c', none)) ∨
    ∃ what, c.remapTupleVars oldToNewLocs = .error what ∧ c.remapInPlace oldToNewLocs = (c, some what) := by
  have hne : ¬ distinctLocs oldToNewLocs = true := by rw [hd]; exact Bool.false_ne_true
  obtain ⟨dup, hexp, hin⟩ : ∃ dup, (∀ e : Exp, e.remapTupleVars oldToNewLocs = .error dup) ∧
      ∀ e : Exp, e.remapInPlace oldToNewLocs = (e, some dup) :=
    ⟨_, fun ⟨_, _⟩ => by rw [Exp.remapTupleVars, if_neg hne], fun ⟨_, _⟩ => by rw [Exp.remapInPlace, if_neg hne]⟩
  have heq : ∀ e : Exp, e.remapEqualityInPlace oldToNewLocs = (e, some dup) := fun e => by
    unfold Exp.remapEqualityInPlace
    rw [hin]
  obtain ⟨eqs, ineqs, d, n⟩ := c
  unfold remapInPlace remapTupleVars
  cases eqs with
  | cons e es =>
    refine .inr ⟨dup, ?_, by simp only [inPlace, heq]⟩
    simp only [List.mapM_cons, hexp]
    rfl
  | nil =>
    cases ineqs with
    | cons e es =>
      refine .inr ⟨dup, ?_, by simp only [inPlace, hin]⟩
      simp only [List.mapM_cons, hexp]
      rfl
    | nil => exact .inl ⟨_, rfl, rfl⟩

/-! ## Variables that keep their locations -/

/-- The vector sends the location to itself, or has no new location for it. -/
def KeepsLocation (oldToNewLocs : List Int) (l : Nat) : Prop := ∀ j, oldToNewLocs[l]? = some j → 0 ≤ j → j = l

section Keeps

variable {oldToNewLocs : List Int}

theorem remapLocation_eq_self {c : Int} {l l' : Nat} (hl : KeepsLocation oldToNewLocs l)
    (h : remapLocation oldToNewLocs c l = .ok l') : l' = l := by
  unfold remapLocation at h
  cases hj : oldToNewLocs[l]? with
  | none =>
    rw [hj] at h
    cases h
  | some j =>
    rw [hj] at h
    simp only at h
    split_ifs at h with hneg
    have hself := hl j hj (not_lt.1 hneg)
    cases h
    omega

mutual
theorem Term.remapTupleVars_eq_self : ∀ {t t' : Term}, t.VarsIn (KeepsLocation oldToNewLocs) →
    t.remapTupleVars oldToNewLocs = .ok t' → t' = t
  | .tupleVar c l, _, hv, h => by
    obtain ⟨l', hl, h⟩ := bind_eq_ok.1 h
    cases h
    rw [remapLocation_eq_self hv hl]
  | .symConst .., _, _, h | .constVal _, _, _, h => (Except.ok.inj h).symm
  | .ufCall c f as i, _, hv, h => by
    obtain ⟨as', has, h⟩ := bind_eq_ok.1 h
    cases h
    rw [argsRemapTupleVars_eq_self hv has]
  | .tupleExp c es, _, hv, h => by
    obtain ⟨es', hes, h⟩ := bind_eq_ok.1 h
    cases h
    rw [argsRemapTupleVars_eq_self hv hes]

theorem Exp.remapTupleVars_eq_self : ∀ {e e' : Exp}, e.VarsIn (KeepsLocation oldToNewLocs) →
    e.remapTupleVars oldToNewLocs = .ok e' → e' = e
  | .mk k ts, _, hv, h => by
    rw [Exp.remapTupleVars] at h
    split_ifs at h
    obtain ⟨ts', hts, h⟩ := bind_eq_ok.1 h
    cases h
    rw [termsRemapTupleVars_eq_self hv hts]

theorem argsRemapTupleVars_eq_self : ∀ {es es' : List Exp}, argsVarsIn (KeepsLocation oldToNewLocs) es →
    argsRemapTupleVars oldToNewLocs es = .ok es' → es' = es
  | [], _, _, h => (Except.ok.inj h).symm
  | e :: es, _, hv, h => by
    obtain ⟨e', he, h⟩ := bind_eq_ok.1 h
    obtain ⟨es', hes, h⟩ := bind_eq_ok.1 h
    cases h
    rw [Exp.remapTupleVars_eq_self hv.1 he, argsRemapTupleVars_eq_self hv.2 hes]

theorem termsRemapTupleVars_eq_self : ∀ {ts ts' : List Term}, termsVarsIn (KeepsLocation oldToNewLocs) ts →
    termsRemapTupleVars oldToNewLocs ts = .ok ts' → ts' = ts
  | [], _, _, h => (Except.ok.inj h).symm
  | t :: ts, _, hv, h => by
    obtain ⟨t', ht, h⟩ := bind_eq_ok.1 h
    obtain ⟨ts', hts, h⟩ := bind_eq_ok.1 h
    cases h
    rw [Term.remapTupleVars_eq_self hv.1 ht, termsRemapTupleVars_eq_self hv.2 hts]
end

mutual
theorem Term.Stopped.eq_self : ∀ {t t' : Term}, t.Stopped oldToNewLocs t' → t.VarsIn (KeepsLocation oldToNewLocs) → t' = t
  | _, _, .tupleVar _, _ => rfl
  | _, _, .ufCall h, hv => by rw [ArgsStopped.eq_self h hv]
  | _, _, .tupleExp h, hv => by rw [ArgsStopped.eq_self h hv]

theorem Exp.Stopped.eq_self : ∀ {e e' : Exp}, e.Stopped oldToNewLocs e' → e.VarsIn (KeepsLocation oldToNewLocs) → e' = e
  | _, _, .mk h, hv => by rw [TermsStopped.eq_self h hv]

theorem ArgsStopped.eq_self : ∀ {es es' : List Exp}, ArgsStopped oldToNewLocs es es' →
    argsVarsIn (KeepsLocation oldToNewLocs) es → es' = es
  | _, _, .here h, hv => by rw [Exp.Stopped.eq_self h hv.1]
  | _, _, .behind he h, hv => by rw [Exp.remapTupleVars_eq_self hv.1 he, ArgsStopped.eq_self h hv.2]

theorem TermsStopped.eq_self : ∀ {ts ts' : List Term}, TermsStopped oldToNewLocs ts ts' →
    termsVarsIn (KeepsLocation oldToNewLocs) ts → ts' = ts
  | _, _, .here h, hv => by rw [Term.Stopped.eq_self h hv.1]
  | _, _, .behind ht h, hv => by rw [Term.remapTupleVars_eq_self hv.1 ht, TermsStopped.eq_self h hv.2]
end

variable {c c' : Conjunction} {I : Interp} {τ : Nat → Int}

/-- Equalities that keep their variables are normalized again. -/
theorem holdsEq_of_moved {pre pre' : List Exp} (hv : ∀ e ∈ pre, e.VarsIn (KeepsLocation oldToNewLocs))
    (h : List.Forall₂ (MovedEquality oldToNewLocs) pre pre') :
    (∀ e ∈ pre', e.HoldsEq I τ) ↔ ∀ e ∈ pre, e.HoldsEq I τ := by
  refine Outcome.forall_iff_of_forall₂ h fun e he e' hm => ?_
  obtain ⟨m, hm, rfl⟩ := hm
  rw [Exp.remapTupleVars_eq_self (hv e he) hm]
  exact holdsEq_normalizeForEquality

theorem Conjunction.Stopped.holds_iff (h : c.Stopped oldToNewLocs c') (hv : c.VarsIn (KeepsLocation oldToNewLocs)) :
    c'.Holds I τ ↔ c.Holds I τ := by
  rw [VarsIn, List.forall_mem_append] at hv
  cases h with
  | atEquality hc hpre he =>
    rw [hc, List.forall_mem_append, List.forall_mem_cons] at hv
    simp only [Holds, hc, List.forall_mem_append, List.forall_mem_cons, holdsEq_of_moved hv.1.1 hpre, he.eq_self hv.1.2.1]
  | @atInequality equalities pre pre' e e' post hc heqs hpre he =>
    rw [hc, List.forall_mem_append, List.forall_mem_cons] at hv
    have hsame : pre = pre' := Outcome.eq_of_forall₂ hpre fun d hd d' _ h =>
      (Exp.remapTupleVars_eq_self (hv.2.1 d hd) h).symm
    simp only [Holds, hc, ← hsame, List.forall_mem_append, List.forall_mem_cons, holdsEq_of_moved hv.1 heqs,
      he.eq_self hv.2.2.1]

theorem Conjunction.Stopped.declaration (h : c.Stopped oldToNewLocs c') :
    c'.tupleDecl = c.tupleDecl ∧ c'.inArity = c.inArity := by
  cases h <;> exact ⟨rfl, rfl⟩

end Keeps

/-- What `remapTupleVars` has done to a conjunction when it throws. -/
theorem remapInPlace_spec (oldToNewLocs : List Int) (c : Conjunction) :
    (∀ c', c.remapInPlace oldToNewLocs = (c', none) ↔ c.remapTupleVars oldToNewLocs = .ok c') ∧
    ∀ c' what, c.remapInPlace oldToNewLocs = (c', some what) → c.remapTupleVars oldToNewLocs = .error what ∧
      (distinctLocs oldToNewLocs = false → c' = c) ∧
      (distinctLocs oldToNewLocs = true → c.Stopped oldToNewLocs c') ∧
      (c'.tupleDecl = c.tupleDecl ∧ c'.inArity = c.inArity) ∧
      (c.VarsIn (KeepsLocation oldToNewLocs) → ∀ I, c'.denote I = c.denote I) := by
  have hok : ∀ {c₁}, c.remapTupleVars oldToNewLocs = .ok c₁ → c.remapInPlace oldToNewLocs = (c₁, none) →
      ∀ c', c.remapInPlace oldToNewLocs = (c', none) ↔ c.remapTupleVars oldToNewLocs = .ok c' := by
    intro c₁ h₁ hrun c'
    rw [hrun, h₁, Prod.mk.injEq, Except.ok.injEq, and_iff_left rfl]
  have hfail : ∀ {c₁ what}, c.remapTupleVars oldToNewLocs = .error what → c.remapInPlace oldToNewLocs = (c₁, some what) →
      ∀ c', c.remapInPlace oldToNewLocs = (c', none) ↔ c.remapTupleVars oldToNewLocs = .ok c' := by
    intro c₁ what h₁ hrun c'
    rw [hrun, h₁]
    exact iff_of_false (fun h => by cases h) fun h => by cases h
  cases hd : distinctLocs oldToNewLocs with
  | true =>
    rcases Conjunction.remapInPlace_cases hd c with ⟨c₁, h₁, hrun⟩ | ⟨c₁, what, ⟨h₁, hs⟩, hrun⟩
    · refine ⟨hok h₁ hrun, fun c' what h => ?_⟩
      rw [hrun] at h
      cases h
    · refine ⟨hfail h₁ hrun, fun c' what' h => ?_⟩
      rw [hrun] at h
      cases h
      refine ⟨h₁, fun h => (by cases h), fun _ => hs, hs.declaration, fun hv I => Set.ext fun t => ?_⟩
      show c₁.tupleDecl.Admits t ∧ _ ↔ c.tupleDecl.Admits t ∧ _
      rw [hs.declaration.1, hs.holds_iff hv]
  | false =>
    rcases Conjunction.remapInPlace_of_repeated hd c with ⟨c₁, h₁, hrun⟩ | ⟨what, h₁, hrun⟩
    · refine ⟨hok h₁ hrun, fun c' what h => ?_⟩
      rw [hrun] at h
      cases h
    · refine ⟨hfail h₁ hrun, fun c' what' h => ?_⟩
      rw [hrun] at h
      cases h
      exact ⟨h₁, fun _ => rfl, fun h => (by cases h), ⟨rfl, rfl⟩, fun _ _ => rfl⟩

/-- `{[i, j] : i = 0 && j >= 0}` -/
def ray : Conjunction :=
  ⟨[.mk .equality [.tupleVar 1 0]], [.mk .inequality [.tupleVar 1 1]], ⟨[⟨false, 0, "i"⟩, ⟨false, 0, "j"⟩]⟩, 0⟩

/-- The first constraint is about `j` when the second one cannot be moved. -/
theorem remapInPlace_renames : ∃ c' what, ray.remapInPlace [1, -1] = (c', some what) ∧ ∃ I, c'.denote I ≠ ray.denote I := by
  refine ⟨_, _, rfl, ⟨fun _ => 0, fun _ x => x, fun _ => 1, fun _ => 1⟩, fun h => ?_⟩
  have hmem : ([0, 1] : List Int) ∈ ray.denote ⟨fun _ => 0, fun _ x => x, fun _ => 1, fun _ => 1⟩ := by
    refine ⟨⟨rfl, by decide⟩, fun e he k => ?_, fun e he k => ?_⟩
    · obtain rfl := List.mem_singleton.1 he
      cases k <;> rfl
    · obtain rfl := List.mem_singleton.1 he
      cases k with
      | zero => decide
      | succ k => exact le_refl 0
  rw [← h] at hmem
  exact absurd (hmem.2.1 _ List.mem_cons_self 0) (by decide)

theorem remapInPlace_spec_ray : ∃ c' what, ray.remapInPlace [0, -1] = (c', some what) ∧
    ∀ I, c'.denote I = ray.denote I := by
  have hv : ray.VarsIn (KeepsLocation [0, -1]) := by
    intro e he
    rcases List.mem_append.1 he with he | he
    · rw [List.mem_singleton.1 he]
      refine ⟨fun j hj _ => ?_, trivial⟩
      cases hj
      rfl
    · rw [List.mem_singleton.1 he]
      refine ⟨fun j hj h0 => ?_, trivial⟩
      cases hj
      exact absurd h0 (by decide)
  exact ⟨_, _, rfl, ((remapInPlace_spec [0, -1] ray).2 _ _ rfl).2.2.2.2 hv⟩

end IEGen
