import IEGen.Inside

/-!
# The complexities of iterators

`complexityForPartialParallel` gives every tuple variable a complexity by two passes over the constraints: a loop over it is
of order `n` (3) or `nnz / n` (2), it comes from another variable (1), it is projected out (0), or nothing is known (-1). The
inequalities bound a variable, and an equality between two variables is to spare the more expensive loop.

* What a constraint does to the complexities is `Exp.examine`; `examine_equality` and `examine_inequality` say all it can do.
* A first pass leaves nothing to do for the equalities and inequalities with one variable, and in the second pass the
  equality between two variables that are known always spares the first of them.
* `complexities_iff`: so the more expensive one is spared, and the other stays as it is, exactly where the first variable is
  at least as expensive and no inequality lowers the second one further (`loweredBy`).
-/

namespace IEGen

open Outcome (bind_eq_ok)

/-! ## The visitor -/

/-- `VisitorCalculateComplexity`; of a tuple variable that was seen the coefficient and the location are kept. -/
structure VisitorCalculateComplexity where
  complexity : Nat → Int
  curr : Option Exp
  tv1 : Option (Int × Nat)
  tv2 : Option (Int × Nat)
  ufcUB : Bool
  varUB : Option String
  nestedness : Int

/-- What `postVisitExp` does to the complexities for a constraint with tuple variables. -/
def examineWith (equality : Bool) (tv1 : Int × Nat) (tv2 : Option (Int × Nat)) (ufcUB : Bool) (varUB : Option String)
    (complexity : Nat → Int) : Nat → Int :=
  if complexity tv1.2 = 0 ∨ complexity tv1.2 = 1 then complexity
  else if equality then
    match tv2 with
    | some tv2 =>
      if complexity tv1.2 = -1 ∧ complexity tv2.2 = -1 then complexity
      else if complexity tv1.2 = 0 ∨ complexity tv2.2 = 0 then complexity
      else if complexity tv1.2 = 1 ∨ complexity tv2.2 = 1 then complexity
      else if complexity tv1.2 = -1 ∨ complexity tv2.2 > 1 then Function.update complexity tv1.2 1
      else if complexity tv1.2 > 1 ∨ complexity tv2.2 = -1 then Function.update complexity tv2.2 1
      else if complexity tv2.2 ≤ complexity tv1.2 then Function.update complexity tv1.2 1
      else Function.update complexity tv2.2 1
    | none => if ufcUB then Function.update complexity tv1.2 1 else complexity
  else
    match tv2 with
    | none =>
      if tv1.1 > 0 ∨ complexity tv1.2 > -1 then complexity
      else match varUB with
        | some symbol =>
          if symbol = "n" ∨ symbol = "m" then Function.update complexity tv1.2 3
          else if symbol = "nnz" then Function.update complexity tv1.2 2
          else complexity
        | none => if ufcUB then Function.update complexity tv1.2 2 else complexity
    | some tv2 =>
      if tv1.1 < 0 ∧ tv2.1 < 0 then complexity
      else if tv1.1 < 0 ∧ tv2.1 > 0 then
        if complexity tv2.2 < 2 then complexity
        else if complexity tv2.2 < complexity tv1.2 then Function.update complexity tv1.2 (complexity tv2.2)
        else complexity
      else if tv1.1 > 0 ∧ tv2.1 < 0 then
        if complexity tv1.2 < 2 then complexity
        else if complexity tv1.2 < complexity tv2.2 then Function.update complexity tv2.2 (complexity tv1.2)
        else complexity
      else complexity

namespace VisitorCalculateComplexity

/-- `postVisitUFCallTerm`, `postVisitVarTerm` and `postVisitTupleVarTerm` -/
def postVisitTerm (t : Term) (v : VisitorCalculateComplexity) : VisitorCalculateComplexity :=
  if v.nestedness ≠ 0 then v
  else match t with
    | .ufCall .. => { v with ufcUB := true }
    | .symConst _ s => { v with varUB := some s }
    | .tupleVar c l =>
      if v.tv1.isNone then { v with tv1 := some (c, l) }
      else if v.tv2.isNone then { v with tv2 := some (c, l) }
      else v
    | _ => v

def preVisitExp (e : Exp) (v : VisitorCalculateComplexity) : VisitorCalculateComplexity :=
  if e.expType = .expression then { v with nestedness := v.nestedness + 1 }
  else { v with curr := some e, nestedness := 0, tv1 := none, tv2 := none, ufcUB := false, varUB := none }

/-- `postVisitExp`; without a constraint that was visited before `curr` is not set. -/
def postVisitExp (e : Exp) (v : VisitorCalculateComplexity) : Except Failure VisitorCalculateComplexity :=
  if e.expType = .expression then .ok { v with nestedness := v.nestedness - 1 }
  else match v.tv1, v.curr with
    | none, _ => .ok v
    | some _, none => .error .undefined
    | some tv1, some curr =>
      .ok { v with complexity := examineWith (curr.expType == .equality) tv1 v.tv2 v.ufcUB v.varUB v.complexity }

def visitor : Visitor VisitorCalculateComplexity where
  postVisitTerm := fun t v => .ok (postVisitTerm t v)
  preVisitExp := fun e v => .ok (preVisitExp e v)
  postVisitExp := postVisitExp

end VisitorCalculateComplexity

/-- The complexities before the first pass: -1 for what cannot be projected out, which is to be parallel or is an argument. -/
def initialComplexities (cs : List Conjunction) (parallelTvs : List Int) : Nat → Except Failure (Nat → Int)
  | 0 => .ok fun _ => 0
  | i + 1 => do
    let complexities ← initialComplexities cs parallelTvs i
    if (i : Int) ∈ parallelTvs then .ok (Function.update complexities i (-1))
    else
      let isParam ← isUFCallParam cs i
      .ok (Function.update complexities i (if isParam then -1 else 0))

/-- The visitor before the first pass. -/
def VisitorCalculateComplexity.start (complexities : Nat → Int) : VisitorCalculateComplexity :=
  ⟨complexities, none, none, none, false, none, 0⟩

/-- `calculateComplexityStr` -/
def calculateComplexityStr (complexities : Nat → Int) (arr : Nat) : String :=
  let numOfNs := (List.range arr).countP (fun i => complexities i = 3)
  let numOfNNZdNs := (List.range arr).countP (fun i => complexities i = 2)
  let diff : Int := numOfNs - numOfNNZdNs
  let strNumOfNs := toString numOfNs
  let strNumOfNNZdNs := toString numOfNNZdNs
  let strDiff := toString diff.natAbs
  if numOfNNZdNs = 0 then "O(" ++ "n^" ++ strNumOfNs ++ ")"
  else if numOfNs = 0 then "O(" ++ "nnz^" ++ strNumOfNNZdNs ++ "/" ++ "n^" ++ strNumOfNNZdNs ++ ")"
  else if diff < 0 then "O(" ++ "nnz^" ++ strNumOfNNZdNs ++ "/" ++ "n^" ++ strDiff ++ ")"
  else if diff > 0 then "O(" ++ "n^" ++ strDiff ++ "*" ++ "nnz^" ++ strNumOfNNZdNs ++ ")"
  else "O(" ++ "nnz^" ++ strNumOfNNZdNs ++ ")"

/-- The complexities after both passes. -/
def complexities (cs : List Conjunction) (arity : Nat) (parallelTvs : List Int) : Except Failure (Nat → Int) := do
  let complexities ← initialComplexities cs parallelTvs arity
  let vComp ← acceptVisitor VisitorCalculateComplexity.visitor cs (.start complexities)
  let vComp ← acceptVisitor VisitorCalculateComplexity.visitor cs vComp
  .ok vComp.complexity

/-- `complexityForPartialParallel` -/
def complexityForPartialParallel (cs : List Conjunction) (arity : Nat) (parallelTvs : List Int) : Except Failure String :=
  if cs.length ≠ 1 then .error (.assertException "SparseConstraints::complexityForPartialParallel:number of conjunctions is not 1.")
  else do
    let complexities ← complexities cs arity parallelTvs
    .ok (calculateComplexityStr complexities arity)

/-! ## What a constraint does -/

/-- The tuple variables among the terms, with their coefficients. -/
def Exp.tupleVars (e : Exp) : List (Int × Nat) := e.terms.filterMap fun
  | .tupleVar c l => some (c, l)
  | _ => none

/-- A call is one of the terms. -/
def Exp.hasCall (e : Exp) : Bool := e.terms.any fun
  | .ufCall .. => true
  | _ => false

/-- The last symbolic constant among the terms. -/
def Exp.lastSymbol (e : Exp) : Option String := (e.terms.filterMap fun
  | .symConst _ s => some s
  | _ => none).getLast?

/-- What a constraint does to the complexities. -/
def Exp.examine (e : Exp) (complexity : Nat → Int) : Nat → Int :=
  match e.tupleVars with
  | [] => complexity
  | tv1 :: rest => examineWith (e.expType == .equality) tv1 rest.head? e.hasCall e.lastSymbol complexity

namespace VisitorCalculateComplexity

/-- Inside of a call nothing changes. -/
theorem ignoresInside : visitor.IgnoresInside (fun v => 0 < v.nestedness) where
  term t v h := ⟨v, rfl, h, congrArg Except.ok (if_pos h.ne')⟩
  exp e he v h := by
    refine ⟨{ v with nestedness := v.nestedness + 1 }, congrArg Except.ok (if_pos he), by dsimp only; omega, ?_⟩
    exact (if_pos he).trans (by simp)

theorem mem_argsArguments {e : Exp} : ∀ {es : List Exp}, e ∈ es → e ∈ argsArguments es
  | _ :: _, h => by
    rcases List.mem_cons.1 h with rfl | h
    · exact List.mem_cons_self
    · exact List.mem_cons_of_mem _ (List.mem_append_right _ (mem_argsArguments h))

theorem accept_args {es : List Exp} (hp : ∀ e ∈ argsArguments es, e.expType = .expression) {v : VisitorCalculateComplexity}
    (h : v.nestedness = 0) : argsAcceptVisitor visitor es v = .ok v := by
  refine ignoresInside.accept_args_of_enters (fun e he => ?_) hp
  have hk : e.expType = .expression := hp e (mem_argsArguments he)
  refine ⟨{ v with nestedness := v.nestedness + 1 }, congrArg Except.ok (if_pos hk), by dsimp only; omega, ?_⟩
  exact (if_pos hk).trans (by simp)

theorem accept_term {t : Term} (hp : ∀ e ∈ t.arguments, e.expType = .expression) {v : VisitorCalculateComplexity}
    (h : v.nestedness = 0) : t.acceptVisitor visitor v = .ok (postVisitTerm t v) := by
  cases t with
  | ufCall c f as i => exact bind_eq_ok.2 ⟨v, rfl, bind_eq_ok.2 ⟨v, accept_args hp h, rfl⟩⟩
  | tupleVar | symConst | constVal | tupleExp => rfl

@[simp] theorem nestedness_postVisitTerm (t : Term) (v : VisitorCalculateComplexity) :
    (postVisitTerm t v).nestedness = v.nestedness := by
  unfold postVisitTerm
  split
  · rfl
  · split <;> (try split) <;> (try split) <;> rfl

theorem accept_terms {ts : List Term} (hp : ∀ e ∈ termsArguments ts, e.expType = .expression) {v : VisitorCalculateComplexity}
    (h : v.nestedness = 0) : termsAcceptVisitor visitor ts v = .ok (ts.foldl (fun v t => postVisitTerm t v) v) := by
  induction ts generalizing v with
  | nil => rfl
  | cons t ts ih =>
    obtain ⟨ht, hts⟩ := List.forall_mem_append.1 hp
    exact bind_eq_ok.2 ⟨_, accept_term ht h, ih hts ((nestedness_postVisitTerm t v).trans h)⟩

/-- What the terms of a constraint leave when nothing was seen before. -/
theorem foldl_postVisitTerm (k : ExpType) (ts : List Term) (f : Nat → Int) (curr : Option Exp) :
    ts.foldl (fun v t => postVisitTerm t v) ⟨f, curr, none, none, false, none, 0⟩ =
      ⟨f, curr, (Exp.mk k ts).tupleVars.head?, (Exp.mk k ts).tupleVars.tail.head?, (Exp.mk k ts).hasCall,
        (Exp.mk k ts).lastSymbol, 0⟩ := by
  induction ts using List.reverseRecOn with
  | nil => rfl
  | append_singleton ts t ih =>
    rw [List.foldl_append, ih]
    cases t with
    | tupleVar c l =>
      have happ : (Exp.mk k (ts ++ [.tupleVar c l])).tupleVars = (Exp.mk k ts).tupleVars ++ [(c, l)] := by
        simp [Exp.tupleVars]
      rw [happ]
      rcases (Exp.mk k ts).tupleVars with _ | ⟨a, _ | ⟨b, rest⟩⟩ <;>
        simp [postVisitTerm, Exp.hasCall, Exp.lastSymbol]
    | symConst c s => simp [postVisitTerm, Exp.tupleVars, Exp.hasCall, Exp.lastSymbol]
    | ufCall c f' as i => simp [postVisitTerm, Exp.tupleVars, Exp.hasCall, Exp.lastSymbol]
    | constVal c => simp [postVisitTerm, Exp.tupleVars, Exp.hasCall, Exp.lastSymbol]
    | tupleExp c es => simp [postVisitTerm, Exp.tupleVars, Exp.hasCall, Exp.lastSymbol]

/-- A constraint is examined with what its terms show. -/
theorem accept_constraint {e : Exp} (hk : e.expType ≠ .expression) (hp : ∀ d ∈ e.arguments, d.expType = .expression)
    (v : VisitorCalculateComplexity) :
    ∃ v', e.acceptVisitor visitor v = .ok v' ∧ v'.complexity = e.examine v.complexity := by
  obtain ⟨k, ts⟩ := e
  have hpre : preVisitExp (.mk k ts) v = ⟨v.complexity, some (.mk k ts), none, none, false, none, 0⟩ := if_neg hk
  have hterms := accept_terms hp (v := preVisitExp (.mk k ts) v) (by rw [hpre])
  rw [hpre, foldl_postVisitTerm k] at hterms
  unfold Exp.examine
  cases htv : (Exp.mk k ts).tupleVars with
  | nil =>
    rw [htv] at hterms
    exact ⟨⟨v.complexity, some (.mk k ts), none, none, (Exp.mk k ts).hasCall, (Exp.mk k ts).lastSymbol, 0⟩,
      bind_eq_ok.2 ⟨_, rfl, bind_eq_ok.2 ⟨_, hpre ▸ hterms, (if_neg hk).trans rfl⟩⟩, rfl⟩
  | cons tv1 rest =>
    rw [htv] at hterms
    exact ⟨_, bind_eq_ok.2 ⟨_, rfl, bind_eq_ok.2 ⟨_, hpre ▸ hterms, (if_neg hk).trans rfl⟩⟩, rfl⟩

end VisitorCalculateComplexity

/-- What a pass does to the complexities. -/
def Conjunction.examine (c : Conjunction) (complexity : Nat → Int) : Nat → Int :=
  c.inequalities.foldl (fun f e => e.examine f) (c.equalities.foldl (fun f e => e.examine f) complexity)

namespace VisitorCalculateComplexity

theorem accept_constraints {es : List Exp} (hk : ∀ e ∈ es, e.expType ≠ .expression)
    (hp : ∀ e ∈ es, ∀ d ∈ e.arguments, d.expType = .expression) (v : VisitorCalculateComplexity) :
    ∃ v', es.foldlM (fun v e => e.acceptVisitor visitor v) v = .ok v' ∧
      v'.complexity = es.foldl (fun f e => e.examine f) v.complexity := by
  induction es generalizing v with
  | nil => exact ⟨v, rfl, rfl⟩
  | cons e es ih =>
    obtain ⟨hke, hkes⟩ := List.forall_mem_cons.1 hk
    obtain ⟨hpe, hpes⟩ := List.forall_mem_cons.1 hp
    obtain ⟨v₁, hv₁, hf₁⟩ := accept_constraint hke hpe v
    obtain ⟨v', hv', hf'⟩ := ih hkes hpes v₁
    refine ⟨v', ?_, ?_⟩
    · rw [List.foldlM_cons]
      exact bind_eq_ok.2 ⟨v₁, hv₁, hv'⟩
    · rw [hf', hf₁, List.foldl_cons]

theorem accept_conjunction {c : Conjunction} (hc : c.WellTyped) (v : VisitorCalculateComplexity) :
    ∃ v', acceptVisitor visitor [c] v = .ok v' ∧ v'.complexity = c.examine v.complexity := by
  obtain ⟨hk, hk'⟩ := List.forall_mem_append.1 hc.constraints
  obtain ⟨hp, hp'⟩ := List.forall_mem_append.1 hc.plain
  obtain ⟨v₁, hv₁, hf₁⟩ := accept_constraints hk hp v
  obtain ⟨v', hv', hf'⟩ := accept_constraints hk' hp' v₁
  refine ⟨v', bind_eq_ok.2 ⟨v', bind_eq_ok.2 ⟨v, rfl, bind_eq_ok.2 ⟨v₁, hv₁, bind_eq_ok.2 ⟨v', hv', rfl⟩⟩⟩, rfl⟩, ?_⟩
  rw [hf', hf₁]
  rfl

end VisitorCalculateComplexity

/-! ## What stays as it is -/

/-- One complexity has changed at most: one that was neither 0 nor 1 is 1, 2 or 3 now, or what another one is. -/
def OneChange (f f' : Nat → Int) : Prop :=
  f' = f ∨ ∃ l b, f' = Function.update f l b ∧ f l ≠ 0 ∧ f l ≠ 1 ∧ 1 ≤ b ∧ (b ≤ 3 ∨ ∃ w, b = f w)

namespace OneChange

variable {f f₁ f₂ : Nat → Int}

theorem same : OneChange f f := .inl rfl

theorem const {l : Nat} {b : Int} (h : ¬ (f l = 0 ∨ f l = 1)) (hb : 1 ≤ b) (hb' : b ≤ 3) :
    OneChange f (Function.update f l b) := .inr ⟨l, b, rfl, fun h0 => h (.inl h0), fun h1 => h (.inr h1), hb, .inl hb'⟩

theorem copy {l w : Nat} (h : ¬ (f l = 0 ∨ f l = 1)) (hw : 1 ≤ f w) : OneChange f (Function.update f l (f w)) :=
  .inr ⟨l, f w, rfl, fun h0 => h (.inl h0), fun h1 => h (.inr h1), hw, .inr ⟨w, rfl⟩⟩

theorem ite {p : Prop} [Decidable p] (h : p → OneChange f f₁) (h' : ¬ p → OneChange f f₂) :
    OneChange f (if p then f₁ else f₂) := by
  split
  · exact h ‹_›
  · exact h' ‹_›

end OneChange

theorem oneChange_examineWith (equality : Bool) (tv1 : Int × Nat) (tv2 : Option (Int × Nat)) (ufcUB : Bool)
    (varUB : Option String) (f : Nat → Int) : OneChange f (examineWith equality tv1 tv2 ufcUB varUB f) := by
  refine .ite (fun _ => .same) fun h => .ite (fun _ => ?_) fun _ => ?_
  · -- an equality
    cases tv2 with
    | none => exact .ite (fun _ => .const h le_rfl (by decide)) fun _ => .same
    | some tv2 =>
      refine .ite (fun _ => .same) fun _ => .ite (fun _ => .same) fun h0 => .ite (fun _ => .same) fun h1 => ?_
      have h' : ¬ (f tv2.2 = 0 ∨ f tv2.2 = 1) := by omega
      exact .ite (fun _ => .const h le_rfl (by decide)) fun _ => .ite (fun _ => .const h' le_rfl (by decide)) fun _ =>
        .ite (fun _ => .const h le_rfl (by decide)) fun _ => .const h' le_rfl (by decide)
  · -- an inequality
    cases tv2 with
    | none =>
      refine .ite (fun _ => .same) fun _ => ?_
      cases varUB with
      | none => exact .ite (fun _ => .const h (by decide) (by decide)) fun _ => .same
      | some symbol =>
        exact .ite (fun _ => .const h (by decide) (by decide)) fun _ =>
          .ite (fun _ => .const h (by decide) (by decide)) fun _ => .same
    | some tv2 =>
      refine .ite (fun _ => .same) fun _ => .ite (fun _ => ?_) fun _ => .ite (fun _ => ?_) fun _ => .same
      · exact .ite (fun _ => .same) fun hknown => .ite (fun _ => .copy h (by omega)) fun _ => .same
      · exact .ite (fun _ => .same) fun hknown => .ite (fun hlt => .copy (by omega) (by omega)) fun _ => .same

/-- What stays when constraints are examined: what is projected out, what is of order 1, and that something is known. -/
structure Kept (f f' : Nat → Int) : Prop where
  zero : ∀ l, f' l = 0 ↔ f l = 0
  one : ∀ l, f l = 1 → f' l = 1
  known : ∀ l, f l ≠ -1 → f' l ≠ -1
  bounded : (∀ l, -1 ≤ f l ∧ f l ≤ 3) → ∀ l, -1 ≤ f' l ∧ f' l ≤ 3

namespace Kept

theorem refl (f : Nat → Int) : Kept f f := ⟨fun _ => Iff.rfl, fun _ h => h, fun _ h => h, fun h => h⟩

theorem trans {f g h : Nat → Int} (hfg : Kept f g) (hgh : Kept g h) : Kept f h where
  zero l := (hgh.zero l).trans (hfg.zero l)
  one l hl := hgh.one l (hfg.one l hl)
  known l hl := hgh.known l (hfg.known l hl)
  bounded hf := hgh.bounded (hfg.bounded hf)

theorem update {f : Nat → Int} {l : Nat} {b : Int} (h0 : f l ≠ 0) (h1 : f l ≠ 1) (hb : 1 ≤ b) (hb' : b ≤ 3 ∨ ∃ w, b = f w) :
    Kept f (Function.update f l b) where
  zero l' := by
    by_cases h : l' = l
    · subst h; rw [Function.update_self]; omega
    · rw [Function.update_of_ne h]
  one l' hl' := by
    rw [Function.update_of_ne (by rintro rfl; exact h1 hl'), hl']
  known l' hl' := by
    by_cases h : l' = l
    · subst h; rw [Function.update_self]; omega
    · rwa [Function.update_of_ne h]
  bounded hf l' := by
    by_cases h : l' = l
    · subst h
      rw [Function.update_self]
      rcases hb' with hb' | ⟨w, rfl⟩
      · omega
      · exact hf w
    · rw [Function.update_of_ne h]
      exact hf l'

theorem examine (e : Exp) (f : Nat → Int) : Kept f (e.examine f) := by
  unfold Exp.examine
  split
  · exact refl f
  · rename_i tv1 rest _
    rcases oneChange_examineWith (e.expType == .equality) tv1 rest.head? e.hasCall e.lastSymbol f with
      h | ⟨l, b, h, h0, h1, hb, hb'⟩
    · rw [h]; exact refl f
    · rw [h]; exact update h0 h1 hb hb'

theorem foldl (es : List Exp) (f : Nat → Int) : Kept f (es.foldl (fun f e => e.examine f) f) := by
  induction es generalizing f with
  | nil => exact refl f
  | cons e es ih => exact (examine e f).trans (ih _)

end Kept

/-! ## Constraints with one variable -/

/-- The complexity that an inequality gives to its only variable when nothing is known. -/
def Exp.symbolBound (e : Exp) (c : Int) : Option Int :=
  if c > 0 then none
  else match e.lastSymbol with
    | some symbol => if symbol = "n" ∨ symbol = "m" then some 3 else if symbol = "nnz" then some 2 else none
    | none => if e.hasCall then some 2 else none

theorem Exp.symbolBound_pos {e : Exp} {c b : Int} (h : e.symbolBound c = some b) : 0 < b := by
  unfold symbolBound at h
  by_cases hc : c > 0
  · rw [if_pos hc] at h
    cases h
  rw [if_neg hc] at h
  cases hs : e.lastSymbol with
  | none =>
    rw [hs] at h
    dsimp only at h
    split_ifs at h
    obtain rfl := Option.some.inj h
    decide
  | some symbol =>
    rw [hs] at h
    dsimp only at h
    split_ifs at h
    · obtain rfl := Option.some.inj h
      decide
    · obtain rfl := Option.some.inj h
      decide

theorem Exp.examine_one {e : Exp} {c : Int} {l : Nat} (h : e.tupleVars = [(c, l)]) (he : e.expType ≠ .equality)
    (f : Nat → Int) :
    e.examine f = if f l = 0 ∨ f l > -1 then f else match e.symbolBound c with
      | some b => Function.update f l b
      | none => f := by
  have hk : (e.expType == ExpType.equality) = false := by simpa using he
  unfold examine symbolBound examineWith
  rw [h, hk]
  dsimp only [List.head?_nil]
  by_cases h01 : f l = 0 ∨ f l = 1
  · rw [if_pos h01, if_pos (by omega)]
  · rw [if_neg h01]
    by_cases hf : f l > -1
    · simp [hf]
    · rw [if_neg (show ¬ (f l = 0 ∨ f l > -1) by omega)]
      by_cases hc : c > 0
      · simp [hc]
      · simp only [hc, hf, or_self, if_false, Bool.false_eq_true]
        cases e.lastSymbol with
        | none => cases e.hasCall <;> rfl
        | some symbol =>
          dsimp only
          split_ifs <;> rfl

theorem Exp.examine_one_equality {e : Exp} {v : Int × Nat} (h : e.tupleVars = [v]) (he : e.expType = .equality) (f : Nat → Int) :
    e.examine f = if f v.2 = 0 ∨ f v.2 = 1 then f else if e.hasCall then Function.update f v.2 1 else f := by
  have hk : (e.expType == ExpType.equality) = true := by simpa using he
  unfold examine examineWith
  rw [h, hk]
  rfl

/-- What a first pass has done for an equality with one variable is not done again. -/
theorem Exp.examine_again_equality {e : Exp} {v : Int × Nat} (h : e.tupleVars = [v]) (he : e.expType = .equality)
    {f g k : Nat → Int} (hfg : Kept (e.examine f) g) (hgk : Kept g k) : e.examine k = k := by
  rw [examine_one_equality h he] at hfg ⊢
  by_cases hcall : e.hasCall
  · have hk : k v.2 = 0 ∨ k v.2 = 1 := by
      split_ifs at hfg with h01
      · rcases h01 with h0 | h1
        · exact .inl ((hfg.trans hgk).zero v.2 |>.2 h0)
        · exact .inr ((hfg.trans hgk).one v.2 h1)
      · exact .inr ((hfg.trans hgk).one v.2 (Function.update_self _ _ _))
    rw [if_pos hk]
  · simp [hcall]

/-- What a first pass has done for an inequality with one variable is not done again. -/
theorem Exp.examine_again_inequality {e : Exp} {v : Int × Nat} (h : e.tupleVars = [v]) (he : e.expType ≠ .equality)
    {f g k : Nat → Int} (hfg : Kept (e.examine f) g) (hgk : Kept g k) (hk : ∀ l, -1 ≤ k l) : e.examine k = k := by
  obtain ⟨c, l⟩ := v
  rw [examine_one h he] at hfg ⊢
  cases hb : e.symbolBound c with
  | none => simp
  | some b =>
    have hb1 := symbolBound_pos hb
    rw [hb] at hfg
    have hne : k l ≠ -1 := by
      refine (hfg.trans hgk).known l ?_
      split_ifs with hf
      · omega
      · dsimp only
        rw [Function.update_self]
        omega
    have := hk l
    rw [if_pos (by omega)]

/-! ## Constraints with two variables -/

/-- An equality one of whose first two variables is projected out does nothing. -/
theorem Exp.examine_projected {e : Exp} {v w : Int × Nat} {rest : List (Int × Nat)} (h : e.tupleVars = v :: w :: rest)
    (he : e.expType = .equality) {f : Nat → Int} (h0 : f v.2 = 0 ∨ f w.2 = 0) : e.examine f = f := by
  have hk : (e.expType == ExpType.equality) = true := by simpa using he
  unfold examine examineWith
  rw [h, hk]
  dsimp only [List.head?_cons]
  by_cases h01 : f v.2 = 0 ∨ f v.2 = 1
  · rw [if_pos h01]
  · rw [if_neg h01, if_pos rfl, if_neg (by omega), if_pos (by omega)]

/-- An equality between two variables that are both known always spares the first one. -/
theorem Exp.examine_spares {e : Exp} {v w : Int × Nat} {rest : List (Int × Nat)} (h : e.tupleVars = v :: w :: rest)
    (he : e.expType = .equality) {f : Nat → Int} (hv : 2 ≤ f v.2) (hw : 2 ≤ f w.2) :
    e.examine f = Function.update f v.2 1 := by
  have hk : (e.expType == ExpType.equality) = true := by simpa using he
  unfold examine examineWith
  rw [h, hk]
  dsimp only [List.head?_cons]
  rw [if_neg (by omega), if_pos rfl, if_neg (by omega), if_neg (by omega), if_neg (by omega), if_pos (by omega)]

/-- The variable that an inequality between two variables bounds, and the one that bounds it. -/
def Exp.bound (e : Exp) : Option (Nat × Nat) :=
  match e.tupleVars with
  | (c₁, l₁) :: (c₂, l₂) :: _ =>
    if c₁ < 0 ∧ c₂ > 0 then some (l₁, l₂) else if c₁ > 0 ∧ c₂ < 0 then some (l₂, l₁) else none
  | _ => none

/-- An inequality between two variables lowers the one that it bounds to the other one. -/
theorem Exp.examine_bound {e : Exp} {v w : Int × Nat} {rest : List (Int × Nat)} (h : e.tupleVars = v :: w :: rest)
    (he : e.expType ≠ .equality) (f : Nat → Int) :
    e.examine f = match e.bound with
      | some (l, u) => if 2 ≤ f u ∧ f u < f l then Function.update f l (f u) else f
      | none => f := by
  obtain ⟨c₁, l₁⟩ := v
  obtain ⟨c₂, l₂⟩ := w
  have hk : (e.expType == ExpType.equality) = false := by simpa using he
  unfold examine examineWith bound
  rw [h, hk]
  simp only [List.head?_cons, Bool.false_eq_true, if_false]
  by_cases h₁ : c₁ < 0 ∧ c₂ > 0
  · rw [if_pos h₁, if_pos h₁, if_neg (show ¬ (c₁ < 0 ∧ c₂ < 0) by omega)]
    dsimp only
    by_cases hlow : 2 ≤ f l₂ ∧ f l₂ < f l₁
    · rw [if_pos hlow, if_neg (by omega), if_neg (by omega), if_pos hlow.2]
    · rw [if_neg hlow]
      by_cases hknown : f l₂ < 2
      · rw [if_pos hknown, ite_self]
      · rw [if_neg hknown, if_neg (show ¬ f l₂ < f l₁ by omega), ite_self]
  · rw [if_neg h₁, if_neg h₁]
    by_cases h₂ : c₁ > 0 ∧ c₂ < 0
    · rw [if_pos h₂, if_pos h₂, if_neg (show ¬ (c₁ < 0 ∧ c₂ < 0) by omega)]
      dsimp only
      by_cases hlow : 2 ≤ f l₁ ∧ f l₁ < f l₂
      · rw [if_pos hlow, if_neg (by omega), if_neg (by omega), if_pos hlow.2]
      · rw [if_neg hlow]
        by_cases hknown : f l₁ < 2
        · rw [if_pos hknown, ite_self]
        · rw [if_neg hknown, if_neg (show ¬ f l₁ < f l₂ by omega), ite_self]
    · rw [if_neg h₂, if_neg h₂, ite_self, ite_self]

/-! ## The second pass -/

/-- Among inequalities, the last one first, some lower a variable of order `n`: one bounds it by a variable of order `nnz / n`,
or by one that those before it have lowered. -/
def loweredBy (f : Nat → Int) : List Exp → Nat → Bool
  | [], _ => false
  | e :: es, l => loweredBy f es l || match e.bound with
    | some (l', u) => l' == l && f l == 3 && (f u == 2 || loweredBy f es u)
    | none => false

theorem eq_three_of_loweredBy {f : Nat → Int} {es : List Exp} {l : Nat} (h : loweredBy f es l = true) : f l = 3 := by
  induction es with
  | nil => cases h
  | cons e es ih =>
    rw [loweredBy, Bool.or_eq_true] at h
    rcases h with h | h
    · exact ih h
    · cases hb : e.bound with
      | none => rw [hb] at h; cases h
      | some b =>
        rw [hb] at h
        simp only [Bool.and_eq_true, beq_iff_eq] at h
        exact h.1.2

/-- An inequality between two variables in the second pass. -/
theorem examine_bound_loweredBy {f k : Nat → Int} (hk : ∀ l, -1 ≤ k l ∧ k l ≤ 3) {es : List Exp} {e : Exp}
    (hrun : ∀ l, k l = if loweredBy f es l then 2 else f l) {v w : Int × Nat} {rest : List (Int × Nat)}
    (h : e.tupleVars = v :: w :: rest) (he : e.expType ≠ .equality) (l : Nat) :
    e.examine k l = if loweredBy f (e :: es) l then 2 else f l := by
  rw [Exp.examine_bound h he, loweredBy]
  cases e.bound with
  | none => simp [hrun l]
  | some b =>
    obtain ⟨l', u⟩ := b
    dsimp only
    have hu := hrun u
    by_cases hl : l' = l
    · subst hl
      have hl := hrun l'
      by_cases hcond : 2 ≤ k u ∧ k u < k l'
      · -- the bound is lower, so it is 2 and what it bounds is 3
        have hku : k u = 2 := by have := hk l'; omega
        have hkl : k l' = 3 := by have := hk l'; omega
        have hlow : loweredBy f es l' = false := by
          by_contra hlow
          rw [if_pos (by simpa using hlow)] at hl
          omega
        rw [hlow, if_neg (by simp)] at hl
        have hbound : (f u == 2 || loweredBy f es u) = true := by
          by_cases hlowu : loweredBy f es u
          · simp [hlowu]
          · rw [if_neg hlowu] at hu
            simp [← hu, hku]
        have hthree : (f l' == 3) = true := by simp [← hl, hkl]
        rw [if_pos hcond, Function.update_self, hku, if_pos]
        simp only [hthree, hbound, beq_self_eq_true, Bool.and_self, Bool.or_true]
      · rw [if_neg hcond, hl]
        by_cases hlow : loweredBy f es l'
        · simp [hlow]
        · rw [if_neg hlow] at hl
          by_cases hall : (f l' == 3 && (f u == 2 || loweredBy f es u)) = true
          · exfalso
            simp only [Bool.and_eq_true, Bool.or_eq_true, beq_iff_eq] at hall
            obtain ⟨hthree, hbound⟩ := hall
            have hku : k u = 2 := by
              rw [hu]
              rcases hbound with hbound | hbound
              · split <;> simp [hbound]
              · rw [if_pos hbound]
            omega
          · simp only [hlow, beq_self_eq_true, Bool.true_and, Bool.false_or, hall]
    · have hsame : (if 2 ≤ k u ∧ k u < k l' then Function.update k l' (k u) else k) l = k l := by
        split
        · exact Function.update_of_ne (Ne.symm hl) _ _
        · rfl
      rw [hsame, hrun l]
      simp [hl]

/-- The inequalities in the second pass: where those with one variable do nothing, a variable changes only as it is lowered. -/
theorem foldl_examine_inequalities {f : Nat → Int} (hf : ∀ l, -1 ≤ f l ∧ f l ≤ 3) {es : List Exp}
    (he : ∀ e ∈ es, e.expType ≠ .equality) (hone : ∀ e ∈ es, ∀ v, e.tupleVars = [v] → ∀ k, Kept f k → e.examine k = k) (l : Nat) :
    es.foldl (fun f e => e.examine f) f l = if loweredBy f es.reverse l then 2 else f l := by
  induction es using List.reverseRecOn generalizing l with
  | nil => simp [loweredBy]
  | append_singleton es e ih =>
    have hrun := ih (fun d hd => he d (List.mem_append_left _ hd)) fun d hd => hone d (List.mem_append_left _ hd)
    have hmem : e ∈ es ++ [e] := List.mem_append_right _ (List.mem_singleton.2 rfl)
    have hkept := Kept.foldl es f
    rw [List.foldl_append, List.reverse_append]
    show e.examine (es.foldl (fun f e => e.examine f) f) l = if loweredBy f (e :: es.reverse) l then 2 else f l
    rcases htv : e.tupleVars with _ | ⟨v, _ | ⟨w, rest⟩⟩
    · have hsame : e.examine (es.foldl (fun f e => e.examine f) f) = es.foldl (fun f e => e.examine f) f := by
        rw [Exp.examine, htv]
      rw [hsame, hrun, loweredBy]
      simp [Exp.bound, htv]
    · rw [hone e hmem v htv _ hkept, hrun, loweredBy]
      simp [Exp.bound, htv]
    · exact examine_bound_loweredBy (hkept.bounded hf) hrun htv (he e hmem) l

/-! ## Both passes -/

theorem foldl_examine_of_fixed {es : List Exp} {f : Nat → Int} (h : ∀ e ∈ es, e.examine f = f) :
    es.foldl (fun f e => e.examine f) f = f := by
  induction es with
  | nil => rfl
  | cons e es ih =>
    rw [List.foldl_cons, h e List.mem_cons_self]
    exact ih fun d hd => h d (List.mem_cons_of_mem _ hd)

/-- What a pass leaves keeps what a constraint of it has done. -/
theorem Kept.of_mem {es : List Exp} {e : Exp} (he : e ∈ es) (f : Nat → Int) :
    ∃ k, Kept (e.examine k) (es.foldl (fun f e => e.examine f) f) := by
  obtain ⟨before, after, rfl⟩ := List.append_of_mem he
  exact ⟨_, by rw [List.foldl_append, List.foldl_cons]; exact Kept.foldl after _⟩

theorem Kept.pass (c : Conjunction) (f : Nat → Int) : Kept f (c.examine f) :=
  (Kept.foldl c.equalities f).trans (Kept.foldl c.inequalities _)

/-- One equality is between two tuple variables, `x` and `y` in this order, that cannot be projected out. -/
structure OneEquality (f : Nat → Int) (c : Conjunction) (x y : Nat) : Prop where
  ne : x ≠ y
  split : ∃ before e after, c.equalities = before ++ e :: after ∧ e.tupleVars.map Prod.snd = [x, y] ∧
    ∀ d ∈ before ++ after, (d.tupleVars.filter (fun v => f v.2 != 0)).length ≤ 1

/-- One of two variables is of order 1 now, one that was at least as expensive as the other, and the other is what it was. -/
def SparesExpensive (f f' : Nat → Int) (x y : Nat) : Prop :=
  (f' x = 1 ∧ f y ≤ f x ∧ f' y = f y) ∨ (f' y = 1 ∧ f x ≤ f y ∧ f' x = f x)

/-- In the second pass an equality that is not between two variables to be kept does nothing. -/
theorem examine_other {c : Conjunction} (hc : c.WellTyped) {f₀ : Nat → Int} {d : Exp} (hd : d ∈ c.equalities)
    (hother : (d.tupleVars.filter (fun v => f₀ v.2 != 0)).length ≤ 1) {k : Nat → Int} (hk : Kept (c.examine f₀) k) :
    d.examine k = k := by
  have htype := hc.typed.1 d hd
  rcases htv : d.tupleVars with _ | ⟨v, _ | ⟨w, rest⟩⟩
  · rw [Exp.examine, htv]
  · obtain ⟨g, hg⟩ := Kept.of_mem hd f₀
    exact Exp.examine_again_equality htv htype (hg.trans (Kept.foldl c.inequalities _)) hk
  · refine Exp.examine_projected htv htype ?_
    rw [((Kept.pass c f₀).trans hk).zero, ((Kept.pass c f₀).trans hk).zero]
    by_contra hne
    obtain ⟨hv, hw⟩ := not_or.1 hne
    simp [htv, hv, hw] at hother

/-- What the second pass leaves. -/
theorem examine_examine {c : Conjunction} (hc : c.WellTyped) {f₀ : Nat → Int} (h₀ : ∀ l, -1 ≤ f₀ l ∧ f₀ l ≤ 3) {x y : Nat}
    (hone : OneEquality f₀ c x y) (hx : 2 ≤ c.examine f₀ x) (hy : 2 ≤ c.examine f₀ y) (l : Nat) :
    c.examine (c.examine f₀) l =
      if loweredBy (Function.update (c.examine f₀) x 1) c.inequalities.reverse l then 2
      else Function.update (c.examine f₀) x 1 l := by
  obtain ⟨before, e, after, heq, hxy, hother⟩ := hone.split
  have hmem : ∀ d ∈ before ++ after, d ∈ c.equalities := by
    intro d hd
    rw [heq]
    rcases List.mem_append.1 hd with hd | hd
    · exact List.mem_append_left _ hd
    · exact List.mem_append_right _ (List.mem_cons_of_mem _ hd)
  have hkept := Kept.update (f := c.examine f₀) (l := x) (b := 1) (by omega) (by omega) le_rfl (.inl (by decide))
  obtain ⟨v, w, htv, rfl, rfl⟩ : ∃ v w, e.tupleVars = [v, w] ∧ v.2 = x ∧ w.2 = y := by
    rcases htv : e.tupleVars with _ | ⟨v, _ | ⟨w, _ | ⟨u, rest⟩⟩⟩ <;> simp [htv] at hxy
    exact ⟨v, w, rfl, hxy.1, hxy.2⟩
  have hequalities : c.equalities.foldl (fun f e => e.examine f) (c.examine f₀) = Function.update (c.examine f₀) v.2 1 := by
    have htype := hc.typed.1 e (heq ▸ List.mem_append_right _ List.mem_cons_self)
    rw [heq, List.foldl_append, List.foldl_cons,
      foldl_examine_of_fixed fun d hd => examine_other hc (hmem d (List.mem_append_left _ hd))
        (hother d (List.mem_append_left _ hd)) (Kept.refl _),
      Exp.examine_spares htv htype hx hy,
      foldl_examine_of_fixed fun d hd => examine_other hc (hmem d (List.mem_append_right _ hd))
        (hother d (List.mem_append_right _ hd)) hkept]
  have hbounded := hkept.bounded ((Kept.pass c f₀).bounded h₀)
  have htype : ∀ d ∈ c.inequalities, d.expType ≠ .equality := fun d hd => by rw [hc.typed.2 d hd]; nofun
  rw [Conjunction.examine, hequalities]
  refine foldl_examine_inequalities hbounded htype (fun d hd u hu k hk => ?_) l
  obtain ⟨g, hg⟩ := Kept.of_mem hd (c.equalities.foldl (fun f e => e.examine f) f₀)
  exact Exp.examine_again_inequality hu (htype d hd) hg (hkept.trans hk) fun l => (hk.bounded hbounded l).1

theorem initialComplexities_range {cs : List Conjunction} {parallelTvs : List Int} {n : Nat} {f : Nat → Int}
    (h : initialComplexities cs parallelTvs n = .ok f) (l : Nat) : f l = -1 ∨ f l = 0 := by
  induction n generalizing f with
  | zero =>
    cases h
    exact .inr rfl
  | succ i ih =>
    obtain ⟨g, hg, h⟩ := bind_eq_ok.1 h
    have hupdate : ∀ b : Int, b = -1 ∨ b = 0 → Function.update g i b l = -1 ∨ Function.update g i b l = 0 := by
      intro b hb
      by_cases hl : l = i
      · rw [hl, Function.update_self]; exact hb
      · rw [Function.update_of_ne hl]; exact ih hg
    split at h
    · cases h
      exact hupdate _ (.inl rfl)
    · obtain ⟨isParam, -, h⟩ := bind_eq_ok.1 h
      cases h
      cases isParam
      · exact hupdate _ (.inr rfl)
      · exact hupdate _ (.inl rfl)

/-- Both passes examine all constraints, the equalities first. -/
theorem complexities_eq {c : Conjunction} (hc : c.WellTyped) {n : Nat} {parallelTvs : List Int} {f₀ : Nat → Int}
    (h₀ : initialComplexities [c] parallelTvs n = .ok f₀) :
    complexities [c] n parallelTvs = .ok (c.examine (c.examine f₀)) := by
  obtain ⟨v₁, hv₁, hf₁⟩ := VisitorCalculateComplexity.accept_conjunction hc (.start f₀)
  obtain ⟨v₂, hv₂, hf₂⟩ := VisitorCalculateComplexity.accept_conjunction hc v₁
  rw [hf₁] at hf₂
  exact bind_eq_ok.2 ⟨f₀, h₀, bind_eq_ok.2 ⟨v₁, hv₁, bind_eq_ok.2 ⟨v₂, hv₂, congrArg Except.ok hf₂⟩⟩⟩

/-- **The more expensive loop is spared** exactly where the first variable of the equality is at least as expensive as the
second one, and the inequalities lower the second one no further. -/
theorem complexities_iff {s : Set} {c : Conjunction} (hs : s.conjunctions = [c]) (hc : c.WellTyped) {parallelTvs : List Int}
    {f₀ : Nat → Int} (h₀ : initialComplexities s.conjunctions parallelTvs s.arity = .ok f₀) {x y : Nat}
    (hone : OneEquality f₀ c x y) {v₁ : VisitorCalculateComplexity}
    (h₁ : acceptVisitor VisitorCalculateComplexity.visitor s.conjunctions (.start f₀) = .ok v₁)
    (hx : v₁.complexity x = 2 ∨ v₁.complexity x = 3) (hy : v₁.complexity y = 2 ∨ v₁.complexity y = 3) :
    ∃ f₂, complexities s.conjunctions s.arity parallelTvs = .ok f₂ ∧
      (SparesExpensive v₁.complexity f₂ x y ↔
        v₁.complexity y ≤ v₁.complexity x ∧
          loweredBy (Function.update v₁.complexity x 1) c.inequalities.reverse y = false) := by
  rw [hs] at h₀ h₁ ⊢
  obtain ⟨v, hv, hf⟩ := VisitorCalculateComplexity.accept_conjunction hc (.start f₀)
  obtain rfl : v₁ = v := Except.ok.inj (h₁.symm.trans hv)
  have hf : v₁.complexity = c.examine f₀ := hf
  have hrange : ∀ l, -1 ≤ f₀ l ∧ f₀ l ≤ 3 := fun l => by
    rcases initialComplexities_range h₀ l with h | h <;> omega
  rw [hf] at hx hy ⊢
  have hsecond := examine_examine hc hrange hone (by omega) (by omega)
  refine ⟨_, complexities_eq hc h₀, ?_⟩
  have hx₂ : c.examine (c.examine f₀) x = 1 := by
    rw [hsecond, if_neg (fun h => ?_), Function.update_self]
    have := eq_three_of_loweredBy h
    rw [Function.update_self] at this
    omega
  have hy₂ := hsecond y
  rw [Function.update_of_ne (Ne.symm hone.ne)] at hy₂
  unfold SparesExpensive
  cases hlow : loweredBy (Function.update (c.examine f₀) x 1) c.inequalities.reverse y with
  | true =>
    have hthree := eq_three_of_loweredBy hlow
    rw [Function.update_of_ne (Ne.symm hone.ne)] at hthree
    rw [hlow, if_pos rfl] at hy₂
    constructor
    · rintro (⟨-, -, h⟩ | ⟨h, -, -⟩) <;> omega
    · rintro ⟨-, h⟩
      cases h
  | false =>
    rw [hlow, if_neg (by simp)] at hy₂
    constructor
    · rintro (⟨-, h, -⟩ | ⟨h, -, -⟩)
      · exact ⟨h, rfl⟩
      · omega
    · rintro ⟨h, -⟩
      exact .inl ⟨hx₂, h, hy₂⟩

section Witness

/-- `\x7b[i, j] : i = j && i < n₁ && j < n₂\x7d`, whose variables are both to be parallel. -/
private def equalIterators (n₁ n₂ : String) : Conjunction where
  tupleDecl := TupleDecl.sDefaultTupleDecl 2
  equalities := [.mk .equality [.tupleVar 1 0, .tupleVar (-1) 1]]
  inequalities := [.mk .inequality [.tupleVar (-1) 0, .symConst 1 n₁, .constVal (-1)],
    .mk .inequality [.tupleVar (-1) 1, .symConst 1 n₂, .constVal (-1)]]
  inArity := 0

private theorem wellTyped_equalIterators (n₁ n₂ : String) : (equalIterators n₁ n₂).WellTyped where
  typed := ⟨fun e he => by simp [equalIterators] at he; rw [he]; rfl, fun e he => by
    simp [equalIterators] at he
    rcases he with rfl | rfl <;> rfl⟩
  arguments := fun e he => by simp [equalIterators, Conjunction.arguments, Exp.arguments, termsArguments, Term.arguments] at he

private def bothParallel : Nat → Int := Function.update (Function.update (fun _ => 0) 0 (-1)) 1 (-1)

private theorem oneEquality_equalIterators (n₁ n₂ : String) : OneEquality bothParallel (equalIterators n₁ n₂) 0 1 where
  ne := by decide
  split := ⟨[], _, [], rfl, rfl, fun _ h => by cases h⟩

private theorem initialComplexities_equalIterators (n₁ n₂ : String) :
    initialComplexities [equalIterators n₁ n₂] [0, 1] 2 = .ok bothParallel := rfl

theorem complexities_iff_equalIterators :
    ∃ f₂, complexities [equalIterators "n" "nnz"] 2 [0, 1] = .ok f₂ ∧
      SparesExpensive ((equalIterators "n" "nnz").examine bothParallel) f₂ 0 1 := by
  have hc := wellTyped_equalIterators "n" "nnz"
  obtain ⟨v, hv, hf⟩ := VisitorCalculateComplexity.accept_conjunction hc (.start bothParallel)
  have hf : v.complexity = (equalIterators "n" "nnz").examine bothParallel := hf
  have h := complexities_iff (s := ⟨2, [equalIterators "n" "nnz"]⟩) rfl hc (initialComplexities_equalIterators "n" "nnz")
    (oneEquality_equalIterators "n" "nnz") hv (by rw [hf]; decide) (by rw [hf]; decide)
  rw [hf] at h
  obtain ⟨f₂, hf₂, hiff⟩ := h
  exact ⟨f₂, hf₂, hiff.2 (by decide)⟩

/-- Of `i < nnz` and `j < n` with `i = j` the first pass knows that `i` is cheaper, and the loop over it is spared. -/
theorem complexities_sparesCheaper :
    (equalIterators "nnz" "n").examine bothParallel 0 = 2 ∧ (equalIterators "nnz" "n").examine bothParallel 1 = 3 ∧
    ∃ f₂, complexities [equalIterators "nnz" "n"] 2 [0, 1] = .ok f₂ ∧ f₂ 0 = 1 ∧ f₂ 1 = 3 ∧
      ¬ SparesExpensive ((equalIterators "nnz" "n").examine bothParallel) f₂ 0 1 := by
  refine ⟨by decide, by decide, _, complexities_eq (wellTyped_equalIterators "nnz" "n")
    (initialComplexities_equalIterators "nnz" "n"), by decide, by decide, ?_⟩
  unfold SparesExpensive
  decide

end Witness

end IEGen
