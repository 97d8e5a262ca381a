import IEGen.Bounded
import IEGen.Merging

/-!
# Calls with tuple-valued arguments

`indexUFCs` writes a call whose one argument is a call that stands for a tuple, such as `sigma(left(f))`, as
`sigma(left(f)[0], left(f)[1])`. The visited term is overwritten in place by an assignment that copies the name, the
arguments and the index of the new call and leaves the coefficient. The new call has no index, so that the index of the
old one is lost.
-/

namespace IEGen

open Outcome (bind_eq_ok)

/-! ## The visitor -/

/-- `postVisitUFCallTerm` of `VisitorIndexUFC`, with what it leaves in the place of the term. -/
def Term.indexUFCall (env : Environment) : Term → Except Failure Term
  | .ufCall coeff name args tupleIndex => do
    let s ← env.queryDomain name
    let act_nArg := s.arity
    if args.length = 1 ∧ act_nArg > 1 then
      match args.head?.bind Exp.getTerm with
      | some (.ufCall c g as _) =>
        .ok (.ufCall coeff name
          ((List.range act_nArg).map (fun i => (Exp.mk .expression []).addTerm (.ufCall c g as (some i)))) none)
      | _ => .error (.assertException "VisitorIndexUFC: Null or non UFC tuple argument")
    else .ok (.ufCall coeff name args tupleIndex)
  | t => .ok t

section IndexUFCs

variable (env : Environment)

mutual
/-- A term after the visit, which overwrites the arguments before the call itself. -/
def Term.indexUFCs : Term → Except Failure Term
  | .ufCall c f as i => do
    let as ← argsIndexUFCs as
    Term.indexUFCall env (.ufCall c f as i)
  | t => .ok t

def Exp.indexUFCs : Exp → Except Failure Exp
  | .mk k ts => do .ok (.mk k (← termsIndexUFCs ts))

def argsIndexUFCs : List Exp → Except Failure (List Exp)
  | [] => .ok []
  | e :: es => do
    let e ← e.indexUFCs
    .ok (e :: (← argsIndexUFCs es))

def termsIndexUFCs : List Term → Except Failure (List Term)
  | [] => .ok []
  | t :: ts => do
    let t ← t.indexUFCs
    .ok (t :: (← termsIndexUFCs ts))
end

def Conjunction.indexUFCs (c : Conjunction) : Except Failure Conjunction := do
  let equalities ← c.equalities.mapM (Exp.indexUFCs env)
  let inequalities ← c.inequalities.mapM (Exp.indexUFCs env)
  .ok { c with equalities := equalities, inequalities := inequalities }

/-- `SparseConstraints::indexUFCs` -/
def indexUFCs (cs : List Conjunction) : Except Failure (List Conjunction) := cs.mapM (Conjunction.indexUFCs env)

end IndexUFCs

/-! ## What the expanded form is -/

section Expanded

variable (dom cod : String → Nat)

/-- The arguments of a function of `n` components: a call without index that gives as many stands for its components. -/
def componentsOf (n : Nat) : List Exp → List Exp
  | [.mk k [.ufCall c g as none]] =>
    if c ≠ 0 ∧ n ≤ cod g then (List.range n).map (fun i => .mk .expression [.ufCall c g as (some i)])
    else [.mk k [.ufCall c g as none]]
  | es => es

mutual
/-- A term with each call of a function of several components that is given as one written out, with its coefficient
and its index. -/
def Term.expanded : Term → Term
  | .ufCall c f as i =>
    .ufCall c f (if as.length = 1 ∧ dom f > 1 then componentsOf cod (dom f) (argsExpanded as) else argsExpanded as) i
  | t => t

def Exp.expanded : Exp → Exp
  | .mk k ts => .mk k (termsExpanded ts)

def argsExpanded : List Exp → List Exp
  | [] => []
  | e :: es => e.expanded :: argsExpanded es

def termsExpanded : List Term → List Term
  | [] => []
  | t :: ts => t.expanded :: termsExpanded ts
end

def Conjunction.expanded (c : Conjunction) : Conjunction :=
  { c with equalities := c.equalities.map (Exp.expanded dom cod),
           inequalities := c.inequalities.map (Exp.expanded dom cod) }

/-- A call is not written out, or it has no index and its argument is a call without index that gives the components. -/
def KeepsIndex (f : String) (i : Option Nat) (as : List Exp) : Prop :=
  as.length = 1 ∧ dom f > 1 → i = none ∧ ∃ k c g gs, as = [.mk k [.ufCall c g gs none]] ∧ c ≠ 0 ∧ dom f ≤ cod g

end Expanded

/-! ## The visit gives the expanded form -/

section Indexing

variable {env : Environment}

theorem Environment.arity_queryDomain {name : String} {s : Set} (h : env.queryDomain name = .ok s) :
    s.arity = env.domainArity name := by
  unfold Environment.queryDomain at h
  unfold Environment.domainArity
  cases hu : env.uninterpFuncMap.lookup name with
  | none => rw [hu] at h; cases h
  | some u =>
    rw [hu] at h
    obtain ⟨_, _, h⟩ := bind_eq_ok.1 h
    cases h
    rfl

theorem Exp.addTerm_empty {c : Int} (hc : c ≠ 0) (g : String) (as : List Exp) (i : Option Nat) :
    (Exp.mk .expression []).addTerm (.ufCall c g as i) = .mk .expression [.ufCall c g as i] := by
  simp [Exp.addTerm, termsAddInto, Term.coefficient, hc, insertTerm, Term.multiplyBy, Term.setCoefficient]

theorem Exp.eq_of_getTerm {k : ExpType} {ts : List Term} {t : Term} (h : (Exp.mk k ts).getTerm = some t) : ts = [t] := by
  unfold Exp.getTerm at h
  split at h
  case h_1 u hu => rw [← Option.some.inj h]; exact hu
  case h_2 => cases h

/-- What the visit of a call leaves: the call, or the components of the call that is its argument. -/
theorem Term.indexUFCall_eq_ok {c : Int} {f : String} {as : List Exp} {i : Option Nat} {t : Term}
    (h : Term.indexUFCall env (.ufCall c f as i) = .ok t) :
    (¬ (as.length = 1 ∧ env.domainArity f > 1) ∧ t = .ufCall c f as i) ∨
    (as.length = 1 ∧ env.domainArity f > 1 ∧ ∃ k c' g gs j, as = [.mk k [.ufCall c' g gs j]] ∧
      t = .ufCall c f ((List.range (env.domainArity f)).map
        (fun l => (Exp.mk .expression []).addTerm (.ufCall c' g gs (some l)))) none) := by
  simp only [Term.indexUFCall, bind_eq_ok] at h
  obtain ⟨s, hs, h⟩ := h
  rw [Environment.arity_queryDomain hs] at h
  split_ifs at h with hlen
  · refine .inr ⟨hlen.1, hlen.2, ?_⟩
    obtain ⟨e, rfl⟩ := List.length_eq_one_iff.1 hlen.1
    obtain ⟨k, ts⟩ := e
    rw [List.head?_cons, Option.bind_some] at h
    split at h
    case h_1 c' g gs j hterm =>
      obtain rfl := Exp.eq_of_getTerm hterm
      exact ⟨k, c', g, gs, j, rfl, (Except.ok.inj h).symm⟩
    case h_2 => cases h
  · exact .inl ⟨hlen, (Except.ok.inj h).symm⟩

theorem componentsOf_call {cod : String → Nat} {n : Nat} {k : ExpType} {c : Int} {g : String} {as : List Exp}
    {j : Option Nat} : componentsOf cod n [.mk k [.ufCall c g as j]] =
      if j = none ∧ c ≠ 0 ∧ n ≤ cod g then (List.range n).map (fun i => .mk .expression [.ufCall c g as (some i)])
      else [.mk k [.ufCall c g as j]] := by
  cases j <;> simp [componentsOf]

/-- The components of a call that are written out are those of the expanded call just when it stands for a tuple. -/
theorem components_eq_iff {cod : String → Nat} {n : Nat} {k : ExpType} {c : Int} {g : String} {as as' : List Exp}
    {j : Option Nat} (hn : 1 < n) :
    (List.range n).map (fun l => (Exp.mk .expression []).addTerm (.ufCall c g as' (some l))) =
      componentsOf cod n [.mk k [.ufCall c g as j]] ↔ as' = as ∧ j = none ∧ c ≠ 0 ∧ n ≤ cod g := by
  rw [componentsOf_call]
  split_ifs with h
  · constructor
    · intro heq
      have h0 := List.map_inj_left.1 heq 0 (List.mem_range.2 (by omega))
      rw [Exp.addTerm_empty h.2.1] at h0
      injection h0 with _ h0
      injection h0 with h0
      injection h0 with _ _ h0
      exact ⟨h0, h⟩
    · rintro ⟨rfl, -⟩
      exact List.map_congr_left fun l _ => Exp.addTerm_empty h.2.1 g as' (some l)
  · constructor
    · intro heq
      have hlen := congrArg List.length heq
      rw [List.length_map, List.length_range, List.length_singleton] at hlen
      omega
    · exact fun h' => absurd h'.2 h

theorem Term.eq_ufCall_of_indexUFCs {t : Term} {c : Int} {g : String} {as' : List Exp} {j' : Option Nat}
    (h : t.indexUFCs env = .ok (.ufCall c g as' j')) :
    ∃ as j, t = .ufCall c g as j ∧ (j' = j ∨ j' = none) := by
  cases t with
  | ufCall c' g' as j =>
    obtain ⟨bs, hbs, h⟩ := bind_eq_ok.1 h
    rcases Term.indexUFCall_eq_ok h with ⟨-, heq⟩ | ⟨-, -, k, d, f, gs, l, -, heq⟩
    · injection heq with hc hg has hj
      exact ⟨as, j, by rw [hc, hg], .inl hj⟩
    · injection heq with hc hg has hj
      exact ⟨as, j, by rw [hc, hg], .inr hj⟩
  | _ => cases h

theorem length_argsIndexUFCs : ∀ {es es' : List Exp}, argsIndexUFCs env es = .ok es' → es'.length = es.length
  | [], _, h => by cases h; rfl
  | e :: es, _, h => by
    obtain ⟨e', -, h⟩ := bind_eq_ok.1 h
    obtain ⟨es', hes, h⟩ := bind_eq_ok.1 h
    cases h
    rw [List.length_cons, List.length_cons, length_argsIndexUFCs hes]

theorem argsIndexUFCs_call {as : List Exp} {k : ExpType} {c : Int} {g : String} {gs' : List Exp} {j' : Option Nat}
    (h : argsIndexUFCs env as = .ok [.mk k [.ufCall c g gs' j']]) :
    ∃ gs j, as = [.mk k [.ufCall c g gs j]] ∧ (j' = j ∨ j' = none) := by
  obtain ⟨e, rfl⟩ := List.length_eq_one_iff.1 (length_argsIndexUFCs h).symm
  obtain ⟨e', he, h⟩ := bind_eq_ok.1 h
  obtain ⟨es', hes, h⟩ := bind_eq_ok.1 h
  cases h
  obtain ⟨kind, ts⟩ := e
  obtain ⟨ts', hts, he⟩ := bind_eq_ok.1 he
  cases he
  cases ts with
  | nil => cases hts
  | cons t ts =>
    obtain ⟨t', ht, hts⟩ := bind_eq_ok.1 hts
    obtain ⟨us, hus, hts⟩ := bind_eq_ok.1 hts
    cases hts
    cases ts with
    | nil =>
      obtain ⟨gs, j, rfl, hj⟩ := Term.eq_ufCall_of_indexUFCs ht
      exact ⟨gs, j, rfl, hj⟩
    | cons u us =>
      obtain ⟨_, -, hus⟩ := bind_eq_ok.1 hus
      obtain ⟨_, -, hus⟩ := bind_eq_ok.1 hus
      cases hus

section Visit

variable (env)

mutual
theorem Term.indexUFCs_expanded_iff : ∀ {t t' : Term}, t.indexUFCs env = .ok t' →
    (t' = t.expanded env.domainArity env.rangeArity ↔ t.AllCalls (KeepsIndex env.domainArity env.rangeArity))
  | .ufCall c f as i, t', h => by
    obtain ⟨as', has, h⟩ := bind_eq_ok.1 h
    have hlen := length_argsIndexUFCs has
    have ih := argsIndexUFCs_iff has
    rw [Term.AllCalls, ← ih, Term.expanded, ← hlen]
    rcases Term.indexUFCall_eq_ok h with ⟨hn, rfl⟩ | ⟨h1, h2, k, c', g, gs', j', rfl, rfl⟩
    · rw [if_neg hn, Term.ufCall.injEq]
      exact ⟨fun heq => ⟨fun hk => absurd (hlen ▸ hk) hn, heq.2.2.1⟩, fun heq => ⟨rfl, rfl, heq.2, rfl⟩⟩
    · -- the argument is a call, which stands for its components
      obtain ⟨gs, j, rfl, hj⟩ := argsIndexUFCs_call has
      have hshape : ∃ E, argsExpanded env.domainArity env.rangeArity [.mk k [.ufCall c' g gs j]] =
          [.mk k [.ufCall c' g E j]] := ⟨_, rfl⟩
      obtain ⟨E, hE⟩ := hshape
      have hkeeps : KeepsIndex env.domainArity env.rangeArity f i [.mk k [.ufCall c' g gs j]] ↔
          i = none ∧ j = none ∧ c' ≠ 0 ∧ env.domainArity f ≤ env.rangeArity g := by
        unfold KeepsIndex
        constructor
        · intro hk
          obtain ⟨hi, _, _, _, _, heq, hc, hle⟩ := hk ⟨h1, h2⟩
          simp only [List.cons.injEq, Exp.mk.injEq, Term.ufCall.injEq, and_true] at heq
          obtain ⟨-, rfl, rfl, rfl, rfl⟩ := heq
          exact ⟨hi, rfl, hc, hle⟩
        · rintro ⟨hi, rfl, hc, hle⟩ -
          exact ⟨hi, k, c', g, gs, rfl, hc, hle⟩
      rw [hE, if_pos ⟨h1, h2⟩, Term.ufCall.injEq, components_eq_iff h2, hkeeps]
      simp only [List.cons.injEq, Exp.mk.injEq, Term.ufCall.injEq, and_true, true_and]
      constructor
      · rintro ⟨⟨rfl, hjn, hc, hle⟩, rfl⟩
        refine ⟨⟨rfl, hjn, hc, hle⟩, rfl, ?_⟩
        rcases hj with rfl | rfl
        · rfl
        · exact hjn.symm
      · rintro ⟨⟨rfl, hjn, hc, hle⟩, rfl, -⟩
        exact ⟨⟨rfl, hjn, hc, hle⟩, rfl⟩
  | .tupleVar .., t', h | .symConst .., t', h | .constVal _, t', h | .tupleExp .., t', h => by
    cases h
    exact ⟨fun _ => trivial, fun _ => rfl⟩

theorem Exp.indexUFCs_expanded_iff : ∀ {e e' : Exp}, e.indexUFCs env = .ok e' →
    (e' = e.expanded env.domainArity env.rangeArity ↔ e.AllCalls (KeepsIndex env.domainArity env.rangeArity))
  | .mk k ts, e', h => by
    obtain ⟨ts', hts, h⟩ := bind_eq_ok.1 h
    cases h
    rw [Exp.AllCalls, ← termsIndexUFCs_iff hts, Exp.expanded, Exp.mk.injEq]
    exact ⟨And.right, fun heq => ⟨rfl, heq⟩⟩

theorem argsIndexUFCs_iff : ∀ {es es' : List Exp}, argsIndexUFCs env es = .ok es' →
    (es' = argsExpanded env.domainArity env.rangeArity es ↔
      argsAllCalls (KeepsIndex env.domainArity env.rangeArity) es)
  | [], _, h => by
    cases h
    exact ⟨fun _ => trivial, fun _ => rfl⟩
  | e :: es, _, h => by
    obtain ⟨e', he, h⟩ := bind_eq_ok.1 h
    obtain ⟨es', hes, h⟩ := bind_eq_ok.1 h
    cases h
    rw [argsAllCalls, ← Exp.indexUFCs_expanded_iff he, ← argsIndexUFCs_iff hes, argsExpanded, List.cons.injEq]

theorem termsIndexUFCs_iff : ∀ {ts ts' : List Term}, termsIndexUFCs env ts = .ok ts' →
    (ts' = termsExpanded env.domainArity env.rangeArity ts ↔
      termsAllCalls (KeepsIndex env.domainArity env.rangeArity) ts)
  | [], _, h => by
    cases h
    exact ⟨fun _ => trivial, fun _ => rfl⟩
  | t :: ts, _, h => by
    obtain ⟨t', ht, h⟩ := bind_eq_ok.1 h
    obtain ⟨ts', hts, h⟩ := bind_eq_ok.1 h
    cases h
    rw [termsAllCalls, ← Term.indexUFCs_expanded_iff ht, ← termsIndexUFCs_iff hts, termsExpanded, List.cons.injEq]
end

/-- A list is expanded element by element just when each element is. -/
theorem mapM_eq_map_iff {α : Type} {f : α → Except Failure α} {g : α → α} {P : α → Prop} {l l' : List α}
    (hl : l.mapM f = .ok l') (h : ∀ a a', f a = .ok a' → (a' = g a ↔ P a)) : l' = l.map g ↔ ∀ a ∈ l, P a := by
  have hl' := Outcome.forall₂_of_mapM hl
  clear hl
  induction hl' with
  | nil => simp
  | @cons a a' l l' haa _ ih =>
    rw [List.map_cons, List.cons.injEq, List.forall_mem_cons, h a a' haa]
    exact and_congr_right fun _ => ih

end Visit

theorem Conjunction.indexUFCs_expanded_iff {c c' : Conjunction} (h : c.indexUFCs env = .ok c') :
    c' = c.expanded env.domainArity env.rangeArity ↔ c.AllCalls (KeepsIndex env.domainArity env.rangeArity) := by
  obtain ⟨eqs, heqs, h⟩ := bind_eq_ok.1 h
  obtain ⟨ineqs, hineqs, h⟩ := bind_eq_ok.1 h
  cases h
  have heqs := mapM_eq_map_iff heqs fun e e' => Exp.indexUFCs_expanded_iff env
  have hineqs := mapM_eq_map_iff hineqs fun e e' => Exp.indexUFCs_expanded_iff env
  unfold Conjunction.AllCalls Conjunction.expanded
  rw [List.forall_mem_append, ← heqs, ← hineqs, Conjunction.mk.injEq]
  exact ⟨fun heq => ⟨heq.1, heq.2.1⟩, fun heq => ⟨heq.1, heq.2, rfl, rfl⟩⟩

/-! ## The expanded form means the same -/

variable {I : Interp} {τ : Nat → Int}

/-- The function is given the components, by the one call or written out. -/
theorem argTuple_componentsOf {f g : String} {k : ExpType} {c : Int} {as : List Exp} (hc : c ≠ 0) (h1 : 1 < I.dom f)
    (hle : I.dom f ≤ I.cod g) :
    I.argTuple f (argsVal I τ (componentsOf I.cod (I.dom f) [.mk k [.ufCall c g as none]])) =
      I.argTuple f (argsVal I τ [.mk k [.ufCall c g as none]]) := by
  rw [componentsOf_call, if_pos ⟨rfl, hc, hle⟩]
  have hmany : ∀ vs : List (Nat → Int), 1 < vs.length → I.argTuple f vs = vs.map (· 0) := by
    intro vs hvs
    match vs, hvs with
    | _ :: _ :: _, _ => rfl
  rw [hmany _ (by simp [argsVal_eq_map, h1]), argsVal_eq_map, List.map_map, List.map_map]
  refine List.map_congr_left fun i hi => ?_
  have hi : i < I.cod g := lt_of_lt_of_le (List.mem_range.1 hi) hle
  simp [Exp.val, Term.val, Interp.callVal, Interp.indexVal, hi]

mutual
theorem Term.val_expanded : ∀ {t : Term}, t.AllCalls (KeepsIndex I.dom I.cod) →
    (t.expanded I.dom I.cod).val I τ = t.val I τ
  | .ufCall c f as i, h => by
    have ih := argsVal_expanded h.2
    have htuple : I.argTuple f (argsVal I τ (if as.length = 1 ∧ I.dom f > 1 then
        componentsOf I.cod (I.dom f) (argsExpanded I.dom I.cod as) else argsExpanded I.dom I.cod as)) =
        I.argTuple f (argsVal I τ as) := by
      split_ifs with hn
      · obtain ⟨-, k, c', g, gs, rfl, hc, hle⟩ := h.1 hn
        exact (argTuple_componentsOf hc hn.2 hle).trans (congrArg (I.argTuple f) ih)
      · rw [ih]
    cases i <;> simp only [Term.expanded, Term.val, Interp.callVal, Interp.indexVal, htuple]
  | .tupleVar .., _ | .symConst .., _ | .constVal _, _ | .tupleExp .., _ => rfl

theorem Exp.val_expanded : ∀ {e : Exp}, e.AllCalls (KeepsIndex I.dom I.cod) →
    (e.expanded I.dom I.cod).val I τ = e.val I τ
  | .mk _ _, h => termsVal_expanded h

theorem argsVal_expanded : ∀ {es : List Exp}, argsAllCalls (KeepsIndex I.dom I.cod) es →
    argsVal I τ (argsExpanded I.dom I.cod es) = argsVal I τ es
  | [], _ => rfl
  | e :: es, h => by rw [argsExpanded, argsVal, argsVal, Exp.val_expanded h.1, argsVal_expanded h.2]

theorem termsVal_expanded : ∀ {ts : List Term}, termsAllCalls (KeepsIndex I.dom I.cod) ts →
    termsVal I τ (termsExpanded I.dom I.cod ts) = termsVal I τ ts
  | [], _ => rfl
  | t :: ts, h => by rw [termsExpanded, termsVal, termsVal, Term.val_expanded h.1, termsVal_expanded h.2]
end

theorem Conjunction.denote_expanded {c : Conjunction} (h : c.AllCalls (KeepsIndex I.dom I.cod)) :
    (c.expanded I.dom I.cod).denote I = c.denote I := by
  obtain ⟨heqs, hineqs⟩ := List.forall_mem_append.1 h
  ext t
  refine and_congr_right fun _ => and_congr ?_ ?_
  · refine List.forall_mem_map.trans (forall₂_congr fun e he => ?_)
    rw [Exp.HoldsEq, Exp.HoldsEq, Exp.val_expanded (heqs e he)]
  · refine List.forall_mem_map.trans (forall₂_congr fun e he => ?_)
    rw [Exp.HoldsGe, Exp.HoldsGe, Exp.val_expanded (hineqs e he)]

/-- The visit writes the calls out: every call that is written out keeps its coefficient and its index and is given the
components in order, and the integer tuples are the same. -/
def WritesOut (env : Environment) (cs ds : List Conjunction) : Prop :=
  ds = cs.map (Conjunction.expanded env.domainArity env.rangeArity) ∧
    ∀ I : Interp, I.Declared env → denoteUnion I ds = denoteUnion I cs

/-- The calls are written out, with nothing lost, just when each that is has no index and is given the components by a
call without index. -/
theorem indexUFCs_iff {cs ds : List Conjunction} (h : indexUFCs env cs = .ok ds) :
    WritesOut env cs ds ↔ ∀ c ∈ cs, c.AllCalls (KeepsIndex env.domainArity env.rangeArity) := by
  have hiff := mapM_eq_map_iff h fun c c' => Conjunction.indexUFCs_expanded_iff
  refine ⟨fun hw => hiff.1 hw.1, fun hk => ⟨hiff.2 hk, fun I hI => ?_⟩⟩
  rw [hiff.2 hk]
  rw [← hI.dom, ← hI.cod] at hk ⊢
  ext t
  constructor
  · rintro ⟨_, hd, ht⟩
    obtain ⟨c, hc, rfl⟩ := List.mem_map.1 hd
    rw [Conjunction.denote_expanded (hk c hc)] at ht
    exact ⟨c, hc, ht⟩
  · rintro ⟨c, hc, ht⟩
    rw [← Conjunction.denote_expanded (hk c hc)] at ht
    exact ⟨_, List.mem_map_of_mem hc, ht⟩

end Indexing

/-- `sigma`, from pairs to pairs, and `left`, from integers to pairs -/
def sigmaLeftEnv : Environment :=
  ⟨[("sigma", ⟨"sigma", .ofTupleDecl (.sDefaultTupleDecl 2), .ofTupleDecl (.sDefaultTupleDecl 2), false, .none⟩),
    ("left", ⟨"left", .ofTupleDecl (.sDefaultTupleDecl 1), .ofTupleDecl (.sDefaultTupleDecl 2), false, .none⟩)], [], []⟩

/-- `[x] : sigma(as)[i] = 0` -/
def sigmaConj (as : List Exp) (i : Option Nat) : Conjunction :=
  ⟨[.mk .equality [.ufCall 1 "sigma" as i]], [], .sDefaultTupleDecl 1, 0⟩

/-- `left(x)`, and its components -/
def leftCall (i : Option Nat) : Exp := .mk .expression [.ufCall 1 "left" [.mk .expression [.tupleVar 1 0]] i]

/-- Every function gives `(1, 0)`. -/
def oneZero : Interp := ⟨fun _ => 0, fun _ _ => [1, 0], sigmaLeftEnv.domainArity, sigmaLeftEnv.rangeArity⟩

theorem indexUFCs_loses_index :
    indexUFCs sigmaLeftEnv [sigmaConj [leftCall none] (some 1)] =
      .ok [sigmaConj [leftCall (some 0), leftCall (some 1)] none] ∧
    oneZero.Declared sigmaLeftEnv ∧ [0] ∈ denoteUnion oneZero [sigmaConj [leftCall none] (some 1)] ∧
      [0] ∉ denoteUnion oneZero [sigmaConj [leftCall (some 0), leftCall (some 1)] none] := by
  have hindex : (Term.ufCall 1 "sigma" [leftCall none] (some 1)).val oneZero (valuation [0]) = scalar 0 := rfl
  have hcall : (Term.ufCall 1 "sigma" [leftCall (some 0), leftCall (some 1)] none).val oneZero (valuation [0]) 0 = 1 := rfl
  refine ⟨rfl, ⟨rfl, rfl⟩, ⟨_, List.mem_cons_self, ⟨rfl, by decide⟩, fun e he => ?_, by simp [sigmaConj]⟩, ?_⟩
  · rw [List.mem_singleton.1 he]
    intro k
    rw [Exp.val, termsVal_cons, termsVal_nil, hindex]
    cases k <;> rfl
  · rintro ⟨c, hc, -, heq, -⟩
    rw [List.mem_singleton.1 hc] at heq
    have h0 := heq _ List.mem_cons_self 0
    rw [Exp.val, termsVal_cons, termsVal_nil, hcall] at h0
    cases h0

theorem indexUFCs_iff_without_index : ∃ ds, indexUFCs sigmaLeftEnv [sigmaConj [leftCall none] none] = .ok ds ∧
    (WritesOut sigmaLeftEnv [sigmaConj [leftCall none] none] ds ↔
      ∀ c ∈ [sigmaConj [leftCall none] none], c.AllCalls (KeepsIndex sigmaLeftEnv.domainArity sigmaLeftEnv.rangeArity)) :=
  have h : indexUFCs sigmaLeftEnv [sigmaConj [leftCall none] none] =
    .ok [sigmaConj [leftCall (some 0), leftCall (some 1)] none] := rfl
  ⟨_, h, indexUFCs_iff h⟩

end IEGen
