import IEGen.Bound
import IEGen.UFCallMap

/-!
# Replacing calls by symbols, and back

`superAffineSet` copies a set and builds it anew with every call that is not inside an argument replaced by its symbol
in a `UFCallMap`; `reverseAffineSubstitution` replaces the symbols that the map knows by their calls. Both go through
the set with a visitor that builds one expression, one conjunction and one list of conjunctions.
-/

namespace IEGen

/-- What both visitors build: `affineExp`, `affineConj` and `maffineConj`, or the same with `nonAffine`. -/
structure Builder where
  exp : Exp
  conj : Conjunction
  conjs : List Conjunction

namespace Builder

def empty : Builder := ⟨.mk .expression [], .ofTupleDecl ⟨[]⟩, []⟩

/-- `addTerm` on the expression. -/
def addTerm (b : Builder) (t : Term) : Builder := { b with exp := b.exp.addTerm t }

/-- `preVisitExp`, where a constraint starts. -/
def startExp (b : Builder) : Builder := { b with exp := .mk .expression [] }

/-- `postVisitExp`, where a constraint ends. -/
def endExp (b : Builder) (e : Exp) : Builder :=
  { b with conj := if e.expType = .inequality then b.conj.addInequality b.exp else b.conj.addEquality b.exp }

/-- `preVisitConjunction` -/
def startConjunction (b : Builder) (c : Conjunction) : Except Failure Builder := do
  .ok { b with conj := ← (Conjunction.ofTupleDecl c.tupleDecl).setInArity c.inArity }

/-- `postVisitConjunction` -/
def endConjunction (b : Builder) : Builder := { b with conjs := b.conjs ++ [b.conj] }

/-- `postVisitSet` -/
def endSet (b : Builder) (s : Set) : Set :=
  { Set.ofArity s.arity with conjunctions := b.conjs.foldl addConjunction (Set.ofArity s.arity).conjunctions }

/-- `postVisitRelation`, where the input arities are checked. -/
def endRelation (b : Builder) (r : Relation) : Except Failure Relation := do
  let result := Relation.ofArity r.inArity r.outArity
  .ok { result with conjunctions := ← b.conjs.foldlM (Relation.addConjunction result.inArity) result.conjunctions }

end Builder

/-! ## Constraints built anew -/

/-- An expression with each term replaced, added up anew. -/
def Exp.mapTerms (φ : Term → Term) (e : Exp) : Exp := (e.terms.map φ).foldl Exp.addTerm (.mk .expression [])

/-- A conjunction with each term of its constraints replaced. -/
def Conjunction.mapTerms (φ : Term → Term) (c : Conjunction) : Conjunction :=
  (c.inequalities.map (Exp.mapTerms φ)).foldl addInequality
    ((c.equalities.map (Exp.mapTerms φ)).foldl addEquality { ofTupleDecl c.tupleDecl with inArity := c.inArity })

/-- The terms of the constraints, those inside arguments left out. -/
def Conjunction.terms (c : Conjunction) : List Term := (c.equalities ++ c.inequalities).flatMap Exp.terms

/-- The constraints are marked as what they are. -/
def Conjunction.Typed (c : Conjunction) : Prop :=
  (∀ e ∈ c.equalities, e.expType = .equality) ∧ ∀ e ∈ c.inequalities, e.expType = .inequality

namespace Builder

variable (φ : Term → Term)

/-- A constraint that is visited from its start to its end. -/
def visitExp (b : Builder) (e : Exp) : Builder := (e.terms.foldl (fun b t => b.addTerm (φ t)) b.startExp).endExp e

/-- A conjunction that is visited from its start to its end. -/
def visitConjunction (b : Builder) (c : Conjunction) : Builder :=
  ((c.equalities ++ c.inequalities).foldl (visitExp φ)
    { b with conj := { Conjunction.ofTupleDecl c.tupleDecl with inArity := c.inArity } }).endConjunction

theorem foldl_addTerm (ts : List Term) (b : Builder) :
    ts.foldl (fun b t => b.addTerm (φ t)) b = { b with exp := (ts.map φ).foldl Exp.addTerm b.exp } := by
  induction ts generalizing b with
  | nil => rfl
  | cons t ts ih => rw [List.foldl_cons, ih]; rfl

theorem conj_foldl_visitExp {add : Conjunction → Exp → Conjunction} {es : List Exp}
    (hadd : ∀ e ∈ es, ∀ b : Builder, (b.endExp e).conj = add b.conj b.exp) (b : Builder) :
    (es.foldl (visitExp φ) b).conj = (es.map (Exp.mapTerms φ)).foldl add b.conj ∧
      (es.foldl (visitExp φ) b).conjs = b.conjs := by
  induction es generalizing b with
  | nil => exact ⟨rfl, rfl⟩
  | cons e es ih =>
    obtain ⟨h₁, h₂⟩ := ih (fun d hd => hadd d (List.mem_cons_of_mem _ hd)) (b.visitExp φ e)
    rw [List.foldl_cons, h₁, h₂, visitExp, hadd e List.mem_cons_self, foldl_addTerm]
    exact ⟨rfl, rfl⟩

theorem conjs_visitConjunction {c : Conjunction} (hc : c.Typed) (b : Builder) :
    (b.visitConjunction φ c).conjs = b.conjs ++ [c.mapTerms φ] := by
  have heq : ∀ e ∈ c.equalities, ∀ b : Builder, (b.endExp e).conj = b.conj.addEquality b.exp := by
    intro e he b
    simp [endExp, hc.1 e he]
  have hineq : ∀ e ∈ c.inequalities, ∀ b : Builder, (b.endExp e).conj = b.conj.addInequality b.exp := by
    intro e he b
    simp [endExp, hc.2 e he]
  unfold visitConjunction endConjunction
  rw [List.foldl_append]
  obtain ⟨h₁, h₂⟩ := conj_foldl_visitExp φ hineq (c.equalities.foldl (visitExp φ)
    { b with conj := { Conjunction.ofTupleDecl c.tupleDecl with inArity := c.inArity } })
  obtain ⟨h₃, h₄⟩ := conj_foldl_visitExp φ heq
    { b with conj := { Conjunction.ofTupleDecl c.tupleDecl with inArity := c.inArity } }
  simp only [h₁, h₂, h₃, h₄]
  rfl

theorem conjs_foldl_visitConjunction {cs : List Conjunction} (hcs : ∀ c ∈ cs, c.Typed) (b : Builder) :
    (cs.foldl (visitConjunction φ) b).conjs = b.conjs ++ cs.map (Conjunction.mapTerms φ) := by
  induction cs generalizing b with
  | nil => simp
  | cons c cs ih =>
    obtain ⟨hc, hcs⟩ := List.forall_mem_cons.1 hcs
    rw [List.foldl_cons, ih hcs, conjs_visitConjunction φ hc, List.append_assoc, List.map_cons]
    rfl

end Builder

/-! ## From calls to symbols -/

/-- `VisitorSuperAffineSet`. The source leaves `ufcDepth` without a value until the first constraint sets it. -/
structure VisitorSuperAffineSet where
  ufcmap : UFCallMap
  affine : Builder
  ufcDepth : Int

namespace VisitorSuperAffineSet

/-- The methods for the classes of terms: outside arguments, a call is replaced and any other term is kept. -/
def preVisitTerm (t : Term) (v : VisitorSuperAffineSet) : Except Failure VisitorSuperAffineSet :=
  if v.ufcDepth = 0 then
    match t with
    | .ufCall coeff _ _ _ => do
      let (vt, ufcmap) ← v.ufcmap.findCall t
      .ok { v with ufcmap := ufcmap, affine := v.affine.addTerm (.symConst coeff vt) }
    | _ => .ok { v with affine := v.affine.addTerm t }
  else .ok v

def preVisitExp (e : Exp) (v : VisitorSuperAffineSet) : VisitorSuperAffineSet :=
  if e.expType = .expression then { v with ufcDepth := v.ufcDepth + 1 }
  else { v with ufcDepth := 0, affine := v.affine.startExp }

def postVisitExp (e : Exp) (v : VisitorSuperAffineSet) : VisitorSuperAffineSet :=
  if e.expType = .expression then { v with ufcDepth := v.ufcDepth - 1 }
  else { v with affine := v.affine.endExp e }

def visitor : Visitor VisitorSuperAffineSet where
  preVisitTerm := preVisitTerm
  preVisitExp := fun e v => .ok (v.preVisitExp e)
  postVisitExp := fun e v => .ok (v.postVisitExp e)
  preVisitConjunction := fun c v => do .ok { v with affine := ← v.affine.startConjunction c }
  postVisitConjunction := fun _ v => .ok { v with affine := v.affine.endConjunction }

end VisitorSuperAffineSet

/-- `Set::superAffineSet`, with the map after it. -/
def Set.superAffineSet (env : Environment) (s : Set) (ufcmap : UFCallMap) (boundUFCs : Bool) :
    Except Failure (Set × UFCallMap) := do
  let result ← s.copy env
  if result.conjunctions.length = 0 then .ok (result, ufcmap)
  else do
    let copySet ← if boundUFCs then s.boundDomainRange env else s.copy env
    let v ← acceptVisitor VisitorSuperAffineSet.visitor copySet.conjunctions ⟨ufcmap, .empty, 0⟩
    .ok (v.affine.endSet copySet, v.ufcmap)

/-- `Relation::superAffineRelation`, with the map after it. -/
def Relation.superAffineRelation (env : Environment) (r : Relation) (ufcmap : UFCallMap) (boundUFCs : Bool) :
    Except Failure (Relation × UFCallMap) := do
  if r.conjunctions.length = 0 then .ok (← r.copy env, ufcmap)
  else do
    let copyRelation ← if boundUFCs then r.boundDomainRange env else r.copy env
    let v ← acceptVisitor VisitorSuperAffineSet.visitor copyRelation.conjunctions ⟨ufcmap, .empty, 0⟩
    .ok (← v.affine.endRelation copyRelation, v.ufcmap)

/-! ## What the visitor does -/

/-- The name of a call; empty when it cannot be printed. -/
def symbolOf (d : Option TupleDecl) (t : Term) : String :=
  match UFCallMap.symbol d t with
  | .ok s => s
  | .error _ => ""

/-- A call that gets a name. -/
def Named (d : Option TupleDecl) (t : Term) : Prop := t.isUFCall = true → ∃ s, UFCallMap.symbol d t = .ok s

/-- A term with its symbol for a call. -/
def affineTerm (d : Option TupleDecl) : Term → Term
  | .ufCall c f as i => .symConst c (symbolOf d (.ufCall c f as i))
  | t => t

/-- The map after a term has been seen. -/
def UFCallMap.record (m : UFCallMap) (t : Term) : UFCallMap :=
  if t.isUFCall then m.add (symbolOf m.tupleDecl t) t else m

theorem symbolOf_eq {d : Option TupleDecl} {t : Term} {s : String} (h : UFCallMap.symbol d t = .ok s) :
    symbolOf d t = s := by
  rw [symbolOf, h]

theorem affineTerm_setCoefficient (d : Option TupleDecl) (c : Int) (t : Term) :
    affineTerm d (t.setCoefficient c) = (affineTerm d t).setCoefficient c := by
  cases t with
  | ufCall c' f as i =>
    have h := UFCallMap.symbol_setCoefficient d c (.ufCall c' f as i)
    have hs : symbolOf d ((Term.ufCall c' f as i).setCoefficient c) = symbolOf d (.ufCall c' f as i) := by
      rw [symbolOf, h, symbolOf]
    exact congrArg (Term.symConst c) hs
  | _ => rfl

namespace VisitorSuperAffineSet

/-- The states of a run outside arguments: the map is well formed and prints with the declaration it started with. -/
structure Inv (d : Option TupleDecl) (v : VisitorSuperAffineSet) : Prop where
  wf : v.ufcmap.Wf
  tupleDecl : v.ufcmap.tupleDecl = d
  depth : v.ufcDepth = 0

/-- What a term outside arguments does to the state. -/
def visitTerm (d : Option TupleDecl) (v : VisitorSuperAffineSet) (t : Term) : VisitorSuperAffineSet :=
  { v with ufcmap := v.ufcmap.record t, affine := v.affine.addTerm (affineTerm d t) }

mutual
/-- Inside arguments nothing happens. -/
theorem accept_term_inside : ∀ {t : Term} {v : VisitorSuperAffineSet}, t.Canonical → 0 < v.ufcDepth →
    t.acceptVisitor visitor v = .ok v
  | .ufCall c f as i, v, hc, hv => by
    have h : preVisitTerm (.ufCall c f as i) v = .ok v := if_neg hv.ne'
    unfold Term.acceptVisitor
    simp only [visitor, h, Outcome.bind_eq_ok, Except.ok.injEq, exists_eq_left', exists_eq_right]
    exact accept_args (by exact hc) hv.le
  | .tupleVar .., v, _, hv | .symConst .., v, _, hv | .constVal _, v, _, hv | .tupleExp .., v, _, hv => by
    unfold Term.acceptVisitor
    simp only [visitor, preVisitTerm, if_neg hv.ne']
    rfl

theorem accept_exp_inside : ∀ {e : Exp} {v : VisitorSuperAffineSet}, e.Canonical → 0 ≤ v.ufcDepth →
    e.acceptVisitor visitor v = .ok v
  | .mk k ts, v, hc, hv => by
    obtain ⟨rfl, -, hts⟩ := hc
    have hpre : preVisitExp (.mk .expression ts) v = { v with ufcDepth := v.ufcDepth + 1 } := rfl
    have hpost : postVisitExp (.mk .expression ts) { v with ufcDepth := v.ufcDepth + 1 } = v := by
      simp [postVisitExp]
    have hterms := accept_terms_inside (v := { v with ufcDepth := v.ufcDepth + 1 }) hts (by simp only; omega)
    unfold Exp.acceptVisitor
    simp only [visitor, hpre, Outcome.bind_eq_ok, Except.ok.injEq, exists_eq_left']
    exact ⟨_, hterms, hpost⟩

/-- The arguments of a call are passed over. -/
theorem accept_args : ∀ {es : List Exp} {v : VisitorSuperAffineSet}, argsCanonical es → 0 ≤ v.ufcDepth →
    argsAcceptVisitor visitor es v = .ok v
  | [], _, _, _ => rfl
  | e :: es, v, hc, hv => by
    unfold argsAcceptVisitor
    rw [accept_exp_inside hc.1 hv]
    exact accept_args hc.2 hv

theorem accept_terms_inside : ∀ {ts : List Term} {v : VisitorSuperAffineSet}, termsCanonical ts → 0 < v.ufcDepth →
    termsAcceptVisitor visitor ts v = .ok v
  | [], _, _, _ => rfl
  | t :: ts, v, hc, hv => by
    unfold termsAcceptVisitor
    rw [accept_term_inside hc.1.2 hv]
    exact accept_terms_inside hc.2 hv
end

theorem inv_visitTerm {d : Option TupleDecl} {v : VisitorSuperAffineSet} {t : Term} (hv : Inv d v)
    (hr : t.readable = true) (hc : t.Canonical) (hn : Named d t) : Inv d (v.visitTerm d t) := by
  obtain ⟨hwf, rfl, h0⟩ := hv
  unfold visitTerm UFCallMap.record
  split_ifs with hcall
  · obtain ⟨s, hs⟩ := hn hcall
    rw [symbolOf_eq hs]
    exact ⟨UFCallMap.wf_add hwf hcall hr hc hs, UFCallMap.tupleDecl_add s t, h0⟩
  · exact ⟨hwf, rfl, h0⟩

/-- One term outside arguments. -/
theorem accept_term_iff {d : Option TupleDecl} {t : Term} (hr : t.readable = true) (hc : t.Canonical)
    {v v' : VisitorSuperAffineSet} (hv : Inv d v) :
    t.acceptVisitor visitor v = .ok v' ↔ Named d t ∧ v' = v.visitTerm d t := by
  obtain ⟨hwf, rfl, h0⟩ := hv
  cases t with
  | tupleExp => cases hr
  | ufCall c f as i =>
    have hargs : ∀ v₁ : VisitorSuperAffineSet, v₁.ufcDepth = 0 → argsAcceptVisitor visitor as v₁ = .ok v₁ :=
      fun v₁ h₁ => accept_args (by exact hc) h₁.ge
    unfold Term.acceptVisitor
    simp only [visitor, preVisitTerm, if_pos h0, Outcome.bind_eq_ok, Prod.exists, Except.ok.injEq]
    constructor
    · rintro ⟨v₁, ⟨s, m, hfind, rfl⟩, v₂, hargs', rfl⟩
      obtain ⟨hs, rfl⟩ := (UFCallMap.findCall_eq_ok hwf hr hc).1 hfind
      cases hargs'.symm.trans (hargs
        ⟨v.ufcmap.add s (.ufCall c f as i), v.affine.addTerm (.symConst c s), v.ufcDepth⟩ h0)
      refine ⟨fun _ => ⟨s, hs⟩, ?_⟩
      simp only [visitTerm, affineTerm, UFCallMap.record, Term.isUFCall, if_true, symbolOf_eq hs]
    · rintro ⟨hn, rfl⟩
      obtain ⟨s, hs⟩ := hn rfl
      refine ⟨_, ⟨s, _, (UFCallMap.findCall_eq_ok hwf hr hc).2 ⟨hs, rfl⟩, rfl⟩, _, hargs _ h0, ?_⟩
      simp only [visitTerm, affineTerm, UFCallMap.record, Term.isUFCall, if_true, symbolOf_eq hs]
  | _ =>
    unfold Term.acceptVisitor
    simp only [visitor, preVisitTerm, if_pos h0, Outcome.bind_eq_ok, Except.ok.injEq, exists_eq_left']
    constructor
    · intro h
      exact ⟨fun hcall => Bool.noConfusion hcall, h.symm⟩
    · rintro ⟨-, rfl⟩
      rfl

/-- What a constraint does to the state. -/
def visitExp (d : Option TupleDecl) (v : VisitorSuperAffineSet) (e : Exp) : VisitorSuperAffineSet :=
  ⟨e.terms.foldl UFCallMap.record v.ufcmap, v.affine.visitExp (affineTerm d) e, 0⟩

theorem foldl_visitTerm (d : Option TupleDecl) (ts : List Term) (v : VisitorSuperAffineSet) :
    ts.foldl (visitTerm d) v = { v with
      ufcmap := ts.foldl UFCallMap.record v.ufcmap
      affine := ts.foldl (fun b t => b.addTerm (affineTerm d t)) v.affine } := by
  induction ts generalizing v with
  | nil => rfl
  | cons t ts ih => rw [List.foldl_cons, ih]; rfl

/-- The terms of a constraint that can be read back and stand for themselves. -/
def Plain (e : Exp) : Prop := e.expType ≠ .expression ∧ ∀ t ∈ e.terms, t.readable = true ∧ t.Canonical

theorem accept_exp_iff {d : Option TupleDecl} {e : Exp} (he : Plain e) {v w : VisitorSuperAffineSet} (hv : Inv d v) :
    (e.acceptVisitor visitor v = .ok w ↔ (∀ t ∈ e.terms, Named d t) ∧ w = v.visitExp d e) ∧
      ((∀ t ∈ e.terms, Named d t) → Inv d (v.visitExp d e)) := by
  obtain ⟨k, ts⟩ := e
  obtain ⟨hk, hts⟩ := he
  have hpre : preVisitExp (.mk k ts) v = { v with ufcDepth := 0, affine := v.affine.startExp } := if_neg hk
  have hstart : Inv d { v with ufcDepth := 0, affine := v.affine.startExp } := ⟨hv.wf, hv.tupleDecl, rfl⟩
  have hrun : ∀ {v₁}, termsAcceptVisitor visitor ts { v with ufcDepth := 0, affine := v.affine.startExp } = .ok v₁ ↔
      (∀ t ∈ ts, Named d t) ∧ v₁ = ts.foldl (visitTerm d) { v with ufcDepth := 0, affine := v.affine.startExp } := by
    intro v₁
    have hinv : ∀ t ∈ ts, ∀ s, Inv d s → Named d t → Inv d (visitTerm d s t) := fun t ht s hs hn =>
      inv_visitTerm hs (hts t ht).1 (hts t ht).2 hn
    have hstep : ∀ t ∈ ts, ∀ s, Inv d s → ∀ s', t.acceptVisitor visitor s = .ok s' ↔
        Named d t ∧ s' = visitTerm d s t := fun t ht s hs s' => accept_term_iff (hts t ht).1 (hts t ht).2 hs
    rw [termsAcceptVisitor_eq]
    exact Outcome.foldlM_eq_ok_iff hstep hinv hstart
  have hpost : postVisitExp (.mk k ts) (ts.foldl (visitTerm d) { v with ufcDepth := 0, affine := v.affine.startExp }) =
      v.visitExp d (.mk k ts) := by
    rw [foldl_visitTerm, postVisitExp, if_neg hk]
    rfl
  constructor
  · unfold Exp.acceptVisitor
    simp only [visitor, hpre, Outcome.bind_eq_ok, Except.ok.injEq, exists_eq_left']
    constructor
    · rintro ⟨v₁, h₁, rfl⟩
      obtain ⟨hn, rfl⟩ := hrun.1 h₁
      exact ⟨hn, hpost⟩
    · rintro ⟨hn, rfl⟩
      exact ⟨_, hrun.2 ⟨hn, rfl⟩, hpost⟩
  · intro hn
    have h : Inv d (ts.foldl (visitTerm d) { v with ufcDepth := 0, affine := v.affine.startExp }) :=
      List.foldlRecOn ts _ hstart fun s hs t ht => inv_visitTerm hs (hts t ht).1 (hts t ht).2 (hn t ht)
    rw [foldl_visitTerm] at h
    exact ⟨h.wf, h.tupleDecl, rfl⟩

theorem foldl_visitExp {d : Option TupleDecl} {es : List Exp} : ∀ {v : VisitorSuperAffineSet}, v.ufcDepth = 0 →
    es.foldl (visitExp d) v = ⟨(es.flatMap Exp.terms).foldl UFCallMap.record v.ufcmap,
      es.foldl (Builder.visitExp (affineTerm d)) v.affine, 0⟩ := by
  induction es with
  | nil =>
    intro v h0
    rw [← h0]
    rfl
  | cons e es ih =>
    intro v h0
    rw [List.foldl_cons, ih rfl, List.flatMap_cons, List.foldl_append]
    rfl

/-- What a conjunction does to the state. -/
def visitConjunction (d : Option TupleDecl) (v : VisitorSuperAffineSet) (c : Conjunction) : VisitorSuperAffineSet :=
  ⟨c.terms.foldl UFCallMap.record v.ufcmap, v.affine.visitConjunction (affineTerm d) c, 0⟩

/-- A conjunction that can be visited: its arity fits and its calls get names. -/
def Visitable (d : Option TupleDecl) (c : Conjunction) : Prop := c.inArity < c.arity ∧ ∀ t ∈ c.terms, Named d t

theorem accept_conjunction_iff {d : Option TupleDecl} {c : Conjunction}
    (hc : ∀ e ∈ c.equalities ++ c.inequalities, Plain e) {v w : VisitorSuperAffineSet} (hv : Inv d v) :
    (c.acceptVisitor visitor v = .ok w ↔ Visitable d c ∧ w = v.visitConjunction d c) ∧
      (Visitable d c → Inv d (v.visitConjunction d c)) := by
  have hnamed : (∀ e ∈ c.equalities ++ c.inequalities, ∀ t ∈ e.terms, Named d t) ↔ ∀ t ∈ c.terms, Named d t := by
    simp only [Conjunction.terms, List.mem_flatMap, forall_exists_index, and_imp]
    exact ⟨fun h t e he ht => h e he t ht, fun h e he t ht => h t e he ht⟩
  have hstep : ∀ e ∈ c.equalities ++ c.inequalities, ∀ s, Inv d s → ∀ s', e.acceptVisitor visitor s = .ok s' ↔
      (∀ t ∈ e.terms, Named d t) ∧ s' = visitExp d s e := fun e he s hs s' => (accept_exp_iff (hc e he) hs).1
  have hinv : ∀ e ∈ c.equalities ++ c.inequalities, ∀ s, Inv d s → (∀ t ∈ e.terms, Named d t) → Inv d (visitExp d s e) :=
    fun e he s hs => (accept_exp_iff (w := s) (hc e he) hs).2
  have hrun : ∀ {b : Builder} {v₁}, ((c.equalities ++ c.inequalities).foldlM (fun s e => e.acceptVisitor visitor s)
      { v with affine := b } = .ok v₁ ↔ (∀ t ∈ c.terms, Named d t) ∧
        v₁ = (c.equalities ++ c.inequalities).foldl (visitExp d) { v with affine := b }) := by
    intro b v₁
    rw [← hnamed]
    exact Outcome.foldlM_eq_ok_iff hstep hinv ⟨hv.wf, hv.tupleDecl, hv.depth⟩
  have hend : ∀ b : Builder, (c.equalities ++ c.inequalities).foldl (visitExp d) { v with affine := b } =
      ⟨c.terms.foldl UFCallMap.record v.ufcmap,
        (c.equalities ++ c.inequalities).foldl (Builder.visitExp (affineTerm d)) b, 0⟩ := fun b => foldl_visitExp hv.depth
  constructor
  · unfold Conjunction.acceptVisitor
    simp only [visitor, Builder.startConjunction, Conjunction.setInArity, Outcome.bind_eq_ok, Except.ok.injEq]
    constructor
    · rintro ⟨v₁, ⟨b, ⟨c', hset, rfl⟩, rfl⟩, v₂, h₁, v₃, h₂, rfl⟩
      split_ifs at hset with harity
      cases hset
      have happ := List.foldlM_append.trans ((Outcome.bind_eq_ok).2 ⟨v₂, h₁, h₂⟩)
      obtain ⟨hn, rfl⟩ := hrun.1 happ
      refine ⟨⟨not_le.1 harity, hn⟩, ?_⟩
      rw [hend]
      rfl
    · rintro ⟨⟨harity, hn⟩, rfl⟩
      have happ := (hrun (b := { v.affine with
        conj := { Conjunction.ofTupleDecl c.tupleDecl with inArity := c.inArity } })).2 ⟨hn, rfl⟩
      rw [List.foldlM_append, Outcome.bind_eq_ok] at happ
      obtain ⟨v₂, h₁, h₂⟩ := happ
      refine ⟨_, ⟨_, ⟨_, if_neg (not_le.2 harity), rfl⟩, rfl⟩, v₂, h₁, _, h₂, ?_⟩
      rw [hend]
      rfl
  · rintro ⟨-, hn⟩
    have h : Inv d ((c.equalities ++ c.inequalities).foldl (visitExp d) v) :=
      List.foldlRecOn _ _ hv fun s hs e he => hinv e he s hs (hnamed.2 hn e he)
    rw [foldl_visitExp hv.depth] at h
    exact ⟨h.wf, h.tupleDecl, rfl⟩

theorem foldl_visitConjunction {d : Option TupleDecl} {cs : List Conjunction} (hcs : ∀ c ∈ cs, c.Typed)
    (v : VisitorSuperAffineSet) :
    (cs.foldl (visitConjunction d) v).affine.conjs = v.affine.conjs ++ cs.map (Conjunction.mapTerms (affineTerm d)) ∧
      (cs.foldl (visitConjunction d) v).ufcmap = (cs.flatMap Conjunction.terms).foldl UFCallMap.record v.ufcmap := by
  induction cs generalizing v with
  | nil => exact ⟨by simp, rfl⟩
  | cons c cs ih =>
    obtain ⟨hc, hcs⟩ := List.forall_mem_cons.1 hcs
    obtain ⟨h₁, h₂⟩ := ih hcs (v.visitConjunction d c)
    rw [List.foldl_cons, h₁, h₂, List.flatMap_cons, List.foldl_append, List.map_cons]
    refine ⟨?_, rfl⟩
    rw [visitConjunction, Builder.conjs_visitConjunction _ hc, List.append_assoc]
    rfl

/-- A run over a union of conjunctions succeeds iff each can be visited; it then has replaced the terms of each, and
recorded the calls. -/
theorem acceptVisitor_iff {cs : List Conjunction} (hcs : ∀ c ∈ cs, c.Typed ∧ ∀ e ∈ c.equalities ++ c.inequalities, Plain e)
    {m : UFCallMap} (hm : m.Wf) {b : Builder} {v : VisitorSuperAffineSet} :
    acceptVisitor visitor cs ⟨m, b, 0⟩ = .ok v ↔
      (∀ c ∈ cs, Visitable m.tupleDecl c) ∧ v = cs.foldl (visitConjunction m.tupleDecl) ⟨m, b, 0⟩ := by
  have hstep : ∀ c ∈ cs, ∀ s, Inv m.tupleDecl s → ∀ s', c.acceptVisitor visitor s = .ok s' ↔
      Visitable m.tupleDecl c ∧ s' = visitConjunction m.tupleDecl s c :=
    fun c hc s hs s' => (accept_conjunction_iff (hcs c hc).2 hs).1
  have hinv : ∀ c ∈ cs, ∀ s, Inv m.tupleDecl s → Visitable m.tupleDecl c → Inv m.tupleDecl (visitConjunction m.tupleDecl s c) :=
    fun c hc s hs => (accept_conjunction_iff (w := s) (hcs c hc).2 hs).2
  exact Outcome.foldlM_eq_ok_iff hstep hinv ⟨hm, rfl, rfl⟩

end VisitorSuperAffineSet

/-! ## From symbols to calls -/

/-- `VisitorReverseAffineSubstitution` -/
structure VisitorReverseAffineSubstitution where
  ufcmap : UFCallMap
  nonAffine : Builder
  visit : Bool

namespace VisitorReverseAffineSubstitution

/-- The methods for the classes of terms; a call cannot be there. -/
def preVisitTerm (t : Term) (v : VisitorReverseAffineSubstitution) :
    Except Failure VisitorReverseAffineSubstitution :=
  match t with
  | .ufCall .. => .error (.assertException
      "VisitorReverseAffineSubstitution:                              An UFCall term found in affine set!")
  | .symConst coeff symbol =>
    if v.visit then
      match v.ufcmap.findVar symbol with
      | none => .ok { v with nonAffine := v.nonAffine.addTerm t }
      | some ufc => .ok { v with nonAffine := v.nonAffine.addTerm (ufc.setCoefficient coeff) }
    else .ok v
  | _ => if v.visit then .ok { v with nonAffine := v.nonAffine.addTerm t } else .ok v

def preVisitExp (e : Exp) (v : VisitorReverseAffineSubstitution) : VisitorReverseAffineSubstitution :=
  if e.expType = .expression then { v with visit := false }
  else { v with visit := true, nonAffine := v.nonAffine.startExp }

def postVisitExp (e : Exp) (v : VisitorReverseAffineSubstitution) : VisitorReverseAffineSubstitution :=
  if e.expType = .expression then { v with visit := true } else { v with nonAffine := v.nonAffine.endExp e }

def visitor : Visitor VisitorReverseAffineSubstitution where
  preVisitTerm := preVisitTerm
  preVisitExp := fun e v => .ok (v.preVisitExp e)
  postVisitExp := fun e v => .ok (v.postVisitExp e)
  preVisitConjunction := fun c v => do .ok { v with nonAffine := ← v.nonAffine.startConjunction c }
  postVisitConjunction := fun _ v => .ok { v with nonAffine := v.nonAffine.endConjunction }

end VisitorReverseAffineSubstitution

/-- A term with the call it is a symbol of, if the map knows one. -/
def reverseTerm (m : UFCallMap) : Term → Term
  | .symConst coeff symbol =>
    match m.findVar symbol with
    | none => .symConst coeff symbol
    | some ufc => ufc.setCoefficient coeff
  | t => t

theorem reverseTerm_setCoefficient (m : UFCallMap) (c : Int) (t : Term) :
    reverseTerm m (t.setCoefficient c) = (reverseTerm m t).setCoefficient c := by
  cases t with
  | symConst c' s =>
    simp only [Term.setCoefficient, reverseTerm]
    cases m.findVar s with
    | none => rfl
    | some k => exact (Term.setCoefficient_setCoefficient _ _ k).symm
  | _ => rfl

namespace VisitorReverseAffineSubstitution

variable {m : UFCallMap}

theorem accept_term_iff {t : Term} {b : Builder} {v' : VisitorReverseAffineSubstitution} :
    t.acceptVisitor visitor ⟨m, b, true⟩ = .ok v' ↔
      t.isUFCall = false ∧ v' = ⟨m, b.addTerm (reverseTerm m t), true⟩ := by
  cases t with
  | ufCall =>
    unfold Term.acceptVisitor
    simp only [visitor, preVisitTerm, Outcome.bind_eq_ok, reduceCtorEq, false_and, exists_false, Term.isUFCall,
      Bool.true_eq_false]
  | symConst c s =>
    unfold Term.acceptVisitor
    simp only [visitor, preVisitTerm, reverseTerm, if_true, Outcome.bind_eq_ok, Term.isUFCall, true_and]
    cases m.findVar s with
    | none =>
      constructor
      · rintro ⟨_, h₁, h₂⟩
        cases h₁
        cases h₂
        rfl
      · rintro rfl
        exact ⟨_, rfl, rfl⟩
    | some k =>
      constructor
      · rintro ⟨_, h₁, h₂⟩
        cases h₁
        cases h₂
        rfl
      · rintro rfl
        exact ⟨_, rfl, rfl⟩
  | _ =>
    unfold Term.acceptVisitor
    simp only [visitor, preVisitTerm, reverseTerm, if_true, Outcome.bind_eq_ok, Term.isUFCall, true_and]
    constructor
    · rintro ⟨_, h₁, h₂⟩
      cases h₁
      cases h₂
      rfl
    · rintro rfl
      exact ⟨_, rfl, rfl⟩

theorem accept_terms_iff {ts : List Term} {b : Builder} {v' : VisitorReverseAffineSubstitution} :
    termsAcceptVisitor visitor ts ⟨m, b, true⟩ = .ok v' ↔ (∀ t ∈ ts, t.isUFCall = false) ∧
      v' = ⟨m, ts.foldl (fun b t => b.addTerm (reverseTerm m t)) b, true⟩ := by
  induction ts generalizing b with
  | nil =>
    simp only [termsAcceptVisitor, Except.ok.injEq, List.not_mem_nil, false_implies, implies_true, true_and,
      List.foldl_nil]
    exact eq_comm
  | cons t ts ih =>
    simp only [termsAcceptVisitor, Outcome.bind_eq_ok, accept_term_iff, List.forall_mem_cons, List.foldl_cons]
    constructor
    · rintro ⟨v₁, ⟨ht, rfl⟩, h⟩
      obtain ⟨hts, hv⟩ := ih.1 h
      exact ⟨⟨ht, hts⟩, hv⟩
    · rintro ⟨⟨ht, hts⟩, hv⟩
      exact ⟨_, ⟨ht, rfl⟩, ih.2 ⟨hts, hv⟩⟩

theorem accept_exp_iff {e : Exp} (he : e.expType ≠ .expression) {b : Builder} {w : Bool}
    {v' : VisitorReverseAffineSubstitution} : e.acceptVisitor visitor ⟨m, b, w⟩ = .ok v' ↔
      (∀ t ∈ e.terms, t.isUFCall = false) ∧ v' = ⟨m, b.visitExp (reverseTerm m) e, true⟩ := by
  obtain ⟨k, ts⟩ := e
  have hpre : preVisitExp (.mk k ts) ⟨m, b, w⟩ = ⟨m, b.startExp, true⟩ := if_neg he
  have hpost : ∀ b' : Builder, postVisitExp (.mk k ts) ⟨m, b', true⟩ = ⟨m, b'.endExp (.mk k ts), true⟩ :=
    fun b' => if_neg he
  unfold Exp.acceptVisitor
  simp only [visitor, hpre, Outcome.bind_eq_ok, Except.ok.injEq, exists_eq_left']
  constructor
  · rintro ⟨v₁, h₁, rfl⟩
    obtain ⟨hts, rfl⟩ := accept_terms_iff.1 h₁
    exact ⟨hts, hpost _⟩
  · rintro ⟨hts, rfl⟩
    exact ⟨_, accept_terms_iff.2 ⟨hts, rfl⟩, hpost _⟩

/-- A conjunction that can be visited: its arity fits and it has no calls. -/
def Visitable (c : Conjunction) : Prop := c.inArity < c.arity ∧ ∀ t ∈ c.terms, t.isUFCall = false

theorem accept_exps_iff {es : List Exp} (hes : ∀ e ∈ es, e.expType ≠ .expression) {b : Builder} {w : Bool}
    {v' : VisitorReverseAffineSubstitution} : es.foldlM (fun s e => e.acceptVisitor visitor s) ⟨m, b, w⟩ = .ok v' ↔
      (∀ e ∈ es, ∀ t ∈ e.terms, t.isUFCall = false) ∧
        v' = ⟨m, es.foldl (Builder.visitExp (reverseTerm m)) b, w || !es.isEmpty⟩ := by
  induction es generalizing b w with
  | nil =>
    rw [List.foldlM_nil]
    simp only [List.not_mem_nil, false_implies, implies_true, true_and, List.foldl_nil, List.isEmpty_nil, Bool.not_true,
      Bool.or_false]
    exact ⟨fun h => by cases h; rfl, fun h => by rw [h]; rfl⟩
  | cons e es ih =>
    obtain ⟨he, hes⟩ := List.forall_mem_cons.1 hes
    simp only [List.foldlM_cons, Outcome.bind_eq_ok, accept_exp_iff he, List.forall_mem_cons, List.foldl_cons,
      List.isEmpty_cons, Bool.not_false, Bool.or_true]
    constructor
    · rintro ⟨v₁, ⟨ht, rfl⟩, h⟩
      obtain ⟨hts, rfl⟩ := (ih hes).1 h
      exact ⟨⟨ht, hts⟩, rfl⟩
    · rintro ⟨⟨ht, hts⟩, rfl⟩
      exact ⟨_, ⟨ht, rfl⟩, (ih hes).2 ⟨hts, rfl⟩⟩

/-- What a conjunction does to the state. -/
def visitConjunction (v : VisitorReverseAffineSubstitution) (c : Conjunction) : VisitorReverseAffineSubstitution :=
  ⟨v.ufcmap, v.nonAffine.visitConjunction (reverseTerm v.ufcmap) c, v.visit || !(c.equalities ++ c.inequalities).isEmpty⟩

theorem accept_conjunction_iff {c : Conjunction} (hc : c.Typed) {v v' : VisitorReverseAffineSubstitution} :
    c.acceptVisitor visitor v = .ok v' ↔ Visitable c ∧ v' = v.visitConjunction c := by
  have hes : ∀ e ∈ c.equalities ++ c.inequalities, e.expType ≠ .expression := by
    intro e he
    rcases List.mem_append.1 he with he | he
    · rw [hc.1 e he]; nofun
    · rw [hc.2 e he]; nofun
  have hterms : (∀ e ∈ c.equalities ++ c.inequalities, ∀ t ∈ e.terms, t.isUFCall = false) ↔
      ∀ t ∈ c.terms, t.isUFCall = false := by
    simp only [Conjunction.terms, List.mem_flatMap, forall_exists_index, and_imp]
    exact ⟨fun h t e he ht => h e he t ht, fun h e he t ht => h t e he ht⟩
  obtain ⟨m, b, w⟩ := v
  unfold Conjunction.acceptVisitor
  simp only [visitor, Builder.startConjunction, Conjunction.setInArity, Outcome.bind_eq_ok, Except.ok.injEq]
  constructor
  · rintro ⟨v₁, ⟨b₁, ⟨c', hset, rfl⟩, rfl⟩, v₂, h₁, v₃, h₂, rfl⟩
    split_ifs at hset with harity
    cases hset
    have happ := List.foldlM_append.trans ((Outcome.bind_eq_ok).2 ⟨v₂, h₁, h₂⟩)
    obtain ⟨hn, rfl⟩ := (accept_exps_iff hes).1 happ
    exact ⟨⟨not_le.1 harity, hterms.1 hn⟩, rfl⟩
  · rintro ⟨⟨harity, hn⟩, rfl⟩
    have happ := (accept_exps_iff hes (m := m) (w := w) (b := { b with
      conj := { Conjunction.ofTupleDecl c.tupleDecl with inArity := c.inArity } })).2 ⟨hterms.2 hn, rfl⟩
    rw [List.foldlM_append, Outcome.bind_eq_ok] at happ
    obtain ⟨v₂, h₁, h₂⟩ := happ
    exact ⟨_, ⟨_, ⟨_, if_neg (not_le.2 harity), rfl⟩, rfl⟩, v₂, h₁, _, h₂, rfl⟩

theorem ufcmap_foldl_visitConjunction (cs : List Conjunction) (v : VisitorReverseAffineSubstitution) :
    (cs.foldl visitConjunction v).ufcmap = v.ufcmap ∧
      (cs.foldl visitConjunction v).nonAffine = cs.foldl (Builder.visitConjunction (reverseTerm v.ufcmap)) v.nonAffine := by
  induction cs generalizing v with
  | nil => exact ⟨rfl, rfl⟩
  | cons c cs ih =>
    obtain ⟨h₁, h₂⟩ := ih (v.visitConjunction c)
    rw [List.foldl_cons, h₁, h₂]
    exact ⟨rfl, rfl⟩

/-- A run over a union of conjunctions succeeds iff each can be visited; it then has replaced the terms of each. -/
theorem acceptVisitor_iff {cs : List Conjunction} (hcs : ∀ c ∈ cs, c.Typed) {v v' : VisitorReverseAffineSubstitution} :
    acceptVisitor visitor cs v = .ok v' ↔ (∀ c ∈ cs, Visitable c) ∧ v' = cs.foldl visitConjunction v := by
  have hstep : ∀ c ∈ cs, ∀ s, True → ∀ s', c.acceptVisitor visitor s = .ok s' ↔ Visitable c ∧ s' = visitConjunction s c :=
    fun c hc s _ s' => accept_conjunction_iff (hcs c hc)
  have hinv : ∀ c ∈ cs, ∀ s : VisitorReverseAffineSubstitution, True → Visitable c → True := fun _ _ _ _ _ => trivial
  exact Outcome.foldlM_eq_ok_iff hstep hinv trivial

end VisitorReverseAffineSubstitution

/-- `Set::reverseAffineSubstitution` -/
def Set.reverseAffineSubstitution (s : Set) (ufcmap : UFCallMap) : Except Failure Set := do
  let v ← acceptVisitor VisitorReverseAffineSubstitution.visitor s.conjunctions ⟨ufcmap, .empty, false⟩
  .ok (v.nonAffine.endSet s)

/-- `Relation::reverseAffineSubstitution` -/
def Relation.reverseAffineSubstitution (r : Relation) (ufcmap : UFCallMap) : Except Failure Relation := do
  let v ← acceptVisitor VisitorReverseAffineSubstitution.visitor r.conjunctions ⟨ufcmap, .empty, false⟩
  v.nonAffine.endRelation r

end IEGen
