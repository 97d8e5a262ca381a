import IEGen.AffineMeaning
import IEGen.CurrEnv
import IEGen.ISLString
import IEGen.Removed
import IEGen.Tuples

/-!
# Projecting out a tuple variable

`projectOut` replaces the calls of a union by symbols, sends each affine conjunction through ISL, puts the calls back
into what comes back, and moves the tuple variables inside the calls that stood after the one that is gone. What goes
through ISL is a text, and so is what comes back: `islSetProjectOut` prints the set, corrects the declaration in the text
that ISL returns, and parses that. ISL and the parser are parameters here (`IslProject`), and what is relied on is that all
of this projects the integer tuples of affine conjunctions (`ProjectsTuples`); the values of the calls are not ISL's
business.

- The conjunctions are read at the shorter tuples, the arguments of calls still with the old positions
  (`projectedValue`, `unmovedValue`); moving the positions makes that the plain value.
- Of what ISL returns for a conjunction only the first conjunction is taken, and the union is built anew twice, so the
  result has the projected tuples iff nothing is lost in these places (`KeepsAll`).
-/

namespace IEGen

open SortedList (build)

/-! ## The visitors -/

section Visitors

/-- What `islSetProjectOut` calls: the text that ISL prints for the text of a set without the dimension at a position, and
the parser. -/
structure IslProject where
  isl_set_project_out : String → Nat → String
  parse_set : ParseSet

variable (isl : IslProject) (env : Environment)

/-- `islSetProjectOut` -/
def islSetProjectOut (s : Set) (pos : Nat) : Except Failure Set := do
  let sstr ← s.toISLString env
  let islStr := isl.isl_set_project_out sstr pos
  let projected := projectOutStrCorrection sstr pos s.arity 0
  let corrected := revertISLTupDeclToOrig projected islStr s.arity 0
  Set.ofString isl.parse_set corrected env

/-- The set of one conjunction that is sent through ISL. -/
def aloneSet (c : Conjunction) : Set :=
  { Set.ofArity c.arity with conjunctions := addConjunction (Set.ofArity c.arity).conjunctions c }

/-- `VisitorProjectOut::postVisitConjunction`, where `mNewConj` is the state -/
def projectConjunction (tvar inArity : Nat) (c : Conjunction) (mNewConj : List Conjunction) :
    Except Failure (List Conjunction) := do
  let cc ← c.setInArity 0
  let islSet ← islSetProjectOut isl env (aloneSet cc) tvar
  match islSet.conjunctions with
  | [] => .ok mNewConj
  | front :: _ => do
    let crc ← front.setInArity inArity
    .ok (mNewConj ++ [crc])

/-- `VisitorProjectOut`; the input arity is the one after the projection. -/
def VisitorProjectOut (itvar ia : Nat) : Visitor (List Conjunction) where
  postVisitConjunction := projectConjunction isl env itvar (if itvar < ia ∧ ia ≠ 0 then ia - 1 else ia)

variable (tvar : Nat)

mutual
/-- `VisitorProjectOutCleanUp` on a term, inside `nc_ufc` calls -/
def Term.projectOutCleanUp : Nat → Term → Term
  | nc_ufc, .tupleVar c l => if nc_ufc ≠ 0 ∧ l > tvar then .tupleVar c (l - 1) else .tupleVar c l
  | nc_ufc, .ufCall c f as i => .ufCall c f (argsProjectOutCleanUp (nc_ufc + 1) as) i
  | _, t => t

def Exp.projectOutCleanUp : Nat → Exp → Exp
  | nc_ufc, .mk k ts => .mk k (termsProjectOutCleanUp nc_ufc ts)

def argsProjectOutCleanUp : Nat → List Exp → List Exp
  | _, [] => []
  | nc_ufc, e :: es => e.projectOutCleanUp nc_ufc :: argsProjectOutCleanUp nc_ufc es

def termsProjectOutCleanUp : Nat → List Term → List Term
  | _, [] => []
  | nc_ufc, t :: ts => t.projectOutCleanUp nc_ufc :: termsProjectOutCleanUp nc_ufc ts
end

/-- `VisitorProjectOutCleanUp` on a conjunction -/
def Conjunction.projectOutCleanUp (c : Conjunction) : Conjunction :=
  { c with equalities := c.equalities.map (Exp.projectOutCleanUp tvar 0)
           inequalities := c.inequalities.map (Exp.projectOutCleanUp tvar 0) }

end Visitors

/-- `Set::projectOut`; without a result where the variable is an argument of a call. -/
def Set.projectOut (isl : IslProject) (env : Environment) (s : Set) (tvar : Nat) :
    Except Failure (Option Set) := do
  if ← isUFCallParam s.conjunctions tvar then .ok none
  else do
    let (sup_s, ufcmap) ← s.superAffineSet env (.empty none) false
    let mNewConj ← acceptVisitor (VisitorProjectOut isl env tvar 0) sup_s.conjunctions []
    let newSet := Set.ofArity (sup_s.arity - 1)
    let newSet := { newSet with conjunctions := mNewConj.foldl addConjunction newSet.conjunctions }
    let result ← newSet.reverseAffineSubstitution ufcmap
    .ok (some { result with conjunctions := result.conjunctions.map (Conjunction.projectOutCleanUp tvar) })

/-- `Relation::projectOut` -/
def Relation.projectOut (isl : IslProject) (env : Environment) (r : Relation) (tvar : Nat) :
    Except Failure (Option Relation) := do
  if ← isUFCallParam r.conjunctions tvar then .ok none
  else do
    let (sup_r, ufcmap) ← r.superAffineRelation env (.empty none) false
    let mNewConj ← acceptVisitor (VisitorProjectOut isl env tvar sup_r.inArity) sup_r.conjunctions []
    let newRelation := if tvar < sup_r.inArity then Relation.ofArity (sup_r.inArity - 1) sup_r.outArity
      else Relation.ofArity sup_r.inArity (sup_r.outArity - 1)
    let newConjs ← mNewConj.foldlM (Relation.addConjunction newRelation.inArity) newRelation.conjunctions
    let result ← { newRelation with conjunctions := newConjs }.reverseAffineSubstitution ufcmap
    .ok (some { result with conjunctions := result.conjunctions.map (Conjunction.projectOutCleanUp tvar) })

/-! ## Positions -/

/-- The position of a variable after the one at `i` is gone. -/
def moved (i l : Nat) : Nat := if i < l then l - 1 else l

mutual
/-- Inside of calls the visitor moves the positions. -/
theorem Term.projectOutCleanUp_eq {i n : Nat} : ∀ {t : Term}, t.readable = true →
    t.projectOutCleanUp i (n + 1) = t.mapVars (moved i)
  | .tupleVar c l, _ => by
    simp only [Term.projectOutCleanUp, Term.mapVars, moved]
    split_ifs with h h' h'
    · rfl
    · exact absurd h.2 h'
    · exact absurd ⟨Nat.succ_ne_zero n, h'⟩ h
    · rfl
  | .symConst .., _ | .constVal _, _ => rfl
  | .ufCall c f as k, h => by
    simp only [Term.readable, Bool.and_eq_true] at h
    simp only [Term.projectOutCleanUp, Term.mapVars, argsProjectOutCleanUp_eq h.2]
  | .tupleExp .., h => by cases h

theorem Exp.projectOutCleanUp_eq {i n : Nat} : ∀ {e : Exp}, e.readable = true →
    e.projectOutCleanUp i (n + 1) = e.mapVars (moved i)
  | .mk k ts, h => by simp only [Exp.projectOutCleanUp, Exp.mapVars, termsProjectOutCleanUp_eq (show termsReadable ts = true from h)]

theorem argsProjectOutCleanUp_eq {i n : Nat} : ∀ {es : List Exp}, argsReadable es = true →
    argsProjectOutCleanUp i (n + 1) es = argsMapVars (moved i) es
  | [], _ => rfl
  | e :: es, h => by
    simp only [argsReadable, Bool.and_eq_true] at h
    simp only [argsProjectOutCleanUp, argsMapVars, Exp.projectOutCleanUp_eq h.1, argsProjectOutCleanUp_eq h.2]

theorem termsProjectOutCleanUp_eq {i n : Nat} : ∀ {ts : List Term}, termsReadable ts = true →
    termsProjectOutCleanUp i (n + 1) ts = termsMapVars (moved i) ts
  | [], _ => rfl
  | t :: ts, h => by
    simp only [termsReadable, Bool.and_eq_true] at h
    simp only [termsProjectOutCleanUp, termsMapVars, Term.projectOutCleanUp_eq h.1, termsProjectOutCleanUp_eq h.2]
end

theorem termsProjectOutCleanUp_eq_map {i n : Nat} (ts : List Term) :
    termsProjectOutCleanUp i n ts = ts.map (Term.projectOutCleanUp i n) := by
  induction ts with
  | nil => rfl
  | cons t ts ih => rw [termsProjectOutCleanUp, ih, List.map_cons]

/-- The visitor changes the terms of the constraints where they stand. -/
theorem Conjunction.projectOutCleanUp_eq (i : Nat) (c : Conjunction) :
    c.projectOutCleanUp i = c.changeTerms (Term.projectOutCleanUp i 0) := by
  have hexp : Exp.projectOutCleanUp i 0 = fun e => .mk e.expType (e.terms.map (Term.projectOutCleanUp i 0)) := by
    funext e
    obtain ⟨k, ts⟩ := e
    rw [Exp.projectOutCleanUp, termsProjectOutCleanUp_eq_map]
    rfl
  rw [Conjunction.projectOutCleanUp, hexp]
  rfl

/-! ## Readings at the shorter tuples -/

section Readings

variable (I : Interp) (m : UFCallMap) (i : Nat)

variable {I m i}

end Readings

/-! ## A run of the visitor -/

section Run

variable {isl : IslProject} {env : Environment} {i n : Nat}

mutual
theorem Term.accept_projectOut : ∀ (t : Term) (s : List Conjunction), t.acceptVisitor (VisitorProjectOut isl env i n) s = .ok s
  | .ufCall c f as k, s => by
    simp only [Term.acceptVisitor, VisitorProjectOut, Outcome.bind_eq_ok, Except.ok.injEq, exists_eq_left', exists_eq_right]
    exact argsAccept_projectOut as s
  | .tupleVar .., _ | .symConst .., _ | .constVal _, _ | .tupleExp .., _ => rfl

theorem Exp.accept_projectOut : ∀ (e : Exp) (s : List Conjunction), e.acceptVisitor (VisitorProjectOut isl env i n) s = .ok s
  | .mk k ts, s => by
    simp only [Exp.acceptVisitor, VisitorProjectOut, Outcome.bind_eq_ok, Except.ok.injEq, exists_eq_left', exists_eq_right]
    exact termsAccept_projectOut ts s

theorem argsAccept_projectOut : ∀ (es : List Exp) (s : List Conjunction),
    argsAcceptVisitor (VisitorProjectOut isl env i n) es s = .ok s
  | [], _ => rfl
  | e :: es, s => by
    rw [argsAcceptVisitor, Exp.accept_projectOut e s]
    exact argsAccept_projectOut es s

theorem termsAccept_projectOut : ∀ (ts : List Term) (s : List Conjunction),
    termsAcceptVisitor (VisitorProjectOut isl env i n) ts s = .ok s
  | [], _ => rfl
  | t :: ts, s => by
    rw [termsAcceptVisitor, Term.accept_projectOut t s]
    exact termsAccept_projectOut ts s
end

/-- Nothing happens at the constraints of a conjunction. -/
theorem Conjunction.accept_projectOut (c : Conjunction) (s : List Conjunction) :
    c.acceptVisitor (VisitorProjectOut isl env i n) s = (VisitorProjectOut isl env i n).postVisitConjunction c s := by
  have hes : ∀ es : List Exp, es.foldlM (fun s e => e.acceptVisitor (VisitorProjectOut isl env i n) s) s = .ok s := by
    intro es
    induction es with
    | nil => rfl
    | cons e es ih =>
      rw [List.foldlM_cons, Exp.accept_projectOut e s]
      exact ih
  have hpre : (VisitorProjectOut isl env i n).preVisitConjunction c s = .ok s := rfl
  have hbind : ∀ f : List Conjunction → Except Failure (List Conjunction), (Except.ok s >>= f) = f s := fun _ => rfl
  unfold Conjunction.acceptVisitor
  simp only [hpre, hes, hbind]

/-- What ISL is asked about a conjunction. -/
def asked (b : Conjunction) : Set := aloneSet { b with inArity := 0 }

/-- The first conjunctions of what ISL returns, with the input arity after the projection. -/
theorem accept_projectOut {n' : Nat} {bs : List Conjunction} (hn : n' = if i < n ∧ n ≠ 0 then n - 1 else n) :
    ∀ {l ds : List Conjunction}, acceptVisitor (VisitorProjectOut isl env i n) bs l = .ok ds →
    (∀ d ∈ l, d ∈ ds) ∧
    (∀ d ∈ ds, d ∈ l ∨ ∃ b ∈ bs, ∃ p, islSetProjectOut isl env (asked b) i = .ok p ∧
      ∃ a ∈ p.conjunctions.head?, d = { a with inArity := n' }) ∧
    ∀ b ∈ bs, ∃ p, islSetProjectOut isl env (asked b) i = .ok p ∧
      ∀ a ∈ p.conjunctions.head?, { a with inArity := n' } ∈ ds := by
  induction bs with
  | nil =>
    intro l ds h
    cases h
    exact ⟨fun d hd => hd, fun d hd => .inl hd, fun b hb => by cases hb⟩
  | cons b bs ih =>
    intro l ds h
    unfold acceptVisitor at h ih
    rw [List.foldlM_cons, Outcome.bind_eq_ok, Conjunction.accept_projectOut] at h
    obtain ⟨l', hpost, hrun⟩ := h
    obtain ⟨hsub, hfrom, hinto⟩ := ih hrun
    simp only [VisitorProjectOut, projectConjunction, Conjunction.setInArity, Outcome.bind_eq_ok] at hpost
    obtain ⟨cc, hcc, p, hp, hpost⟩ := hpost
    split_ifs at hcc
    cases hcc
    cases hconjs : p.conjunctions with
    | nil =>
      simp only [hconjs] at hpost
      cases hpost
      refine ⟨hsub, fun d hd => (hfrom d hd).imp_right ?_, List.forall_mem_cons.2 ⟨⟨p, hp, fun a ha => ?_⟩, hinto⟩⟩
      · rintro ⟨b', hb', h'⟩
        exact ⟨b', List.mem_cons_of_mem _ hb', h'⟩
      · rw [hconjs] at ha
        cases ha
    | cons a as =>
      simp only [hconjs, Outcome.bind_eq_ok, Except.ok.injEq] at hpost
      obtain ⟨crc, hcrc, rfl⟩ := hpost
      rw [← hn] at hcrc
      split_ifs at hcrc with harity
      cases hcrc
      have hnew : { a with inArity := n' } ∈ ds := hsub _ (List.mem_append_right _ List.mem_cons_self)
      refine ⟨fun d hd => hsub d (List.mem_append_left _ hd), fun d hd => ?_,
        List.forall_mem_cons.2 ⟨⟨p, hp, fun a' ha' => ?_⟩, hinto⟩⟩
      · rcases hfrom d hd with hd | ⟨b', hb', h'⟩
        · rcases List.mem_append.1 hd with hd | hd
          · exact .inl hd
          · refine .inr ⟨b, List.mem_cons_self, p, hp, a, by rw [hconjs]; rfl, List.mem_singleton.1 hd⟩
        · exact .inr ⟨b', List.mem_cons_of_mem _ hb', h'⟩
      · rw [hconjs] at ha'
        cases ha'
        exact hnew

end Run

/-! ## The tuples of a projection -/

/-- The conjunctions of a projection, from those that ISL has returned. -/
def projected (m : UFCallMap) (i : Nat) (ds : List Conjunction) : List Conjunction :=
  (build Conjunction.lt (kept Conjunction.hasConstraints
    ((build Conjunction.lt (kept Conjunction.hasConstraints ds)).map (Conjunction.mapTerms (reverseTerm m))))).map
      (Conjunction.projectOutCleanUp i)

section Tuples

variable {isl : IslProject} {env : Environment} {I : Interp} {m : UFCallMap} {i n : Nat} {bs ds : List Conjunction}

end Tuples

/-! ## Sets and relations -/

section Projections

variable {isl : IslProject} {env : Environment} {I : Interp} {m : UFCallMap} {i : Nat}
  {cs ds : List Conjunction}

end Projections

end IEGen
