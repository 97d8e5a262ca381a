import Mathlib.Data.Finset.Sort
import Mathlib.Data.Prod.Lex
import Mathlib.Data.String.Basic
import IEGen.DomainRange
import IEGen.Implied
import IEGen.ISLString
import IEGen.Saturation

/-!
# Detecting unsatisfiable sets

`detectUnsatOrFindEqualities` instantiates the rules of the environment at the first arguments of the calls of a set, lets
ISL add the instances that fire to the affine set, and returns nothing if what is left is empty. Else it puts the calls
back into the affine hull, and adds to the set those of its equalities that mention a tuple variable outside of calls.

ISL is a parameter: where it reads each text as the affine set that has been printed and the affine hull contains what it
is the hull of, nothing is returned only for a set without tuples, and no tuple is lost or gained by the equalities
(`detectUnsat_sound`). The functions are any that satisfy the rules and respect their declarations.
-/

namespace IEGen

open SortedList (insertUnique build)

/-! ## The visitors -/

namespace VisitorGatherAllParameters

/-- `preVisitUFCallTerm` -/
def preVisitTerm : Term → List Exp → Except Failure (List Exp)
  | .ufCall _ _ (e :: _) _, instExps => .ok (insertUnique Exp.lt e instExps)
  | .ufCall _ _ [] _, _ => .error (.assertException "UFCallTerm::setParamExp: i is out of bounds")
  | _, instExps => .ok instExps

/-- `VisitorGatherAllParameters`, with `instExps` as its state. -/
def visitor : Visitor (List Exp) where
  preVisitTerm := preVisitTerm

end VisitorGatherAllParameters

/-- The members of `VisitorGetUsefulEqs`. -/
structure VisitorGetUsefulEqs where
  foundTvVar : Bool
  UFnestLevel : Int
  uEqsC : Conjunction
  uEqsS : Option Set

namespace VisitorGetUsefulEqs

/-- The constructor, which leaves the pointers as they are. -/
def new : VisitorGetUsefulEqs := ⟨false, 0, .ofTupleDecl ⟨[]⟩, none⟩

/-- `preVisitUFCallTerm` and `preVisitTupleVarTerm` -/
def preVisitTerm (t : Term) (v : VisitorGetUsefulEqs) : VisitorGetUsefulEqs :=
  match t with
  | .ufCall .. => { v with UFnestLevel := v.UFnestLevel + 1 }
  | .tupleVar .. => if v.UFnestLevel = 0 then { v with foundTvVar := true } else v
  | _ => v

/-- `postVisitUFCallTerm` -/
def postVisitTerm (t : Term) (v : VisitorGetUsefulEqs) : VisitorGetUsefulEqs :=
  match t with
  | .ufCall .. => { v with UFnestLevel := v.UFnestLevel - 1 }
  | _ => v

/-- `preVisitExp` -/
def preVisitExp (v : VisitorGetUsefulEqs) : VisitorGetUsefulEqs :=
  if v.UFnestLevel = 0 then { v with foundTvVar := false } else v

/-- `postVisitExp` -/
def postVisitExp (e : Exp) (v : VisitorGetUsefulEqs) : VisitorGetUsefulEqs :=
  if v.UFnestLevel = 0 ∧ v.foundTvVar = true then { v with uEqsC := v.uEqsC.addEquality e } else v

def visitor : Visitor VisitorGetUsefulEqs where
  preVisitTerm := fun t v => .ok (preVisitTerm t v)
  postVisitTerm := fun t v => .ok (postVisitTerm t v)
  preVisitExp := fun _ v => .ok (preVisitExp v)
  postVisitExp := fun e v => .ok (postVisitExp e v)
  preVisitConjunction := fun c v => .ok { v with UFnestLevel := 0, uEqsC := .ofTupleDecl c.tupleDecl }
  postVisitConjunction := fun c v =>
    let uEqsS := Set.ofTupleDecl c.tupleDecl
    .ok { v with uEqsS := some { uEqsS with conjunctions := addConjunction uEqsS.conjunctions v.uEqsC } }

end VisitorGetUsefulEqs

/-! ## The texts for ISL -/

/-- `UFCallMap::varTermStrList`: the symbols in the order of the calls. -/
def UFCallMap.varTermStrList (m : UFCallMap) : String :=
  ", ".intercalate ((m.mUFC2VarParam.insertionSort (fun p q => q.1.lt p.1 = false)).map Prod.snd)

/-- `symsForInstantiationSet` -/
def symsForInstantiationSet (drOrigSet : Set) (ufcmap : UFCallMap) : Except Failure String :=
  match drOrigSet.conjunctions with
  | [] => .error .nullPointer
  | c :: _ =>
    let ss := ", ".intercalate c.getSymbolIterator
    .ok (if ss ≠ "" ∧ ufcmap.varTermStrList ≠ "" then "[" ++ ss ++ ", " ++ ufcmap.varTermStrList ++ "] -> "
      else if ufcmap.varTermStrList = "" then "[" ++ ss ++ "] -> "
      else if ss = "" then "[" ++ ufcmap.varTermStrList ++ "] -> "
      else "")

/-- The order of `std::set<std::pair<std::string, std::string>>`. -/
def inOrder (instantiations : Finset (String × String)) : List (String × String) :=
  ((instantiations.map toLex.toEmbedding).sort (· ≤ ·)).map ofLex

/-- What `detectUnsatOrFindEqualities` makes before it calls ISL. -/
structure IslInput where
  supAffSet : Set
  supSetParts : SrParts
  instantiations : List (String × String)
  syms : String
  ufcmap : UFCallMap
  deriving DecidableEq

/-- `detectUnsatOrFindEqualities`, up to the texts that ISL reads. -/
def Set.islInput (env : Environment) (useRule : Option (List Bool)) (s : Set) : Except InstantiationFault IslInput := do
  let instExps ← (acceptVisitor VisitorGatherAllParameters.visitor s.conjunctions []).mapError .thrown
  let origTupleDecl ← s.getTupleDecl.mapError .thrown
  let (instantiations, ufcmap) ← ruleInstantiation env instExps origTupleDecl useRule (.empty none)
  let (supAffSet, ufcmap) ← (s.superAffineSet env ufcmap true).mapError .thrown
  let supSetParts := getPartsFromStr (← (supAffSet.prettyPrintString env).mapError .thrown)
  let syms ← (s.boundDomainRange env >>= fun b => symsForInstantiationSet b ufcmap).mapError .thrown
  .ok ⟨supAffSet, supSetParts, inOrder instantiations, syms, ufcmap⟩

section Detect

variable {Point : Type} (isl : Isl Point) (isl_set_affine_hull : isl.isl_set → String) (parse_set : ParseSet)
  (env : Environment)

/-- `checkIslSet`, where `isl_set_affine_hull` also prints the hull. -/
def checkIslSet (set : isl.isl_set) (ufcmap : UFCallMap) (origSet : Set) : Except Failure (Option Set) :=
  if isl.isl_set_is_empty set then .ok none
  else do
    let affineEqs ← Set.ofString parse_set (isl_set_affine_hull set) env
    let eQs ← affineEqs.reverseAffineSubstitution ufcmap
    let v ← acceptVisitor VisitorGetUsefulEqs.visitor eQs.conjunctions .new
    match v.uEqsS with
    | none => .error .nullPointer
    | some uEqs => do .ok (some (← origSet.Intersect uEqs))

/-- `Set::detectUnsatOrFindEqualities` -/
def Set.detectUnsatOrFindEqualities (useRule : Option (List Bool)) (s : Set) : Except InstantiationFault (Option Set) := do
  let x ← s.islInput env useRule
  let set := instantiationSet isl x.supSetParts x.syms x.instantiations
  (checkIslSet isl isl_set_affine_hull parse_set env set x.ufcmap s).mapError .thrown

end Detect

/-! ## Useful equalities -/

/-- The expression has a tuple variable that is not in a call. -/
def Exp.useful (e : Exp) : Bool := e.terms.any fun t => match t with
  | .tupleVar .. => true
  | _ => false

/-- The useful equalities of a conjunction, and what stands for them where there are inequalities. -/
def Conjunction.usefulEqs (c : Conjunction) : Conjunction :=
  ((c.equalities ++ c.inequalities).filter Exp.useful).foldl Conjunction.addEquality (.ofTupleDecl c.tupleDecl)

theorem Conjunction.usefulEqs_adds {c : Conjunction} (hc : ∀ e ∈ c.equalities ++ c.inequalities, e.readable = true) :
    Adds (.ofTupleDecl c.tupleDecl) c.usefulEqs
      (fun I τ => ∀ e ∈ (c.equalities ++ c.inequalities).filter Exp.useful, e.HoldsEq I τ) :=
  foldl_adds addEquality_adds rfl fun e he => hc e (List.mem_filter.1 he).1

namespace VisitorGetUsefulEqs

mutual
/-- Inside of a call nothing is found. -/
theorem accept_inside : ∀ {t : Term} {v : VisitorGetUsefulEqs}, 0 < v.UFnestLevel → t.acceptVisitor visitor v = .ok v
  | .ufCall c f as i, v, h => by
    have hargs := acceptArgs_inside as (v := { v with UFnestLevel := v.UFnestLevel + 1 })
      (by show 0 < v.UFnestLevel + 1; omega)
    unfold Term.acceptVisitor
    refine Outcome.bind_eq_ok.2 ⟨_, rfl, Outcome.bind_eq_ok.2 ⟨_, hargs, ?_⟩⟩
    show Except.ok { v with UFnestLevel := v.UFnestLevel + 1 - 1 } = .ok v
    rw [Int.add_sub_cancel]
  | .tupleVar .., v, h => by
    have hne : ¬ v.UFnestLevel = 0 := by omega
    unfold Term.acceptVisitor
    refine Outcome.bind_eq_ok.2 ⟨v, ?_, rfl⟩
    show Except.ok (if v.UFnestLevel = 0 then { v with foundTvVar := true } else v) = .ok v
    rw [if_neg hne]
  | .symConst .., v, _ | .constVal _, v, _ | .tupleExp .., v, _ => rfl

theorem acceptExp_inside : ∀ {e : Exp} {v : VisitorGetUsefulEqs}, 0 < v.UFnestLevel → e.acceptVisitor visitor v = .ok v
  | .mk k ts, v, h => by
    have hne : ¬ v.UFnestLevel = 0 := by omega
    unfold Exp.acceptVisitor
    refine Outcome.bind_eq_ok.2 ⟨v, ?_, Outcome.bind_eq_ok.2 ⟨v, acceptTerms_inside h, ?_⟩⟩
    · show Except.ok (preVisitExp v) = .ok v
      rw [preVisitExp, if_neg hne]
    · show Except.ok (postVisitExp (.mk k ts) v) = .ok v
      rw [postVisitExp, if_neg fun h => hne h.1]

theorem acceptArgs_inside : ∀ (es : List Exp) {v : VisitorGetUsefulEqs}, 0 < v.UFnestLevel →
    argsAcceptVisitor visitor es v = .ok v
  | [], _, _ => rfl
  | _ :: _, _, h => Outcome.bind_eq_ok.2 ⟨_, acceptExp_inside h, acceptArgs_inside _ h⟩

theorem acceptTerms_inside : ∀ {ts : List Term} {v : VisitorGetUsefulEqs}, 0 < v.UFnestLevel →
    termsAcceptVisitor visitor ts v = .ok v
  | [], _, _ => rfl
  | _ :: _, _, h => Outcome.bind_eq_ok.2 ⟨_, accept_inside h, acceptTerms_inside h⟩
end

/-- The terms of a constraint, one after the other. -/
theorem acceptTerms_outside : ∀ (ts : List Term) {v : VisitorGetUsefulEqs}, v.UFnestLevel = 0 →
    termsAcceptVisitor visitor ts v = .ok { v with foundTvVar := v.foundTvVar || (Exp.mk .expression ts).useful }
  | [], v, _ => by simp [termsAcceptVisitor, Exp.useful]
  | t :: ts, v, h => by
    have hfirst : t.acceptVisitor visitor v = .ok { v with foundTvVar := v.foundTvVar || (Exp.mk .expression [t]).useful } := by
      cases t with
      | tupleVar c l =>
        unfold Term.acceptVisitor
        refine Outcome.bind_eq_ok.2 ⟨{ v with foundTvVar := true }, ?_, ?_⟩
        · show Except.ok (if v.UFnestLevel = 0 then { v with foundTvVar := true } else v) = _
          rw [if_pos h]
        · simp [Exp.useful, visitor, postVisitTerm]
      | ufCall c f as i =>
        have hargs := acceptArgs_inside as (v := { v with UFnestLevel := v.UFnestLevel + 1 })
          (by show 0 < v.UFnestLevel + 1; omega)
        unfold Term.acceptVisitor
        refine Outcome.bind_eq_ok.2 ⟨_, rfl, Outcome.bind_eq_ok.2 ⟨_, hargs, ?_⟩⟩
        show Except.ok { v with UFnestLevel := v.UFnestLevel + 1 - 1 } = _
        rw [Int.add_sub_cancel]
        simp [Exp.useful]
      | symConst | constVal | tupleExp => simp [Term.acceptVisitor, Exp.useful, visitor, preVisitTerm, postVisitTerm]
    have hrest := acceptTerms_outside ts
      (v := { v with foundTvVar := v.foundTvVar || (Exp.mk .expression [t]).useful }) h
    refine Outcome.bind_eq_ok.2 ⟨_, hfirst, hrest.trans ?_⟩
    simp [Exp.useful, Bool.or_assoc]

theorem acceptExp_outside {e : Exp} {v : VisitorGetUsefulEqs} (h : v.UFnestLevel = 0) : e.acceptVisitor visitor v =
    .ok { v with foundTvVar := e.useful, uEqsC := if e.useful = true then v.uEqsC.addEquality e else v.uEqsC } := by
  obtain ⟨k, ts⟩ := e
  have hterms := acceptTerms_outside ts (v := { v with foundTvVar := false }) h
  unfold Exp.acceptVisitor
  refine Outcome.bind_eq_ok.2 ⟨{ v with foundTvVar := false }, ?_, Outcome.bind_eq_ok.2 ⟨_, hterms, ?_⟩⟩
  · show Except.ok (preVisitExp v) = _
    rw [preVisitExp, if_pos h]
  · show Except.ok (postVisitExp _ _) = _
    have huseful : (Exp.mk k ts).useful = (Exp.mk .expression ts).useful := rfl
    rw [huseful]
    cases hu : (Exp.mk .expression ts).useful <;> simp [postVisitExp, h]

theorem foldlM_outside (es : List Exp) {v : VisitorGetUsefulEqs} (h : v.UFnestLevel = 0) : ∃ found,
    es.foldlM (fun v e => e.acceptVisitor visitor v) v =
      .ok { v with foundTvVar := found, uEqsC := (es.filter Exp.useful).foldl Conjunction.addEquality v.uEqsC } := by
  induction es generalizing v with
  | nil => exact ⟨v.foundTvVar, rfl⟩
  | cons e es ih =>
    obtain ⟨found, hfound⟩ := ih (v := { v with foundTvVar := e.useful
                                                uEqsC := if e.useful = true then v.uEqsC.addEquality e else v.uEqsC }) h
    refine ⟨found, ?_⟩
    rw [List.foldlM_cons, acceptExp_outside h]
    refine hfound.trans ?_
    cases hu : e.useful <;> simp [hu]

/-- What is got for one conjunction. -/
theorem accept_singleton (c : Conjunction) (v : VisitorGetUsefulEqs) : ∃ v', acceptVisitor visitor [c] v = .ok v' ∧
    v'.uEqsS = some ⟨c.tupleDecl.size, [c.usefulEqs]⟩ := by
  obtain ⟨found, h₁⟩ := foldlM_outside c.equalities
    (v := { v with UFnestLevel := 0, uEqsC := .ofTupleDecl c.tupleDecl }) rfl
  obtain ⟨found', h₂⟩ := foldlM_outside c.inequalities (v := { v with
    UFnestLevel := 0, foundTvVar := found
    uEqsC := (c.equalities.filter Exp.useful).foldl Conjunction.addEquality (.ofTupleDecl c.tupleDecl) }) rfl
  have hconj : c.acceptVisitor visitor v = .ok { v with
      UFnestLevel := 0, foundTvVar := found', uEqsC := c.usefulEqs, uEqsS := some ⟨c.tupleDecl.size, [c.usefulEqs]⟩ } := by
    have happend : c.usefulEqs = (c.inequalities.filter Exp.useful).foldl Conjunction.addEquality
        ((c.equalities.filter Exp.useful).foldl Conjunction.addEquality (.ofTupleDecl c.tupleDecl)) := by
      rw [Conjunction.usefulEqs, List.filter_append, List.foldl_append]
    unfold Conjunction.acceptVisitor
    refine Outcome.bind_eq_ok.2 ⟨_, rfl, Outcome.bind_eq_ok.2 ⟨_, h₁, Outcome.bind_eq_ok.2 ⟨_, h₂, ?_⟩⟩⟩
    rw [happend]
    rfl
  obtain ⟨v', hv', hs⟩ : ∃ v', c.acceptVisitor visitor v = .ok v' ∧
      v'.uEqsS = some ⟨c.tupleDecl.size, [c.usefulEqs]⟩ := ⟨_, hconj, rfl⟩
  refine ⟨v', ?_, hs⟩
  unfold acceptVisitor
  rw [List.foldlM_cons, hv']
  rfl

end VisitorGetUsefulEqs

/-! ## The set for ISL -/

section Points

variable {env : Environment} {I : Interp}

/-- The points in which ISL computes: a tuple, and values of the symbols. -/
abbrev AffinePoint : Type := List Int × (String → Int)

/-- The interpretation with other values of the symbols. -/
def Interp.withSymbols (I : Interp) (sym : String → Int) : Interp := { I with sym := sym }

/-- The points of affine conjunctions. -/
def affinePoints (I : Interp) (cs : List Conjunction) : PointSet AffinePoint :=
  {p | p.1 ∈ denoteUnion (I.withSymbols p.2) cs}

/-- A tuple with the values of the calls of a map. -/
def pointAt (I : Interp) (m : UFCallMap) (t : List Int) : AffinePoint := (t, (I.withCalls m (valuation t)).sym)

theorem pointAt_mem_iff {m : UFCallMap} {t : List Int} {cs : List Conjunction} :
    pointAt I m t ∈ affinePoints I cs ↔ t ∈ denoteUnion (I.withCalls m (valuation t)) cs := Iff.rfl

/-- The bounded conjunction is built as the clean-up builds, and its calls stand for integers. -/
theorem ready_boundDomainRange (hI : I.Declared env) {τ : Nat → Int} {c c' : Conjunction} (hc : c.Ready I.cod)
    (hf : c.Fits I.cod Scalar Scalar (CallBounding env I τ)) (h : c.boundDomainRange env = .ok c') : c'.Ready I.cod := by
  obtain ⟨heqs, hineqs⟩ := Conjunction.readable_iff.1 hc.built.readable
  have hg : ∀ e ∈ c.equalities ++ c.inequalities, ∀ t ∈ e.terms,
      t.readable = true ∧ t.Fits I.cod Scalar (CallBounding env I τ) := by
    intro e he t ht
    obtain ⟨v, -, hfe⟩ := hf e he
    exact ⟨Exp.readable_iff.1 ((List.mem_append.1 he).elim (heqs e) (hineqs e)) t ht, (hfe t ht).2⟩
  have hstart : HoldsOne True I τ (Set.ofTupleDecl c.tupleDecl) :=
    ⟨.ofTupleDecl c.tupleDecl, rfl, iff_true_intro (holds_ofTupleDecl _), ready_ofTupleDecl _ _⟩
  obtain ⟨s, d, rest, hone, hd, -, rfl⟩ := boundDomainRange_gathers (gathers_holdsOne hI) hg hstart h
  obtain ⟨d', hd', -, hdr⟩ := hone
  obtain ⟨rfl, -⟩ := List.cons_eq_cons.1 (hd.symm.trans hd')
  have hready := ready_intersect hc hdr
  exact ⟨⟨hready.built.equalities, hready.built.inequalities, hready.built.sorted_equalities,
    hready.built.sorted_inequalities⟩, hready.fits⟩

theorem mapError_eq_ok {α : Type} {x : Except Failure α} {a : α} :
    x.mapError InstantiationFault.thrown = .ok a ↔ x = .ok a := by
  cases x with
  | error => exact iff_of_false (fun h => by cases h) fun h => by cases h
  | ok b => exact ⟨fun h => congrArg Except.ok (Except.ok.inj h), fun h => congrArg Except.ok (Except.ok.inj h)⟩

/-- The affine set of the bounded conjunction, with any map before it. -/
theorem Set.superAffineSet_bounded {m m₁ : UFCallMap} (hm : m.Wf) {s a : Set} {c : Conjunction}
    (hcopy : s.copy env = .ok ⟨s.arity, [c]⟩) (h : s.superAffineSet env m true = .ok (a, m₁)) :
    ∃ b, c.boundDomainRange env = .ok b ∧ (b.Built → a = ⟨s.arity, affineUnion m.tupleDecl [b]⟩ ∧
      m₁ = ([b].flatMap Conjunction.terms).foldl UFCallMap.record m ∧
      ∀ u ∈ [b].flatMap Conjunction.terms, UFCallMap.Recordable m.tupleDecl u) := by
  unfold Set.superAffineSet at h
  simp only [hcopy, Outcome.bind_eq_ok, Except.ok.injEq, exists_eq_left', List.length_singleton, one_ne_zero,
    if_false, if_true] at h
  obtain ⟨u, hu, v, hv, h⟩ := h
  unfold Set.boundDomainRange at hu
  rw [hcopy] at hu
  obtain ⟨_, hs, hu⟩ := Outcome.bind_eq_ok.1 hu
  cases hs
  obtain ⟨bs, hbs, hu⟩ := Outcome.bind_eq_ok.1 hu
  cases hu
  have hf := Outcome.forall₂_of_mapM hbs
  cases hf with
  | @cons _ b _ bs' hb hnil =>
    cases hnil
    obtain ⟨rfl, rfl⟩ := Prod.mk.inj h
    refine ⟨b, hb, fun hbuilt => endSet_accept hm ?_ (List.cons_ne_nil _ _) hv⟩
    exact fun x hx => List.mem_singleton.1 hx ▸ hbuilt

theorem mem_inOrder {instantiations : Finset (String × String)} {it : String × String} :
    it ∈ inOrder instantiations ↔ it ∈ instantiations := by
  simp [inOrder]

/-- What the result rests on: a cleaned-up set of one conjunction whose calls are used as integers, with domains and
ranges that bound them exactly, rules that can be instantiated at the first arguments, and names of their own for all
calls. -/
structure Set.Detectable (env : Environment) (I : Interp) (useRule : Option (List Bool)) (s : Set) (c : Conjunction)
    (instExps : List Exp) : Prop where
  single : s.conjunctions = [c]
  readable : c.readable = true
  cleaned : s.copy env = .ok s
  fits : ∀ τ, c.Fits I.cod Scalar Scalar (CallBounding env I τ)
  gathered : acceptVisitor VisitorGatherAllParameters.visitor s.conjunctions [] = .ok instExps
  rules : ∀ p ∈ rulesAtPairs env.uniQuantRules instExps useRule, InstantiableAt env I p
  names : ∀ sides b, (rulesAtPairs env.uniQuantRules instExps useRule).mapM (sidesAt env c.tupleDecl) = .ok sides →
    c.boundDomainRange env = .ok b → OwnNames none (sides.flatMap bothSides ++ [b])

/-- The functions respect the declarations and the rules. -/
structure Interp.Satisfies (I : Interp) (env : Environment) (c : Conjunction) : Prop where
  declared : I.Declared env
  rules : ∀ r ∈ env.uniQuantRules, r.HoldsIn I
  respects : ∀ t ∈ c.denote I, c.AllCalls (fun f _ as => I.Respects env (valuation t) f as)

theorem Set.Detectable.ready {useRule : Option (List Bool)} {s : Set} {c : Conjunction} {instExps : List Exp}
    (h : s.Detectable env I useRule c instExps) : s.copy env = .ok ⟨s.arity, [c]⟩ ∧ c.Ready I.cod := by
  have hself : s = ⟨s.arity, [c]⟩ := by
    rw [← h.single]
  have hcopy : s.copy env = .ok ⟨s.arity, [c]⟩ := h.cleaned.trans (congrArg Except.ok hself)
  have hfits : c.Fits I.cod Scalar Scalar AnyCall := by
    intro e he
    obtain ⟨v, hv, hf⟩ := h.fits (fun _ => 0) e he
    exact ⟨v, hv, fun t ht => ⟨(hf t ht).1, (hf t ht).2.imp fun _ _ _ _ => trivial⟩⟩
  refine ⟨hcopy, ?_, hfits⟩
  unfold Set.copy at hcopy
  obtain ⟨ds, hds, hok⟩ := Outcome.bind_eq_ok.1 hcopy
  rw [h.single] at hds
  obtain ⟨b, hb, rfl⟩ := copyConjunctions_singleton hds
  have hfilter : [b].filter Conjunction.satisfiable = [c] := congrArg Set.conjunctions (Except.ok.inj hok)
  have hmem : c ∈ [b].filter Conjunction.satisfiable := by rw [hfilter]; exact List.mem_singleton_self c
  rw [← List.mem_singleton.1 (List.mem_filter.1 hmem).1] at hb
  exact built_cleanUp h.readable hb

/-- What ISL is given: the affine set of the bounded conjunction, and the instances, which are printed from the sides of
rules; the map has each call under its own name. -/
theorem Set.Detectable.input {useRule : Option (List Bool)} {s : Set} {c : Conjunction} {instExps : List Exp} {x : IslInput}
    (h : s.Detectable env I useRule c instExps) (hI : I.Declared env) (hx : s.islInput env useRule = .ok x) :
    ∃ b, c.boundDomainRange env = .ok b ∧ x.supAffSet = ⟨s.arity, affineUnion none [b]⟩ ∧
      (x.ufcmap.Wf ∧ x.ufcmap.tupleDecl = none ∧ x.ufcmap.Integers I.cod) ∧
      (∀ u ∈ [b].flatMap Conjunction.terms, Decoded x.ufcmap u) ∧
      ∀ it ∈ x.instantiations, ∃ p ∈ rulesAtPairs env.uniQuantRules instExps useRule, ∃ sides,
        sidesAt env c.tupleDecl p = .ok sides ∧ PrintedFrom env none sides it ∧
          ∀ u ∈ (bothSides sides).flatMap Conjunction.terms, Decoded x.ufcmap u := by
  obtain ⟨hcopy, hready⟩ := h.ready
  have hdecl : s.getTupleDecl = .ok c.tupleDecl := by
    rw [Set.getTupleDecl, h.single]
  unfold Set.islInput at hx
  simp only [mapError_eq_ok, Outcome.bind_eq_ok, Except.ok.injEq, Prod.exists, h.gathered, hdecl, exists_eq_left'] at hx
  obtain ⟨insts, m, hinsts, a, M, ha, str, -, syms, -, rfl⟩ := hx
  obtain ⟨sides, hsides, rfl, hrec, hmade, -⟩ := ruleInstantiation_sides (UFCallMap.wf_empty none)
    (fun p hp => (h.rules p hp).substitutable) hinsts
  obtain ⟨hm, hd⟩ := UFCallMap.wf_foldl_record (UFCallMap.wf_empty none) hrec
  obtain ⟨b, hb, hbuilt⟩ := Set.superAffineSet_bounded hm hcopy ha
  have hbready := ready_boundDomainRange hI hready (h.fits fun _ => 0) hb
  obtain ⟨rfl, hM, hrecb⟩ := hbuilt hbready.built
  rw [hd] at hrecb
  have hterms : (sides.flatMap bothSides).flatMap Conjunction.terms ++ [b].flatMap Conjunction.terms =
      (sides.flatMap bothSides ++ [b]).flatMap Conjunction.terms := List.flatMap_append.symm
  have hall : ∀ u ∈ (sides.flatMap bothSides ++ [b]).flatMap Conjunction.terms, UFCallMap.Recordable none u := by
    rw [← hterms]
    exact List.forall_mem_append.2 ⟨hrec, hrecb⟩
  have hint : IntegersOutside I.cod (sides.flatMap bothSides ++ [b]) := by
    unfold IntegersOutside
    rw [← hterms]
    refine List.forall_mem_append.2 ⟨integers_sides h.rules hsides, fun u hu => ?_⟩
    have hu : u ∈ b.terms := by simpa using hu
    obtain ⟨e, he, hu⟩ := List.mem_flatMap.1 hu
    obtain ⟨v, hv, hfe⟩ := hbready.fits e he
    exact hv ▸ (hfe u hu).1
  have hM : M = ((sides.flatMap bothSides ++ [b]).flatMap Conjunction.terms).foldl UFCallMap.record (.empty none) := by
    rw [hM, ← List.foldl_append, hterms]
  have hdec := decoded_of_ownNames hall (h.names sides b hsides hb)
  rw [← hM] at hdec
  rw [← hterms] at hdec
  obtain ⟨hdecs, hdecb⟩ := List.forall_mem_append.1 hdec
  obtain ⟨hwf, htd⟩ := UFCallMap.wf_foldl_record (UFCallMap.wf_empty none) hall
  refine ⟨b, hb, congrArg (fun d => Set.mk s.arity (affineUnion d [b])) hd,
    ⟨hM ▸ hwf, hM ▸ htd, hM ▸ integers_foldl_record hint⟩, hdecb, fun it hit => ?_⟩
  obtain ⟨p, hp, sd, hsd, hps, hprinted⟩ := hmade it (mem_inOrder.1 hit)
  exact ⟨p, hp, sd, hps, hprinted, fun u hu => hdecs u (mem_terms_sides hsd u hu)⟩

/-! ## What ISL is relied on for -/

section Reads

variable (affine : String → Prop) (meaning : String → PointSet AffinePoint) (I : Interp)

/-- A text is read as the points of the affine conjunctions that it has been printed from. -/
def ReadsAffine (text : String) (cs : List Conjunction) : Prop := affine text ∧ meaning text = affinePoints I cs

/-- All texts of a run are read so: that of the affine set, and those of the instances. -/
structure ReadsInput (env : Environment) (d : TupleDecl) (ps : List (UniQuantRule × Exp × Exp)) (x : IslInput) : Prop where
  orig : ReadsAffine affine meaning I (islText x.supSetParts x.syms x.supSetParts.constraints) x.supAffSet.conjunctions
  instances : ∀ p ∈ ps, ∀ sides it, sidesAt env d p = .ok sides → PrintedFrom env none sides it →
    ReadsAffine affine meaning I (islText x.supSetParts x.syms it.1) (affineUnion none sides.1.conjunctions) ∧
      ReadsAffine affine meaning I (islText x.supSetParts x.syms it.2) (affineUnion none sides.2.conjunctions)

/-- The affine hull of a set that is not empty is read back as equalities of which all points of the set are solutions. -/
def ReadsHull (isl : Isl AffinePoint) (isl_set_affine_hull : isl.isl_set → String) (parse_set : ParseSet)
    (env : Environment) (set : isl.isl_set) : Prop :=
  isl.isl_set_is_empty set = false → ∃ n b, Set.ofString parse_set (isl_set_affine_hull set) env = .ok ⟨n, [b]⟩ ∧
    b.Affine ∧ b.readable = true ∧ b.inequalities = [] ∧ ∀ p ∈ isl.points set, p.1 ∈ b.denote (I.withSymbols p.2)

end Reads

section Detected

variable {affine : String → Prop} {meaning : String → PointSet AffinePoint} {useRule : Option (List Bool)} {s : Set}
  {c : Conjunction} {instExps : List Exp} {x : IslInput}

/-- A tuple of the set, with the values of the calls for the symbols, is a point of the affine set. -/
theorem pointAt_mem_orig (h : s.Detectable env I useRule c instExps) (hI : I.Satisfies env c)
    (hx : s.islInput env useRule = .ok x)
    (hread : ReadsInput affine meaning I env c.tupleDecl (rulesAtPairs env.uniQuantRules instExps useRule) x)
    {t : List Int} (ht : t ∈ c.denote I) :
    pointAt I x.ufcmap t ∈ meaning (islText x.supSetParts x.syms x.supSetParts.constraints) := by
  obtain ⟨b, hb, hsup, ⟨hm, hd, hi⟩, hdec, -⟩ := h.input hI.declared hx
  obtain ⟨hiff, hdecl⟩ := boundDomainRange_holds hI.declared (τ := valuation t) h.readable
    (fun e he => by
      obtain ⟨v, -, hf⟩ := h.fits (valuation t) e he
      exact ⟨v, trivial, hf⟩) hb
  rw [hread.orig.2, pointAt_mem_iff, hsup, ← hd, mem_affineUnion hm hi (by simp) hdec]
  refine ⟨b, List.mem_singleton_self b, ?_, hiff.2 ⟨ht.2, hI.respects t ht⟩⟩
  rw [hdecl]
  exact ht.1

/-- There, every instance is true. -/
theorem pointAt_mem_instances (h : s.Detectable env I useRule c instExps) (hI : I.Satisfies env c)
    (hx : s.islInput env useRule = .ok x)
    (hread : ReadsInput affine meaning I env c.tupleDecl (rulesAtPairs env.uniQuantRules instExps useRule) x)
    (t : List Int) : pointAt I x.ufcmap t ∈ allInstantiations meaning x.supSetParts x.syms x.instantiations := by
  obtain ⟨b, -, -, ⟨hm, hd, hi⟩, -, hinst⟩ := h.input hI.declared hx
  intro it hit
  obtain ⟨p, hp, sides, hsides, hprinted, hdec⟩ := hinst it hit
  obtain ⟨hleft, hright⟩ := hread.instances p hp sides it hsides hprinted
  obtain ⟨h₁, h₂⟩ := mem_affineSides hm hd hi (h.rules p hp) hsides hdec t
  have hrule : p.1 ∈ env.uniQuantRules := by
    obtain ⟨r, hr, hp⟩ := List.mem_flatMap.1 hp
    obtain ⟨x1, -, hp⟩ := List.mem_flatMap.1 hp
    obtain ⟨x2, -, rfl⟩ := List.mem_map.1 hp
    cases useRule with
    | none => exact hr
    | some useRule => exact (List.mem_filter.1 hr).1
  intro ht
  rw [hleft.2, pointAt_mem_iff, h₁] at ht
  rw [hright.2, pointAt_mem_iff, h₂]
  exact ⟨ht.1, hI.rules p.1 hrule ht.2⟩

/-- With the calls put back, the constraints are still readable. -/
theorem readable_mapTerms_reverseTerm {m : UFCallMap} (hm : m.Wf) {b : Conjunction} (hr : b.readable = true) :
    ∀ e ∈ (b.mapTerms (reverseTerm m)).equalities ++ (b.mapTerms (reverseTerm m)).inequalities, e.readable = true := by
  have hlinear : Linear (fun u : Term => u.readable = true) fun _ _ => 0 :=
    ⟨isTupleExp_of_readable, fun c _ h => by rw [readable_setCoefficient]; exact h, fun _ _ _ => (mul_zero _).symm,
      fun _ _ _ _ => rfl⟩
  have hterms : ∀ u ∈ (b.mapTerms (reverseTerm m)).terms, u.readable = true := by
    refine terms_mapTerms hlinear fun u hu => ?_
    have hread : u.readable = true := by
      obtain ⟨heqs, hineqs⟩ := Conjunction.readable_iff.1 hr
      obtain ⟨e, he, hu⟩ := List.mem_flatMap.1 hu
      exact Exp.readable_iff.1 ((List.mem_append.1 he).elim (heqs e) (hineqs e)) u hu
    cases u with
    | symConst c s =>
      cases hf : m.findVar s with
      | none =>
        simp only [reverseTerm, hf]
        exact hread
      | some call =>
        obtain ⟨-, -, hcall, -⟩ := hm.of_findVar hf
        simp only [reverseTerm, hf]
        rw [readable_setCoefficient]
        exact hcall
    | tupleVar | constVal | ufCall => exact hread
    | tupleExp => cases hread
  exact fun e he => Exp.readable_iff.2 fun u hu => hterms u (List.mem_flatMap.2 ⟨e, he, hu⟩)

/-- The equalities of the hull with the calls put back hold at a tuple that is a point of the hull. -/
theorem holds_usefulEqs {m : UFCallMap} (hm : m.Wf) (hi : m.Integers I.cod) {b : Conjunction} (hb : b.Affine)
    (hr : b.readable = true) (hineqs : b.inequalities = []) {t : List Int}
    (ht : t ∈ b.denote (I.withCalls m (valuation t))) : (b.mapTerms (reverseTerm m)).usefulEqs.Holds I (valuation t) := by
  have hone : build Conjunction.lt (kept Conjunction.hasConstraints ([b].map (Conjunction.mapTerms (reverseTerm m)))) =
      [b.mapTerms (reverseTerm m)] := rfl
  have hmem : t ∈ denoteUnion I [b.mapTerms (reverseTerm m)] := by
    rw [← hone, (denoteUnion_reverse hm hi (fun b' h => List.mem_singleton.1 h ▸ hb)).2 (by simp [LosesNothingIn, replaced])]
    exact ⟨b, List.mem_singleton_self b, ht⟩
  obtain ⟨b', hb', -, hholds⟩ := hmem
  obtain rfl := List.mem_singleton.1 hb'
  have hnone : (b.mapTerms (reverseTerm m)).inequalities = [] := by
    rw [Conjunction.mapTerms_eq, hineqs]
    rfl
  refine ((Conjunction.usefulEqs_adds (readable_mapTerms_reverseTerm hm hr)).holds I _).2 ⟨holds_ofTupleDecl _, fun e he => ?_⟩
  have he := (List.mem_filter.1 he).1
  rw [hnone, List.append_nil] at he
  exact hholds.1 e he

/-- What is made of the set that ISL gives back: equalities that hold at all of its points. -/
theorem checkIslSet_keeps {isl : Isl AffinePoint} {isl_set_affine_hull : isl.isl_set → String} {parse_set : ParseSet}
    {set : isl.isl_set} {m : UFCallMap} (hm : m.Wf) (hi : m.Integers I.cod) (hs : s.conjunctions = [c])
    (hc : c.readable = true) (hhull : ReadsHull I isl isl_set_affine_hull parse_set env set)
    (hpoints : ∀ t ∈ c.denote I, pointAt I m t ∈ isl.points set) {s' : Set}
    (h : checkIslSet isl isl_set_affine_hull parse_set env set m s = .ok (some s')) :
    s'.arity = s.arity ∧ s'.denote I = s.denote I := by
  unfold checkIslSet at h
  cases hempty : isl.isl_set_is_empty set with
  | true =>
    rw [hempty] at h
    cases h
  | false =>
    obtain ⟨n, b, hread, hb, hr, hineqs, hall⟩ := hhull hempty
    rw [hempty] at h
    simp only [Bool.false_eq_true, if_false, hread, Outcome.bind_eq_ok, Except.ok.injEq, exists_eq_left'] at h
    obtain ⟨eQs, hrev, v, hv, h⟩ := h
    have hone : build Conjunction.lt (kept Conjunction.hasConstraints ([b].map (Conjunction.mapTerms (reverseTerm m)))) =
        [b.mapTerms (reverseTerm m)] := rfl
    obtain ⟨-, rfl⟩ := (Set.reverseAffineSubstitution_iff
      (fun b' h => by rw [List.mem_singleton.1 h]; exact hb.1) (List.cons_ne_nil _ _)).1 hrev
    obtain ⟨v', hv', hu⟩ := VisitorGetUsefulEqs.accept_singleton (b.mapTerms (reverseTerm m)) .new
    rw [hone, hv', Except.ok.injEq] at hv
    subst hv
    rw [hu] at h
    simp only [Outcome.bind_eq_ok, Except.ok.injEq, Option.some.injEq, exists_eq_right] at h
    unfold Set.Intersect at h
    split_ifs at h
    rw [hs] at h
    cases h
    refine ⟨rfl, Set.ext fun t => ?_⟩
    have hself : t ∈ s.denote I ↔ t ∈ c.denote I := by
      unfold Set.denote
      rw [hs]
      simp [denoteUnion]
    have hinter : t ∈ (Set.mk s.arity [c.Intersect (b.mapTerms (reverseTerm m)).usefulEqs]).denote I ↔
        t ∈ (c.Intersect (b.mapTerms (reverseTerm m)).usefulEqs).denote I := by
      simp [Set.denote, denoteUnion]
    refine hinter.trans (Iff.trans ?_ hself.symm)
    have hadds := Conjunction.intersect_adds hc (Conjunction.usefulEqs_adds (readable_mapTerms_reverseTerm hm hr)).readable
    have hiff : t ∈ (c.Intersect (b.mapTerms (reverseTerm m)).usefulEqs).denote I ↔
        t ∈ c.denote I ∧ (b.mapTerms (reverseTerm m)).usefulEqs.Holds I (valuation t) := by
      show TupleDecl.Admits _ t ∧ _ ↔ (_ ∧ _) ∧ _
      rw [hadds.holds, hadds.tupleDecl, and_assoc]
    rw [hiff, and_iff_left_iff_imp]
    exact fun ht => holds_usefulEqs hm hi hb hr hineqs (hall _ (hpoints t ht))

/-- Nothing is returned only for a set without tuples, and what is returned has the tuples of the set: for all functions
that satisfy the rules and respect their declarations, if ISL reads what has been printed, its tests for an empty set are
right, and its affine hulls contain what they are hulls of. -/
theorem detectUnsat_sound (env : Environment) (I : Interp) (isl : Isl AffinePoint) (isl_set_affine_hull : isl.isl_set → String)
    (parse_set : ParseSet) (affine : String → Prop) (meaning : String → PointSet AffinePoint) (valid : isl.isl_set → Prop)
    (useRule : Option (List Bool)) (s : Set) (c : Conjunction) (instExps : List Exp) (x : IslInput) (r : Option Set)
    (h : s.Detectable env I useRule c instExps) (hI : I.Satisfies env c) (hx : s.islInput env useRule = .ok x)
    (hisl : isl.Exact affine meaning valid)
    (hread : ReadsInput affine meaning I env c.tupleDecl (rulesAtPairs env.uniQuantRules instExps useRule) x)
    (hempty : ∀ set, valid set → isl.isl_set_is_empty set = true → isl.points set = ∅)
    (hhull : ReadsHull I isl isl_set_affine_hull parse_set env
      (instantiationSet isl x.supSetParts x.syms x.instantiations))
    (hr : s.detectUnsatOrFindEqualities isl isl_set_affine_hull parse_set env useRule = .ok r) :
    (r = none → s.denote I = ∅) ∧ ∀ s', r = some s' → s'.arity = s.arity ∧ s'.denote I = s.denote I := by
  obtain ⟨b, -, -, ⟨hm, hd, hi⟩, -, hinst⟩ := h.input hI.declared hx
  have haff : ∀ it ∈ x.instantiations, affine (islText x.supSetParts x.syms it.1) ∧
      affine (islText x.supSetParts x.syms it.2) := by
    intro it hit
    obtain ⟨p, hp, sides, hsides, hprinted, -⟩ := hinst it hit
    obtain ⟨hleft, hright⟩ := hread.instances p hp sides it hsides hprinted
    exact ⟨hleft.1, hright.1⟩
  obtain ⟨hv, horig⟩ := hisl.read _ hread.orig.1
  have hstart : Reached isl valid (meaning (islText x.supSetParts x.syms x.supSetParts.constraints))
      (allInstantiations meaning x.supSetParts x.syms x.instantiations)
      (isl.isl_set_read_from_str (islText x.supSetParts x.syms x.supSetParts.constraints)) := by
    refine ⟨hv, ?_⟩
    rw [horig]
    exact Between.refl _ _
  obtain ⟨hvalid, hbetween⟩ := reached_instantiationRounds hisl haff subset_rfl 2 hstart
  have hpoints : ∀ t ∈ c.denote I, pointAt I x.ufcmap t ∈
      isl.points (instantiationSet isl x.supSetParts x.syms x.instantiations) := fun t ht =>
    hbetween.contains ⟨pointAt_mem_orig h hI hx hread ht, pointAt_mem_instances h hI hx hread t⟩
  have hcheck : checkIslSet isl isl_set_affine_hull parse_set env
      (instantiationSet isl x.supSetParts x.syms x.instantiations) x.ufcmap s = .ok r := by
    unfold Set.detectUnsatOrFindEqualities at hr
    rw [hx] at hr
    exact mapError_eq_ok.1 hr
  refine ⟨fun hnone => ?_, fun s' hs' => ?_⟩
  · subst hnone
    have hemp : isl.isl_set_is_empty (instantiationSet isl x.supSetParts x.syms x.instantiations) = true := by
      by_contra hne
      unfold checkIslSet at hcheck
      rw [if_neg hne] at hcheck
      simp only [Outcome.bind_eq_ok] at hcheck
      obtain ⟨_, -, _, -, v, -, hcheck⟩ := hcheck
      cases hu : v.uEqsS with
      | none =>
        rw [hu] at hcheck
        cases hcheck
      | some uEqs =>
        rw [hu] at hcheck
        obtain ⟨_, -, hcheck⟩ := Outcome.bind_eq_ok.1 hcheck
        cases hcheck
    refine Set.eq_empty_of_forall_notMem fun t ht => ?_
    obtain ⟨c', hc', ht⟩ := ht
    rw [h.single] at hc'
    have hmem := hpoints t (List.mem_singleton.1 hc' ▸ ht)
    have hnil := hempty (instantiationSet isl x.supSetParts x.syms x.instantiations) hvalid hemp
    rw [hnil] at hmem
    exact hmem
  · subst hs'
    exact checkIslSet_keeps hm hi h.single h.readable hhull hpoints hcheck

end Detected

end Points

/-! ## A function that is nowhere below its argument -/

/-- `{ [e1, e2] }` -/
def anySide : Set := ⟨2, [⟨[], [], ⟨[⟨false, 0, "e1"⟩, ⟨false, 0, "e2"⟩]⟩, 0⟩]⟩

/-- `{ [e1, e2] : -e1 + f(e1) >= 0 }` -/
def growingSide : Set := ⟨2, [⟨[], [.mk .inequality [.tupleVar (-1) 0, .ufCall 1 "f" [.ofTerm (.tupleVar 1 0)] none]],
  ⟨[⟨false, 0, "e1"⟩, ⟨false, 0, "e2"⟩]⟩, 0⟩]⟩

/-- `f`, from natural numbers to natural numbers, with a rule that it is nowhere below its argument. -/
def growingEnv : Environment := { naturalEnv with uniQuantRules := [⟨.triangularity, anySide, growingSide⟩] }

/-- `{ [i] : i >= 0 && i - f(i) >= 0 }`, or `i - f(i) - 1 >= 0` -/
def atMostConj (strictly : Bool) : Conjunction :=
  ⟨[], [.mk .inequality [.tupleVar 1 0], .mk .inequality ([.tupleVar 1 0, .ufCall (-1) "f" [.ofTerm (.tupleVar 1 0)] none] ++
    (if strictly then [.constVal (-1)] else []))], ⟨[⟨false, 0, "i"⟩]⟩, 0⟩

/-- `i >= 0 && f(i) >= 0 && i - f(i) >= 0`, with a symbol for `f(i)` -/
def affineAtMost (strictly : Bool) : Conjunction :=
  ⟨[], [.mk .inequality [.tupleVar 1 0], .mk .inequality [.symConst 1 "f___tv0_"],
    .mk .inequality ([.tupleVar 1 0, .symConst (-1) "f___tv0_"] ++ (if strictly then [.constVal (-1)] else []))],
    ⟨[⟨false, 0, "i"⟩]⟩, 0⟩

/-- The sides of the instance at `i`, and with a symbol for `f(i)`. -/
def growingSides : Set × Set :=
  (⟨1, [⟨[], [], ⟨[⟨false, 0, "i"⟩]⟩, 0⟩]⟩, ⟨1, [⟨[], [.mk .inequality [.tupleVar (-1) 0,
    .ufCall 1 "f" [.ofTerm (.tupleVar 1 0)] none]], ⟨[⟨false, 0, "i"⟩]⟩, 0⟩]⟩)

def affineGrowing : Conjunction :=
  ⟨[], [.mk .inequality [.tupleVar (-1) 0, .symConst 1 "f___tv0_"]], ⟨[⟨false, 0, "i"⟩]⟩, 0⟩

def growingInput (strictly : Bool) : IslInput where
  supAffSet := ⟨1, [affineAtMost strictly]⟩
  supSetParts := ⟨"", "\x7b", " [i] ", ":", if strictly then " i >= 0 && f___tv0_ >= 0 && i - f___tv0_ - 1 >= 0 "
    else " i >= 0 && f___tv0_ >= 0 && i - f___tv0_ >= 0 ", "\x7d"⟩
  instantiations := [("true", "-i + f___tv0_ >= 0")]
  syms := "[f___tv0_] -> "
  ufcmap := ⟨none, [(.ufCall 1 "f" [.ofTerm (.tupleVar 1 0)] none, "f___tv0_")],
    [("f___tv0_", .ufCall 1 "f" [.ofTerm (.tupleVar 1 0)] none)]⟩

theorem islInput_atMost (strictly : Bool) :
    (Set.mk 1 [atMostConj strictly]).islInput growingEnv none = .ok (growingInput strictly) := by
  cases strictly <;> exact Outcome.eq_ok_of_toOption (by decide +kernel)

theorem sidesAt_growing {p : UniQuantRule × Exp × Exp}
    (hp : p ∈ rulesAtPairs growingEnv.uniQuantRules [.ofTerm (.tupleVar 1 0)] none) :
    p = (⟨.triangularity, anySide, growingSide⟩, .ofTerm (.tupleVar 1 0), .ofTerm (.tupleVar 1 0)) ∧
      sidesAt growingEnv ⟨[⟨false, 0, "i"⟩]⟩ p = .ok growingSides := by
  obtain rfl := List.mem_singleton.1 hp
  exact ⟨rfl, Outcome.eq_ok_of_toOption (by decide +kernel)⟩

theorem instantiable_growing : InstantiableAt growingEnv identityInterp
    (⟨.triangularity, anySide, growingSide⟩, .ofTerm (.tupleVar 1 0), .ofTerm (.tupleVar 1 0)) := by
  have hconst : ∀ i, (TupleDecl.mk [⟨false, 0, "e1"⟩, ⟨false, 0, "e2"⟩]).elemIsConst i = false := by
    intro i
    rcases i with _ | _ | i <;> rfl
  have hany : anySide.copy growingEnv = .ok anySide := Outcome.eq_ok_of_toOption (by decide +kernel)
  have hgrowing : growingSide.copy growingEnv = .ok growingSide := Outcome.eq_ok_of_toOption (by decide +kernel)
  have hx : IsInteger identityInterp (.ofTerm (.tupleVar 1 0)) := ⟨rfl, false, rfl, by simp [Exp.ofTerm, Term.UsedAs, Term.Fits]⟩
  refine ⟨⟨_, hany, by simp [Set.denote, denoteUnion, anySide], ?_⟩,
    ⟨_, hgrowing, by simp [Set.denote, denoteUnion, growingSide], ?_⟩, hx, hx⟩
  · exact Conjunction.instantiable_of_noInverses (fun _ => rfl) (by decide) rfl hconst (by simp [Conjunction.VarsIn])
      (by simp [Conjunction.Fits]) rfl rfl
  · refine Conjunction.instantiable_of_noInverses (fun _ => rfl) (by decide) rfl hconst ?_ ?_ rfl rfl
    · simp [Conjunction.VarsIn, Exp.VarsIn, termsVarsIn, Term.VarsIn, argsVarsIn, Exp.ofTerm]
    · simp [Conjunction.Fits, Exp.FitsAs, Scalar, Term.UsedAs, Term.Fits, argsFits, Exp.Fits, termsFits, Exp.ofTerm,
        identityInterp, AnyCall]

theorem bounding_growing {τ : Nat → Int} {es : List Exp}
    (h : ((Exp.mk .inequality [.tupleVar 1 0]).substitute (tupleSubMap es)).readable = true) :
    Bounding growingEnv identityInterp τ naturals es := by
  refine ⟨⟨[], [.mk .inequality [.tupleVar 1 0]], ⟨[⟨false, 0, "x"⟩]⟩, 0⟩, rfl, rfl,
    by simp [Set.denote, denoteUnion, naturals], rfl, fun e he => ?_, fun e he => ?_, fun e he => ?_⟩
  · obtain rfl : e = .mk .inequality [.tupleVar 1 0] := List.mem_singleton.1 he
    exact ⟨Nat.zero_lt_one, trivial⟩
  · obtain rfl : e = .mk .inequality [.tupleVar 1 0] := List.mem_singleton.1 he
    exact ⟨false, rfl, by simp [Term.UsedAs, Term.Fits]⟩
  · obtain rfl : e = .mk .inequality [.tupleVar 1 0] := List.mem_singleton.1 he
    exact Exp.collapseKeeps_of_noInverses (fun _ => rfl) h

theorem callBounding_growing (τ : Nat → Int) :
    CallBounding growingEnv identityInterp τ "f" none [.ofTerm (.tupleVar 1 0)] := by
  refine ⟨by simp, fun u hu => ?_, fun u hu => ?_⟩
  · obtain rfl : _ = u := Option.some.inj hu
    exact bounding_growing (by decide)
  · obtain rfl : _ = u := Option.some.inj hu
    exact bounding_growing (by decide)

theorem boundDomainRange_atMost (strictly : Bool) : (atMostConj strictly).boundDomainRange growingEnv =
    .ok { atMostConj strictly with inequalities := [.mk .inequality [.tupleVar 1 0],
      .mk .inequality [.ufCall 1 "f" [.ofTerm (.tupleVar 1 0)] none], .mk .inequality ([.tupleVar 1 0,
        .ufCall (-1) "f" [.ofTerm (.tupleVar 1 0)] none] ++ (if strictly then [.constVal (-1)] else []))] } := by
  cases strictly <;> exact Outcome.eq_ok_of_toOption (by decide +kernel)

theorem detectable_atMost (strictly : Bool) : (Set.mk 1 [atMostConj strictly]).Detectable growingEnv identityInterp none
    (atMostConj strictly) [.ofTerm (.tupleVar 1 0)] where
  single := rfl
  readable := by cases strictly <;> decide
  cleaned := by cases strictly <;> exact Outcome.eq_ok_of_toOption (by decide +kernel)
  fits := by
    intro τ e he
    have hcall := callBounding_growing τ
    rcases List.mem_pair.1 he with rfl | rfl
    · exact ⟨false, rfl, by simp [Term.UsedAs, Term.Fits]⟩
    · have hterm : (Term.ufCall (-1) "f" [.ofTerm (.tupleVar 1 0)] none).UsedAs identityInterp.cod false ∧
          (Term.ufCall (-1) "f" [.ofTerm (.tupleVar 1 0)] none).Fits identityInterp.cod Scalar
            (CallBounding growingEnv identityInterp τ) :=
        ⟨iff_of_true rfl rfl, hcall, Exp.fits_iff.2 ⟨false, rfl, by simp [Exp.ofTerm, Term.UsedAs, Term.Fits]⟩, trivial⟩
      refine ⟨false, rfl, ?_⟩
      cases strictly <;> simpa [Term.UsedAs, Term.Fits] using hterm
  gathered := by cases strictly <;> rfl
  rules := by
    intro p hp
    rw [(sidesAt_growing hp).1]
    exact instantiable_growing
  names := by
    intro sides b hsides hb
    have hs : sides = [growingSides] := by
      have hrun : (rulesAtPairs growingEnv.uniQuantRules [.ofTerm (.tupleVar 1 0)] none).mapM
          (sidesAt growingEnv ⟨[⟨false, 0, "i"⟩]⟩) = .ok [growingSides] := Outcome.eq_ok_of_toOption (by decide +kernel)
      exact Except.ok.inj (hsides.symm.trans hrun)
    obtain rfl := Except.ok.inj (hb.symm.trans (boundDomainRange_atMost strictly))
    subst hs
    refine ⟨fun t _ _ => ?_, ?_, ?_⟩
    · cases t <;> exact ⟨_, rfl⟩
    · unfold SortedList.Tied
      cases strictly <;> decide +kernel
    · cases strictly <;> simp [growingSides, bothSides, Conjunction.terms, atMostConj]
theorem satisfies_growing (strictly : Bool) : identityInterp.Satisfies growingEnv (atMostConj strictly) where
  declared := ⟨declared_naturalEnv.dom, declared_naturalEnv.cod⟩
  rules := by
    intro r hr
    obtain rfl := List.mem_singleton.1 hr
    rintro t ⟨c, hc, hadm, -⟩
    obtain rfl := List.mem_singleton.1 hc
    refine ⟨_, List.mem_singleton_self _, hadm, by simp, fun e he k => ?_⟩
    obtain rfl := List.mem_singleton.1 he
    cases k <;> simp [Exp.val, termsVal, Term.val, Interp.callVal, Interp.argTuple, argsVal, Exp.ofTerm, identityInterp]
  respects := by
    rintro t ⟨-, -, hineqs⟩
    have hnat : 0 ≤ valuation t 0 := by
      have h := hineqs (.mk .inequality [.tupleVar 1 0]) List.mem_cons_self 0
      simpa [Exp.val, termsVal, Term.val] using h
    have hmem : [valuation t 0] ∈ naturals.denote identityInterp := by
      refine ⟨_, List.mem_singleton_self _, ⟨rfl, fun i hi h => ?_⟩, by simp, fun e he k => ?_⟩
      · obtain rfl : i = 0 := Nat.lt_one_iff.1 hi
        cases h
      obtain rfl := List.mem_singleton.1 he
      cases k <;> simp [Exp.val, termsVal, Term.val, valuation]
      simpa [valuation] using hnat
    have hcall : identityInterp.Respects growingEnv (valuation t) "f" [.ofTerm (.tupleVar 1 0)] := by
      intro u hu
      obtain rfl : _ = u := Option.some.inj hu
      refine ⟨?_, ?_⟩
      · simpa [Interp.argTuple, argsVal, Exp.ofTerm, Exp.val, termsVal, Term.val, identityInterp] using hmem
      · simpa [Interp.indexVal, Interp.argTuple, argsVal, Exp.ofTerm, Exp.val, termsVal, Term.val, identityInterp] using hmem
    intro e he
    rcases List.mem_pair.1 he with rfl | rfl
    · exact ⟨trivial, trivial⟩
    · cases strictly
      · exact ⟨trivial, ⟨hcall, ⟨trivial, trivial⟩, trivial⟩, trivial⟩
      · exact ⟨trivial, ⟨hcall, ⟨trivial, trivial⟩, trivial⟩, trivial, trivial⟩

open Classical in
/-- Sets of points, with what is read for a text. -/
noncomputable def pointSets (read : String → PointSet AffinePoint) : Isl AffinePoint where
  isl_set := PointSet AffinePoint
  isl_set_read_from_str := read
  isl_set_gist set context := if context ⊆ set then Set.univ else set
  isl_set_plain_is_universe set := decide (set = Set.univ)
  isl_set_intersect set₁ set₂ := set₁ ∩ set₂
  isl_set_coalesce set := set
  isl_set_complement set := setᶜ
  isl_set_is_empty set := decide (set = ∅)
  isl_set_is_equal set₁ set₂ := decide (set₁ = set₂)
  points set := set

open Classical in
theorem exact_pointSets (read : String → PointSet AffinePoint) :
    (pointSets read).Exact (fun _ => True) read (fun _ => True) := by
  have hgist : ∀ set context : PointSet AffinePoint,
      (if context ⊆ set then Set.univ else set) ∩ context = set ∩ context := by
    intro set context
    split_ifs with h
    · rw [Set.univ_inter, Set.inter_eq_right.2 h]
    · rfl
  exact ⟨fun _ _ => ⟨trivial, rfl⟩, fun set context _ _ => ⟨trivial, hgist set context⟩, fun set _ h => of_decide_eq_true h,
    fun _ _ _ _ => ⟨trivial, rfl⟩, fun _ _ => ⟨trivial, rfl⟩, fun _ _ => ⟨trivial, rfl⟩⟩

section Rounds

variable {Point : Type} {isl : Isl Point} {parts : SrParts} {syms : String} {its : List (String × String)}

/-- Rounds that change nothing. -/
theorem instantiationRounds_fixed {set : isl.isl_set} (h : its.foldl (addInstantiation isl parts syms) set = set)
    (n : Nat) (old_set : isl.isl_set) : instantiationRounds isl parts syms its n set old_set = set := by
  induction n generalizing old_set with
  | zero => rfl
  | succ n ih =>
    unfold instantiationRounds
    dsimp only
    simp only [h, ih, ite_self]

/-- What the first round makes stays if a further one would change nothing. -/
theorem instantiationRounds_succ {set set' : isl.isl_set} (h : its.foldl (addInstantiation isl parts syms) set = set')
    (h' : its.foldl (addInstantiation isl parts syms) set' = set') (n : Nat) (old_set : isl.isl_set) :
    instantiationRounds isl parts syms its (n + 1) set old_set = set' := by
  unfold instantiationRounds
  dsimp only
  simp only [h, instantiationRounds_fixed h', ite_self]

end Rounds

open Classical in
/-- One instance that fires is added once. -/
theorem instantiationSet_pointSets {read : String → PointSet AffinePoint} {parts : SrParts} {syms p q : String}
    (h : read (islText parts syms parts.constraints) ⊆ read (islText parts syms p)) :
    instantiationSet (pointSets read) parts syms [(p, q)] =
      (read (islText parts syms parts.constraints) ∩ read (islText parts syms q) : PointSet AffinePoint) := by
  have hadd : ∀ set : PointSet AffinePoint, set ⊆ read (islText parts syms p) →
      addInstantiation (pointSets read) parts syms set (p, q) = (set ∩ read (islText parts syms q) : PointSet AffinePoint) := by
    intro set hset
    have huniverse : decide ((if set ⊆ read (islText parts syms p) then Set.univ else read (islText parts syms p)) =
        Set.univ) = true := decide_eq_true (if_pos hset)
    unfold addInstantiation
    exact if_pos huniverse
  have hsecond := hadd (read (islText parts syms parts.constraints) ∩ read (islText parts syms q))
    (Set.inter_subset_left.trans h)
  rw [Set.inter_assoc, Set.inter_self] at hsecond
  have hfirst : [(p, q)].foldl (addInstantiation (pointSets read) parts syms) (read (islText parts syms parts.constraints)) =
      (read (islText parts syms parts.constraints) ∩ read (islText parts syms q) : PointSet AffinePoint) := hadd _ h
  exact instantiationRounds_succ hfirst hsecond 1 _

/-- What is read for the texts of the run. -/
def readGrowing (strictly : Bool) (str : String) : PointSet AffinePoint :=
  let x := growingInput strictly
  if str = islText x.supSetParts x.syms x.supSetParts.constraints then affinePoints identityInterp [affineAtMost strictly]
  else if str = islText x.supSetParts x.syms "true" then
    affinePoints identityInterp [⟨[], [], ⟨[⟨false, 0, "i"⟩]⟩, 0⟩]
  else if str = islText x.supSetParts x.syms "-i + f___tv0_ >= 0" then affinePoints identityInterp [affineGrowing]
  else Set.univ

theorem readGrowing_eq (strictly : Bool) :
    readGrowing strictly (islText (growingInput strictly).supSetParts (growingInput strictly).syms
      (growingInput strictly).supSetParts.constraints) = affinePoints identityInterp [affineAtMost strictly] ∧
    readGrowing strictly (islText (growingInput strictly).supSetParts (growingInput strictly).syms "true") =
      affinePoints identityInterp [⟨[], [], ⟨[⟨false, 0, "i"⟩]⟩, 0⟩] ∧
    readGrowing strictly (islText (growingInput strictly).supSetParts (growingInput strictly).syms "-i + f___tv0_ >= 0") =
      affinePoints identityInterp [affineGrowing] := by
  refine ⟨if_pos rfl, (if_neg ?_).trans (if_pos rfl), (if_neg ?_).trans ((if_neg ?_).trans (if_pos rfl))⟩
  all_goals cases strictly <;> decide +kernel

theorem readsInput_growing (strictly : Bool) : ReadsInput (fun _ => True) (readGrowing strictly) identityInterp growingEnv
    (atMostConj strictly).tupleDecl (rulesAtPairs growingEnv.uniQuantRules [.ofTerm (.tupleVar 1 0)] none)
    (growingInput strictly) := by
  obtain ⟨h₁, h₂, h₃⟩ := readGrowing_eq strictly
  refine ⟨⟨trivial, h₁⟩, fun p hp sides it hsides hprinted => ?_⟩
  obtain rfl := Except.ok.inj ((sidesAt_growing hp).2.symm.trans hsides)
  have hleft : Set.printedSide growingEnv ⟨growingSides.1.arity, affineUnion none growingSides.1.conjunctions⟩ =
      .ok "true" := Outcome.eq_ok_of_toOption (by decide +kernel)
  have hright : Set.printedSide growingEnv ⟨growingSides.2.arity, affineUnion none growingSides.2.conjunctions⟩ =
      .ok "-i + f___tv0_ >= 0" := Outcome.eq_ok_of_toOption (by decide +kernel)
  have hconjs : affineUnion none growingSides.1.conjunctions = [⟨[], [], ⟨[⟨false, 0, "i"⟩]⟩, 0⟩] ∧
      affineUnion none growingSides.2.conjunctions = [affineGrowing] := by decide +kernel
  rw [← Except.ok.inj (hleft.symm.trans hprinted.1), ← Except.ok.inj (hright.symm.trans hprinted.2), hconjs.1, hconjs.2]
  exact ⟨⟨trivial, h₂⟩, trivial, h₃⟩

/-- `{ [i] : i - f___tv0_ = 0 }` -/
def hullConj : Conjunction :=
  ⟨[.mk .equality [.tupleVar 1 0, .symConst (-1) "f___tv0_"]], [], ⟨[⟨false, 0, "i"⟩]⟩, 0⟩

/-- `i - f(i) = 0` is added. -/
def solvedAtMost : Conjunction :=
  { atMostConj false with equalities := [.mk .equality [.tupleVar 1 0, .ufCall (-1) "f" [.ofTerm (.tupleVar 1 0)] none]] }

theorem holds_affineAtMost (strictly : Bool) {p : AffinePoint} (h : p ∈ affinePoints identityInterp [affineAtMost strictly])
    (h' : p ∈ affinePoints identityInterp [affineGrowing]) : p.1.length = 1 ∧ valuation p.1 0 = p.2 "f___tv0_" ∧
      strictly = false := by
  obtain ⟨c, hc, hadm, -, hineqs⟩ := h
  obtain rfl := List.mem_singleton.1 hc
  obtain ⟨c', hc', -, -, hineqs'⟩ := h'
  obtain rfl := List.mem_singleton.1 hc'
  have h₁ := hineqs _ (List.mem_cons_of_mem _ (List.mem_cons_of_mem _ List.mem_cons_self)) 0
  have h₂ := hineqs' _ List.mem_cons_self 0
  refine ⟨hadm.1, ?_⟩
  cases strictly <;> simp [Exp.val, termsVal, Term.val, Interp.withSymbols] at h₁ h₂ ⊢ <;> omega
theorem instantiationSet_growing (strictly : Bool) : instantiationSet (pointSets (readGrowing strictly))
    (growingInput strictly).supSetParts (growingInput strictly).syms (growingInput strictly).instantiations =
      (affinePoints identityInterp [affineAtMost strictly] ∩ affinePoints identityInterp [affineGrowing] :
        PointSet AffinePoint) := by
  obtain ⟨h₁, h₂, h₃⟩ := readGrowing_eq strictly
  rw [← h₁, ← h₃]
  refine instantiationSet_pointSets ?_
  rw [h₁, h₂]
  rintro p ⟨c, hc, hadm, -⟩
  obtain rfl := List.mem_singleton.1 hc
  exact ⟨_, List.mem_singleton_self _, hadm, by simp [Conjunction.Holds]⟩

open Classical in
theorem isEmpty_growing (strictly : Bool) : (pointSets (readGrowing strictly)).isl_set_is_empty
    (instantiationSet (pointSets (readGrowing strictly)) (growingInput strictly).supSetParts (growingInput strictly).syms
      (growingInput strictly).instantiations) = strictly := by
  have hdecide : ∀ set : PointSet AffinePoint, (pointSets (readGrowing strictly)).isl_set_is_empty set =
      decide (set = ∅) := fun _ => rfl
  rw [instantiationSet_growing]
  refine (hdecide _).trans ?_
  cases strictly with
  | true =>
    refine decide_eq_true (Set.eq_empty_of_forall_notMem fun p hp => ?_)
    obtain ⟨-, -, h⟩ := holds_affineAtMost true hp.1 hp.2
    cases h
  | false =>
    -- zero is there, with zero for the call
    have hmem : (([0], fun _ => 0) : AffinePoint) ∈
        affinePoints identityInterp [affineAtMost false] ∩ affinePoints identityInterp [affineGrowing] := by
      have hholds : ∀ c : Conjunction, c.tupleDecl = ⟨[⟨false, 0, "i"⟩]⟩ →
          c.Holds (identityInterp.withSymbols fun _ => 0) (valuation [0]) →
          (([0], fun _ => 0) : AffinePoint) ∈ affinePoints identityInterp [c] := fun c hd h =>
        ⟨c, List.mem_singleton_self c, ⟨by rw [hd]; rfl, by rw [hd]; decide⟩, h⟩
      refine ⟨hholds _ rfl ⟨by simp [affineAtMost], fun e he k => ?_⟩,
        hholds _ rfl ⟨by simp [affineGrowing], fun e he k => ?_⟩⟩
      · simp only [affineAtMost, List.mem_cons, List.not_mem_nil, or_false] at he
        rcases he with rfl | rfl | rfl <;> cases k <;>
          simp [Exp.val, termsVal, Term.val, Interp.withSymbols, valuation]
      · obtain rfl := List.mem_singleton.1 he
        cases k <;> simp [Exp.val, termsVal, Term.val, Interp.withSymbols, valuation]
    exact decide_eq_false fun h => Set.notMem_empty _ (h ▸ hmem)

/-- The rule and `i - f(i) >= 0` give `i - f(i) = 0`, which is added; with `i - f(i) - 1 >= 0` there is nothing left. -/
theorem detectUnsat_sound_growing :
    ((Set.mk 1 [atMostConj false]).detectUnsatOrFindEqualities (pointSets (readGrowing false))
        (fun _ => "[f___tv0_] -> \x7b [i] : i = f___tv0_ \x7d") (fun _ _ => .ok ⟨1, [hullConj]⟩) growingEnv none =
          .ok (some ⟨1, [solvedAtMost]⟩) ∧
      (Set.mk 1 [solvedAtMost]).denote identityInterp = (Set.mk 1 [atMostConj false]).denote identityInterp) ∧
    (Set.mk 1 [atMostConj true]).detectUnsatOrFindEqualities (pointSets (readGrowing true)) (fun _ => "")
        (fun _ _ => .error .nullPointer) growingEnv none = .ok none ∧
      (Set.mk 1 [atMostConj true]).denote identityInterp = ∅ := by
  have hempty : ∀ (strictly : Bool) (set : PointSet AffinePoint),
      (pointSets (readGrowing strictly)).isl_set_is_empty set = true → set = ∅ := fun strictly set h => of_decide_eq_true h
  have hsome : (Set.mk 1 [atMostConj false]).detectUnsatOrFindEqualities (pointSets (readGrowing false))
      (fun _ => "[f___tv0_] -> \x7b [i] : i = f___tv0_ \x7d") (fun _ _ => .ok ⟨1, [hullConj]⟩) growingEnv none =
        .ok (some ⟨1, [solvedAtMost]⟩) := by
    unfold Set.detectUnsatOrFindEqualities checkIslSet
    rw [islInput_atMost]
    refine Outcome.bind_eq_ok.2 ⟨_, rfl, ?_⟩
    dsimp only
    rw [isEmpty_growing]
    exact mapError_eq_ok.2 (Outcome.eq_ok_of_toOption (by decide +kernel))
  have hnone : (Set.mk 1 [atMostConj true]).detectUnsatOrFindEqualities (pointSets (readGrowing true)) (fun _ => "")
      (fun _ _ => .error .nullPointer) growingEnv none = .ok none := by
    unfold Set.detectUnsatOrFindEqualities checkIslSet
    rw [islInput_atMost]
    refine Outcome.bind_eq_ok.2 ⟨_, rfl, ?_⟩
    dsimp only
    rw [isEmpty_growing]
    rfl
  have hs := detectUnsat_sound growingEnv identityInterp _ _ _ _ _ _ none _ _ _ _ _ (detectable_atMost false)
    (satisfies_growing false) (islInput_atMost false) (exact_pointSets _) (readsInput_growing false)
    (fun set _ h => hempty false set h) (fun _ => ⟨1, hullConj, rfl, ⟨⟨by decide, by decide⟩,
      by simp [hullConj, Conjunction.terms, IsLeaf, Term.isTupleExp, Term.isUFCall]⟩, rfl, rfl, fun p hp => by
      rw [instantiationSet_growing] at hp
      obtain ⟨hlen, heq, -⟩ := holds_affineAtMost false hp.1 hp.2
      refine ⟨⟨hlen, fun i hi h => ?_⟩, fun e he k => ?_, by simp [hullConj]⟩
      · obtain rfl : i = 0 := Nat.lt_one_iff.1 hi
        cases h
      obtain rfl := List.mem_singleton.1 he
      cases k <;> simp [Exp.val, termsVal, Term.val, Interp.withSymbols, heq]⟩) hsome
  have hn := detectUnsat_sound growingEnv identityInterp _ _ _ _ _ _ none _ _ _ _ _ (detectable_atMost true)
    (satisfies_growing true) (islInput_atMost true) (exact_pointSets _) (readsInput_growing true)
    (fun set _ h => hempty true set h) (fun h => by
      rw [isEmpty_growing] at h
      cases h) hnone
  exact ⟨⟨hsome, (hs.2 _ rfl).2⟩, hnone, hn.1 rfl⟩

end IEGen
