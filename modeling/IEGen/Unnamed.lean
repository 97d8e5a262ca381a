import IEGen.Copies

/-!
# Names in declarations

The names of a declaration are printed, and used while a text is parsed. Adding conjunctions, cleaning up, copying and
comparing do the same to the conjunctions without them.
-/

namespace IEGen

open SortedList (Tied build insertUnique)

/-- The element without its name. -/
def TupleElem.unnamed (e : TupleElem) : TupleElem := { e with varString := "" }

/-- The declaration without names. -/
def TupleDecl.unnamed (d : TupleDecl) : TupleDecl := ⟨d.elems.map TupleElem.unnamed⟩

/-- The conjunction without the names of its declaration. -/
def Conjunction.unnamed (c : Conjunction) : Conjunction := { c with tupleDecl := c.tupleDecl.unnamed }

/-- The set without the names of its declarations. -/
def Set.unnamed (s : Set) : Set := { s with conjunctions := s.conjunctions.map Conjunction.unnamed }

/-- The relation without the names of its declarations. -/
def Relation.unnamed (r : Relation) : Relation := { r with conjunctions := r.conjunctions.map Conjunction.unnamed }

/-! ## Declarations and conjunctions -/

namespace TupleDecl

theorem size_unnamed (d : TupleDecl) : d.unnamed.size = d.size := List.length_map _

theorem elemIsConst_unnamed (d : TupleDecl) (i : Nat) : d.unnamed.elemIsConst i = d.elemIsConst i := by
  simp only [elemIsConst, elem, unnamed, List.getD_eq_getElem?_getD, List.getElem?_map]
  cases d.elems[i]? <;> rfl

theorem elemConstVal_unnamed (d : TupleDecl) (i : Nat) : d.unnamed.elemConstVal i = d.elemConstVal i := by
  simp only [elemConstVal, elem, unnamed, List.getD_eq_getElem?_getD, List.getElem?_map]
  cases d.elems[i]? <;> rfl

theorem lt_unnamed (d d' : TupleDecl) : d.unnamed.lt d'.unnamed = d.lt d' :=
  SortedList.sizeLexLt_map (fun _ _ => rfl) d.elems d'.elems

theorem admits_unnamed (d : TupleDecl) (t : List Int) : d.unnamed.Admits t ↔ d.Admits t := by
  unfold Admits
  simp only [size_unnamed, elemIsConst_unnamed, elemConstVal_unnamed]

end TupleDecl

namespace Conjunction

theorem lt_unnamed (c d : Conjunction) : c.unnamed.lt d.unnamed = c.lt d := by
  simp only [lt, unnamed, TupleDecl.lt_unnamed]
  rfl

theorem denote_unnamed (I : Interp) (c : Conjunction) : c.unnamed.denote I = c.denote I := by
  ext t
  exact and_congr_left fun _ => c.tupleDecl.admits_unnamed t

theorem addEquality_unnamed (c : Conjunction) (e : Exp) : c.unnamed.addEquality e = (c.addEquality e).unnamed := by
  simp only [addEquality]
  split_ifs <;> rfl

theorem addInequality_unnamed (c : Conjunction) (e : Exp) :
    c.unnamed.addInequality e = (c.addInequality e).unnamed := by
  simp only [addInequality]
  split_ifs <;> rfl

theorem foldl_addEquality_unnamed (es : List Exp) (c : Conjunction) :
    es.foldl addEquality c.unnamed = (es.foldl addEquality c).unnamed :=
  List.foldl_hom unnamed fun c e => addEquality_unnamed c e

theorem foldl_addInequality_unnamed (es : List Exp) (c : Conjunction) :
    es.foldl addInequality c.unnamed = (es.foldl addInequality c).unnamed :=
  List.foldl_hom unnamed fun c e => addInequality_unnamed c e

theorem cleanUp_unnamed (env : Environment) (c : Conjunction) :
    c.unnamed.cleanUp env = (c.cleanUp env).map unnamed := by
  unfold cleanUp
  show (c.equalities.mapM _ >>= _) = _
  cases c.equalities.mapM fun e => e.normalizeForEquality.collapseNestedInvertibleFunctions env with
  | error x => rfl
  | ok es =>
    show (c.inequalities.mapM _ >>= _) = Except.map unnamed (c.inequalities.mapM _ >>= _)
    cases c.inequalities.mapM fun e => e.collapseNestedInvertibleFunctions env with
    | error x => rfl
    | ok is =>
      have heqs := foldl_addEquality_unnamed (es.filter fun e => !e.equalsZero) { c with equalities := [] }
      have hineqs := congrArg (fun d : Conjunction => { d with inequalities := [] }) heqs
      refine congrArg Except.ok (Eq.trans ?_ (foldl_addInequality_unnamed (is.filter fun e => !e.equalsZero) _))
      exact congrArg (List.foldl addInequality · (is.filter fun e => !e.equalsZero)) hineqs

end Conjunction

/-! ## Unions -/

theorem denoteUnion_unnamed (I : Interp) (cs : List Conjunction) :
    denoteUnion I (cs.map Conjunction.unnamed) = denoteUnion I cs := by
  ext t
  simp only [denoteUnion, Set.mem_ofPred_eq, List.mem_map, exists_exists_and_eq_and, Conjunction.denote_unnamed]

theorem dropPlaceholder_unnamed : ∀ cs : List Conjunction,
    dropPlaceholder (cs.map Conjunction.unnamed) = (dropPlaceholder cs).map Conjunction.unnamed
  | [] | _ :: _ :: _ => rfl
  | [c] => by
    cases h : c.hasConstraints with
    | false => simp only [List.map_cons, List.map_nil, dropPlaceholder, h, show c.unnamed.hasConstraints = false from h]; rfl
    | true => simp only [List.map_cons, List.map_nil, dropPlaceholder, h, show c.unnamed.hasConstraints = true from h]; rfl

theorem addConjunction_unnamed (cs : List Conjunction) (c : Conjunction) :
    addConjunction (cs.map Conjunction.unnamed) c.unnamed = (addConjunction cs c).map Conjunction.unnamed := by
  unfold addConjunction
  rw [dropPlaceholder_unnamed]
  exact SortedList.insertUnique_map Conjunction.lt_unnamed c _

theorem foldl_addConjunction_unnamed (cs init : List Conjunction) :
    (cs.map Conjunction.unnamed).foldl addConjunction (init.map Conjunction.unnamed) =
      (cs.foldl addConjunction init).map Conjunction.unnamed := by
  rw [List.foldl_map]
  exact List.foldl_hom (List.map Conjunction.unnamed) fun cs c => addConjunction_unnamed cs c

theorem cleanUp_unnamed (env : Environment) (cs : List Conjunction) :
    cleanUp env (cs.map Conjunction.unnamed) = (cleanUp env cs).map (List.map Conjunction.unnamed) := by
  unfold cleanUp
  rw [Outcome.mapM_map (Conjunction.cleanUp_unnamed env)]
  cases cs.mapM (Conjunction.cleanUp env) with
  | error e => rfl
  | ok ds =>
    refine congrArg Except.ok ?_
    rw [List.filter_map]
    refine (List.map_insertionSort _ _ Conjunction.unnamed _ fun c _ d _ => ?_).symm
    rw [Conjunction.lt_unnamed]

theorem copyConjunctions_unnamed (env : Environment) (cs : List Conjunction) :
    copyConjunctions env (cs.map Conjunction.unnamed) = (copyConjunctions env cs).map (List.map Conjunction.unnamed) := by
  unfold copyConjunctions
  rw [← cleanUp_unnamed, ← foldl_addConjunction_unnamed]
  rfl

theorem conjunctionsLt_unnamed (cs ds : List Conjunction) :
    conjunctionsLt (cs.map Conjunction.unnamed) (ds.map Conjunction.unnamed) = conjunctionsLt cs ds :=
  SortedList.sizeLexLt_map Conjunction.lt_unnamed cs ds

namespace Set

variable {env : Environment}

theorem denote_unnamed (I : Interp) (s : Set) : s.unnamed.denote I = s.denote I := denoteUnion_unnamed I s.conjunctions

theorem lt_unnamed (s t : Set) : s.unnamed.lt env t.unnamed = s.lt env t := by
  unfold lt unnamed
  rw [copyConjunctions_unnamed, copyConjunctions_unnamed]
  split_ifs
  · rfl
  · rfl
  · cases copyConjunctions env s.conjunctions with
    | error e => rfl
    | ok cs =>
      cases copyConjunctions env t.conjunctions with
      | error e => rfl
      | ok ds => exact congrArg Except.ok (conjunctionsLt_unnamed cs ds)

/-- A set whose conjunctions can be copied equals itself. -/
theorem eq_self {s : Set} {cs : List Conjunction} (h : copyConjunctions env s.conjunctions = .ok cs) :
    s.eq env s = .ok true := by
  have hirrefl : conjunctionsLt cs cs = false := (strictWeak_conjunctionLt.sizeLexLt.tied_refl cs).1
  unfold eq
  rw [lt_eq h h rfl, hirrefl]
  rfl

end Set

namespace Relation

variable {env : Environment}

theorem denote_unnamed (I : Interp) (r : Relation) : r.unnamed.denote I = r.denote I :=
  denoteUnion_unnamed I r.conjunctions

theorem addConjunction_unnamed (n : Nat) (cs : List Conjunction) (c : Conjunction) :
    addConjunction n (cs.map Conjunction.unnamed) c.unnamed =
      (addConjunction n cs c).map (List.map Conjunction.unnamed) := by
  unfold addConjunction
  rw [IEGen.addConjunction_unnamed]
  have hn : c.unnamed.inArity = c.inArity := rfl
  rw [hn]
  split_ifs <;> rfl

theorem lt_unnamed (r q : Relation) : r.unnamed.lt env q.unnamed = r.lt env q := by
  unfold lt unnamed
  rw [copyConjunctions_unnamed, copyConjunctions_unnamed]
  split_ifs
  · rfl
  · rfl
  · rfl
  · rfl
  · cases copyConjunctions env r.conjunctions with
    | error e => rfl
    | ok cs =>
      cases copyConjunctions env q.conjunctions with
      | error e => rfl
      | ok ds => exact congrArg Except.ok (conjunctionsLt_unnamed cs ds)

/-- A relation whose conjunctions can be copied equals itself. -/
theorem eq_self {r : Relation} {cs : List Conjunction} (h : copyConjunctions env r.conjunctions = .ok cs) :
    r.eq env r = .ok true := by
  have hirrefl : conjunctionsLt cs cs = false := (strictWeak_conjunctionLt.sizeLexLt.tied_refl cs).1
  unfold eq
  rw [lt_eq h h rfl rfl, hirrefl]
  rfl

end Relation

end IEGen
