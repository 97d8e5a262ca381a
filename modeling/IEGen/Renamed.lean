import IEGen.Weights
import IEGen.Notations
import IEGen.Unnamed

/-!
# Renamed tuple variables

A renaming gives the tuple variables of a body other names, in the declaration and in the constraints. The names are
used until `substituteTupleDecl` puts tuple variables in their place; the order of the terms depends on them until then.
So does what is left of calls that merge though they have different indices (`ExpTree.SameIndices`). A tuple of expressions
that is a whole argument of a call (`ExpTree.flat`) is seen only with its text.
-/

namespace IEGen

open SortedList (Tied Sorted build insertUnique)

/-! ## Renaming -/

section Rename

variable (g : Ident → Ident)

mutual
/-- The expression with other names; functions keep theirs. -/
def ExpTree.rename : ExpTree → ExpTree
  | .int value => .int value
  | .id name => .id (g name)
  | .func name args index => .func name args.rename index
  | .paren list => .paren list.rename
  | .unop e => .unop e.rename
  | .plus e e' => .plus e.rename e'.rename
  | .dash e e' => .dash e.rename e'.rename
  | .intMult n e => .intMult n e.rename

def ExpTrees.rename : ExpTrees → ExpTrees
  | .one e => .one e.rename
  | .cons e list => .cons e.rename list.rename
end

def ConstraintTree.rename : ConstraintTree → ConstraintTree
  | .eq e e' => .eq (e.rename g) (e'.rename g)
  | .lt e e' => .lt (e.rename g) (e'.rename g)
  | .lte e e' => .lte (e.rename g) (e'.rename g)
  | .gt e e' => .gt (e.rename g) (e'.rename g)
  | .gte e e' => .gte (e.rename g) (e'.rename g)
  | .rangeLteLt e e' e'' => .rangeLteLt (e.rename g) (e'.rename g) (e''.rename g)
  | .rangeLtLte e e' e'' => .rangeLtLte (e.rename g) (e'.rename g) (e''.rename g)
  | .rangeLteLte e e' e'' => .rangeLteLte (e.rename g) (e'.rename g) (e''.rename g)
  | .rangeLtLt e e' e'' => .rangeLtLt (e.rename g) (e'.rename g) (e''.rename g)

def TupleElemTree.rename : TupleElemTree → TupleElemTree
  | .var name => .var (g name)
  | .const value => .const value

end Rename

/-- The variables of a tuple. -/
def tupleVars (es : List TupleElemTree) : List Ident :=
  es.filterMap fun
    | .var name => some name
    | .const _ => none

/-- The renaming of the tuple variables, for all names of a body. -/
def renameVars (vars : List Ident) (g : Ident → Ident) (name : Ident) : Ident := if name ∈ vars then g name else name

/-- The body with other tuple variables. -/
def SetBody.rename (g : Ident → Ident) (b : SetBody) : SetBody :=
  ⟨b.tuple.map (TupleElemTree.rename g), b.constraints.map (ConstraintTree.rename (renameVars (tupleVars b.tuple) g))⟩

/-- The body with other tuple variables. -/
def RelBody.rename (g : Ident → Ident) (b : RelBody) : RelBody :=
  ⟨b.inTuple.map (TupleElemTree.rename g), b.outTuple.map (TupleElemTree.rename g),
    b.constraints.map (ConstraintTree.rename (renameVars (tupleVars (b.inTuple ++ b.outTuple)) g))⟩

mutual
/-- Tuples of two or more expressions are whole arguments of calls, or elements of such tuples; `arg` says whether the
expression is an argument. -/
def ExpTree.flat : Bool → ExpTree → Bool
  | _, .int _ | _, .id _ => true
  | _, .func _ args _ => args.flat
  | arg, .paren (.one e) => e.flat arg
  | arg, .paren (.cons e list) => arg && (e.flat true && list.flat)
  | _, .unop e | _, .intMult _ e => e.flat false
  | _, .plus e e' | _, .dash e e' => e.flat false && e'.flat false

def ExpTrees.flat : ExpTrees → Bool
  | .one e => e.flat true
  | .cons e list => e.flat true && list.flat
end

/-- Tuples of two or more expressions are whole arguments of calls, or elements of such tuples. -/
def ConstraintTree.flat (k : ConstraintTree) : Bool := k.exps.all (ExpTree.flat false)

section Summands

variable (m : SubMap)

/-- The calls among the terms of an expression, with the tuple variables in their arguments. -/
def ExpTree.summands : ExpTree → List Term
  | .int _ | .id _ => []
  | .func name args index => [.ufCall 1 name (argsSubstitute m args.build) index]
  | .paren (.one e) => e.summands
  | .paren (.cons _ _) => []
  | .unop e | .intMult _ e => e.summands
  | .plus e e' | .dash e e' => e.summands ++ e'.summands

mutual
/-- In the arguments of calls no sum has one call both without an index and with the index `0`. -/
def ExpTree.SameIndices : ExpTree → Prop
  | .int _ | .id _ => True
  | .func _ args _ => args.SameIndices
  | .paren (.one e) => e.SameIndices
  | .paren (.cons e list) => (SameIndex (e.summands m) ∧ e.SameIndices) ∧ list.SameIndices
  | .unop e | .intMult _ e => e.SameIndices
  | .plus e e' | .dash e e' => e.SameIndices ∧ e'.SameIndices

def ExpTrees.SameIndices : ExpTrees → Prop
  | .one e => SameIndex (e.summands m) ∧ e.SameIndices
  | .cons e list => (SameIndex (e.summands m) ∧ e.SameIndices) ∧ list.SameIndices
end

/-- The expressions that a constraint compares. -/
def ConstraintTree.compared : ConstraintTree → List (ExpTree × ExpTree)
  | .eq e e' | .lt e e' | .lte e e' | .gt e e' | .gte e e' => [(e, e')]
  | .rangeLteLt e e' e'' | .rangeLtLte e e' e'' | .rangeLteLte e e' e'' | .rangeLtLt e e' e'' => [(e, e'), (e', e'')]

/-- No sum has one call both without an index and with the index `0`; the sides of a comparison are one sum. -/
structure ConstraintTree.SameIndices (k : ConstraintTree) : Prop where
  compared : ∀ p ∈ k.compared, SameIndex (p.1.summands m ++ p.2.summands m)
  nested : ∀ e ∈ k.exps, e.SameIndices m

end Summands

mutual
/-- The names of an expression, without those of functions. -/
def ExpTree.names : ExpTree → List Ident
  | .int _ => []
  | .id name => [name]
  | .func _ args _ => args.names
  | .paren list => list.names
  | .unop e | .intMult _ e => e.names
  | .plus e e' | .dash e e' => e.names ++ e'.names

def ExpTrees.names : ExpTrees → List Ident
  | .one e => e.names
  | .cons e list => e.names ++ list.names
end

def ConstraintTree.names (k : ConstraintTree) : List Ident := k.exps.flatMap ExpTree.names

/-! ## Expressions with other names -/

/-- A name under one map and a name under another are put in the place of by the same. -/
def SameName (m m' : SubMap) (x y : String) : Prop :=
  m.subExp (.symConst 1 x) = m'.subExp (.symConst 1 y) ∧ (m.subExp (.symConst 1 x) = none → x = y)

/-- Terms of a body, whose calls are in the list when the names are replaced. -/
def WrittenIn (m : SubMap) (l : List Term) (e : Exp) : Prop :=
  ∀ t ∈ e.terms, t.Written ∧ (t.substituteInside m).CallIn l

section Written

variable {m : SubMap} {w : Term → Int} {l : List Term} {e e' : Exp}

theorem writtenIn_ignoresCoefficient : IgnoresCoefficient (fun t => t.Written ∧ (t.substituteInside m).CallIn l) := by
  intro c t h
  refine ⟨written_ignoresCoefficient c t h.1, ?_⟩
  rw [substituteInside_setCoefficient]
  exact h.2.setCoefficient c

namespace WrittenIn

theorem noTuples (h : WrittenIn m l e) : NoTuples e.terms := fun t ht => (h t ht).1.noTuple

theorem addExp (h : WrittenIn m l e) (h' : WrittenIn m l e') : WrittenIn m l (e.addExp e') := by
  unfold WrittenIn
  rw [terms_addExp_noTuples h'.noTuples]
  exact forall_foldl_addOne writtenIn_ignoresCoefficient h' h

theorem addTerm (h : WrittenIn m l e) {t : Term} (ht : t.Written ∧ (t.substituteInside m).CallIn l) :
    WrittenIn m l (e.addTerm t) := by
  unfold WrittenIn
  rw [terms_addTerm_noTuple ht.1.noTuple]
  exact forall_addOne writtenIn_ignoresCoefficient ht h

theorem multiplyBy (h : WrittenIn m l e) (k : Int) : WrittenIn m l (e.multiplyBy k) := by
  intro t ht
  obtain ⟨u, hu, rfl⟩ := List.mem_map.1 ht
  exact writtenIn_ignoresCoefficient _ u (h u hu)

theorem weigh_addExp (hm : m.OnNames) (hw : Respects (fun _ => True) w) (h : WrittenIn m l e) (h' : WrittenIn m l e') :
    weigh (m.weight w) (e.addExp e').terms = weigh (m.weight w) e.terms + weigh (m.weight w) e'.terms := by
  rw [terms_addExp_noTuples h'.noTuples]
  exact weigh_foldl_addOne (respects_weight hm hw) written_ignoresCoefficient (fun t ht => (h' t ht).1)
    fun t ht => (h t ht).1

theorem weigh_addTerm (hm : m.OnNames) (hw : Respects (fun _ => True) w) (h : WrittenIn m l e) {t : Term}
    (ht : t.Written ∧ (t.substituteInside m).CallIn l) :
    weigh (m.weight w) (e.addTerm t).terms = weigh (m.weight w) e.terms + t.coefficient * m.weight w t := by
  rw [terms_addTerm_noTuple ht.1.noTuple]
  exact weigh_addOne (respects_weight hm hw) written_ignoresCoefficient (fun t ht => (h t ht).1) ht.1

theorem weigh_multiplyBy (hm : m.OnNames) (hw : Respects (fun _ => True) w) (h : WrittenIn m l e) (k : Int) :
    weigh (m.weight w) (e.multiplyBy k).terms = k * weigh (m.weight w) e.terms :=
  IEGen.weigh_multiplyBy (respects_weight hm hw) written_ignoresCoefficient (fun t ht => (h t ht).1) k

end WrittenIn

end Written

/-- Expressions that are the same once the names are replaced: they have the same weights then. -/
structure AlikeExps (m m' : SubMap) (l : List Term) (e e' : Exp) : Prop where
  expType : e.expType = e'.expType
  written : WrittenIn m l e
  written' : WrittenIn m' l e'
  weigh_eq : ∀ w, Respects (fun _ => True) w → weigh (m.weight w) e.terms = weigh (m'.weight w) e'.terms

/-- Arguments that are the same once the names are replaced. -/
structure AlikeArgs (m m' : SubMap) (es es' : List Exp) : Prop where
  legible : argsLegible es = true
  legible' : argsLegible es' = true
  typed : argsTyped es
  typed' : argsTyped es'
  substitute_eq : argsSubstitute m es = argsSubstitute m' es'

/-- Tuples of expressions that are the same once the names are replaced. -/
def AlikeTuples (m m' : SubMap) (e e' : Exp) : Prop :=
  ∃ es es', e = .withTerm (.tupleExp 1 es) ∧ e' = .withTerm (.tupleExp 1 es') ∧ AlikeArgs m m' es es'

section Alike

variable {m m' : SubMap} {l : List Term} (hm : m.OnNames) (hm' : m'.OnNames)

namespace AlikeExps

variable {e e' d d' : Exp}

theorem setEquality (h : AlikeExps m m' l e e') : AlikeExps m m' l e.setEquality e'.setEquality :=
  ⟨rfl, h.written, h.written', h.weigh_eq⟩

theorem setInequality (h : AlikeExps m m' l e e') : AlikeExps m m' l e.setInequality e'.setInequality :=
  ⟨rfl, h.written, h.written', h.weigh_eq⟩

theorem single (h : AlikeExps m m' l e e') (hk : e.expType = .expression) :
    (e.legible = true ∧ e.Typed) ∧ e'.legible = true ∧ e'.Typed := by
  refine ⟨⟨Exp.legible_iff.2 fun t ht => (h.written t ht).1.legible, Exp.typed_iff.2 ⟨hk, .inl h.written.noTuples, ?_⟩⟩,
    Exp.legible_iff.2 fun t ht => (h.written' t ht).1.legible,
    Exp.typed_iff.2 ⟨h.expType ▸ hk, .inl h.written'.noTuples, ?_⟩⟩
  · exact fun t ht => (h.written t ht).1.typed
  · exact fun t ht => (h.written' t ht).1.typed

include hm hm'

theorem addExp (h : AlikeExps m m' l e e') (h' : AlikeExps m m' l d d') :
    AlikeExps m m' l (e.addExp d) (e'.addExp d') := by
  refine ⟨h.expType, h.written.addExp h'.written, h.written'.addExp h'.written', fun w hw => ?_⟩
  rw [h.written.weigh_addExp hm hw h'.written, h.written'.weigh_addExp hm' hw h'.written', h.weigh_eq w hw, h'.weigh_eq w hw]

theorem multiplyBy (h : AlikeExps m m' l e e') (k : Int) : AlikeExps m m' l (e.multiplyBy k) (e'.multiplyBy k) := by
  refine ⟨h.expType, h.written.multiplyBy k, h.written'.multiplyBy k, fun w hw => ?_⟩
  rw [h.written.weigh_multiplyBy hm hw, h.written'.weigh_multiplyBy hm' hw, h.weigh_eq w hw]

theorem addTerm (h : AlikeExps m m' l e e') {t t' : Term} (ht : t.Written ∧ (t.substituteInside m).CallIn l)
    (ht' : t'.Written ∧ (t'.substituteInside m').CallIn l)
    (hk : t.coefficient = t'.coefficient) (hw : ∀ w, Respects (fun _ => True) w → m.weight w t = m'.weight w t') :
    AlikeExps m m' l (e.addTerm t) (e'.addTerm t') := by
  refine ⟨h.expType, h.written.addTerm ht, h.written'.addTerm ht', fun w hres => ?_⟩
  rw [h.written.weigh_addTerm hm hres ht, h.written'.weigh_addTerm hm' hres ht', h.weigh_eq w hres, hk, hw w hres]

theorem withTerm {t t' : Term} (ht : t.Written ∧ (t.substituteInside m).CallIn l)
    (ht' : t'.Written ∧ (t'.substituteInside m').CallIn l)
    (hk : t.coefficient = t'.coefficient) (hw : ∀ w, Respects (fun _ => True) w → m.weight w t = m'.weight w t') :
    AlikeExps m m' l (.withTerm t) (.withTerm t') := by
  have hnil : AlikeExps m m' l (.mk .expression []) (.mk .expression []) :=
    ⟨rfl, by simp [WrittenIn], by simp [WrittenIn], fun _ _ => rfl⟩
  exact addTerm hm hm' hnil ht ht' hk hw

/-- After the names are replaced the expressions are equal. -/
theorem substitute_eq (hl : SameIndex l) (h : AlikeExps m m' l e e') : e.substitute m = e'.substitute m' :=
  substitute_eq_of_weigh hl hm hm' h.expType (fun t ht => (h.written t ht).1) (fun t ht => (h.written' t ht).1)
    (fun t ht => (h.written t ht).2) (fun t ht => (h.written' t ht).2) h.weigh_eq

end AlikeExps

theorem weight_symConst {w : Term → Int} {x y : String} (h : SameName m m' x y) :
    m.weight w (.symConst 1 x) = m'.weight w (.symConst 1 y) := by
  unfold SubMap.weight
  rw [← h.1]
  cases hsub : m.subExp (.symConst 1 x) with
  | none => rw [h.2 hsub]; rfl
  | some sub => rfl

variable {g : Ident → Ident}
include hm hm'

omit hm hm' in
theorem AlikeArgs.nil : AlikeArgs m m' [] [] := ⟨rfl, rfl, trivial, trivial, rfl⟩

/-- An argument is a sum or a tuple. -/
theorem AlikeArgs.cons {e e' : Exp} {es es' : List Exp} (hl : SameIndex l)
    (h : (AlikeExps m m' l e e' ∧ e.expType = .expression) ∨ AlikeTuples m m' e e') (hes : AlikeArgs m m' es es') :
    AlikeArgs m m' (e :: es) (e' :: es') := by
  obtain ⟨⟨hr, ht⟩, ⟨hr', ht'⟩, heq⟩ : (e.legible = true ∧ e.Typed) ∧ (e'.legible = true ∧ e'.Typed) ∧
      e.substitute m = e'.substitute m' := by
    rcases h with ⟨h, hk⟩ | ⟨ds, ds', rfl, rfl, hds⟩
    · exact ⟨(h.single hk).1, (h.single hk).2, h.substitute_eq hm hm' hl⟩
    · have hterms : ∀ xs : List Exp, Exp.withTerm (.tupleExp 1 xs) = .mk .expression [.tupleExp 1 xs] := by
        intro xs
        rw [← Exp.mk_expType_terms (.withTerm (.tupleExp 1 xs))]
        exact congrArg _ (terms_addTerm_empty (t := .tupleExp 1 xs) one_ne_zero)
      have hsub : ∀ {n : SubMap} (hn : n.OnNames) (xs : List Exp), (Exp.withTerm (.tupleExp 1 xs)).substitute n =
          .mk .expression [.tupleExp 1 (argsSubstitute n xs)] := by
        intro n hn xs
        rw [hterms, ← Exp.mk_expType_terms (Exp.substitute n _), terms_substitute_tupleExp hn one_ne_zero,
          expType_substitute]
        rfl
      rw [hsub hm, hsub hm', hds.substitute_eq, hterms, hterms]
      simp [Exp.legible, termsLegible, Term.legible, hds.legible, hds.legible', Exp.Typed, termsTyped, Term.Typed, hds.typed,
        hds.typed', Lone]
  refine ⟨?_, ?_, ⟨ht, hes.typed⟩, ⟨ht', hes.typed'⟩, ?_⟩
  · simp only [argsLegible, hr, hes.legible, Bool.and_self]
  · simp only [argsLegible, hr', hes.legible', Bool.and_self]
  · simp only [argsSubstitute, heq, hes.substitute_eq]

mutual
/-- An expression and the renamed one are the same once the names are replaced: as sums, or as tuples. -/
theorem ExpTree.alike_build {l : List Term} : ∀ {arg : Bool} {e : ExpTree}, e.flat arg = true → (∀ t ∈ e.summands m, t ∈ l) →
    e.SameIndices m → (∀ x ∈ e.names, SameName m m' x (g x)) →
    (AlikeExps m m' l e.build (e.rename g).build ∧ e.build.expType = .expression) ∨
      (arg = true ∧ AlikeTuples m m' e.build (e.rename g).build)
  | _, .int value, _, _, _, _ => by
    refine .inl ⟨AlikeExps.withTerm hm hm' ⟨⟨rfl, rfl, trivial⟩, fun h => by cases h⟩
      ⟨⟨rfl, rfl, trivial⟩, fun h => by cases h⟩ rfl fun w hw => ?_, rfl⟩
    rw [hm.weight_eq (by simp), hm'.weight_eq (by simp)]
    rfl
  | _, .id name, _, _, _, hn => by
    refine .inl ⟨AlikeExps.withTerm hm hm' ⟨⟨rfl, isName_of_isIdent name.2, trivial⟩, fun h => by cases h⟩
      ⟨⟨rfl, isName_of_isIdent (g name).2, trivial⟩, fun h => by cases h⟩ rfl fun w hw => ?_, rfl⟩
    exact weight_symConst (hn name (by simp [ExpTree.names]))
  | _, .func name args index, hf, hc, hs, hn => by
    have hargs : AlikeArgs m m' args.build (args.rename g).build := ExpTrees.alike_build hf hs hn
    have hcall := hc _ (List.mem_singleton_self _)
    have hname := isName_of_isIdent name.2
    refine .inl ⟨AlikeExps.withTerm hm hm' ⟨⟨rfl, ?_, hargs.typed⟩, fun _ => hcall⟩
      ⟨⟨rfl, ?_, hargs.typed'⟩, fun _ => ?_⟩ rfl fun w hw => ?_, rfl⟩
    · simp only [Term.legible, hname, hargs.legible, Bool.and_self]
    · simp only [Term.legible, hname, hargs.legible', Bool.and_self]
    · rw [hargs.substitute_eq] at hcall
      exact hcall
    · rw [hm.weight_eq (by simp), hm'.weight_eq (by simp), Term.substituteInside, Term.substituteInside, hargs.substitute_eq]
  | _, .paren (.one e), hf, hc, hs, hn => by
    simp only [ExpTree.build, ExpTree.rename, ExpTrees.rename]
    exact ExpTree.alike_build (e := e) hf hc hs hn
  | _, .paren (.cons e list), hf, _, hs, hn => by
    simp only [ExpTree.flat, Bool.and_eq_true] at hf
    simp only [ExpTree.names, ExpTrees.names, List.forall_mem_append] at hn
    have hhead := (ExpTree.alike_build (e := e) hf.2.1 (fun _ h => h) hs.1.2 hn.1).imp_right And.right
    have htail : AlikeArgs m m' list.build (list.rename g).build := ExpTrees.alike_build hf.2.2 hs.2 hn.2
    exact .inr ⟨hf.1, _, _, rfl, rfl, .cons hm hm' hs.1.1 hhead htail⟩
  | _, .unop e, hf, hc, hs, hn => by
    rcases ExpTree.alike_build (e := e) hf hc hs hn with ⟨h, hk⟩ | ⟨h, -⟩
    · exact .inl ⟨h.multiplyBy hm hm' (-1), hk⟩
    · cases h
  | _, .intMult n e, hf, hc, hs, hn => by
    rcases ExpTree.alike_build (e := e) hf hc hs hn with ⟨h, hk⟩ | ⟨h, -⟩
    · exact .inl ⟨h.multiplyBy hm hm' n, hk⟩
    · cases h
  | _, .plus e e', hf, hc, hs, hn => by
    simp only [ExpTree.flat, Bool.and_eq_true] at hf
    simp only [ExpTree.summands, ExpTree.names, List.forall_mem_append] at hc hn
    rcases ExpTree.alike_build (e := e) hf.1 hc.1 hs.1 hn.1, ExpTree.alike_build (e := e') hf.2 hc.2 hs.2 hn.2 with
      ⟨⟨h, hk⟩ | ⟨h, -⟩, ⟨h', -⟩ | ⟨h', -⟩⟩
    · exact .inl ⟨h.addExp hm hm' h', hk⟩
    · cases h'
    · cases h
    · cases h
  | _, .dash e e', hf, hc, hs, hn => by
    simp only [ExpTree.flat, Bool.and_eq_true] at hf
    simp only [ExpTree.summands, ExpTree.names, List.forall_mem_append] at hc hn
    rcases ExpTree.alike_build (e := e) hf.1 hc.1 hs.1 hn.1, ExpTree.alike_build (e := e') hf.2 hc.2 hs.2 hn.2 with
      ⟨⟨h, hk⟩ | ⟨h, -⟩, ⟨h', -⟩ | ⟨h', -⟩⟩
    · exact .inl ⟨h.addExp hm hm' (h'.multiplyBy hm hm' (-1)), hk⟩
    · cases h'
    · cases h
    · cases h

theorem ExpTrees.alike_build : ∀ {list : ExpTrees}, list.flat = true → list.SameIndices m →
    (∀ x ∈ list.names, SameName m m' x (g x)) → AlikeArgs m m' list.build (list.rename g).build
  | .one e, hf, hs, hn =>
    .cons hm hm' hs.1 ((ExpTree.alike_build (e := e) hf (fun _ h => h) hs.2 hn).imp_right And.right) .nil
  | .cons e list, hf, hs, hn => by
    simp only [ExpTrees.flat, Bool.and_eq_true] at hf
    simp only [ExpTrees.names, List.forall_mem_append] at hn
    exact .cons hm hm' hs.1.1 ((ExpTree.alike_build (e := e) hf.1 (fun _ h => h) hs.1.2 hn.1).imp_right And.right)
      (ExpTrees.alike_build hf.2 hs.2 hn.2)
end

end Alike

/-! ## Constraints with other names -/

section Constraints

variable {m m' : SubMap} {l : List Term} (hm : m.OnNames) (hm' : m'.OnNames)
include hm hm'

theorem alike_constraintEq {e e' d d' : Exp} (h : AlikeExps m m' l e e') (h' : AlikeExps m m' l d d') :
    AlikeExps m m' l (constraintEq e d) (constraintEq e' d') :=
  h.setEquality.addExp hm hm' (h'.multiplyBy hm hm' (-1))

theorem alike_constraintLte {e e' d d' : Exp} (h : AlikeExps m m' l e e') (h' : AlikeExps m m' l d d') :
    AlikeExps m m' l (constraintLte e d) (constraintLte e' d') :=
  h'.setInequality.addExp hm hm' (h.multiplyBy hm hm' (-1))

theorem alike_constraintLt {e e' d d' : Exp} (h : AlikeExps m m' l e e') (h' : AlikeExps m m' l d d') :
    AlikeExps m m' l (constraintLt e d) (constraintLt e' d') := by
  refine alike_constraintLte hm hm' (h.addTerm hm hm' ⟨⟨rfl, rfl, trivial⟩, fun h => by cases h⟩
    ⟨⟨rfl, rfl, trivial⟩, fun h => by cases h⟩ rfl fun w hw => ?_) h'
  rw [hm.weight_eq (by simp), hm'.weight_eq (by simp)]
  rfl

omit hm hm' in
/-- Constraints that are the same once the names are replaced. -/
def AlikeConstraints (m m' : SubMap) (e e' : Exp) : Prop := ∃ l, SameIndex l ∧ AlikeExps m m' l e e'

/-- A constraint and the renamed one are the same once the names are replaced. -/
theorem ConstraintTree.alike_build {g : Ident → Ident} {k : ConstraintTree} (hf : k.flat = true) (hs : k.SameIndices m)
    (hn : ∀ x ∈ k.names, SameName m m' x (g x)) :
    List.Forall₂ (AlikeConstraints m m') k.build (k.rename g).build := by
  have hexp : ∀ e ∈ k.exps, ∀ l, (∀ t ∈ e.summands m, t ∈ l) → AlikeExps m m' l e.build (e.rename g).build := by
    intro e he l hl
    rcases ExpTree.alike_build hm hm' (List.all_eq_true.1 hf e he) hl (hs.nested e he)
      (fun x h => hn x (List.mem_flatMap.2 ⟨e, he, h⟩)) with ⟨h, -⟩ | ⟨h, -⟩
    · exact h
    · cases h
  -- the two sides of a comparison, as parts of one sum
  have hpair : ∀ p ∈ k.compared, SameIndex (p.1.summands m ++ p.2.summands m) ∧
      AlikeExps m m' (p.1.summands m ++ p.2.summands m) p.1.build (p.1.rename g).build ∧
      AlikeExps m m' (p.1.summands m ++ p.2.summands m) p.2.build (p.2.rename g).build := by
    intro p hp
    have hmem : p.1 ∈ k.exps ∧ p.2 ∈ k.exps := by
      cases k <;> simp only [compared, List.mem_cons, List.not_mem_nil, or_false] at hp
      case eq | lt | lte | gt | gte => rw [hp]; simp [exps]
      all_goals rcases hp with rfl | rfl <;> simp [exps]
    exact ⟨hs.compared p hp, hexp _ hmem.1 _ fun t h => List.mem_append_left _ h,
      hexp _ hmem.2 _ fun t h => List.mem_append_right _ h⟩
  cases k <;> simp only [compared, List.forall_mem_cons, List.not_mem_nil, false_imp_iff, implies_true, and_true] at hpair
  case eq => exact .cons ⟨_, hpair.1, alike_constraintEq hm hm' hpair.2.1 hpair.2.2⟩ .nil
  case lt => exact .cons ⟨_, hpair.1, alike_constraintLt hm hm' hpair.2.1 hpair.2.2⟩ .nil
  case lte => exact .cons ⟨_, hpair.1, alike_constraintLte hm hm' hpair.2.1 hpair.2.2⟩ .nil
  case gt => exact .cons ⟨_, hpair.1, alike_constraintLt hm hm' hpair.2.2 hpair.2.1⟩ .nil
  case gte => exact .cons ⟨_, hpair.1, alike_constraintLte hm hm' hpair.2.2 hpair.2.1⟩ .nil
  all_goals obtain ⟨⟨hl, h, h'⟩, hl', d, d'⟩ := hpair
  case rangeLteLt =>
    exact .cons ⟨_, hl, alike_constraintLte hm hm' h h'⟩ (.cons ⟨_, hl', alike_constraintLt hm hm' d d'⟩ .nil)
  case rangeLtLte =>
    exact .cons ⟨_, hl, alike_constraintLt hm hm' h h'⟩ (.cons ⟨_, hl', alike_constraintLte hm hm' d d'⟩ .nil)
  case rangeLteLte =>
    exact .cons ⟨_, hl, alike_constraintLte hm hm' h h'⟩ (.cons ⟨_, hl', alike_constraintLte hm hm' d d'⟩ .nil)
  case rangeLtLt =>
    exact .cons ⟨_, hl, alike_constraintLt hm hm' h h'⟩ (.cons ⟨_, hl', alike_constraintLt hm hm' d d'⟩ .nil)

end Constraints

/-! ## What a substitution makes of the constraints that are kept -/

section Kept

variable {m : SubMap} {l : List Term} (hm : m.OnNames)

/-- A constraint whose calls have one index where they match. -/
def UnmixedExp (m : SubMap) (e : Exp) : Prop := ∃ l, SameIndex l ∧ WrittenIn m l e

theorem Summed.multiplyBy {ts : List Term} (h : Summed l ts) {k : Int} (hk : k ≠ 0) :
    Summed l (ts.map (Term.multiplyBy k)) := by
  refine ⟨sorted_map_multiplyBy h.sorted, ?_, ?_, ?_⟩ <;> refine List.forall_mem_map.2 fun t ht => ?_
  · exact (h.single t ht).setCoefficient _
  · rw [Term.multiplyBy, Term.coefficient_setCoefficient]
    exact mul_ne_zero (h.nonzero t ht) hk
  · exact (h.calls t ht).setCoefficient _

/-- Normalizing leaves some of the terms, up to the sign. -/
theorem mem_normalizeForEquality {e : Exp} {t : Term} (ht : t ∈ e.normalizeForEquality.terms) :
    ∃ s : Int, (s = 1 ∨ s = -1) ∧ ∃ u ∈ e.terms, u.multiplyBy s = t := by
  obtain ⟨s, hs, z, hz, -⟩ := e.normalizeForEquality_spec
  have hmem : t ∈ (e.multiplyBy s).terms := hz ▸ List.mem_append_left _ ht
  exact ⟨s, hs, List.mem_map.1 hmem⟩

theorem UnmixedExp.normalize {e : Exp} (h : UnmixedExp m e) : UnmixedExp m e.normalizeForEquality.setEquality := by
  obtain ⟨l, hl, hw⟩ := h
  refine ⟨l, hl, fun t ht => ?_⟩
  rw [Exp.terms_setEquality] at ht
  obtain ⟨s, -, u, hu, rfl⟩ := mem_normalizeForEquality ht
  exact writtenIn_ignoresCoefficient _ u (hw u hu)

include hm

theorem UnmixedExp.nonzero {e : Exp} (h : UnmixedExp m e) : ∀ t ∈ (e.substitute m).terms, t.coefficient ≠ 0 := by
  obtain ⟨l, -, hw⟩ := h
  exact (summed_substitute hm (fun t ht => (hw t ht).1) fun t ht => (hw t ht).2).nonzero

end Kept

/-! ## What cleaning up looks at -/

section CleanUp

variable {env : Environment}

variable (env) in
/-- A term of a sum that is known by its text, and still is when it has been collapsed. -/
structure Term.Kept (t : Term) : Prop where
  nonzero : t.coefficient ≠ 0
  noTuple : t.isTupleExp = false
  told : t.Told
  stays : t.TuplesStay env false

theorem Term.Kept.multiplyBy {t : Term} (h : t.Kept env) {k : Int} (hk : k ≠ 0) : (t.multiplyBy k).Kept env := by
  refine ⟨?_, (Term.setCoefficient_isTupleExp _ t).trans h.noTuple, h.told.setCoefficient h.noTuple _,
    h.stays.setCoefficient _⟩
  rw [Term.multiplyBy, Term.coefficient_setCoefficient]
  exact mul_ne_zero h.nonzero hk

end CleanUp

/-! ## Bodies with other names -/

section Bodies

variable {g : Ident → Ident}

/-- The equality of a place with the first place of its name. -/
def TupleDecl.repeated (d : TupleDecl) (i : Nat) : Option Exp :=
  if d.elemIsConst i then none
  else (d.firstPlace i (d.elemVarString i)).map fun l => (Exp.withTerm (.tupleVar 1 l)).addTerm (.tupleVar (-1) i)

/-- The equalities of a body, those of repeated names included. -/
def bodyEqualities (d : TupleDecl) (ks : List ConstraintTree) : List Exp :=
  ((ks.flatMap ConstraintTree.build).filter fun e => e.expType = .equality) ++ (List.range d.size).filterMap d.repeated

/-- The inequalities of a body. -/
def bodyInequalities (ks : List ConstraintTree) : List Exp :=
  (ks.flatMap ConstraintTree.build).filter fun e => e.expType = .inequality

theorem onNames_nameMap (d : TupleDecl) : d.nameMap.OnNames := by
  intro t sub h
  obtain ⟨k, name, l, rfl, -, rfl⟩ := Conjunction.subExp_named_eq_some h
  exact ⟨⟨k, name, rfl⟩, l, rfl⟩

section Alike

variable {m m' : SubMap} (hm : m.OnNames) (hm' : m'.OnNames)

omit hm hm'

include hm hm'

theorem AlikeConstraints.substitute_eq {e e' : Exp} (h : AlikeConstraints m m' e e') : e.substitute m = e'.substitute m' := by
  obtain ⟨l, hl, h⟩ := h
  exact h.substitute_eq hm hm' hl

end Alike

/-- Where the names of the constraints are replaced, the clean-up brings no tuple out of a call. -/
def TuplesStay (env : Environment) (d : TupleDecl) (ks : List ConstraintTree) : Prop :=
  ∀ k ∈ ks, ∀ e ∈ k.build, (e.substitute d.nameMap).TuplesStay env false

theorem TuplesStay.equalities {env : Environment} {d : TupleDecl} {ks : List ConstraintTree} (h : TuplesStay env d ks) :
    ∀ e ∈ bodyEqualities d ks, (e.substitute d.nameMap).TuplesStay env false := by
  intro e he
  rcases List.mem_append.1 he with he | he
  · obtain ⟨k, hk, hek⟩ := List.mem_flatMap.1 (List.mem_filter.1 he).1
    exact h k hk e hek
  · obtain ⟨i, -, hi⟩ := List.mem_filterMap.1 he
    unfold TupleDecl.repeated at hi
    split_ifs at hi
    obtain ⟨l, -, rfl⟩ := Option.map_eq_some_iff.1 hi
    refine Exp.tuplesStay_of_readable (Exp.readable_substitute (fun t sub hsub => ?_) (Conjunction.readable_varVar l i))
    obtain ⟨-, x, rfl⟩ := onNames_nameMap d hsub
    rfl

theorem TuplesStay.inequalities {env : Environment} {d : TupleDecl} {ks : List ConstraintTree} (h : TuplesStay env d ks) :
    ∀ e ∈ bodyInequalities ks, (e.substitute d.nameMap).TuplesStay env false := by
  intro e he
  obtain ⟨k, hk, hek⟩ := List.mem_flatMap.1 (List.mem_filter.1 he).1
  exact h k hk e hek

namespace ResolvesAlike

variable {d d' : TupleDecl} {ks : List ConstraintTree}

end ResolvesAlike

end Bodies

end IEGen
