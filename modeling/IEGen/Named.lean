import IEGen.Grammar
import IEGen.Substituted

/-!
# The names of a body

`concat` gives a variable with the default name of its place the default name of its new place; a declaration has the
names that are written when there is no such variable (`KeepsNames`). Where a body has no tuple of expressions, what is
built of it can be read back, and `substituteTupleDecl` equates the places of one name and puts the first of them for
the name (`Named.Reached`).
-/

namespace IEGen

/-! ## Identifiers are names -/

theorem isNameChar_of_isIdentChar {c : Char} (h : isIdentChar c = true) : isNameChar c = true := by
  by_contra hne
  have hmem : c ∈ [' ', ',', '(', ')', '[', ']', '+', '-'] := by
    by_contra hc
    exact hne (by simp only [isNameChar, List.contains_eq_mem, hc, decide_false, Bool.not_false])
  simp only [List.mem_cons, List.not_mem_nil, or_false] at hmem
  rcases hmem with rfl | rfl | rfl | rfl | rfl | rfl | rfl | rfl <;> revert h <;> decide

theorem isLetter_props {c : Char} (h : isLetter c = true) :
    isIdentChar c = true ∧ c.isDigit = false ∧ c ≠ '_' := by
  unfold isLetter at h
  rw [Bool.or_eq_true] at h
  rcases h with h | h
  · refine ⟨?_, ?_, ?_⟩
    · have halnum : c.isAlphanum = true := Bool.or_eq_true_iff.2 (.inl h)
      simp only [isIdentChar, halnum, Bool.true_or]
    · have hcase : c.isUpper = true ∨ c.isLower = true := Bool.or_eq_true_iff.1 h
      have hle : 65 ≤ c.toNat := by
        rcases hcase with hu | hl
        · exact (of_decide_eq_true hu).1
        · exact le_trans (by decide) (of_decide_eq_true (Bool.and_eq_true_iff.1 hl).1)
      rw [← Bool.not_eq_true, Char.isDigit_iff_toNat]
      exact fun hd => absurd (hle.trans hd.2) (by decide)
    · rintro rfl
      revert h
      decide
  · simp at h
    rcases h with rfl | rfl <;> decide

theorem isPrefixOf_tv {c : Char} {l : List Char} (h : c ≠ '_' ∨ ∃ c' cs, l = c' :: cs ∧ c' ≠ '_') :
    "__tv".toList.isPrefixOf (c :: l) = false := by
  show (['_', '_', 't', 'v'] : List Char).isPrefixOf (c :: l) = false
  rcases h with h | ⟨c', cs, rfl, h⟩
  · rw [List.isPrefixOf_cons_cons, beq_eq_false_iff_ne.2 h.symm, Bool.false_and]
  · rw [List.isPrefixOf_cons_cons, List.isPrefixOf_cons_cons, beq_eq_false_iff_ne.2 h.symm, Bool.false_and, Bool.and_false]

/-- What the scanner takes for an identifier can be told apart in a printed text. -/
theorem isName_of_isIdent {s : String} (h : isIdent s = true) : isName s = true := by
  unfold isIdent at h
  rw [Bool.and_eq_true] at h
  obtain ⟨-, h⟩ := h
  unfold isName
  cases hs : s.toList with
  | nil =>
    rw [hs] at h
    cases h
  | cons c l =>
    rw [hs] at h
    cases l with
    | nil =>
      obtain ⟨h₁, h₂, h₃⟩ := isLetter_props h
      simp only [h₂, isPrefixOf_tv (.inl h₃), List.all_cons, isNameChar_of_isIdentChar h₁]
      rfl
    | cons c' cs =>
      simp only [Bool.and_eq_true, Bool.or_eq_true, beq_iff_eq] at h
      obtain ⟨h, hcs⟩ := h
      have hall : cs.all isNameChar = true := by
        rw [List.all_eq_true] at hcs ⊢
        exact fun d hd => isNameChar_of_isIdentChar (hcs d hd)
      rcases h with ⟨h, h'⟩ | ⟨rfl, h'⟩
      · obtain ⟨h₁, h₂, h₃⟩ := isLetter_props h
        simp only [h₂, isPrefixOf_tv (.inl h₃), List.all_cons, isNameChar_of_isIdentChar h₁,
          isNameChar_of_isIdentChar h', hall]
        rfl
      · obtain ⟨h₁, -, h₃⟩ := isLetter_props h'
        simp only [isPrefixOf_tv (.inr ⟨c', cs, rfl, h₃⟩), List.all_cons, isNameChar_of_isIdentChar h₁, hall]
        decide

/-! ## The declaration -/

/-- What stands at one place of a declaration. -/
inductive Place where
  | var (name : String)
  | const (value : Int)

def TupleElemTree.place : TupleElemTree → Place
  | .var name => .var name
  | .const value => .const value

def TupleElem.place (e : TupleElem) : Place := if e.isConst then .const e.constVal else .var e.varString

def TupleDecl.places (d : TupleDecl) : List Place := d.elems.map TupleElem.place

theorem getElem_places {d : TupleDecl} {i : Nat} (h : i < d.size) :
    d.places[i]? = some (if d.elemIsConst i then .const (d.elemConstVal i) else .var (d.elemVarString i)) := by
  have hi : i < d.elems.length := h
  unfold TupleDecl.places TupleDecl.elemIsConst TupleDecl.elemConstVal TupleDecl.elemVarString TupleDecl.elem
  rw [List.getElem?_map, List.getD_eq_getElem _ _ hi, List.getElem?_eq_getElem hi]
  rfl

theorem mem_places {d : TupleDecl} {name : String} : Place.var name ∈ d.places ↔
    ∃ i < d.size, d.elemIsConst i = false ∧ d.elemVarString i = name := by
  have hsize : d.places.length = d.size := by simp [TupleDecl.places, TupleDecl.size]
  rw [List.mem_iff_getElem?]
  constructor
  · rintro ⟨i, hi⟩
    have hlt : i < d.size := hsize ▸ (List.getElem?_eq_some_iff.1 hi).1
    rw [getElem_places hlt] at hi
    cases hc : d.elemIsConst i with
    | true => simp [hc] at hi
    | false => exact ⟨i, hlt, hc, by simpa [hc] using hi⟩
  · rintro ⟨i, hi, hc, hn⟩
    exact ⟨i, by rw [getElem_places hi, hc, hn]; rfl⟩

/-- What `tuple_decl` makes of an element at a place. -/
def TupleElemTree.elemAt (i : Nat) : TupleElemTree → TupleElem
  | .var name => ⟨false, 0, if name.val = TupleDecl.sDefaultTupleVarName 0 then TupleDecl.sDefaultTupleVarName i else name⟩
  | .const value => ⟨true, value, TupleDecl.sDefaultTupleVarName i⟩

theorem TupleElemTree.build_eq (e : TupleElemTree) : e.build = ⟨[e.elemAt 0]⟩ := by
  cases e with
  | var name =>
    have hname : (if name.val = TupleDecl.sDefaultTupleVarName 0 then TupleDecl.sDefaultTupleVarName 0 else name) =
        name.val := by
      split_ifs with h
      · exact h.symm
      · rfl
    simp only [elemAt, hname]
    rfl
  | const value => rfl

/-- The place of an element that is added to a declaration. -/
theorem concat_build (d : TupleDecl) (e : TupleElemTree) : d.concat e.build = ⟨d.elems ++ [e.elemAt d.size]⟩ := by
  rw [e.build_eq]
  cases e with
  | var name =>
    simp only [TupleDecl.concat, TupleElemTree.elemAt, List.mapIdx_cons, List.mapIdx_nil, Nat.zero_add]
    split_ifs <;> first | rfl | contradiction
  | const value =>
    simp only [TupleDecl.concat, TupleElemTree.elemAt, List.mapIdx_cons, List.mapIdx_nil, Nat.zero_add, if_true]

theorem tupleDecl_eq (es : List TupleElemTree) : tupleDecl es = ⟨es.mapIdx TupleElemTree.elemAt⟩ := by
  have hfold : ∀ (es : List TupleElemTree) (d : TupleDecl),
      es.foldl (fun d e => d.concat e.build) d = ⟨d.elems ++ es.mapIdx fun i e => e.elemAt (i + d.size)⟩ := by
    intro es
    induction es with
    | nil => intro d; simp
    | cons e es ih =>
      intro d
      rw [List.foldl_cons, concat_build, ih]
      simp [TupleDecl.size, Nat.add_comm, Nat.add_left_comm]
  cases es with
  | nil => rfl
  | cons e es =>
    rw [tupleDecl, hfold, e.build_eq, List.mapIdx_cons]
    rfl

/-- No variable after the first is written `tv0`. -/
def KeepsNames (es : List TupleElemTree) : Prop :=
  ∀ i name, es[i]? = some (.var name) → name.val = TupleDecl.sDefaultTupleVarName 0 → i = 0

theorem TupleElemTree.place_elemAt {i : Nat} {e : TupleElemTree}
    (h : ∀ name, e = .var name → name.val = TupleDecl.sDefaultTupleVarName 0 → i = 0) : (e.elemAt i).place = e.place := by
  cases e with
  | var name =>
    have hname : (if name.val = TupleDecl.sDefaultTupleVarName 0 then TupleDecl.sDefaultTupleVarName i else name) =
        name.val := by
      split_ifs with h0
      · rw [h name rfl h0, h0]
      · rfl
    simp only [elemAt, hname]
    rfl
  | const value => rfl

/-- The declaration has the names that are written. -/
theorem places_tupleDecl {es : List TupleElemTree} (h : KeepsNames es) :
    (tupleDecl es).places = es.map TupleElemTree.place := by
  rw [tupleDecl_eq, TupleDecl.places]
  refine List.ext_getElem (by simp) fun i h₁ h₂ => ?_
  rw [List.getElem_map, List.getElem_mapIdx, List.getElem_map]
  refine TupleElemTree.place_elemAt fun name hname h0 => h i name ?_ h0
  rw [← hname, List.getElem?_eq_getElem]

namespace SetBody

/-- The declaration as it is written. -/
def places (b : SetBody) : List Place := b.tuple.map TupleElemTree.place

end SetBody

namespace RelBody

/-- The declaration as it is written. -/
def places (b : RelBody) : List Place := (b.inTuple ++ b.outTuple).map TupleElemTree.place

/-- In addition, no output variable has the default name of its place in the output tuple, unless there are no inputs. -/
structure KeepsNames (b : RelBody) : Prop where
  inTuple : IEGen.KeepsNames b.inTuple
  outTuple : IEGen.KeepsNames b.outTuple
  joined : ∀ j name, b.outTuple[j]? = some (.var name) → name.val = TupleDecl.sDefaultTupleVarName j → b.inTuple = []

theorem places_decl {b : RelBody} (h : b.KeepsNames) : b.decl.places = b.places := by
  have hout : (((tupleDecl b.outTuple).elems.mapIdx fun j e => if e.varString = TupleDecl.sDefaultTupleVarName j then
      { e with varString := TupleDecl.sDefaultTupleVarName (j + (tupleDecl b.inTuple).size) } else e).map
        TupleElem.place) = (tupleDecl b.outTuple).places := by
    refine List.ext_getElem (by simp [TupleDecl.places]) fun j h₁ h₂ => ?_
    simp only [TupleDecl.places, List.getElem_map, List.getElem_mapIdx]
    split_ifs with hj
    · simp only [tupleDecl_eq b.outTuple, List.getElem_mapIdx] at hj ⊢
      have hlt : j < b.outTuple.length := by simpa [tupleDecl_eq] using h₁
      cases he : b.outTuple[j] with
      | const value => rfl
      | var name =>
        have hget : b.outTuple[j]? = some (.var name) := by rw [List.getElem?_eq_getElem hlt, he]
        have hname : (TupleElemTree.elemAt j (.var name)).varString = name.val := by
          simp only [TupleElemTree.elemAt]
          split_ifs with h0
          · rw [h.outTuple j name hget h0, h0]
          · rfl
        rw [he, hname] at hj
        have hin : (tupleDecl b.inTuple).size = 0 := by rw [h.joined j name hget hj]; rfl
        rw [hin, Nat.add_zero, ← hj, ← hname]
    · rfl
  rw [decl, TupleDecl.concat, TupleDecl.places, List.map_append, hout, ← TupleDecl.places,
    places_tupleDecl h.inTuple, places_tupleDecl h.outTuple, ← List.map_append]
  rfl

end RelBody

/-! ## Bodies without tuples of expressions -/

mutual
/-- No tuple of two or more expressions. -/
def ExpTree.plain : ExpTree → Bool
  | .int _ | .id _ => true
  | .func _ args _ => args.plain
  | .paren (.one e) => e.plain
  | .paren (.cons _ _) => false
  | .unop e | .intMult _ e => e.plain
  | .plus e e' | .dash e e' => e.plain && e'.plain

def ExpTrees.plain : ExpTrees → Bool
  | .one e => e.plain
  | .cons e list => e.plain && list.plain
end

/-- The expressions of a constraint. -/
def ConstraintTree.exps : ConstraintTree → List ExpTree
  | .eq e e' | .lt e e' | .lte e e' | .gt e e' | .gte e e' => [e, e']
  | .rangeLteLt e e' e'' | .rangeLtLte e e' e'' | .rangeLteLte e e' e'' | .rangeLtLt e e' e'' => [e, e', e'']

def ConstraintTree.plain (c : ConstraintTree) : Bool := c.exps.all ExpTree.plain

theorem readable_addTerm {e : Exp} {t : Term} (he : e.readable = true) (ht : t.readable = true) :
    (e.addTerm t).readable = true := by
  rw [Exp.readable_iff] at he ⊢
  rw [terms_addTerm ht]
  exact forall_addOne (fun c t h => (readable_setCoefficient c t).trans h) ht he

theorem readable_addExp {e e' : Exp} (he : e.readable = true) (he' : e'.readable = true) :
    (e.addExp e').readable = true := by
  rw [Exp.readable_iff] at he ⊢
  rw [terms_addExp he']
  exact forall_foldl_addOne (fun c t h => (readable_setCoefficient c t).trans h) (Exp.readable_iff.1 he') he

theorem readable_withTerm {t : Term} (ht : t.readable = true) : (Exp.withTerm t).readable = true :=
  readable_addTerm rfl ht

mutual
theorem ExpTree.readable_build : ∀ {e : ExpTree}, e.plain = true → e.build.readable = true
  | .int _, _ => readable_withTerm rfl
  | .id name, _ => readable_withTerm (isName_of_isIdent name.2)
  | .func name args index, h => by
    refine readable_withTerm ?_
    show (isName name && argsReadable args.build) = true
    have hargs : argsReadable args.build = true := ExpTrees.readable_build h
    rw [isName_of_isIdent name.2, hargs, Bool.and_self]
  | .paren (.one e), h => by
    simp only [ExpTree.build]
    exact ExpTree.readable_build (e := e) h
  | .paren (.cons _ _), h => by cases h
  | .unop e, h => readable_multiplyBy (-1) (ExpTree.readable_build (e := e) h)
  | .intMult n e, h => readable_multiplyBy n (ExpTree.readable_build (e := e) h)
  | .plus e e', h => by
    simp only [ExpTree.plain, Bool.and_eq_true] at h
    exact readable_addExp (ExpTree.readable_build h.1) (ExpTree.readable_build h.2)
  | .dash e e', h => by
    simp only [ExpTree.plain, Bool.and_eq_true] at h
    exact readable_addExp (ExpTree.readable_build h.1) (readable_multiplyBy (-1) (ExpTree.readable_build h.2))

theorem ExpTrees.readable_build : ∀ {list : ExpTrees}, list.plain = true → argsReadable list.build = true
  | .one e, h => by
    simp only [ExpTrees.build, argsReadable, ExpTree.readable_build (e := e) h, Bool.and_self]
  | .cons e list, h => by
    simp only [ExpTrees.plain, Bool.and_eq_true] at h
    simp only [ExpTrees.build, argsReadable, ExpTree.readable_build h.1, ExpTrees.readable_build h.2, Bool.and_self]
end

theorem readable_constraintEq {e e' : Exp} (h : e.readable = true) (h' : e'.readable = true) :
    (constraintEq e e').readable = true :=
  readable_addExp ((readable_setEquality e).trans h) (readable_multiplyBy (-1) h')

theorem readable_constraintLte {e e' : Exp} (h : e.readable = true) (h' : e'.readable = true) :
    (constraintLte e e').readable = true :=
  readable_addExp ((readable_setInequality e').trans h') (readable_multiplyBy (-1) h)

theorem readable_constraintLt {e e' : Exp} (h : e.readable = true) (h' : e'.readable = true) :
    (constraintLt e e').readable = true :=
  readable_constraintLte (readable_addTerm h rfl) h'

theorem ConstraintTree.readable_build {c : ConstraintTree} (h : c.plain = true) : ∀ e ∈ c.build, e.readable = true := by
  have hexp : ∀ e ∈ c.exps, e.build.readable = true := fun e he => ExpTree.readable_build (List.all_eq_true.1 h e he)
  cases c <;> simp only [exps, List.forall_mem_cons, List.not_mem_nil, false_imp_iff, implies_true, and_true] at hexp <;>
    simp only [build, constraintGt, constraintGte, List.forall_mem_cons, List.not_mem_nil, false_imp_iff, implies_true,
      readable_constraintEq, readable_constraintLt, readable_constraintLte, hexp, and_self]

/-- What one constraint says, by its kind. -/
def Exp.Holds (I : Interp) (τ : Nat → Int) (e : Exp) : Prop :=
  match e.expType with
  | .equality => e.HoldsEq I τ
  | .inequality => e.HoldsGe I τ
  | .expression => True

theorem Conjunction.addConstraint_adds {c : Conjunction} {e : Exp} (hc : c.readable = true) (he : e.readable = true) :
    Adds c (c.addConstraint e) (fun I τ => e.Holds I τ) := by
  unfold addConstraint Exp.Holds
  cases e.expType with
  | equality => exact addEquality_adds hc he
  | inequality => exact addInequality_adds hc he
  | expression => exact Adds.refl hc

section Substitute

variable {m : SubMap}

mutual
theorem Term.readable_substituteInside (hm : ∀ t e, m.subExp t = some e → e.readable = true) :
    ∀ {t : Term}, t.readable = true → (t.substituteInside m).readable = true
  | .tupleVar .., h | .symConst .., h | .constVal _, h => h
  | .tupleExp .., h => by cases h
  | .ufCall c f as i, h => by
    simp only [Term.readable, Bool.and_eq_true] at h
    simp only [Term.substituteInside, Term.readable, h.1, readable_argsSubstitute hm h.2, Bool.and_self]

theorem Exp.readable_substitute (hm : ∀ t e, m.subExp t = some e → e.readable = true) :
    ∀ {e : Exp}, e.readable = true → (e.substitute m).readable = true
  | .mk _ _, h => readable_addExp rfl (readable_termsSubstitute hm h rfl)

theorem readable_argsSubstitute (hm : ∀ t e, m.subExp t = some e → e.readable = true) :
    ∀ {es : List Exp}, argsReadable es = true → argsReadable (argsSubstitute m es) = true
  | [], _ => rfl
  | e :: es, h => by
    simp only [argsReadable, Bool.and_eq_true] at h
    simp only [argsSubstitute, argsReadable, Exp.readable_substitute hm h.1, readable_argsSubstitute hm h.2, Bool.and_self]

theorem readable_termsSubstitute (hm : ∀ t e, m.subExp t = some e → e.readable = true) :
    ∀ {ts : List Term} {a : Exp}, termsReadable ts = true → a.readable = true →
    (termsSubstitute m ts a).readable = true
  | [], _, _, ha => ha
  | t :: ts, a, h, ha => by
    simp only [termsReadable, Bool.and_eq_true] at h
    simp only [termsSubstitute]
    refine readable_termsSubstitute hm h.2 ?_
    cases hsub : m.subExp t with
    | none => exact readable_addTerm ha (Term.readable_substituteInside hm h.1)
    | some sub => exact readable_addExp ha (readable_multiplyBy _ (hm t sub hsub))
end

end Substitute

/-! ## Names become tuple variables -/

namespace TupleDecl

/-- The first place before `n` that is declared with the name. -/
def firstPlace (d : TupleDecl) (n : Nat) (name : String) : Option Nat :=
  (List.range n).find? (fun i => !d.elemIsConst i && d.elemVarString i == name)

theorem firstPlace_succ (d : TupleDecl) (n : Nat) (name : String) : d.firstPlace (n + 1) name =
    (d.firstPlace n name).or (if d.elemIsConst n = false ∧ d.elemVarString n = name then some n else none) := by
  rw [firstPlace, List.range_succ, List.find?_append, firstPlace]
  congr 1
  by_cases h : d.elemIsConst n = false ∧ d.elemVarString n = name
  · rw [if_pos h]
    simp [h.1, h.2]
  · rw [if_neg h]
    simpa using h

theorem firstPlace_eq_some {d : TupleDecl} {n l : Nat} {name : String} : d.firstPlace n name = some l ↔
    l < n ∧ (d.elemIsConst l = false ∧ d.elemVarString l = name) ∧
      ∀ j < l, d.elemIsConst j = false → d.elemVarString j ≠ name := by
  unfold TupleDecl.firstPlace
  rw [List.find?_range_eq_some]
  simp only [Bool.and_eq_true, Bool.not_eq_true', beq_iff_eq, List.mem_range, Bool.and_eq_false_iff,
    Bool.not_eq_false', beq_eq_false_iff_ne]
  constructor
  · rintro ⟨h, hl, hj⟩
    exact ⟨hl, h, fun j hlt hc => (hj j hlt).resolve_left (by rw [hc]; exact Bool.false_ne_true)⟩
  · rintro ⟨hl, h, hj⟩
    refine ⟨h, hl, fun j hlt => ?_⟩
    cases hc : d.elemIsConst j with
    | true => exact .inl rfl
    | false => exact .inr (hj j hlt hc)

theorem firstPlace_eq_none {d : TupleDecl} {n : Nat} {name : String} : d.firstPlace n name = none ↔
    ∀ j < n, d.elemIsConst j = false → d.elemVarString j ≠ name := by
  unfold TupleDecl.firstPlace
  rw [List.find?_range_eq_none]
  refine forall₂_congr fun j _ => ?_
  cases hc : d.elemIsConst j <;> simp

end TupleDecl

namespace Conjunction

section Named

variable {I : Interp} {τ : Nat → Int}

/-- The equality of two tuple variables. -/
theorem readable_varVar (l i : Nat) : ((Exp.withTerm (.tupleVar 1 l)).addTerm (.tupleVar (-1) i)).readable = true :=
  readable_addTerm (readable_withTerm rfl) rfl

theorem holdsEq_varVar (l i : Nat) :
    ((Exp.withTerm (.tupleVar 1 l)).addTerm (.tupleVar (-1) i)).HoldsEq I τ ↔ τ l = τ i := by
  have hfirst : ∀ t ∈ (Exp.withTerm (.tupleVar 1 l)).terms, Mergeable I.cod false t := by
    unfold Exp.withTerm
    rw [terms_addTerm rfl]
    exact forall_addOne (fun c t h => h.setCoefficient c) ⟨rfl, rfl⟩ (by simp)
  have hval : ∀ k, ((Exp.withTerm (.tupleVar 1 l)).addTerm (.tupleVar (-1) i)).val I τ k = scalar (τ l - τ i) k := by
    intro k
    rw [Exp.val_addTerm (t := .tupleVar (-1) i) hfirst ⟨rfl, rfl⟩, Exp.withTerm,
      Exp.val_addTerm (t := .tupleVar 1 l) (v := false) (by simp) ⟨rfl, rfl⟩]
    cases k <;> simp [Exp.val, Term.val, sub_eq_add_neg]
  simp only [Exp.HoldsEq, hval]
  refine ⟨fun h => sub_eq_zero.1 (h 0), fun h k => ?_⟩
  rw [h, sub_self]
  cases k <;> rfl

theorem addEquality_fields (c : Conjunction) (e : Exp) :
    (c.addEquality e).tupleDecl = c.tupleDecl ∧ (c.addEquality e).inArity = c.inArity := by
  unfold addEquality
  dsimp only
  split_ifs <;> exact ⟨rfl, rfl⟩

/-- The names that the loop of `substituteTupleDecl` knows after `n` steps. -/
structure Named.Mapped (c : Conjunction) (n : Nat) (s : Named) : Prop where
  lookup : ∀ name, s.nameToLocationMap.lookup name = c.tupleDecl.firstPlace n name
  subMap : s.var2TupleVar = s.nameToLocationMap.map (fun p => (.symConst 1 p.1, some (.withTerm (.tupleVar 1 p.2))))
  tupleDecl : s.conj.tupleDecl = c.tupleDecl
  inArity : s.conj.inArity = c.inArity

theorem Named.Mapped.step {c : Conjunction} {n : Nat} {s : Named} (h : Named.Mapped c n s) :
    Named.Mapped c (n + 1) (s.step n) := by
  unfold Named.step
  rw [h.tupleDecl]
  cases hconst : c.tupleDecl.elemIsConst n with
  | true =>
    rw [if_pos rfl]
    refine ⟨fun name => ?_, h.subMap, h.tupleDecl, h.inArity⟩
    rw [TupleDecl.firstPlace_succ, if_neg (by simp [hconst]), Option.or_none, h.lookup]
  | false =>
    rw [if_neg Bool.false_ne_true]
    dsimp only
    rw [h.lookup]
    cases hl : c.tupleDecl.firstPlace n (c.tupleDecl.elemVarString n) with
    | some l =>
      obtain ⟨hdecl, hin⟩ := s.conj.addEquality_fields ((Exp.withTerm (.tupleVar 1 l)).addTerm (.tupleVar (-1) n))
      refine ⟨fun name => ?_, h.subMap, hdecl.trans h.tupleDecl, hin.trans h.inArity⟩
      rw [TupleDecl.firstPlace_succ, h.lookup]
      split_ifs with hn
      · rw [← hn.2, hl]
        rfl
      · rw [Option.or_none]
    | none =>
      refine ⟨fun name => ?_, ?_, h.tupleDecl, h.inArity⟩
      · rw [TupleDecl.firstPlace_succ, List.lookup_append, h.lookup]
        congr 1
        by_cases hn : c.tupleDecl.elemVarString n = name
        · rw [if_pos ⟨hconst, hn⟩, hn]
          simp
        · rw [if_neg fun hh => hn hh.2]
          simp [List.lookup_cons, beq_eq_false_iff_ne.2 (Ne.symm hn)]
      · rw [h.subMap, List.map_append]
        rfl

theorem Named.mapped (c : Conjunction) (n : Nat) :
    Named.Mapped c n ((List.range n).foldl Named.step ⟨[], [], c⟩) := by
  induction n with
  | zero => exact ⟨fun _ => rfl, rfl, rfl, rfl⟩
  | succ n ih =>
    rw [List.range_succ, List.foldl_append]
    exact ih.step

/-- What the loop of `substituteTupleDecl` has after `n` steps, where the constraints can be read back. -/
structure Named.Reached (c : Conjunction) (n : Nat) (s : Named) : Prop extends Named.Mapped c n s where
  grown : Adds c s.conj (fun _ τ => ∀ i < n, c.tupleDecl.elemIsConst i = false →
    ∀ l, c.tupleDecl.firstPlace i (c.tupleDecl.elemVarString i) = some l → τ l = τ i)

/-- Nothing is added by a place that asks for nothing. -/
theorem Named.Reached.grown_succ {c : Conjunction} {n : Nat} {s : Named} (h : Named.Reached c n s)
    (hn : c.tupleDecl.elemIsConst n = false → c.tupleDecl.firstPlace n (c.tupleDecl.elemVarString n) = none) :
    Adds c s.conj (fun _ τ => ∀ i < n + 1, c.tupleDecl.elemIsConst i = false →
      ∀ l, c.tupleDecl.firstPlace i (c.tupleDecl.elemVarString i) = some l → τ l = τ i) := by
  refine h.grown.congr fun _ τ => ⟨fun hi i hlt hconst l hl => ?_, fun hi i hlt => hi i (by omega)⟩
  rcases Nat.lt_succ_iff_lt_or_eq.1 hlt with hlt | rfl
  · exact hi i hlt hconst l hl
  · rw [hn hconst] at hl
    cases hl

theorem Named.Reached.step {c : Conjunction} {n : Nat} {s : Named} (h : Named.Reached c n s) :
    Named.Reached c (n + 1) (s.step n) := by
  refine ⟨h.toMapped.step, ?_⟩
  unfold Named.step
  rw [h.tupleDecl]
  cases hconst : c.tupleDecl.elemIsConst n with
  | true =>
    rw [if_pos rfl]
    exact h.grown_succ (by simp [hconst])
  | false =>
    rw [if_neg Bool.false_ne_true]
    dsimp only
    rw [h.lookup]
    cases hl : c.tupleDecl.firstPlace n (c.tupleDecl.elemVarString n) with
    | some l =>
      have hadd := addEquality_adds h.grown.readable (readable_varVar l n)
      refine (h.grown.trans hadd).congr fun I' τ' => ?_
      rw [holdsEq_varVar]
      constructor
      · rintro ⟨hi, h0⟩ i hlt hc l' hl'
        rcases Nat.lt_succ_iff_lt_or_eq.1 hlt with hlt | rfl
        · exact hi i hlt hc l' hl'
        · rw [hl] at hl'
          exact Option.some.inj hl' ▸ h0
      · exact fun hi => ⟨fun i hlt => hi i (by omega), hi n (by omega) hconst l hl⟩
    | none => exact h.grown_succ fun _ => hl

/-- What the loop has at its end. -/
theorem Named.reached {c : Conjunction} (hc : c.readable = true) (n : Nat) :
    Named.Reached c n ((List.range n).foldl Named.step ⟨[], [], c⟩) := by
  induction n with
  | zero => exact ⟨Named.mapped c 0, (Adds.refl hc).congr (by simp)⟩
  | succ n ih =>
    rw [List.range_succ, List.foldl_append]
    exact ih.step

end Named

/-- The names of the declaration with their places, and the map that replaces them. -/
def named (c : Conjunction) : Named := (List.range c.arity).foldl Named.step ⟨[], [], c⟩

/-- What `substituteTupleDecl` cleans up. -/
def resolved (c : Conjunction) : Conjunction :=
  { c.named.conj with equalities := c.named.conj.equalities.map (Exp.substitute c.named.var2TupleVar)
                      inequalities := c.named.conj.inequalities.map (Exp.substitute c.named.var2TupleVar) }

theorem subExp_names (m : List (String × Nat)) (k : Int) (name : String) :
    SubMap.subExp (m.map fun p => (.symConst 1 p.1, some (.withTerm (.tupleVar 1 p.2)))) (.symConst k name) =
      (m.lookup name).map fun l => .withTerm (.tupleVar 1 l) := by
  unfold SubMap.subExp
  induction m with
  | nil => rfl
  | cons p m ih =>
    rw [List.map_cons, List.find?_cons, List.lookup_cons]
    have hmatch : (Term.symConst k name).factorMatches (.symConst 1 p.1) = (name == p.1) := rfl
    cases h : name == p.1 with
    | true => simp only [hmatch, h]; rfl
    | false => simp only [hmatch, h]; exact ih

theorem subExp_not_name (m : List (String × Nat)) {t : Term} (ht : ∀ k name, t ≠ .symConst k name) :
    SubMap.subExp (m.map fun p => (.symConst 1 p.1, some (.withTerm (.tupleVar 1 p.2)))) t = none := by
  have hfind : (m.map fun p => ((.symConst 1 p.1, some (.withTerm (.tupleVar 1 p.2))) : Term × Option Exp)).find?
      (fun p => t.factorMatches p.1) = none := by
    refine List.find?_eq_none.2 fun p hp hm => ?_
    obtain ⟨q, -, rfl⟩ := List.mem_map.1 hp
    cases t with
    | symConst k name => exact ht k name rfl
    | _ => cases hm
  rw [SubMap.subExp, hfind]
  rfl

theorem mapped_named (c : Conjunction) : Named.Mapped c c.arity c.named := Named.mapped c c.arity

theorem subExp_named (c : Conjunction) (k : Int) (name : String) : c.named.var2TupleVar.subExp (.symConst k name) =
    (c.tupleDecl.firstPlace c.arity name).map fun l => .withTerm (.tupleVar 1 l) := by
  rw [c.mapped_named.subMap, subExp_names, c.mapped_named.lookup]

/-- Only names of the declaration are replaced, by the tuple variables of their first places. -/
theorem subExp_named_eq_some {c : Conjunction} {t : Term} {e : Exp}
    (h : c.named.var2TupleVar.subExp t = some e) : ∃ k name l, t = .symConst k name ∧
      c.tupleDecl.firstPlace c.arity name = some l ∧ e = .withTerm (.tupleVar 1 l) := by
  by_cases ht : ∃ k name, t = .symConst k name
  · obtain ⟨k, name, rfl⟩ := ht
    rw [subExp_named, Option.map_eq_some_iff] at h
    obtain ⟨l, hl, rfl⟩ := h
    exact ⟨k, name, l, rfl, hl, rfl⟩
  · push Not at ht
    rw [c.mapped_named.subMap, subExp_not_name _ ht] at h
    cases h

end Conjunction

/-- What `substituteTupleDecl` puts in the place of the names of a declaration. -/
def TupleDecl.nameMap (d : TupleDecl) : SubMap := (Conjunction.mk [] [] d 0).named.var2TupleVar

theorem elemIsConst_sDefaultTupleDecl (n i : Nat) : (TupleDecl.sDefaultTupleDecl n).elemIsConst i = false := by
  unfold TupleDecl.elemIsConst TupleDecl.elem TupleDecl.sDefaultTupleDecl
  rw [List.getD_eq_getElem?_getD, List.getElem?_map]
  cases (List.range n)[i]? <;> rfl

theorem TupleDecl.map_elem (d : TupleDecl) : (List.range d.size).map d.elem = d.elems := by
  refine List.ext_getElem (by simp [TupleDecl.size]) fun i _ h => ?_
  rw [List.getElem_map, List.getElem_range, TupleDecl.elem, List.getD_eq_getElem _ _ h]

/-- A declaration without constants gives way to another one. -/
theorem Conjunction.setTupleDecl_of_noConst {c : Conjunction} (hc : ∀ i, c.tupleDecl.elemIsConst i = false)
    (d : TupleDecl) : c.setTupleDecl d = .ok { c with tupleDecl := d } := by
  have helem : ∀ i ∈ List.range d.size, (if i < c.tupleDecl.size then mergeElem i c.tupleDecl d else .ok (d.elem i)) =
      Except.ok (d.elem i) := by
    intro i _
    split_ifs with h
    · simp [mergeElem, hc i]
    · rfl
  have hmap := Outcome.mapM_eq_map helem
  rw [TupleDecl.map_elem] at hmap
  unfold setTupleDecl
  exact Outcome.bind_eq_ok.2 ⟨_, hmap, rfl⟩

/-- The conjunction of a body before its names become tuple variables. -/
def writtenBody (d : TupleDecl) (inArity : Nat) (constraints : List ConstraintTree) : Conjunction :=
  (constraints.flatMap ConstraintTree.build).foldl Conjunction.addConstraint ⟨[], [], d, inArity⟩

theorem buildBody_eq (env : Environment) (d : TupleDecl) (inArity : Nat) (constraints : List ConstraintTree) :
    buildBody env d inArity constraints = (writtenBody d inArity constraints).resolved.cleanUp env := by
  have hset : ({ Conjunction.ofArity d.size with inArity := inArity } : Conjunction).setTupleDecl d =
      .ok ⟨[], [], d, inArity⟩ :=
    Conjunction.setTupleDecl_of_noConst (elemIsConst_sDefaultTupleDecl d.size) d
  unfold buildBody
  rw [hset]
  rfl

theorem Conjunction.addConstraint_fields (c : Conjunction) (e : Exp) :
    (c.addConstraint e).tupleDecl = c.tupleDecl ∧ (c.addConstraint e).inArity = c.inArity := by
  unfold addConstraint
  cases e.expType with
  | equality => exact c.addEquality_fields e
  | inequality =>
    unfold addInequality
    dsimp only
    split_ifs <;> exact ⟨rfl, rfl⟩
  | expression => exact ⟨rfl, rfl⟩

theorem writtenBody_fields (d : TupleDecl) (n : Nat) (constraints : List ConstraintTree) :
    (writtenBody d n constraints).tupleDecl = d ∧ (writtenBody d n constraints).inArity = n := by
  have hfold : ∀ (es : List Exp) (c : Conjunction), (es.foldl Conjunction.addConstraint c).tupleDecl = c.tupleDecl ∧
      (es.foldl Conjunction.addConstraint c).inArity = c.inArity := by
    intro es
    induction es with
    | nil => exact fun c => ⟨rfl, rfl⟩
    | cons e es ih =>
      intro c
      obtain ⟨hdecl, hin⟩ := ih (c.addConstraint e)
      exact ⟨hdecl.trans (c.addConstraint_fields e).1, hin.trans (c.addConstraint_fields e).2⟩
  exact hfold _ _

theorem writtenBody_adds {d : TupleDecl} {n : Nat} {constraints : List ConstraintTree}
    (h : ∀ c ∈ constraints, c.plain = true) : Conjunction.Adds ⟨[], [], d, n⟩ (writtenBody d n constraints)
      (fun I τ => ∀ e ∈ constraints.flatMap ConstraintTree.build, e.Holds I τ) := by
  refine Conjunction.foldl_adds Conjunction.addConstraint_adds rfl fun e he => ?_
  obtain ⟨c, hc, he⟩ := List.mem_flatMap.1 he
  exact ConstraintTree.readable_build (h c hc) e he

theorem readable_resolved {c : Conjunction} (hc : c.readable = true) : c.resolved.readable = true := by
  have hm : ∀ t e, c.named.var2TupleVar.subExp t = some e → e.readable = true := by
    intro t e h
    obtain ⟨-, -, l, -, -, rfl⟩ := Conjunction.subExp_named_eq_some h
    exact readable_withTerm rfl
  have hr : Conjunction.Named.Reached c c.arity c.named := Conjunction.Named.reached hc c.arity
  obtain ⟨h₁, h₂⟩ := Conjunction.readable_iff.1 hr.grown.readable
  refine Conjunction.readable_iff.2 ⟨fun e he => ?_, fun e he => ?_⟩
  · obtain ⟨d, hd, rfl⟩ := List.mem_map.1 he
    exact Exp.readable_substitute hm (h₁ d hd)
  · obtain ⟨d, hd, rfl⟩ := List.mem_map.1 he
    exact Exp.readable_substitute hm (h₂ d hd)

/-- The conjunction of a body without tuples of expressions is built of canonical expressions. -/
theorem built_buildBody {env : Environment} {d : TupleDecl} {inArity : Nat} {constraints : List ConstraintTree}
    {c : Conjunction} (hp : ∀ k ∈ constraints, k.plain = true) (h : buildBody env d inArity constraints = .ok c) :
    c.Built := by
  rw [buildBody_eq] at h
  exact built_cleanUp (readable_resolved (writtenBody_adds hp).readable) h

/-! ## The declaration and the input arity of a body -/

/-- Cleaning up keeps the declaration and the input arity, and does not depend on them. -/
theorem cleanUp_withDecl {env : Environment} {c c' : Conjunction} (h : c.cleanUp env = .ok c') (d : TupleDecl) (n : Nat) :
    (Conjunction.mk c.equalities c.inequalities d n).cleanUp env = .ok ⟨c'.equalities, c'.inequalities, d, n⟩ := by
  unfold Conjunction.cleanUp at h ⊢
  simp only [Outcome.bind_eq_ok] at h ⊢
  obtain ⟨eqs, heqs, ineqs, hineqs, h⟩ := h
  cases h
  refine ⟨eqs, heqs, ineqs, hineqs, ?_⟩
  rw [foldl_addEquality_eq, foldl_addInequality_eq, foldl_addEquality_eq, foldl_addInequality_eq]

theorem cleanUp_fields {env : Environment} {c c' : Conjunction} (h : c.cleanUp env = .ok c') :
    c'.tupleDecl = c.tupleDecl ∧ c'.inArity = c.inArity := by
  obtain ⟨eqs, ineqs, -, -, rfl⟩ := cleanUp_eq_ok h
  exact ⟨rfl, rfl⟩

namespace Conjunction

/-- The conjunction with another input arity. -/
def withInArity (n : Nat) (c : Conjunction) : Conjunction := { c with inArity := n }

theorem addEquality_withInArity (c : Conjunction) (n : Nat) (e : Exp) :
    (c.withInArity n).addEquality e = (c.addEquality e).withInArity n := by
  simp only [addEquality]
  split_ifs <;> rfl

theorem addInequality_withInArity (c : Conjunction) (n : Nat) (e : Exp) :
    (c.withInArity n).addInequality e = (c.addInequality e).withInArity n := by
  simp only [addInequality]
  split_ifs <;> rfl

theorem addConstraint_withInArity (c : Conjunction) (n : Nat) (e : Exp) :
    (c.withInArity n).addConstraint e = (c.addConstraint e).withInArity n := by
  unfold addConstraint
  cases e.expType with
  | equality => exact addEquality_withInArity c n e
  | inequality => exact addInequality_withInArity c n e
  | expression => rfl

/-- What the loop has, with another input arity. -/
def Named.withInArity (n : Nat) (s : Named) : Named := { s with conj := s.conj.withInArity n }

theorem Named.step_withInArity (s : Named) (n i : Nat) : (s.withInArity n).step i = (s.step i).withInArity n := by
  unfold Named.step Named.withInArity
  have hdecl : (s.conj.withInArity n).tupleDecl = s.conj.tupleDecl := rfl
  simp only [hdecl]
  split_ifs
  · rfl
  · split
    · simp only [addEquality_withInArity]
    · rfl

theorem resolved_withInArity (c : Conjunction) (n : Nat) : (c.withInArity n).resolved = c.resolved.withInArity n := by
  have hnamed : (c.withInArity n).named = c.named.withInArity n := by
    have hinit : (⟨[], [], c.withInArity n⟩ : Named) = Named.withInArity n ⟨[], [], c⟩ := rfl
    unfold named
    rw [hinit]
    exact List.foldl_hom (Named.withInArity n) fun s i => Named.step_withInArity s n i
  unfold resolved
  rw [hnamed]
  rfl

end Conjunction

theorem writtenBody_withInArity (d : TupleDecl) (m n : Nat) (constraints : List ConstraintTree) :
    writtenBody d n constraints = (writtenBody d m constraints).withInArity n := by
  have hinit : (⟨[], [], d, n⟩ : Conjunction) = Conjunction.withInArity n ⟨[], [], d, m⟩ := rfl
  unfold writtenBody
  rw [hinit]
  exact List.foldl_hom (Conjunction.withInArity n) fun c e => Conjunction.addConstraint_withInArity c n e

theorem buildBody_fields {env : Environment} {d : TupleDecl} {n : Nat} {constraints : List ConstraintTree}
    {c : Conjunction} (h : buildBody env d n constraints = .ok c) : c.tupleDecl = d ∧ c.inArity = n := by
  rw [buildBody_eq] at h
  obtain ⟨hdecl, hin⟩ := cleanUp_fields h
  have hm := (writtenBody d n constraints).mapped_named
  obtain ⟨hd, hn⟩ := writtenBody_fields d n constraints
  exact ⟨hdecl.trans (hm.tupleDecl.trans hd), hin.trans (hm.inArity.trans hn)⟩

/-- The input arity is not used while a body is built. -/
theorem buildBody_withInArity {env : Environment} {d : TupleDecl} {m : Nat} {constraints : List ConstraintTree}
    {c : Conjunction} (h : buildBody env d m constraints = .ok c) (n : Nat) :
    buildBody env d n constraints = .ok (c.withInArity n) := by
  rw [buildBody_eq] at h ⊢
  rw [writtenBody_withInArity d m n, Conjunction.resolved_withInArity]
  have hc := cleanUp_withDecl h c.tupleDecl n
  rw [(cleanUp_fields h).1] at hc
  exact hc.trans (by rw [← (cleanUp_fields h).1]; rfl)

end IEGen
