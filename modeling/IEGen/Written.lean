import IEGen.Named
import IEGen.Nested

/-!
# What a written body means

A tuple satisfies a body when the names of its declaration can be given the values at their places, and all other names
those of the symbolic constants, such that every written constraint holds (`Satisfies`). The conjunction that the parser
builds has the tuples that satisfy the body with the names that `concat` leaves in the declaration (`buildBody_denote`);
these are the written ones when no variable is written with the default name of the place where `concat` finds it
(`KeepsNames`).
-/

namespace IEGen

/-! ## Meaning -/

section Meaning

variable (I : Interp)

mutual
/-- The components of a written expression, all of whose names are symbolic constants. -/
def ExpTree.val : ExpTree → Nat → Int
  | .int value => scalar value
  | .id name => scalar (I.sym name)
  | .func name args none => I.callVal name args.vals
  | .func name args (some j) => scalar (I.indexVal name args.vals j)
  | .paren (.one e) => e.val
  | .paren (.cons e list) => fun k => ((e.val :: list.vals).getD k (scalar 0)) 0
  | .unop e => fun k => -e.val k
  | .plus e e' => fun k => e.val k + e'.val k
  | .dash e e' => fun k => e.val k - e'.val k
  | .intMult n e => fun k => n * e.val k

def ExpTrees.vals : ExpTrees → List (Nat → Int)
  | .one e => [e.val]
  | .cons e list => e.val :: list.vals
end

/-- A written constraint; comparisons are between integers. -/
def ConstraintTree.Holds : ConstraintTree → Prop
  | .eq e e' => ∀ k, e.val I k = e'.val I k
  | .lt e e' => e.val I 0 < e'.val I 0
  | .lte e e' => e.val I 0 ≤ e'.val I 0
  | .gt e e' => e.val I 0 > e'.val I 0
  | .gte e e' => e.val I 0 ≥ e'.val I 0
  | .rangeLteLt e e' e'' => e.val I 0 ≤ e'.val I 0 ∧ e'.val I 0 < e''.val I 0
  | .rangeLtLte e e' e'' => e.val I 0 < e'.val I 0 ∧ e'.val I 0 ≤ e''.val I 0
  | .rangeLteLte e e' e'' => e.val I 0 ≤ e'.val I 0 ∧ e'.val I 0 ≤ e''.val I 0
  | .rangeLtLt e e' e'' => e.val I 0 < e'.val I 0 ∧ e'.val I 0 < e''.val I 0

end Meaning

/-- The value at a place is that of its name, or the number. -/
def Place.Holds (names : String → Int) : Place → Int → Prop
  | .var name, v => names name = v
  | .const value, v => v = value

/-- The interpretation with other values for the names. -/
def Interp.withNames (I : Interp) (names : String → Int) : Interp := { I with sym := names }

/-- With the values at the places for their names, and the values of the symbolic constants for all others, every
constraint holds. -/
def Satisfies (I : Interp) (places : List Place) (constraints : List ConstraintTree) (t : List Int) : Prop :=
  ∃ names : String → Int, (∀ s, Place.var s ∉ places → names s = I.sym s) ∧
    List.Forall₂ (Place.Holds names) places t ∧ ∀ c ∈ constraints, c.Holds (I.withNames names)

/-! ## Written expressions that are used in one way -/

section Used

variable (cod : String → Nat)

mutual
/-- How a written expression is used (`Term.UsedAs`): as an integer, or for several components. Zero is used in both ways, a
tuple of expressions in neither. -/
def ExpTree.UsedAs (v : Bool) : ExpTree → Prop
  | .int n => v = false ∨ n = 0
  | .id _ => v = false
  | .func name args none => (v = false ↔ cod name = 1) ∧ args.Used
  | .func _ args (some _) => v = false ∧ args.Used
  | .paren (.one e) => e.UsedAs v
  | .paren (.cons _ _) => False
  | .unop e | .intMult _ e => e.UsedAs v
  | .plus e e' | .dash e e' => e.UsedAs v ∧ e'.UsedAs v

def ExpTrees.Used : ExpTrees → Prop
  | .one e => ∃ v, e.UsedAs v
  | .cons e list => (∃ v, e.UsedAs v) ∧ list.Used
end

/-- Comparisons are between integers, equalities between expressions that are used in one way. -/
def ConstraintTree.Used : ConstraintTree → Prop
  | .eq e e' => ∃ v, e.UsedAs cod v ∧ e'.UsedAs cod v
  | .lt e e' | .lte e e' | .gt e e' | .gte e e' => e.UsedAs cod false ∧ e'.UsedAs cod false
  | .rangeLteLt e e' e'' | .rangeLtLte e e' e'' | .rangeLteLte e e' e'' | .rangeLtLt e e' e'' =>
    e.UsedAs cod false ∧ e'.UsedAs cod false ∧ e''.UsedAs cod false

end Used

/-! ## Expressions have the values that are written -/

/-- Nothing is asked of the way in which an expression is used. -/
def AnyKind (_ : Bool) : Prop := True

/-- A term that can be added to others that are used in one way. -/
def WellUsed (cod : String → Nat) (v : Bool) (t : Term) : Prop :=
  t.readable = true ∧ t.UsedAs cod v ∧ t.Fits cod AnyKind AnyCall

section Build

variable {I : Interp} {τ : Nat → Int} {v : Bool}

theorem WellUsed.setCoefficient {cod : String → Nat} {t : Term} (c : Int) (h : WellUsed cod v t) :
    WellUsed cod v (t.setCoefficient c) :=
  ⟨by rw [readable_setCoefficient]; exact h.1, h.2.1.setCoefficient c, h.2.2.setCoefficient c⟩

theorem WellUsed.mergeable {cod : String → Nat} {t : Term} (h : WellUsed cod v t) : Mergeable cod v t := ⟨h.1, h.2.1⟩

/-- An expression all of whose terms are used in one way. -/
def Exp.WellUsed (cod : String → Nat) (v : Bool) (e : Exp) : Prop := ∀ t ∈ e.terms, IEGen.WellUsed cod v t

namespace Exp.WellUsed

variable {e e' : Exp} {t : Term}

theorem readable {cod : String → Nat} (h : e.WellUsed cod v) : e.readable = true :=
  Exp.readable_iff.2 fun t ht => (h t ht).1

theorem fits {cod : String → Nat} (h : e.WellUsed cod v) : ∀ t ∈ e.terms, t.UsedAs cod v ∧ t.Fits cod AnyKind AnyCall :=
  fun t ht => (h t ht).2

theorem addExp (h : e.WellUsed I.cod v) (h' : e'.WellUsed I.cod v) : (e.addExp e').WellUsed I.cod v ∧
    ∀ k, (e.addExp e').val I τ k = e.val I τ k + e'.val I τ k := by
  refine ⟨?_, fun k => Exp.val_addExp (fun t ht => (h t ht).mergeable) (fun t ht => (h' t ht).mergeable) k⟩
  unfold Exp.WellUsed
  rw [terms_addExp h'.readable]
  exact forall_foldl_addOne (fun c t h => h.setCoefficient c) h' h

theorem addTerm (h : e.WellUsed I.cod v) (ht : IEGen.WellUsed I.cod v t) : (e.addTerm t).WellUsed I.cod v ∧
    ∀ k, (e.addTerm t).val I τ k = e.val I τ k + t.val I τ k := by
  refine ⟨?_, fun k => Exp.val_addTerm (fun t ht => (h t ht).mergeable) ht.mergeable k⟩
  unfold Exp.WellUsed
  rw [terms_addTerm ht.1]
  exact forall_addOne (fun c t h => h.setCoefficient c) ht h

theorem multiplyBy {cod : String → Nat} (h : e.WellUsed cod v) (c : Int) : (e.multiplyBy c).WellUsed cod v := by
  intro t ht
  rw [Exp.terms_multiplyBy] at ht
  obtain ⟨u, hu, rfl⟩ := List.mem_map.1 ht
  exact (h u hu).setCoefficient _

theorem setType {cod : String → Nat} (h : e.WellUsed cod v) (k : ExpType) : (Exp.mk k e.terms).WellUsed cod v := h

end Exp.WellUsed

theorem wellUsed_withTerm {t : Term} (ht : WellUsed I.cod v t) : (Exp.withTerm t).WellUsed I.cod v ∧
    ∀ k, (Exp.withTerm t).val I τ k = t.val I τ k := by
  have hempty : (Exp.mk .expression []).WellUsed I.cod v := fun t ht => by cases ht
  obtain ⟨h₁, h₂⟩ := hempty.addTerm (τ := τ) ht
  exact ⟨h₁, fun k => (h₂ k).trans (zero_add _)⟩

mutual
/-- The expression that is built has the written value, while all names are symbolic constants. -/
theorem ExpTree.build_spec : ∀ {e : ExpTree} {v : Bool}, e.UsedAs I.cod v → e.build.WellUsed I.cod v ∧
    ∀ k, e.build.val I τ k = e.val I k
  | .int value, v, h => by
    rcases h with h | rfl
    · exact wellUsed_withTerm ⟨rfl, h, trivial⟩
    · refine ⟨fun t ht => (List.not_mem_nil ht).elim, fun k => ?_⟩
      cases k <;> rfl
  | .id name, v, h => by
    obtain ⟨h₁, h₂⟩ := wellUsed_withTerm (I := I) (τ := τ) (t := .symConst 1 name) (v := v)
      ⟨isName_of_isIdent name.2, h, trivial⟩
    exact ⟨h₁, fun k => by rw [ExpTree.build, h₂, Term.val, one_mul, ExpTree.val]⟩
  | .func name args index, v, h => by
    have hargs : args.Used I.cod := by cases index <;> exact h.2
    obtain ⟨h₁, h₂, h₃⟩ := ExpTrees.build_spec hargs
    have hterm : WellUsed I.cod v (.ufCall 1 name args.build index) := by
      refine ⟨?_, by cases index <;> exact h.1, trivial, h₂⟩
      show (isName name && argsReadable args.build) = true
      rw [isName_of_isIdent name.2, h₁, Bool.and_self]
    obtain ⟨h₄, h₅⟩ := wellUsed_withTerm (τ := τ) hterm
    refine ⟨h₄, fun k => ?_⟩
    cases index <;> simp only [ExpTree.build, h₅, Term.val, h₃, one_mul, ExpTree.val]
  | .paren (.one e), v, h => by
    simp only [ExpTree.build, ExpTree.val]
    exact ExpTree.build_spec (e := e) h
  | .paren (.cons _ _), v, h => by cases h
  | .unop e, v, h => by
    obtain ⟨h₁, h₂⟩ := ExpTree.build_spec (e := e) h
    exact ⟨h₁.multiplyBy (-1), fun k => by rw [ExpTree.build, Exp.val_multiplyBy, h₂, ExpTree.val, mul_neg_one]⟩
  | .intMult n e, v, h => by
    obtain ⟨h₁, h₂⟩ := ExpTree.build_spec (e := e) h
    exact ⟨h₁.multiplyBy n, fun k => by rw [ExpTree.build, Exp.val_multiplyBy, h₂, ExpTree.val, mul_comm]⟩
  | .plus e e', v, h => by
    obtain ⟨h₁, h₂⟩ := ExpTree.build_spec (e := e) h.1
    obtain ⟨h₃, h₄⟩ := ExpTree.build_spec (e := e') h.2
    obtain ⟨h₅, h₆⟩ := h₁.addExp (τ := τ) h₃
    exact ⟨h₅, fun k => by rw [ExpTree.build, h₆, h₂, h₄, ExpTree.val]⟩
  | .dash e e', v, h => by
    obtain ⟨h₁, h₂⟩ := ExpTree.build_spec (e := e) h.1
    obtain ⟨h₃, h₄⟩ := ExpTree.build_spec (e := e') h.2
    obtain ⟨h₅, h₆⟩ := h₁.addExp (τ := τ) (h₃.multiplyBy (-1))
    refine ⟨h₅, fun k => ?_⟩
    simp only [ExpTree.build, h₆, Exp.val_multiplyBy, h₂, h₄, ExpTree.val, mul_neg_one, sub_eq_add_neg]

theorem ExpTrees.build_spec : ∀ {list : ExpTrees}, list.Used I.cod → argsReadable list.build = true ∧
    argsFits I.cod AnyKind AnyCall list.build ∧ argsVal I τ list.build = list.vals I
  | .one e, ⟨v, h⟩ => by
    obtain ⟨h₁, h₂⟩ := ExpTree.build_spec h
    refine ⟨?_, ⟨Exp.fits_iff.2 ⟨v, trivial, h₁.fits⟩, trivial⟩, ?_⟩
    · simp only [ExpTrees.build, argsReadable, h₁.readable, Bool.and_self]
    · simp only [ExpTrees.build, argsVal, funext h₂, ExpTrees.vals]
  | .cons e list, ⟨⟨v, h⟩, hs⟩ => by
    obtain ⟨h₁, h₂⟩ := ExpTree.build_spec h
    obtain ⟨h₃, h₄, h₅⟩ := ExpTrees.build_spec hs
    refine ⟨?_, ⟨Exp.fits_iff.2 ⟨v, trivial, h₁.fits⟩, h₄⟩, ?_⟩
    · simp only [ExpTrees.build, argsReadable, h₁.readable, h₃, Bool.and_self]
    · simp only [ExpTrees.build, argsVal, funext h₂, h₅, ExpTrees.vals]
end

/-! ## Constraints -/

theorem scalar_le {e e' : Exp} (h : e.WellUsed I.cod false) (h' : e'.WellUsed I.cod false) :
    (∀ k, e.val I τ k ≤ e'.val I τ k) ↔ e.val I τ 0 ≤ e'.val I τ 0 := by
  refine ⟨fun hk => hk 0, fun h0 k => ?_⟩
  rw [Exp.val_eq_scalar h.readable fun t ht => (h t ht).2.1, Exp.val_eq_scalar h'.readable fun t ht => (h' t ht).2.1]
  cases k with
  | zero => exact h0
  | succ k => exact le_refl 0

/-- A constraint whose terms are used in one way. -/
def Exp.IsConstraint (cod : String → Nat) (e : Exp) : Prop := ∃ v, e.WellUsed cod v

theorem constraintEq_spec {e e' : Exp} (h : e.WellUsed I.cod v) (h' : e'.WellUsed I.cod v) :
    (constraintEq e e').IsConstraint I.cod ∧ ((constraintEq e e').Holds I τ ↔ ∀ k, e.val I τ k = e'.val I τ k) := by
  obtain ⟨h₁, h₂⟩ := (h.setType .equality).addExp (τ := τ) (h'.multiplyBy (-1))
  refine ⟨⟨v, h₁⟩, forall_congr' fun k => ?_⟩
  have hval : (constraintEq e e').val I τ k = e.val I τ k - e'.val I τ k := by
    rw [show constraintEq e e' = (Exp.mk .equality e.terms).addExp (e'.multiplyBy (-1)) from rfl, h₂,
      Exp.val_multiplyBy, Exp.val_eq, Exp.terms_mk, ← Exp.val_eq]
    ring
  rw [hval, sub_eq_zero]

theorem constraintLte_spec {e e' : Exp} (h : e.WellUsed I.cod false) (h' : e'.WellUsed I.cod false) :
    (constraintLte e e').IsConstraint I.cod ∧ ((constraintLte e e').Holds I τ ↔ e.val I τ 0 ≤ e'.val I τ 0) := by
  obtain ⟨h₁, h₂⟩ := (h'.setType .inequality).addExp (τ := τ) (h.multiplyBy (-1))
  refine ⟨⟨false, h₁⟩, ?_⟩
  rw [← scalar_le h h']
  refine forall_congr' fun k => ?_
  have hval : (constraintLte e e').val I τ k = e'.val I τ k - e.val I τ k := by
    rw [show constraintLte e e' = (Exp.mk .inequality e'.terms).addExp (e.multiplyBy (-1)) from rfl, h₂,
      Exp.val_multiplyBy, Exp.val_eq, Exp.terms_mk, ← Exp.val_eq]
    ring
  rw [hval, sub_nonneg]

theorem constraintLt_spec {e e' : Exp} (h : e.WellUsed I.cod false) (h' : e'.WellUsed I.cod false) :
    (constraintLt e e').IsConstraint I.cod ∧ ((constraintLt e e').Holds I τ ↔ e.val I τ 0 < e'.val I τ 0) := by
  obtain ⟨h₁, h₂⟩ := h.addTerm (τ := τ) (t := .constVal 1) ⟨rfl, rfl, trivial⟩
  obtain ⟨h₃, h₄⟩ := constraintLte_spec (τ := τ) h₁ h'
  refine ⟨h₃, h₄.trans ?_⟩
  rw [h₂]
  exact Int.add_one_le_iff

/-- The constraints that a production gives say what is written. -/
theorem ConstraintTree.build_spec {c : ConstraintTree} (h : c.Used I.cod) :
    (∀ e ∈ c.build, e.IsConstraint I.cod) ∧ ((∀ e ∈ c.build, e.Holds I τ) ↔ c.Holds I) := by
  have heq : ∀ {e e' : ExpTree} {v : Bool}, e.UsedAs I.cod v → e'.UsedAs I.cod v →
      (constraintEq e.build e'.build).IsConstraint I.cod ∧ ((constraintEq e.build e'.build).Holds I τ ↔
        ∀ k, e.val I k = e'.val I k) := by
    intro e e' v he he'
    obtain ⟨h₁, h₂⟩ := ExpTree.build_spec (τ := τ) he
    obtain ⟨h₃, h₄⟩ := ExpTree.build_spec (τ := τ) he'
    simpa only [h₂, h₄] using constraintEq_spec (τ := τ) h₁ h₃
  have hlte : ∀ {e e' : ExpTree}, e.UsedAs I.cod false → e'.UsedAs I.cod false →
      (constraintLte e.build e'.build).IsConstraint I.cod ∧ ((constraintLte e.build e'.build).Holds I τ ↔
        e.val I 0 ≤ e'.val I 0) := by
    intro e e' he he'
    obtain ⟨h₁, h₂⟩ := ExpTree.build_spec (τ := τ) he
    obtain ⟨h₃, h₄⟩ := ExpTree.build_spec (τ := τ) he'
    simpa only [h₂, h₄] using constraintLte_spec (τ := τ) h₁ h₃
  have hlt : ∀ {e e' : ExpTree}, e.UsedAs I.cod false → e'.UsedAs I.cod false →
      (constraintLt e.build e'.build).IsConstraint I.cod ∧ ((constraintLt e.build e'.build).Holds I τ ↔
        e.val I 0 < e'.val I 0) := by
    intro e e' he he'
    obtain ⟨h₁, h₂⟩ := ExpTree.build_spec (τ := τ) he
    obtain ⟨h₃, h₄⟩ := ExpTree.build_spec (τ := τ) he'
    simpa only [h₂, h₄] using constraintLt_spec (τ := τ) h₁ h₃
  cases c with
  | eq e e' =>
    obtain ⟨v, h₁, h₂⟩ := h
    simpa [build, ConstraintTree.Holds] using heq h₁ h₂
  | lt e e' => simpa [build, ConstraintTree.Holds] using hlt h.1 h.2
  | lte e e' => simpa [build, ConstraintTree.Holds] using hlte h.1 h.2
  | gt e e' => simpa [build, ConstraintTree.Holds, constraintGt] using hlt h.2 h.1
  | gte e e' => simpa [build, ConstraintTree.Holds, constraintGte] using hlte h.2 h.1
  | rangeLteLt e e' e'' =>
    obtain ⟨⟨h₁, h₂⟩, h₃, h₄⟩ := And.intro (hlte h.1 h.2.1) (hlt h.2.1 h.2.2)
    simpa [build, ConstraintTree.Holds, h₂, h₄] using And.intro h₁ h₃
  | rangeLtLte e e' e'' =>
    obtain ⟨⟨h₁, h₂⟩, h₃, h₄⟩ := And.intro (hlt h.1 h.2.1) (hlte h.2.1 h.2.2)
    simpa [build, ConstraintTree.Holds, h₂, h₄] using And.intro h₁ h₃
  | rangeLteLte e e' e'' =>
    obtain ⟨⟨h₁, h₂⟩, h₃, h₄⟩ := And.intro (hlte h.1 h.2.1) (hlte h.2.1 h.2.2)
    simpa [build, ConstraintTree.Holds, h₂, h₄] using And.intro h₁ h₃
  | rangeLtLt e e' e'' =>
    obtain ⟨⟨h₁, h₂⟩, h₃, h₄⟩ := And.intro (hlt h.1 h.2.1) (hlt h.2.1 h.2.2)
    simpa [build, ConstraintTree.Holds, h₂, h₄] using And.intro h₁ h₃

end Build

/-! ## Names become tuple variables -/

namespace TupleDecl

/-- The values of the names: a declared name has the value at its first place. -/
def names (d : TupleDecl) (I : Interp) (τ : Nat → Int) (name : String) : Int :=
  match d.firstPlace d.size name with
  | some l => τ l
  | none => I.sym name

end TupleDecl

theorem Exp.IsConstraint.fitsAs {cod : String → Nat} {e : Exp} (h : e.IsConstraint cod) :
    e.FitsAs cod AnyKind AnyKind AnyCall := by
  obtain ⟨v, h⟩ := h
  exact ⟨v, trivial, h.fits⟩

theorem Exp.IsConstraint.readable {cod : String → Nat} {e : Exp} (h : e.IsConstraint cod) : e.readable = true := by
  obtain ⟨v, h⟩ := h
  exact h.readable

namespace Conjunction

/-- A conjunction all of whose constraints use their terms in one way. -/
structure WellUsed (cod : String → Nat) (c : Conjunction) : Prop where
  readable : c.readable = true
  fits : c.Fits cod AnyKind AnyKind AnyCall

section Named

variable {I : Interp} {τ : Nat → Int}

theorem fits_addEquality {c : Conjunction} {e : Exp} (hc : c.Fits I.cod AnyKind AnyKind AnyCall)
    (he : e.FitsAs I.cod AnyKind AnyKind AnyCall) : (c.addEquality e).Fits I.cod AnyKind AnyKind AnyCall := by
  unfold addEquality
  dsimp only
  split_ifs
  · exact hc
  · intro d hd
    rcases List.mem_append.1 hd with hd | hd
    · rcases SortedList.mem_insertUnique hd with rfl | hd
      · exact fits_normalizeForEquality he
      · exact hc d (List.mem_append_left _ hd)
    · exact hc d (List.mem_append_right _ hd)

theorem fits_addInequality {c : Conjunction} {e : Exp} (hc : c.Fits I.cod AnyKind AnyKind AnyCall)
    (he : e.FitsAs I.cod AnyKind AnyKind AnyCall) : (c.addInequality e).Fits I.cod AnyKind AnyKind AnyCall := by
  unfold addInequality
  split_ifs
  · exact hc
  · intro d hd
    rcases List.mem_append.1 hd with hd | hd
    · exact hc d (List.mem_append_left _ hd)
    · rcases SortedList.mem_insertUnique hd with rfl | hd
      · exact he
      · exact hc d (List.mem_append_right _ hd)

theorem fits_foldl_addConstraint {es : List Exp} {c : Conjunction} (hc : c.Fits I.cod AnyKind AnyKind AnyCall)
    (he : ∀ e ∈ es, e.FitsAs I.cod AnyKind AnyKind AnyCall) :
    (es.foldl addConstraint c).Fits I.cod AnyKind AnyKind AnyCall := by
  induction es generalizing c with
  | nil => exact hc
  | cons e es ih =>
    obtain ⟨he, hes⟩ := List.forall_mem_cons.1 he
    refine ih ?_ hes
    unfold addConstraint
    cases e.expType with
    | equality => exact fits_addEquality hc he
    | inequality => exact fits_addInequality hc he
    | expression => exact hc

theorem isConstraint_varVar (l i : Nat) :
    ((Exp.withTerm (.tupleVar 1 l)).addTerm (.tupleVar (-1) i)).IsConstraint I.cod := by
  obtain ⟨h, -⟩ := wellUsed_withTerm (I := I) (τ := fun _ => 0) (v := false) (t := .tupleVar 1 l) ⟨rfl, rfl, trivial⟩
  exact ⟨false, (h.addTerm (τ := fun _ => 0) (t := .tupleVar (-1) i) ⟨rfl, rfl, trivial⟩).1⟩

/-- The equalities of places of one name fit. -/
theorem fits_named {c : Conjunction} (hc : c.Fits I.cod AnyKind AnyKind AnyCall) :
    c.named.conj.Fits I.cod AnyKind AnyKind AnyCall := by
  unfold named
  induction c.arity with
  | zero => exact hc
  | succ n ih =>
    rw [List.range_succ, List.foldl_append, List.foldl_cons, List.foldl_nil]
    unfold Named.step
    split_ifs
    · exact ih
    · dsimp only
      split
      · exact fits_addEquality ih (isConstraint_varVar _ _).fitsAs
      · exact ih

end Named

section Resolved

variable {I : Interp}

/-- The interpretation with the values at the places for the names of the declaration. -/
def renamed (c : Conjunction) (I : Interp) (τ : Nat → Int) : Interp := I.withNames (c.tupleDecl.names I τ)

/-- The map gives the names of the declaration the values at their first places. -/
theorem evaluates_named {c : Conjunction} (hc : c.WellUsed I.cod) (τ : Nat → Int) :
    c.named.var2TupleVar.EvaluatesLeaves I (c.renamed I τ) τ τ AnyKind AnyCall := by
  have hr : Named.Reached c c.arity c.named := Named.reached hc.readable c.arity
  have hvar : ∀ l, (Exp.withTerm (.tupleVar 1 l)).WellUsed I.cod false ∧
      ∀ k, (Exp.withTerm (.tupleVar 1 l)).val I τ k = scalar (1 * τ l) k := fun l =>
    wellUsed_withTerm (t := .tupleVar 1 l) ⟨rfl, rfl, trivial⟩
  refine ⟨⟨rfl, rfl, rfl⟩, fun p hp => ?_, fun t ht h k => ?_, fun t ht e h k => ?_, fun t e h => ?_, fun t e h => ?_⟩
  · rw [hr.subMap] at hp
    obtain ⟨q, -, rfl⟩ := List.mem_map.1 hp
    rfl
  · cases t with
    | tupleVar k' l => rfl
    | symConst k' name =>
      rw [subExp_named, Option.map_eq_none_iff] at h
      have hname : c.tupleDecl.names I τ name = I.sym name := by
        unfold TupleDecl.names
        rw [show c.tupleDecl.size = c.arity from rfl, h]
      simp only [Term.val, renamed, Interp.withNames, hname]
    | _ => cases ht
  · obtain ⟨k', name, l, rfl, hl, rfl⟩ := subExp_named_eq_some h
    have hname : c.tupleDecl.names I τ name = τ l := by
      unfold TupleDecl.names
      rw [show c.tupleDecl.size = c.arity from rfl, hl]
    simp only [(hvar l).2, Term.setCoefficient, Term.val, renamed, Interp.withNames, hname]
  · obtain ⟨k', name, l, rfl, hl, rfl⟩ := subExp_named_eq_some h
    exact (hvar l).1.readable
  · obtain ⟨k', name, l, rfl, hl, rfl⟩ := subExp_named_eq_some h
    exact (hvar l).1.fits

/-- Replacing the names by tuple variables. -/
theorem resolved_spec {c : Conjunction} (hc : c.WellUsed I.cod) (τ : Nat → Int) : c.resolved.WellUsed I.cod ∧
    (c.resolved.Holds I τ ↔ c.Holds (c.renamed I τ) τ ∧ ∀ i < c.arity, c.tupleDecl.elemIsConst i = false →
      ∀ l, c.tupleDecl.firstPlace i (c.tupleDecl.elemVarString i) = some l → τ l = τ i) := by
  have hr : Named.Reached c c.arity c.named := Named.reached hc.readable c.arity
  have hev := evaluates_named hc τ
  have hread := readable_iff.1 hr.grown.readable
  have hexp : ∀ e ∈ c.named.conj.equalities ++ c.named.conj.inequalities,
      (e.substitute c.named.var2TupleVar).readable = true ∧
      (∀ k, (e.substitute c.named.var2TupleVar).val I τ k = e.val (c.renamed I τ) τ k) ∧
      (e.substitute c.named.var2TupleVar).FitsAs I.cod AnyKind AnyKind AnyCall := by
    intro e he
    obtain ⟨v, -, hf⟩ := fits_named hc.fits e he
    obtain ⟨h₁, h₂, h₃⟩ := Exp.val_substitute hev (P := AnyCall) (fun _ _ _ _ _ _ => trivial)
      ((List.mem_append.1 he).elim (hread.1 e) (hread.2 e)) hf
    exact ⟨h₁, h₂, v, trivial, h₃⟩
  refine ⟨⟨readable_iff.2 ⟨?_, ?_⟩, ?_⟩, ?_⟩
  · intro e he
    obtain ⟨d, hd, rfl⟩ := List.mem_map.1 he
    exact (hexp d (List.mem_append_left _ hd)).1
  · intro e he
    obtain ⟨d, hd, rfl⟩ := List.mem_map.1 he
    exact (hexp d (List.mem_append_right _ hd)).1
  · intro e he
    unfold resolved at he
    rw [← List.map_append] at he
    obtain ⟨d, hd, rfl⟩ := List.mem_map.1 he
    exact (hexp d hd).2.2
  · rw [← hr.grown.holds]
    unfold resolved Holds
    simp only [List.forall_mem_map]
    refine and_congr (forall₂_congr fun e he => ?_) (forall₂_congr fun e he => ?_)
    · simp only [Exp.HoldsEq, (hexp e (List.mem_append_left _ he)).2.1]
    · simp only [Exp.HoldsGe, (hexp e (List.mem_append_right _ he)).2.1]

end Resolved

end Conjunction

/-! ## The conjunction of a body -/

section Body

variable {I : Interp}

theorem forall₂_places {d : TupleDecl} {names : String → Int} {t : List Int} :
    List.Forall₂ (Place.Holds names) d.places t ↔ d.Admits t ∧
      ∀ i < d.size, d.elemIsConst i = false → names (d.elemVarString i) = valuation t i := by
  have hsize : d.places.length = d.size := by simp [TupleDecl.places, TupleDecl.size]
  have hplace : ∀ {i : Nat} (h : i < d.places.length), d.places[i] =
      if d.elemIsConst i then .const (d.elemConstVal i) else .var (d.elemVarString i) := by
    intro i h
    have hget := getElem_places (d := d) (hsize ▸ h)
    rw [List.getElem?_eq_getElem h] at hget
    exact Option.some.inj hget
  have hval : ∀ {i : Nat} (h : i < t.length), valuation t i = t[i] := fun h => List.getD_eq_getElem _ _ h
  rw [List.forall₂_iff_get]
  constructor
  · rintro ⟨hl, h⟩
    have hat : ∀ i (hi : i < d.size), Place.Holds names
        (if d.elemIsConst i then .const (d.elemConstVal i) else .var (d.elemVarString i)) (valuation t i) := by
      intro i hi
      have hip : i < d.places.length := hsize ▸ hi
      have hit : i < t.length := hl ▸ hip
      have := h i hip hit
      rw [List.get_eq_getElem, List.get_eq_getElem, hplace hip] at this
      rw [hval hit]
      exact this
    refine ⟨⟨(hsize ▸ hl).symm, fun i hi hc => ?_⟩, fun i hi hc => ?_⟩
    · have := hat i hi
      rw [if_pos hc] at this
      exact this
    · have := hat i hi
      rw [if_neg (by rw [hc]; exact Bool.false_ne_true)] at this
      exact this
  · rintro ⟨⟨hl, hconst⟩, hvar⟩
    refine ⟨hsize.trans hl.symm, fun i hip hit => ?_⟩
    rw [List.get_eq_getElem, List.get_eq_getElem, hplace hip, ← hval hit]
    cases hc : d.elemIsConst i with
    | true => exact hconst i (hsize ▸ hip) hc
    | false => exact hvar i (hsize ▸ hip) hc

/-- What a tuple has to be for the names to have values. -/
theorem satisfies_iff {d : TupleDecl} {constraints : List ConstraintTree} {t : List Int} :
    Satisfies I d.places constraints t ↔ d.Admits t ∧
      (∀ i < d.size, d.elemIsConst i = false →
        ∀ l, d.firstPlace i (d.elemVarString i) = some l → valuation t l = valuation t i) ∧
      ∀ c ∈ constraints, c.Holds (I.withNames (d.names I (valuation t))) := by
  unfold Satisfies
  simp only [forall₂_places]
  constructor
  · rintro ⟨names, hfree, ⟨hadm, hvar⟩, hc⟩
    have hnames : names = d.names I (valuation t) := by
      funext name
      unfold TupleDecl.names
      cases hl : d.firstPlace d.size name with
      | some l =>
        obtain ⟨hlt, ⟨hconst, rfl⟩, -⟩ := TupleDecl.firstPlace_eq_some.1 hl
        exact hvar l hlt hconst
      | none =>
        refine hfree name fun hmem => ?_
        obtain ⟨i, hi, hconst, hn⟩ := mem_places.1 hmem
        exact TupleDecl.firstPlace_eq_none.1 hl i hi hconst hn
    refine ⟨hadm, fun i hi hconst l hl => ?_, hnames ▸ hc⟩
    obtain ⟨hlt, ⟨hcl, hn⟩, -⟩ := TupleDecl.firstPlace_eq_some.1 hl
    rw [← hvar l (by omega) hcl, ← hvar i hi hconst, hn]
  · rintro ⟨hadm, heq, hc⟩
    refine ⟨d.names I (valuation t), fun name hname => ?_, ⟨hadm, fun i hi hconst => ?_⟩, hc⟩
    · unfold TupleDecl.names
      have hnone : d.firstPlace d.size name = none :=
        TupleDecl.firstPlace_eq_none.2 fun j hj hconst hn => hname (mem_places.2 ⟨j, hj, hconst, hn⟩)
      rw [hnone]
    · unfold TupleDecl.names
      cases hl : d.firstPlace d.size (d.elemVarString i) with
      | none => exact absurd rfl (TupleDecl.firstPlace_eq_none.1 hl i hi hconst)
      | some l =>
        obtain ⟨-, hpl, hfirst⟩ := TupleDecl.firstPlace_eq_some.1 hl
        rcases lt_trichotomy l i with hlt | rfl | hgt
        · exact heq i hi hconst l (TupleDecl.firstPlace_eq_some.2 ⟨hlt, hpl, hfirst⟩)
        · rfl
        · exact absurd rfl (hfirst i hgt hconst)

theorem wellUsed_empty (d : TupleDecl) (inArity : Nat) : (Conjunction.mk [] [] d inArity).WellUsed I.cod :=
  ⟨rfl, fun e he => by cases he⟩

theorem writtenBody_spec (d : TupleDecl) (inArity : Nat) {constraints : List ConstraintTree}
    (hu : ∀ c ∈ constraints, c.Used I.cod) : (writtenBody d inArity constraints).WellUsed I.cod ∧
      (writtenBody d inArity constraints).tupleDecl = d ∧
      ∀ τ, (writtenBody d inArity constraints).Holds I τ ↔ ∀ c ∈ constraints, c.Holds I := by
  have hes : ∀ e ∈ constraints.flatMap ConstraintTree.build, e.IsConstraint I.cod := by
    intro e he
    obtain ⟨c, hc, he⟩ := List.mem_flatMap.1 he
    exact (ConstraintTree.build_spec (τ := fun _ => 0) (hu c hc)).1 e he
  have hadds := Conjunction.foldl_adds Conjunction.addConstraint_adds (c := ⟨[], [], d, inArity⟩) rfl
    fun e he => (hes e he).readable
  have hfits := Conjunction.fits_foldl_addConstraint (wellUsed_empty d inArity).fits fun e he => (hes e he).fitsAs
  refine ⟨⟨hadds.readable, hfits⟩, hadds.tupleDecl, fun τ => ?_⟩
  unfold writtenBody
  rw [hadds.holds]
  have hempty : (Conjunction.mk [] [] d inArity).Holds I τ :=
    ⟨fun e he => (by cases he), fun e he => (by cases he)⟩
  simp only [hempty, true_and, List.forall_mem_flatMap]
  exact forall₂_congr fun c hc => (ConstraintTree.build_spec (hu c hc)).2

/-- Each call of the constraints that the clean-up collapses has the value of the argument that replaces it, or the
interpretation agrees with the recorded inverses and all calls that collapse may be replaced. -/
def CollapsesKeep (env : Environment) (I : Interp) (d : TupleDecl) (constraints : List ConstraintTree) : Prop :=
  ∀ n, (∀ τ, (writtenBody d n constraints).resolved.CollapseKeeps env I τ) ∨
    (I.Consistent env ∧ (writtenBody d n constraints).resolved.CollapsesRight env I.dom I.cod)

/-- What a body is before it is cleaned up has the tuples that satisfy the body, with the names of the declaration as it is. -/
theorem resolved_denote {d : TupleDecl} {inArity : Nat} {constraints : List ConstraintTree}
    (hu : ∀ k ∈ constraints, k.Used I.cod) : (writtenBody d inArity constraints).resolved.WellUsed I.cod ∧
      (writtenBody d inArity constraints).resolved.denote I = {t | Satisfies I d.places constraints t} := by
  obtain ⟨hw, hdecl, -⟩ := writtenBody_spec d inArity hu
  have hrd : (writtenBody d inArity constraints).resolved.tupleDecl = d :=
    (Conjunction.Named.reached hw.readable _).grown.tupleDecl.trans hdecl
  refine ⟨(Conjunction.resolved_spec hw (fun _ => 0)).1, Set.ext fun t => ?_⟩
  have hholds := (Conjunction.resolved_spec hw (valuation t)).2
  have hwritten := (writtenBody_spec (I := I.withNames (d.names I (valuation t))) d inArity hu).2.2
  show (writtenBody d inArity constraints).resolved.tupleDecl.Admits t ∧
    (writtenBody d inArity constraints).resolved.Holds I (valuation t) ↔ Satisfies I d.places constraints t
  rw [satisfies_iff, hholds, hrd]
  unfold Conjunction.renamed Conjunction.arity
  rw [hdecl, hwritten, and_comm (a := ∀ c ∈ constraints, _)]

/-- The conjunction of a body has the tuples that satisfy the body, with the names of the declaration as it is. -/
theorem buildBody_denote {env : Environment} {d : TupleDecl} {inArity : Nat} {constraints : List ConstraintTree}
    {c : Conjunction} (hu : ∀ k ∈ constraints, k.Used I.cod) (hk : CollapsesKeep env I d constraints)
    (h : buildBody env d inArity constraints = .ok c) : c.denote I = {t | Satisfies I d.places constraints t} := by
  rw [buildBody_eq] at h
  obtain ⟨hres, hden⟩ : (writtenBody d inArity constraints).resolved.WellUsed I.cod ∧ _ := resolved_denote hu
  have hdecl : c.tupleDecl = (writtenBody d inArity constraints).resolved.tupleDecl := by
    obtain ⟨-, -, -, -, rfl⟩ := cleanUp_eq_ok h
    rfl
  rw [← hden]
  ext t
  have hkeep : c.Holds I (valuation t) ↔ (writtenBody d inArity constraints).resolved.Holds I (valuation t) := by
    rcases hk inArity with hk | ⟨hI, hk⟩
    · exact (Conjunction.cleanUp_keeps (P := AnyCall) (fun _ _ _ _ _ _ => trivial) hres.readable hres.fits
        (hk (valuation t)) h).1
    · exact Conjunction.holds_cleanUp hres.readable h hI hk.1 hk.2
  show c.tupleDecl.Admits t ∧ c.Holds I (valuation t) ↔ _
  rw [hkeep, hdecl]
  rfl

end Body

namespace SetBody

/-- The tuples that satisfy the body. -/
def tuples (b : SetBody) (I : Interp) : IntTuples := {t | Satisfies I b.places b.constraints t}

end SetBody

namespace RelBody

/-- The tuples that satisfy the body, inputs before outputs. -/
def tuples (b : RelBody) (I : Interp) : IntTuples := {t | Satisfies I b.places b.constraints t}

end RelBody

/-! ## Bodies -/

/-- The tuples that satisfy the body with the names that the parser gives to the declaration. -/
def SetBody.renamedTuples (b : SetBody) (I : Interp) : IntTuples :=
  {t | Satisfies I (tupleDecl b.tuple).places b.constraints t}

/-- The tuples that satisfy the body with the names that the parser gives to the declaration. -/
def RelBody.renamedTuples (b : RelBody) (I : Interp) : IntTuples := {t | Satisfies I b.decl.places b.constraints t}

/-- Where collapsing keeps the values, the conjunction of a body, of a set or of a relation, has the tuples that satisfy
the body iff renaming variables with default names does not change these; so it does when there are no such variables. -/
theorem body_denotes (env : Environment) (I : Interp) (b : SetBody) (r : RelBody)
    (hb : ∀ k ∈ b.constraints, k.Used I.cod) (hr : ∀ k ∈ r.constraints, k.Used I.cod)
    (hkb : CollapsesKeep env I (tupleDecl b.tuple) b.constraints) (hkr : CollapsesKeep env I r.decl r.constraints) :
    (∀ c, b.build env = .ok c → (c.denote I = b.tuples I ↔ b.renamedTuples I = b.tuples I) ∧
      (KeepsNames b.tuple → c.denote I = b.tuples I)) ∧
    ∀ c, relSingleConjunct env r = .ok c ∨ semiRelConjunct env r = .ok c →
      (c.denote I = r.tuples I ↔ r.renamedTuples I = r.tuples I) ∧ (r.KeepsNames → c.denote I = r.tuples I) := by
  constructor
  · intro c hc
    have hd : c.denote I = b.renamedTuples I := buildBody_denote hb hkb hc
    refine ⟨by rw [hd], fun hn => hd.trans ?_⟩
    rw [SetBody.renamedTuples, places_tupleDecl hn]
    rfl
  · intro c hc
    have hd : c.denote I = r.renamedTuples I := hc.elim (buildBody_denote hr hkr) (buildBody_denote hr hkr)
    refine ⟨by rw [hd], fun hn => hd.trans ?_⟩
    rw [RelBody.renamedTuples, RelBody.places_decl hn]
    rfl

/-- `[a, tv0] : tv0 = a` -/
def capturedBody : SetBody :=
  ⟨[.var ⟨"a", by decide⟩, .var ⟨"tv0", by decide⟩], [.eq (.id ⟨"tv0", by decide⟩) (.id ⟨"a", by decide⟩)]⟩

/-- The second variable becomes `tv1`, and the `tv0` of the constraint a symbolic constant. -/
theorem body_captures : ∃ c, capturedBody.build ⟨[], [], []⟩ = .ok c ∧
    ∃ I, [0, 0] ∈ capturedBody.tuples I ∧ [0, 0] ∉ c.denote I := by
  refine ⟨_, rfl, ⟨fun _ => 1, fun _ _ => [], fun _ => 1, fun _ => 1⟩, ?_, ?_⟩
  · refine ⟨fun name => if name = "a" ∨ name = "tv0" then 0 else 1, fun name hname => ?_, ?_, fun k hk => ?_⟩
    · refine if_neg fun h => hname ?_
      rcases h with rfl | rfl
      · exact List.mem_cons_self
      · exact List.mem_cons_of_mem _ List.mem_cons_self
    · exact .cons rfl (.cons rfl .nil)
    · rw [List.mem_singleton.1 hk]
      intro n
      rfl
  · rintro ⟨-, heqs, -⟩
    have := heqs _ (List.mem_cons_self) 0
    revert this
    decide

/-- `[i] : 0 <= i && i < n` -/
def belowBody : SetBody :=
  ⟨[.var ⟨"i", by decide⟩], [.lte (.int 0) (.id ⟨"i", by decide⟩), .lt (.id ⟨"i", by decide⟩) (.id ⟨"n", by decide⟩)]⟩

/-- `[i] -> [j] : j = f(f_inv(i))` -/
def imageBody : RelBody :=
  ⟨[.var ⟨"i", by decide⟩], [.var ⟨"j", by decide⟩], [.eq (.id ⟨"j", by decide⟩) (.func ⟨"f", by decide⟩
    (.one (.func ⟨"f_inv", by decide⟩ (.one (.id ⟨"i", by decide⟩)) none)) none)]⟩

/-- `f` adds one to its argument, its inverse takes one away. -/
def shiftInterp : Interp :=
  ⟨fun _ => 0, fun f x => x.map (if f = "f" then (· + 1) else (· - 1)), fun _ => 1, fun _ => 1⟩

theorem body_denotes_image :
    (∃ c, belowBody.build invertibleF = .ok c ∧ c.denote shiftInterp = belowBody.tuples shiftInterp) ∧
    ∃ c, semiRelConjunct invertibleF imageBody = .ok c ∧ c.equalities = [.mk .equality [.tupleVar 1 0, .tupleVar (-1) 1]] ∧
      c.denote shiftInterp = imageBody.tuples shiftInterp := by
  have hkb : CollapsesKeep invertibleF shiftInterp (tupleDecl belowBody.tuple) belowBody.constraints := by
    refine fun n => .inl fun τ e he => ?_
    have hres : (writtenBody (tupleDecl belowBody.tuple) n belowBody.constraints).resolved =
      ⟨[], [.mk .inequality [.tupleVar 1 0], .mk .inequality [.tupleVar (-1) 0, .symConst 1 "n", .constVal (-1)]],
        tupleDecl belowBody.tuple, n⟩ := rfl
    rw [hres] at he
    simp only [List.nil_append, List.mem_cons, List.not_mem_nil, or_false] at he
    rcases he with rfl | rfl
    · exact ⟨trivial, trivial⟩
    · exact ⟨trivial, trivial, trivial, trivial⟩
  have hkr : CollapsesKeep invertibleF shiftInterp imageBody.decl imageBody.constraints := by
    refine fun n => .inl fun τ e he => ?_
    have hres : (writtenBody imageBody.decl n imageBody.constraints).resolved =
      ⟨[.mk .equality [.tupleVar 1 1, .ufCall (-1) "f" [.mk .expression [.ufCall 1 "f_inv"
        [.mk .expression [.tupleVar 1 0]] none]] none]], [], imageBody.decl, n⟩ := rfl
    rw [hres, List.append_nil, List.mem_singleton] at he
    subst he
    refine ⟨trivial, ⟨⟨⟨⟨⟨⟨trivial, trivial⟩, trivial⟩, fun h => ?_⟩, trivial⟩, trivial⟩, fun _ saved hsaved => ⟨fun k => ?_, ?_⟩⟩,
      trivial⟩
    · cases h
    · cases hsaved
      cases k <;> simp [Term.val, Exp.val, argsVal, Interp.callVal, Interp.argTuple, shiftInterp, scalar]
    · cases hsaved
      simp [Term.UsedAs, Exp.terms, shiftInterp]
  have hb : ∀ k ∈ belowBody.constraints, k.Used shiftInterp.cod := by
    simp [belowBody, ConstraintTree.Used, ExpTree.UsedAs]
  have hr : ∀ k ∈ imageBody.constraints, k.Used shiftInterp.cod := by
    simp [imageBody, ConstraintTree.Used, ExpTree.UsedAs, ExpTrees.Used, shiftInterp]
  obtain ⟨h₁, h₂⟩ := body_denotes invertibleF shiftInterp belowBody imageBody hb hr hkb hkr
  refine ⟨⟨_, rfl, (h₁ _ rfl).2 ?_⟩, _, rfl, rfl, (h₂ _ (.inr rfl)).2 ?_⟩
  · intro i name h _
    cases i with
    | zero => rfl
    | succ i => cases h
  · refine ⟨fun i name h _ => ?_, fun i name h _ => ?_, fun j name h hj => ?_⟩
    · cases i with
      | zero => rfl
      | succ i => cases h
    · cases i with
      | zero => rfl
      | succ i => cases h
    · cases j with
      | zero =>
        cases h
        exact absurd hj (by decide)
      | succ j => cases h

end IEGen
