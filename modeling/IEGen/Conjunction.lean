import IEGen.Reading
import Mathlib.Data.List.GetD

/-!
# Conjunctions and unions of conjunctions

`addEquality` and `addInequality` keep the two lists of a conjunction in order and leave out what is there already;
`addConjunction` does the same for the conjunctions of a union, and takes a conjunction without constraints that is
alone in the union for the placeholder that stands for TRUE.

* A conjunction to which a constraint has been added holds where it held and the constraint holds.
* Conjunctions that neither comes before the other have the same tuples.
* A union to which a conjunction has been added has the tuples of both, unless the placeholder went (`dropPlaceholder`).
-/

namespace IEGen

open SortedList (Tied insertUnique lexLt sizeLexLt)

/-! ## Comparing conjunctions -/

namespace TupleDecl

/-- `sDefaultTupleDecl`: a variable with its default name at every location. -/
def sDefaultTupleDecl (arity : Nat) : TupleDecl :=
  ⟨(List.range arity).map (fun i => ⟨false, 0, sDefaultTupleVarName i⟩)⟩

/-- One step of `TupleDecl::operator<`: variables come before constants, and names do not count. -/
def elemLt (a b : TupleElem) : Bool :=
  match a.isConst, b.isConst with
  | false, false => false
  | true, false => false
  | false, true => true
  | true, true => a.constVal < b.constVal

/-- `TupleDecl::operator<` -/
def lt (d d' : TupleDecl) : Bool := sizeLexLt elemLt d.elems d'.elems

end TupleDecl

namespace Conjunction

/-- `Conjunction(TupleDecl)` -/
def ofTupleDecl (d : TupleDecl) : Conjunction := ⟨[], [], d, 0⟩

def arity (c : Conjunction) : Nat := c.tupleDecl.size

/-- `Conjunction::operator<` -/
def lt (a b : Conjunction) : Bool :=
  if a.tupleDecl.lt b.tupleDecl then true
  else if b.tupleDecl.lt a.tupleDecl then false
  else if a.equalities.length < b.equalities.length then true
  else if b.equalities.length < a.equalities.length then false
  else if a.inequalities.length < b.inequalities.length then true
  else if b.inequalities.length < a.inequalities.length then false
  else if lexLt Exp.lt a.equalities b.equalities then true
  else if lexLt Exp.lt b.equalities a.equalities then false
  else lexLt Exp.lt a.inequalities b.inequalities

/-- `addEquality` -/
def addEquality (c : Conjunction) (equality : Exp) : Conjunction :=
  let e := equality.normalizeForEquality
  if e.equalsZero then c else { c with equalities := insertUnique Exp.lt e.setEquality c.equalities }

/-- `addInequality` -/
def addInequality (c : Conjunction) (inequality : Exp) : Conjunction :=
  if inequality.equalsZero then c
  else { c with inequalities := insertUnique Exp.lt inequality.setInequality c.inequalities }

/-- `hasConstraints` -/
def hasConstraints (c : Conjunction) : Bool := c.equalities.length + c.inequalities.length > 0

/-- `Conjunction::Intersect`: the constraints of both, and the declaration of the first. -/
def Intersect (c rhs : Conjunction) : Conjunction :=
  rhs.inequalities.foldl addInequality (rhs.equalities.foldl addEquality c)

end Conjunction

/-- A single conjunction without constraints indicates TRUE and is taken out. -/
def dropPlaceholder : List Conjunction → List Conjunction
  | [d] => if d.hasConstraints then [d] else []
  | cs => cs

/-- `SparseConstraints::addConjunction` -/
def addConjunction (cs : List Conjunction) (c : Conjunction) : List Conjunction :=
  insertUnique Conjunction.lt c (dropPlaceholder cs)

/-! ## Adding constraints -/

/-- All names of the constraints can be read back from their texts. -/
def Conjunction.readable (c : Conjunction) : Bool :=
  c.equalities.all Exp.readable && c.inequalities.all Exp.readable

theorem Conjunction.readable_iff {c : Conjunction} : c.readable = true ↔
    (∀ e ∈ c.equalities, e.readable = true) ∧ ∀ e ∈ c.inequalities, e.readable = true := by
  simp [Conjunction.readable]

@[simp] theorem readable_mk (k k' : ExpType) (ts : List Term) : (Exp.mk k ts).readable = (Exp.mk k' ts).readable := rfl

theorem readable_setEquality (e : Exp) : e.setEquality.readable = e.readable := by cases e; rfl

theorem readable_setInequality (e : Exp) : e.setInequality.readable = e.readable := by cases e; rfl

theorem readable_multiplyBy {e : Exp} (k : Int) (h : e.readable = true) : (e.multiplyBy k).readable = true := by
  rw [Exp.readable_iff] at h ⊢
  simpa [Term.multiplyBy] using h

theorem readable_normalizeForEquality {e : Exp} (h : e.readable = true) : e.normalizeForEquality.readable = true := by
  obtain ⟨s, -, z, hz, -⟩ := e.normalizeForEquality_spec
  have hm := Exp.readable_iff.1 (readable_multiplyBy s h)
  rw [hz] at hm
  exact Exp.readable_iff.2 (fun t ht => hm t (List.mem_append_left _ ht))

section Holds

variable {I : Interp} {τ : Nat → Int}

theorem val_of_equalsZero {e : Exp} (h : e.equalsZero = true) (k : Nat) : e.val I τ k = 0 := by
  rw [Exp.val_eq]
  simp only [Exp.equalsZero] at h
  split at h
  · next hn => rw [hn]; rfl
  · next t ht => rw [ht, termsVal_cons, Term.val_of_coefficient_zero (by simpa using h)]; rfl
  · cases h

/-- A normalized expression is zero where the expression is. -/
theorem holdsEq_normalizeForEquality {e : Exp} : e.normalizeForEquality.HoldsEq I τ ↔ e.HoldsEq I τ := by
  obtain ⟨s, hs, z, hz, h0⟩ := e.normalizeForEquality_spec
  have hz0 : ∀ k, termsVal I τ z k = 0 := by
    intro k
    clear hz
    induction z with
    | nil => rfl
    | cons t z ih =>
      rw [termsVal_cons, Term.val_of_coefficient_zero (h0 t List.mem_cons_self),
        ih (fun u hu => h0 u (List.mem_cons_of_mem _ hu)), add_zero]
  have hv : ∀ k, e.normalizeForEquality.val I τ k = e.val I τ k * s := by
    intro k
    rw [← Exp.val_multiplyBy, Exp.val_eq (e.multiplyBy s), hz, termsVal_append, hz0, add_zero, Exp.val_eq]
  simp only [Exp.HoldsEq, hv]
  rcases hs with rfl | rfl <;> simp

theorem Exp.val_setEquality (e : Exp) : e.setEquality.val I τ = e.val I τ := by cases e; rfl

theorem Exp.val_setInequality (e : Exp) : e.setInequality.val I τ = e.val I τ := by cases e; rfl

namespace Conjunction

/-- What a step that adds constraints to a conjunction keeps and changes. -/
structure Adds (c c' : Conjunction) (P : Interp → (Nat → Int) → Prop) : Prop where
  tupleDecl : c'.tupleDecl = c.tupleDecl
  inArity : c'.inArity = c.inArity
  readable : c'.readable = true
  holds : ∀ I τ, c'.Holds I τ ↔ c.Holds I τ ∧ P I τ

theorem addEquality_adds {c : Conjunction} {e : Exp} (hc : c.readable = true) (he : e.readable = true) :
    Adds c (c.addEquality e) (fun I τ => e.HoldsEq I τ) := by
  obtain ⟨heqs, hineqs⟩ := readable_iff.1 hc
  have hre : e.normalizeForEquality.setEquality.readable = true := by
    rw [readable_setEquality]; exact readable_normalizeForEquality he
  simp only [addEquality]
  split_ifs with h0
  · refine ⟨rfl, rfl, hc, fun I τ => ?_⟩
    rw [← holdsEq_normalizeForEquality]
    exact ⟨fun h => ⟨h, fun k => val_of_equalsZero h0 k⟩, fun h => h.1⟩
  · refine ⟨rfl, rfl, readable_iff.2 ⟨fun d hd => ?_, hineqs⟩, fun I τ => ?_⟩
    · rcases SortedList.mem_insertUnique hd with rfl | hd
      · exact hre
      · exact heqs d hd
    · have hP : ∀ y ∈ c.equalities, Tied Exp.lt e.normalizeForEquality.setEquality y → y.HoldsEq I τ →
          e.normalizeForEquality.setEquality.HoldsEq I τ := by
        intro y hy ht hz k
        rw [Exp.val_of_tied (Exp.comparable_of_readable hre) (Exp.comparable_of_readable (heqs y hy)) ht, hz k]
      have hs : e.normalizeForEquality.setEquality.HoldsEq I τ ↔ e.HoldsEq I τ := by
        rw [← holdsEq_normalizeForEquality (e := e)]
        simp only [Exp.HoldsEq, Exp.val_setEquality]
      simp only [Holds, SortedList.forall_insertUnique hP, hs]
      tauto

theorem addInequality_adds {c : Conjunction} {e : Exp} (hc : c.readable = true) (he : e.readable = true) :
    Adds c (c.addInequality e) (fun I τ => e.HoldsGe I τ) := by
  obtain ⟨heqs, hineqs⟩ := readable_iff.1 hc
  have hre : e.setInequality.readable = true := by rw [readable_setInequality]; exact he
  simp only [addInequality]
  split_ifs with h0
  · exact ⟨rfl, rfl, hc, fun I τ => ⟨fun h => ⟨h, fun k => (val_of_equalsZero h0 k).ge⟩, fun h => h.1⟩⟩
  · refine ⟨rfl, rfl, readable_iff.2 ⟨heqs, fun d hd => ?_⟩, fun I τ => ?_⟩
    · rcases SortedList.mem_insertUnique hd with rfl | hd
      · exact hre
      · exact hineqs d hd
    · have hP : ∀ y ∈ c.inequalities, Tied Exp.lt e.setInequality y → y.HoldsGe I τ →
          e.setInequality.HoldsGe I τ := by
        intro y hy ht hz k
        rw [Exp.val_of_tied (Exp.comparable_of_readable hre) (Exp.comparable_of_readable (hineqs y hy)) ht]
        exact hz k
      have hs : e.setInequality.HoldsGe I τ ↔ e.HoldsGe I τ := by
        rw [Exp.HoldsGe, Exp.val_setInequality, Exp.HoldsGe]
      simp only [Holds, SortedList.forall_insertUnique hP, hs]
      tauto

theorem Adds.refl {c : Conjunction} (hc : c.readable = true) : Adds c c (fun _ _ => True) :=
  ⟨rfl, rfl, hc, fun _ _ => by simp⟩

theorem Adds.trans {c c' c'' : Conjunction} {P Q : Interp → (Nat → Int) → Prop} (h : Adds c c' P) (h' : Adds c' c'' Q) :
    Adds c c'' (fun I τ => P I τ ∧ Q I τ) :=
  ⟨h'.tupleDecl.trans h.tupleDecl, h'.inArity.trans h.inArity, h'.readable,
    fun I τ => by rw [h'.holds, h.holds, and_assoc]⟩

theorem Adds.congr {c c' : Conjunction} {P Q : Interp → (Nat → Int) → Prop} (h : Adds c c' P)
    (hpq : ∀ I τ, P I τ ↔ Q I τ) : Adds c c' Q :=
  ⟨h.tupleDecl, h.inArity, h.readable, fun I τ => by rw [h.holds, hpq]⟩

/-- Adding a list of constraints, one after the other. -/
theorem foldl_adds {add : Conjunction → Exp → Conjunction} {P : Exp → Interp → (Nat → Int) → Prop}
    (hadd : ∀ {c : Conjunction} {e : Exp}, c.readable = true → e.readable = true → Adds c (add c e) (P e)) :
    ∀ {es : List Exp} {c : Conjunction}, c.readable = true → (∀ e ∈ es, e.readable = true) →
      Adds c (es.foldl add c) (fun I τ => ∀ e ∈ es, P e I τ)
  | [], _, hc, _ => (Adds.refl hc).congr (by simp)
  | e :: es, _, hc, he => by
    have h₁ := hadd hc (he e List.mem_cons_self)
    have h₂ := foldl_adds hadd h₁.readable (fun d hd => he d (List.mem_cons_of_mem _ hd))
    exact (h₁.trans h₂).congr (by simp)

theorem intersect_adds {c rhs : Conjunction} (hc : c.readable = true) (hr : rhs.readable = true) :
    Adds c (c.Intersect rhs) (fun I τ => rhs.Holds I τ) := by
  obtain ⟨heqs, hineqs⟩ := readable_iff.1 hr
  have h₁ := foldl_adds addEquality_adds hc heqs
  exact h₁.trans (foldl_adds addInequality_adds h₁.readable hineqs)

end Conjunction

end Holds

/-! ## Unions -/

section Union

variable {I : Interp}

/-- Conjunctions that neither comes before the other are tied in each of their three parts. -/
theorem Conjunction.tied_parts {a b : Conjunction} (h : Tied Conjunction.lt a b) :
    Tied TupleDecl.lt a.tupleDecl b.tupleDecl ∧ List.Forall₂ (Tied Exp.lt) a.equalities b.equalities ∧
      List.Forall₂ (Tied Exp.lt) a.inequalities b.inequalities := by
  obtain ⟨h₁, h₂⟩ := h
  simp only [Conjunction.lt] at h₁ h₂
  split_ifs at h₁ h₂ with d₁ d₂ l₁ l₂ m₁ m₂ e₁ e₂
  have hl : a.equalities.length = b.equalities.length := by omega
  have hm : a.inequalities.length = b.inequalities.length := by omega
  exact ⟨⟨by simpa using d₁, by simpa using d₂⟩, (SortedList.tied_lexLt hl).1 ⟨by simpa using e₁, by simpa using e₂⟩,
    (SortedList.tied_lexLt hm).1 ⟨h₁, h₂⟩⟩

theorem hasConstraints_eq_false {c : Conjunction} : c.hasConstraints = false ↔ c.equalities = [] ∧ c.inequalities = [] := by
  simp [Conjunction.hasConstraints, List.length_eq_zero_iff]

theorem hasConstraints_of_tied {c d : Conjunction} (h : Tied Conjunction.lt c d) : c.hasConstraints = d.hasConstraints := by
  obtain ⟨-, he, hi⟩ := Conjunction.tied_parts h
  rw [Conjunction.hasConstraints, Conjunction.hasConstraints, he.length_eq, hi.length_eq]

/-- Tied elements are both variables, or both the same constant. -/
theorem TupleDecl.tied_elem {a b : TupleElem} (h : Tied TupleDecl.elemLt a b) :
    a.isConst = b.isConst ∧ (a.isConst = true → a.constVal = b.constVal) := by
  obtain ⟨h₁, h₂⟩ := h
  cases ha : a.isConst <;> cases hb : b.isConst <;> simp [TupleDecl.elemLt, ha, hb] at h₁ h₂ ⊢
  omega

/-- Tied declarations admit the same tuples. -/
theorem TupleDecl.admits_of_tied {d d' : TupleDecl} (h : Tied TupleDecl.lt d d') {t : List Int} :
    d.Admits t → d'.Admits t := by
  have hf : List.Forall₂ (Tied TupleDecl.elemLt) d.elems d'.elems := SortedList.tied_sizeLexLt.1 h
  have hl : d.size = d'.size := hf.length_eq
  rintro ⟨ht, hc⟩
  refine ⟨ht.trans hl, fun i hi hconst => ?_⟩
  have hi' : i < d.elems.length := by rw [← hl] at hi; exact hi
  have he : Tied TupleDecl.elemLt (d.elem i) (d'.elem i) := by
    simp only [TupleDecl.elem, List.getD_eq_getElem _ _ hi', List.getD_eq_getElem _ _ (show i < d'.elems.length from hi)]
    exact hf.get _ _
  obtain ⟨hk, hv⟩ := TupleDecl.tied_elem he
  have hd : d.elemIsConst i = true := by rw [TupleDecl.elemIsConst, hk]; exact hconst
  rw [hc i (hl ▸ hi) hd]
  exact hv hd

/-- The expressions of the conjunction can be compared by their values. -/
def Conjunction.comparable (c : Conjunction) : Bool :=
  c.equalities.all Exp.comparable && c.inequalities.all Exp.comparable

theorem Conjunction.comparable_iff {c : Conjunction} : c.comparable = true ↔
    (∀ e ∈ c.equalities, e.comparable = true) ∧ ∀ e ∈ c.inequalities, e.comparable = true := by
  simp [Conjunction.comparable]

theorem Conjunction.comparable_of_readable {c : Conjunction} (h : c.readable = true) : c.comparable = true := by
  obtain ⟨h₁, h₂⟩ := readable_iff.1 h
  exact comparable_iff.2 ⟨fun e he => Exp.comparable_of_readable (h₁ e he), fun e he => Exp.comparable_of_readable (h₂ e he)⟩

theorem forall₂_holds {P : Exp → Prop} (hP : ∀ {e e' : Exp}, e.comparable = true → e'.comparable = true →
    Tied Exp.lt e e' → P e → P e') {es es' : List Exp} (hr : ∀ e ∈ es, e.comparable = true)
    (hr' : ∀ e ∈ es', e.comparable = true) (h : List.Forall₂ (Tied Exp.lt) es es') (ha : ∀ e ∈ es, P e) :
    ∀ e ∈ es', P e := by
  induction h with
  | nil => simp
  | cons ht _ ih =>
    simp only [List.forall_mem_cons] at hr hr' ha ⊢
    exact ⟨hP hr.1 hr'.1 ht ha.1, ih hr.2 hr'.2 ha.2⟩

/-- Conjunctions that neither comes before the other hold alike. -/
theorem Conjunction.holds_of_tied {a b : Conjunction} (ha : a.comparable = true) (hb : b.comparable = true)
    (h : Tied Conjunction.lt a b) {τ : Nat → Int} (ht : a.Holds I τ) : b.Holds I τ := by
  obtain ⟨-, he, hi⟩ := Conjunction.tied_parts h
  obtain ⟨ha₁, ha₂⟩ := comparable_iff.1 ha
  obtain ⟨hb₁, hb₂⟩ := comparable_iff.1 hb
  refine ⟨forall₂_holds ?_ ha₁ hb₁ he ht.1, forall₂_holds ?_ ha₂ hb₂ hi ht.2⟩
  · intro e e' hr hr' htied hz k
    rw [← Exp.val_of_tied hr hr' htied, hz k]
  · intro e e' hr hr' htied hz k
    rw [← Exp.val_of_tied hr hr' htied]
    exact hz k

/-- Conjunctions that neither comes before the other have the same tuples. -/
theorem Conjunction.denote_of_tied {a b : Conjunction} (ha : a.comparable = true) (hb : b.comparable = true)
    (h : Tied Conjunction.lt a b) {t : List Int} (ht : t ∈ a.denote I) : t ∈ b.denote I :=
  ⟨TupleDecl.admits_of_tied (Conjunction.tied_parts h).1 ht.1, Conjunction.holds_of_tied ha hb h ht.2⟩

theorem dropPlaceholder_subset {cs : List Conjunction} {c : Conjunction} (h : c ∈ dropPlaceholder cs) : c ∈ cs := by
  match cs with
  | [] | _ :: _ :: _ => exact h
  | [d] =>
    simp only [dropPlaceholder] at h
    split_ifs at h
    · exact h
    · simp at h

theorem mem_addConjunction {cs : List Conjunction} {c d : Conjunction} (h : d ∈ addConjunction cs c) :
    d = c ∨ d ∈ cs := by
  exact (SortedList.mem_insertUnique h).imp_right dropPlaceholder_subset

theorem mem_foldl_addConjunction {cs : List Conjunction} {c : Conjunction} : ∀ {ds : List Conjunction},
    c ∈ cs.foldl addConjunction ds → c ∈ ds ∨ c ∈ cs := by
  induction cs with
  | nil => exact fun h => .inl h
  | cons d cs ih =>
    intro ds h
    rcases ih h with h | h
    · exact (mem_addConjunction h).elim (fun h => .inr (h ▸ List.mem_cons_self ..)) .inl
    · exact .inr (List.mem_cons_of_mem _ h)

/-- A union to which a conjunction has been added has the tuples of both, the placeholder left out. -/
theorem mem_denoteUnion_addConjunction {cs : List Conjunction} {c : Conjunction} (hc : c.readable = true)
    (hcs : ∀ d ∈ cs, d.readable = true) {t : List Int} :
    t ∈ denoteUnion I (addConjunction cs c) ↔ t ∈ c.denote I ∨ t ∈ denoteUnion I (dropPlaceholder cs) := by
  exact SortedList.exists_insertUnique (fun d hd ht => Conjunction.denote_of_tied
    (Conjunction.comparable_of_readable hc) (Conjunction.comparable_of_readable (hcs d (dropPlaceholder_subset hd))) ht)

end Union

end IEGen
