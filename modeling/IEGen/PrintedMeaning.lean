import IEGen.PrintedBodies
import IEGen.Functions
import IEGen.Texts

/-!
# What a printed set means

The trees of the terms have their values without the signs (`Term.val_tree`) and are used as the terms are
(`Term.usedAs_tree`), and so the trees of the constraints say what these do (`Conjunction.holds_trees`). The declaration
that is read may have other names than the printed one. A conjunction with the tuples that satisfy the trees under its names is
read for the printed conjunction exactly where the names are kept (`Conjunction.readFor_iff`).
-/

namespace IEGen

open SortedList (Sorted)

/-! ## Values -/

section Values

variable {d : TupleDecl} {I : Interp} {τ : Nat → Int} {names : String → Int}

/-- The sign of a coefficient. -/
def sgn (c : Int) : Int := if c < 0 then -1 else 1

theorem sgn_mul_natAbs (c : Int) : sgn c * c.natAbs = c := by
  unfold sgn
  split <;> omega

theorem val_scaled (J : Interp) (c : Int) (e : ExpTree) (k : Nat) : (scaled c e).val J k = c.natAbs * e.val J k := by
  unfold scaled
  split
  · next h => rw [h, Nat.cast_one, one_mul]
  · rw [ExpTree.val]

theorem val_signed (J : Interp) (c : Int) (e : ExpTree) (k : Nat) : (signed c e).val J k = sgn c * e.val J k := by
  unfold signed sgn
  split
  · rw [ExpTree.val, neg_one_mul]
  · rw [one_mul]

theorem val_plusOrDash (J : Interp) (c : Int) (e e' : ExpTree) (k : Nat) :
    (plusOrDash c e e').val J k = e.val J k + sgn c * e'.val J k := by
  unfold plusOrDash sgn
  split
  · rw [ExpTree.val, neg_one_mul, ← sub_eq_add_neg]
  · rw [ExpTree.val, one_mul]

/-- The name at a place that is not constant has the value of the variable there. -/
def NamesPlace (d : TupleDecl) (τ : Nat → Int) (names : String → Int) (l : Nat) : Prop :=
  l < d.size → d.elemIsConst l = false → names (d.elemVarString l) = τ l

theorem val_name {s : String} {name : Ident} (h : ident? s = some name) (I : Interp) (c : Int) (k : Nat) :
    sgn c * (scaled c (.id name)).val I k = scalar (c * I.sym s) k := by
  unfold ident? at h
  split_ifs at h
  cases h
  rw [val_scaled, ExpTree.val, ← mul_assoc, sgn_mul_natAbs]
  cases k <;> simp

mutual
/-- The tree of a term has its value, without the sign. -/
theorem Term.val_tree : ∀ {t : Term} {e : ExpTree}, t.Scanned d → t.VarsIn (NamesPlace d τ names) →
    (∀ s, t.hasSymbol s → names s = I.sym s) → t.tree d = some e →
    ∀ k, t.val I τ k = sgn t.coefficient * e.val (I.withNames names) k
  | .tupleVar c l, e, hn, hv, _, h, k => by
    rw [Term.tree] at h
    split_ifs at h with hl
    obtain ⟨name, hname, rfl⟩ := Option.map_eq_some_iff.1 h
    show scalar (c * τ l) k = sgn c * _
    have hval : names (d.elemVarString l) = τ l := hv hn.1 (by simpa using hl)
    rw [val_name hname, ← hval]
    rfl
  | .symConst c s, e, _, _, hs, h, k => by
    obtain ⟨name, hname, rfl⟩ := Option.map_eq_some_iff.1 h
    show scalar (c * I.sym s) k = sgn c * _
    rw [val_name hname, ← hs s rfl]
    rfl
  | .ufCall c f as i, e, hn, hv, hs, h, k => by
    obtain ⟨name, hname, h⟩ := Option.bind_eq_some_iff.1 h
    obtain ⟨list, hlist, h⟩ := Option.bind_eq_some_iff.1 h
    rw [ident?_eq hn.1] at hname
    cases hname
    cases h
    have hargs := val_argsTree hn.2 hv hs hlist
    show _ = sgn c * _
    rw [val_scaled, ← mul_assoc, sgn_mul_natAbs]
    cases i with
    | none =>
      show c * I.callVal f (argsVal I τ as) k = _
      rw [hargs]
      rfl
    | some j =>
      show scalar (c * I.indexVal f (argsVal I τ as) j) k = _
      rw [hargs, ExpTree.val]
      cases k with
      | zero => rfl
      | succ k => exact (mul_zero _).symm
  | .constVal c, e, _, _, _, h, k => by
    cases h
    show scalar c k = sgn c * scalar (c.natAbs : Int) k
    cases k with
    | zero => exact (sgn_mul_natAbs c).symm
    | succ k => exact (mul_zero _).symm
  | .tupleExp c es, e, hn, hv, hs, h, k => by
    obtain ⟨list, hlist, h⟩ := Option.bind_eq_some_iff.1 h
    have hargs := val_argsTree hn hv hs hlist
    cases list with
    | one _ => cases h
    | cons e' rest =>
      cases h
      show c * ((argsVal I τ es).getD k (scalar 0)) 0 = sgn c * _
      rw [val_scaled, ← mul_assoc, sgn_mul_natAbs, hargs]
      rfl

theorem Exp.val_tree : ∀ {e : Exp} {e' : ExpTree}, e.Scanned d → e.VarsIn (NamesPlace d τ names) →
    (∀ s, e.hasSymbol s → names s = I.sym s) → e.tree d = some e' → e.val I τ = e'.val (I.withNames names)
  | .mk _ [], e', _, _, _, h => by
    cases h
    funext k
    cases k <;> rfl
  | .mk _ (t :: ts), e', hn, hv, hs, h => by
    obtain ⟨e, he, h⟩ := Option.bind_eq_some_iff.1 h
    funext k
    rw [val_termsTree hn.2 hv.2 (fun s h => hs s (.inr h)) h, val_signed,
      ← Term.val_tree hn.1 hv.1 (fun s h => hs s (.inl h)) he]
    rfl

theorem val_termsTree : ∀ {ts : List Term} {e e' : ExpTree}, termsScanned d ts → termsVarsIn (NamesPlace d τ names) ts →
    (∀ s, termsHaveSymbol s ts → names s = I.sym s) → termsTree d e ts = some e' →
    ∀ k, e'.val (I.withNames names) k = e.val (I.withNames names) k + termsVal I τ ts k
  | [], e, e', _, _, _, h, k => by
    cases h
    exact (add_zero _).symm
  | t :: ts, e, e', hn, hv, hs, h, k => by
    obtain ⟨u, hu, h⟩ := Option.bind_eq_some_iff.1 h
    rw [val_termsTree hn.2 hv.2 (fun s h => hs s (.inr h)) h, val_plusOrDash,
      ← Term.val_tree hn.1 hv.1 (fun s h => hs s (.inl h)) hu, termsVal_cons, add_assoc]

theorem val_argsTree : ∀ {es : List Exp} {list : ExpTrees}, argsScanned d es → argsVarsIn (NamesPlace d τ names) es →
    (∀ s, argsHaveSymbol s es → names s = I.sym s) → argsTree d es = some list →
    argsVal I τ es = list.vals (I.withNames names)
  | [], list, _, _, _, h => by cases h
  | e :: es, list, hn, hv, hs, h => by
    obtain ⟨t, ht, h⟩ := Option.bind_eq_some_iff.1 h
    rw [val_restArgsTree hn.2 hv.2 (fun s h => hs s (.inr h)) h, ← Exp.val_tree hn.1 hv.1 (fun s h => hs s (.inl h)) ht]
    rfl

theorem val_restArgsTree : ∀ {es : List Exp} {e : ExpTree} {list : ExpTrees}, argsScanned d es →
    argsVarsIn (NamesPlace d τ names) es → (∀ s, argsHaveSymbol s es → names s = I.sym s) →
    restArgsTree d e es = some list → list.vals (I.withNames names) = e.val (I.withNames names) :: argsVal I τ es
  | [], e, list, _, _, _, h => by
    cases h
    rfl
  | e' :: es, e, list, hn, hv, hs, h => by
    obtain ⟨t, ht, h⟩ := Option.bind_eq_some_iff.1 h
    obtain ⟨rest, hrest, h⟩ := Option.bind_eq_some_iff.1 h
    cases h
    rw [ExpTrees.vals, val_restArgsTree hn.2 hv.2 (fun s h => hs s (.inr h)) hrest,
      ← Exp.val_tree hn.1 hv.1 (fun s h => hs s (.inl h)) ht]
    rfl
end

/-- The sum of a side. -/
theorem val_sumTree (J : Interp) (es : List ExpTree) (k : Nat) :
    (sumTree es).val J k = (es.map fun e => e.val J k).sum := by
  have hfoldl : ∀ (es : List ExpTree) (e : ExpTree),
      (es.foldl .plus e).val J k = e.val J k + (es.map fun e => e.val J k).sum := by
    intro es
    induction es with
    | nil => exact fun e => (add_zero _).symm
    | cons e' es ih =>
      intro e
      rw [List.foldl_cons, ih, List.map_cons, List.sum_cons, ExpTree.val, add_assoc]
  cases es with
  | nil => cases k <;> rfl
  | cons e es => exact hfoldl es e

/-- The terms of a side with the constant. -/
theorem val_side (J : Interp) (es : List ExpTree) (o : Option Int) (k : Nat) :
    (sumTree (es ++ (o.map intTree).toList)).val J k = (es.map fun e => e.val J k).sum + scalar (o.getD 0) k := by
  rw [val_sumTree, List.map_append, List.sum_append]
  cases o with
  | none => cases k <;> simp
  | some c =>
    have hc : (intTree c).val J k = scalar c k := by
      rw [intTree, val_signed, ExpTree.val]
      cases k with
      | zero => exact sgn_mul_natAbs c
      | succ k => exact mul_zero _
    simp [hc]

/-- The terms of one sign have the values of their trees, with that sign. -/
theorem sum_trees {ts : List Term} {es : List ExpTree} (hn : ∀ t ∈ ts, t.Scanned d)
    (hv : ∀ t ∈ ts, t.VarsIn (NamesPlace d τ names)) (hs : ∀ t ∈ ts, ∀ s, t.hasSymbol s → names s = I.sym s) {g : Int}
    (hg : ∀ t ∈ ts, sgn t.coefficient = g)
    (h : ts.mapM (Term.tree d) = some es) (k : Nat) :
    termsVal I τ ts k = g * (es.map fun e => e.val (I.withNames names) k).sum := by
  induction ts generalizing es with
  | nil =>
    cases h
    exact (mul_zero g).symm
  | cons t ts ih =>
    obtain ⟨hn₀, hn⟩ := List.forall_mem_cons.1 hn
    obtain ⟨hv₀, hv⟩ := List.forall_mem_cons.1 hv
    obtain ⟨hs₀, hs⟩ := List.forall_mem_cons.1 hs
    obtain ⟨hg₀, hg⟩ := List.forall_mem_cons.1 hg
    rw [List.mapM_cons] at h
    obtain ⟨e, he, h⟩ := Option.bind_eq_some_iff.1 h
    obtain ⟨es, hes, h⟩ := Option.bind_eq_some_iff.1 h
    cases h
    rw [termsVal_cons, ih hn hv hs hg hes, Term.val_tree hn₀ hv₀ hs₀ he, hg₀, List.map_cons, List.sum_cons, mul_add]

theorem termsVal_reverse (ts : List Term) (k : Nat) : termsVal I τ ts.reverse k = termsVal I τ ts k := by
  induction ts with
  | nil => rfl
  | cons t ts ih =>
    rw [List.reverse_cons, termsVal_append, ih, termsVal_cons, termsVal_cons, termsVal_nil, add_zero, add_comm]

/-- The terms of a constraint are its constants, those of the left side and those of the right side. -/
theorem termsVal_sides (e : Exp) (k : Nat) : e.val I τ k = termsVal I τ (e.terms.filter Term.isConst) k +
    termsVal I τ e.leftSide k + termsVal I τ e.rightSide k := by
  unfold Exp.leftSide Exp.rightSide
  rw [termsVal_reverse, termsVal_reverse, Exp.val_eq]
  induction e.terms with
  | nil => rfl
  | cons t ts ih =>
    rw [termsVal_cons, ih]
    cases hc : t.isConst <;> by_cases hneg : t.coefficient < 0 <;> simp [hc, hneg] <;> ring

/-- The value of the constants is that of the one there is. -/
theorem termsVal_const {ts : List Term} (hs : Sorted Term.factorLt ts) (hc : termsCanonical ts) (kind : ExpType) :
    (Exp.mk kind ts).constT ≠ some 0 ∧
      ∀ k, termsVal I τ (ts.filter Term.isConst) k = scalar ((Exp.mk kind ts).constT.getD 0) k := by
  unfold Exp.constT
  rw [Exp.terms_mk]
  rcases consts_cases hs hc with h | ⟨c, hne, h⟩
  · rw [h]
    exact ⟨nofun, fun k => by cases k <;> rfl⟩
  · rw [h]
    exact ⟨fun h => hne (Option.some.inj h), fun k => add_zero _⟩

theorem termsHaveSymbol_of_mem {ts : List Term} {t : Term} {s : String} (ht : t ∈ ts) (h : t.hasSymbol s) :
    termsHaveSymbol s ts := by
  induction ts with
  | nil => cases ht
  | cons u ts ih =>
    rcases List.mem_cons.1 ht with rfl | ht
    · exact .inl h
    · exact .inr (ih ht)

/-- The sides of the tree of a constraint, with what their terms and the constant are worth. -/
theorem Exp.val_constraintTree {e : Exp} {kind : ExpType} {K : ConstraintTree} (hb : BuiltExp kind e)
    (hn : e.Scanned d) (hv : e.VarsIn (NamesPlace d τ names)) (hs : ∀ s, e.hasSymbol s → names s = I.sym s)
    (h : e.constraintTree d = some K) :
    ∃ (leftEmpty : Bool) (l r : ExpTree) (L R : Nat → Int), K = compared kind e.constT leftEmpty l r ∧ e.constT ≠ some 0 ∧
      (∀ j, e.val I τ j = scalar (e.constT.getD 0) j - L j + R j) ∧
      (∀ j, l.val (I.withNames names) j = L j + scalar ((leftConst kind e.constT leftEmpty).getD 0) j) ∧
      ∀ j, r.val (I.withNames names) j = R j + scalar ((rightConst kind e.constT leftEmpty).getD 0) j := by
  obtain ⟨hkind, -, hcanon, -⟩ := hb
  obtain ⟨k, ts⟩ := e
  obtain rfl : k = kind := hkind
  obtain ⟨-, hsorted, hterms⟩ : (Exp.mk .expression ts).Canonical := hcanon
  obtain ⟨left, hleft, h⟩ := Option.bind_eq_some_iff.1 h
  obtain ⟨right, hright, h⟩ := Option.bind_eq_some_iff.1 h
  cases h
  have hscan : ∀ t ∈ (Exp.mk k ts).terms, t.Scanned d := termsScanned_iff.1 hn
  have hvars : ∀ t ∈ (Exp.mk k ts).terms, t.VarsIn (NamesPlace d τ names) := Exp.varsIn_iff.1 hv
  have hsym : ∀ t ∈ (Exp.mk k ts).terms, ∀ s, t.hasSymbol s → names s = I.sym s :=
    fun t ht s hts => hs s (termsHaveSymbol_of_mem ht hts)
  obtain ⟨hzero, hconst⟩ := termsVal_const (I := I) hsorted hterms k
  refine ⟨left.isEmpty, _, _, fun j => (left.map fun e => e.val (I.withNames names) j).sum,
    fun j => (right.map fun e => e.val (I.withNames names) j).sum, rfl, hzero, fun j => ?_, val_side _ left _,
    val_side _ right _⟩
  have hl := sum_trees (g := -1) (fun t ht => hscan t (mem_of_mem_leftSide ht))
    (fun t ht => hvars t (mem_of_mem_leftSide ht))
    (fun t ht => hsym t (mem_of_mem_leftSide ht))
    (fun t ht => by
      have hneg := (List.mem_filter.1 (List.mem_reverse.1 ht)).2
      simp only [Bool.and_eq_true, decide_eq_true_eq] at hneg
      exact if_pos hneg.2) hleft j
  have hr := sum_trees (g := 1) (fun t ht => hscan t (mem_of_mem_rightSide ht))
    (fun t ht => hvars t (mem_of_mem_rightSide ht))
    (fun t ht => hsym t (mem_of_mem_rightSide ht))
    (fun t ht => by
      have hpos := (List.mem_filter.1 (List.mem_reverse.1 ht)).2
      simp only [Bool.and_eq_true, Bool.not_eq_true', decide_eq_false_iff_not] at hpos
      exact if_neg hpos.2) hright j
  have hc := hconst j
  rw [termsVal_sides, hl, hr, Exp.terms_mk, hc]
  ring

/-- The tree of an equality says what the equality does. -/
theorem Exp.holds_equalityTree {e : Exp} {K : ConstraintTree} (hb : BuiltExp .equality e) (hn : e.Scanned d)
    (hv : e.VarsIn (NamesPlace d τ names)) (hs : ∀ s, e.hasSymbol s → names s = I.sym s) (h : e.constraintTree d = some K) :
    K.Holds (I.withNames names) ↔ e.HoldsEq I τ := by
  obtain ⟨leftEmpty, l, r, L, R, rfl, -, hval, hl, hr⟩ := Exp.val_constraintTree hb hn hv hs h
  have hK : compared .equality e.constT leftEmpty l r = .eq l r := by
    cases e.constT <;> rfl
  rw [hK]
  refine forall_congr' fun j => ?_
  have hconst : scalar ((leftConst .equality e.constT leftEmpty).getD 0) j + scalar (e.constT.getD 0) j =
      scalar ((rightConst .equality e.constT leftEmpty).getD 0) j := by
    cases j with
    | succ j => rfl
    | zero =>
      simp only [scalar_zero, leftConst, rightConst]
      cases e.constT with
      | none => rfl
      | some c =>
        dsimp only
        split_ifs <;> simp <;> omega
  rw [hl, hr, hval]
  omega

/-- The tree of an inequality between integers says what the inequality does. -/
theorem Exp.holds_inequalityTree {e : Exp} {K : ConstraintTree} (hb : BuiltExp .inequality e) (hn : e.Scanned d)
    (hv : e.VarsIn (NamesPlace d τ names)) (hs : ∀ s, e.hasSymbol s → names s = I.sym s) (h : e.constraintTree d = some K)
    (hI : ∀ j, e.val I τ (j + 1) = 0) : K.Holds (I.withNames names) ↔ e.HoldsGe I τ := by
  obtain ⟨leftEmpty, l, r, L, R, rfl, hzero, hval, hl, hr⟩ := Exp.val_constraintTree hb hn hv hs h
  have hge : e.HoldsGe I τ ↔ 0 ≤ e.constT.getD 0 - L 0 + R 0 := by
    have h0 : e.val I τ 0 = e.constT.getD 0 - L 0 + R 0 := hval 0
    rw [← h0]
    refine ⟨fun h => h 0, fun h j => ?_⟩
    cases j with
    | zero => exact h
    | succ j => exact (hI j).ge
  have hl₀ := hl 0
  have hr₀ := hr 0
  rw [scalar_zero] at hl₀ hr₀
  rw [hge]
  cases hc : e.constT with
  | none =>
    rw [hc] at hl₀ hr₀
    show l.val _ 0 ≤ r.val _ 0 ↔ _
    rw [hl₀, hr₀]
    simp only [leftConst, rightConst, Option.getD_none]
    omega
  | some c =>
    rw [hc] at hl₀ hr₀
    have hne : c ≠ 0 := fun h => hzero (by rw [hc, h])
    have hC : (some c).getD 0 = c := rfl
    rw [hC]
    rcases lt_or_gt_of_ne hne with hneg | hpos
    · have hK : compared .inequality (some c) leftEmpty l r = .lt l r := by simp [compared, hneg]
      have hleft : (leftConst .inequality (some c) leftEmpty).getD 0 = -c - 1 := by
        unfold leftConst
        dsimp only
        rw [if_pos hneg]
        split_ifs with hone
        · exact hone.symm
        · rfl
      have hright : (rightConst .inequality (some c) leftEmpty).getD 0 = 0 := by
        have hpos : ¬ 0 < c := by omega
        simp [rightConst, hpos]
      rw [hK]
      show l.val _ 0 < r.val _ 0 ↔ _
      omega
    · have hneg : ¬ c < 0 := by omega
      cases leftEmpty with
      | true =>
        have hK : compared .inequality (some c) true l r = .lt l r := by simp [compared, hpos]
        have hleft : (leftConst .inequality (some c) true).getD 0 = -c - 1 := by simp [leftConst, hneg, hpos]
        have hright : (rightConst .inequality (some c) true).getD 0 = 0 := by simp [rightConst]
        rw [hK]
        show l.val _ 0 < r.val _ 0 ↔ _
        omega
      | false =>
        have hK : compared .inequality (some c) false l r = .lte l r := by simp [compared, hneg]
        have hleft : (leftConst .inequality (some c) false).getD 0 = 0 := by simp [leftConst, hneg]
        have hright : (rightConst .inequality (some c) false).getD 0 = c := by simp [rightConst, hpos]
        rw [hK]
        show l.val _ 0 ≤ r.val _ 0 ↔ _
        omega

end Values

/-! ## How the trees are used -/

section Used

variable {d : TupleDecl} {cod : String → Nat} {v : Bool}

theorem usedAs_scaled {e : ExpTree} (c : Int) (h : e.UsedAs cod v) : (scaled c e).UsedAs cod v := by
  unfold scaled
  split <;> exact h

theorem usedAs_signed {e : ExpTree} (c : Int) (h : e.UsedAs cod v) : (signed c e).UsedAs cod v := by
  unfold signed
  split <;> exact h

theorem usedAs_plusOrDash {e e' : ExpTree} (c : Int) (h : e.UsedAs cod v) (h' : e'.UsedAs cod v) :
    (plusOrDash c e e').UsedAs cod v := by
  unfold plusOrDash
  split <;> exact ⟨h, h'⟩

mutual
/-- The tree of a term is used as the term is. -/
theorem Term.usedAs_tree : ∀ {t : Term} {e : ExpTree} {v : Bool}, t.readable = true → t.UsedAs cod v →
    t.Fits cod AnyKind AnyCall → t.tree d = some e → e.UsedAs cod v
  | .tupleVar c l, e, v, _, hu, _, h => by
    rw [Term.tree] at h
    split_ifs at h
    obtain ⟨name, -, rfl⟩ := Option.map_eq_some_iff.1 h
    exact usedAs_scaled c hu
  | .symConst c s, e, v, _, hu, _, h => by
    obtain ⟨name, -, rfl⟩ := Option.map_eq_some_iff.1 h
    exact usedAs_scaled c hu
  | .ufCall c f as i, e, v, hr, hu, hf, h => by
    simp only [Term.readable, Bool.and_eq_true] at hr
    obtain ⟨name, hname, h⟩ := Option.bind_eq_some_iff.1 h
    obtain ⟨list, hlist, h⟩ := Option.bind_eq_some_iff.1 h
    cases h
    have hargs := used_argsTree hr.2 hf.2 hlist
    unfold ident? at hname
    split_ifs at hname
    cases hname
    refine usedAs_scaled c ?_
    cases i <;> exact ⟨hu, hargs⟩
  | .constVal c, e, v, _, hu, _, h => by
    cases h
    exact .inl hu
  | .tupleExp c es, e, v, hr, _, _, _ => by cases hr

theorem Exp.usedAs_tree : ∀ {e : Exp} {e' : ExpTree}, e.readable = true → e.Fits cod AnyKind AnyCall →
    e.tree d = some e' → ∃ v, e'.UsedAs cod v
  | .mk _ [], e', _, _, h => by
    cases h
    exact ⟨false, .inl rfl⟩
  | .mk _ (t :: ts), e', hr, ⟨v, _, hf⟩, h => by
    simp only [Exp.readable, termsReadable, Bool.and_eq_true] at hr
    obtain ⟨e, he, h⟩ := Option.bind_eq_some_iff.1 h
    exact ⟨v, usedAs_termsTree hr.2 hf.2 (usedAs_signed _ (Term.usedAs_tree hr.1 hf.1.1 hf.1.2 he)) h⟩

theorem usedAs_termsTree : ∀ {ts : List Term} {e e' : ExpTree} {v : Bool}, termsReadable ts = true →
    termsFits cod AnyKind AnyCall v ts → e.UsedAs cod v → termsTree d e ts = some e' → e'.UsedAs cod v
  | [], e, e', v, _, _, he, h => by
    cases h
    exact he
  | t :: ts, e, e', v, hr, hf, he, h => by
    simp only [termsReadable, Bool.and_eq_true] at hr
    obtain ⟨u, hu, h⟩ := Option.bind_eq_some_iff.1 h
    exact usedAs_termsTree hr.2 hf.2 (usedAs_plusOrDash _ he (Term.usedAs_tree hr.1 hf.1.1 hf.1.2 hu)) h

theorem used_argsTree : ∀ {es : List Exp} {list : ExpTrees}, argsReadable es = true → argsFits cod AnyKind AnyCall es →
    argsTree d es = some list → list.Used cod
  | [], list, _, _, h => by cases h
  | e :: es, list, hr, hf, h => by
    simp only [argsReadable, Bool.and_eq_true] at hr
    obtain ⟨t, ht, h⟩ := Option.bind_eq_some_iff.1 h
    exact used_restArgsTree hr.2 hf.2 (Exp.usedAs_tree hr.1 hf.1 ht) h

theorem used_restArgsTree : ∀ {es : List Exp} {e : ExpTree} {list : ExpTrees}, argsReadable es = true →
    argsFits cod AnyKind AnyCall es → (∃ v, e.UsedAs cod v) → restArgsTree d e es = some list → list.Used cod
  | [], e, list, _, _, he, h => by
    cases h
    exact he
  | e' :: es, e, list, hr, hf, he, h => by
    simp only [argsReadable, Bool.and_eq_true] at hr
    obtain ⟨t, ht, h⟩ := Option.bind_eq_some_iff.1 h
    obtain ⟨rest, hrest, h⟩ := Option.bind_eq_some_iff.1 h
    cases h
    exact ⟨he, used_restArgsTree hr.2 hf.2 (Exp.usedAs_tree hr.1 hf.1 ht) hrest⟩
end

theorem usedAs_sumTree {es : List ExpTree} (h : ∀ e ∈ es, e.UsedAs cod v) : (sumTree es).UsedAs cod v := by
  have hfoldl : ∀ (es : List ExpTree) (e : ExpTree), e.UsedAs cod v → (∀ e ∈ es, e.UsedAs cod v) →
      (es.foldl .plus e).UsedAs cod v := by
    intro es
    induction es with
    | nil => exact fun e he _ => he
    | cons e' es ih =>
      intro e he hes
      obtain ⟨he', hes⟩ := List.forall_mem_cons.1 hes
      exact ih _ ⟨he, he'⟩ hes
  cases es with
  | nil => exact .inr rfl
  | cons e es =>
    obtain ⟨he, hes⟩ := List.forall_mem_cons.1 h
    exact hfoldl es e he hes

/-- The terms of a side with the constant. -/
theorem usedAs_side {ts : List Term} {es : List ExpTree} (hr : ∀ t ∈ ts, t.readable = true)
    (hf : ∀ t ∈ ts, t.UsedAs cod v ∧ t.Fits cod AnyKind AnyCall) (h : ts.mapM (Term.tree d) = some es) {o : Option Int}
    (ho : o = none ∨ v = false) : (sumTree (es ++ (o.map intTree).toList)).UsedAs cod v := by
  refine usedAs_sumTree fun e he => ?_
  rcases List.mem_append.1 he with he | he
  · obtain ⟨t, ht, hte⟩ := Outcome.exists_of_mem_forall₂ (Outcome.forall₂_of_mapM_some h) he
    exact Term.usedAs_tree (hr t ht) (hf t ht).1 (hf t ht).2 hte
  · obtain ⟨c, hc, rfl⟩ := List.mem_map.1 (Option.toList_map .. ▸ he)
    rcases ho with rfl | hv
    · cases hc
    · exact usedAs_signed c (.inl hv)

/-- The tree of a constraint is used as the constraint is. -/
theorem Exp.used_constraintTree {e : Exp} {K : ConstraintTree} {top : Bool → Prop} (hr : e.readable = true)
    (hk : e.expType = .equality ∨ e.expType = .inequality ∧ ∀ v, top v → v = false)
    (hf : e.FitsAs cod top AnyKind AnyCall) (h : e.constraintTree d = some K) : K.Used cod := by
  obtain ⟨v, htop, hf⟩ := hf
  obtain ⟨left, hleft, h⟩ := Option.bind_eq_some_iff.1 h
  obtain ⟨right, hright, h⟩ := Option.bind_eq_some_iff.1 h
  have hterms := Exp.readable_iff.1 hr
  have hconst : e.constT = none ∨ v = false := by
    cases hl : (e.terms.filter Term.isConst).getLast? with
    | none => exact .inl (by rw [Exp.constT, hl]; rfl)
    | some t =>
      obtain ⟨ht, hc⟩ := List.mem_filter.1 (List.mem_of_getLast? hl)
      have hused := (hf t ht).1
      cases t with
      | constVal c => exact .inr hused
      | _ => cases hc
  have hside : ∀ leftEmpty : Bool, (leftConst e.expType e.constT leftEmpty = none ∨ v = false) ∧
      (rightConst e.expType e.constT leftEmpty = none ∨ v = false) := by
    intro leftEmpty
    refine ⟨hconst.imp_left fun hnone => ?_, hconst.imp_left fun hnone => ?_⟩
    · rw [hnone]; cases e.expType <;> rfl
    · rw [hnone]; cases e.expType <;> rfl
  have hl := usedAs_side (fun t ht => hterms t (mem_of_mem_leftSide ht)) (fun t ht => hf t (mem_of_mem_leftSide ht)) hleft
    (hside left.isEmpty).1
  have hright' := usedAs_side (fun t ht => hterms t (mem_of_mem_rightSide ht)) (fun t ht => hf t (mem_of_mem_rightSide ht))
    hright (hside left.isEmpty).2
  cases h
  rcases hk with hk | ⟨hk, hv⟩
  · rw [hk] at hl hright' ⊢
    cases hc : e.constT <;> exact ⟨v, hc ▸ hl, hc ▸ hright'⟩
  · obtain rfl := hv v htop
    rw [hk] at hl hright' ⊢
    unfold compared
    split
    · split_ifs <;> exact ⟨hl, hright'⟩
    · exact ⟨hl, hright'⟩
    · exact ⟨false, hl, hright'⟩

end Used

/-! ## Conjunctions -/

/-- Terms that are added up are used in one way, and inequalities compare integers. -/
structure Conjunction.UsedRight (cod : String → Nat) (c : Conjunction) : Prop where
  equalities : ∀ e ∈ c.equalities, e.FitsAs cod AnyKind AnyKind AnyCall
  inequalities : ∀ e ∈ c.inequalities, e.FitsAs cod Scalar AnyKind AnyCall

/-- The names of a declaration stand for what they stand for in the conjunction: no symbolic constant has the name of a
place, the variables of the constraints have the names they are printed with, and places with one name have one value. -/
structure Conjunction.NamesKept (I : Interp) (c : Conjunction) (d : TupleDecl) : Prop where
  symbols : ∀ s, c.hasSymbol s → .var s ∉ d.places
  vars : c.VarsIn fun l => d.elemVarString l = c.tupleDecl.elemVarString l
  places : ∀ t ∈ c.denote I, ∀ i < d.size, ∀ l < d.size, d.elemIsConst i = false → d.elemIsConst l = false →
    d.elemVarString l = d.elemVarString i → valuation t l = valuation t i

/-- A conjunction that is read for another one: the names of the other stand for what they stand for there, and it has the
same tuples. -/
structure Conjunction.ReadFor (I : Interp) (c c' : Conjunction) : Prop where
  symbols : ∀ s, c.hasSymbol s → .var s ∉ c'.tupleDecl.places
  vars : c.VarsIn fun l => c'.tupleDecl.elemVarString l = c.tupleDecl.elemVarString l
  tuples : c'.denote I = c.denote I

/-- The declarations have one size and the same constants. -/
def TupleDecl.SameConstants (d d' : TupleDecl) : Prop :=
  List.Forall₂ (fun e e' => e.isConst = e'.isConst ∧ (e'.isConst = true → e.constVal = e'.constVal)) d.elems d'.elems

namespace TupleDecl.SameConstants

variable {d d' : TupleDecl}

theorem size (h : d.SameConstants d') : d.size = d'.size := h.length_eq

theorem elem (h : d.SameConstants d') (i : Nat) : d.elemIsConst i = d'.elemIsConst i ∧
    (d'.elemIsConst i = true → d.elemConstVal i = d'.elemConstVal i) := by
  unfold TupleDecl.elemIsConst TupleDecl.elemConstVal TupleDecl.elem
  by_cases hi : i < d.elems.length
  · have hi' : i < d'.elems.length := h.length_eq ▸ hi
    rw [List.getD_eq_getElem _ _ hi, List.getD_eq_getElem _ _ hi']
    exact (List.forall₂_iff_get.1 h).2 i hi hi'
  · rw [List.getD_eq_default _ _ (Nat.le_of_not_lt hi), List.getD_eq_default _ _ (h.length_eq ▸ Nat.le_of_not_lt hi)]
    exact ⟨rfl, fun _ => rfl⟩

theorem admits_iff (h : d.SameConstants d') {t : List Int} : d.Admits t ↔ d'.Admits t := by
  unfold TupleDecl.Admits
  rw [h.size]
  refine and_congr_right fun _ => forall₂_congr fun i _ => ?_
  rw [(h.elem i).1]
  exact forall_congr' fun hc => by rw [(h.elem i).2 hc]

/-- A declaration that is read has the constants of the one that is printed. -/
theorem of_tree {es : List TupleElem} {ts : List TupleElemTree} (h : es.mapM TupleElem.tree = some ts) :
    (tupleDecl ts).SameConstants ⟨es⟩ := by
  have hall := Outcome.forall₂_of_mapM_some h
  rw [tupleDecl_eq]
  refine List.forall₂_iff_get.2 ⟨by simp [hall.length_eq], fun i h₁ h₂ => ?_⟩
  have hi' : i < ts.length := by simpa using h₁
  have hget : (es[i]).tree = some ts[i] := (List.forall₂_iff_get.1 hall).2 i h₂ hi'
  simp only [List.get_eq_getElem, List.getElem_mapIdx]
  unfold TupleElem.tree at hget
  split_ifs at hget with hconst hpos
  · rw [← Option.some.inj hget]
    exact ⟨hconst.symm, fun _ => Int.natAbs_of_nonneg hpos⟩
  · obtain ⟨name, -, hname⟩ := Option.map_eq_some_iff.1 hget
    rw [← hname]
    exact ⟨(Bool.not_eq_true _ ▸ hconst).symm, fun h => absurd h hconst⟩

/-- Appending renames variables only. -/
theorem concat {l l' : List TupleElem} (h : d.SameConstants ⟨l⟩) (h' : d'.SameConstants ⟨l'⟩) :
    (d.concat d').SameConstants ⟨l ++ l'⟩ := by
  refine List.rel_append h (List.forall₂_iff_get.2 ⟨by simpa using h'.length_eq, fun i h₁ h₂ => ?_⟩)
  have hi : i < d'.elems.length := by simpa using h₁
  have hget := (List.forall₂_iff_get.1 h').2 i hi h₂
  simp only [List.get_eq_getElem, List.getElem_mapIdx] at hget ⊢
  split_ifs <;> exact hget

end TupleDecl.SameConstants

section Meaning

variable {c : Conjunction} {I : Interp}

/-- The places with one name have the value of the first of them. -/
theorem namesPlace_names {d : TupleDecl} {τ : Nat → Int} (h : ∀ i < d.size, d.elemIsConst i = false →
    ∀ l, d.firstPlace i (d.elemVarString i) = some l → τ l = τ i) (l : Nat) : NamesPlace d τ (d.names I τ) l := by
  intro hl hconst
  unfold TupleDecl.names
  cases hf : d.firstPlace d.size (d.elemVarString l) with
  | none => exact absurd rfl (TupleDecl.firstPlace_eq_none.1 hf l hl hconst)
  | some j =>
    obtain ⟨-, hj, hfirst⟩ := TupleDecl.firstPlace_eq_some.1 hf
    rcases lt_trichotomy j l with hlt | rfl | hgt
    · exact h l hl hconst j (TupleDecl.firstPlace_eq_some.2 ⟨hlt, hj, hfirst⟩)
    · rfl
    · exact absurd rfl (hfirst l hgt hconst)

namespace Conjunction

/-- The trees of the constraints are used as the constraints are. -/
theorem used_trees {cod : String → Nat} (hc : c.Built) (hu : c.UsedRight cod) {ks : List ConstraintTree}
    (hks : c.constraints.mapM (Exp.constraintTree c.tupleDecl) = some ks) : ∀ K ∈ ks, K.Used cod := by
  intro K hK
  obtain ⟨e, he, h⟩ := Outcome.exists_of_mem_forall₂ (Outcome.forall₂_of_mapM_some hks) hK
  rcases List.mem_append.1 he with he | he
  · obtain ⟨hb, -⟩ := hc.equalities e he
    exact Exp.used_constraintTree hb.readable (.inl hb.expType) (hu.equalities e he) h
  · have hb := hc.inequalities e he
    exact Exp.used_constraintTree hb.readable (.inr ⟨hb.expType, fun v hv => hv⟩) (hu.inequalities e he) h

/-- The trees of the constraints say what the constraints do. -/
theorem holds_trees {τ : Nat → Int} {names : String → Int} (hc : c.Built) (hn : c.Scanned)
    (hv : c.VarsIn (NamesPlace c.tupleDecl τ names)) (hs : ∀ s, c.hasSymbol s → names s = I.sym s) (hu : c.UsedRight I.cod)
    {ks : List ConstraintTree} (hks : c.constraints.mapM (Exp.constraintTree c.tupleDecl) = some ks) :
    (∀ K ∈ ks, K.Holds (I.withNames names)) ↔ c.Holds I τ := by
  rw [constraints, List.mapM_append] at hks
  obtain ⟨eqs, heqs, hks⟩ := Option.bind_eq_some_iff.1 hks
  obtain ⟨ineqs, hineqs, hks⟩ := Option.bind_eq_some_iff.1 hks
  cases hks
  rw [List.forall_mem_append]
  refine and_congr (Outcome.forall_iff_of_forall₂ (Outcome.forall₂_of_mapM_some heqs) fun e he K hK => ?_)
    (Outcome.forall_iff_of_forall₂ (Outcome.forall₂_of_mapM_some hineqs) fun e he K hK => ?_)
  · have hmem : e ∈ c.constraints := List.mem_append_left _ he
    exact Exp.holds_equalityTree (hc.equalities e he).1 (hn e hmem) (hv e hmem) (fun s h => hs s ⟨e, hmem, h⟩) hK
  · have hmem : e ∈ c.constraints := List.mem_append_right _ he
    refine Exp.holds_inequalityTree (hc.inequalities e he) (hn e hmem) (hv e hmem) (fun s h => hs s ⟨e, hmem, h⟩) hK
      fun j => ?_
    obtain ⟨v, hscalar, hfits⟩ := hu.inequalities e he
    obtain rfl : v = false := hscalar
    rw [Exp.val_eq_scalar (hc.inequalities e he).readable fun t ht => (hfits t ht).1]
    rfl

/-- Where the names are kept, what satisfies the trees with the declaration that is read are the tuples of the conjunction
in which places with one name agree. -/
theorem satisfies_trees_iff (hc : c.Built) (hn : c.Scanned) (hu : c.UsedRight I.cod) {ks : List ConstraintTree}
    (hks : c.constraints.mapM (Exp.constraintTree c.tupleDecl) = some ks) {d : TupleDecl}
    (hd : d.SameConstants c.tupleDecl) (hsym : ∀ s, c.hasSymbol s → .var s ∉ d.places)
    (hvars : c.VarsIn fun l => d.elemVarString l = c.tupleDecl.elemVarString l) {t : List Int} :
    Satisfies I d.places ks t ↔ t ∈ c.denote I ∧ ∀ i < d.size, d.elemIsConst i = false →
      ∀ l, d.firstPlace i (d.elemVarString i) = some l → valuation t l = valuation t i := by
  have hfree : ∀ s, c.hasSymbol s → d.names I (valuation t) s = I.sym s := by
    intro s h
    have hnone : d.firstPlace d.size s = none :=
      TupleDecl.firstPlace_eq_none.2 fun j hj hcj hname => hsym s h (mem_places.2 ⟨j, hj, hcj, hname⟩)
    unfold TupleDecl.names
    rw [hnone]
  rw [satisfies_iff, hd.admits_iff]
  have htrees : (∀ i < d.size, d.elemIsConst i = false → ∀ l, d.firstPlace i (d.elemVarString i) = some l →
      valuation t l = valuation t i) →
      ((∀ K ∈ ks, K.Holds (I.withNames (d.names I (valuation t)))) ↔ c.Holds I (valuation t)) := by
    intro hplaces
    refine holds_trees hc hn (fun e he => (hvars e he).imp fun l hl hlt hcl => ?_) hfree hu hks
    rw [← hl]
    exact namesPlace_names hplaces l (hd.size ▸ hlt) ((hd.elem l).1.trans hcl)
  constructor
  · rintro ⟨hadm, hplaces, hholds⟩
    exact ⟨⟨hadm, (htrees hplaces).1 hholds⟩, hplaces⟩
  · rintro ⟨⟨hadm, hholds⟩, hplaces⟩
    exact ⟨hadm, hplaces, (htrees hplaces).2 hholds⟩

/-- A conjunction with the tuples that satisfy the trees is read for the conjunction exactly where its names are kept. -/
theorem readFor_iff (hc : c.Built) (hn : c.Scanned) (hu : c.UsedRight I.cod) {ks : List ConstraintTree}
    (hks : c.constraints.mapM (Exp.constraintTree c.tupleDecl) = some ks) {c' : Conjunction}
    (hd : c'.tupleDecl.SameConstants c.tupleDecl) (hden : c'.denote I = {t | Satisfies I c'.tupleDecl.places ks t}) :
    c.ReadFor I c' ↔ c.NamesKept I c'.tupleDecl := by
  constructor
  · rintro ⟨hsym, hvars, htuples⟩
    refine ⟨hsym, hvars, fun t ht i hi l hl hci hcl hname => ?_⟩
    rw [← htuples, hden] at ht
    have hplaces := namesPlace_names (I := I) ((satisfies_trees_iff hc hn hu hks hd hsym hvars).1 ht).2
    rw [← hplaces l hl hcl, ← hplaces i hi hci, hname]
  · rintro ⟨hsym, hvars, hplaces⟩
    refine ⟨hsym, hvars, hden.trans (Set.ext fun t => (satisfies_trees_iff hc hn hu hks hd hsym hvars).trans ?_)⟩
    refine and_iff_left_of_imp fun ht i hi hci l hl => ?_
    obtain ⟨hlt, ⟨hcl, hname⟩, -⟩ := TupleDecl.firstPlace_eq_some.1 hl
    exact hplaces t ht i hi l (hlt.trans hi) hci hcl hname

end Conjunction

end Meaning

end IEGen
