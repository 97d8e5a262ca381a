import IEGen.CleanedUp
import IEGen.Substitute

/-!
# The values of expressions that are built anew

Adding up terms keeps their value where terms of one factor have one value: a call without index stands for all
components of its function, and is merged with the call of index `0`. So the terms of an expression have to be used in
one way (`UsedAs`): as integers, or as the calls of functions of several components. Under this discipline collapsing
nested inverses keeps the value where each call that collapses has the value of what it collapses to
(`Exp.val_collapse`).
-/

namespace IEGen

open SortedList (Tied)

/-! ## Merging terms -/

/-- How a term is used: as an integer, or, a call without index of a function with several components, for these. -/
def Term.UsedAs (cod : String → Nat) (vector : Bool) : Term → Prop
  | .ufCall _ f _ none => vector = false ↔ cod f = 1
  | _ => vector = false

theorem Term.UsedAs.setCoefficient {cod : String → Nat} {v : Bool} {t : Term} (c : Int) (h : t.UsedAs cod v) :
    (t.setCoefficient c).UsedAs cod v := by
  cases t with
  | ufCall c' f as i => cases i <;> exact h
  | _ => exact h

section Merge

variable {I : Interp} {τ : Nat → Int} {v : Bool}

/-- Factors that match have one value. -/
theorem Term.val_of_factorMatches {t u : Term} (hr : t.readable = true) (hr' : u.readable = true)
    (ht : t.UsedAs I.cod v) (hu : u.UsedAs I.cod v) (hm : t.factorMatches u = true) (k : Nat) :
    (t.setCoefficient 1).val I τ k = (u.setCoefficient 1).val I τ k := by
  have hzero : ∀ (f : String) (vs : List (Nat → Int)), I.cod f = 1 →
      (fun k => 1 * I.callVal f vs k) = scalar (1 * I.indexVal f vs 0) := by
    intro f vs hcod
    funext k
    cases k <;> simp [Interp.callVal, Interp.indexVal, hcod]
  cases t <;> cases u <;> simp [Term.factorMatches] at hm
  case tupleVar.tupleVar => rw [hm]; rfl
  case symConst.symConst => rw [hm]; rfl
  case constVal.constVal => rfl
  case tupleExp.tupleExp => cases hr
  case ufCall.ufCall c f as i c' f' as' i' =>
    obtain ⟨⟨rfl, hi⟩, ha⟩ := hm
    simp only [Term.readable, Bool.and_eq_true] at hr hr'
    have hv := argsVal_of_toString_eq (I := I) (τ := τ) (argsLegible_of_readable hr.2) (argsLegible_of_readable hr'.2) ha
    cases i with
    | none =>
      cases i' with
      | none => simp only [Term.setCoefficient, Term.val, hv]
      | some j =>
        obtain rfl : 0 = j := hi
        have hcod : I.cod f = 1 := ht.1 hu
        simp only [Term.setCoefficient, Term.val, hv]
        exact congrFun (hzero f _ hcod) k
    | some j =>
      cases i' with
      | none =>
        obtain rfl : j = 0 := hi
        have hcod : I.cod f = 1 := hu.1 ht
        simp only [Term.setCoefficient, Term.val, hv]
        exact (congrFun (hzero f _ hcod) k).symm
      | some j' =>
        obtain rfl : j = j' := hi
        simp only [Term.setCoefficient, Term.val, hv]

/-- Terms that can be merged. -/
def Mergeable (cod : String → Nat) (v : Bool) (t : Term) : Prop := t.readable = true ∧ t.UsedAs cod v

theorem Mergeable.setCoefficient {cod : String → Nat} {t : Term} (c : Int) (h : Mergeable cod v t) :
    Mergeable cod v (t.setCoefficient c) :=
  ⟨by rw [readable_setCoefficient]; exact h.1, h.2.setCoefficient c⟩

theorem termsVal_addOne {ts : List Term} {t : Term} (hts : ∀ u ∈ ts, Mergeable I.cod v u) (ht : Mergeable I.cod v t)
    (k : Nat) : termsVal I τ (addOne ts t) k = termsVal I τ ts k + t.val I τ k := by
  unfold addOne
  split_ifs with h0
  · rw [Term.val_of_coefficient_zero h0, add_zero]
  · refine termsVal_insertTerm fun u hu u' hc => ?_
    unfold combineSimple at hc
    split_ifs at hc with hm
    obtain ⟨hr, hs⟩ := hts u hu
    rw [← Option.some.inj hc, Term.val_setCoefficient, Term.val_eq_mul u, Term.val_eq_mul t,
      Term.val_of_factorMatches hr ht.1 hs ht.2 hm]
    ring

theorem termsVal_foldl_addOne {us acc : List Term} (hu : ∀ u ∈ us, Mergeable I.cod v u)
    (ha : ∀ t ∈ acc, Mergeable I.cod v t) (k : Nat) :
    termsVal I τ (us.foldl addOne acc) k = termsVal I τ acc k + termsVal I τ us k := by
  induction us generalizing acc with
  | nil => exact (add_zero _).symm
  | cons u us ih =>
    obtain ⟨h, hus⟩ := List.forall_mem_cons.1 hu
    rw [List.foldl_cons, ih hus (forall_addOne (fun c t h => h.setCoefficient c) h ha), termsVal_addOne ha h,
      termsVal_cons, add_assoc]

theorem Exp.val_addExp {e e' : Exp} (he : ∀ t ∈ e.terms, Mergeable I.cod v t) (he' : ∀ t ∈ e'.terms, Mergeable I.cod v t)
    (k : Nat) : (e.addExp e').val I τ k = e.val I τ k + e'.val I τ k := by
  have hr : e'.readable = true := Exp.readable_iff.2 fun t ht => (he' t ht).1
  rw [Exp.val_eq, terms_addExp hr, termsVal_foldl_addOne he' he, ← Exp.val_eq, ← Exp.val_eq]

theorem Exp.val_addTerm {e : Exp} {t : Term} (he : ∀ t ∈ e.terms, Mergeable I.cod v t) (ht : Mergeable I.cod v t)
    (k : Nat) : (e.addTerm t).val I τ k = e.val I τ k + t.val I τ k := by
  rw [Exp.val_eq, terms_addTerm ht.1, termsVal_addOne he ht, ← Exp.val_eq]

end Merge

/-! ## Integers -/

section Integers

variable {I : Interp} {τ : Nat → Int}

/-- Integers only. -/
def Scalar (v : Bool) : Prop := v = false

/-- Nothing is asked of a call. -/
def AnyCall (_ : String) (_ : Option Nat) (_ : List Exp) : Prop := True

/-- Terms that are used as integers have one component. -/
theorem Term.val_eq_scalar {t : Term} (hr : t.readable = true) (h : t.UsedAs I.cod false) (k : Nat) :
    t.val I τ k = scalar (t.val I τ 0) k := by
  cases t with
  | tupleExp => cases hr
  | ufCall c f as i =>
    cases i with
    | none =>
      have hcod : I.cod f = 1 := h.1 rfl
      cases k <;> simp [Term.val, Interp.callVal, hcod]
    | some j => cases k <;> rfl
  | _ => cases k <;> rfl

theorem Exp.val_eq_scalar {e : Exp} (hr : e.readable = true) (h : ∀ t ∈ e.terms, t.UsedAs I.cod false) (k : Nat) :
    e.val I τ k = scalar (e.val I τ 0) k := by
  rw [Exp.readable_iff] at hr
  rw [Exp.val_eq]
  generalize e.terms = ts at hr h
  induction ts with
  | nil => cases k <;> rfl
  | cons t ts ih =>
    obtain ⟨hrt, hrts⟩ := List.forall_mem_cons.1 hr
    obtain ⟨ht, hts⟩ := List.forall_mem_cons.1 h
    rw [termsVal_cons, termsVal_cons, Term.val_eq_scalar hrt ht, ih hrts hts]
    cases k <;> simp

end Integers

/-! ## Expressions whose terms are used in one way -/

section Fits

variable (cod : String → Nat) (kinds : Bool → Prop) (P : String → Option Nat → List Exp → Prop)

mutual
/-- The calls meet `P`, and each of the expressions inside uses its terms in one of the ways in `kinds`. -/
def Term.Fits : Term → Prop
  | .ufCall _ f as i => P f i as ∧ argsFits as
  | _ => True

def Exp.Fits : Exp → Prop
  | .mk _ ts => ∃ v, kinds v ∧ termsFits v ts

def argsFits : List Exp → Prop
  | [] => True
  | e :: es => e.Fits ∧ argsFits es

def termsFits (v : Bool) : List Term → Prop
  | [] => True
  | t :: ts => (t.UsedAs cod v ∧ t.Fits) ∧ termsFits v ts
end

variable {cod kinds P}

theorem termsFits_iff {v : Bool} {ts : List Term} :
    termsFits cod kinds P v ts ↔ ∀ t ∈ ts, t.UsedAs cod v ∧ t.Fits cod kinds P := by
  induction ts with
  | nil => simp [termsFits]
  | cons t ts ih => simp [termsFits, ih]

theorem argsFits_iff {es : List Exp} : argsFits cod kinds P es ↔ ∀ e ∈ es, e.Fits cod kinds P := by
  induction es with
  | nil => simp [argsFits]
  | cons e es ih => simp [argsFits, ih]

theorem Exp.fits_iff {e : Exp} : e.Fits cod kinds P ↔ ∃ v, kinds v ∧ ∀ t ∈ e.terms, t.UsedAs cod v ∧ t.Fits cod kinds P := by
  cases e
  simp only [Exp.Fits, termsFits_iff, Exp.terms_mk]

/-- The terms are used in one of the ways in `top`, and those inside arguments in one of the ways in `kinds`. -/
def Exp.FitsAs (cod : String → Nat) (top kinds : Bool → Prop) (P : String → Option Nat → List Exp → Prop) (e : Exp) :
    Prop :=
  ∃ v, top v ∧ ∀ t ∈ e.terms, t.UsedAs cod v ∧ t.Fits cod kinds P

theorem Term.Fits.setCoefficient {t : Term} (c : Int) (h : t.Fits cod kinds P) : (t.setCoefficient c).Fits cod kinds P := by
  cases t <;> exact h

end Fits

/-! ## Collapsing -/

/-- What a call that collapses becomes, its coefficient aside. -/
def savedArg : List Exp → Option Exp
  | .mk _ (.ufCall _ _ (saved :: _) _ :: _) :: _ => some saved
  | _ => none

section Collapse

variable (env : Environment) (I : Interp) (τ : Nat → Int)

mutual
/-- Each call that collapses has the value of what it becomes, and is used in the same way. -/
def Term.CollapseKeeps : Term → Prop
  | .ufCall c f as i => argsCollapseKeeps as ∧ (canCollapseSelf (env.funcInverse f) as = .ok true →
      ∀ saved, savedArg as = some saved → (∀ k, (Term.ufCall 1 f as i).val I τ k = saved.val I τ k) ∧
        ∀ v, (Term.ufCall c f as i).UsedAs I.cod v → ∀ u ∈ saved.terms, u.UsedAs I.cod v)
  | _ => True

def Exp.CollapseKeeps : Exp → Prop
  | .mk _ ts => termsCollapseKeeps ts

def argsCollapseKeeps : List Exp → Prop
  | [] => True
  | e :: es => e.CollapseKeeps ∧ argsCollapseKeeps es

def termsCollapseKeeps : List Term → Prop
  | [] => True
  | t :: ts => t.CollapseKeeps ∧ termsCollapseKeeps ts
end

variable {env I τ} {kinds : Bool → Prop} {P : String → Option Nat → List Exp → Prop}

theorem termsCollapseKeeps_iff {ts : List Term} : termsCollapseKeeps env I τ ts ↔ ∀ t ∈ ts, t.CollapseKeeps env I τ := by
  induction ts with
  | nil => simp [termsCollapseKeeps]
  | cons t ts ih => simp [termsCollapseKeeps, ih]

theorem Exp.collapseKeeps_iff {e : Exp} : e.CollapseKeeps env I τ ↔ ∀ t ∈ e.terms, t.CollapseKeeps env I τ := by
  cases e
  simp only [Exp.CollapseKeeps, termsCollapseKeeps_iff, Exp.terms_mk]

/-- The parts of the nested call that the first argument starts with. -/
theorem parts_of_saved {k : ExpType} {c : Int} {g : String} {saved : Exp} {as : List Exp} {j : Option Nat}
    {ts : List Term} {es : List Exp} (hf : argsFits I.cod kinds P (.mk k (.ufCall c g (saved :: as) j :: ts) :: es))
    (hk : argsCollapseKeeps env I τ (.mk k (.ufCall c g (saved :: as) j :: ts) :: es)) :
    saved.Fits I.cod kinds P ∧ saved.CollapseKeeps env I τ := by
  obtain ⟨⟨v, -, ⟨-, -, hs, -⟩, -⟩, -⟩ := hf
  exact ⟨hs, hk.1.1.1.1⟩

theorem fits_addTerm_empty {t : Term} {v : Bool} (hr : t.readable = true) (hs : t.UsedAs I.cod v)
    (hf : t.Fits I.cod kinds P) : (∀ k, ((Exp.mk .expression []).addTerm t).val I τ k = t.val I τ k) ∧
      ∀ u ∈ ((Exp.mk .expression []).addTerm t).terms, u.UsedAs I.cod v ∧ u.Fits I.cod kinds P := by
  refine ⟨fun k => ?_, ?_⟩
  · rw [Exp.val_addTerm (by simp) ⟨hr, hs⟩, Exp.val_eq, Exp.terms_mk, termsVal_nil, zero_add]
  · rw [terms_addTerm hr]
    exact forall_addOne (fun c t h => ⟨h.1.setCoefficient c, h.2.setCoefficient c⟩) ⟨hs, hf⟩ (by simp)

mutual
theorem Term.val_collapse (hP : ∀ f i as as', argsVal I τ as' = argsVal I τ as → P f i as → P f i as') :
    ∀ {t : Term} {e : Exp} {v : Bool}, t.readable = true → t.UsedAs I.cod v →
    t.Fits I.cod kinds P → t.CollapseKeeps env I τ → t.collapseNestedInvertibleFunctions env = .ok e →
    (∀ k, e.val I τ k = t.val I τ k) ∧ ∀ u ∈ e.terms, u.UsedAs I.cod v ∧ u.Fits I.cod kinds P
  | .tupleVar .., _, _, hr, hs, hf, _, h | .symConst .., _, _, hr, hs, hf, _, h | .constVal _, _, _, hr, hs, hf, _, h => by
    cases h
    exact fits_addTerm_empty hr hs hf
  | .tupleExp .., _, _, hr, _, _, _, _ => by cases hr
  | .ufCall c f as i, e, v, hr, hs, hf, hk, h => by
    simp only [Term.readable, Bool.and_eq_true] at hr
    rcases collapse_ufCall h with ⟨k, c', g, saved, as', j, ts, es, rfl, hcan, e', he', rfl⟩ | ⟨-, as', has, rfl⟩
    · obtain ⟨hfs, hks⟩ := parts_of_saved hf.2 hk.1
      obtain ⟨hval, hused⟩ := hk.2 hcan saved rfl
      obtain ⟨v', -, hfs⟩ := Exp.fits_iff.1 hfs
      obtain ⟨h₁, h₂⟩ := Exp.val_collapse hP (readable_saved hr.2)
        (fun u hu => ⟨hused v hs u hu, (hfs u hu).2⟩) hks he'
      refine ⟨fun n => ?_, fun u hu => ?_⟩
      · rw [Exp.val_multiplyBy, h₁, Term.val_eq_mul, ← hval, mul_comm]
        rfl
      · rw [Exp.terms_multiplyBy] at hu
        obtain ⟨w, hw, rfl⟩ := List.mem_map.1 hu
        exact ⟨(h₂ w hw).1.setCoefficient _, (h₂ w hw).2.setCoefficient _⟩
    · obtain ⟨hvals, hfits⟩ := argsVal_collapse hP hr.2 hf.2 hk.1 has
      have hr' := (canonical_argsCollapse hr.2 has).2
      have hread : (Term.ufCall c f as' i).readable = true := by simp only [Term.readable, hr.1, hr', Bool.and_self]
      have hs' : (Term.ufCall c f as' i).UsedAs I.cod v := by cases i <;> exact hs
      obtain ⟨h₁, h₂⟩ := fits_addTerm_empty hread hs' ⟨hP f i as as' hvals hf.1, hfits⟩
      refine ⟨fun n => ?_, h₂⟩
      rw [h₁]
      cases i <;> simp only [Term.val, hvals]

/-- Collapsing keeps the value, the ways in which terms are used and what the calls meet. -/
theorem Exp.val_collapse (hP : ∀ f i as as', argsVal I τ as' = argsVal I τ as → P f i as → P f i as') :
    ∀ {e d : Exp} {v : Bool}, e.readable = true →
    (∀ t ∈ e.terms, t.UsedAs I.cod v ∧ t.Fits I.cod kinds P) → e.CollapseKeeps env I τ →
    e.collapseNestedInvertibleFunctions env = .ok d →
    (∀ k, d.val I τ k = e.val I τ k) ∧ ∀ u ∈ d.terms, u.UsedAs I.cod v ∧ u.Fits I.cod kinds P
  | .mk _ ts, d, v, hr, hf, hk, h => by
    obtain ⟨h₁, h₂⟩ := val_termsCollapse hP (a := .mk .expression []) hr hf hk (by simp) h
    refine ⟨fun k => ?_, fun u hu => (h₂ u hu).2⟩
    rw [h₁, Exp.val_eq, Exp.terms_mk, termsVal_nil, zero_add]
    rfl

theorem argsVal_collapse (hP : ∀ f i as as', argsVal I τ as' = argsVal I τ as → P f i as → P f i as') :
    ∀ {as as' : List Exp}, argsReadable as = true → argsFits I.cod kinds P as →
    argsCollapseKeeps env I τ as → argsCollapse env as = .ok as' →
    argsVal I τ as' = argsVal I τ as ∧ argsFits I.cod kinds P as'
  | [], as', _, _, _, h => by
    cases h
    exact ⟨rfl, trivial⟩
  | e :: es, as', hr, hf, hk, h => by
    simp only [argsReadable, Bool.and_eq_true] at hr
    simp only [argsCollapse, Outcome.bind_eq_ok] at h
    obtain ⟨e', he, es', hes, h⟩ := h
    cases h
    obtain ⟨v, hv, hfe⟩ := Exp.fits_iff.1 hf.1
    obtain ⟨h₁, h₂⟩ := Exp.val_collapse hP hr.1 hfe hk.1 he
    obtain ⟨h₃, h₄⟩ := argsVal_collapse hP hr.2 hf.2 hk.2 hes
    refine ⟨?_, Exp.fits_iff.2 ⟨v, hv, h₂⟩, h₄⟩
    simp only [argsVal, funext h₁, h₃]

theorem val_termsCollapse (hP : ∀ f i as as', argsVal I τ as' = argsVal I τ as → P f i as → P f i as') :
    ∀ {ts : List Term} {a d : Exp} {v : Bool}, termsReadable ts = true →
    (∀ t ∈ ts, t.UsedAs I.cod v ∧ t.Fits I.cod kinds P) → termsCollapseKeeps env I τ ts →
    (∀ t ∈ a.terms, t.readable = true ∧ t.UsedAs I.cod v ∧ t.Fits I.cod kinds P) → termsCollapse env ts a = .ok d →
    (∀ k, d.val I τ k = a.val I τ k + termsVal I τ ts k) ∧
      ∀ u ∈ d.terms, u.readable = true ∧ u.UsedAs I.cod v ∧ u.Fits I.cod kinds P
  | [], acc, d, v, _, _, _, ha, h => by
    cases h
    exact ⟨fun k => (add_zero _).symm, ha⟩
  | t :: ts, acc, d, v, hr, hf, hk, ha, h => by
    simp only [termsReadable, Bool.and_eq_true] at hr
    simp only [termsCollapse, Outcome.bind_eq_ok] at h
    obtain ⟨e, he, h⟩ := h
    obtain ⟨⟨hs, hft⟩, hfs⟩ := List.forall_mem_cons.1 hf
    obtain ⟨h₁, h₂⟩ := Term.val_collapse hP hr.1 hs hft hk.1 he
    have hok := Term.termsOk_collapse hr.1 he
    have hre : e.readable = true := Exp.readable_iff.2 fun u hu => (hok u hu).1
    have hadd : ∀ u ∈ (acc.addExp e).terms, u.readable = true ∧ u.UsedAs I.cod v ∧ u.Fits I.cod kinds P := by
      rw [terms_addExp hre]
      exact forall_foldl_addOne
        (fun c t h => ⟨by rw [readable_setCoefficient]; exact h.1, h.2.1.setCoefficient c, h.2.2.setCoefficient c⟩)
        (fun u hu => ⟨(hok u hu).1, h₂ u hu⟩) ha
    obtain ⟨h₃, h₄⟩ := val_termsCollapse hP hr.2 hfs hk.2 hadd h
    refine ⟨fun k => ?_, h₄⟩
    rw [h₃, Exp.val_addExp (v := v) (fun u hu => ⟨(ha u hu).1, (ha u hu).2.1⟩) (fun u hu => ⟨(hok u hu).1, (h₂ u hu).1⟩),
      h₁, termsVal_cons, add_assoc]
end

theorem Exp.fits_of_terms {e d : Exp} {v : Bool} (he : ∀ t ∈ e.terms, t.UsedAs I.cod v ∧ t.Fits I.cod kinds P)
    (hd : ∀ t ∈ d.terms, ∃ c, ∃ u ∈ e.terms, t = u.setCoefficient c) :
    ∀ t ∈ d.terms, t.UsedAs I.cod v ∧ t.Fits I.cod kinds P := by
  intro t ht
  obtain ⟨c, u, hu, rfl⟩ := hd t ht
  exact ⟨(he u hu).1.setCoefficient c, (he u hu).2.setCoefficient c⟩

theorem terms_normalizeForEquality (e : Exp) : ∀ t ∈ e.normalizeForEquality.terms, ∃ c, ∃ u ∈ e.terms,
    t = u.setCoefficient c := by
  obtain ⟨s, -, z, hz, -⟩ := e.normalizeForEquality_spec
  intro t ht
  have hm : t ∈ (e.multiplyBy s).terms := hz ▸ List.mem_append_left _ ht
  obtain ⟨u, hu, rfl⟩ := List.mem_map.1 hm
  exact ⟨_, u, hu, rfl⟩

theorem Term.CollapseKeeps.setCoefficient {t : Term} (c : Int) (h : t.CollapseKeeps env I τ) :
    (t.setCoefficient c).CollapseKeeps env I τ := by
  cases t with
  | ufCall c' f as i =>
    refine ⟨h.1, fun hcan saved hs => ⟨(h.2 hcan saved hs).1, fun v hv => (h.2 hcan saved hs).2 v ?_⟩⟩
    cases i <;> exact hv
  | _ => exact h

theorem Exp.CollapseKeeps.normalize {e : Exp} (h : e.CollapseKeeps env I τ) :
    e.normalizeForEquality.CollapseKeeps env I τ := by
  rw [Exp.collapseKeeps_iff] at h ⊢
  intro t ht
  obtain ⟨c, u, hu, rfl⟩ := terms_normalizeForEquality e t ht
  exact (h u hu).setCoefficient c

end Collapse

/-! ## Cleaning up -/

namespace Conjunction

section CleanUp

variable {env : Environment} {I : Interp} {τ : Nat → Int} {top kinds : Bool → Prop}
  {P : String → Option Nat → List Exp → Prop}

/-- The constraints fit, their own terms used in one of the ways in `top`. -/
def Fits (cod : String → Nat) (top kinds : Bool → Prop) (P : String → Option Nat → List Exp → Prop) (c : Conjunction) :
    Prop :=
  ∀ e ∈ c.equalities ++ c.inequalities, e.FitsAs cod top kinds P

/-- Collapsing keeps the values of the constraints. -/
def CollapseKeeps (env : Environment) (I : Interp) (τ : Nat → Int) (c : Conjunction) : Prop :=
  ∀ e ∈ c.equalities ++ c.inequalities, e.CollapseKeeps env I τ

/-- A conjunction built from nothing has the constraints it is built from. -/
theorem holds_foldl {eqs ineqs : List Exp} (he : ∀ e ∈ eqs, e.readable = true) (hi : ∀ e ∈ ineqs, e.readable = true)
    (d : TupleDecl) (n : Nat) : (ineqs.foldl addInequality (eqs.foldl addEquality ⟨[], [], d, n⟩)).Holds I τ ↔
      (∀ e ∈ eqs, e.HoldsEq I τ) ∧ ∀ e ∈ ineqs, e.HoldsGe I τ := by
  have h₁ := foldl_adds addEquality_adds (c := ⟨[], [], d, n⟩) rfl he
  have h₂ := h₁.trans (foldl_adds addInequality_adds h₁.readable hi)
  rw [h₂.holds]
  simp [Holds]

theorem cleanUp_eq_foldl {c c' : Conjunction} (h : c.cleanUp env = .ok c') : ∃ eqs ineqs,
    List.Forall₂ (fun e d => e.normalizeForEquality.collapseNestedInvertibleFunctions env = .ok d) c.equalities eqs ∧
    List.Forall₂ (fun e d => e.collapseNestedInvertibleFunctions env = .ok d) c.inequalities ineqs ∧
    c' = (ineqs.filter (fun e => !e.equalsZero)).foldl addInequality
      ((eqs.filter (fun e => !e.equalsZero)).foldl addEquality ⟨[], [], c.tupleDecl, c.inArity⟩) := by
  obtain ⟨eqs, ineqs, h₁, h₂, rfl⟩ := cleanUp_eq_ok h
  refine ⟨eqs, ineqs, h₁, h₂, ?_⟩
  rw [foldl_addEquality_eq, foldl_addInequality_eq]
  rfl

theorem fits_asEquality {e d : Exp} (hf : e.FitsAs I.cod top kinds P) (hd : d ∈ e.asEquality) : d.FitsAs I.cod top kinds P := by
  obtain ⟨v, hv, hf⟩ := hf
  rw [Exp.eq_of_mem_asEquality hd]
  exact ⟨v, hv, Exp.fits_of_terms hf (terms_normalizeForEquality e)⟩

theorem fits_asInequality {e d : Exp} (hf : e.FitsAs I.cod top kinds P) (hd : d ∈ e.asInequality) : d.FitsAs I.cod top kinds P := by
  rw [Exp.eq_of_mem_asInequality hd]
  cases e
  exact hf

theorem holds_filter {eqs : List Exp} {Q : Exp → Prop} (hQ : ∀ e : Exp, e.equalsZero = true → Q e) :
    (∀ e ∈ eqs.filter (fun e => !e.equalsZero), Q e) ↔ ∀ e ∈ eqs, Q e := by
  constructor
  · intro h e he
    cases hz : e.equalsZero with
    | true => exact hQ e hz
    | false => exact h e (List.mem_filter.2 ⟨he, by rw [hz]; rfl⟩)
  · exact fun h e he => h e (List.mem_filter.1 he).1

/-- A constraint and what it collapses to. -/
theorem collapse_keeps (hP : ∀ f i as as', argsVal I τ as' = argsVal I τ as → P f i as → P f i as') {e d : Exp}
    (hr : e.readable = true) (hf : e.FitsAs I.cod top kinds P) (hk : e.CollapseKeeps env I τ)
    (h : e.collapseNestedInvertibleFunctions env = .ok d) :
    d.readable = true ∧ (∀ k, d.val I τ k = e.val I τ k) ∧ d.FitsAs I.cod top kinds P := by
  obtain ⟨v, hv, hf⟩ := hf
  obtain ⟨hval, hfd⟩ := Exp.val_collapse hP hr hf hk h
  exact ⟨(Exp.canonical_collapse hr h).2, hval, ⟨v, hv, hfd⟩⟩

theorem fits_normalizeForEquality {e : Exp} (hf : e.FitsAs I.cod top kinds P) : e.normalizeForEquality.FitsAs I.cod top kinds P := by
  obtain ⟨v, hv, hf⟩ := hf
  exact ⟨v, hv, Exp.fits_of_terms hf (terms_normalizeForEquality e)⟩

/-- Cleaning up keeps what holds, and what fits. -/
theorem cleanUp_keeps (hP : ∀ f i as as', argsVal I τ as' = argsVal I τ as → P f i as → P f i as') {c c' : Conjunction}
    (hr : c.readable = true) (hf : c.Fits I.cod top kinds P) (hk : c.CollapseKeeps env I τ) (h : c.cleanUp env = .ok c') :
    (c'.Holds I τ ↔ c.Holds I τ) ∧ c'.Fits I.cod top kinds P := by
  obtain ⟨heqs, hineqs⟩ := readable_iff.1 hr
  obtain ⟨eqs, ineqs, h₁, h₂, hfold⟩ := cleanUp_eq_foldl h
  have heq : ∀ e ∈ c.equalities, ∀ d, e.normalizeForEquality.collapseNestedInvertibleFunctions env = .ok d →
      d.readable = true ∧ (∀ k, d.val I τ k = e.normalizeForEquality.val I τ k) ∧ d.FitsAs I.cod top kinds P :=
    fun e he d hd => collapse_keeps hP (readable_normalizeForEquality (heqs e he))
      (fits_normalizeForEquality (hf e (List.mem_append_left _ he))) (hk e (List.mem_append_left _ he)).normalize hd
  have hineq : ∀ e ∈ c.inequalities, ∀ d, e.collapseNestedInvertibleFunctions env = .ok d →
      d.readable = true ∧ (∀ k, d.val I τ k = e.val I τ k) ∧ d.FitsAs I.cod top kinds P :=
    fun e he d hd => collapse_keeps hP (hineqs e he) (hf e (List.mem_append_right _ he))
      (hk e (List.mem_append_right _ he)) hd
  have hreads : (∀ d ∈ eqs, d.readable = true) ∧ ∀ d ∈ ineqs, d.readable = true := by
    refine ⟨fun d hd => ?_, fun d hd => ?_⟩
    · obtain ⟨e, he, hed⟩ := Outcome.exists_of_mem_forall₂ h₁ hd
      exact (heq e he d hed).1
    · obtain ⟨e, he, hed⟩ := Outcome.exists_of_mem_forall₂ h₂ hd
      exact (hineq e he d hed).1
  constructor
  · rw [hfold, holds_foldl (fun e he => hreads.1 e (List.mem_filter.1 he).1)
      (fun e he => hreads.2 e (List.mem_filter.1 he).1), holds_filter fun e hz k => val_of_equalsZero hz k,
      holds_filter fun e hz k => (val_of_equalsZero hz k).ge,
      Outcome.forall_iff_of_forall₂ (p := fun e : Exp => e.HoldsEq I τ) h₁ fun e he d hd => ?_,
      Outcome.forall_iff_of_forall₂ (p := fun e : Exp => e.HoldsGe I τ) h₂ fun e he d hd => ?_]
    · rfl
    · simp only [Exp.HoldsGe, (hineq e he d hd).2.1]
    · rw [← holdsEq_normalizeForEquality (e := e)]
      simp only [Exp.HoldsEq, (heq e he d hd).2.1]
  · intro d hd
    rcases List.mem_append.1 hd with hd | hd
    · obtain ⟨e, he, d₀, hed, hdd⟩ := exists_of_mem_cleanUp_equalities h hd
      exact fits_asEquality (heq e he d₀ hed).2.2 hdd
    · obtain ⟨e, he, d₀, hed, hdd⟩ := exists_of_mem_cleanUp_inequalities h hd
      exact fits_asInequality (hineq e he d₀ hed).2.2 hdd

end CleanUp

end Conjunction

end IEGen
