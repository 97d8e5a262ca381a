import IEGen.Calls

/-!
# The values of substituted expressions

Replacing tuple variables and symbolic constants by expressions with the values that they have under `I'` and `τ'` gives
an expression whose value is that of the original under `I'` and `τ'`.
-/

namespace IEGen

/-! ## The tuple variables of an expression -/

section Vars

variable (p : Nat → Prop)

mutual
/-- The tuple variables, those inside arguments included, are at locations in `p`. -/
def Term.VarsIn : Term → Prop
  | .tupleVar _ l => p l
  | .symConst .. | .constVal _ => True
  | .ufCall _ _ as _ => argsVarsIn as
  | .tupleExp _ es => argsVarsIn es

def Exp.VarsIn : Exp → Prop
  | .mk _ ts => termsVarsIn ts

def argsVarsIn : List Exp → Prop
  | [] => True
  | e :: es => e.VarsIn ∧ argsVarsIn es

def termsVarsIn : List Term → Prop
  | [] => True
  | t :: ts => t.VarsIn ∧ termsVarsIn ts
end

variable {p} {I : Interp} {τ τ' : Nat → Int}

mutual
theorem Term.VarsIn.imp {q : Nat → Prop} (h : ∀ l, p l → q l) : ∀ {t : Term}, t.VarsIn p → t.VarsIn q
  | .tupleVar _ l, ht => h l ht
  | .symConst .., _ | .constVal _, _ => trivial
  | .ufCall .., ht | .tupleExp .., ht => argsVarsIn_imp h ht

theorem Exp.VarsIn.imp {q : Nat → Prop} (h : ∀ l, p l → q l) : ∀ {e : Exp}, e.VarsIn p → e.VarsIn q
  | .mk _ _, he => termsVarsIn_imp h he

theorem argsVarsIn_imp {q : Nat → Prop} (h : ∀ l, p l → q l) : ∀ {es : List Exp}, argsVarsIn p es → argsVarsIn q es
  | [], _ => trivial
  | _ :: _, hes => ⟨Exp.VarsIn.imp h hes.1, argsVarsIn_imp h hes.2⟩

theorem termsVarsIn_imp {q : Nat → Prop} (h : ∀ l, p l → q l) : ∀ {ts : List Term}, termsVarsIn p ts → termsVarsIn q ts
  | [], _ => trivial
  | _ :: _, hts => ⟨Term.VarsIn.imp h hts.1, termsVarsIn_imp h hts.2⟩
end

mutual
theorem Term.val_congr (h : ∀ l, p l → τ l = τ' l) : ∀ {t : Term}, t.VarsIn p → t.val I τ = t.val I τ'
  | .tupleVar c l, ht => by simp only [Term.val, h l ht]
  | .symConst .., _ | .constVal _, _ => rfl
  | .ufCall c f as none, ht => by simp only [Term.val, argsVal_congr h ht]
  | .ufCall c f as (some i), ht => by simp only [Term.val, argsVal_congr h ht]
  | .tupleExp c es, ht => by simp only [Term.val, argsVal_congr h ht]

/-- The value depends on the tuple variables of the expression only. -/
theorem Exp.val_congr (h : ∀ l, p l → τ l = τ' l) : ∀ {e : Exp}, e.VarsIn p → e.val I τ = e.val I τ'
  | .mk _ _, he => termsVal_congr h he

theorem argsVal_congr (h : ∀ l, p l → τ l = τ' l) : ∀ {es : List Exp}, argsVarsIn p es → argsVal I τ es = argsVal I τ' es
  | [], _ => rfl
  | _ :: _, hes => by simp only [argsVal, Exp.val_congr h hes.1, argsVal_congr h hes.2]

theorem termsVal_congr (h : ∀ l, p l → τ l = τ' l) :
    ∀ {ts : List Term}, termsVarsIn p ts → termsVal I τ ts = termsVal I τ' ts
  | [], _ => rfl
  | _ :: _, hts => by simp only [termsVal, Term.val_congr h hts.1, termsVal_congr h hts.2]
end

end Vars

/-- The tuple variables of the constraints are at locations in `p`. -/
def Conjunction.VarsIn (p : Nat → Prop) (c : Conjunction) : Prop := ∀ e ∈ c.equalities ++ c.inequalities, e.VarsIn p

theorem Conjunction.holds_congr {p : Nat → Prop} {c : Conjunction} (hc : c.VarsIn p) {I : Interp} {τ τ' : Nat → Int}
    (h : ∀ l, p l → τ l = τ' l) : c.Holds I τ ↔ c.Holds I τ' := by
  have hval : ∀ e ∈ c.equalities ++ c.inequalities, e.val I τ = e.val I τ' := fun e he => Exp.val_congr h (hc e he)
  refine and_congr (forall₂_congr fun e he => ?_) (forall₂_congr fun e he => ?_)
  · simp only [Exp.HoldsEq, hval e (List.mem_append_left _ he)]
  · simp only [Exp.HoldsGe, hval e (List.mem_append_right _ he)]

/-! ## Substitution -/

/-- A tuple variable or a symbolic constant. -/
def Term.isLeaf : Term → Bool
  | .tupleVar .. | .symConst .. => true
  | _ => false

@[simp] theorem Term.isLeaf_setCoefficient (c : Int) (t : Term) : (t.setCoefficient c).isLeaf = t.isLeaf := by
  cases t <;> rfl

/-- The interpretations give the functions one meaning. -/
structure Interp.SameCalls (I I' : Interp) : Prop where
  fn : I'.fn = I.fn
  dom : I'.dom = I.dom
  cod : I'.cod = I.cod

theorem Interp.SameCalls.argTuple_eq {I I' : Interp} (h : I.SameCalls I') (f : String) (vs : List (Nat → Int)) :
    I'.argTuple f vs = I.argTuple f vs := by
  unfold Interp.argTuple
  rw [h.dom]

theorem Interp.SameCalls.callVal_eq {I I' : Interp} (h : I.SameCalls I') (f : String) (vs : List (Nat → Int)) :
    I'.callVal f vs = I.callVal f vs := by
  funext k
  unfold Interp.callVal
  rw [h.fn, h.cod, h.argTuple_eq]

theorem Interp.SameCalls.indexVal_eq {I I' : Interp} (h : I.SameCalls I') (f : String) (vs : List (Nat → Int)) (j : Nat) :
    I'.indexVal f vs j = I.indexVal f vs j := by
  unfold Interp.indexVal
  rw [h.fn, h.argTuple_eq]

namespace SubMap

/-- The map replaces tuple variables only. -/
def OnTupleVars (m : SubMap) : Prop := ∀ p ∈ m, ∃ c l, p.1 = .tupleVar c l

theorem subExp_setCoefficient (m : SubMap) (c : Int) (t : Term) : m.subExp (t.setCoefficient c) = m.subExp t := by
  simp only [subExp, Term.factorMatches_setCoefficient_left]

theorem subExp_eq_none {m : SubMap} (h : ∀ p ∈ m, p.1.isLeaf = true) {t : Term} (ht : t.isLeaf = false) :
    m.subExp t = none := by
  have hfind : m.find? (fun p => t.factorMatches p.1) = none := by
    refine List.find?_eq_none.2 fun p hp hm => ?_
    have hpl := h p hp
    cases hp1 : p.1 <;> cases t <;> simp [hp1, Term.isLeaf, Term.factorMatches] at hpl ht hm
  rw [subExp, hfind]
  rfl

theorem OnTupleVars.isLeaf {m : SubMap} (h : m.OnTupleVars) : ∀ p ∈ m, p.1.isLeaf = true := by
  intro p hp
  obtain ⟨c, l, hpl⟩ := h p hp
  rw [hpl]
  rfl

theorem OnTupleVars.subExp_symConst {m : SubMap} (h : m.OnTupleVars) (c : Int) (s : String) :
    m.subExp (.symConst c s) = none := by
  have hfind : m.find? (fun p => (Term.symConst c s).factorMatches p.1) = none := by
    refine List.find?_eq_none.2 fun p hp hm => ?_
    obtain ⟨c', l, hpl⟩ := h p hp
    rw [hpl] at hm
    cases hm
  rw [subExp, hfind]
  rfl

end SubMap

section Substitute

variable {I I' : Interp} {τ τ' : Nat → Int} {kinds : Bool → Prop} {P P' : String → Option Nat → List Exp → Prop}

/-- Under `I` and `τ`, what the map gives for a tuple variable or a symbolic constant has the value that this has under
`I'` and `τ'`. -/
structure SubMap.EvaluatesLeaves (m : SubMap) (I I' : Interp) (τ τ' : Nat → Int) (kinds : Bool → Prop)
    (P : String → Option Nat → List Exp → Prop) : Prop where
  calls : I.SameCalls I'
  keys : ∀ p ∈ m, p.1.isLeaf = true
  kept : ∀ t, t.isLeaf = true → m.subExp t = none → ∀ k, t.val I τ k = t.val I' τ' k
  value : ∀ t, t.isLeaf = true → ∀ e, m.subExp t = some e → ∀ k, e.val I τ k = (t.setCoefficient 1).val I' τ' k
  readable : ∀ t e, m.subExp t = some e → e.readable = true
  fits : ∀ t e, m.subExp t = some e → ∀ u ∈ e.terms, u.UsedAs I.cod false ∧ u.Fits I.cod kinds P

/-- Under `τ`, what the map gives for a tuple variable has the value of the variable under `τ'`. -/
structure SubMap.Evaluates (m : SubMap) (I : Interp) (τ τ' : Nat → Int) (kinds : Bool → Prop)
    (P : String → Option Nat → List Exp → Prop) : Prop where
  keys : m.OnTupleVars
  kept : ∀ l, m.subExp (.tupleVar 1 l) = none → τ' l = τ l
  value : ∀ l e, m.subExp (.tupleVar 1 l) = some e → ∀ k, e.val I τ k = scalar (τ' l) k
  readable : ∀ l e, m.subExp (.tupleVar 1 l) = some e → e.readable = true
  fits : ∀ l e, m.subExp (.tupleVar 1 l) = some e → ∀ t ∈ e.terms, t.UsedAs I.cod false ∧ t.Fits I.cod kinds P

theorem SubMap.Evaluates.leaves {m : SubMap} (h : m.Evaluates I τ τ' kinds P) : m.EvaluatesLeaves I I τ τ' kinds P := by
  have hvar : ∀ {t : Term} {e : Exp}, m.subExp t = some e → ∃ c l, t = .tupleVar c l ∧
      m.subExp (.tupleVar 1 l) = some e := by
    intro t e ht
    cases t with
    | tupleVar c l => exact ⟨c, l, rfl, (m.subExp_setCoefficient 1 (.tupleVar c l)).trans ht⟩
    | symConst c s =>
      rw [h.keys.subExp_symConst] at ht
      cases ht
    | _ =>
      rw [SubMap.subExp_eq_none h.keys.isLeaf rfl] at ht
      cases ht
  refine ⟨⟨rfl, rfl, rfl⟩, h.keys.isLeaf, fun t ht hsub k => ?_, fun t _ e hsub k => ?_, fun t e hsub => ?_,
    fun t e hsub => ?_⟩
  · cases t with
    | tupleVar c l =>
      rw [← m.subExp_setCoefficient 1] at hsub
      simp only [Term.val, h.kept l hsub]
    | symConst c s => rfl
    | _ => cases ht
  · obtain ⟨c, l, rfl, hl⟩ := hvar hsub
    rw [h.value l e hl, Term.setCoefficient, Term.val, one_mul]
  · obtain ⟨c, l, rfl, hl⟩ := hvar hsub
    exact h.readable l e hl
  · obtain ⟨c, l, rfl, hl⟩ := hvar hsub
    exact h.fits l e hl

variable {m : SubMap}

mutual
theorem Term.val_substituteInside (hm : m.EvaluatesLeaves I I' τ τ' kinds P')
    (hP : ∀ f i as as', argsVal I τ as' = argsVal I' τ' as → P f i as → P' f i as') :
    ∀ {t : Term}, t.readable = true → t.isLeaf = false →
    t.Fits I.cod kinds P → (t.substituteInside m).readable = true ∧
      (∀ k, (t.substituteInside m).val I τ k = t.val I' τ' k) ∧ (t.substituteInside m).Fits I.cod kinds P'
  | .tupleVar .., _, ht, _ | .symConst .., _, ht, _ => by cases ht
  | .constVal _, hr, _, _ => ⟨hr, fun _ => rfl, trivial⟩
  | .tupleExp .., hr, _, _ => by cases hr
  | .ufCall c f as i, hr, _, hf => by
    simp only [Term.readable, Bool.and_eq_true] at hr
    obtain ⟨h₁, h₂, h₃⟩ := argsVal_substitute hm hP hr.2 hf.2
    refine ⟨?_, fun k => ?_, hP f i as _ h₂ hf.1, h₃⟩
    · show (isName f && argsReadable (argsSubstitute m as)) = true
      rw [hr.1, h₁]
      rfl
    · cases i <;> simp only [Term.substituteInside, Term.val, h₂, hm.calls.callVal_eq, hm.calls.indexVal_eq]

/-- The value of a substituted expression. -/
theorem Exp.val_substitute (hm : m.EvaluatesLeaves I I' τ τ' kinds P')
    (hP : ∀ f i as as', argsVal I τ as' = argsVal I' τ' as → P f i as → P' f i as') :
    ∀ {e : Exp} {v : Bool}, e.readable = true →
    (∀ t ∈ e.terms, t.UsedAs I.cod v ∧ t.Fits I.cod kinds P) → (e.substitute m).readable = true ∧
      (∀ k, (e.substitute m).val I τ k = e.val I' τ' k) ∧
      ∀ t ∈ (e.substitute m).terms, t.UsedAs I.cod v ∧ t.Fits I.cod kinds P'
  | .mk k ts, v, hr, hf => by
    obtain ⟨h₁, h₂⟩ := val_termsSubstitute hm hP (a := .mk .expression []) hr hf (by simp)
    have hread : (termsSubstitute m ts (.mk .expression [])).readable = true := Exp.readable_iff.2 fun t ht => (h₁ t ht).1
    have hadd : ∀ t ∈ ((Exp.mk k []).addExp (termsSubstitute m ts (.mk .expression []))).terms,
        t.readable = true ∧ t.UsedAs I.cod v ∧ t.Fits I.cod kinds P' := by
      rw [terms_addExp hread]
      exact forall_foldl_addOne
        (fun c t h => ⟨by rw [readable_setCoefficient]; exact h.1, h.2.1.setCoefficient c, h.2.2.setCoefficient c⟩)
        h₁ (by simp)
    refine ⟨Exp.readable_iff.2 fun t ht => (hadd t ht).1, fun n => ?_, fun t ht => (hadd t ht).2⟩
    show ((Exp.mk k []).addExp _).val I τ n = _
    rw [Exp.val_addExp (v := v) (by simp) fun t ht => ⟨(h₁ t ht).1, (h₁ t ht).2.1⟩, h₂, Exp.val_eq, Exp.val_eq,
      Exp.terms_mk, Exp.terms_mk, termsVal_nil, zero_add, zero_add]
    rfl

theorem argsVal_substitute (hm : m.EvaluatesLeaves I I' τ τ' kinds P')
    (hP : ∀ f i as as', argsVal I τ as' = argsVal I' τ' as → P f i as → P' f i as') :
    ∀ {as : List Exp}, argsReadable as = true → argsFits I.cod kinds P as →
    argsReadable (argsSubstitute m as) = true ∧ argsVal I τ (argsSubstitute m as) = argsVal I' τ' as ∧
      argsFits I.cod kinds P' (argsSubstitute m as)
  | [], _, _ => ⟨rfl, rfl, trivial⟩
  | e :: es, hr, hf => by
    simp only [argsReadable, Bool.and_eq_true] at hr
    obtain ⟨v, hv, hfe⟩ := Exp.fits_iff.1 hf.1
    obtain ⟨h₁, h₂, h₃⟩ := Exp.val_substitute hm hP hr.1 hfe
    obtain ⟨h₄, h₅, h₆⟩ := argsVal_substitute hm hP hr.2 hf.2
    refine ⟨?_, ?_, Exp.fits_iff.2 ⟨v, hv, h₃⟩, h₆⟩
    · simp only [argsSubstitute, argsReadable, h₁, h₄, Bool.and_self]
    · simp only [argsSubstitute, argsVal, funext h₂, h₅]

theorem val_termsSubstitute (hm : m.EvaluatesLeaves I I' τ τ' kinds P')
    (hP : ∀ f i as as', argsVal I τ as' = argsVal I' τ' as → P f i as → P' f i as') :
    ∀ {ts : List Term} {a : Exp} {v : Bool}, termsReadable ts = true →
    (∀ t ∈ ts, t.UsedAs I.cod v ∧ t.Fits I.cod kinds P) →
    (∀ t ∈ a.terms, t.readable = true ∧ t.UsedAs I.cod v ∧ t.Fits I.cod kinds P') →
    (∀ t ∈ (termsSubstitute m ts a).terms, t.readable = true ∧ t.UsedAs I.cod v ∧ t.Fits I.cod kinds P') ∧
      ∀ k, (termsSubstitute m ts a).val I τ k = a.val I τ k + termsVal I' τ' ts k
  | [], acc, v, _, _, ha => ⟨ha, fun k => (add_zero _).symm⟩
  | t :: ts, acc, v, hr, hf, ha => by
    simp only [termsReadable, Bool.and_eq_true] at hr
    obtain ⟨⟨hs, hft⟩, hfs⟩ := List.forall_mem_cons.1 hf
    have hmerge : ∀ u ∈ acc.terms, Mergeable I.cod v u := fun u hu => ⟨(ha u hu).1, (ha u hu).2.1⟩
    have hkeep : ∀ {l : List Term}, (∀ u ∈ l, u.readable = true ∧ u.UsedAs I.cod v ∧ u.Fits I.cod kinds P') →
        ∀ u ∈ l.foldl addOne acc.terms, u.readable = true ∧ u.UsedAs I.cod v ∧ u.Fits I.cod kinds P' := fun hu =>
      forall_foldl_addOne
        (fun c t h => ⟨by rw [readable_setCoefficient]; exact h.1, h.2.1.setCoefficient c, h.2.2.setCoefficient c⟩) hu ha
    simp only [termsSubstitute]
    cases hsub : m.subExp t with
    | none =>
      -- the term stays, and its arguments are substituted
      have hstay : (t.substituteInside m).readable = true ∧ (∀ k, (t.substituteInside m).val I τ k = t.val I' τ' k) ∧
          (t.substituteInside m).UsedAs I.cod v ∧ (t.substituteInside m).Fits I.cod kinds P' := by
        cases t with
        | tupleVar c l => exact ⟨hr.1, hm.kept _ rfl hsub, hs, trivial⟩
        | symConst c s => exact ⟨hr.1, hm.kept _ rfl hsub, hs, trivial⟩
        | ufCall c f as i =>
          obtain ⟨h₁, h₂, h₃⟩ := Term.val_substituteInside hm hP hr.1 rfl hft
          exact ⟨h₁, h₂, by cases i <;> exact hs, h₃⟩
        | tupleExp => cases hr.1
        | constVal c => exact ⟨hr.1, fun _ => rfl, hs, trivial⟩
      obtain ⟨h₁, h₂, h₃, h₄⟩ := hstay
      have hadd : ∀ u ∈ (acc.addTerm (t.substituteInside m)).terms,
          u.readable = true ∧ u.UsedAs I.cod v ∧ u.Fits I.cod kinds P' := by
        rw [terms_addTerm h₁]
        exact hkeep (l := [t.substituteInside m]) (by simpa using ⟨h₁, h₃, h₄⟩)
      obtain ⟨h₅, h₆⟩ := val_termsSubstitute hm hP hr.2 hfs hadd
      refine ⟨h₅, fun k => ?_⟩
      rw [h₆, Exp.val_addTerm hmerge ⟨h₁, h₃⟩, h₂, termsVal_cons, add_assoc]
    | some sub =>
      have hleaf : t.isLeaf = true := by
        by_contra hne
        rw [SubMap.subExp_eq_none hm.keys (by simpa using hne)] at hsub
        cases hsub
      obtain rfl : v = false := by
        cases t <;> first | exact hs | cases hleaf
      have hterms : ∀ u ∈ (sub.multiplyBy t.coefficient).terms,
          u.readable = true ∧ u.UsedAs I.cod false ∧ u.Fits I.cod kinds P' := by
        intro u hu
        rw [Exp.terms_multiplyBy] at hu
        obtain ⟨w, hw, rfl⟩ := List.mem_map.1 hu
        obtain ⟨h₁, h₂⟩ := hm.fits t sub hsub w hw
        refine ⟨?_, h₁.setCoefficient _, h₂.setCoefficient _⟩
        rw [Term.multiplyBy, readable_setCoefficient]
        exact Exp.readable_iff.1 (hm.readable t sub hsub) w hw
      have hread : (sub.multiplyBy t.coefficient).readable = true := Exp.readable_iff.2 fun u hu => (hterms u hu).1
      have hadd : ∀ u ∈ (acc.addExp (sub.multiplyBy t.coefficient)).terms,
          u.readable = true ∧ u.UsedAs I.cod false ∧ u.Fits I.cod kinds P' := by
        rw [terms_addExp hread]
        exact hkeep hterms
      obtain ⟨h₅, h₆⟩ := val_termsSubstitute hm hP hr.2 hfs hadd
      refine ⟨h₅, fun k => ?_⟩
      rw [h₆, Exp.val_addExp hmerge (fun u hu => ⟨(hterms u hu).1, (hterms u hu).2.1⟩), Exp.val_multiplyBy,
        hm.value t hleaf sub hsub, termsVal_cons, Term.val_eq_mul t, add_assoc, mul_comm]
end

end Substitute

/-! ## Declared constants as equalities -/

namespace TupleDecl

theorem elem_setTupleVar (d : TupleDecl) (i j : Nat) (s : String) (h : d.elemIsConst i = true) :
    (d.setTupleVar i s).elem j = if j = i then { d.elem i with isConst := false, varString := s } else d.elem j := by
  have hi : i < d.elems.length := by
    by_contra hlt
    rw [elemIsConst, elem, List.getD_eq_default _ _ (not_lt.1 hlt)] at h
    cases h
  unfold elem setTupleVar
  simp only [List.getD_eq_getElem?_getD, List.getElem?_modify]
  by_cases hij : j = i
  · subst hij
    simp [List.getElem?_eq_getElem hi]
  · simp [hij, Ne.symm hij]

theorem size_setTupleVar (d : TupleDecl) (i : Nat) (s : String) : (d.setTupleVar i s).size = d.size := by
  simp [size, setTupleVar]

end TupleDecl

namespace Conjunction

section PushConst

variable {I : Interp} {τ : Nat → Int}

/-- The equality of a tuple variable and a constant. -/
theorem val_varConst (i : Nat) (k : Int) :
    (((Exp.mk .expression []).addTerm (.tupleVar 1 i)).addTerm (.constVal k)).readable = true ∧
      (∀ n, (((Exp.mk .expression []).addTerm (.tupleVar 1 i)).addTerm (.constVal k)).val I τ n = scalar (τ i + k) n) := by
  have h₁ : ∀ t ∈ ((Exp.mk .expression []).addTerm (.tupleVar 1 i)).terms, Mergeable I.cod false t := by
    rw [terms_addTerm rfl]
    exact forall_addOne (fun c t h => h.setCoefficient c) ⟨rfl, rfl⟩ (by simp)
  have h₂ : ∀ t ∈ (((Exp.mk .expression []).addTerm (.tupleVar 1 i)).addTerm (.constVal k)).terms, Mergeable I.cod false t := by
    rw [terms_addTerm rfl]
    exact forall_addOne (fun c t h => h.setCoefficient c) ⟨rfl, rfl⟩ h₁
  have hconst : Mergeable I.cod false (.constVal k) := ⟨rfl, rfl⟩
  have hvar : Mergeable I.cod false (.tupleVar 1 i) := ⟨rfl, rfl⟩
  refine ⟨Exp.readable_iff.2 fun t ht => (h₂ t ht).1, fun n => ?_⟩
  rw [Exp.val_addTerm h₁ hconst, Exp.val_addTerm (by simp) hvar]
  cases n <;> simp [Exp.val, Term.val]

/-- What one step of `pushConstToConstraints` does. -/
theorem pushConst_spec {c : Conjunction} (hc : c.readable = true) (i : Nat) : (c.pushConst i).readable = true ∧
    ((c.pushConst i).Holds I τ ↔ c.Holds I τ ∧ (c.tupleDecl.elemIsConst i = true → τ i = c.tupleDecl.elemConstVal i)) ∧
    (c.pushConst i).arity = c.arity ∧ (c.pushConst i).inArity = c.inArity ∧
    (c.pushConst i).tupleDecl.elemIsConst i = false ∧
    ∀ j ≠ i, (c.pushConst i).tupleDecl.elem j = c.tupleDecl.elem j := by
  unfold pushConst
  split_ifs with h
  · have helem := fun j => TupleDecl.elem_setTupleVar c.tupleDecl i j ("c_" ++ toString (c.tupleDecl.elemConstVal i)) h
    have hterm : (c.tupleDecl.setTupleVar i ("c_" ++ toString (c.tupleDecl.elemConstVal i))).elemCreateTerm i i =
        .tupleVar 1 i := by
      rw [TupleDecl.elemCreateTerm, TupleDecl.elemIsConst, helem, if_pos rfl]
      rfl
    obtain ⟨hr, hv⟩ := val_varConst (I := I) (τ := τ) i (-1 * c.tupleDecl.elemConstVal i)
    have hadds := addEquality_adds
      (c := { c with tupleDecl := c.tupleDecl.setTupleVar i ("c_" ++ toString (c.tupleDecl.elemConstVal i)) }) hc hr
    simp only [hterm]
    refine ⟨hadds.readable, ?_, ?_, hadds.inArity, ?_, fun j hj => ?_⟩
    · rw [hadds.holds]
      refine and_congr Iff.rfl ⟨fun hz _ => ?_, fun hz n => ?_⟩
      · have := hz 0
        rw [hv, scalar_zero] at this
        omega
      · rw [hv, hz h]
        cases n <;> simp
    · show TupleDecl.size _ = TupleDecl.size _
      rw [hadds.tupleDecl]
      exact TupleDecl.size_setTupleVar _ _ _
    · rw [hadds.tupleDecl, TupleDecl.elemIsConst, helem, if_pos rfl]
    · rw [hadds.tupleDecl, helem, if_neg hj]
  · exact ⟨hc, by simp [h], rfl, rfl, by simpa using h, fun _ _ => rfl⟩

theorem foldl_pushConst {c : Conjunction} (hc : c.readable = true) (n : Nat) :
    ((List.range n).foldl pushConst c).readable = true ∧
    (((List.range n).foldl pushConst c).Holds I τ ↔
      c.Holds I τ ∧ ∀ i < n, c.tupleDecl.elemIsConst i = true → τ i = c.tupleDecl.elemConstVal i) ∧
    ((List.range n).foldl pushConst c).arity = c.arity ∧ ((List.range n).foldl pushConst c).inArity = c.inArity ∧
    (∀ i < n, ((List.range n).foldl pushConst c).tupleDecl.elemIsConst i = false) ∧
    ∀ i, n ≤ i → ((List.range n).foldl pushConst c).tupleDecl.elem i = c.tupleDecl.elem i := by
  induction n with
  | zero => exact ⟨hc, by simp, rfl, rfl, by simp, fun _ _ => rfl⟩
  | succ n ih =>
    obtain ⟨h₁, h₂, h₃, h₄, h₅, h₆⟩ := ih
    rw [List.range_succ, List.foldl_append, List.foldl_cons, List.foldl_nil]
    obtain ⟨g₁, g₂, g₃, g₄, g₅, g₆⟩ := pushConst_spec (I := I) (τ := τ) h₁ n
    refine ⟨g₁, ?_, g₃.trans h₃, g₄.trans h₄, fun i hi => ?_, fun i hi => ?_⟩
    · rw [g₂, h₂, and_assoc, TupleDecl.elemIsConst, TupleDecl.elemConstVal, h₆ n le_rfl]
      refine and_congr Iff.rfl ⟨fun h i hi hconst => ?_, fun h => ⟨fun i hi => h i (by omega), h n (by omega)⟩⟩
      rcases Nat.lt_succ_iff_lt_or_eq.1 hi with hlt | rfl
      · exact h.1 i hlt hconst
      · exact h.2 hconst
    · rcases Nat.lt_succ_iff_lt_or_eq.1 hi with hlt | rfl
      · rw [TupleDecl.elemIsConst, g₆ i (by omega)]
        exact h₅ i hlt
      · exact g₅
    · rw [g₆ i (by omega), h₆ i (by omega)]

omit I τ in
theorem elemIsConst_pushConstToConstraints {c : Conjunction} (hc : c.readable = true) {i : Nat} (hi : i < c.arity) :
    c.pushConstToConstraints.tupleDecl.elemIsConst i = false := by
  obtain ⟨-, -, -, -, h, -⟩ := foldl_pushConst (I := ⟨fun _ => 0, fun _ _ => [], fun _ => 0, fun _ => 0⟩)
    (τ := fun _ => 0) hc c.arity
  exact h i hi

/-- The constants of the declaration are constraints after `pushConstToConstraints`. -/
theorem holds_pushConstToConstraints {c : Conjunction} (hc : c.readable = true) {t : List Int} (ht : t.length = c.arity) :
    c.pushConstToConstraints.Holds I (valuation t) ↔ t ∈ c.denote I := by
  obtain ⟨-, h, -⟩ := foldl_pushConst (I := I) (τ := valuation t) hc c.arity
  rw [pushConstToConstraints, h]
  exact ⟨fun h => ⟨⟨ht, h.2⟩, h.1⟩, fun h => ⟨h.2, h.1.2⟩⟩

end PushConst

end Conjunction

end IEGen
