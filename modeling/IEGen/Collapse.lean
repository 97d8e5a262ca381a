import IEGen.Canonical
import IEGen.Lib.Outcome

/-!
# What collapsing gives

`collapseNestedInvertibleFunctions` gives a canonical expression that is no larger (`Exp.size`). When a canonical
expression comes out with the size it had, nothing was collapsed or merged, and it comes out as it was.
-/

namespace IEGen

open SortedList (Sorted)
open Outcome (bind_eq_ok)

/-! ## The result is canonical -/

theorem isTupleExp_of_readable {t : Term} (h : t.readable = true) : t.isTupleExp = false := by
  cases t <;> first | rfl | cases h

/-- The terms that `addExp` leaves, for terms that are no tuples. -/
theorem terms_addExp {e e' : Exp} (h : e'.readable = true) : (e.addExp e').terms = e'.terms.foldl addOne e.terms :=
  terms_addExp_noTuples fun u hu => isTupleExp_of_readable (Exp.readable_iff.1 h u hu)

theorem terms_addTerm {e : Exp} {t : Term} (h : t.readable = true) : (e.addTerm t).terms = addOne e.terms t :=
  terms_addTerm_noTuple (isTupleExp_of_readable h)

/-- Terms that are readable and canonical, whatever their order and coefficients. -/
def TermsOk (ts : List Term) : Prop := ∀ t ∈ ts, t.readable = true ∧ t.Canonical

theorem TermsOk.foldl_addOne {us acc : List Term} (hu : TermsOk us) (ha : TermsOk acc) : TermsOk (us.foldl addOne acc) :=
  forall_foldl_addOne (fun c t h => ⟨by simpa using h.1, canonical_setCoefficient h.2⟩) hu ha

theorem Exp.canonical_iff {e : Exp} : e.Canonical ↔
    e.expType = .expression ∧ Sorted Term.factorLt e.terms ∧ ∀ t ∈ e.terms, t.coefficient ≠ 0 ∧ t.Canonical := by
  obtain ⟨k, ts⟩ := e
  simp only [Exp.Canonical, termsCanonical_iff, expType_mk, terms_mk]

/-- Adding an expression to a canonical one. -/
theorem canonical_addExp {e e' : Exp} (hc : e.Canonical) (hr : e.readable = true) (ht : TermsOk e'.terms) :
    (e.addExp e').Canonical ∧ (e.addExp e').readable = true := by
  have hr' : e'.readable = true := Exp.readable_iff.2 (fun t h => (ht t h).1)
  have hok : TermsOk (e.addExp e').terms := by
    rw [terms_addExp hr']
    exact ht.foldl_addOne (fun t h => ⟨Exp.readable_iff.1 hr t h, ((Exp.canonical_iff.1 hc).2.2 t h).2⟩)
  obtain ⟨hk, hs, hz⟩ := Exp.canonical_iff.1 hc
  refine ⟨Exp.canonical_iff.2 ⟨by simpa using hk, ?_, fun t h => ⟨?_, (hok t h).2⟩⟩, Exp.readable_iff.2 (fun t h => (hok t h).1)⟩
  · rw [terms_addExp hr']
    exact sorted_foldl_addOne (fun u hu => isTupleExp_of_readable (ht u hu).1) hs
  · rw [terms_addExp hr'] at h
    exact nonzero_foldl_addOne (fun t h => (hz t h).1) t h

theorem canonical_empty : (Exp.mk .expression []).Canonical := ⟨rfl, .nil, trivial⟩

theorem argsReadable_iff {es : List Exp} : argsReadable es = true ↔ ∀ e ∈ es, e.readable = true := by
  induction es with
  | nil => simp [argsReadable]
  | cons e es ih => simp [argsReadable, ih]

theorem termsOk_ofTerm {t : Term} (hr : t.readable = true) (hc : t.Canonical) :
    TermsOk ((Exp.mk .expression []).addTerm t).terms := by
  rw [terms_addTerm hr]
  have hu : TermsOk [t] := by
    intro u hu
    rw [List.mem_singleton] at hu
    rw [hu]; exact ⟨hr, hc⟩
  show TermsOk ([t].foldl addOne [])
  exact TermsOk.foldl_addOne hu (by simp [TermsOk])

/-- The argument of the call that the first argument starts with. -/
theorem readable_saved {k : ExpType} {c : Int} {g : String} {saved : Exp} {as : List Exp} {j : Option Nat}
    {ts : List Term} {es : List Exp} (h : argsReadable (.mk k (.ufCall c g (saved :: as) j :: ts) :: es) = true) :
    saved.readable = true := by
  simp only [argsReadable, Exp.readable, termsReadable, Term.readable, Bool.and_eq_true] at h
  exact h.1.1.2.1

section Collapse

variable {env : Environment}

/-- What a call collapses to: the argument of the nested inverse, or the call with its arguments collapsed. -/
theorem collapse_ufCall {c : Int} {f : String} {as : List Exp} {i : Option Nat} {e : Exp}
    (h : (Term.ufCall c f as i).collapseNestedInvertibleFunctions env = .ok e) :
    (∃ k c' g saved as' j ts es, as = .mk k (.ufCall c' g (saved :: as') j :: ts) :: es ∧
      canCollapseSelf (env.funcInverse f) as = .ok true ∧
      ∃ e', saved.collapseNestedInvertibleFunctions env = .ok e' ∧ e = e'.multiplyBy c) ∨
    (canCollapseSelf (env.funcInverse f) as = .ok false ∧ ∃ as', argsCollapse env as = .ok as' ∧
      e = (Exp.mk .expression []).addTerm (.ufCall c f as' i)) := by
  unfold Term.collapseNestedInvertibleFunctions at h
  rw [bind_eq_ok] at h
  obtain ⟨b, hb, h⟩ := h
  cases b with
  | false =>
    simp only [Bool.false_eq_true, if_false, bind_eq_ok] at h
    obtain ⟨as', has, h⟩ := h
    cases h
    exact .inr ⟨hb, as', has, rfl⟩
  | true =>
    simp only [if_true] at h
    split at h
    · next k c' g saved as' j ts es =>
      rw [bind_eq_ok] at h
      obtain ⟨e', he', h⟩ := h
      cases h
      exact .inl ⟨k, c', g, saved, as', j, ts, es, rfl, hb, e', he', rfl⟩
    · cases h

mutual
theorem Term.termsOk_collapse : ∀ {t : Term} {e : Exp}, t.readable = true →
    t.collapseNestedInvertibleFunctions env = .ok e → TermsOk e.terms
  | .tupleVar .., _, hr, h | .symConst .., _, hr, h | .constVal _, _, hr, h => by
    cases h
    exact termsOk_ofTerm hr trivial
  | .tupleExp .., _, hr, _ => by cases hr
  | .ufCall c f as i, e, hr, h => by
    simp only [Term.readable, Bool.and_eq_true] at hr
    rcases collapse_ufCall h with ⟨k, c', g, saved, as', j, ts, es, rfl, -, e', he', rfl⟩ | ⟨-, as', has, rfl⟩
    · have hs := readable_saved hr.2
      obtain ⟨h₁, h₂⟩ := Exp.canonical_collapse hs he'
      intro t ht
      rw [Exp.terms_multiplyBy] at ht
      obtain ⟨u, hu, rfl⟩ := List.mem_map.1 ht
      exact ⟨by simpa [Term.multiplyBy] using Exp.readable_iff.1 h₂ u hu,
        canonical_setCoefficient ((Exp.canonical_iff.1 h₁).2.2 u hu).2⟩
    · obtain ⟨hc, hr'⟩ := canonical_argsCollapse hr.2 has
      exact termsOk_ofTerm (by simp only [Term.readable, hr.1, hr', Bool.and_self]) hc

theorem Exp.canonical_collapse : ∀ {e e' : Exp}, e.readable = true →
    e.collapseNestedInvertibleFunctions env = .ok e' → e'.Canonical ∧ e'.readable = true
  | .mk _ _, _, hr, h => canonical_termsCollapse hr canonical_empty rfl h

theorem canonical_argsCollapse : ∀ {es es' : List Exp}, argsReadable es = true → argsCollapse env es = .ok es' →
    argsCanonical es' ∧ argsReadable es' = true
  | [], es', _, h => by
    cases h
    exact ⟨trivial, rfl⟩
  | e :: es, es', hr, h => by
    simp only [argsReadable, Bool.and_eq_true] at hr
    simp only [argsCollapse, bind_eq_ok] at h
    obtain ⟨e', he, es'', hes, h⟩ := h
    cases h
    obtain ⟨h₁, h₂⟩ := Exp.canonical_collapse hr.1 he
    obtain ⟨h₃, h₄⟩ := canonical_argsCollapse hr.2 hes
    exact ⟨⟨h₁, h₃⟩, by simp only [argsReadable, h₂, h₄, Bool.and_self]⟩

theorem canonical_termsCollapse : ∀ {ts : List Term} {acc e' : Exp}, termsReadable ts = true → acc.Canonical →
    acc.readable = true → termsCollapse env ts acc = .ok e' → e'.Canonical ∧ e'.readable = true
  | [], acc, e', _, hc, hr, h => by
    cases h
    exact ⟨hc, hr⟩
  | t :: ts, acc, e', hts, hc, hr, h => by
    simp only [termsReadable, Bool.and_eq_true] at hts
    simp only [termsCollapse, bind_eq_ok] at h
    obtain ⟨e, he, h⟩ := h
    obtain ⟨hc', hr'⟩ := canonical_addExp hc hr (Term.termsOk_collapse hts.1 he)
    exact canonical_termsCollapse hts.2 hc' hr' h
end

/-! ## The result is no larger -/

mutual
/-- The number of terms, those in arguments included. -/
def Term.size : Term → Nat
  | .ufCall _ _ as _ => 1 + argsSize as
  | .tupleExp _ es => 1 + argsSize es
  | .tupleVar .. | .symConst .. | .constVal _ => 1

def Exp.size : Exp → Nat
  | .mk _ ts => termsSize ts

def argsSize : List Exp → Nat
  | [] => 0
  | e :: es => e.size + argsSize es

def termsSize : List Term → Nat
  | [] => 0
  | t :: ts => t.size + termsSize ts
end

@[simp] theorem size_setCoefficient (c : Int) (t : Term) : (t.setCoefficient c).size = t.size := by cases t <;> rfl

theorem Term.size_pos (t : Term) : 0 < t.size := by
  cases t <;> simp only [Term.size] <;> omega

theorem Exp.size_eq (e : Exp) : e.size = termsSize e.terms := by cases e; rfl

theorem termsSize_append (ts us : List Term) : termsSize (ts ++ us) = termsSize ts + termsSize us := by
  induction ts with
  | nil => simp [termsSize]
  | cons t ts ih => simp only [List.cons_append, termsSize, ih]; omega

theorem termsSize_map {f : Term → Term} (hf : ∀ t, (f t).size = t.size) (ts : List Term) :
    termsSize (ts.map f) = termsSize ts := by
  induction ts with
  | nil => rfl
  | cons t ts ih => simp only [List.map_cons, termsSize, hf, ih]

theorem size_multiplyBy (k : Int) (e : Exp) : (e.multiplyBy k).size = e.size := by
  rw [Exp.size_eq, Exp.size_eq, Exp.terms_multiplyBy, termsSize_map (fun t => by simp [Term.multiplyBy])]

theorem termsSize_addOne_le (ts : List Term) (term : Term) : termsSize (addOne ts term) ≤ termsSize ts + term.size := by
  unfold addOne
  split_ifs
  · omega
  · induction ts with
    | nil => simp [insertTerm, termsSize]
    | cons u us ih =>
      simp only [insertTerm, combineSimple]
      by_cases hm : u.factorMatches term = true
      · simp only [hm, if_true]
        split_ifs
        · simp only [termsSize]; omega
        · simp only [termsSize, size_setCoefficient]; omega
      · simp only [hm, Bool.false_eq_true, if_false]
        split_ifs
        · simp only [termsSize]; omega
        · simp only [termsSize]; omega

theorem termsSize_foldl_le (us acc : List Term) :
    termsSize (us.foldl addOne acc) ≤ termsSize acc + termsSize us := by
  induction us generalizing acc with
  | nil => simp [termsSize]
  | cons u us ih =>
    have h₁ := ih (addOne acc u)
    have h₂ := termsSize_addOne_le acc u
    simp only [List.foldl_cons, termsSize]
    omega

/-- A term that comes after all others and is not merged goes to the end. -/
theorem addOne_eq_append {ts : List Term} {term : Term} (h0 : term.coefficient ≠ 0)
    (hs : ∀ u ∈ ts, u.factorLt term = true) (hsize : termsSize (addOne ts term) = termsSize ts + term.size) :
    addOne ts term = ts ++ [term] ∧ ∀ u ∈ ts, u.factorMatches term = false := by
  unfold addOne at hsize ⊢
  simp only [h0, if_false] at hsize ⊢
  induction ts with
  | nil => simp [insertTerm]
  | cons u us ih =>
    obtain ⟨hu, hus⟩ := List.forall_mem_cons.1 hs
    have hpos := term.size_pos
    simp only [insertTerm, combineSimple] at hsize ⊢
    by_cases hm : u.factorMatches term = true
    · simp only [hm, if_true] at hsize
      split_ifs at hsize
      · simp only [termsSize] at hsize; omega
      · simp only [termsSize, size_setCoefficient] at hsize; omega
    · have hlt : term.lt u = false := Term.strictWeak_lt.asymm (Term.lt_of_factorLt hu)
      simp only [hm, Bool.false_eq_true, if_false, hlt] at hsize ⊢
      simp only [termsSize] at hsize
      obtain ⟨h₁, h₂⟩ := ih hus (by omega)
      exact ⟨by rw [h₁]; rfl, List.forall_mem_cons.2 ⟨by simpa using hm, h₂⟩⟩

theorem size_addExp_le {e e' : Exp} (h : e'.readable = true) : (e.addExp e').size ≤ e.size + e'.size := by
  rw [Exp.size_eq, Exp.size_eq, Exp.size_eq, terms_addExp h]
  exact termsSize_foldl_le _ _

theorem size_addTerm_empty_le {t : Term} (h : t.readable = true) : ((Exp.mk .expression []).addTerm t).size ≤ t.size := by
  have := termsSize_addOne_le [] t
  rw [Exp.size_eq, terms_addTerm h]
  simpa [termsSize] using this

theorem addTerm_empty {t : Term} (h : t.readable = true) (h0 : t.coefficient ≠ 0) :
    (Exp.mk .expression []).addTerm t = .ofTerm t := by
  rw [← Exp.mk_expType_terms ((Exp.mk .expression []).addTerm t), terms_addTerm h]
  simp [addOne, h0, insertTerm, Exp.ofTerm]

mutual
theorem Term.size_collapse_le : ∀ {t : Term} {e : Exp}, t.readable = true →
    t.collapseNestedInvertibleFunctions env = .ok e → e.size ≤ t.size
  | .tupleVar .., e, hr, h | .symConst .., e, hr, h | .constVal _, e, hr, h => by
    cases h
    exact size_addTerm_empty_le hr
  | .tupleExp .., _, hr, _ => by cases hr
  | .ufCall c f as i, e, hr, h => by
    simp only [Term.readable, Bool.and_eq_true] at hr
    rcases collapse_ufCall h with ⟨k, c', g, saved, as', j, ts, es, rfl, -, e', he', rfl⟩ | ⟨-, as', has, rfl⟩
    · have hs := readable_saved hr.2
      have := Exp.size_collapse_le hs he'
      rw [size_multiplyBy]
      simp only [Term.size, argsSize, Exp.size, termsSize]
      simp only [Exp.size_eq] at this ⊢
      omega
    · obtain ⟨-, hr'⟩ := canonical_argsCollapse hr.2 has
      have h₁ := argsSize_collapse_le hr.2 has
      refine le_trans (size_addTerm_empty_le (by simp only [Term.readable, hr.1, hr', Bool.and_self])) ?_
      simp only [Term.size]
      omega

theorem Exp.size_collapse_le : ∀ {e e' : Exp}, e.readable = true → e.collapseNestedInvertibleFunctions env = .ok e' →
    e'.size ≤ e.size
  | .mk _ ts, e', hr, h => by
    have := size_termsCollapse_le hr canonical_empty rfl h
    simpa [Exp.size, termsSize] using this

theorem argsSize_collapse_le : ∀ {es es' : List Exp}, argsReadable es = true → argsCollapse env es = .ok es' →
    argsSize es' ≤ argsSize es
  | [], es', _, h => by cases h; exact le_rfl
  | e :: es, es', hr, h => by
    simp only [argsReadable, Bool.and_eq_true] at hr
    simp only [argsCollapse, bind_eq_ok] at h
    obtain ⟨e', he, es'', hes, h⟩ := h
    cases h
    have h₁ := Exp.size_collapse_le hr.1 he
    have h₂ := argsSize_collapse_le hr.2 hes
    simp only [argsSize]
    omega

theorem size_termsCollapse_le : ∀ {ts : List Term} {acc e' : Exp}, termsReadable ts = true → acc.Canonical →
    acc.readable = true → termsCollapse env ts acc = .ok e' → e'.size ≤ acc.size + termsSize ts
  | [], acc, e', _, _, _, h => by cases h; simp [termsSize]
  | t :: ts, acc, e', hts, hc, hr, h => by
    simp only [termsReadable, Bool.and_eq_true] at hts
    simp only [termsCollapse, bind_eq_ok] at h
    obtain ⟨e, he, h⟩ := h
    have hok := Term.termsOk_collapse hts.1 he
    obtain ⟨hc', hr'⟩ := canonical_addExp hc hr hok
    have h₁ := Term.size_collapse_le hts.1 he
    have h₂ := size_addExp_le (e := acc) (Exp.readable_iff.2 (fun t h => (hok t h).1))
    have h₃ := size_termsCollapse_le hts.2 hc' hr' h
    simp only [termsSize]
    omega
end

/-! ## What keeps its size is not changed -/

/-- No two terms have matching factors. -/
def Unmatched (ts : List Term) : Prop := ts.Pairwise (fun t u => t.factorMatches u = false)

mutual
theorem Term.collapse_eq_of_size : ∀ {t : Term} {e : Exp}, t.readable = true → t.Canonical → t.coefficient ≠ 0 →
    t.collapseNestedInvertibleFunctions env = .ok e → e.size = t.size → e = .ofTerm t
  | .tupleVar .., e, hr, _, h0, h, _ | .symConst .., e, hr, _, h0, h, _ | .constVal _, e, hr, _, h0, h, _ => by
    cases h
    exact addTerm_empty hr h0
  | .tupleExp .., _, hr, _, _, _, _ => by cases hr
  | .ufCall c f as i, e, hr, hc, h0, h, hsize => by
    simp only [Term.readable, Bool.and_eq_true] at hr
    rcases collapse_ufCall h with ⟨k, c', g, saved, as', j, ts, es, rfl, -, e', he', rfl⟩ | ⟨-, as', has, rfl⟩
    · have := Exp.size_collapse_le (readable_saved hr.2) he'
      rw [size_multiplyBy] at hsize
      simp only [Term.size, argsSize, Exp.size, termsSize] at hsize
      simp only [Exp.size_eq] at this hsize
      omega
    · obtain ⟨-, hr'⟩ := canonical_argsCollapse hr.2 has
      have hr'' : (Term.ufCall c f as' i).readable = true := by simp only [Term.readable, hr.1, hr', Bool.and_self]
      rw [addTerm_empty hr'' h0] at hsize ⊢
      simp only [Exp.ofTerm, Exp.size, termsSize, Term.size] at hsize
      rw [argsCollapse_eq_of_size hr.2 hc has (by omega)]

/-- A canonical expression that keeps its size is not changed. -/
theorem Exp.collapse_eq_of_size : ∀ {e e' : Exp}, e.readable = true → e.Canonical →
    e.collapseNestedInvertibleFunctions env = .ok e' → e'.size = e.size → e' = e
  | .mk k ts, e', hr, hc, h, hsize => by
    have hts := termsCanonical_iff.1 hc.2.2
    obtain ⟨h₁, -⟩ := termsCollapse_eq_of_size hr hts canonical_empty rfl hc.2.1 h (by simpa [Exp.size, termsSize] using hsize)
    rw [h₁, hc.1]
    rfl

theorem argsCollapse_eq_of_size : ∀ {es es' : List Exp}, argsReadable es = true → argsCanonical es →
    argsCollapse env es = .ok es' → argsSize es' = argsSize es → es' = es
  | [], es', _, _, h, _ => by cases h; rfl
  | e :: es, es', hr, hc, h, hsize => by
    simp only [argsReadable, Bool.and_eq_true] at hr
    simp only [argsCollapse, bind_eq_ok] at h
    obtain ⟨e', he, es'', hes, h⟩ := h
    cases h
    have h₁ := Exp.size_collapse_le hr.1 he
    have h₂ := argsSize_collapse_le hr.2 hes
    simp only [argsSize] at hsize
    rw [Exp.collapse_eq_of_size hr.1 hc.1 he (by omega), argsCollapse_eq_of_size hr.2 hc.2 hes (by omega)]

/-- Canonical terms that keep their size are appended, and no two of them match. -/
theorem termsCollapse_eq_of_size : ∀ {ts : List Term} {acc e' : Exp}, termsReadable ts = true →
    (∀ t ∈ ts, t.coefficient ≠ 0 ∧ t.Canonical) → acc.Canonical → acc.readable = true →
    Sorted Term.factorLt (acc.terms ++ ts) → termsCollapse env ts acc = .ok e' → e'.size = acc.size + termsSize ts →
    e' = .mk acc.expType (acc.terms ++ ts) ∧ (∀ u ∈ acc.terms, ∀ t ∈ ts, u.factorMatches t = false) ∧ Unmatched ts
  | [], acc, e', _, _, _, _, _, h, _ => by
    cases h
    exact ⟨by simp, by simp, .nil⟩
  | t :: ts, acc, e', hts, hts', hc, hr, hs, h, hsize => by
    simp only [termsReadable, Bool.and_eq_true] at hts
    obtain ⟨ht, hts'⟩ := List.forall_mem_cons.1 hts'
    simp only [termsCollapse, bind_eq_ok] at h
    obtain ⟨e, he, h⟩ := h
    have hok := Term.termsOk_collapse hts.1 he
    obtain ⟨hc', hr'⟩ := canonical_addExp hc hr hok
    have h₁ := Term.size_collapse_le hts.1 he
    have h₂ := size_addExp_le (e := acc) (Exp.readable_iff.2 (fun t h => (hok t h).1))
    have h₃ := size_termsCollapse_le hts.2 hc' hr' h
    simp only [termsSize] at hsize
    obtain rfl := Term.collapse_eq_of_size hts.1 ht.2 ht.1 he (by omega)
    have hacc : (acc.addExp (.ofTerm t)).terms = addOne acc.terms t := by
      rw [terms_addExp (Exp.readable_iff.2 (fun t h => (hok t h).1))]
      rfl
    obtain ⟨hpre, hmid, hcross⟩ := List.pairwise_append.1 hs
    have hlt : ∀ u ∈ acc.terms, u.factorLt t = true := fun u hu => hcross u hu t List.mem_cons_self
    have hone : termsSize (addOne acc.terms t) = termsSize acc.terms + t.size := by
      have h₄ : (Exp.ofTerm t).size = t.size := by simp [Exp.ofTerm, Exp.size, termsSize]
      rw [← hacc, ← Exp.size_eq, ← Exp.size_eq]
      omega
    obtain ⟨happ, hno⟩ := addOne_eq_append ht.1 hlt hone
    rw [happ] at hacc
    have hs' : Sorted Term.factorLt ((acc.addExp (.ofTerm t)).terms ++ ts) := by
      rw [hacc, List.append_assoc]
      exact hs
    have hsize' : e'.size = (acc.addExp (.ofTerm t)).size + termsSize ts := by
      rw [Exp.size_eq (acc.addExp _), hacc, ← happ, hone, ← Exp.size_eq]
      omega
    obtain ⟨h₄, h₅, h₆⟩ := termsCollapse_eq_of_size hts.2 hts' hc' hr' hs' h hsize'
    rw [hacc] at h₄ h₅
    refine ⟨by rw [h₄, List.append_assoc]; rfl, fun u hu v hv => ?_, List.pairwise_cons.2 ⟨fun v hv => ?_, h₆⟩⟩
    · rcases List.mem_cons.1 hv with rfl | hv
      · exact hno u hu
      · exact h₅ u (List.mem_append_left _ hu) v hv
    · exact h₅ t (List.mem_append_right _ List.mem_cons_self) v hv
end

end Collapse

end IEGen
