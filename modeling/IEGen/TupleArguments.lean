import IEGen.Calls

/-!
# Tuples as arguments of calls

Tuples of expressions compare by the addresses of their elements, but calls compare by the text of their arguments. A
tuple that is a whole argument of a call, or an element of such a tuple, is seen by no other comparison, as long as the
text shows all of it and no call that collapses puts it in its own place.

* `Term.Told`, `Exp.Told`: terms and arguments that are known by their text.
* `Exp.TuplesStay`: the calls that collapse bring no tuple out of the arguments.
* `Exp.told_collapse`: what collapsing leaves is known by its text again.
-/

namespace IEGen

open SortedList (Tied)
open Outcome (bind_eq_ok)

/-! ## Terms that are known by their text -/

/-- There are no tuples among the terms. -/
def NoTuples (ts : List Term) : Prop := ∀ t ∈ ts, t.isTupleExp = false

instance (ts : List Term) : Decidable (NoTuples ts) := inferInstanceAs (Decidable (∀ t ∈ ts, t.isTupleExp = false))

/-- A tuple has no other terms beside it. -/
def Lone (ts : List Term) : Prop := NoTuples ts ∨ ∃ c es, ts = [.tupleExp c es]

mutual
/-- The arguments of a call and the elements of a tuple are no constraints, and tuples stand alone there. -/
def Term.Typed : Term → Prop
  | .ufCall _ _ as _ => argsTyped as
  | .tupleExp _ es => argsTyped es
  | _ => True

def Exp.Typed : Exp → Prop
  | .mk k ts => k = .expression ∧ Lone ts ∧ termsTyped ts

def argsTyped : List Exp → Prop
  | [] => True
  | e :: es => e.Typed ∧ argsTyped es

def termsTyped : List Term → Prop
  | [] => True
  | t :: ts => t.Typed ∧ termsTyped ts
end

/-- A term that is no tuple, and whose text tells it from the others. -/
structure Term.Single (t : Term) : Prop where
  noTuple : t.isTupleExp = false
  legible : t.legible = true
  proper : t.Proper

/-- A term that is known by its text, or a tuple that is. -/
structure Term.Told (t : Term) : Prop where
  legible : t.legible = true
  typed : t.Typed
  proper : t.Proper

/-- An argument that is known by its text. -/
structure Exp.Told (e : Exp) : Prop where
  legible : e.legible = true
  typed : e.Typed
  proper : e.Proper

theorem termsLegible_iff {ts : List Term} : termsLegible ts = true ↔ ∀ t ∈ ts, t.legible = true := by
  induction ts with
  | nil => simp [termsLegible]
  | cons t ts ih => simp [termsLegible, ih]

theorem termsTyped_iff {ts : List Term} : termsTyped ts ↔ ∀ t ∈ ts, t.Typed := by
  induction ts with
  | nil => simp [termsTyped]
  | cons t ts ih => simp [termsTyped, ih]

theorem termsProper_iff {ts : List Term} : termsProper ts ↔ ∀ t ∈ ts, t.coefficient ≠ 0 ∧ t.Proper := by
  induction ts with
  | nil => simp [termsProper]
  | cons t ts ih => simp [termsProper, ih]

theorem Exp.legible_iff {e : Exp} : e.legible = true ↔ ∀ t ∈ e.terms, t.legible = true := by
  cases e
  exact termsLegible_iff

theorem Exp.typed_iff {e : Exp} : e.Typed ↔ e.expType = .expression ∧ Lone e.terms ∧ ∀ t ∈ e.terms, t.Typed := by
  cases e
  simp only [Exp.Typed, termsTyped_iff, expType_mk, terms_mk]

theorem Exp.told_iff {e : Exp} : e.Told ↔
    e.expType = .expression ∧ Lone e.terms ∧ ∀ t ∈ e.terms, t.coefficient ≠ 0 ∧ t.Told := by
  obtain ⟨k, ts⟩ := e
  constructor
  · intro h
    obtain ⟨hk, hl, ht⟩ := Exp.typed_iff.1 h.typed
    refine ⟨hk, hl, fun t h' => ?_⟩
    obtain ⟨h0, hp⟩ := termsProper_iff.1 h.proper.2 t h'
    exact ⟨h0, Exp.legible_iff.1 h.legible t h', ht t h', hp⟩
  · rintro ⟨hk, hl, ht⟩
    refine ⟨Exp.legible_iff.2 fun t h => (ht t h).2.legible, Exp.typed_iff.2 ⟨hk, hl, fun t h => (ht t h).2.typed⟩, hk, ?_⟩
    exact termsProper_iff.2 fun t h => ⟨(ht t h).1, (ht t h).2.proper⟩

theorem args_told_iff {es : List Exp} :
    (argsLegible es = true ∧ argsTyped es ∧ argsProper es) ↔ ∀ e ∈ es, e.Told := by
  induction es with
  | nil => simp [argsLegible, argsTyped, argsProper]
  | cons e es ih =>
    simp only [argsLegible, argsTyped, argsProper, Bool.and_eq_true, List.forall_mem_cons, ← ih]
    exact ⟨fun ⟨⟨h₁, h₂⟩, ⟨h₃, h₄⟩, h₅, h₆⟩ => ⟨⟨h₁, h₃, h₅⟩, h₂, h₄, h₆⟩,
      fun ⟨⟨h₁, h₃, h₅⟩, h₂, h₄, h₆⟩ => ⟨⟨h₁, h₂⟩, ⟨h₃, h₄⟩, h₅, h₆⟩⟩

theorem told_ufCall {c : Int} {f : String} {as : List Exp} {i : Option Nat} :
    (Term.ufCall c f as i).Told ↔ isName f = true ∧ ∀ e ∈ as, e.Told := by
  rw [← args_told_iff]
  constructor
  · rintro ⟨hl, ht, hp⟩
    simp only [Term.legible, Bool.and_eq_true] at hl
    exact ⟨hl.1, hl.2, ht, hp⟩
  · rintro ⟨hf, hl, ht, hp⟩
    exact ⟨by simp only [Term.legible, hf, hl, Bool.and_self], ht, hp⟩

theorem Term.Told.single {t : Term} (h : t.Told) (ht : t.isTupleExp = false) : t.Single := ⟨ht, h.legible, h.proper⟩

theorem Term.single_of_canonical {t : Term} (hr : t.readable = true) (hc : t.Canonical) : t.Single :=
  ⟨isTupleExp_of_readable hr, Term.legible_of_readable hr, Term.proper_of_canonical hr hc⟩

theorem Term.legible_setCoefficient {t : Term} (ht : t.isTupleExp = false) (c : Int) :
    (t.setCoefficient c).legible = t.legible := by
  cases t <;> first | rfl | cases ht

theorem Term.Single.setCoefficient {t : Term} (h : t.Single) (c : Int) : (t.setCoefficient c).Single := by
  refine ⟨(Term.setCoefficient_isTupleExp c t).trans h.noTuple, (t.legible_setCoefficient h.noTuple c).trans h.legible, ?_⟩
  have hp := h.proper
  cases t <;> exact hp

theorem Term.Told.setCoefficient {t : Term} (h : t.Told) (ht : t.isTupleExp = false) (c : Int) :
    (t.setCoefficient c).Told := by
  have htyped := h.typed
  refine ⟨((h.single ht).setCoefficient c).legible, ?_, ((h.single ht).setCoefficient c).proper⟩
  cases t <;> exact htyped

/-- Terms that neither comes before the other are equal when they are known by their text. -/
theorem Term.Single.eq_of_tied {t u : Term} (ht : t.Single) (hu : u.Single) (h : Tied Term.lt t u) : t = u := by
  obtain ⟨hf, hk⟩ := factorMatches_of_tied h ht.noTuple
  cases t with
  | ufCall c f as i => exact Term.eq_of_tied_calls rfl ht.legible hu.legible ht.proper hu.proper h
  | tupleExp c es => cases ht.noTuple
  | _ => cases u <;> simp_all [Term.factorMatches, Term.coefficient]

theorem told_addTerm_nil {t : Term} (h0 : t.coefficient ≠ 0) (h : t.Told) : ((Exp.mk .expression []).addTerm t).Told := by
  rw [Exp.told_iff, terms_addTerm_empty h0]
  refine ⟨rfl, ?_, by simp [h0, h]⟩
  cases t with
  | tupleExp c es => exact .inr ⟨c, es, rfl⟩
  | _ => exact .inl (List.forall_mem_singleton.2 rfl)

theorem forall_told_addOne {P : Term → Prop} (hP : ∀ c t, P t → P (t.setCoefficient c)) {us acc : List Term}
    (hu : ∀ t ∈ us, t.coefficient ≠ 0 ∧ P t) (ha : ∀ t ∈ acc, t.coefficient ≠ 0 ∧ P t) :
    ∀ t ∈ us.foldl addOne acc, t.coefficient ≠ 0 ∧ P t := fun t ht =>
  ⟨nonzero_foldl_addOne (fun t ht => (ha t ht).1) t ht,
    forall_foldl_addOne hP (fun t ht => (hu t ht).2) (fun t ht => (ha t ht).2) t ht⟩

/-- A sum of two sums without tuples. -/
theorem told_addExp {e e' : Exp} (he : e.Told) (hn : NoTuples e.terms) (he' : e'.Told) (hn' : NoTuples e'.terms) :
    (e.addExp e').Told ∧ NoTuples (e.addExp e').terms := by
  have hparts : ∀ {d : Exp}, d.Told → NoTuples d.terms →
      ∀ t ∈ d.terms, t.coefficient ≠ 0 ∧ t.isTupleExp = false ∧ t.Told := fun hd hn t ht =>
    ⟨((Exp.told_iff.1 hd).2.2 t ht).1, hn t ht, ((Exp.told_iff.1 hd).2.2 t ht).2⟩
  have hall : ∀ t ∈ (e.addExp e').terms, t.coefficient ≠ 0 ∧ t.isTupleExp = false ∧ t.Told := by
    rw [terms_addExp_noTuples hn']
    refine forall_told_addOne (fun c t h => ⟨?_, h.2.setCoefficient h.1 c⟩) (hparts he' hn') (hparts he hn)
    exact (Term.setCoefficient_isTupleExp c t).trans h.1
  have hnone : NoTuples (e.addExp e').terms := fun t ht => (hall t ht).2.1
  exact ⟨Exp.told_iff.2 ⟨(Exp.told_iff.1 he).1, .inl hnone, fun t ht => ⟨(hall t ht).1, (hall t ht).2.2⟩⟩, hnone⟩

/-- A tuple and a sum are added to the empty sum alike. -/
theorem told_addExp_nil {e : Exp} (he : e.Told) : ((Exp.mk .expression []).addExp e).Told := by
  obtain ⟨-, hl | ⟨c, es, hterms⟩, ht⟩ := Exp.told_iff.1 he
  · exact (told_addExp (Exp.told_iff.2 ⟨rfl, .inl (by simp [NoTuples]), by simp⟩) (by simp [NoTuples]) he hl).1
  · obtain ⟨h0, h⟩ := ht (.tupleExp c es) (by rw [hterms]; exact List.mem_singleton_self _)
    have hone := told_addTerm_nil h0 h
    unfold Exp.addTerm at hone
    unfold Exp.addExp
    rwa [hterms]

theorem told_multiplyBy {e : Exp} (he : e.Told) (hn : NoTuples e.terms) {k : Int} (hk : k ≠ 0) :
    (e.multiplyBy k).Told ∧ NoTuples (e.multiplyBy k).terms := by
  obtain ⟨hk', -, ht⟩ := Exp.told_iff.1 he
  have hnone : NoTuples (e.multiplyBy k).terms := by
    refine List.forall_mem_map.2 fun t h => ?_
    exact (Term.setCoefficient_isTupleExp _ t).trans (hn t h)
  refine ⟨Exp.told_iff.2 ⟨hk', .inl hnone, List.forall_mem_map.2 fun t h => ⟨?_, (ht t h).2.setCoefficient (hn t h) _⟩⟩, hnone⟩
  rw [Term.multiplyBy, Term.coefficient_setCoefficient]
  exact mul_ne_zero (ht t h).1 hk

/-! ## Calls that collapse -/

section Collapse

variable (env : Environment)

mutual
/-- Collapsing puts no tuple in the place of a term, or, where the term is a whole argument, one with the coefficient
one; and it leaves the tuples in the arguments whole. -/
def Term.TuplesStay (whole : Bool) : Term → Prop
  | .ufCall c f as _ => (Collapsible env f as → (whole = true → c = 1) ∧ savedTuplesStay whole as) ∧
      (¬ Collapsible env f as → argsTuplesStay as)
  | .tupleExp .. => whole = true
  | _ => True

/-- The same for what a call that collapses is replaced by. -/
def savedTuplesStay (whole : Bool) : List Exp → Prop
  | .mk _ (.ufCall _ _ (saved :: _) _ :: _) :: _ => saved.TuplesStay whole
  | _ => True

def Exp.TuplesStay (whole : Bool) : Exp → Prop
  | .mk _ ts => termsTuplesStay ts ∨ whole = true ∧ loneTuplesStay ts

def loneTuplesStay : List Term → Prop
  | [t] => t.TuplesStay true
  | _ => False

def argsTuplesStay : List Exp → Prop
  | [] => True
  | e :: es => e.TuplesStay true ∧ argsTuplesStay es

def termsTuplesStay : List Term → Prop
  | [] => True
  | t :: ts => t.TuplesStay false ∧ termsTuplesStay ts
end

variable {env}

theorem Term.TuplesStay.setCoefficient {t : Term} (h : t.TuplesStay env false) (c : Int) :
    (t.setCoefficient c).TuplesStay env false := by
  cases t with
  | ufCall c' f as i => exact ⟨fun hc => ⟨fun hw => absurd hw Bool.false_ne_true, (h.1 hc).2⟩, h.2⟩
  | _ => exact h

mutual
/-- Terms without tuples have none to bring out. -/
theorem Term.tuplesStay_of_readable : ∀ {t : Term}, t.readable = true → t.TuplesStay env false
  | .tupleVar .., _ | .symConst .., _ | .constVal _, _ => trivial
  | .tupleExp .., h => by cases h
  | .ufCall .., h => by
    simp only [Term.readable, Bool.and_eq_true] at h
    exact ⟨fun _ => ⟨fun hw => absurd hw Bool.false_ne_true, savedTuplesStay_of_readable h.2⟩,
      fun _ => argsTuplesStay_of_readable h.2⟩

theorem savedTuplesStay_of_readable : ∀ {es : List Exp}, argsReadable es = true → savedTuplesStay env false es
  | .mk _ (.ufCall _ _ (_ :: _) _ :: _) :: _, h => Exp.tuplesStay_of_readable (readable_saved h)
  | [], _ | .mk _ [] :: _, _ | .mk _ (.tupleVar .. :: _) :: _, _ | .mk _ (.symConst .. :: _) :: _, _
  | .mk _ (.constVal _ :: _) :: _, _ | .mk _ (.tupleExp .. :: _) :: _, _ | .mk _ (.ufCall _ _ [] _ :: _) :: _, _ => trivial

theorem Exp.tuplesStay_of_readable : ∀ {e : Exp}, e.readable = true → e.TuplesStay env false
  | .mk _ _, h => .inl (termsTuplesStay_of_readable h)

theorem argsTuplesStay_of_readable : ∀ {es : List Exp}, argsReadable es = true → argsTuplesStay env es
  | [], _ => trivial
  | .mk _ _ :: _, h => by
    simp only [argsReadable, Exp.readable, Bool.and_eq_true] at h
    exact ⟨.inl (termsTuplesStay_of_readable h.1), argsTuplesStay_of_readable h.2⟩

theorem termsTuplesStay_of_readable : ∀ {ts : List Term}, termsReadable ts = true → termsTuplesStay env ts
  | [], _ => trivial
  | _ :: _, h => by
    simp only [termsReadable, Bool.and_eq_true] at h
    exact ⟨Term.tuplesStay_of_readable h.1, termsTuplesStay_of_readable h.2⟩
end

mutual
/-- What a term collapses to is known by its text. -/
theorem Term.told_collapse : ∀ {whole : Bool} {t : Term} {e : Exp}, t.Told → t.coefficient ≠ 0 → t.TuplesStay env whole →
    t.collapseNestedInvertibleFunctions env = .ok e → e.Told ∧ (whole = false → NoTuples e.terms)
  | _, .tupleVar c l, _, ht, h0, _, h | _, .symConst c s, _, ht, h0, _, h | _, .constVal c, _, ht, h0, _, h => by
    cases h
    refine ⟨told_addTerm_nil h0 ht, fun _ => ?_⟩
    rw [terms_addTerm_empty h0]
    exact List.forall_mem_singleton.2 rfl
  | whole, .tupleExp c es, _, ht, h0, hs, h => by
    cases h
    refine ⟨told_addTerm_nil h0 ht, fun hw => ?_⟩
    rw [show whole = true from hs] at hw
    cases hw
  | whole, .ufCall c f as i, e, ht, h0, hs, h => by
    obtain ⟨hf, has⟩ := told_ufCall.1 ht
    rcases collapse_ufCall h with ⟨k, c', g, saved, as', j, ts, es, rfl, hcol, e', he', rfl⟩ | ⟨hcol, as', has', rfl⟩
    · obtain ⟨hone, hstay⟩ := hs.1 hcol
      have hcall := ((Exp.told_iff.1 (has _ List.mem_cons_self)).2.2 _ List.mem_cons_self).2
      have hsaved := (told_ufCall.1 hcall).2 saved List.mem_cons_self
      obtain ⟨htold, hnone⟩ := Exp.told_collapse hsaved hstay he'
      cases whole with
      | false =>
        obtain ⟨hm, hn⟩ := told_multiplyBy htold (hnone rfl) h0
        exact ⟨hm, fun _ => hn⟩
      | true =>
        rw [show c = 1 from hone rfl, Exp.multiplyBy, List.map_congr_left (g := id) (fun t _ => multiplyBy_one t),
          List.map_id, Exp.mk_expType_terms]
        exact ⟨htold, fun hw => by cases hw⟩
    · have hargs := argsTold_collapse has (hs.2 (by rw [Collapsible, hcol]; exact fun h => by cases h)) has'
      refine ⟨told_addTerm_nil h0 (told_ufCall.2 ⟨hf, hargs⟩), fun _ => ?_⟩
      rw [terms_addTerm_empty (show (Term.ufCall c f as' i).coefficient ≠ 0 from h0)]
      exact List.forall_mem_singleton.2 rfl
termination_by _ t => sizeOf t

theorem Exp.told_collapse : ∀ {whole : Bool} {e e' : Exp}, e.Told → e.TuplesStay env whole →
    e.collapseNestedInvertibleFunctions env = .ok e' → e'.Told ∧ (whole = false → NoTuples e'.terms)
  | whole, .mk k ts, e', he, hs, h => by
    have ht := (Exp.told_iff.1 he).2.2
    rcases hs with hs | ⟨rfl, hs⟩
    · have hnil : (Exp.mk .expression []).Told := Exp.told_iff.2 ⟨rfl, .inl (by simp [NoTuples]), by simp⟩
      obtain ⟨hres, hnone⟩ := termsTold_collapse ht hs hnil (by simp [NoTuples]) h
      exact ⟨hres, fun _ => hnone⟩
    · exact ⟨loneTold_collapse ht hs h, fun hw => by cases hw⟩
termination_by _ e => sizeOf e

theorem loneTold_collapse : ∀ {ts : List Term} {e' : Exp}, (∀ t ∈ ts, t.coefficient ≠ 0 ∧ t.Told) → loneTuplesStay env ts →
    termsCollapse env ts (.mk .expression []) = .ok e' → e'.Told
  | [], _, _, hs, _ => hs.elim
  | [t], _, ht, hs, h => by
    obtain ⟨h0, ht⟩ := ht t List.mem_cons_self
    simp only [termsCollapse, bind_eq_ok] at h
    obtain ⟨e, he, h⟩ := h
    cases h
    exact told_addExp_nil (Term.told_collapse ht h0 hs he).1
  | _ :: _ :: _, _, _, hs, _ => hs.elim
termination_by ts => sizeOf ts

theorem argsTold_collapse : ∀ {es es' : List Exp}, (∀ e ∈ es, e.Told) → argsTuplesStay env es →
    argsCollapse env es = .ok es' → ∀ e ∈ es', e.Told
  | [], _, _, _, h => by
    cases h
    simp
  | e :: es, _, he, hs, h => by
    obtain ⟨he, hes⟩ := List.forall_mem_cons.1 he
    simp only [argsCollapse, bind_eq_ok] at h
    obtain ⟨e', he', es', hes', h⟩ := h
    cases h
    exact List.forall_mem_cons.2 ⟨(Exp.told_collapse he hs.1 he').1, argsTold_collapse hes hs.2 hes'⟩
termination_by es => sizeOf es

theorem termsTold_collapse : ∀ {ts : List Term} {acc e' : Exp}, (∀ t ∈ ts, t.coefficient ≠ 0 ∧ t.Told) →
    termsTuplesStay env ts → acc.Told → NoTuples acc.terms → termsCollapse env ts acc = .ok e' →
    e'.Told ∧ NoTuples e'.terms
  | [], _, _, _, _, hacc, hn, h => by
    cases h
    exact ⟨hacc, hn⟩
  | t :: ts, _, _, ht, hs, hacc, hn, h => by
    obtain ⟨⟨h0, ht⟩, hts⟩ := List.forall_mem_cons.1 ht
    simp only [termsCollapse, bind_eq_ok] at h
    obtain ⟨e, he, h⟩ := h
    obtain ⟨hte, hne⟩ := Term.told_collapse ht h0 hs.1 he
    obtain ⟨hsum, hnone⟩ := told_addExp hacc hn hte (hne rfl)
    exact termsTold_collapse hts hs.2 hsum hnone h
termination_by ts => sizeOf ts
end

end Collapse

end IEGen
