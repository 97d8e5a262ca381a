import IEGen.Named
import IEGen.TupleArguments

/-!
# Weights of expressions

A sum of terms is known by its weights: a weight gives each factor a number, and the sum the numbers times the
coefficients (`weigh`). Adding terms and expressions adds their weights, as long as the weight does not tell apart what
merges (`Respects`).

* Summed terms with one weight each are the same terms, where calls that match have one index (`Summed.eq_of_weigh`):
  a call without an index and one with the index `0` merge though they are ordered apart, and whether they meet depends
  on the order of the others.
* What a substitution leaves is weighed as the expression is, with the weights of what is put in (`weigh_substitute`).
-/

namespace IEGen

open SortedList (Tied Sorted)

/-! ## Weighing -/

section Weigh

variable {P : Term → Prop} {w : Term → Int}

/-- The sum of the coefficients times the weights of the factors. -/
def weigh (w : Term → Int) (ts : List Term) : Int := (ts.map fun t => t.coefficient * w t).sum

/-- Factors that match have one weight. -/
def Respects (P : Term → Prop) (w : Term → Int) : Prop :=
  ∀ {t u}, P t → P u → t.factorMatches u = true → w t = w u

/-- What a property of terms does not look at. -/
def IgnoresCoefficient (P : Term → Prop) : Prop := ∀ c t, P t → P (t.setCoefficient c)

@[simp] theorem weigh_nil : weigh w [] = 0 := rfl

@[simp] theorem weigh_cons (t : Term) (ts : List Term) : weigh w (t :: ts) = t.coefficient * w t + weigh w ts := by
  simp [weigh]

theorem factorMatches_self (t : Term) : t.factorMatches t = true := by
  cases t <;> simp [Term.factorMatches]

theorem factorMatches_trans {t u v : Term} (h : t.factorMatches u = true) (h' : u.factorMatches v = true) :
    t.factorMatches v = true := by
  cases t <;> cases u <;> cases v <;> simp_all [Term.factorMatches]

theorem Respects.setCoefficient (hw : Respects P w) (hP : IgnoresCoefficient P) {t : Term} (ht : P t) (c : Int) :
    w (t.setCoefficient c) = w t :=
  hw (hP c t ht) ht (by rw [Term.factorMatches_setCoefficient_left]; exact factorMatches_self t)

theorem weigh_insertTerm (hw : Respects P w) (hP : IgnoresCoefficient P) {t : Term} (ht : P t) :
    ∀ {ts : List Term}, (∀ u ∈ ts, P u) →
      weigh w (insertTerm (combineSimple 1 t) t ts) = weigh w ts + t.coefficient * w t
  | [], _ => by simp [insertTerm]
  | u :: us, hts => by
    obtain ⟨hu, hus⟩ := List.forall_mem_cons.1 hts
    simp only [insertTerm, combineSimple, mul_one]
    by_cases hm : u.factorMatches t = true
    · have hwt : w u = w t := hw hu ht hm
      simp only [hm, if_true]
      split_ifs with h0
      · rw [Term.coefficient_setCoefficient] at h0
        have hsum : (u.coefficient + t.coefficient) * w t = 0 := by rw [h0, zero_mul]
        rw [add_mul] at hsum
        rw [weigh_cons, hwt]
        omega
      · rw [weigh_cons, weigh_cons, Term.coefficient_setCoefficient, hw.setCoefficient hP hu, hwt, add_mul]
        omega
    · simp only [hm, Bool.false_eq_true, if_false]
      split_ifs
      · rw [weigh_cons, add_comm]
      · rw [weigh_cons, weigh_cons, weigh_insertTerm hw hP ht hus, add_assoc]

theorem weigh_addOne (hw : Respects P w) (hP : IgnoresCoefficient P) {ts : List Term} {t : Term} (hts : ∀ u ∈ ts, P u)
    (ht : P t) : weigh w (addOne ts t) = weigh w ts + t.coefficient * w t := by
  unfold addOne
  split_ifs with h0
  · rw [h0, zero_mul, add_zero]
  · exact weigh_insertTerm hw hP ht hts

theorem weigh_foldl_addOne (hw : Respects P w) (hP : IgnoresCoefficient P) {us ts : List Term} (hus : ∀ u ∈ us, P u)
    (hts : ∀ t ∈ ts, P t) : weigh w (us.foldl addOne ts) = weigh w ts + weigh w us := by
  induction us generalizing ts with
  | nil => simp
  | cons u us ih =>
    obtain ⟨hu, hus⟩ := List.forall_mem_cons.1 hus
    rw [List.foldl_cons, ih hus (forall_addOne hP hu hts), weigh_addOne hw hP hts hu, weigh_cons, add_assoc]

theorem weigh_multiplyBy (hw : Respects P w) (hP : IgnoresCoefficient P) {ts : List Term} (hts : ∀ t ∈ ts, P t) (k : Int) :
    weigh w (ts.map (Term.multiplyBy k)) = k * weigh w ts := by
  induction ts with
  | nil => simp
  | cons t ts ih =>
    obtain ⟨ht, hts⟩ := List.forall_mem_cons.1 hts
    rw [List.map_cons, weigh_cons, weigh_cons, ih hts, Term.multiplyBy, Term.coefficient_setCoefficient,
      hw.setCoefficient hP ht, mul_add, mul_assoc, mul_left_comm]

end Weigh

/-! ## Summed terms -/

/-- The index of a call. -/
def Term.callIndex : Term → Option Nat
  | .ufCall _ _ _ i => i
  | _ => none

@[simp] theorem Term.callIndex_setCoefficient (c : Int) (t : Term) : (t.setCoefficient c).callIndex = t.callIndex := by
  cases t <;> rfl

/-- No call stands in the list both without an index and with the index `0`. -/
def SameIndex (ts : List Term) : Prop := ∀ t ∈ ts, ∀ u ∈ ts, t.factorMatches u = true → t.callIndex = u.callIndex

/-- A call is in the list, up to its coefficient. -/
def Term.CallIn (l : List Term) (t : Term) : Prop := t.isUFCall = true → t.setCoefficient 1 ∈ l

/-- Terms as `addTerm` leaves them. -/
structure Summed (l : List Term) (ts : List Term) : Prop where
  sorted : Sorted Term.factorLt ts
  single : ∀ t ∈ ts, t.Single
  nonzero : ∀ t ∈ ts, t.coefficient ≠ 0
  calls : ∀ t ∈ ts, t.CallIn l

section Summed

variable {l ts us : List Term}

theorem Term.CallIn.setCoefficient {t : Term} (h : t.CallIn l) (c : Int) : (t.setCoefficient c).CallIn l := by
  intro hcall
  rw [Term.setCoefficient_setCoefficient]
  refine h ?_
  cases t <;> exact hcall

theorem summed_foldl_addOne (hs : ∀ t ∈ us, t.Single) (hc : ∀ t ∈ us, t.CallIn l) : Summed l (us.foldl addOne []) :=
  ⟨sorted_foldl_addOne (fun u hu => (hs u hu).noTuple) .nil,
    forall_foldl_addOne (fun c _ h => h.setCoefficient c) hs (by simp), nonzero_foldl_addOne (by simp),
    forall_foldl_addOne (fun c _ h => h.setCoefficient c) hc (by simp)⟩

/-- Terms with one factor, one index and one coefficient are equal. -/
theorem eq_of_factorMatches {t u : Term} (ht : t.Single) (hu : u.Single) (hm : t.factorMatches u = true)
    (hi : t.callIndex = u.callIndex) (hk : t.coefficient = u.coefficient) : t = u := by
  cases t with
  | ufCall c f as i =>
    cases u with
    | ufCall c' f' as' i' =>
      simp only [Term.factorMatches, Bool.and_eq_true, beq_iff_eq] at hm
      obtain ⟨⟨rfl, -⟩, ha⟩ := hm
      have hlt := ht.legible
      have hlu := hu.legible
      simp only [Term.legible, Bool.and_eq_true] at hlt hlu
      have has : as = as' := args_plain_injective ht.proper hu.proper (argsPlain_of_toString_eq hlt.2 hlu.2 ha)
      obtain rfl : i = i' := hi
      obtain rfl : c = c' := hk
      rw [has]
    | _ => cases hm
  | tupleVar c x => cases u <;> simp_all [Term.factorMatches, Term.coefficient]
  | symConst c s => cases u <;> simp_all [Term.factorMatches, Term.coefficient]
  | constVal c => cases u <;> simp_all [Term.factorMatches, Term.coefficient]
  | tupleExp c es => cases ht.noTuple

/-- Terms in order that have one index wherever they match do not match at all. -/
theorem unmatched_of_sameIndex (hs : Sorted Term.factorLt ts) (hts : ∀ t ∈ ts, t.Single) (hl : SameIndex ts) :
    Unmatched ts := by
  refine hs.imp_of_mem fun {t u} ht hu hlt => ?_
  by_contra hm
  rw [Bool.not_eq_false] at hm
  have heq : t.setCoefficient 1 = u.setCoefficient 1 := by
    refine eq_of_factorMatches ((hts t ht).setCoefficient 1) ((hts u hu).setCoefficient 1) (by simpa using hm) ?_ (by simp)
    simpa using hl t ht u hu hm
  rw [Term.factorLt, heq, Term.strictWeak_lt.irrefl] at hlt
  cases hlt

/-- Calls that match have one index where those of the list have. -/
theorem SameIndex.callIndex_eq (hl : SameIndex l) {t u : Term} (ht : t.CallIn l) (hu : u.CallIn l)
    (hm : t.factorMatches u = true) : t.callIndex = u.callIndex := by
  cases t with
  | ufCall c f as i =>
    cases u with
    | ufCall c' f' as' i' => exact hl (.ufCall 1 f as i) (ht rfl) (.ufCall 1 f' as' i') (hu rfl) hm
    | _ => cases hm
  | _ => cases u <;> first | rfl | cases hm

/-- Of summed terms no two match. -/
theorem Summed.unmatched (hl : SameIndex l) (h : Summed l ts) : Unmatched ts :=
  unmatched_of_sameIndex h.sorted h.single fun t ht u hu => hl.callIndex_eq (h.calls t ht) (h.calls u hu)

/-- The weight that counts one factor. -/
def countFactor (t u : Term) : Int := if u.factorMatches t then 1 else 0

theorem respects_countFactor (t : Term) : Respects (fun _ => True) (countFactor t) := by
  intro u v _ _ hm
  have hiff : u.factorMatches t = v.factorMatches t := by
    rw [Bool.eq_iff_iff]
    exact ⟨factorMatches_trans (Term.factorMatches_comm u v ▸ hm), factorMatches_trans hm⟩
  rw [countFactor, countFactor, hiff]

theorem weigh_countFactor_of_none {t : Term} (h : ∀ u ∈ ts, u.factorMatches t = false) : weigh (countFactor t) ts = 0 := by
  induction ts with
  | nil => rfl
  | cons u ts ih =>
    obtain ⟨hu, hts⟩ := List.forall_mem_cons.1 h
    rw [weigh_cons, ih hts, countFactor, hu]
    simp

/-- The weight of a factor in unmatched terms is its coefficient. -/
theorem weigh_countFactor (h : Unmatched ts) {t u : Term} (hu : u ∈ ts) (hm : u.factorMatches t = true) :
    weigh (countFactor t) ts = u.coefficient := by
  induction ts with
  | nil => cases hu
  | cons v ts ih =>
    obtain ⟨hv, hts⟩ := List.pairwise_cons.1 h
    rw [weigh_cons]
    rcases List.mem_cons.1 hu with rfl | hu
    · rw [weigh_countFactor_of_none, countFactor, hm]
      · simp
      · intro x hx
        by_contra hne
        rw [Bool.not_eq_false] at hne
        have := hv x hx
        rw [factorMatches_trans hm (Term.factorMatches_comm x t ▸ hne)] at this
        cases this
    · have hvt : v.factorMatches t = false := by
        by_contra hne
        rw [Bool.not_eq_false] at hne
        have := hv u hu
        rw [factorMatches_trans hne (Term.factorMatches_comm u t ▸ hm)] at this
        cases this
      rw [ih hts hu, countFactor, hvt]
      simp

/-- Summed terms are known by their weights. -/
theorem Summed.eq_of_weigh (hl : SameIndex l) (ht : Summed l ts) (hu : Summed l us)
    (h : ∀ w, Respects (fun _ => True) w → weigh w ts = weigh w us) : ts = us := by
  have hsub : ∀ {ts us : List Term}, Summed l ts → Summed l us →
      (∀ w, Respects (fun _ => True) w → weigh w ts = weigh w us) → ∀ x ∈ ts, x ∈ us := by
    intro ts us ht hu h x hx
    have hweigh := h _ (respects_countFactor x)
    rw [weigh_countFactor (ht.unmatched hl) hx (factorMatches_self x)] at hweigh
    by_cases hex : ∃ y ∈ us, y.factorMatches x = true
    · obtain ⟨y, hy, hm⟩ := hex
      rw [weigh_countFactor (hu.unmatched hl) hy hm] at hweigh
      have heq : y = x := eq_of_factorMatches (hu.single y hy) (ht.single x hx) hm
        (hl.callIndex_eq (hu.calls y hy) (ht.calls x hx) hm) hweigh.symm
      exact heq ▸ hy
    · push Not at hex
      rw [weigh_countFactor_of_none fun y hy => by simpa using hex y hy] at hweigh
      exact absurd hweigh (ht.nonzero x hx)
  exact SortedList.eq_of_sorted Term.strictWeak_factorLt ht.sorted hu.sorted fun x =>
    ⟨hsub ht hu h x, hsub hu ht (fun w hw => (h w hw).symm) x⟩

end Summed

/-! ## The terms of a body -/

/-- A term of a sum as a body has it. -/
structure Term.Written (t : Term) : Prop where
  noTuple : t.isTupleExp = false
  legible : t.legible = true
  typed : t.Typed

theorem written_ignoresCoefficient : IgnoresCoefficient Term.Written := by
  intro c t h
  refine ⟨(Term.setCoefficient_isTupleExp c t).trans h.noTuple, (t.legible_setCoefficient h.noTuple c).trans h.legible, ?_⟩
  have ht := h.typed
  cases t <;> exact ht

/-! ## Names replaced by tuple variables -/

/-- The map puts tuple variables in the place of names. -/
def SubMap.OnNames (m : SubMap) : Prop :=
  ∀ {t sub}, m.subExp t = some sub → (∃ k s, t = .symConst k s) ∧ ∃ l : Nat, sub = .withTerm (.tupleVar 1 l)

/-- The weight of what is put in the place of a term. -/
def SubMap.weight (m : SubMap) (w : Term → Int) (t : Term) : Int :=
  match m.subExp t with
  | some sub => weigh w sub.terms
  | none => w (t.substituteInside m)

section Substitute

variable {m : SubMap} {w : Term → Int} {l : List Term}

theorem SubMap.OnNames.subExp_eq_none (hm : m.OnNames) {t : Term} (ht : ∀ k s, t ≠ .symConst k s) :
    m.subExp t = none := by
  cases h : m.subExp t with
  | none => rfl
  | some sub =>
    obtain ⟨⟨k, s, rfl⟩, -⟩ := hm h
    exact absurd rfl (ht k s)

theorem SubMap.OnNames.weight_eq (hm : m.OnNames) {t : Term} (ht : ∀ k s, t ≠ .symConst k s) :
    m.weight w t = w (t.substituteInside m) := by
  unfold SubMap.weight
  rw [hm.subExp_eq_none ht]

theorem coefficient_substituteInside (t : Term) : (t.substituteInside m).coefficient = t.coefficient := by
  cases t <;> rfl

theorem isTupleExp_substituteInside (t : Term) : (t.substituteInside m).isTupleExp = t.isTupleExp := by
  cases t <;> rfl

theorem substituteInside_setCoefficient (c : Int) (t : Term) :
    (t.setCoefficient c).substituteInside m = (t.substituteInside m).setCoefficient c := by
  cases t <;> rfl

/-- What holds of what is put in holds of the result. -/
theorem forall_termsSubstitute (hm : m.OnNames) {Q : Term → Prop} (hQ : IgnoresCoefficient Q)
    (hvar : ∀ x : Nat, Q (.tupleVar 1 x)) {ts : List Term} (hn : NoTuples ts)
    (hts : ∀ t ∈ ts, Q (t.substituteInside m)) {acc : Exp} (hacc : ∀ t ∈ acc.terms, Q t) :
    ∀ t ∈ (termsSubstitute m ts acc).terms, Q t := by
  induction ts generalizing acc with
  | nil => exact hacc
  | cons t ts ih =>
    obtain ⟨hnt, hn⟩ := List.forall_mem_cons.1 hn
    obtain ⟨ht, hts⟩ := List.forall_mem_cons.1 hts
    simp only [termsSubstitute]
    refine ih hn hts ?_
    cases h : m.subExp t with
    | none =>
      dsimp only
      rw [terms_addTerm_noTuple ((isTupleExp_substituteInside t).trans hnt)]
      exact forall_addOne hQ ht hacc
    | some sub =>
      obtain ⟨-, x, rfl⟩ := hm h
      dsimp only
      rw [terms_addExp (readable_multiplyBy _ rfl)]
      refine forall_foldl_addOne hQ (fun u hu => ?_) hacc
      obtain rfl : u = (Term.tupleVar 1 x).multiplyBy t.coefficient := List.mem_singleton.1 hu
      exact hQ _ _ (hvar x)

/-- What is put in adds its weight. -/
theorem weigh_termsSubstitute (hm : m.OnNames) (hw : Respects (fun _ => True) w) {ts : List Term} (hn : NoTuples ts)
    (acc : Exp) : weigh w (termsSubstitute m ts acc).terms = weigh w acc.terms + weigh (m.weight w) ts := by
  have hP : IgnoresCoefficient (fun _ => True) := fun _ _ _ => trivial
  induction ts generalizing acc with
  | nil => exact (add_zero _).symm
  | cons t ts ih =>
    obtain ⟨hnt, hn⟩ := List.forall_mem_cons.1 hn
    simp only [termsSubstitute]
    rw [ih hn, weigh_cons, ← add_assoc, SubMap.weight]
    congr 1
    cases h : m.subExp t with
    | none =>
      dsimp only
      rw [terms_addTerm_noTuple ((isTupleExp_substituteInside t).trans hnt),
        weigh_addOne hw hP (fun _ _ => trivial) trivial, coefficient_substituteInside]
    | some sub =>
      obtain ⟨-, x, rfl⟩ := hm h
      dsimp only
      rw [terms_addExp (readable_multiplyBy _ rfl), weigh_foldl_addOne hw hP (fun _ _ => trivial) (fun _ _ => trivial),
        Exp.terms_multiplyBy, weigh_multiplyBy hw hP (fun _ _ => trivial)]

theorem noTuples_termsSubstitute (hm : m.OnNames) {ts : List Term} (hn : NoTuples ts) :
    NoTuples (termsSubstitute m ts (.mk .expression [])).terms :=
  forall_termsSubstitute hm (Q := fun t => t.isTupleExp = false) (fun c t h => (Term.setCoefficient_isTupleExp c t).trans h)
    (fun _ => rfl) hn (fun t ht => (isTupleExp_substituteInside t).trans (hn t ht)) (by simp)

theorem terms_substitute (hm : m.OnNames) {e : Exp} (hn : NoTuples e.terms) :
    (e.substitute m).terms = (termsSubstitute m e.terms (.mk .expression [])).terms.foldl addOne [] := by
  obtain ⟨k, ts⟩ := e
  exact terms_addExp_noTuples (e := .mk k []) (noTuples_termsSubstitute hm hn)

theorem expType_substitute (e : Exp) : (e.substitute m).expType = e.expType := by
  cases e
  rfl

/-- The weight of an expression after a substitution. -/
theorem weigh_substitute (hm : m.OnNames) (hw : Respects (fun _ => True) w) {e : Exp} (hn : NoTuples e.terms) :
    weigh w (e.substitute m).terms = weigh (m.weight w) e.terms := by
  rw [terms_substitute hm hn, weigh_foldl_addOne hw (fun _ _ _ => trivial) (fun _ _ => trivial) (fun _ _ => trivial),
    weigh_termsSubstitute hm hw hn, weigh_nil, zero_add, Exp.terms_mk, weigh_nil, zero_add]

section Told

/-- A tuple that stands alone stays alone. -/
theorem terms_substitute_tupleExp (hm : m.OnNames) {k : ExpType} {c : Int} (hc : c ≠ 0) (es : List Exp) :
    ((Exp.mk k [.tupleExp c es]).substitute m).terms = [(Term.tupleExp c es).substituteInside m] := by
  have hnone : m.subExp (.tupleExp c es) = none := hm.subExp_eq_none (by simp)
  have h0 : ((Term.tupleExp c es).substituteInside m).coefficient ≠ 0 := hc
  simp only [Exp.substitute, termsSubstitute, hnone]
  unfold Exp.addExp
  rw [terms_addTerm_empty h0]
  exact terms_addTerm_empty (k := .expression) h0

/-- What is told by its text after a substitution inside it makes an argument that is. -/
theorem told_substitute_of (hm : m.OnNames) {ts : List Term} (hl : Lone ts) (hleg : ∀ t ∈ ts, t.legible = true)
    (h : ∀ t ∈ ts, (t.substituteInside m).Told) : ((Exp.mk .expression ts).substitute m).Told := by
  rw [Exp.told_iff, expType_substitute]
  rcases hl with hn | ⟨c, es, rfl⟩
  · have hall : ∀ t ∈ (termsSubstitute m ts (.mk .expression [])).terms, t.isTupleExp = false ∧ t.Told := by
      refine forall_termsSubstitute hm (fun c t h => ⟨?_, h.2.setCoefficient h.1 c⟩)
        (fun x => ⟨rfl, rfl, trivial, trivial⟩) hn (fun t ht => ⟨?_, h t ht⟩) (by simp)
      · exact (Term.setCoefficient_isTupleExp c t).trans h.1
      · exact (isTupleExp_substituteInside t).trans (hn t ht)
    rw [terms_substitute hm (e := .mk .expression ts) hn]
    have hsum : ∀ t ∈ (termsSubstitute m ts (.mk .expression [])).terms.foldl addOne [], t.isTupleExp = false ∧ t.Told := by
      refine forall_foldl_addOne (fun c t h => ⟨?_, h.2.setCoefficient h.1 c⟩) hall (by simp)
      exact (Term.setCoefficient_isTupleExp c t).trans h.1
    exact ⟨rfl, .inl fun t ht => (hsum t ht).1, fun t ht => ⟨nonzero_foldl_addOne (by simp) t ht, (hsum t ht).2⟩⟩
  · have hone := hleg _ List.mem_cons_self
    simp only [Term.legible, Bool.and_eq_true, beq_iff_eq] at hone
    have hc : c ≠ 0 := by rw [hone.1]; exact one_ne_zero
    rw [terms_substitute_tupleExp hm hc]
    refine ⟨rfl, .inr ⟨c, _, rfl⟩, List.forall_mem_singleton.2 ⟨hc, h _ List.mem_cons_self⟩⟩

mutual
/-- With the substitution in its arguments a term is told by its text. -/
theorem Term.told_substituteInside (hm : m.OnNames) :
    ∀ {t : Term}, t.legible = true → t.Typed → (t.substituteInside m).Told
  | .tupleVar .., h, _ | .symConst .., h, _ | .constVal _, h, _ => ⟨h, trivial, trivial⟩
  | .tupleExp c es, h, ht => by
    simp only [Term.legible, Bool.and_eq_true] at h
    obtain ⟨hl, hty, hp⟩ := args_told_iff.2 (told_argsSubstitute hm h.2 ht)
    exact ⟨by simp only [Term.substituteInside, Term.legible, h.1, hl, Bool.and_self], hty, hp⟩
  | .ufCall c f as i, h, ht => by
    simp only [Term.legible, Bool.and_eq_true] at h
    exact told_ufCall.2 ⟨h.1, told_argsSubstitute hm h.2 ht⟩

theorem Exp.told_substitute (hm : m.OnNames) : ∀ {e : Exp}, e.legible = true → e.Typed → (e.substitute m).Told
  | .mk k ts, h, ht => by
    rw [ht.1]
    exact told_substitute_of hm ht.2.1 (termsLegible_iff.1 h) (told_termsSubstituteInside hm h ht.2.2)

theorem told_argsSubstitute (hm : m.OnNames) : ∀ {es : List Exp}, argsLegible es = true → argsTyped es →
    ∀ e ∈ argsSubstitute m es, e.Told
  | [], _, _ => by simp [argsSubstitute]
  | e :: es, h, ht => by
    simp only [argsLegible, Bool.and_eq_true] at h
    exact List.forall_mem_cons.2 ⟨Exp.told_substitute hm h.1 ht.1, told_argsSubstitute hm h.2 ht.2⟩

theorem told_termsSubstituteInside (hm : m.OnNames) : ∀ {ts : List Term}, termsLegible ts = true → termsTyped ts →
    ∀ t ∈ ts, (t.substituteInside m).Told
  | [], _, _ => by simp
  | t :: ts, h, ht => by
    simp only [termsLegible, Bool.and_eq_true] at h
    exact List.forall_mem_cons.2 ⟨Term.told_substituteInside hm h.1 ht.1, told_termsSubstituteInside hm h.2 ht.2⟩
end

mutual
theorem Term.substituteInside_plain (hm : m.OnNames) :
    ∀ {t : Term}, t.Typed → t.plain.substituteInside m = t.substituteInside m
  | .tupleVar .., _ | .symConst .., _ | .constVal _, _ => rfl
  | .tupleExp c es, ht => by
    simp only [Term.plain, Term.substituteInside, argsSubstitute_plain hm (show argsTyped es from ht)]
  | .ufCall c f as i, ht => by
    simp only [Term.plain, Term.substituteInside, argsSubstitute_plain hm (show argsTyped as from ht)]

/-- A substitution does not look at what the text does not tell. -/
theorem Exp.substitute_plain (hm : m.OnNames) : ∀ {e : Exp}, e.Typed → e.plain.substitute m = e.substitute m
  | .mk k [], ht => by
    rw [ht.1]
    have hnone : m.subExp (.constVal 0) = none := hm.subExp_eq_none fun _ _ => nofun
    simp only [Exp.plain, Exp.substitute, termsSubstitute, hnone]
    rfl
  | .mk k (t :: ts), ht => by
    rw [ht.1]
    exact congrArg (Exp.addExp (.mk .expression [])) (termsSubstitute_plain hm ht.2.2)

theorem argsSubstitute_plain (hm : m.OnNames) : ∀ {es : List Exp}, argsTyped es →
    argsSubstitute m (argsPlain es) = argsSubstitute m es
  | [], _ => rfl
  | e :: es, ht => by
    simp only [argsPlain, argsSubstitute, Exp.substitute_plain hm ht.1, argsSubstitute_plain hm ht.2]

theorem termsSubstitute_plain (hm : m.OnNames) : ∀ {ts : List Term} {a : Exp}, termsTyped ts →
    termsSubstitute m (termsPlain ts) a = termsSubstitute m ts a
  | [], _, _ => rfl
  | t :: ts, a, ht => by
    have hsub : m.subExp t.plain = m.subExp t := by
      cases t with
      | ufCall c f as i => rw [Term.plain, hm.subExp_eq_none (by simp), hm.subExp_eq_none (by simp)]
      | tupleExp c es => rw [Term.plain, hm.subExp_eq_none (by simp), hm.subExp_eq_none (by simp)]
      | _ => rfl
    simp only [termsPlain, termsSubstitute, hsub, coefficient_plain, Term.substituteInside_plain hm ht.1]
    exact termsSubstitute_plain hm ht.2
end

variable (hm : m.OnNames)
include hm

/-- Calls whose arguments print the same have the same arguments after a substitution. -/
theorem argsSubstitute_eq {c c' : Int} {f f' : String} {as as' : List Exp} {i i' : Option Nat}
    (ht : (Term.ufCall c f as i).Written) (hu : (Term.ufCall c' f' as' i').Written)
    (ha : argsToStream false as = argsToStream false as') : argsSubstitute m as = argsSubstitute m as' := by
  have hlt := ht.legible
  have hlu := hu.legible
  simp only [Term.legible, Bool.and_eq_true] at hlt hlu
  rw [← argsSubstitute_plain hm ht.typed, argsPlain_of_toString_eq hlt.2 hlu.2 ha, argsSubstitute_plain hm hu.typed]

/-- What is put in the place of terms that match has one weight. -/
theorem respects_weight (hw : Respects (fun _ => True) w) : Respects Term.Written (m.weight w) := by
  intro t u ht hu hmatch
  have htrue : ∀ {v : Term}, (∀ k s, v ≠ .symConst k s) → m.weight w v = w (v.substituteInside m) := hm.weight_eq
  cases t with
  | symConst c s =>
    cases u with
    | symConst c' s' =>
      obtain rfl : s = s' := by simpa [Term.factorMatches] using hmatch
      have hsub : m.subExp (.symConst c s) = m.subExp (.symConst c' s) :=
        m.subExp_setCoefficient c (.symConst c' s)
      unfold SubMap.weight
      rw [hsub]
      split
      · rfl
      · exact hw trivial trivial hmatch
    | _ => cases hmatch
  | ufCall c f as i =>
    cases u with
    | ufCall c' f' as' i' =>
      rw [htrue (by simp), htrue (by simp)]
      simp only [Term.factorMatches, Bool.and_eq_true, beq_iff_eq] at hmatch
      obtain ⟨⟨rfl, hi⟩, ha⟩ := hmatch
      have has : argsSubstitute m as = argsSubstitute m as' := argsSubstitute_eq hm ht hu ha
      refine hw trivial trivial ?_
      simp only [Term.substituteInside, Term.factorMatches, has, hi, beq_self_eq_true, Bool.and_self]
    | _ => cases hmatch
  | tupleVar c x =>
    cases u with
    | tupleVar c' x' =>
      rw [htrue (by simp), htrue (by simp)]
      exact hw trivial trivial hmatch
    | _ => cases hmatch
  | constVal c =>
    cases u with
    | constVal c' =>
      rw [htrue (by simp), htrue (by simp)]
      exact hw trivial trivial rfl
    | _ => cases hmatch
  | tupleExp c es => cases ht.noTuple

end Told

/-- A substitution leaves summed terms. -/
theorem summed_substitute (hm : m.OnNames) {e : Exp} (hw : ∀ t ∈ e.terms, t.Written)
    (hc : ∀ t ∈ e.terms, (t.substituteInside m).CallIn l) : Summed l (e.substitute m).terms := by
  have hn : NoTuples e.terms := fun t ht => (hw t ht).noTuple
  have hall : ∀ t ∈ (termsSubstitute m e.terms (.mk .expression [])).terms, t.Single ∧ t.CallIn l := by
    refine forall_termsSubstitute hm (fun c t h => ⟨h.1.setCoefficient c, h.2.setCoefficient c⟩)
      (fun x => ⟨⟨rfl, rfl, trivial⟩, fun h => by cases h⟩) hn (fun t ht => ⟨?_, hc t ht⟩) (by simp)
    have hs := hw t ht
    exact (Term.told_substituteInside hm hs.legible hs.typed).single ((isTupleExp_substituteInside t).trans hs.noTuple)
  rw [terms_substitute hm hn]
  exact summed_foldl_addOne (fun t ht => (hall t ht).1) fun t ht => (hall t ht).2

/-- Two expressions with one weight each after substitutions are the same after them. -/
theorem substitute_eq_of_weigh {m' : SubMap} (hl : SameIndex l) (hm : m.OnNames) (hm' : m'.OnNames) {e e' : Exp}
    (hk : e.expType = e'.expType) (hw : ∀ t ∈ e.terms, t.Written) (hw' : ∀ t ∈ e'.terms, t.Written)
    (hc : ∀ t ∈ e.terms, (t.substituteInside m).CallIn l) (hc' : ∀ t ∈ e'.terms, (t.substituteInside m').CallIn l)
    (h : ∀ w, Respects (fun _ => True) w → weigh (m.weight w) e.terms = weigh (m'.weight w) e'.terms) :
    e.substitute m = e'.substitute m' := by
  have hterms : (e.substitute m).terms = (e'.substitute m').terms := by
    refine (summed_substitute hm hw hc).eq_of_weigh hl (summed_substitute hm' hw' hc') fun w hres => ?_
    rw [weigh_substitute hm hres fun t ht => (hw t ht).noTuple,
      weigh_substitute hm' hres fun t ht => (hw' t ht).noTuple, h w hres]
  rw [← Exp.mk_expType_terms (e.substitute m), ← Exp.mk_expType_terms (e'.substitute m'), hterms, expType_substitute,
    expType_substitute, hk]

end Substitute

end IEGen
