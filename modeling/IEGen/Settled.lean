import IEGen.Copies
import IEGen.Nested
import IEGen.RoundTrip
import IEGen.Weights

/-!
# The normal form of a conjunction

What `cleanUp` leaves is in order, without duplicates or trivial constraints, and its equalities start with a positive
coefficient (`built_cleanUp`). Calls are collapsed from the outside in, and a call whose arguments have been collapsed is
not looked at again: of `f(f(f_inv(f_inv(x))))` it leaves `f(f_inv(x))`, which the next `cleanUp` collapses. One `cleanUp`
reaches the normal form where every call that stays as it is written stays when its arguments have come down
(`Term.CollapsesOnce`), and no sum has a call both without an index and with the index `0` (`AddedAlike`).
-/

namespace IEGen

open SortedList (Sorted)

/-! ## The normal form -/

/-- The arguments are `g( x )[0], g( x )[1], ...`, or `g( x )` alone. -/
def AppliedToInverse (g : String) (as : List Exp) : Prop :=
  as ≠ [] ∧ ∃ x : Exp, ∀ (k : Nat) (arg : Exp), as[k]? = some arg →
    ∃ kind c j, arg = .mk kind [.ufCall c g [x] j] ∧ j.getD 0 = k

/-- What a cleaned-up conjunction should be: constraints strictly in order, none of them trivial, equalities with a
positive leading coefficient, and no function applied to its own inverse. -/
structure Conjunction.NormalForm (env : Environment) (c : Conjunction) : Prop where
  sorted_equalities : Sorted Exp.lt c.equalities
  sorted_inequalities : Sorted Exp.lt c.inequalities
  nontrivial : ∀ e ∈ c.equalities ++ c.inequalities, e.terms ≠ [] ∧ ∀ t ∈ e.terms, t.coefficient ≠ 0
  positive : ∀ e ∈ c.equalities, ∀ t ∈ e.terms.head?, 0 < t.coefficient
  unnested : c.AllCalls fun f _ as => ¬ AppliedToInverse (env.funcInverse f) as

/-! ## What a constraint comes down to -/

/-- The argument of the call that the first argument starts with. -/
def savedTerms : List Exp → List Term
  | .mk _ (.ufCall _ _ (saved :: _) _ :: _) :: _ => saved.terms
  | _ => []

mutual
/-- The terms that a term comes down to when every call is asked twice: as it is written, and once more when its arguments
have come down. -/
def Term.reduced (env : Environment) : Term → List Term
  | .ufCall c f as i =>
    match canCollapseSelf (env.funcInverse f) as with
    | .ok true => (savedReduced env as).map (Term.multiplyBy c)
    | _ =>
      match canCollapseSelf (env.funcInverse f) (argsReduced env as) with
      | .ok true => (savedTerms (argsReduced env as)).map (Term.multiplyBy c)
      | _ => [.ufCall c f (argsReduced env as) i]
  | t => [t]

/-- The terms of the argument of a nested call, come down. -/
def savedReduced (env : Environment) : List Exp → List Term
  | .mk _ (.ufCall _ _ (saved :: _) _ :: _) :: _ => (saved.reduced env).terms
  | _ => []

/-- The sum of what the terms come down to. -/
def Exp.reduced (env : Environment) : Exp → Exp
  | .mk _ ts => .mk .expression ((termsReduced env ts).foldl addOne [])

def argsReduced (env : Environment) : List Exp → List Exp
  | [] => []
  | e :: es => e.reduced env :: argsReduced env es

def termsReduced (env : Environment) : List Term → List Term
  | [] => []
  | t :: ts => t.reduced env ++ termsReduced env ts
end

/-- No term is added to a sum in which a call stands that it matches and that has another index. -/
def AddedAlike : List Term → List Term → Prop
  | _, [] => True
  | acc, t :: ts => (t.coefficient ≠ 0 → ∀ u ∈ acc, u.factorMatches t = true → u.callIndex = t.callIndex) ∧
    AddedAlike (addOne acc t) ts

mutual
/-- Every call can be asked, and one that stays as it is written stays when its arguments have come down. -/
def Term.CollapsesOnce (env : Environment) : Term → Prop
  | .ufCall _ f as _ =>
    match canCollapseSelf (env.funcInverse f) as with
    | .error _ => False
    | .ok true => savedCollapsesOnce env as
    | .ok false => argsCollapseOnce env as ∧ canCollapseSelf (env.funcInverse f) (argsReduced env as) = .ok false
  | _ => True

/-- The argument that a call collapses to. -/
def savedCollapsesOnce (env : Environment) : List Exp → Prop
  | .mk _ (.ufCall _ _ (saved :: _) _ :: _) :: _ => saved.CollapsesOnce env
  | _ => False

def Exp.CollapsesOnce (env : Environment) : Exp → Prop
  | .mk _ ts => termsCollapseOnce env ts

/-- Arguments that collapse in one pass, to sums in which a call has one index. -/
def argsCollapseOnce (env : Environment) : List Exp → Prop
  | [] => True
  | e :: es => (e.CollapsesOnce env ∧ AddedAlike [] (termsReduced env e.terms)) ∧ argsCollapseOnce env es

def termsCollapseOnce (env : Environment) : List Term → Prop
  | [] => True
  | t :: ts => t.CollapsesOnce env ∧ termsCollapseOnce env ts
end

/-- A constraint that collapses in one pass. -/
def Exp.SettlesOnce (env : Environment) (e : Exp) : Prop := e.CollapsesOnce env ∧ AddedAlike [] (termsReduced env e.terms)

def Conjunction.SettlesOnce (env : Environment) (c : Conjunction) : Prop :=
  (∀ e ∈ c.equalities, e.normalizeForEquality.SettlesOnce env) ∧ ∀ e ∈ c.inequalities, e.SettlesOnce env

/-- A call that stays, with arguments that stay. -/
structure SettledCall (env : Environment) (f : String) (as : List Exp) : Prop where
  stays : canCollapseSelf (env.funcInverse f) as = .ok false
  unmatched : ∀ a ∈ as, Unmatched a.terms
  readable : argsReadable as = true

def Term.Settled (env : Environment) (t : Term) : Prop := t.AllCalls fun f _ as => SettledCall env f as

def Exp.Settled (env : Environment) (e : Exp) : Prop := e.AllCalls fun f _ as => SettledCall env f as

def argsSettled (env : Environment) (es : List Exp) : Prop := argsAllCalls (fun f _ as => SettledCall env f as) es

def termsSettled (env : Environment) (ts : List Term) : Prop := termsAllCalls (fun f _ as => SettledCall env f as) ts

section Settle

variable {env : Environment}

theorem Exp.settled_iff {e : Exp} : e.Settled env ↔ ∀ t ∈ e.terms, t.Settled env := Exp.allCalls_iff

theorem Exp.Settled.multiplyBy {e : Exp} (k : Int) (h : e.Settled env) : (e.multiplyBy k).Settled env := by
  rw [Exp.settled_iff] at h ⊢
  intro t ht
  obtain ⟨u, hu, rfl⟩ := List.mem_map.1 ht
  exact Term.AllCalls.setCoefficient _ (h u hu)

/-- Terms that are merged are terms that were there, up to the coefficient. -/
theorem Exp.Settled.addExp {e e' : Exp} (hr : e'.readable = true) (h : e.Settled env) (h' : e'.Settled env) :
    (e.addExp e').Settled env := by
  rw [Exp.settled_iff] at h h' ⊢
  rw [terms_addExp hr]
  exact forall_foldl_addOne (fun c t ht => Term.AllCalls.setCoefficient c ht) h' h

theorem Term.Settled.addTerm_empty {t : Term} (hr : t.readable = true) (h : t.Settled env) :
    ((Exp.mk .expression []).addTerm t).Settled env := by
  rw [Exp.settled_iff, terms_addTerm hr]
  exact forall_addOne (fun c t ht => Term.AllCalls.setCoefficient c ht) h (by simp)

theorem savedCollapsesOnce_shape {as : List Exp} (h : savedCollapsesOnce env as) :
    ∃ kind c g saved as' j ts rest, as = .mk kind (.ufCall c g (saved :: as') j :: ts) :: rest ∧ saved.CollapsesOnce env := by
  unfold savedCollapsesOnce at h
  split at h
  · exact ⟨_, _, _, _, _, _, _, _, rfl, h⟩
  · exact h.elim

/-- A term that is added is added as the sum of itself. -/
theorem foldl_addOne_addTerm {t : Term} (hr : t.readable = true) (acc : List Term) :
    ((Exp.mk .expression []).addTerm t).terms.foldl addOne acc = addOne acc t := by
  rw [terms_addTerm hr]
  by_cases h0 : t.coefficient = 0
  · simp only [addOne, h0, if_true, Exp.terms_mk, List.foldl_nil]
  · simp only [addOne, h0, if_false, Exp.terms_mk, insertTerm, List.foldl_cons, List.foldl_nil]

theorem SameIndex.addOne {ts : List Term} {t : Term} (h : SameIndex ts)
    (ht : ∀ u ∈ ts, u.factorMatches t = true → u.callIndex = t.callIndex) : SameIndex (addOne ts t) := by
  have hsource : ∀ s ∈ IEGen.addOne ts t, ∃ u ∈ t :: ts, ∃ c, s = u.setCoefficient c := by
    refine forall_addOne (fun c s hs => ?_) ⟨t, List.mem_cons_self, t.coefficient, (Term.setCoefficient_self t).symm⟩
      fun u hu => ⟨u, List.mem_cons_of_mem _ hu, u.coefficient, (Term.setCoefficient_self u).symm⟩
    obtain ⟨u, hu, -, rfl⟩ := hs
    exact ⟨u, hu, c, Term.setCoefficient_setCoefficient ..⟩
  intro s hs s' hs' hm
  obtain ⟨u, hu, c, rfl⟩ := hsource s hs
  obtain ⟨u', hu', c', rfl⟩ := hsource s' hs'
  rw [Term.factorMatches_setCoefficient_left, Term.factorMatches_setCoefficient_right] at hm
  rw [Term.callIndex_setCoefficient, Term.callIndex_setCoefficient]
  rcases List.mem_cons.1 hu with rfl | hin
  · rcases List.mem_cons.1 hu' with rfl | hin'
    · rfl
    · exact (ht u' hin' (Term.factorMatches_comm u u' ▸ hm)).symm
  · rcases List.mem_cons.1 hu' with rfl | hin'
    · exact ht u hin hm
    · exact h u hin u' hin' hm

/-- A call that is summed has one index. -/
theorem AddedAlike.sameIndex {us acc : List Term} (h : AddedAlike acc us) (hacc : SameIndex acc) :
    SameIndex (us.foldl addOne acc) := by
  induction us generalizing acc with
  | nil => exact hacc
  | cons u us ih =>
    refine ih h.2 ?_
    by_cases h0 : u.coefficient = 0
    · simpa only [addOne, h0, if_true] using hacc
    · exact hacc.addOne (h.1 h0)

/-- No two terms of the sum match. -/
theorem Exp.unmatched_reduced {e : Exp} (hr : e.readable = true)
    (hcol : e.collapseNestedInvertibleFunctions env = .ok (e.reduced env)) (h : AddedAlike [] (termsReduced env e.terms)) :
    Unmatched (e.reduced env).terms := by
  obtain ⟨hc, hr'⟩ := Exp.canonical_collapse hr hcol
  obtain ⟨-, hs, hz⟩ := Exp.canonical_iff.1 hc
  refine unmatched_of_sameIndex hs (fun t ht => Term.single_of_canonical (Exp.readable_iff.1 hr' t ht) (hz t ht).2) ?_
  obtain ⟨k, ts⟩ := e
  exact h.sameIndex (by simp [SameIndex])

mutual
theorem Term.settled_collapse : ∀ {t : Term}, t.readable = true → t.CollapsesOnce env →
    ∃ e, t.collapseNestedInvertibleFunctions env = .ok e ∧ e.Settled env ∧
      ∀ acc, e.terms.foldl addOne acc = (t.reduced env).foldl addOne acc
  | .tupleVar .., hr, _ | .symConst .., hr, _ | .constVal _, hr, _ =>
    ⟨_, rfl, Term.Settled.addTerm_empty hr trivial, foldl_addOne_addTerm hr⟩
  | .tupleExp .., hr, _ => by cases hr
  | .ufCall c f as i, hr, h => by
    simp only [Term.readable, Bool.and_eq_true] at hr
    unfold Term.CollapsesOnce at h
    cases hcan : canCollapseSelf (env.funcInverse f) as with
    | error _ =>
      rw [hcan] at h
      exact h.elim
    | ok b =>
      rw [hcan] at h
      cases b with
      | true =>
        obtain ⟨kind, c', g, saved, as', j, ts, rest, rfl, hs⟩ := savedCollapsesOnce_shape h
        obtain ⟨he, hset⟩ := Exp.settled_collapse (readable_saved hr.2) hs
        refine ⟨_, collapse_of_can hcan he, hset.multiplyBy c, fun acc => ?_⟩
        simp only [Term.reduced, hcan, savedReduced, Exp.terms_multiplyBy]
      | false =>
        obtain ⟨has, hstays⟩ := h
        obtain ⟨has', hset, hun⟩ := settled_argsCollapse hr.2 has
        obtain ⟨-, hr'⟩ := canonical_argsCollapse hr.2 has'
        have hrt : (Term.ufCall c f (argsReduced env as) i).readable = true := by
          simp only [Term.readable, hr.1, hr', Bool.and_self]
        refine ⟨_, collapse_of_not hcan has', Term.Settled.addTerm_empty hrt ⟨⟨hstays, hun, hr'⟩, hset⟩, fun acc => ?_⟩
        simp only [Term.reduced, hcan, hstays, List.foldl_cons, List.foldl_nil, foldl_addOne_addTerm hrt]

/-- An expression whose calls answer as they are written is collapsed to what it comes down to. -/
theorem Exp.settled_collapse : ∀ {e : Exp}, e.readable = true → e.CollapsesOnce env →
    e.collapseNestedInvertibleFunctions env = .ok (e.reduced env) ∧ (e.reduced env).Settled env
  | .mk _ _, hr, h => settled_termsCollapse hr h canonical_empty rfl trivial

theorem settled_argsCollapse : ∀ {es : List Exp}, argsReadable es = true → argsCollapseOnce env es →
    argsCollapse env es = .ok (argsReduced env es) ∧ argsSettled env (argsReduced env es) ∧
      ∀ a ∈ argsReduced env es, Unmatched a.terms
  | [], _, _ => ⟨rfl, trivial, by simp [argsReduced]⟩
  | e :: es, hr, h => by
    simp only [argsReadable, Bool.and_eq_true] at hr
    obtain ⟨he, hset⟩ := Exp.settled_collapse hr.1 h.1.1
    obtain ⟨hes, hsets, hun⟩ := settled_argsCollapse hr.2 h.2
    refine ⟨by simp only [argsCollapse, argsReduced, bind, Except.bind, he, hes], ⟨hset, hsets⟩, ?_⟩
    exact List.forall_mem_cons.2 ⟨e.unmatched_reduced hr.1 he h.1.2, hun⟩

theorem settled_termsCollapse : ∀ {ts : List Term} {acc : Exp}, termsReadable ts = true → termsCollapseOnce env ts →
    acc.Canonical → acc.readable = true → acc.Settled env →
    termsCollapse env ts acc = .ok (.mk acc.expType ((termsReduced env ts).foldl addOne acc.terms)) ∧
      (Exp.mk acc.expType ((termsReduced env ts).foldl addOne acc.terms)).Settled env
  | [], acc, _, _, _, _, hacc => by
    rw [termsReduced, List.foldl_nil, Exp.mk_expType_terms]
    exact ⟨rfl, hacc⟩
  | t :: ts, acc, hts, h, hc, hr, hacc => by
    simp only [termsReadable, Bool.and_eq_true] at hts
    obtain ⟨e, he, hset, hadd⟩ := Term.settled_collapse hts.1 h.1
    have hok := Term.termsOk_collapse hts.1 he
    obtain ⟨hc', hr'⟩ := canonical_addExp hc hr hok
    have hre : e.readable = true := Exp.readable_iff.2 (fun u hu => (hok u hu).1)
    have hrest := settled_termsCollapse hts.2 h.2 hc' hr' (hacc.addExp hre hset)
    rw [terms_addExp hre, hadd, Exp.expType_addExp, ← List.foldl_append] at hrest
    simp only [termsCollapse, bind, Except.bind, he, termsReduced]
    exact hrest
end

/-! ## What is settled stays -/

mutual
theorem Term.collapse_of_settled : ∀ {t : Term}, t.readable = true → t.Canonical → t.coefficient ≠ 0 →
    t.Settled env → t.collapseNestedInvertibleFunctions env = .ok (.ofTerm t)
  | .tupleVar .., hr, _, h0, _ | .symConst .., hr, _, h0, _ | .constVal _, hr, _, h0, _ =>
    congrArg Except.ok (addTerm_empty hr h0)
  | .tupleExp .., hr, _, _, _ => by cases hr
  | .ufCall c f as i, hr, hc, h0, h => by
    have hargs := hr
    simp only [Term.readable, Bool.and_eq_true] at hargs
    rw [collapse_of_not h.1.stays (argsCollapse_of_settled hargs.2 hc h.1.unmatched h.2), addTerm_empty hr h0]

/-- A canonical expression with settled calls, no two terms of which match, is not changed. -/
theorem Exp.collapse_of_settled : ∀ {e : Exp}, e.readable = true → e.Canonical → Unmatched e.terms →
    e.Settled env → e.collapseNestedInvertibleFunctions env = .ok e
  | .mk k ts, hr, hc, hu, h => by
    have hz := termsCanonical_iff.1 hc.2.2
    have hrt := Exp.readable_iff.1 hr
    have hadd : ts.foldl addOne [] = ts := foldl_addOne_eq (List.Perm.refl ts)
      (fun t ht => isTupleExp_of_readable (hrt t ht)) (fun t ht => (hz t ht).1) hu hc.2.1
    refine (termsCollapse_of_settled hr hz h).trans ?_
    rw [Exp.terms_mk, Exp.expType_mk, hadd, hc.1]

theorem argsCollapse_of_settled : ∀ {es : List Exp}, argsReadable es = true → argsCanonical es →
    (∀ a ∈ es, Unmatched a.terms) → argsSettled env es → argsCollapse env es = .ok es
  | [], _, _, _, _ => rfl
  | e :: es, hr, hc, hu, h => by
    simp only [argsReadable, Bool.and_eq_true] at hr
    obtain ⟨hue, hus⟩ := List.forall_mem_cons.1 hu
    have he := Exp.collapse_of_settled hr.1 hc.1 hue h.1
    have hes := argsCollapse_of_settled hr.2 hc.2 hus h.2
    simp only [argsCollapse, bind, Except.bind, he, hes]

/-- Settled terms are added up as they are. -/
theorem termsCollapse_of_settled : ∀ {ts : List Term} {acc : Exp}, termsReadable ts = true →
    (∀ t ∈ ts, t.coefficient ≠ 0 ∧ t.Canonical) → termsSettled env ts →
    termsCollapse env ts acc = .ok (.mk acc.expType (ts.foldl addOne acc.terms))
  | [], acc, _, _, _ => by rw [termsCollapse, List.foldl_nil, Exp.mk_expType_terms]
  | t :: ts, acc, hr, hz, h => by
    simp only [termsReadable, Bool.and_eq_true] at hr
    obtain ⟨ht, hts⟩ := List.forall_mem_cons.1 hz
    have he := Term.collapse_of_settled hr.1 ht.2 ht.1 h.1
    have hone : (acc.addExp (.ofTerm t)).terms = addOne acc.terms t := by
      apply terms_addExp
      simp only [Exp.ofTerm, Exp.readable, termsReadable, hr.1, Bool.and_self]
    have hrest : termsCollapse env ts (acc.addExp (.ofTerm t)) =
        .ok (.mk acc.expType (ts.foldl addOne (acc.addExp (.ofTerm t)).terms)) := termsCollapse_of_settled hr.2 hts h.2
    rw [hone] at hrest
    simp only [termsCollapse, bind, Except.bind, he]
    exact hrest
end

/-! ## The normal form is reached -/

theorem eqApart_self {x : Exp} (h : x.readable = true) : x.eqApart x = true := by
  have hlt : x.lt x = false := strictWeak_expLt.irrefl x
  rw [Exp.eqApart, Exp.eq, hlt, Bool.and_eq_true, List.all_eq_true]
  refine ⟨rfl, fun t ht => ?_⟩
  have htuple := isTupleExp_of_readable (Exp.readable_iff.1 h t ht)
  cases t with
  | tupleExp c es => cases htuple
  | _ => rfl

theorem nestedParam_call {kind : ExpType} {c : Int} {g : String} {x : Exp} {j : Option Nat} {k : Nat} (hj : j.getD 0 = k) :
    (Exp.mk kind [.ufCall c g [x] j]).nestedParam g k = .ok (some x) := by
  simp only [Exp.nestedParam, Exp.getTerm, Exp.terms_mk, hj, ne_eq, not_true, if_false]

theorem restCollapse_of_calls {g : String} {x : Exp} (hx : x.readable = true) : ∀ {as : List Exp} {n : Nat},
    (∀ (k : Nat) (arg : Exp), as[k]? = some arg → ∃ kind c j, arg = .mk kind [.ufCall c g [x] j] ∧ j.getD 0 = n + k) →
    restCollapse g x n as = .ok true
  | [], _, _ => rfl
  | a :: as, n, h => by
    obtain ⟨kind, c, j, rfl, hj⟩ := h 0 a rfl
    have hrest : restCollapse g x (n + 1) as = .ok true := by
      apply restCollapse_of_calls hx
      intro k arg hk
      obtain ⟨kind', c', j', harg, hj'⟩ := h (k + 1) arg hk
      exact ⟨kind', c', j', harg, by omega⟩
    rw [Nat.add_zero] at hj
    simp only [restCollapse, bind, Except.bind, nestedParam_call hj, eqApart_self hx, if_true, hrest]

/-- The test finds every call of a function with its own inverse. -/
theorem canCollapseSelf_of_applied {g : String} {as : List Exp} (hr : argsReadable as = true) (h : AppliedToInverse g as) :
    canCollapseSelf g as = .ok true := by
  obtain ⟨hne, x, hx⟩ := h
  obtain ⟨a, as, rfl⟩ := List.exists_cons_of_ne_nil hne
  obtain ⟨kind, c, j, rfl, hj⟩ := hx 0 a rfl
  have hrest : restCollapse g x 1 as = .ok true := by
    apply restCollapse_of_calls (readable_saved hr)
    intro k arg hk
    obtain ⟨kind', c', j', harg, hj'⟩ := hx (k + 1) arg hk
    exact ⟨kind', c', j', harg, by omega⟩
  simp only [canCollapseSelf, bind, Except.bind, nestedParam_call hj, hrest]

theorem SettledCall.not_applied {f : String} {as : List Exp} (h : SettledCall env f as) :
    ¬ AppliedToInverse (env.funcInverse f) as := by
  intro happ
  have hcan := canCollapseSelf_of_applied h.readable happ
  rw [h.stays] at hcan
  cases hcan

/-- A constraint that is built of settled calls is clean. -/
theorem BuiltExp.clean_of_settled {k : ExpType} {e : Exp} (hb : BuiltExp k e) (hu : Unmatched e.terms)
    (h : e.Settled env) : CleanExp env k e := by
  obtain ⟨k', ts⟩ := e
  obtain ⟨-, hs, hz⟩ := Exp.canonical_iff.1 hb.canonical
  have hcol : (Exp.mk .expression ts).collapseNestedInvertibleFunctions env = .ok (.mk .expression ts) :=
    Exp.collapse_of_settled hb.readable hb.canonical hu h
  exact ⟨hb.expType, ⟨Exp.readable_iff.1 hb.readable, hz, hs, hu⟩, hb.ne_nil, hcol⟩

/-- A constraint that collapses in one pass comes down to settled terms. -/
theorem Exp.SettlesOnce.settled {e : Exp} (h : e.SettlesOnce env) (hr : e.readable = true) :
    e.collapseNestedInvertibleFunctions env = .ok (e.reduced env) ∧ (e.reduced env).Settled env ∧
      Unmatched (e.reduced env).terms := by
  obtain ⟨hcol, hset⟩ := Exp.settled_collapse hr h.1
  exact ⟨hcol, hset, e.unmatched_reduced hr hcol h.2⟩

theorem settled_asEquality {e d : Exp} (hc : e.Canonical) (h : e.Settled env) (hu : Unmatched e.terms)
    (hd : d ∈ e.asEquality) : d.Settled env ∧ Unmatched d.terms := by
  have hz : ∀ t ∈ e.terms, t.coefficient ≠ 0 := fun t ht => ((Exp.canonical_iff.1 hc).2.2 t ht).1
  obtain ⟨k, -, hn⟩ := exists_scale hz
  rw [Exp.eq_of_mem_asEquality hd, hn]
  exact ⟨Exp.settled_iff.2 (Exp.settled_iff.1 (h.multiplyBy k)), unmatched_map_multiplyBy k hu⟩

theorem settled_asInequality {e d : Exp} (h : e.Settled env) (hu : Unmatched e.terms)
    (hd : d ∈ e.asInequality) : d.Settled env ∧ Unmatched d.terms := by
  rw [Exp.eq_of_mem_asInequality hd]
  rw [Exp.settled_iff] at h ⊢
  exact ⟨h, hu⟩

namespace Conjunction

/-- The calls of the constraints that are left are settled, and no two of their terms match. -/
theorem settled_cleanUp {c c' : Conjunction} (hr : c.readable = true) (h : c.SettlesOnce env) (hok : c.cleanUp env = .ok c') :
    (∀ d ∈ c'.equalities, d.Settled env ∧ Unmatched d.terms) ∧
      ∀ d ∈ c'.inequalities, d.Settled env ∧ Unmatched d.terms := by
  obtain ⟨heqs, hineqs⟩ := readable_iff.1 hr
  refine ⟨fun d hd => ?_, fun d hd => ?_⟩
  · obtain ⟨e, he, e', hcol, hde⟩ := exists_of_mem_cleanUp_equalities hok hd
    have hre := readable_normalizeForEquality (heqs e he)
    obtain ⟨hcol', hset, hu⟩ := (h.1 e he).settled hre
    rw [hcol'] at hcol
    cases hcol
    exact settled_asEquality (Exp.canonical_collapse hre hcol').1 hset hu hde
  · obtain ⟨e, he, e', hcol, hde⟩ := exists_of_mem_cleanUp_inequalities hok hd
    obtain ⟨hcol', hset, hu⟩ := (h.2 e he).settled (hineqs e he)
    rw [hcol'] at hcol
    cases hcol
    exact settled_asInequality hset hu hde

/-- What is built of settled calls is the normal form. -/
theorem Built.normalForm {c : Conjunction} (hb : c.Built) (heqs : ∀ e ∈ c.equalities, e.Settled env)
    (hineqs : ∀ e ∈ c.inequalities, e.Settled env) : c.NormalForm env := by
  have hbuilt : ∀ e ∈ c.equalities ++ c.inequalities, ∃ k, BuiltExp k e := by
    intro e he
    rcases List.mem_append.1 he with he | he
    · exact ⟨_, (hb.equalities e he).1⟩
    · exact ⟨_, hb.inequalities e he⟩
  have hnonzero : ∀ {e : Exp} {k : ExpType}, BuiltExp k e → ∀ t ∈ e.terms, t.coefficient ≠ 0 :=
    fun he t ht => ((Exp.canonical_iff.1 he.canonical).2.2 t ht).1
  refine ⟨hb.sorted_equalities, hb.sorted_inequalities, fun e he => ?_, fun e he => ?_, fun e he => ?_⟩
  · obtain ⟨k, hk⟩ := hbuilt e he
    exact ⟨hk.ne_nil, hnonzero hk⟩
  · obtain ⟨hk, hn⟩ := hb.equalities e he
    have hpos := head_pos_normalizeForEquality (hnonzero hk)
    rw [hn] at hpos
    exact hpos
  · have hset : e.Settled env := (List.mem_append.1 he).elim (heqs e) (hineqs e)
    exact hset.imp fun f _ as hcall => hcall.not_applied

/-- One `cleanUp` reaches the normal form, which the next leaves as it is. -/
theorem cleanUp_settles (env : Environment) (c : Conjunction) (hr : c.readable = true) (h : c.SettlesOnce env) :
    ∃ c', c.cleanUp env = .ok c' ∧ c'.cleanUp env = .ok c' ∧ c'.NormalForm env := by
  obtain ⟨heqs, hineqs⟩ := readable_iff.1 hr
  obtain ⟨c', hok⟩ := cleanUp_returns
    (fun e he => ⟨_, ((h.1 e he).settled (readable_normalizeForEquality (heqs e he))).1⟩)
    (fun e he => ⟨_, ((h.2 e he).settled (hineqs e he)).1⟩)
  obtain ⟨hset, hset'⟩ := settled_cleanUp hr h hok
  have hb := built_cleanUp hr hok
  have hclean : c'.Clean env :=
    ⟨fun e he => ⟨(hb.equalities e he).1.clean_of_settled (hset e he).2 (hset e he).1, (hb.equalities e he).2⟩,
      fun e he => (hb.inequalities e he).clean_of_settled (hset' e he).2 (hset' e he).1,
      hb.sorted_equalities, hb.sorted_inequalities⟩
  exact ⟨c', hok, cleanUp_conjunction_of_clean hclean,
    hb.normalForm (fun e he => (hset e he).1) (fun e he => (hset' e he).1)⟩

end Conjunction

end Settle

/-- `[x] : f( f( f_inv( f_inv( x ) ) ) ) = 0` -/
def chainConj : Conjunction := ⟨[.mk .equality [.ufCall 1 "f" [.ofTerm (.ufCall 1 "f" [.ofTerm (.ufCall 1 "f_inv"
  [.ofTerm (.ufCall 1 "f_inv" [.ofTerm (.tupleVar 1 0)] none)] none)] none)] none]], [], ⟨[⟨false, 0, "x"⟩]⟩, 0⟩

/-- What is left of the chain is collapsed by the next `cleanUp`. -/
theorem Conjunction.cleanUp_unsettled : chainConj.readable = true ∧ ∃ c', chainConj.cleanUp invertibleF = .ok c' ∧
    (∃ c'', c'.cleanUp invertibleF = .ok c'' ∧ c'' ≠ c') ∧ ¬ c'.NormalForm invertibleF := by
  refine ⟨by decide, ⟨[.mk .equality [.ufCall 1 "f" [.ofTerm (.ufCall 1 "f_inv" [.ofTerm (.tupleVar 1 0)] none)] none]], [],
    chainConj.tupleDecl, 0⟩, rfl, ⟨⟨[.mk .equality [.tupleVar 1 0]], [], chainConj.tupleDecl, 0⟩, rfl, nofun⟩, fun h => ?_⟩
  have hcall := (h.unnested _ List.mem_cons_self).1.1
  refine hcall ⟨by simp, .ofTerm (.tupleVar 1 0), fun k arg hk => ?_⟩
  cases k with
  | zero =>
    cases hk
    exact ⟨_, _, none, rfl, rfl⟩
  | succ k => cases hk

/-- `[x] : f( f( f_inv( x ) ) ) + f_inv( x ) = 0` -/
theorem Conjunction.cleanUp_settles_call : ∃ c', (Conjunction.mk [.mk .equality [.ufCall 1 "f" [.ofTerm (.ufCall 1 "f"
      [.ofTerm (.ufCall 1 "f_inv" [.ofTerm (.tupleVar 1 0)] none)] none)] none, .ufCall 1 "f_inv" [.ofTerm (.tupleVar 1 0)] none]] []
      ⟨[⟨false, 0, "x"⟩]⟩ 0).cleanUp invertibleF = .ok c' ∧ c'.cleanUp invertibleF = .ok c' ∧ c'.NormalForm invertibleF := by
  have hone : ∀ t : Term, AddedAlike [] [t] := fun t => ⟨fun _ u hu => (List.not_mem_nil hu).elim, trivial⟩
  refine Conjunction.cleanUp_settles _ _ (by decide) ⟨fun e he => ?_, fun e he => by cases he⟩
  obtain rfl := List.mem_singleton.1 he
  refine ⟨⟨⟨⟨⟨⟨⟨trivial, trivial⟩, trivial⟩, hone _⟩, trivial⟩, rfl⟩, ⟨⟨⟨⟨trivial, trivial⟩, hone _⟩, trivial⟩, rfl⟩, trivial⟩,
    (hone _).1, fun _ u hu hm => ?_, trivial⟩
  obtain rfl := List.mem_singleton.1 hu
  cases hm

end IEGen
