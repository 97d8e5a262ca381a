import IEGen.Inverses
import IEGen.Solve
import IEGen.Values

/-!
# The value of nested inverse calls

A call of a function whose arguments are the components of a call of its inverse has the value of the argument of that
call (`callVal_of_collapses`), in every interpretation that agrees with the recorded inverses, provided that the nested
calls have coefficient one, the call takes as many arguments as its function, it stands for all its components, and what
replaces it has no more. `collapseNestedInvertibleFunctions` looks at none of this. Where it holds of every call that
collapses, and the terms that are added up are merged right, collapsing keeps the value (`CollapsesRight`).
-/

namespace IEGen

open Outcome (bind_eq_ok)
open SortedList (Tied)

/-! ## The calls that collapse -/

/-- The arguments are calls of the inverse `g`, in the order of their indices, with arguments equal to `saved`. -/
def NestedCalls (g : String) (saved : Exp) (as : List Exp) : Prop :=
  ∀ (k : Nat) (arg : Exp), as[k]? = some arg → ∃ kind c j nested, arg = .mk kind [.ufCall c g [nested] j] ∧ j.getD 0 = k ∧
    (nested = saved ∨ 0 < k ∧ nested.eqApart saved = true)

theorem nestedParam_eq_some {g : String} {k : Nat} {arg nested : Exp} (h : arg.nestedParam g k = .ok (some nested)) :
    ∃ kind c j, arg = .mk kind [.ufCall c g [nested] j] ∧ j.getD 0 = k := by
  obtain ⟨kind, ts⟩ := arg
  rw [Exp.nestedParam] at h
  split at h
  · next c f args j hterm =>
    split_ifs at h with hf hk
    · cases h
    · cases h
    · split at h
      · cases h
        have hts : ts = [.ufCall c f [nested] j] := by
          rcases ts with _ | ⟨t, _ | ⟨u, us⟩⟩
          · cases hterm
          · rw [Exp.getTerm, Exp.terms_mk] at hterm
            rw [Option.some.inj hterm]
          · cases hterm
        rw [not_not] at hf hk
        exact ⟨kind, c, j, by rw [hts, hf], hk.symm⟩
      · cases h
  · cases h

theorem restCollapse_eq_true {g : String} {saved : Exp} : ∀ {as : List Exp} {n : Nat},
    restCollapse g saved n as = .ok true → ∀ (k : Nat) (arg : Exp), as[k]? = some arg →
      ∃ kind c j nested, arg = .mk kind [.ufCall c g [nested] j] ∧ j.getD 0 = n + k ∧ nested.eqApart saved = true
  | [], _, _, k, arg, hk => by cases hk
  | a :: as, n, h, k, arg, hk => by
    rw [restCollapse, bind_eq_ok] at h
    obtain ⟨r, hr, h⟩ := h
    cases r with
    | none => cases h
    | some nested =>
      dsimp only at h
      split_ifs at h with heq
      swap
      · cases h
      cases k with
      | zero =>
        cases hk
        obtain ⟨kind, c, j, ha, hj⟩ := nestedParam_eq_some hr
        exact ⟨kind, c, j, nested, ha, hj, heq⟩
      | succ k =>
        obtain ⟨kind, c, j, nested', ha, hj, heq'⟩ := restCollapse_eq_true h k arg hk
        exact ⟨kind, c, j, nested', ha, by omega, heq'⟩

/-- What the arguments of a call that collapses are. -/
theorem canCollapseSelf_eq_true {g : String} {as : List Exp} (h : canCollapseSelf g as = .ok true) :
    as = [] ∨ ∃ saved, savedArg as = some saved ∧ NestedCalls g saved as := by
  cases as with
  | nil => exact .inl rfl
  | cons a as =>
    rw [canCollapseSelf, bind_eq_ok] at h
    obtain ⟨r, hr, h⟩ := h
    cases r with
    | none => cases h
    | some saved =>
      obtain ⟨kind, c, j, rfl, hj⟩ := nestedParam_eq_some hr
      refine .inr ⟨saved, rfl, fun k arg hk => ?_⟩
      cases k with
      | zero =>
        cases hk
        exact ⟨kind, c, j, saved, rfl, hj, .inl rfl⟩
      | succ k =>
        obtain ⟨kind', c', j', nested, ha, hj', heq⟩ := restCollapse_eq_true h k arg hk
        exact ⟨kind', c', j', nested, ha, by omega, .inr ⟨by omega, heq⟩⟩

/-! ## Their value -/

/-- The call with index `i` may be replaced by `saved`. -/
structure ReplacedRight (dom cod : String → Nat) (f : String) (as : List Exp) (i : Option Nat) (saved : Exp) : Prop where
  coefficients : ∀ arg ∈ as, ∀ t ∈ arg.terms, t.coefficient = 1
  whole : i = none ∨ (i = some 0 ∧ cod f = 1)
  arguments : (as.length ≠ 1 ∧ as.length = dom f ∧
      ∀ kind c g nested j, Exp.mk kind [.ufCall c g [nested] j] ∈ as → nested.comparable = true) ∨
    (as.length = 1 ∧ (dom f = 1 ∨ ∃ kind c g nested, as = [.mk kind [.ufCall c g [nested] none]]))
  fits : saved.Within cod (cod f)

theorem val_of_eqApart {I : Interp} {τ : Nat → Int} {a b : Exp} (ha : a.comparable = true) (hb : b.comparable = true)
    (h : a.eqApart b = true) : a.val I τ = b.val I τ := by
  rw [Exp.eqApart, Bool.and_eq_true, Exp.eq, Bool.not_eq_true', Bool.or_eq_false_iff] at h
  exact Exp.val_of_tied ha hb h.1

section Value

variable {I : Interp} {τ : Nat → Int} {f g : String} {as : List Exp} {i : Option Nat} {saved : Exp}

/-- The value of one of the nested calls, at its first component. -/
theorem val_nested {kind : ExpType} {c : Int} {nested : Exp} {j : Option Nat} (hc : c = 1) (hj : j = none → 0 < I.cod g) :
    (Exp.mk kind [.ufCall c g [nested] j]).val I τ 0 = I.indexVal g [nested.val I τ] (j.getD 0) := by
  subst hc
  cases j with
  | none => simp [Exp.val, Term.val, argsVal, Interp.callVal, Interp.indexVal, hj rfl]
  | some m => simp [Exp.val, Term.val, argsVal]

/-- The call has the value of what replaces it. -/
theorem callVal_of_nestedCalls (hgf : I.Inverts g f) (hn : NestedCalls g saved as) (hne : as ≠ [])
    (h : ReplacedRight I.dom I.cod f as i saved) : I.callVal f (argsVal I τ as) = saved.val I τ := by
  have hfits : ∀ k, I.dom g ≤ k → saved.val I τ k = 0 := fun k hk =>
    Exp.val_of_within h.fits (by rw [hgf.cod]; exact hk)
  have hone : ∀ {kind c m nested j}, Exp.mk kind [.ufCall c m [nested] j] ∈ as → c = 1 :=
    fun hmem => h.coefficients _ hmem _ List.mem_cons_self
  apply hgf.callVal_of_argTuple hfits
  rcases h.arguments with ⟨hlen, hdom, hcomp⟩ | ⟨hlen, hindex⟩
  · refine hgf.argTuple_components (by rw [length_argsVal]; exact hlen) (by rw [length_argsVal]; exact hdom) fun k w hw => ?_
    rw [argsVal_eq_map, List.getElem?_map, Option.map_eq_some_iff] at hw
    obtain ⟨arg, hk, rfl⟩ := hw
    obtain ⟨kind, c, j, nested, rfl, hj, hval⟩ := hn k arg hk
    have hmem := List.mem_of_getElem? hk
    have hpos : 0 < I.cod g := by
      rw [← hgf.dom, ← hdom]
      exact List.length_pos_of_ne_nil hne
    rw [val_nested (hone hmem) (fun _ => hpos), hj]
    rcases hval with rfl | ⟨-, heq⟩
    · rfl
    · -- the argument that is saved is that of the first call
      have hsaved : saved.comparable = true := by
        obtain ⟨a, as', rfl⟩ := List.exists_cons_of_ne_nil hne
        obtain ⟨kind', c', j', nested', rfl, -, hval'⟩ := hn 0 a rfl
        rcases hval' with rfl | ⟨hlt, -⟩
        · exact hcomp _ _ _ _ _ List.mem_cons_self
        · omega
      rw [val_of_eqApart (hcomp _ _ _ _ _ hmem) hsaved heq]
  · obtain ⟨arg, rfl⟩ := List.length_eq_one_iff.1 hlen
    obtain ⟨kind, c, j, nested, rfl, hj, hval⟩ := hn 0 arg rfl
    obtain rfl := hone List.mem_cons_self
    obtain rfl : nested = saved := by
      rcases hval with h | ⟨hlt, -⟩
      · exact h
      · omega
    have hcall : (Exp.mk kind [.ufCall 1 g [nested] j]).val I τ = I.callVal g [nested.val I τ] := by
      funext k
      have hwhole : j = none ∨ (j = some 0 ∧ I.cod g = 1) := by
        rcases hindex with hdom | ⟨kind', c', g', nested', heq⟩
        · cases j with
          | none => exact .inl rfl
          | some m => exact .inr ⟨congrArg some hj, by rw [← hgf.dom, hdom]⟩
        · cases heq
          exact .inl rfl
      rw [Exp.val_eq, Exp.terms_mk, termsVal_cons, termsVal_nil, Term.val_ufCall_of_whole hwhole, one_mul, add_zero,
        argsVal, argsVal]
    rw [argsVal, argsVal, hcall]
    exact hgf.argTuple_callVal (Interp.length_argTuple I g _)

end Value

/-! ## Expressions -/

mutual
/-- Every call that collapses may be replaced, no call fails, and the terms that are added up are merged right. -/
def Term.CollapsesRight (env : Environment) (dom cod : String → Nat) : Term → Prop
  | .ufCall _ f as i =>
    match canCollapseSelf (env.funcInverse f) as with
    | .error _ => False
    | .ok true => nestedCollapsesRight env dom cod f as i
    | .ok false => argsCollapseRight env dom cod as
  | _ => True

/-- A call that collapses, by its arguments. -/
def nestedCollapsesRight (env : Environment) (dom cod : String → Nat) (f : String) : List Exp → Option Nat → Prop
  | .mk kind (.ufCall c g (saved :: as') j :: ts) :: as, i =>
    env.funcInverse f ≠ "" ∧ ReplacedRight dom cod f (.mk kind (.ufCall c g (saved :: as') j :: ts) :: as) i saved ∧
      saved.CollapsesRight env dom cod
  | _, _ => False

def Exp.CollapsesRight (env : Environment) (dom cod : String → Nat) : Exp → Prop
  | .mk _ ts => termsCollapseRight env dom cod ts (.mk .expression [])

def argsCollapseRight (env : Environment) (dom cod : String → Nat) : List Exp → Prop
  | [] => True
  | e :: es => e.CollapsesRight env dom cod ∧ argsCollapseRight env dom cod es

/-- The terms collapse right and, one after the other, are merged right with what has been added up so far. -/
def termsCollapseRight (env : Environment) (dom cod : String → Nat) : List Term → Exp → Prop
  | [], _ => True
  | t :: ts, acc => t.CollapsesRight env dom cod ∧ ∀ e, t.collapseNestedInvertibleFunctions env = .ok e →
      (∀ p ∈ termsMerged 1 e.terms acc.terms, MergesRight cod p) ∧ termsCollapseRight env dom cod ts (acc.addExp e)
end

section Collapse

variable {env : Environment} {dom cod : String → Nat}

theorem shape_of_nestedCollapsesRight {f : String} {as : List Exp} {i : Option Nat}
    (h : nestedCollapsesRight env dom cod f as i) : ∃ kind c g saved as' j ts rest,
      as = .mk kind (.ufCall c g (saved :: as') j :: ts) :: rest ∧ env.funcInverse f ≠ "" ∧
        ReplacedRight dom cod f as i saved ∧ saved.CollapsesRight env dom cod := by
  unfold nestedCollapsesRight at h
  split at h
  · exact ⟨_, _, _, _, _, _, _, _, rfl, h⟩
  · exact h.elim

/-- The value of a call that collapses. -/
theorem val_of_replaced {I : Interp} (hI : I.Consistent env) {τ : Nat → Int} {c : Int} {f : String} {as : List Exp}
    {i : Option Nat} {saved : Exp} (hcan : canCollapseSelf (env.funcInverse f) as = .ok true)
    (hsaved : savedArg as = some saved) (hf : env.funcInverse f ≠ "") (h : ReplacedRight I.dom I.cod f as i saved) (k : Nat) :
    (Term.ufCall c f as i).val I τ k = c * saved.val I τ k := by
  rw [Term.val_ufCall_of_whole h.whole]
  rcases canCollapseSelf_eq_true hcan with rfl | ⟨saved', hs, hn⟩
  · cases hsaved
  · rw [hsaved] at hs
    cases hs
    have hne : as ≠ [] := by
      rintro rfl
      cases hsaved
    rw [callVal_of_nestedCalls (hI f hf).2 hn hne h]

/-- The call stays, with its arguments collapsed, or becomes the argument of the nested call. -/
theorem collapse_of_not {c : Int} {f : String} {as as' : List Exp} {i : Option Nat}
    (hcan : canCollapseSelf (env.funcInverse f) as = .ok false) (has : argsCollapse env as = .ok as') :
    (Term.ufCall c f as i).collapseNestedInvertibleFunctions env = .ok ((Exp.mk .expression []).addTerm (.ufCall c f as' i)) := by
  unfold Term.collapseNestedInvertibleFunctions
  rw [hcan]
  simp only [bind, Except.bind, Bool.false_eq_true, if_false, has]

theorem collapse_of_can {c c' : Int} {f g : String} {kind : ExpType} {saved e : Exp} {as' rest : List Exp}
    {i j : Option Nat} {ts : List Term}
    (hcan : canCollapseSelf (env.funcInverse f) (.mk kind (.ufCall c' g (saved :: as') j :: ts) :: rest) = .ok true)
    (he : saved.collapseNestedInvertibleFunctions env = .ok e) :
    (Term.ufCall c f (.mk kind (.ufCall c' g (saved :: as') j :: ts) :: rest) i).collapseNestedInvertibleFunctions env =
      .ok (e.multiplyBy c) := by
  unfold Term.collapseNestedInvertibleFunctions
  rw [hcan]
  simp only [bind, Except.bind, if_true, he]

theorem val_addTerm_empty {I : Interp} {τ : Nat → Int} (t : Term) :
    ((Exp.mk .expression []).addTerm t).val I τ = t.val I τ := by
  funext k
  by_cases h0 : t.coefficient = 0
  · rw [Exp.val_eq, Exp.addTerm, Exp.terms_mk, Exp.terms_mk, termsAddInto, termsAddInto, mul_one, if_pos h0, termsVal_nil,
      Term.val_of_coefficient_zero h0]
  · rw [Exp.val_eq, terms_addTerm_empty h0, termsVal_cons, termsVal_nil, add_zero]

mutual
theorem Term.collapse_keeps : ∀ {t : Term}, t.CollapsesRight env dom cod →
    ∃ e, t.collapseNestedInvertibleFunctions env = .ok e ∧
      ∀ I : Interp, I.dom = dom → I.cod = cod → I.Consistent env → ∀ τ, e.val I τ = t.val I τ
  | .tupleVar c l, _ => ⟨_, rfl, fun _ _ _ _ _ => val_addTerm_empty _⟩
  | .symConst c s, _ => ⟨_, rfl, fun _ _ _ _ _ => val_addTerm_empty _⟩
  | .constVal c, _ => ⟨_, rfl, fun _ _ _ _ _ => val_addTerm_empty _⟩
  | .tupleExp c es, _ => ⟨_, rfl, fun _ _ _ _ _ => val_addTerm_empty _⟩
  | .ufCall c f as i, h => by
    unfold Term.CollapsesRight at h
    cases hcan : canCollapseSelf (env.funcInverse f) as with
    | error _ =>
      rw [hcan] at h
      exact h.elim
    | ok b =>
      rw [hcan] at h
      cases b with
      | true =>
        obtain ⟨kind, c', g, saved, as', j, ts, rest, rfl, hf, hr, hs⟩ := shape_of_nestedCollapsesRight h
        obtain ⟨e, he, hv⟩ := Exp.collapse_keeps hs
        refine ⟨e.multiplyBy c, collapse_of_can hcan he, fun I hdom hcod hI τ => ?_⟩
        funext k
        subst hdom hcod
        rw [Exp.val_multiplyBy, hv I rfl rfl hI τ, val_of_replaced hI hcan rfl hf hr, mul_comm]
      | false =>
        obtain ⟨as', has, hv⟩ := argsCollapse_keeps h
        refine ⟨_, collapse_of_not hcan has, fun I hdom hcod hI τ => ?_⟩
        rw [val_addTerm_empty]
        cases i <;> simp only [Term.val, hv I hdom hcod hI τ]

theorem Exp.collapse_keeps : ∀ {e : Exp}, e.CollapsesRight env dom cod →
    ∃ e', e.collapseNestedInvertibleFunctions env = .ok e' ∧
      ∀ I : Interp, I.dom = dom → I.cod = cod → I.Consistent env → ∀ τ, e'.val I τ = e.val I τ
  | .mk k ts, h => by
    obtain ⟨e', he', hv⟩ := termsCollapse_keeps h
    refine ⟨e', he', fun I hdom hcod hI τ => ?_⟩
    funext j
    rw [hv I hdom hcod hI τ, Exp.val_eq (.mk _ []), Exp.terms_mk, termsVal_nil, zero_add]
    rfl

theorem argsCollapse_keeps : ∀ {es : List Exp}, argsCollapseRight env dom cod es →
    ∃ es', argsCollapse env es = .ok es' ∧
      ∀ I : Interp, I.dom = dom → I.cod = cod → I.Consistent env → ∀ τ, argsVal I τ es' = argsVal I τ es
  | [], _ => ⟨[], rfl, fun _ _ _ _ _ => rfl⟩
  | e :: es, h => by
    obtain ⟨e', he', hv⟩ := Exp.collapse_keeps h.1
    obtain ⟨es', hes', hvs⟩ := argsCollapse_keeps h.2
    refine ⟨e' :: es', by simp only [argsCollapse, bind, Except.bind, he', hes'], fun I hdom hcod hI τ => ?_⟩
    rw [argsVal, argsVal, hv I hdom hcod hI τ, hvs I hdom hcod hI τ]

theorem termsCollapse_keeps : ∀ {ts : List Term} {acc : Exp}, termsCollapseRight env dom cod ts acc →
    ∃ e', termsCollapse env ts acc = .ok e' ∧ ∀ I : Interp, I.dom = dom → I.cod = cod → I.Consistent env →
      ∀ τ k, e'.val I τ k = acc.val I τ k + termsVal I τ ts k
  | [], acc, _ => ⟨acc, rfl, fun _ _ _ _ _ _ => (add_zero _).symm⟩
  | t :: ts, acc, h => by
    obtain ⟨e, he, hv⟩ := Term.collapse_keeps h.1
    obtain ⟨hmerge, hrest⟩ := h.2 e he
    obtain ⟨e', he', hvs⟩ := termsCollapse_keeps hrest
    refine ⟨e', by simp only [termsCollapse, bind, Except.bind, he, he'], fun I hdom hcod hI τ k => ?_⟩
    subst hdom hcod
    rw [hvs I rfl rfl hI τ k, Exp.val_addExp_of_merged hmerge, hv I rfl rfl hI τ, termsVal_cons, add_assoc]
end

end Collapse

namespace Conjunction

/-- All calls that collapse while the conjunction is cleaned up collapse right. -/
def CollapsesRight (env : Environment) (dom cod : String → Nat) (c : Conjunction) : Prop :=
  (∀ e ∈ c.equalities, e.normalizeForEquality.CollapsesRight env dom cod) ∧
    ∀ e ∈ c.inequalities, e.CollapsesRight env dom cod

/-- Cleaning up keeps what holds where the calls that collapse collapse right. -/
theorem holds_cleanUp {env : Environment} {c c' : Conjunction} (hr : c.readable = true) (h : c.cleanUp env = .ok c')
    {I : Interp} (hI : I.Consistent env) (heq : ∀ e ∈ c.equalities, e.normalizeForEquality.CollapsesRight env I.dom I.cod)
    (hineq : ∀ e ∈ c.inequalities, e.CollapsesRight env I.dom I.cod) {τ : Nat → Int} : c'.Holds I τ ↔ c.Holds I τ := by
  obtain ⟨hreqs, hrineqs⟩ := readable_iff.1 hr
  obtain ⟨eqs, ineqs, h₁, h₂, hfold⟩ := cleanUp_eq_foldl h
  have hval : ∀ {e d : Exp}, e.CollapsesRight env I.dom I.cod → e.collapseNestedInvertibleFunctions env = .ok d →
      d.val I τ = e.val I τ := by
    intro e d he hd
    obtain ⟨e', he', hv⟩ := Exp.collapse_keeps he
    obtain rfl := Except.ok.inj (he'.symm.trans hd)
    exact hv I rfl rfl hI τ
  have hreads : (∀ d ∈ eqs, d.readable = true) ∧ ∀ d ∈ ineqs, d.readable = true := by
    refine ⟨fun d hd => ?_, fun d hd => ?_⟩
    · obtain ⟨e, he, hed⟩ := Outcome.exists_of_mem_forall₂ h₁ hd
      exact (Exp.canonical_collapse (readable_normalizeForEquality (hreqs e he)) hed).2
    · obtain ⟨e, he, hed⟩ := Outcome.exists_of_mem_forall₂ h₂ hd
      exact (Exp.canonical_collapse (hrineqs e he) hed).2
  rw [hfold, holds_foldl (fun e he => hreads.1 e (List.mem_filter.1 he).1)
    (fun e he => hreads.2 e (List.mem_filter.1 he).1), holds_filter fun e hz k => val_of_equalsZero hz k,
    holds_filter fun e hz k => (val_of_equalsZero hz k).ge,
    Outcome.forall_iff_of_forall₂ (p := fun e : Exp => e.HoldsEq I τ) h₁ fun e he d hd => ?_,
    Outcome.forall_iff_of_forall₂ (p := fun e : Exp => e.HoldsGe I τ) h₂ fun e he d hd => ?_]
  · rfl
  · simp only [Exp.HoldsGe, hval (hineq e he) hd]
  · rw [← holdsEq_normalizeForEquality (e := e)]
    simp only [Exp.HoldsEq, hval (heq e he) hd]

end Conjunction

/-- Collapsing nested inverse calls returns, and keeps the value in every interpretation that agrees with the recorded
inverses. -/
theorem Exp.collapse_denotes (env : Environment) (dom cod : String → Nat) (e : Exp) (h : e.CollapsesRight env dom cod) :
    ∃ e', e.collapseNestedInvertibleFunctions env = .ok e' ∧
      ∀ I : Interp, I.dom = dom → I.cod = cod → I.Consistent env → ∀ τ, e'.val I τ = e.val I τ :=
  Exp.collapse_keeps h

/-- `f( 2 * f_inv( x ) )` collapses to `x`. -/
theorem Exp.collapse_wrong : ∃ e', (Exp.ofTerm (.ufCall 1 "f" [.ofTerm (.ufCall 2 "f_inv" [.ofTerm (.symConst 1 "x")] none)]
      none)).collapseNestedInvertibleFunctions invertibleF = .ok e' ∧ ∃ I : Interp, I.Consistent invertibleF ∧ ∃ τ,
    e'.val I τ ≠ (Exp.ofTerm (.ufCall 1 "f" [.ofTerm (.ufCall 2 "f_inv" [.ofTerm (.symConst 1 "x")] none)] none)).val I τ := by
  refine ⟨_, rfl, ⟨fun _ => 1, fun _ as => as, fun _ => 1, fun _ => 1⟩, ?_, fun _ => 0, fun h => ?_⟩
  · exact fun f _ => ⟨⟨rfl, rfl, fun _ h => h, fun _ _ => rfl⟩, ⟨rfl, rfl, fun _ h => h, fun _ _ => rfl⟩⟩
  · exact absurd (congrFun h 0) (by decide)

/-- `-2 * f( f_inv( x )[0], f_inv( x )[1] )` becomes `-2 * x`. -/
theorem Exp.collapse_denotes_components : ∃ e', (Exp.ofTerm (.ufCall (-2) "f"
      [.ofTerm (.ufCall 1 "f_inv" [.ofTerm (.symConst 1 "x")] (some 0)),
        .ofTerm (.ufCall 1 "f_inv" [.ofTerm (.symConst 1 "x")] (some 1))] none)).collapseNestedInvertibleFunctions invertibleF =
      .ok e' ∧ ∀ I : Interp, I.dom = (fun f => if f = "f" then 2 else 1) → I.cod = (fun f => if f = "f" then 1 else 2) →
        I.Consistent invertibleF → ∀ τ, e'.val I τ = (Exp.ofTerm (.ufCall (-2) "f"
          [.ofTerm (.ufCall 1 "f_inv" [.ofTerm (.symConst 1 "x")] (some 0)),
            .ofTerm (.ufCall 1 "f_inv" [.ofTerm (.symConst 1 "x")] (some 1))] none)).val I τ := by
  refine Exp.collapse_denotes _ _ _ _ ⟨⟨by decide, ⟨?_, .inl rfl, .inl ⟨by decide, rfl, ?_⟩, ?_⟩, ?_⟩, fun e he => ?_⟩
  · simp [Exp.ofTerm, Term.coefficient]
  · rintro kind c g nested j hmem
    simp only [Exp.ofTerm, List.mem_cons, List.not_mem_nil, or_false, Exp.mk.injEq, List.cons.injEq, Term.ufCall.injEq,
      and_true] at hmem
    rcases hmem with ⟨-, -, -, rfl, -⟩ | ⟨-, -, -, rfl, -⟩ <;> rfl
  · intro t ht
    obtain rfl := List.mem_singleton.1 ht
    exact le_rfl
  · refine ⟨trivial, fun e he => ⟨fun p hp => ?_, trivial⟩⟩
    cases he
    have hnil : p ∈ ([] : List (Term × Term)) := hp
    cases hnil
  · cases he
    refine ⟨fun p hp => ?_, trivial⟩
    have hnil : p ∈ ([] : List (Term × Term)) := hp
    cases hnil

end IEGen
