import IEGen.Values

/-!
# All calls of a constraint

`AllCalls P` says that every call in an expression, those inside arguments included, meets `P`. Where `P` is about the
values of the arguments alone, terms that print the same meet it alike.
-/

namespace IEGen

open SortedList (Tied)

section AllCalls

variable (P : String → Option Nat → List Exp → Prop)

mutual
def Term.AllCalls : Term → Prop
  | .ufCall _ f as i => P f i as ∧ argsAllCalls as
  | _ => True

def Exp.AllCalls : Exp → Prop
  | .mk _ ts => termsAllCalls ts

def argsAllCalls : List Exp → Prop
  | [] => True
  | e :: es => e.AllCalls ∧ argsAllCalls es

def termsAllCalls : List Term → Prop
  | [] => True
  | t :: ts => t.AllCalls ∧ termsAllCalls ts
end

/-- Every call in the constraints, inside arguments too. -/
def Conjunction.AllCalls (c : Conjunction) : Prop := ∀ e ∈ c.equalities ++ c.inequalities, e.AllCalls P

variable {P}

theorem termsAllCalls_iff {ts : List Term} : termsAllCalls P ts ↔ ∀ t ∈ ts, t.AllCalls P := by
  induction ts with
  | nil => simp [termsAllCalls]
  | cons t ts ih => simp [termsAllCalls, ih]

theorem Exp.allCalls_iff {e : Exp} : e.AllCalls P ↔ ∀ t ∈ e.terms, t.AllCalls P := by
  cases e
  simp only [Exp.AllCalls, termsAllCalls_iff, Exp.terms_mk]

mutual
theorem Term.AllCalls.imp {Q : String → Option Nat → List Exp → Prop} (h : ∀ f i as, P f i as → Q f i as) :
    ∀ {t : Term}, t.AllCalls P → t.AllCalls Q
  | .ufCall .., ht => ⟨h _ _ _ ht.1, argsAllCalls.imp h ht.2⟩
  | .tupleVar .., _ | .symConst .., _ | .constVal _, _ | .tupleExp .., _ => trivial

theorem Exp.AllCalls.imp {Q : String → Option Nat → List Exp → Prop} (h : ∀ f i as, P f i as → Q f i as) :
    ∀ {e : Exp}, e.AllCalls P → e.AllCalls Q
  | .mk _ _, he => termsAllCalls.imp h he

theorem argsAllCalls.imp {Q : String → Option Nat → List Exp → Prop} (h : ∀ f i as, P f i as → Q f i as) :
    ∀ {es : List Exp}, argsAllCalls P es → argsAllCalls Q es
  | [], _ => trivial
  | _ :: _, hes => ⟨Exp.AllCalls.imp h hes.1, argsAllCalls.imp h hes.2⟩

theorem termsAllCalls.imp {Q : String → Option Nat → List Exp → Prop} (h : ∀ f i as, P f i as → Q f i as) :
    ∀ {ts : List Term}, termsAllCalls P ts → termsAllCalls Q ts
  | [], _ => trivial
  | _ :: _, hts => ⟨Term.AllCalls.imp h hts.1, termsAllCalls.imp h hts.2⟩
end

/-! ## Calls of expressions that fit -/

section Fits

variable {cod : String → Nat} {kinds : Bool → Prop} {Q : String → Option Nat → List Exp → Prop}

mutual
theorem Term.Fits.allCalls : ∀ {t : Term}, t.Fits cod kinds P → t.AllCalls P
  | .ufCall .., h => ⟨h.1, argsFits.allCalls h.2⟩
  | .tupleVar .., _ | .symConst .., _ | .constVal _, _ | .tupleExp .., _ => trivial

theorem Exp.Fits.allCalls : ∀ {e : Exp}, e.Fits cod kinds P → e.AllCalls P
  | .mk _ _, ⟨_, _, h⟩ => termsFits.allCalls h

theorem argsFits.allCalls : ∀ {es : List Exp}, argsFits cod kinds P es → argsAllCalls P es
  | [], _ => trivial
  | _ :: _, h => ⟨Exp.Fits.allCalls h.1, argsFits.allCalls h.2⟩

theorem termsFits.allCalls : ∀ {v : Bool} {ts : List Term}, termsFits cod kinds P v ts → termsAllCalls P ts
  | _, [], _ => trivial
  | _, _ :: _, h => ⟨Term.Fits.allCalls h.1.2, termsFits.allCalls h.2⟩
end

mutual
theorem Term.Fits.imp (h : ∀ f i as, P f i as → Q f i as) : ∀ {t : Term}, t.Fits cod kinds P → t.Fits cod kinds Q
  | .ufCall .., ht => ⟨h _ _ _ ht.1, argsFits.imp h ht.2⟩
  | .tupleVar .., _ | .symConst .., _ | .constVal _, _ | .tupleExp .., _ => trivial

theorem Exp.Fits.imp (h : ∀ f i as, P f i as → Q f i as) : ∀ {e : Exp}, e.Fits cod kinds P → e.Fits cod kinds Q
  | .mk _ _, ⟨v, hv, he⟩ => ⟨v, hv, termsFits.imp h he⟩

theorem argsFits.imp (h : ∀ f i as, P f i as → Q f i as) :
    ∀ {es : List Exp}, argsFits cod kinds P es → argsFits cod kinds Q es
  | [], _ => trivial
  | _ :: _, hes => ⟨Exp.Fits.imp h hes.1, argsFits.imp h hes.2⟩

theorem termsFits.imp (h : ∀ f i as, P f i as → Q f i as) :
    ∀ {v : Bool} {ts : List Term}, termsFits cod kinds P v ts → termsFits cod kinds Q v ts
  | _, [], _ => trivial
  | _, _ :: _, hts => ⟨⟨hts.1.1, Term.Fits.imp h hts.1.2⟩, termsFits.imp h hts.2⟩
end

mutual
theorem Term.Fits.and : ∀ {t : Term}, t.Fits cod kinds P → t.AllCalls Q →
    t.Fits cod kinds (fun f i as => P f i as ∧ Q f i as)
  | .ufCall .., h, h' => ⟨⟨h.1, h'.1⟩, argsFits.and h.2 h'.2⟩
  | .tupleVar .., _, _ | .symConst .., _, _ | .constVal _, _, _ | .tupleExp .., _, _ => trivial

theorem Exp.Fits.and : ∀ {e : Exp}, e.Fits cod kinds P → e.AllCalls Q →
    e.Fits cod kinds (fun f i as => P f i as ∧ Q f i as)
  | .mk _ _, ⟨v, hv, h⟩, h' => ⟨v, hv, termsFits.and h h'⟩

theorem argsFits.and : ∀ {es : List Exp}, argsFits cod kinds P es → argsAllCalls Q es →
    argsFits cod kinds (fun f i as => P f i as ∧ Q f i as) es
  | [], _, _ => trivial
  | _ :: _, h, h' => ⟨Exp.Fits.and h.1 h'.1, argsFits.and h.2 h'.2⟩

theorem termsFits.and : ∀ {v : Bool} {ts : List Term}, termsFits cod kinds P v ts → termsAllCalls Q ts →
    termsFits cod kinds (fun f i as => P f i as ∧ Q f i as) v ts
  | _, [], _, _ => trivial
  | _, _ :: _, h, h' => ⟨⟨h.1.1, Term.Fits.and h.1.2 h'.1⟩, termsFits.and h.2 h'.2⟩
end

theorem Conjunction.Fits.allCalls {top : Bool → Prop} {c : Conjunction} (h : c.Fits cod top kinds P) : c.AllCalls P := by
  intro e he
  obtain ⟨v, -, h⟩ := h e he
  exact Exp.allCalls_iff.2 fun t ht => Term.Fits.allCalls (h t ht).2

theorem Conjunction.Fits.and {top : Bool → Prop} {c : Conjunction} (h : c.Fits cod top kinds P) (h' : c.AllCalls Q) :
    c.Fits cod top kinds (fun f i as => P f i as ∧ Q f i as) := by
  intro e he
  obtain ⟨v, hv, h⟩ := h e he
  exact ⟨v, hv, fun t ht => ⟨(h t ht).1, Term.Fits.and (h t ht).2 (Exp.allCalls_iff.1 (h' e he) t ht)⟩⟩

end Fits

/-! ## Calls that do not collapse -/

/-- The arguments are not calls of the inverse with one argument. -/
def Collapsible (env : Environment) (f : String) (as : List Exp) : Prop :=
  canCollapseSelf (env.funcInverse f) as = .ok true

section NoCollapse

variable {env : Environment} {I : Interp} {τ : Nat → Int}

mutual
theorem Term.collapseKeeps_of_not : ∀ {t : Term}, t.AllCalls (fun f _ as => ¬ Collapsible env f as) →
    t.CollapseKeeps env I τ
  | .ufCall .., h => ⟨argsCollapseKeeps_of_not h.2, fun hcan => absurd hcan h.1⟩
  | .tupleVar .., _ | .symConst .., _ | .constVal _, _ | .tupleExp .., _ => trivial

theorem Exp.collapseKeeps_of_not : ∀ {e : Exp}, e.AllCalls (fun f _ as => ¬ Collapsible env f as) →
    e.CollapseKeeps env I τ
  | .mk _ _, h => termsCollapseKeeps_of_not h

theorem argsCollapseKeeps_of_not : ∀ {es : List Exp}, argsAllCalls (fun f _ as => ¬ Collapsible env f as) es →
    argsCollapseKeeps env I τ es
  | [], _ => trivial
  | _ :: _, h => ⟨Exp.collapseKeeps_of_not h.1, argsCollapseKeeps_of_not h.2⟩

theorem termsCollapseKeeps_of_not : ∀ {ts : List Term}, termsAllCalls (fun f _ as => ¬ Collapsible env f as) ts →
    termsCollapseKeeps env I τ ts
  | [], _ => trivial
  | _ :: _, h => ⟨Term.collapseKeeps_of_not h.1, termsCollapseKeeps_of_not h.2⟩
end

end NoCollapse

/-! ## Calls of terms that print the same -/

section Tied

variable {I : Interp} {τ : Nat → Int}

mutual
theorem Term.allCalls_plain (hP : ∀ f i as as', argsVal I τ as' = argsVal I τ as → P f i as → P f i as') :
    ∀ {t : Term}, t.plain.AllCalls P ↔ t.AllCalls P
  | .ufCall _ f as i => by
    have hv : argsVal I τ (argsPlain as) = argsVal I τ as := argsVal_plain I τ as
    simp only [Term.plain, Term.AllCalls]
    exact and_congr ⟨hP f i _ _ hv.symm, hP f i _ _ hv⟩ (argsAllCalls_plain hP)
  | .tupleVar .. | .symConst .. | .constVal _ | .tupleExp .. => Iff.rfl

theorem Exp.allCalls_plain (hP : ∀ f i as as', argsVal I τ as' = argsVal I τ as → P f i as → P f i as') :
    ∀ {e : Exp}, e.plain.AllCalls P ↔ e.AllCalls P
  | .mk _ [] => ⟨fun _ => trivial, fun _ => ⟨trivial, trivial⟩⟩
  | .mk _ (_ :: _) => and_congr (Term.allCalls_plain hP) (termsAllCalls_plain hP)

theorem argsAllCalls_plain (hP : ∀ f i as as', argsVal I τ as' = argsVal I τ as → P f i as → P f i as') :
    ∀ {es : List Exp}, argsAllCalls P (argsPlain es) ↔ argsAllCalls P es
  | [] => Iff.rfl
  | _ :: _ => and_congr (Exp.allCalls_plain hP) (argsAllCalls_plain hP)

theorem termsAllCalls_plain (hP : ∀ f i as as', argsVal I τ as' = argsVal I τ as → P f i as → P f i as') :
    ∀ {ts : List Term}, termsAllCalls P (termsPlain ts) ↔ termsAllCalls P ts
  | [] => Iff.rfl
  | _ :: _ => and_congr (Term.allCalls_plain hP) (termsAllCalls_plain hP)
end

variable (hP : ∀ f i as as', argsVal I τ as' = argsVal I τ as → P f i as → P f i as')
include hP

theorem Term.allCalls_of_tied {t u : Term} (hr : t.readable = true) (hr' : u.readable = true) (h : Tied Term.lt t u)
    (ht : t.AllCalls P) : u.AllCalls P := by
  obtain ⟨hf, -⟩ := factorMatches_of_tied h (isTupleExp_of_readable hr)
  cases t <;> cases u <;> simp [Term.factorMatches] at hf <;> try trivial
  case ufCall.ufCall c f as i c' f' as' i' =>
    obtain ⟨rfl, rfl, ha, rfl⟩ := tied_ufCall h
    simp only [Term.readable, Bool.and_eq_true] at hr hr'
    have hplain := argsPlain_of_toString_eq (argsLegible_of_readable hr.2) (argsLegible_of_readable hr'.2) ha
    refine ⟨hP f i _ _ (argsVal_of_toString_eq (argsLegible_of_readable hr.2) (argsLegible_of_readable hr'.2) ha).symm ht.1, ?_⟩
    rw [← argsAllCalls_plain hP, ← hplain, argsAllCalls_plain hP]
    exact ht.2

theorem Exp.allCalls_of_tied {e d : Exp} (hr : e.readable = true) (hr' : d.readable = true) (h : Tied Exp.lt e d)
    (he : e.AllCalls P) : d.AllCalls P := by
  rw [Exp.allCalls_iff] at he ⊢
  intro u hu
  obtain ⟨t, ht, htu⟩ := Outcome.exists_of_mem_forall₂ (tied_exp.1 h) hu
  exact Term.allCalls_of_tied hP (Exp.readable_iff.1 hr t ht) (Exp.readable_iff.1 hr' u hu) htu (he t ht)

/-- Conjunctions that neither comes before the other have the same calls, as far as values go. -/
theorem Conjunction.allCalls_of_tied {c d : Conjunction} (hr : c.readable = true) (hr' : d.readable = true)
    (h : Tied Conjunction.lt c d) (hc : c.AllCalls P) : d.AllCalls P := by
  obtain ⟨-, heqs, hineqs⟩ := Conjunction.tied_parts h
  have hmem : ∀ {b : Conjunction}, b.readable = true → ∀ e ∈ b.equalities ++ b.inequalities, e.readable = true := by
    intro b hb e he
    exact (List.mem_append.1 he).elim ((readable_iff.1 hb).1 e) ((readable_iff.1 hb).2 e)
  intro d' hd'
  obtain ⟨e, he, hed⟩ := Outcome.exists_of_mem_forall₂ (List.rel_append heqs hineqs) hd'
  exact Exp.allCalls_of_tied hP (hmem hr e he) (hmem hr' d' hd') hed (hc e he)

end Tied

end AllCalls

end IEGen
