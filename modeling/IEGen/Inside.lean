import IEGen.Arguments

/-!
# What a visitor ignores inside of calls

A visitor that counts how deep it is in calls often does nothing until it is out of them again. Where the state shows
that it is inside, each node leaves the state as it was when its visit ends, and so does all that the node holds
(`Visitor.IgnoresInside`).
-/

namespace IEGen

open Outcome (bind_eq_ok)

/-- Inside of a call a visit of a node ends in the state in which it began. -/
structure Visitor.IgnoresInside {σ : Type} (v : Visitor σ) (Inside : σ → Prop) : Prop where
  term : ∀ t s, Inside s → ∃ s₁, v.preVisitTerm t s = .ok s₁ ∧ Inside s₁ ∧ v.postVisitTerm t s₁ = .ok s
  exp : ∀ e : Exp, e.expType = .expression → ∀ s, Inside s →
    ∃ s₁, v.preVisitExp e s = .ok s₁ ∧ Inside s₁ ∧ v.postVisitExp e s₁ = .ok s

namespace Visitor.IgnoresInside

variable {σ : Type} {v : Visitor σ} {Inside : σ → Prop}

mutual
theorem accept_term (h : v.IgnoresInside Inside) : ∀ {t : Term} {s : σ}, (∀ e ∈ t.arguments, e.expType = .expression) →
    Inside s → t.acceptVisitor v s = .ok s
  | .ufCall c f as i, s, hp, hs => by
    obtain ⟨s₁, hpre, hs₁, hpost⟩ := h.term (.ufCall c f as i) s hs
    exact bind_eq_ok.2 ⟨s₁, hpre, bind_eq_ok.2 ⟨s₁, accept_args h hp hs₁, hpost⟩⟩
  | .tupleVar c l, s, _, hs => by
    obtain ⟨s₁, hpre, -, hpost⟩ := h.term (.tupleVar c l) s hs
    exact bind_eq_ok.2 ⟨s₁, hpre, hpost⟩
  | .symConst c f, s, _, hs => by
    obtain ⟨s₁, hpre, -, hpost⟩ := h.term (.symConst c f) s hs
    exact bind_eq_ok.2 ⟨s₁, hpre, hpost⟩
  | .constVal c, s, _, hs => by
    obtain ⟨s₁, hpre, -, hpost⟩ := h.term (.constVal c) s hs
    exact bind_eq_ok.2 ⟨s₁, hpre, hpost⟩
  | .tupleExp c es, s, _, hs => by
    obtain ⟨s₁, hpre, -, hpost⟩ := h.term (.tupleExp c es) s hs
    exact bind_eq_ok.2 ⟨s₁, hpre, hpost⟩

theorem accept_args (h : v.IgnoresInside Inside) : ∀ {es : List Exp} {s : σ},
    (∀ e ∈ argsArguments es, e.expType = .expression) → Inside s → argsAcceptVisitor v es s = .ok s
  | [], _, _, _ => rfl
  | .mk k ts :: es, s, hp, hs => by
    obtain ⟨hk, hp⟩ := List.forall_mem_cons.1 hp
    obtain ⟨hts, hes⟩ := List.forall_mem_append.1 hp
    obtain ⟨s₁, hpre, hs₁, hpost⟩ := h.exp (.mk k ts) hk s hs
    have hexp : (Exp.mk k ts).acceptVisitor v s = .ok s :=
      bind_eq_ok.2 ⟨s₁, hpre, bind_eq_ok.2 ⟨s₁, accept_terms h hts hs₁, hpost⟩⟩
    exact bind_eq_ok.2 ⟨s, hexp, accept_args h hes hs⟩

theorem accept_terms (h : v.IgnoresInside Inside) : ∀ {ts : List Term} {s : σ},
    (∀ e ∈ termsArguments ts, e.expType = .expression) → Inside s → termsAcceptVisitor v ts s = .ok s
  | [], _, _, _ => rfl
  | t :: ts, s, hp, hs => by
    obtain ⟨ht, hts⟩ := List.forall_mem_append.1 hp
    exact bind_eq_ok.2 ⟨s, accept_term h ht hs, accept_terms h hts hs⟩
end

/-- The arguments of a call whose visit brings the state inside. -/
theorem accept_args_of_enters (h : v.IgnoresInside Inside) {es : List Exp} {s : σ}
    (henter : ∀ e ∈ es, ∃ s₁, v.preVisitExp e s = .ok s₁ ∧ Inside s₁ ∧ v.postVisitExp e s₁ = .ok s)
    (hp : ∀ e ∈ argsArguments es, e.expType = .expression) : argsAcceptVisitor v es s = .ok s := by
  induction es with
  | nil => rfl
  | cons e es ih =>
    obtain ⟨k, ts⟩ := e
    obtain ⟨hts, hes⟩ := List.forall_mem_append.1 (List.forall_mem_cons.1 hp).2
    obtain ⟨⟨s₁, hpre, hs₁, hpost⟩, henter⟩ := List.forall_mem_cons.1 henter
    have hexp : (Exp.mk k ts).acceptVisitor v s = .ok s :=
      bind_eq_ok.2 ⟨s₁, hpre, bind_eq_ok.2 ⟨s₁, accept_terms h hts hs₁, hpost⟩⟩
    exact bind_eq_ok.2 ⟨s, hexp, ih henter hes⟩

end Visitor.IgnoresInside

end IEGen
