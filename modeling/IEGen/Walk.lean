import IEGen.Visitor
import IEGen.Calls

/-!
# What a visitor gathers from calls

A visitor that acts on calls alone, before their arguments, adds to what its state stands for at each call it meets. So
a visit of an expression adds what all of its calls add (`Visitor.Gathers`).
-/

namespace IEGen

open Outcome (bind_eq_ok)

/-- The visitor adds `P` to what the state stands for at each call, for terms in `G`. -/
structure Visitor.Gathers {σ : Type} (v : Visitor σ) (G : Term → Prop) (P : String → Option Nat → List Exp → Prop)
    (R : Prop → σ → Prop) : Prop where
  args : ∀ {c f as i}, G (.ufCall c f as i) → ∀ e ∈ as, ∀ t ∈ e.terms, G t
  call : ∀ {c f as i q s s'}, G (.ufCall c f as i) → R q s → v.preVisitTerm (.ufCall c f as i) s = .ok s' →
    R (q ∧ P f i as) s'
  other : ∀ {t : Term} {s}, (∀ c f as i, t ≠ .ufCall c f as i) → v.preVisitTerm t s = .ok s
  postTerm : ∀ t s, v.postVisitTerm t s = .ok s
  preExp : ∀ e s, v.preVisitExp e s = .ok s
  postExp : ∀ e s, v.postVisitExp e s = .ok s

namespace Visitor.Gathers

variable {σ : Type} {v : Visitor σ} {G : Term → Prop} {P : String → Option Nat → List Exp → Prop} {R : Prop → σ → Prop}

mutual
theorem term (h : v.Gathers G P R) : ∀ {t : Term} {q : Prop} {s s' : σ}, G t → R q s → t.acceptVisitor v s = .ok s' →
    R (q ∧ t.AllCalls P) s'
  | .ufCall c f as i, q, s, s', hg, hs, ha => by
    unfold Term.acceptVisitor at ha
    simp only [h.postTerm, bind_eq_ok, Except.ok.injEq] at ha
    obtain ⟨s₁, h₁, s₂, h₂, rfl⟩ := ha
    have hargs := arguments h (h.args hg) (h.call hg hs h₁) h₂
    rwa [and_assoc] at hargs
  | .tupleVar .., q, s, s', hg, hs, ha | .symConst .., q, s, s', hg, hs, ha | .constVal _, q, s, s', hg, hs, ha
  | .tupleExp .., q, s, s', hg, hs, ha => by
    unfold Term.acceptVisitor at ha
    rw [h.other (by simp), bind_eq_ok] at ha
    obtain ⟨s₁, h₁, h₂⟩ := ha
    cases h₁
    rw [h.postTerm] at h₂
    cases h₂
    show R (q ∧ True) _
    rwa [and_true]

theorem exp (h : v.Gathers G P R) : ∀ {e : Exp} {q : Prop} {s s' : σ}, (∀ t ∈ e.terms, G t) → R q s →
    e.acceptVisitor v s = .ok s' → R (q ∧ e.AllCalls P) s'
  | .mk _ ts, q, s, s', hg, hs, ha => by
    unfold Exp.acceptVisitor at ha
    simp only [h.preExp, h.postExp, bind_eq_ok, Except.ok.injEq, exists_eq_left'] at ha
    obtain ⟨s₁, h₁, rfl⟩ := ha
    exact terms h hg hs h₁

/-- The arguments of a call, one after the other. -/
theorem arguments (h : v.Gathers G P R) : ∀ {es : List Exp} {q : Prop} {s s' : σ}, (∀ e ∈ es, ∀ t ∈ e.terms, G t) → R q s →
    argsAcceptVisitor v es s = .ok s' → R (q ∧ argsAllCalls P es) s'
  | [], q, s, s', _, hs, ha => by
    cases ha
    rwa [argsAllCalls, and_true]
  | .mk k ts :: es, q, s, s', hg, hs, ha => by
    obtain ⟨hge, hges⟩ := List.forall_mem_cons.1 hg
    simp only [argsAcceptVisitor, bind_eq_ok] at ha
    obtain ⟨s₁, h₁, h₂⟩ := ha
    have hrest := arguments h hges (exp h hge hs h₁) h₂
    rwa [and_assoc] at hrest

theorem terms (h : v.Gathers G P R) : ∀ {ts : List Term} {q : Prop} {s s' : σ}, (∀ t ∈ ts, G t) → R q s →
    termsAcceptVisitor v ts s = .ok s' → R (q ∧ termsAllCalls P ts) s'
  | [], q, s, s', _, hs, ha => by
    cases ha
    rwa [termsAllCalls, and_true]
  | t :: ts, q, s, s', hg, hs, ha => by
    obtain ⟨hgt, hgts⟩ := List.forall_mem_cons.1 hg
    simp only [termsAcceptVisitor, bind_eq_ok] at ha
    obtain ⟨s₁, h₁, h₂⟩ := ha
    have hrest := terms h hgts (term h hgt hs h₁) h₂
    rwa [and_assoc] at hrest
end

/-- Constraints, one after the other. -/
theorem constraints (h : v.Gathers G P R) {es : List Exp} (hg : ∀ e ∈ es, ∀ t ∈ e.terms, G t) {q : Prop} {s s' : σ}
    (hs : R q s) (ha : es.foldlM (fun s e => e.acceptVisitor v s) s = .ok s') : R (q ∧ ∀ e ∈ es, e.AllCalls P) s' := by
  induction es generalizing q s with
  | nil =>
    cases ha
    simpa using hs
  | cons e es ih =>
    obtain ⟨hge, hges⟩ := List.forall_mem_cons.1 hg
    rw [List.foldlM_cons, bind_eq_ok] at ha
    obtain ⟨s₁, h₁, h₂⟩ := ha
    have hrest := ih hges (h.exp hge hs h₁) h₂
    rwa [and_assoc, ← List.forall_mem_cons] at hrest

end Visitor.Gathers

end IEGen
