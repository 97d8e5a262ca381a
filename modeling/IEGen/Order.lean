import IEGen.Print
import IEGen.Lib.SortedList
import Mathlib.Order.Basic
import Mathlib.Data.String.Basic

/-!
# Comparing terms and expressions

`Term.lt` and `Exp.lt` are `operator<` of the two classes: terms compare by their kind, then by what they name, then by
coefficient, and calls compare their arguments as one printed string; expressions compare by the number of terms and
then term by term. `factorMatches` says that two terms differ at most in the coefficient.
-/

namespace IEGen

open SortedList (Tied sizeLexLt)

namespace Term

/-- The place of a term's kind in the enumeration `termtype`. -/
def typeRank : Term → Nat
  | .tupleVar .. => 0
  | .symConst .. => 1
  | .ufCall .. => 2
  | .constVal _ => 3
  | .tupleExp .. => 4

/-- `mTupleIndex`, with its `-1`. -/
def rawIndex : Option Nat → Int
  | none => -1
  | some i => i

/-- The common shape of the comparisons: the keys first, and the coefficients when the keys are equal. -/
def ltBy {κ : Type*} [LT κ] [DecidableLT κ] (k k' : κ) (rest : Bool) : Bool :=
  if k < k' then true else if k' < k then false else rest

/-- `Term::operator<` and its overrides. -/
def lt : Term → Term → Bool
  | .tupleVar c l, .tupleVar c' l' => ltBy l l' (c < c')
  | .symConst c s, .symConst c' s' => ltBy s s' (c < c')
  | .ufCall c f as i, .ufCall c' f' as' i' =>
    ltBy f f' (ltBy (rawIndex i) (rawIndex i') (ltBy (argsToStream false as) (argsToStream false as') (c < c')))
  | .constVal c, .constVal c' => c < c'
  -- two tuples of one size go on to compare the addresses of their elements, which are not part of the values
  | .tupleExp _ es, .tupleExp _ es' => es.length < es'.length
  | a, b => a.typeRank < b.typeRank

/-- `factorMatches`: the terms agree in everything but the coefficient. An unindexed call counts as indexed by `0`. -/
def factorMatches : Term → Term → Bool
  | .tupleVar _ l, .tupleVar _ l' => l == l'
  | .symConst _ s, .symConst _ s' => s == s'
  | .ufCall _ f as i, .ufCall _ f' as' i' =>
    f == f' && i.getD 0 == i'.getD 0 && argsToStream false as == argsToStream false as'
  | .constVal _, .constVal _ => true
  | .tupleExp _ es, .tupleExp _ es' => es.length == es'.length
  | _, _ => false

end Term

namespace Exp

/-- `Exp::operator<` -/
def lt (a b : Exp) : Bool := sizeLexLt Term.lt a.terms b.terms

/-- `Exp::operator==` -/
def eq (a b : Exp) : Bool := !(a.lt b || b.lt a)

end Exp

/-! ## Tied terms -/

section Ties

theorem ltBy_false {κ : Type*} [LinearOrder κ] {k k' : κ} {r r' : Bool} (h : Term.ltBy k k' r = false)
    (h' : Term.ltBy k' k r' = false) : k = k' ∧ r = false ∧ r' = false := by
  simp only [Term.ltBy] at h h'
  rcases lt_trichotomy k k' with hk | rfl | hk
  · simp [hk] at h
  · exact ⟨rfl, by simpa using h, by simpa using h'⟩
  · simp [hk] at h'

theorem rawIndex_injective : Function.Injective Term.rawIndex := by
  rintro (_ | i) (_ | j) h
  · rfl
  · simp only [Term.rawIndex] at h; omega
  · simp only [Term.rawIndex] at h; omega
  · simp only [Term.rawIndex] at h; rw [Int.ofNat_inj.1 h]

/-- Calls that neither comes before the other have one name, one index, one printed argument list, one coefficient. -/
theorem tied_ufCall {c c' : Int} {f f' : String} {as as' : List Exp} {i i' : Option Nat}
    (h : Tied Term.lt (.ufCall c f as i) (.ufCall c' f' as' i')) :
    f = f' ∧ i = i' ∧ argsToStream false as = argsToStream false as' ∧ c = c' := by
  obtain ⟨h₁, h₂⟩ := h
  simp only [Term.lt] at h₁ h₂
  obtain ⟨rfl, h₁, h₂⟩ := ltBy_false h₁ h₂
  obtain ⟨hi, h₁, h₂⟩ := ltBy_false h₁ h₂
  obtain ⟨ha, h₁, h₂⟩ := ltBy_false h₁ h₂
  simp only [decide_eq_false_iff_not, not_lt] at h₁ h₂
  exact ⟨rfl, rawIndex_injective hi, ha, le_antisymm h₂ h₁⟩

/-- Terms that neither comes before the other are of one kind, agree in their factor and have one coefficient. -/
theorem factorMatches_of_tied {a b : Term} (h : Tied Term.lt a b) (ht : a.isTupleExp = false) :
    a.factorMatches b = true ∧ a.coefficient = b.coefficient := by
  cases a <;> cases b <;> simp [Tied, Term.lt, Term.typeRank, Term.isTupleExp] at h ht
  case tupleVar.tupleVar c l c' l' =>
    obtain ⟨rfl, h₁, h₂⟩ := ltBy_false h.1 h.2
    simp at h₁ h₂
    exact ⟨by simp [Term.factorMatches], le_antisymm h₂ h₁⟩
  case symConst.symConst c s c' s' =>
    obtain ⟨rfl, h₁, h₂⟩ := ltBy_false h.1 h.2
    simp at h₁ h₂
    exact ⟨by simp [Term.factorMatches], le_antisymm h₂ h₁⟩
  case ufCall.ufCall c f as i c' f' as' i' =>
    obtain ⟨rfl, rfl, ha, rfl⟩ := tied_ufCall h
    exact ⟨by simp [Term.factorMatches, ha], rfl⟩
  case constVal.constVal c c' => exact ⟨rfl, le_antisymm h.2 h.1⟩

theorem tied_exp {a b : Exp} : Tied Exp.lt a b ↔ List.Forall₂ (Tied Term.lt) a.terms b.terms :=
  SortedList.tied_sizeLexLt

theorem eq_iff_tied {a b : Exp} : a.eq b = true ↔ Tied Exp.lt a b := by
  simp [Exp.eq, Tied]

end Ties

end IEGen
