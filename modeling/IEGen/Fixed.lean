import IEGen.Functions

/-!
# Constants in the declaration

`pushConstConstraintsToTupleDecl` solves every equality for every tuple variable. Where a solution is a constant, the
variable becomes that constant in the declaration, and the equality goes. It does not look whether another equality has
given the variable another constant, and it puts the constant in no other constraint.

* The tuples stay the same iff no variable is given two constants, or nothing is left to be true of them anyway.
* The conjunction can be printed iff no constraint that is left mentions a variable that has been given a constant.

`pushConstToConstraints`, the way back, keeps the tuples.
-/

namespace IEGen

open Outcome (bind_eq_ok)
open SortedList (Tied)

/-! ## The code -/

/-- The constant that `pushConstConstraintsToTupleDecl` takes a solution for. -/
def Exp.asConst (e : Exp) : Option Int :=
  if e.equalsZero then some 0
  else match e.getTerm with
    | some (.constVal c) => some c
    | _ => none

/-- The loop over the tuple variables for one equality: the variables that it gives constants. -/
def Exp.constants (env : Environment) (d : TupleDecl) (e : Exp) : List Nat → Except Failure (List (Nat × Int))
  | [] => .ok []
  | i :: is =>
    if d.elemIsConst i then e.constants env d is
    else do
      let solution ← e.solveForFactor env (d.elemCreateTerm i i)
      let rest ← e.constants env d is
      match solution.bind Exp.asConst with
      | some constVal => .ok ((i, constVal) :: rest)
      | none => .ok rest

/-- `pushConstConstraintsToTupleDecl` -/
def Conjunction.pushConstConstraintsToTupleDecl (env : Environment) (c : Conjunction) : Except Failure Conjunction := do
  let found ← c.equalities.mapM (fun e => e.constants env c.tupleDecl (List.range c.arity))
  let equalitiesToRemove := ((c.equalities.zip found).filter (fun p => !p.2.isEmpty)).map Prod.fst
  .ok { c with
    equalities := c.equalities.filter (fun e => !equalitiesToRemove.any (fun d => decide (Tied Exp.lt e d)))
    -- of several constants for a variable, the last is left
    tupleDecl := found.flatten.foldl (fun d p => d.setTupleConst p.1 p.2) c.tupleDecl }

/-- `TupleDecl::toString`, with the brackets and not generic. -/
def TupleDecl.toString (d : TupleDecl) (aritySplit : Nat) : String :=
  if d.size = 0 then ""
  else "[" ++ String.join ((List.range d.size).map (fun i =>
    (if i = 0 then "" else if aritySplit = i then "] -> [" else ", ") ++ d.elemToString i false)) ++ "]"

/-- The constraints of `Conjunction::prettyPrintString`, each after `:` or `&&`. -/
def constraintsToString (d : TupleDecl) (op : String) : Bool → List Exp → Except Failure String
  | _, [] => .ok ""
  | first, e :: es => do
    let s ← e.prettyPrintString d
    let rest ← constraintsToString d op false es
    .ok ((if first then " : " else " && ") ++ s ++ op ++ rest)

/-- `Conjunction::prettyPrintString`, which cleans a copy up first. -/
def Conjunction.prettyPrintString (env : Environment) (c : Conjunction) : Except Failure String := do
  let dup ← c.cleanUp env
  let equalities ← constraintsToString c.tupleDecl " = 0" true dup.equalities
  let inequalities ← constraintsToString c.tupleDecl " >= 0" dup.equalities.isEmpty dup.inequalities
  .ok ("\x7b " ++ c.tupleDecl.toString c.inArity ++ equalities ++ inequalities ++ " \x7d")

/-! ## Printing -/

section Printing

variable {d : TupleDecl}

mutual
theorem Term.exists_prettyPrint (absValue : Bool) : ∀ {t : Term}, t.VarsIn (fun l => d.elemIsConst l = false) →
    ∃ s, t.prettyPrintString d absValue = .ok s
  | .tupleVar c l, h => by
    have hl : d.elemIsConst l = false := h
    rw [Term.prettyPrintString, hl]
    exact ⟨_, rfl⟩
  | .symConst .., _ | .constVal _, _ => ⟨_, rfl⟩
  | .ufCall c f as i, h => by
    obtain ⟨s, hs⟩ := exists_argsPrettyPrint h
    simp only [Term.prettyPrintString, hs, bind, Except.bind]
    exact ⟨_, rfl⟩
  | .tupleExp c es, h => by
    obtain ⟨s, hs⟩ := exists_argsPrettyPrint h
    simp only [Term.prettyPrintString, hs, bind, Except.bind]
    exact ⟨_, rfl⟩

theorem Exp.exists_prettyPrint : ∀ {e : Exp}, e.VarsIn (fun l => d.elemIsConst l = false) →
    ∃ s, e.prettyPrintString d = .ok s
  | .mk _ [], _ => ⟨_, rfl⟩
  | .mk _ (t :: ts), h => by
    obtain ⟨s, hs⟩ := Term.exists_prettyPrint false h.1
    obtain ⟨rest, hrest⟩ := exists_termsPrettyPrint h.2
    simp only [Exp.prettyPrintString, hs, hrest, bind, Except.bind]
    exact ⟨_, rfl⟩

theorem exists_termsPrettyPrint : ∀ {ts : List Term}, termsVarsIn (fun l => d.elemIsConst l = false) ts →
    ∃ s, termsPrettyPrint d ts = .ok s
  | [], _ => ⟨_, rfl⟩
  | t :: ts, h => by
    obtain ⟨s, hs⟩ := Term.exists_prettyPrint true h.1
    obtain ⟨rest, hrest⟩ := exists_termsPrettyPrint h.2
    simp only [termsPrettyPrint, hs, hrest, bind, Except.bind]
    exact ⟨_, rfl⟩

theorem exists_argsPrettyPrint : ∀ {es : List Exp}, argsVarsIn (fun l => d.elemIsConst l = false) es →
    ∃ s, argsToStreamPrettyPrint d es = .ok s
  | [], _ => ⟨_, rfl⟩
  | e :: es, h => by
    obtain ⟨s, hs⟩ := Exp.exists_prettyPrint h.1
    obtain ⟨rest, hrest⟩ := exists_restArgsPrettyPrint h.2
    simp only [argsToStreamPrettyPrint, hs, hrest, bind, Except.bind]
    exact ⟨_, rfl⟩

theorem exists_restArgsPrettyPrint : ∀ {es : List Exp}, argsVarsIn (fun l => d.elemIsConst l = false) es →
    ∃ s, restArgsPrettyPrint d es = .ok s
  | [], _ => ⟨_, rfl⟩
  | e :: es, h => by
    obtain ⟨s, hs⟩ := Exp.exists_prettyPrint h.1
    obtain ⟨rest, hrest⟩ := exists_restArgsPrettyPrint h.2
    simp only [restArgsPrettyPrint, hs, hrest, bind, Except.bind]
    exact ⟨_, rfl⟩
end

theorem exists_constraintsToString {op : String} : ∀ {first : Bool} {es : List Exp},
    (∀ e ∈ es, e.VarsIn (fun l => d.elemIsConst l = false)) → ∃ s, constraintsToString d op first es = .ok s
  | _, [], _ => ⟨_, rfl⟩
  | first, e :: es, h => by
    obtain ⟨he, hes⟩ := List.forall_mem_cons.1 h
    obtain ⟨s, hs⟩ := Exp.exists_prettyPrint he
    obtain ⟨rest, hrest⟩ : ∃ rest, constraintsToString d op false es = .ok rest := exists_constraintsToString hes
    simp only [constraintsToString, hs, hrest, bind, Except.bind]
    exact ⟨_, rfl⟩

end Printing

mutual
theorem Term.varsIn_collapse {p : Nat → Prop} {env : Environment} : ∀ {t : Term} {e : Exp}, t.VarsIn p →
    t.collapseNestedInvertibleFunctions env = .ok e → e.VarsIn p
  | .tupleVar .., _, ht, h | .symConst .., _, ht, h | .constVal _, _, ht, h | .tupleExp .., _, ht, h => by
    cases h
    exact Exp.varsIn_addTerm (Exp.varsIn_empty .expression) ht
  | .ufCall c f as i, e, ht, h => by
    rcases collapse_ufCall h with ⟨k, c', g, saved, as', j, ts, es, rfl, -, e', he', rfl⟩ | ⟨-, as', has, rfl⟩
    · have hs : saved.VarsIn p := ht.1.1.1
      exact Exp.varsIn_multiplyBy c (Exp.varsIn_collapse hs he')
    · exact Exp.varsIn_addTerm (Exp.varsIn_empty .expression) (argsVarsIn_argsCollapse ht has)

theorem Exp.varsIn_collapse {p : Nat → Prop} {env : Environment} : ∀ {e e' : Exp}, e.VarsIn p →
    e.collapseNestedInvertibleFunctions env = .ok e' → e'.VarsIn p
  | .mk _ _, _, he, h => termsVarsIn_termsCollapse he (Exp.varsIn_empty .expression) h

theorem argsVarsIn_argsCollapse {p : Nat → Prop} {env : Environment} : ∀ {es es' : List Exp}, argsVarsIn p es →
    argsCollapse env es = .ok es' → argsVarsIn p es'
  | [], _, _, h => by
    cases h
    trivial
  | e :: es, _, hes, h => by
    simp only [argsCollapse, bind_eq_ok] at h
    obtain ⟨e', he', es', hes', h⟩ := h
    cases h
    exact ⟨Exp.varsIn_collapse hes.1 he', argsVarsIn_argsCollapse hes.2 hes'⟩

theorem termsVarsIn_termsCollapse {p : Nat → Prop} {env : Environment} : ∀ {ts : List Term} {acc e' : Exp},
    termsVarsIn p ts → acc.VarsIn p → termsCollapse env ts acc = .ok e' → e'.VarsIn p
  | [], _, _, _, hacc, h => by
    cases h
    exact hacc
  | t :: ts, _, _, hts, hacc, h => by
    simp only [termsCollapse, bind_eq_ok] at h
    obtain ⟨e, he, h⟩ := h
    exact termsVarsIn_termsCollapse hts.2 (Exp.varsIn_addExp hacc (Term.varsIn_collapse hts.1 he)) h
end

/-- Cleaning up mentions no new tuple variable. -/
theorem Conjunction.varsIn_cleanUp {p : Nat → Prop} {env : Environment} {c c' : Conjunction} (hc : c.VarsIn p)
    (h : c.cleanUp env = .ok c') : c'.VarsIn p := by
  intro d hd
  rcases List.mem_append.1 hd with hd | hd
  · obtain ⟨e, he, e', hcol, hde⟩ := exists_of_mem_cleanUp_equalities h hd
    have hv := Exp.varsIn_collapse (Exp.varsIn_normalizeForEquality (hc e (List.mem_append_left _ he))) hcol
    have hn := Exp.varsIn_normalizeForEquality hv
    rw [Exp.eq_of_mem_asEquality hde]
    rw [Exp.varsIn_iff] at hn ⊢
    exact hn
  · obtain ⟨e, he, e', hcol, hde⟩ := exists_of_mem_cleanUp_inequalities h hd
    have hv := Exp.varsIn_collapse (hc e (List.mem_append_right _ he)) hcol
    rw [Exp.eq_of_mem_asInequality hde]
    rw [Exp.varsIn_iff] at hv ⊢
    exact hv

/-- A conjunction that mentions no declared constant is printed, when it can be cleaned up. -/
theorem Conjunction.exists_prettyPrint {env : Environment} {c : Conjunction}
    (hc : c.VarsIn (fun l => c.tupleDecl.elemIsConst l = false)) (h : ∃ d, c.cleanUp env = .ok d) :
    ∃ s, c.prettyPrintString env = .ok s := by
  obtain ⟨d, hd⟩ := h
  have hv := Conjunction.varsIn_cleanUp hc hd
  obtain ⟨s, hs⟩ : ∃ s, constraintsToString c.tupleDecl " = 0" true d.equalities = .ok s :=
    exists_constraintsToString fun e he => hv e (List.mem_append_left _ he)
  obtain ⟨s', hs'⟩ : ∃ s, constraintsToString c.tupleDecl " >= 0" d.equalities.isEmpty d.inequalities = .ok s :=
    exists_constraintsToString fun e he => hv e (List.mem_append_right _ he)
  simp only [prettyPrintString, hd, hs, hs', bind, Except.bind]
  exact ⟨_, rfl⟩

/-! ## What is found -/

/-- The equality gives the tuple variable the constant. -/
def Exp.Gives (env : Environment) (d : TupleDecl) (e : Exp) (i : Nat) (v : Int) : Prop :=
  i < d.size ∧ d.elemIsConst i = false ∧ ∃ x, e.solveForFactor env (.tupleVar 1 i) = .ok (some x) ∧ x.asConst = some v

/-- Solving the equality for any tuple variable of the declaration returns. -/
def Exp.Solves (env : Environment) (d : TupleDecl) (e : Exp) : Prop :=
  ∀ i < d.size, d.elemIsConst i = false → ∃ r, e.solveForFactor env (.tupleVar 1 i) = .ok r

namespace Conjunction

/-- An equality of the conjunction gives the tuple variable the constant. -/
def Fixes (env : Environment) (c : Conjunction) (e : Exp) (i : Nat) (v : Int) : Prop :=
  e ∈ c.equalities ∧ e.Gives env c.tupleDecl i v

/-- The equality is not the same as one that gives a constant. -/
def Stays (env : Environment) (c : Conjunction) (e : Exp) : Prop :=
  e ∈ c.equalities ∧ ∀ d i v, c.Fixes env d i v → ¬ Tied Exp.lt e d

end Conjunction

section Found

variable {env : Environment} {d : TupleDecl} {e : Exp}

theorem mem_constants : ∀ {is : List Nat} {l : List (Nat × Int)}, e.constants env d is = .ok l →
    (∀ i ∈ is, d.elemIsConst i = false → ∃ r, e.solveForFactor env (.tupleVar 1 i) = .ok r) ∧
      ∀ i v, (i, v) ∈ l ↔ i ∈ is ∧ d.elemIsConst i = false ∧
        ∃ x, e.solveForFactor env (.tupleVar 1 i) = .ok (some x) ∧ x.asConst = some v
  | [], l, h => by
    cases h
    simp
  | j :: is, l, h => by
    rw [Exp.constants] at h
    split_ifs at h with hj
    · obtain ⟨hsolve, hmem⟩ := mem_constants h
      refine ⟨List.forall_mem_cons.2 ⟨fun hf => ?_, hsolve⟩, fun i v => ?_⟩
      · rw [hj] at hf
        cases hf
      · rw [hmem, List.mem_cons]
        refine and_congr_left fun hi => ⟨.inr, fun hi' => hi'.elim (fun heq => ?_) id⟩
        rw [heq, hj] at hi
        cases hi.1
    · rw [TupleDecl.elemCreateTerm, if_neg hj] at h
      simp only [bind_eq_ok] at h
      obtain ⟨r, hr, rest, hrest, h⟩ := h
      obtain ⟨hsolve, hmem⟩ := mem_constants hrest
      refine ⟨List.forall_mem_cons.2 ⟨fun _ => ⟨r, hr⟩, hsolve⟩, fun i v => ?_⟩
      have hj' : d.elemIsConst j = false := by simpa using hj
      have hone : (∃ x, e.solveForFactor env (.tupleVar 1 j) = .ok (some x) ∧ x.asConst = some v) ↔
          r.bind Exp.asConst = some v := by
        rw [hr, Option.bind_eq_some_iff]
        simp only [Except.ok.injEq]
      cases hv : r.bind Exp.asConst with
      | none =>
        rw [hv] at h
        cases h
        rw [hmem, List.mem_cons]
        refine ⟨fun hi => ⟨.inr hi.1, hi.2⟩, fun hi => ⟨hi.1.elim (fun heq => ?_) id, hi.2⟩⟩
        have hx := hi.2.2
        rw [heq, hone, hv] at hx
        cases hx
      | some w =>
        rw [hv] at h hone
        cases h
        rw [List.mem_cons, hmem, List.mem_cons, Prod.mk.injEq]
        constructor
        · rintro (⟨rfl, rfl⟩ | hi)
          · exact ⟨.inl rfl, hj', hone.2 rfl⟩
          · exact ⟨.inr hi.1, hi.2⟩
        · rintro ⟨rfl | hi, hd, hx⟩
          · exact .inl ⟨rfl, (Option.some.inj (hone.1 hx)).symm⟩
          · exact .inr ⟨hi, hd, hx⟩

theorem exists_constants : ∀ {is : List Nat},
    (∀ i ∈ is, d.elemIsConst i = false → ∃ r, e.solveForFactor env (.tupleVar 1 i) = .ok r) →
    ∃ l, e.constants env d is = .ok l
  | [], _ => ⟨_, rfl⟩
  | j :: is, h => by
    obtain ⟨hj, his⟩ := List.forall_mem_cons.1 h
    obtain ⟨rest, hrest⟩ := exists_constants his
    rw [Exp.constants]
    split_ifs with hc
    · exact ⟨rest, hrest⟩
    · obtain ⟨r, hr⟩ := hj (by simpa using hc)
      rw [TupleDecl.elemCreateTerm, if_neg hc]
      simp only [hr, hrest, bind, Except.bind]
      cases r.bind Exp.asConst with
      | none => exact ⟨_, rfl⟩
      | some v => exact ⟨_, rfl⟩

/-- The lists that are found, put together, and the equalities with one that is not empty. -/
theorem mem_found {G : Exp → Nat → Int → Prop} {es : List Exp} {found : List (List (Nat × Int))}
    (h : List.Forall₂ (fun e l => ∀ i v, (i, v) ∈ l ↔ G e i v) es found) :
    (∀ i v, (i, v) ∈ found.flatten ↔ ∃ e ∈ es, G e i v) ∧
      ∀ e, e ∈ ((es.zip found).filter (fun p => !p.2.isEmpty)).map Prod.fst ↔ e ∈ es ∧ ∃ i v, G e i v := by
  induction h with
  | nil => simp
  | @cons a l es found hal _ ih =>
    obtain ⟨ih₁, ih₂⟩ := ih
    refine ⟨fun i v => ?_, fun e => ?_⟩
    · rw [List.flatten_cons, List.mem_append, hal, ih₁, List.exists_mem_cons_iff]
    · have hne : (!l.isEmpty) = true ↔ ∃ i v, G a i v := by
        cases l with
        | nil =>
          simp only [List.not_mem_nil, false_iff] at hal
          simp only [List.isEmpty_nil, Bool.not_true, Bool.false_eq_true, false_iff]
          rintro ⟨i, v, hg⟩
          exact hal i v hg
        | cons p l =>
          simp only [List.isEmpty_cons, Bool.not_false, true_iff]
          exact ⟨p.1, p.2, (hal p.1 p.2).1 List.mem_cons_self⟩
      rw [List.zip_cons_cons, List.filter_cons, List.mem_cons]
      split_ifs with hl
      · rw [List.map_cons, List.mem_cons, ih₂]
        constructor
        · rintro (rfl | he)
          · exact ⟨.inl rfl, hne.1 hl⟩
          · exact ⟨.inr he.1, he.2⟩
        · rintro ⟨rfl | he, hg⟩
          · exact .inl rfl
          · exact .inr ⟨he, hg⟩
      · rw [ih₂]
        refine ⟨fun he => ⟨.inr he.1, he.2⟩, fun he => ⟨he.1.elim (fun heq => ?_) id, he.2⟩⟩
        have hg := he.2
        rw [heq] at hg
        exact absurd (hne.2 hg) hl

end Found

/-! ## The declaration -/

namespace TupleDecl

theorem elem_setTupleConst (d : TupleDecl) {i : Nat} (j : Nat) (v : Int) (hi : i < d.size) :
    (d.setTupleConst i v).elem j = if j = i then { d.elem i with isConst := true, constVal := v } else d.elem j := by
  have hi' : i < d.elems.length := hi
  unfold elem setTupleConst
  simp only [List.getD_eq_getElem?_getD, List.getElem?_modify]
  by_cases hij : j = i
  · subst hij
    simp [List.getElem?_eq_getElem hi']
  · simp [hij, Ne.symm hij]

theorem size_setTupleConst (d : TupleDecl) (i : Nat) (v : Int) : (d.setTupleConst i v).size = d.size := by
  simp [size, setTupleConst]

/-- The declaration with constants put in one after the other: a variable has one of those that it was given. -/
theorem foldl_setTupleConst : ∀ {found : List (Nat × Int)} {d : TupleDecl}, (∀ p ∈ found, p.1 < d.size) →
    (found.foldl (fun d p => d.setTupleConst p.1 p.2) d).size = d.size ∧
    (∀ j, (∀ v, (j, v) ∉ found) → (found.foldl (fun d p => d.setTupleConst p.1 p.2) d).elem j = d.elem j) ∧
    ∀ j, (∃ v, (j, v) ∈ found) → (found.foldl (fun d p => d.setTupleConst p.1 p.2) d).elemIsConst j = true ∧
      (j, (found.foldl (fun d p => d.setTupleConst p.1 p.2) d).elemConstVal j) ∈ found
  | [], d, _ => ⟨rfl, fun _ _ => rfl, fun j ⟨v, hv⟩ => by cases hv⟩
  | (i, w) :: found, d, h => by
    obtain ⟨hi, hrest⟩ := List.forall_mem_cons.1 h
    have hrest' : ∀ p ∈ found, p.1 < (d.setTupleConst i w).size := by
      rw [size_setTupleConst]
      exact hrest
    obtain ⟨hsize, hold, hnew⟩ := foldl_setTupleConst hrest'
    rw [List.foldl_cons]
    refine ⟨hsize.trans (size_setTupleConst d i w), fun j hj => ?_, fun j hj => ?_⟩
    · have hji : j ≠ i := fun hji => hj w (by rw [hji]; exact List.mem_cons_self)
      rw [hold j fun v hv => hj v (List.mem_cons_of_mem _ hv), elem_setTupleConst d j w hi, if_neg hji]
    · by_cases hlater : ∃ v, (j, v) ∈ found
      · exact ⟨(hnew j hlater).1, List.mem_cons_of_mem _ (hnew j hlater).2⟩
      · -- no later equality gives this variable a constant
        obtain rfl : j = i := by
          obtain ⟨v, hv⟩ := hj
          rcases List.mem_cons.1 hv with heq | hv
          · exact congrArg Prod.fst heq
          · exact absurd ⟨v, hv⟩ hlater
        have helem := hold j fun v hv => hlater ⟨v, hv⟩
        rw [elem_setTupleConst d j w hi, if_pos rfl] at helem
        rw [elemIsConst, elemConstVal, helem]
        exact ⟨rfl, List.mem_cons_self⟩

end TupleDecl

namespace Conjunction

section Push

variable {env : Environment} {c c' : Conjunction}

/-- What `pushConstConstraintsToTupleDecl` makes of a conjunction. -/
structure Pushed (env : Environment) (c c' : Conjunction) : Prop where
  equalities : ∀ e, e ∈ c'.equalities ↔ c.Stays env e
  inequalities : c'.inequalities = c.inequalities
  size : c'.tupleDecl.size = c.tupleDecl.size
  kept : ∀ j, (∀ e v, ¬ c.Fixes env e j v) → c'.tupleDecl.elem j = c.tupleDecl.elem j
  given : ∀ j, (∃ e v, c.Fixes env e j v) → c'.tupleDecl.elemIsConst j = true ∧
    ∃ e, c.Fixes env e j (c'.tupleDecl.elemConstVal j)

theorem pushed_of_push (h : c.pushConstConstraintsToTupleDecl env = .ok c') :
    c.Pushed env c' ∧ ∀ e ∈ c.equalities, e.Solves env c.tupleDecl := by
  simp only [pushConstConstraintsToTupleDecl, bind_eq_ok] at h
  obtain ⟨found, hfound, h⟩ := h
  have hall := Outcome.forall₂_of_mapM hfound
  have hgives : List.Forall₂ (fun e l => ∀ i v, (i, v) ∈ l ↔ e.Gives env c.tupleDecl i v) c.equalities found :=
    hall.imp fun e l hel i v => by rw [(mem_constants hel).2, List.mem_range]; rfl
  obtain ⟨hflat, hremove⟩ := mem_found hgives
  have hmem : ∀ j v, (j, v) ∈ found.flatten ↔ ∃ e, c.Fixes env e j v := by
    intro j v
    rw [hflat]
    exact ⟨fun ⟨e, he, hg⟩ => ⟨e, he, hg⟩, fun ⟨e, he, hg⟩ => ⟨e, he, hg⟩⟩
  have hlt : ∀ p ∈ found.flatten, p.1 < c.tupleDecl.size := by
    rintro ⟨j, v⟩ hp
    obtain ⟨e, -, hg⟩ := (hmem j v).1 hp
    exact hg.1
  obtain ⟨hsize, hold, hnew⟩ := TupleDecl.foldl_setTupleConst hlt
  refine ⟨?_, fun e he i hi hc => ?_⟩
  · cases h
    refine ⟨fun e => ?_, rfl, hsize, fun j hj => hold j fun v hv => ?_, fun j hj => ?_⟩
    · rw [List.mem_filter, Bool.not_eq_true', List.any_eq_false]
      refine and_congr_right fun _ => ⟨fun hno d i v hd ht => ?_, fun hno d hd => ?_⟩
      · exact hno d ((hremove d).2 ⟨hd.1, i, v, hd.2⟩) (decide_eq_true ht)
      · obtain ⟨hde, i, v, hg⟩ := (hremove d).1 hd
        rw [decide_eq_true_eq]
        exact hno d i v ⟨hde, hg⟩
    · obtain ⟨e, he⟩ := (hmem j v).1 hv
      exact hj e v he
    · obtain ⟨e, v, he⟩ := hj
      obtain ⟨h₁, h₂⟩ := hnew j ⟨v, (hmem j v).2 ⟨e, he⟩⟩
      exact ⟨h₁, (hmem _ _).1 h₂⟩
  · obtain ⟨l, -, hl⟩ := Outcome.exists_of_mem_forall₂ hall.flip he
    exact (mem_constants hl).1 i (List.mem_range.2 hi) hc

theorem exists_push (h : ∀ e ∈ c.equalities, e.Solves env c.tupleDecl) :
    ∃ c', c.pushConstConstraintsToTupleDecl env = .ok c' := by
  obtain ⟨found, hfound⟩ := Outcome.exists_mapM (l := c.equalities)
    (f := fun e => e.constants env c.tupleDecl (List.range c.arity))
    fun e he => exists_constants fun i hi hc => h e he i (List.mem_range.1 hi) hc
  simp only [pushConstConstraintsToTupleDecl, bind_eq_ok]
  exact ⟨_, found, hfound, rfl⟩

/-- What is declared constant after the push: what was declared so, and what an equality gives a constant. -/
theorem Pushed.elemIsConst_iff (h : c.Pushed env c') (j : Nat) : c'.tupleDecl.elemIsConst j = false ↔
    c.tupleDecl.elemIsConst j = false ∧ ∀ e v, ¬ c.Fixes env e j v := by
  by_cases hj : ∃ e v, c.Fixes env e j v
  · have hconst := (h.given j hj).1
    obtain ⟨e, v, he⟩ := hj
    simp only [hconst, Bool.true_eq_false, false_iff]
    exact fun hno => hno.2 e v he
  · have hno : ∀ e v, ¬ c.Fixes env e j v := fun e v he => hj ⟨e, v, he⟩
    rw [TupleDecl.elemIsConst, h.kept j hno]
    exact ⟨fun hc => ⟨hc, hno⟩, fun hc => hc.1⟩

/-- The declaration after the push admits the tuples with the old constants and, for each variable that is given some,
one of the new. -/
theorem Pushed.admits_iff (h : c.Pushed env c') {t : List Int} : c'.tupleDecl.Admits t ↔ c.tupleDecl.Admits t ∧
    ∀ j, (∃ e v, c.Fixes env e j v) → valuation t j = c'.tupleDecl.elemConstVal j := by
  constructor
  · rintro ⟨hlen, hconst⟩
    refine ⟨⟨hlen.trans h.size, fun i hi hc => ?_⟩, fun j hj => ?_⟩
    · have hno : ∀ e v, ¬ c.Fixes env e i v := by
        intro e v he
        have hfalse := he.2.2.1
        rw [hc] at hfalse
        cases hfalse
      have hi' := hconst i (by rw [h.size]; exact hi)
      rw [TupleDecl.elemIsConst, TupleDecl.elemConstVal, h.kept i hno] at hi'
      exact hi' hc
    · have hlt : j < c'.tupleDecl.size := by
        obtain ⟨e, v, he⟩ := hj
        rw [h.size]
        exact he.2.1
      exact hconst j hlt (h.given j hj).1
  · rintro ⟨⟨hlen, hconst⟩, hgiven⟩
    refine ⟨hlen.trans h.size.symm, fun i hi hc => ?_⟩
    by_cases hj : ∃ e v, c.Fixes env e i v
    · exact hgiven i hj
    · have hno : ∀ e v, ¬ c.Fixes env e i v := fun e v he => hj ⟨e, v, he⟩
      rw [TupleDecl.elemIsConst, h.kept i hno] at hc
      rw [TupleDecl.elemConstVal, h.kept i hno]
      exact hconst i (by rw [← h.size]; exact hi) hc

end Push

end Conjunction

/-! ## The value of a solution -/

section Solution

variable {env : Environment} {e x : Exp} {i : Nat} {v : Int} {I : Interp} {τ : Nat → Int}

theorem val_of_asConst (h : x.asConst = some v) : x.val I τ = scalar v := by
  obtain ⟨k, ts⟩ := x
  unfold Exp.asConst at h
  split_ifs at h with h0
  · cases h
    rcases ts with _ | ⟨t, _ | ⟨u, us⟩⟩
    · funext j
      cases j <;> rfl
    · have hz : t.coefficient = 0 := by simpa [Exp.equalsZero] using h0
      funext j
      rw [Exp.val_eq, Exp.terms_mk, termsVal_cons, termsVal_nil, Term.val_of_coefficient_zero hz]
      cases j <;> rfl
    · cases h0
  · split at h
    · next c ht =>
      cases h
      rcases ts with _ | ⟨t, _ | ⟨u, us⟩⟩
      · cases ht
      · rw [Exp.getTerm, Exp.terms_mk, Option.some.injEq] at ht
        rw [ht]
        funext j
        rw [Exp.val_eq, Exp.terms_mk, termsVal_cons, termsVal_nil, add_zero, Term.val]
      · cases ht
    · cases h

theorem findMatching_eq_none {factor : Term} : ∀ {ts : List Term}, findMatching factor e ts = .ok none →
    ts.find? (fun t => t.factorMatches factor && e.isDivisible t.coefficient) = none
  | [], _ => rfl
  | t :: ts, h => by
    rw [findMatching] at h
    rw [List.find?_cons]
    split_ifs at h with hm h0 hd
    · cases h
    · rw [hm, Bool.true_and, Bool.eq_false_iff.2 hd]
      exact findMatching_eq_none h
    · rw [Bool.eq_false_iff.2 hm, Bool.false_and]
      exact findMatching_eq_none h

/-- A tuple variable is always merged right. -/
theorem takesRight_tupleVar (cod : String → Nat) (t : Term) : e.TakesRight cod (.tupleVar 1 i) t := by
  intro p hp
  simp only [termsMerged, Term.multiplyBy, Term.setCoefficient, Term.merged] at hp
  split_ifs at hp
  · cases hp
  · rw [List.append_nil] at hp
    split at hp
    · obtain rfl := List.mem_singleton.1 hp
      trivial
    · cases hp

/-- The equality is solved right: the variable stands at its top level, or is exposed by a call that is. -/
def Exp.GivesRight (env : Environment) (dom cod : String → Nat) (e : Exp) (i : Nat) : Prop :=
  (e.matchingTerm (.tupleVar 1 i)).isSome = true ∨
    (e.SolvesRight env dom cod (.tupleVar 1 i) ∧ e.ExposedAlone env (.tupleVar 1 i) ∧ e.FitsCall env cod (.tupleVar 1 i))

/-- The equality holds where the tuple variable is the constant. -/
theorem Exp.Gives.holdsEq_iff {d : TupleDecl} (h : e.Gives env d i v) (hr : e.GivesRight env I.dom I.cod i)
    (hI : I.Consistent env) : e.HoldsEq I τ ↔ τ i = v := by
  obtain ⟨-, -, x, hx, hv⟩ := h
  have hval : (Term.tupleVar 1 i).val I τ = x.val I τ ↔ τ i = v := by
    rw [val_of_asConst hv, Term.val, one_mul]
    exact ⟨fun heq => congrFun heq 0, fun heq => by rw [heq]⟩
  rw [← hval]
  rcases hr with htop | ⟨hsolves, hexp, hfit⟩
  · rw [Exp.solveForFactor, if_neg (by simp [Term.coefficient])] at hx
    rw [bind_eq_ok] at hx
    obtain ⟨m, hm, hx⟩ := hx
    rw [Exp.findMatchingFactor, if_neg (by simp [Term.coefficient])] at hm
    cases m with
    | none =>
      rw [Exp.matchingTerm, findMatching_eq_none hm] at htop
      cases htop
    | some t =>
      obtain ⟨-, -, h0, hd⟩ := findMatching_eq_some hm
      simp only [hd, if_true, bind_eq_ok] at hx
      obtain ⟨x', hx', heq⟩ := hx
      cases heq
      exact Exp.holdsEq_iff_of_solution hx' (takesRight_tupleVar _ t) h0
  · obtain ⟨r, hr, hsound⟩ := Exp.solveForFactor_solves env I.dom I.cod e (.tupleVar 1 i) rfl hsolves fun _ => hfit
    rw [hx] at hr
    cases hr
    obtain ⟨h₁, h₂⟩ := hsound x rfl I rfl rfl hI τ
    exact ⟨h₁, h₂ hexp⟩

end Solution

/-! ## The tuples of a conjunction with its constants declared -/

namespace Conjunction

/-- All solving returns; of the constraints that are left none mentions a variable that is given a constant, or was
declared one; and no variable is given two constants, unless what is left has no tuple at all. -/
structure PushesRight (env : Environment) (dom cod : String → Nat) (c : Conjunction) : Prop where
  solves : ∀ e ∈ c.equalities, e.Solves env c.tupleDecl
  gone : ∀ e, (c.Stays env e ∨ e ∈ c.inequalities) →
    e.VarsIn (fun l => c.tupleDecl.elemIsConst l = false ∧ ∀ d v, ¬ c.Fixes env d l v)
  agree : (∀ d d' i v v', c.Fixes env d i v → c.Fixes env d' i v' → v = v') ∨
    ∀ I : Interp, I.dom = dom → I.cod = cod → I.Consistent env → ∀ t, c.tupleDecl.Admits t →
      ¬ ((∀ e, c.Stays env e → e.HoldsEq I (valuation t)) ∧ ∀ e ∈ c.inequalities, e.HoldsGe I (valuation t))

/-- The tuples are the same, no constraint mentions a declared constant, and the conjunction can be printed (when it can
be cleaned up, which is the first thing that printing does). -/
structure KeepsTuples (env : Environment) (dom cod : String → Nat) (c c' : Conjunction) : Prop where
  denotes : ∀ I : Interp, I.dom = dom → I.cod = cod → I.Consistent env → c'.denote I = c.denote I
  undeclared : c'.VarsIn (fun l => c'.tupleDecl.elemIsConst l = false)
  prints : (∃ d, c'.cleanUp env = .ok d) → ∃ s, c'.prettyPrintString env = .ok s

section Denotes

variable {env : Environment} {c c' : Conjunction} {I : Interp} {t : List Int}

/-- The tuples of the conjunction: those that meet what stays, with all constants that equalities give. -/
theorem mem_denote_iff (hr : c.readable = true) (hright : ∀ e i v, c.Fixes env e i v → e.GivesRight env I.dom I.cod i)
    (hI : I.Consistent env) : t ∈ c.denote I ↔ c.tupleDecl.Admits t ∧
      ((∀ e, c.Stays env e → e.HoldsEq I (valuation t)) ∧ ∀ e ∈ c.inequalities, e.HoldsGe I (valuation t)) ∧
      ∀ e i v, c.Fixes env e i v → valuation t i = v := by
  obtain ⟨heqs, -⟩ := readable_iff.1 hr
  have hfix : ∀ e i v, c.Fixes env e i v → (e.HoldsEq I (valuation t) ↔ valuation t i = v) :=
    fun e i v h => h.2.holdsEq_iff (hright e i v h) hI
  refine and_congr_right fun _ => ⟨fun h => ⟨⟨fun e he => h.1 e he.1, h.2⟩, fun e i v he => (hfix e i v he).1 (h.1 e he.1)⟩,
    fun ⟨⟨hstay, hge⟩, hgiven⟩ => ⟨fun e he => ?_, hge⟩⟩
  by_cases hs : c.Stays env e
  · exact hstay e hs
  · -- it is the same as an equality that gives a constant
    simp only [Stays, not_and, not_forall, not_not] at hs
    obtain ⟨d, i, v, hd, htied⟩ := hs he
    have hhold := (hfix d i v hd).2 (hgiven d i v hd)
    intro k
    rw [Exp.val_of_tied (Exp.comparable_of_readable (heqs e he)) (Exp.comparable_of_readable (heqs d hd.1)) htied]
    exact hhold k

/-- The tuples after the push: those that meet what stays, with one of the constants for each variable. -/
theorem Pushed.mem_denote_iff (h : c.Pushed env c') : t ∈ c'.denote I ↔ c.tupleDecl.Admits t ∧
    ((∀ e, c.Stays env e → e.HoldsEq I (valuation t)) ∧ ∀ e ∈ c.inequalities, e.HoldsGe I (valuation t)) ∧
      ∀ j, (∃ e v, c.Fixes env e j v) → valuation t j = c'.tupleDecl.elemConstVal j := by
  have hholds : c'.Holds I (valuation t) ↔ (∀ e, c.Stays env e → e.HoldsEq I (valuation t)) ∧
      ∀ e ∈ c.inequalities, e.HoldsGe I (valuation t) := by
    rw [Holds, h.inequalities]
    exact and_congr_left fun _ => ⟨fun hall e he => hall e ((h.equalities e).2 he),
      fun hall e he => hall e ((h.equalities e).1 he)⟩
  show c'.tupleDecl.Admits t ∧ c'.Holds I (valuation t) ↔ _
  rw [h.admits_iff, hholds, and_assoc]
  exact and_congr_right fun _ => and_comm

/-- Some tuple meets what is left of the constraints, with the new constants. -/
theorem Pushed.exists_mem_denote (h : c.Pushed env c') (hgone : c'.VarsIn (fun l => c'.tupleDecl.elemIsConst l = false))
    (ht : c.tupleDecl.Admits t)
    (hstay : (∀ e, c.Stays env e → e.HoldsEq I (valuation t)) ∧ ∀ e ∈ c.inequalities, e.HoldsGe I (valuation t)) :
    ∃ u, u ∈ c'.denote I := by
  obtain ⟨u, hu⟩ : ∃ u : List Int, u = (List.range c.tupleDecl.size).map fun l =>
      if c'.tupleDecl.elemIsConst l then c'.tupleDecl.elemConstVal l else valuation t l := ⟨_, rfl⟩
  have hlen : u.length = c.tupleDecl.size := by rw [hu, List.length_map, List.length_range]
  have hval : ∀ l < c.tupleDecl.size,
      valuation u l = if c'.tupleDecl.elemIsConst l then c'.tupleDecl.elemConstVal l else valuation t l := by
    intro l hl
    rw [hu, valuation, List.getD_eq_getElem?_getD, List.getElem?_map, List.getElem?_range hl]
    rfl
  -- what is left mentions none of the constants, so it does not tell the two tuples apart
  have hsame : c'.Holds I (valuation t) ↔ c'.Holds I (valuation u) := by
    refine holds_congr hgone fun l hl => ?_
    rcases Nat.lt_or_ge l c.tupleDecl.size with hlt | hge
    · rw [hval l hlt, hl]
      rfl
    · rw [valuation, valuation, List.getD_eq_default _ _ (by rw [ht.1]; exact hge),
        List.getD_eq_default _ _ (by rw [hlen]; exact hge)]
  refine ⟨u, ⟨hlen.trans h.size.symm, fun i hi hc => ?_⟩, hsame.1 ?_⟩
  · rw [hval i (by rw [← h.size]; exact hi), if_pos hc]
  · rw [Holds, h.inequalities]
    exact ⟨fun e he => hstay.1 e ((h.equalities e).1 he), hstay.2⟩

/-- `pushConstToConstraints` keeps the tuples. -/
theorem denote_pushConstToConstraints (hr : c.readable = true) : c.pushConstToConstraints.denote I = c.denote I := by
  ext t
  obtain ⟨-, -, hsize, -, hconst, -⟩ := foldl_pushConst (I := I) (τ := valuation t) hr c.arity
  have hadmits : c.pushConstToConstraints.tupleDecl.Admits t ↔ t.length = c.arity := by
    refine ⟨fun h => h.1.trans hsize, fun h => ⟨h.trans hsize.symm, fun i hi hc => ?_⟩⟩
    have hlt : i < c.arity := by
      rw [← hsize]
      exact hi
    rw [pushConstToConstraints, hconst i hlt] at hc
    cases hc
  show c.pushConstToConstraints.tupleDecl.Admits t ∧ _ ↔ _
  rw [hadmits]
  refine ⟨fun h => (holds_pushConstToConstraints hr h.1).1 h.2, fun h => ⟨h.1.1, (holds_pushConstToConstraints hr h.1.1).2 h⟩⟩

end Denotes

/-- `pushConstToConstraints` keeps the tuples. `pushConstConstraintsToTupleDecl` returns, keeps the tuples and leaves no
mention of a declared constant iff the variables that are given constants are mentioned nowhere else, and given one
constant each (where the constants are right). -/
theorem pushConst_denotes (env : Environment) (dom cod : String → Nat) (c : Conjunction) (hr : c.readable = true)
    (hright : ∀ e i v, c.Fixes env e i v → e.GivesRight env dom cod i) :
    (∀ I, c.pushConstToConstraints.denote I = c.denote I) ∧
      ((∃ c', c.pushConstConstraintsToTupleDecl env = .ok c' ∧ c.KeepsTuples env dom cod c') ↔ c.PushesRight env dom cod) := by
  refine ⟨fun I => denote_pushConstToConstraints hr, ?_⟩
  have hundeclared : ∀ {c'}, c.Pushed env c' → (c'.VarsIn (fun l => c'.tupleDecl.elemIsConst l = false) ↔
      ∀ e, (c.Stays env e ∨ e ∈ c.inequalities) →
        e.VarsIn (fun l => c.tupleDecl.elemIsConst l = false ∧ ∀ d v, ¬ c.Fixes env d l v)) := by
    intro c' hp
    have hpred : (fun l => c'.tupleDecl.elemIsConst l = false) =
        fun l => c.tupleDecl.elemIsConst l = false ∧ ∀ d v, ¬ c.Fixes env d l v :=
      funext fun l => propext (hp.elemIsConst_iff l)
    rw [VarsIn, hpred, hp.inequalities]
    simp only [List.mem_append, hp.equalities]
  constructor
  · rintro ⟨c', hpush, hkeeps⟩
    obtain ⟨hp, hsolves⟩ := pushed_of_push hpush
    refine ⟨hsolves, (hundeclared hp).1 hkeeps.undeclared, ?_⟩
    by_cases hagree : ∀ d d' i v v', c.Fixes env d i v → c.Fixes env d' i v' → v = v'
    · exact .inl hagree
    · -- two constants for one variable: no tuple before, so none after
      refine .inr fun I hdom hcod hI t ht hstay => ?_
      subst hdom hcod
      obtain ⟨u, hu⟩ := hp.exists_mem_denote hkeeps.undeclared ht hstay
      rw [hkeeps.denotes I rfl rfl hI, mem_denote_iff hr hright hI] at hu
      apply hagree
      intro d d' i v v' hd hd'
      exact (hu.2.2 d i v hd).symm.trans (hu.2.2 d' i v' hd')
  · intro h
    obtain ⟨c', hpush⟩ := exists_push h.solves
    obtain ⟨hp, -⟩ := pushed_of_push hpush
    have hvars := (hundeclared hp).2 h.gone
    refine ⟨c', hpush, fun I hdom hcod hI => ?_, hvars, exists_prettyPrint hvars⟩
    subst hdom hcod
    ext t
    rw [hp.mem_denote_iff, mem_denote_iff hr hright hI]
    refine and_congr_right fun ht => and_congr_right fun hstay => ?_
    rcases h.agree with hagree | hnone
    · constructor
      · intro hgiven e i v he
        obtain ⟨-, d, hd⟩ := hp.given i ⟨e, v, he⟩
        rw [hgiven i ⟨e, v, he⟩]
        exact hagree d e i _ v hd he
      · intro hgiven j hj
        obtain ⟨-, d, hd⟩ := hp.given j hj
        exact hgiven d j _ hd
    · exact absurd hstay (hnone I rfl rfl hI t ht)

/-- `[i] : i = 4 && i = 3` -/
def twiceFixedConj : Conjunction :=
  ⟨[.mk .equality [.tupleVar 1 0, .constVal (-4)], .mk .equality [.tupleVar 1 0, .constVal (-3)]], [], ⟨[⟨false, 0, "i"⟩]⟩, 0⟩

/-- `[i, j] : i = 3 && j - f( i ) = 0` -/
def fixedInCallConj : Conjunction :=
  ⟨[.mk .equality [.tupleVar 1 0, .constVal (-3)], .mk .equality [.tupleVar 1 1, .ufCall (-1) "f" [.ofTerm (.tupleVar 1 0)] none]],
    [], ⟨[⟨false, 0, "i"⟩, ⟨false, 0, "j"⟩]⟩, 0⟩

/-- Of two constants the last is left, and a call still mentions what is now a constant, so that it cannot be printed. -/
theorem pushConst_loses :
    (∃ c', twiceFixedConj.pushConstConstraintsToTupleDecl invertibleF = .ok c' ∧ ∃ I : Interp, I.Consistent invertibleF ∧
      c'.denote I ≠ twiceFixedConj.denote I) ∧
    ∃ c', fixedInCallConj.pushConstConstraintsToTupleDecl invertibleF = .ok c' ∧
      ∃ what, c'.prettyPrintString invertibleF = .error (.assertException what) := by
  refine ⟨⟨⟨[], [], ⟨[⟨true, 3, "i"⟩]⟩, 0⟩, rfl, ⟨fun _ => 0, fun _ as => as, fun _ => 1, fun _ => 1⟩, ?_, fun h => ?_⟩,
    _, rfl, _, rfl⟩
  · exact fun f _ => ⟨⟨rfl, rfl, fun _ h => h, fun _ _ => rfl⟩, ⟨rfl, rfl, fun _ h => h, fun _ _ => rfl⟩⟩
  · have hmem : [3] ∈ twiceFixedConj.denote ⟨fun _ => 0, fun _ as => as, fun _ => 1, fun _ => 1⟩ := by
      rw [← h]
      refine ⟨⟨rfl, fun i hi _ => ?_⟩, by simp [Holds]⟩
      obtain rfl : i = 0 := Nat.lt_one_iff.1 hi
      rfl
    have hzero := hmem.2.1 _ List.mem_cons_self 0
    exact absurd hzero (by decide)

/-- `[i, j] : i = 3 && f( j ) >= 0` -/
def fixedConj : Conjunction := ⟨[.mk .equality [.tupleVar 1 0, .constVal (-3)]],
  [.mk .inequality [.ufCall 1 "f" [.ofTerm (.tupleVar 1 1)] none]], ⟨[⟨false, 0, "i"⟩, ⟨false, 0, "j"⟩]⟩, 0⟩

/-- Here `i` is mentioned nowhere else. -/
theorem pushConst_denotes_three : (∀ I, fixedConj.pushConstToConstraints.denote I = fixedConj.denote I) ∧
    ∃ c', fixedConj.pushConstConstraintsToTupleDecl invertibleF = .ok c' ∧
      fixedConj.KeepsTuples invertibleF (fun _ => 1) (fun _ => 1) c' := by
  have hfix : ∀ e i v, fixedConj.Fixes invertibleF e i v →
      e = .mk .equality [.tupleVar 1 0, .constVal (-3)] ∧ i = 0 ∧ v = 3 := by
    rintro e i v ⟨he, hi, -, x, hx, hv⟩
    obtain rfl := List.mem_singleton.1 he
    rcases i with _ | _ | i
    · cases hx
      cases hv
      exact ⟨rfl, rfl, rfl⟩
    · cases hx
    · exact absurd hi (by simp [TupleDecl.size, fixedConj])
  have hright : ∀ e i v, fixedConj.Fixes invertibleF e i v → e.GivesRight invertibleF (fun _ => 1) (fun _ => 1) i := by
    intro e i v h
    obtain ⟨rfl, rfl, -⟩ := hfix e i v h
    exact .inl rfl
  obtain ⟨htuples, hiff⟩ := pushConst_denotes invertibleF (fun _ => 1) (fun _ => 1) fixedConj (by decide) hright
  refine ⟨htuples, hiff.2 ⟨fun e he i hi _ => ?_, fun e he => ?_, .inl fun d d' i v v' h h' => ?_⟩⟩
  · obtain rfl := List.mem_singleton.1 he
    rcases i with _ | _ | i
    · exact ⟨_, rfl⟩
    · exact ⟨_, rfl⟩
    · exact absurd hi (by simp [TupleDecl.size, fixedConj])
  · rcases he with ⟨he, hstay⟩ | he
    · obtain rfl := List.mem_singleton.1 he
      exact absurd (by decide) (hstay _ 0 3 ⟨he, by decide, rfl, _, rfl, rfl⟩)
    · obtain rfl := List.mem_singleton.1 he
      refine ⟨⟨⟨⟨rfl, fun d v h => ?_⟩, trivial⟩, trivial⟩, trivial⟩
      exact absurd (hfix d 1 v h).2.1 (by decide)
  · exact (hfix d i v h).2.2.trans (hfix d' i v' h').2.2.symm

end Conjunction

end IEGen
