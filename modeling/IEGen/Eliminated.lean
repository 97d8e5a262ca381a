import IEGen.Compose
import IEGen.Nested
import IEGen.Simultaneous

/-!
# Eliminating inner variables

`Compose` and `Apply` put the constraints of both operands side by side, with the variables to be eliminated behind the others,
look for a function of the others for each of them, replace them all at once, cut the declaration and push the constants into
it. Where the functions are found and put right, the tuples before the constants are pushed are those that can be extended
by the inner variables (`mem_denote_truncated`). The push can give a variable two constants: then the last one is declared and
all equalities that give one are dropped (`Pushed.denote_eq_iff`).
-/

namespace IEGen

open Outcome (bind_eq_ok)
open SortedList (Tied)

/-! ## Integers put for tuple variables -/

/-- The expression is an integer: its calls are indexed, or their functions have one component. -/
def Exp.UsedAsInteger (cod : String → Nat) (e : Exp) : Prop := ∀ t ∈ e.terms, t.UsedAs cod false

theorem Exp.UsedAsInteger.val_eq {e : Exp} {I : Interp} {τ : Nat → Int} (h : e.UsedAsInteger I.cod) (hr : e.readable = true) :
    e.val I τ = scalar (e.val I τ 0) := by
  funext k
  cases k with
  | zero => rfl
  | succ k =>
    have hzero : ∀ t ∈ e.terms, t.val I τ (k + 1) = 0 := by
      intro t ht
      have hused := h t ht
      have hread := Exp.readable_iff.1 hr t ht
      cases t with
      | ufCall c f as i =>
        cases i with
        | none =>
          have hcod : I.cod f = 1 := hused.1 rfl
          simp [Term.val, Interp.callVal, hcod]
        | some j => rfl
      | tupleExp => cases hread
      | _ => rfl
    rw [Exp.val_eq, scalar_succ]
    generalize e.terms = ts at hzero
    induction ts with
    | nil => rfl
    | cons t ts ih =>
      obtain ⟨ht, hts⟩ := List.forall_mem_cons.1 hzero
      rw [termsVal_cons, ht, ih hts, add_zero]

/-- The tuple variables that the map replaces have the values of their replacements, the others keep theirs. -/
structure SubMap.Puts (m : SubMap) (I : Interp) (τ τ' : Nat → Int) : Prop where
  key : ∀ p ∈ m, ∃ l x, p = (.tupleVar 1 l, some x) ∧ x.val I τ = scalar (τ' l)
  other : ∀ l, (∀ p ∈ m, p.1 ≠ .tupleVar 1 l) → τ' l = τ l

/-- The substitution reads the expression at the other values. -/
theorem SubMap.Puts.val_substitute {m : SubMap} {I : Interp} {τ τ' : Nat → Int} (h : m.Puts I τ τ') (hm : m.Distinct) {e : Exp}
    (he : e.SubstitutesRight I.cod m) : (e.substitute m).val I τ = e.val I τ' := by
  have hassigns : m.Assigns I τ (.ofInterp I τ') := by
    refine ⟨fun p hp x hx => ?_, fun l hl => ?_, fun s _ => rfl⟩
    · obtain ⟨l, y, rfl, hy⟩ := h.key p hp
      cases hx
      rw [hy]
      funext k
      exact one_mul _
    · refine congrArg scalar (h.other l fun p hp heq => ?_)
      obtain ⟨l', x, rfl, -⟩ := h.key p hp
      have hno := hl _ hp rfl
      cases heq
      simp [Term.factorMatches] at hno
  rw [Exp.val_substitute_eq hm hassigns he, Exp.valAt_ofInterp]

namespace Conjunction

/-- The terms that the substitution merges are merged right, and the calls that collapse afterwards collapse right. -/
structure SubstitutesRight (env : Environment) (dom cod : String → Nat) (m : SubMap) (c : Conjunction) : Prop where
  merges : ∀ e ∈ c.equalities ++ c.inequalities, e.SubstitutesRight cod m
  equalities : ∀ e ∈ c.equalities, (e.substitute m).normalizeForEquality.CollapsesRight env dom cod
  inequalities : ∀ e ∈ c.inequalities, (e.substitute m).CollapsesRight env dom cod

section Substitute

variable {env : Environment} {m : SubMap} {c c' : Conjunction} (hr : c.readable = true)
  (hread : ∀ p ∈ m, ∀ x, p.2 = some x → x.readable = true)
include hr hread

theorem readable_substitute : Conjunction.readable
    { c with equalities := c.equalities.map (Exp.substitute m), inequalities := c.inequalities.map (Exp.substitute m) } = true := by
  obtain ⟨hreqs, hrineqs⟩ := readable_iff.1 hr
  have hsub : ∀ t x, m.subExp t = some x → x.readable = true := by
    intro t x hx
    obtain ⟨p, hfind, hpx⟩ := Option.bind_eq_some_iff.1 hx
    exact hread p (List.mem_of_find?_eq_some hfind) x hpx
  rw [readable_iff]
  refine ⟨fun e he => ?_, fun e he => ?_⟩
  · obtain ⟨d, hd, rfl⟩ := List.mem_map.1 he
    exact Exp.readable_substitute hsub (hreqs d hd)
  · obtain ⟨d, hd, rfl⟩ := List.mem_map.1 he
    exact Exp.readable_substitute hsub (hrineqs d hd)

theorem readable_substituteInConstraints (h : c.substituteInConstraints env m = .ok c') : c'.readable = true := by
  have hb := built_cleanUp (readable_substitute hr hread) h
  exact readable_iff.2 ⟨fun e he => (hb.equalities e he).1.readable, fun e he => (hb.inequalities e he).readable⟩

/-- What is left after the substitution holds where the conjunction holds at the other values. -/
theorem holds_substituteInConstraints (hm : m.Distinct) (h : c.substituteInConstraints env m = .ok c')
    {I : Interp} (hI : I.Consistent env) (hs : c.SubstitutesRight env I.dom I.cod m) {τ τ' : Nat → Int} (hp : m.Puts I τ τ') :
    c'.Holds I τ ↔ c.Holds I τ' := by
  rw [holds_cleanUp (readable_substitute hr hread) h hI (fun e he => by
      obtain ⟨d, hd, rfl⟩ := List.mem_map.1 he
      exact hs.equalities d hd) fun e he => by
      obtain ⟨d, hd, rfl⟩ := List.mem_map.1 he
      exact hs.inequalities d hd]
  have hval : ∀ e ∈ c.equalities ++ c.inequalities, (e.substitute m).val I τ = e.val I τ' :=
    fun e he => hp.val_substitute hm (hs.merges e he)
  simp only [Holds, List.forall_mem_map, Exp.HoldsEq, Exp.HoldsGe]
  refine and_congr (forall₂_congr fun e he => ?_) (forall₂_congr fun e he => ?_)
  · rw [hval e (List.mem_append_left _ he)]
  · rw [hval e (List.mem_append_right _ he)]

end Substitute

/-! ## The functions for the inner variables -/

/-- Each inner variable has a function, an integer, that is solved right wherever it is found. -/
structure FindsInner (env : Environment) (dom cod : String → Nat) (m : SubMap) (c : Conjunction) : Prop where
  found : ∀ p ∈ m, ∃ x, p.2 = some x ∧ x.readable = true ∧ x.UsedAsInteger cod
  solved : ∀ p ∈ m, ∀ x, p.2 = some x → ∀ e ∈ c.equalities, e.solveForFactor env p.1 = .ok (some x) →
    e.SolvesRight env dom cod p.1

theorem FindsInner.readable {env : Environment} {dom cod : String → Nat} {m : SubMap} {c : Conjunction}
    (h : c.FindsInner env dom cod m) : ∀ p ∈ m, ∀ x, p.2 = some x → x.readable = true := by
  intro p hp x hx
  obtain ⟨y, hy, hread, -⟩ := h.found p hp
  obtain rfl := Option.some.inj (hy.symm.trans hx)
  exact hread

section Inner

variable {env : Environment} {c : Conjunction} {outer n : Nat} {first last : Int} {m : SubMap}
  (hc : ∀ j < n, c.tupleDecl.elemIsConst (outer + j) = false) (h : innerSubMap env c outer n first last = .ok m)
include hc h

theorem innerSubMap_spec : m.length = n ∧ ∀ j (hj : j < m.length), m[j].1 = .tupleVar 1 (outer + j) ∧
    findSolution env c.arity (outer + j) first last c.equalities = .ok m[j].2 := by
  have hall := Outcome.forall₂_of_mapM h
  have hlen : m.length = n := by rw [← hall.length_eq, List.length_range]
  refine ⟨hlen, fun j hj => ?_⟩
  have hrun := (List.forall₂_iff_get.1 hall).2 j (by rw [List.length_range]; omega) hj
  simp only [List.get_eq_getElem, List.getElem_range, bind_eq_ok] at hrun
  obtain ⟨x, hx, heq⟩ := hrun
  have hvar := hc j (by omega)
  rw [findFunction, if_neg (by rw [hvar]; exact Bool.false_ne_true)] at hx
  rw [← Except.ok.inj heq]
  refine ⟨?_, hx⟩
  rw [TupleDecl.elemCreateTerm, hvar]
  rfl

theorem distinct_innerSubMap : m.Distinct := by
  obtain ⟨-, hm⟩ := innerSubMap_spec hc h
  refine ⟨fun p hp => ?_, ?_⟩
  · obtain ⟨j, hj, rfl⟩ := List.getElem_of_mem hp
    rw [(hm j hj).1]
    rfl
  · rw [List.pairwise_iff_getElem]
    intro i j hi hj hij
    rw [(hm i hi).1, (hm j hj).1]
    simp only [Term.factorMatches, beq_eq_false_iff_ne]
    omega

variable (hlast : last < outer) (hvars : c.VarsIn (· < c.arity)) (harity : c.arity = outer + n)
include hlast hvars harity

/-- A function mentions none of the inner variables. -/
theorem varsIn_inner {j : Nat} (hj : j < m.length) {x : Exp} (hx : m[j].2 = some x) : x.VarsIn (· < outer) := by
  obtain ⟨-, hm⟩ := innerSubMap_spec hc h
  obtain ⟨hkey, hfind⟩ := hm j hj
  rw [hx] at hfind
  obtain ⟨before, e, after, heqs, -, hsolve, hout⟩ := findSolution_spec hfind
  have he : e ∈ c.equalities := heqs ▸ List.mem_append_right before List.mem_cons_self
  rw [dependsOutside_eq_false] at hout
  have hv := hvars e (List.mem_append_left _ he)
  have hlen := (innerSubMap_spec hc h).1
  refine Exp.varsIn_of_dependsOn (Exp.varsIn_solveForFactor hv (show (Term.tupleVar 1 (outer + j)).VarsIn (· < c.arity) by
    rw [harity]
    show outer + j < outer + n
    omega) hsolve) fun l hl hle => hout l hl fun hin => hle ?_
  have := hin.2
  show l < outer
  omega

variable {I : Interp} (hf : c.FindsInner env I.dom I.cod m)
include hf

/-- Where the conjunction holds, the inner variables have the values of their functions. -/
theorem puts_of_holds (hI : I.Consistent env) {t y : List Int} (ht : t.length = outer) (hy : y.length = n)
    (hholds : c.Holds I (valuation (t ++ y))) : m.Puts I (valuation t) (valuation (t ++ y)) := by
  obtain ⟨hlen, hm⟩ := innerSubMap_spec hc h
  have hsame : ∀ l < outer, valuation (t ++ y) l = valuation t l := by
    intro l hl
    rw [valuation, valuation, List.getD_append _ _ _ _ (by omega)]
  refine ⟨fun p hp => ?_, fun l hl => ?_⟩
  · obtain ⟨j, hj, rfl⟩ := List.getElem_of_mem hp
    obtain ⟨hkey, hfind⟩ := hm j hj
    obtain ⟨x, hx, -, -⟩ := hf.found _ hp
    refine ⟨outer + j, x, Prod.ext hkey hx, ?_⟩
    rw [← Exp.val_congr hsame (varsIn_inner hc h hlast hvars harity hj hx)]
    rw [hx] at hfind
    obtain ⟨before, e, after, heqs, -, hsolve, -⟩ := findSolution_spec hfind
    have he : e ∈ c.equalities := heqs ▸ List.mem_append_right before List.mem_cons_self
    have hsolves := hf.solved _ hp x hx e he (by rw [hkey]; exact hsolve)
    rw [hkey] at hsolves
    obtain ⟨r, hr, hsound⟩ := Exp.solveForFactor_of_solvesRight rfl hsolves
    obtain rfl := Except.ok.inj (hr.symm.trans hsolve)
    rw [← (hsound x rfl I rfl rfl hI _).1 (hholds.1 e he), Term.val, one_mul]
  · rcases lt_or_ge l outer with hlt | hge
    · exact hsame l hlt
    · rcases lt_or_ge l (outer + n) with hlt' | hge'
      · -- an inner variable is a key
        have hj : l - outer < m.length := by omega
        refine absurd ?_ (hl _ (List.getElem_mem hj))
        rw [(hm _ hj).1, Nat.add_sub_cancel' hge]
      · rw [valuation, valuation, List.getD_eq_default _ _ (by rw [List.length_append]; omega),
          List.getD_eq_default _ _ (by omega)]

omit hlast hvars harity in
/-- Any values of the others can be extended by those of the functions. -/
theorem exists_puts {t : List Int} (ht : t.length = outer) :
    ∃ y : List Int, y.length = n ∧ m.Puts I (valuation t) (valuation (t ++ y)) := by
  obtain ⟨hlen, hm⟩ := innerSubMap_spec hc h
  refine ⟨m.map fun p => (p.2.map fun x => x.val I (valuation t) 0).getD 0, by rw [List.length_map, hlen],
    fun p hp => ?_, fun l hl => ?_⟩
  · obtain ⟨j, hj, rfl⟩ := List.getElem_of_mem hp
    obtain ⟨x, hx, hread, hint⟩ := hf.found _ hp
    refine ⟨outer + j, x, Prod.ext (hm j hj).1 hx, ?_⟩
    rw [hint.val_eq hread]
    congr 1
    rw [valuation, List.getD_append_right _ _ _ _ (by omega), List.getD_eq_getElem _ _ (by rw [List.length_map]; omega)]
    simp only [List.getElem_map, ht, Nat.add_sub_cancel_left, hx]
    rfl
  · rcases lt_or_ge l outer with hlt | hge
    · rw [valuation, valuation, List.getD_append _ _ _ _ (by omega)]
    · rcases lt_or_ge l (outer + n) with hlt' | hge'
      · have hj : l - outer < m.length := by omega
        refine absurd ?_ (hl _ (List.getElem_mem hj))
        rw [(hm _ hj).1, Nat.add_sub_cancel' hge]
      · rw [valuation, valuation, List.getD_eq_default _ _ (by rw [List.length_append, List.length_map]; omega),
          List.getD_eq_default _ _ (by omega)]

/-- After the substitution the others meet the constraints where inner variables can be given to them so that they did
before. -/
theorem holds_eliminated (hI : I.Consistent env) (hr : c.readable = true) {c' : Conjunction}
    (hsubst : c.substituteInConstraints env m = .ok c') (hs : c.SubstitutesRight env I.dom I.cod m) {t : List Int}
    (ht : t.length = outer) :
    c'.Holds I (valuation t) ↔ ∃ y : List Int, y.length = n ∧ c.Holds I (valuation (t ++ y)) := by
  have hd := distinct_innerSubMap hc h
  have hread := hf.readable
  constructor
  · intro hholds
    obtain ⟨y, hy, hputs⟩ := exists_puts hc h hf ht
    exact ⟨y, hy, (holds_substituteInConstraints hr hread hd hsubst hI hs hputs).1 hholds⟩
  · rintro ⟨y, hy, hholds⟩
    exact (holds_substituteInConstraints hr hread hd hsubst hI hs
      (puts_of_holds hc h hlast hvars harity hf hI ht hy hholds)).2 hholds

end Inner

/-! ## The constants that are pushed -/

/-- The constant that the equality gives the tuple variable. -/
def constantOf (env : Environment) (i : Nat) (e : Exp) : Option Int :=
  match e.solveForFactor env (.tupleVar 1 i) with
  | .ok (some x) => x.asConst
  | _ => none

theorem gives_iff {env : Environment} {d : TupleDecl} {e : Exp} {i : Nat} {v : Int} :
    e.Gives env d i v ↔ i < d.size ∧ d.elemIsConst i = false ∧ constantOf env i e = some v := by
  refine and_congr_right fun _ => and_congr_right fun _ => ?_
  unfold constantOf
  cases h : e.solveForFactor env (.tupleVar 1 i) with
  | error _ => simp
  | ok r => cases r <;> simp

/-- The constant that the last equality that gives one gives the tuple variable. -/
def lastConstant (env : Environment) (c : Conjunction) (i : Nat) : Option Int :=
  c.equalities.reverse.findSome? (constantOf env i)

/-- The push declares the last constant. -/
theorem elemConstVal_push {env : Environment} {c c' : Conjunction} (h : c.pushConstConstraintsToTupleDecl env = .ok c')
    {i : Nat} (hi : i < c.arity) (hvar : c.tupleDecl.elemIsConst i = false) {v : Int} (hv : c.lastConstant env i = some v) :
    c'.tupleDecl.elemConstVal i = v := by
  obtain ⟨after, e, before, hsplit, he, hafter⟩ := List.findSome?_eq_some_iff.1 hv
  have hequalities : c.equalities = before.reverse ++ e :: after.reverse := by
    rw [← List.reverse_reverse c.equalities, hsplit]
    simp
  simp only [pushConstConstraintsToTupleDecl, bind_eq_ok, hequalities, List.mapM_append, List.mapM_cons] at h
  obtain ⟨found, ⟨foundBefore, hbefore, foundRest, ⟨pairs, hpairs, foundAfter, hfoundAfter, hrest⟩, hfound⟩, h⟩ := h
  cases hrest
  cases hfound
  cases h
  have hconstants : ∀ {es : List Exp} {ps : List (List (Nat × Int))},
      es.mapM (fun e => e.constants env c.tupleDecl (List.range c.arity)) = .ok ps →
        ∀ p ∈ ps.flatten, p.1 < c.tupleDecl.size ∧ ∃ e ∈ es, constantOf env p.1 e = some p.2 := by
    intro es ps hps p hp
    obtain ⟨l, hl, hpl⟩ := List.mem_flatten.1 hp
    obtain ⟨e, he, hel⟩ := Outcome.exists_of_mem_forall₂ (Outcome.forall₂_of_mapM hps) hl
    obtain ⟨hlt, -, hx⟩ := gives_iff.1 (((mem_constants hel).2 p.1 p.2).1 hpl |>.imp_left List.mem_range.1)
    exact ⟨hlt, e, he, hx⟩
  have hmem : (i, v) ∈ pairs := ((mem_constants hpairs).2 i v).2 ⟨List.mem_range.2 hi, (gives_iff.2 ⟨hi, hvar, he⟩).2⟩
  have hgiven : ∀ p ∈ pairs, p.1 < c.tupleDecl.size ∧ (p.1 = i → p.2 = v) := by
    intro p hp
    obtain ⟨hlt, -, hx⟩ := gives_iff.1 (((mem_constants hpairs).2 p.1 p.2).1 hp |>.imp_left List.mem_range.1)
    refine ⟨hlt, fun heq => ?_⟩
    rw [heq, he] at hx
    exact (Option.some.inj hx).symm
  simp only [List.flatten_append, List.flatten_cons, List.foldl_append]
  obtain ⟨hsize₁, -, -⟩ := TupleDecl.foldl_setTupleConst fun p hp => (hconstants hbefore p hp).1
  obtain ⟨hsize₂, -, hnew⟩ := TupleDecl.foldl_setTupleConst fun p (hp : p ∈ pairs) => by
    rw [hsize₁]
    exact (hgiven p hp).1
  obtain ⟨-, hold, -⟩ := TupleDecl.foldl_setTupleConst fun p (hp : p ∈ foundAfter.flatten) => by
    rw [hsize₂, hsize₁]
    exact (hconstants hfoundAfter p hp).1
  have hlast := hold i fun w hw => by
    obtain ⟨-, d, hd, hx⟩ := hconstants hfoundAfter _ hw
    rw [hafter d (List.mem_reverse.1 hd)] at hx
    cases hx
  rw [TupleDecl.elemConstVal, hlast]
  exact (hgiven _ (hnew i ⟨v, hmem⟩).2).2 rfl

theorem exists_lastConstant {env : Environment} {c : Conjunction} {e : Exp} {i : Nat} {v : Int} (h : c.Fixes env e i v) :
    ∃ w, c.lastConstant env i = some w := by
  obtain ⟨he, hg⟩ := h
  rw [← Option.isSome_iff_exists, lastConstant, List.findSome?_isSome_iff]
  exact ⟨e, List.mem_reverse.2 he, by rw [(gives_iff.1 hg).2.2]; rfl⟩

theorem fixes_of_lastConstant {env : Environment} {c : Conjunction} {i : Nat} {v : Int} (hi : i < c.arity)
    (hvar : c.tupleDecl.elemIsConst i = false) (h : c.lastConstant env i = some v) : ∃ e, c.Fixes env e i v := by
  obtain ⟨e, he, hx⟩ := List.exists_of_findSome?_eq_some h
  exact ⟨e, List.mem_reverse.1 he, gives_iff.2 ⟨hi, hvar, hx⟩⟩

/-- No variable is given two constants, or no tuple with the last constants meets the equalities that stay and the
inequalities. -/
def GivesOne (env : Environment) (dom cod : String → Nat) (c : Conjunction) : Prop :=
  (∀ d d' i v v', c.Fixes env d i v → c.Fixes env d' i v' → v = v') ∨
    ∀ I : Interp, I.dom = dom → I.cod = cod → I.Consistent env → ∀ t, c.tupleDecl.Admits t →
      (∀ i < c.arity, c.tupleDecl.elemIsConst i = false → ∀ v, c.lastConstant env i = some v → valuation t i = v) →
        ¬ ((∀ e, c.Stays env e → e.HoldsEq I (valuation t)) ∧ ∀ e ∈ c.inequalities, e.HoldsGe I (valuation t))

/-- The push keeps the tuples iff it drops no constant that matters. -/
theorem denote_push_iff {env : Environment} {dom cod : String → Nat} {c c' : Conjunction} (hr : c.readable = true)
    (hright : ∀ e i v, c.Fixes env e i v → e.GivesRight env dom cod i) (h : c.pushConstConstraintsToTupleDecl env = .ok c') :
    (∀ I : Interp, I.dom = dom → I.cod = cod → I.Consistent env → c'.denote I = c.denote I) ↔ c.GivesOne env dom cod := by
  obtain ⟨hp, -⟩ := pushed_of_push h
  -- where a constant is given, the last one is declared
  have hlast : ∀ i, (∃ e v, c.Fixes env e i v) → i < c.arity ∧ c.tupleDecl.elemIsConst i = false ∧
      c.lastConstant env i = some (c'.tupleDecl.elemConstVal i) := by
    rintro i ⟨e, v, hfix⟩
    obtain ⟨hi, hvar, -⟩ := hfix.2
    obtain ⟨w, hw⟩ := exists_lastConstant hfix
    exact ⟨hi, hvar, by rw [elemConstVal_push h hi hvar hw, hw]⟩
  constructor
  · intro hkeeps
    by_cases hagree : ∀ d d' i v v', c.Fixes env d i v → c.Fixes env d' i v' → v = v'
    · exact .inl hagree
    · refine .inr fun I hdom hcod hI t ht hconsts hstay => hagree ?_
      have hmem : t ∈ c'.denote I := hp.mem_denote_iff.2 ⟨ht, hstay, fun j hj => by
        obtain ⟨hlt, hvar, hl⟩ := hlast j hj
        exact hconsts j hlt hvar _ hl⟩
      rw [hkeeps I hdom hcod hI] at hmem
      subst hdom hcod
      obtain ⟨-, -, hgiven⟩ := (mem_denote_iff hr hright hI).1 hmem
      exact fun d d' i v v' hd hd' => (hgiven d i v hd).symm.trans (hgiven d' i v' hd')
  · intro hone I hdom hcod hI
    ext t
    have hcases := hone.imp_right fun hnone => hnone I hdom hcod hI t
    subst hdom hcod
    rw [hp.mem_denote_iff, mem_denote_iff hr hright hI]
    refine and_congr_right fun ht => and_congr_right fun hstay => ?_
    rcases hcases with hagree | hnone
    · refine ⟨fun hgiven e i v he => ?_, fun hgiven j hj => ?_⟩
      · obtain ⟨-, d, hd⟩ := hp.given i ⟨e, v, he⟩
        rw [hgiven i ⟨e, v, he⟩]
        exact hagree d e i _ v hd he
      · obtain ⟨-, d, hd⟩ := hp.given j hj
        exact hgiven d j _ hd
    · refine ⟨fun hgiven => absurd hstay (hnone ht fun i hi hvar v hv => ?_),
        fun hgiven => absurd hstay (hnone ht fun i hi hvar v hv => ?_)⟩
      · obtain ⟨e, he⟩ := fixes_of_lastConstant hi hvar hv
        rw [hgiven i ⟨e, v, he⟩, elemConstVal_push h hi hvar hv]
      · obtain ⟨e, he⟩ := fixes_of_lastConstant hi hvar hv
        exact hgiven e i v he

end Conjunction

end IEGen
