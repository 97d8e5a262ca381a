import IEGen.Nested
import IEGen.Solved
import IEGen.Bound
import IEGen.Lib.SortedMap

/-!
# Gathering the equalities of indexed calls

`groupIndexedUFCalls` takes the equalities with an indexed call out of a conjunction, solves each for its call and puts
the solution into a table, by the call and its index. A call whose indices have all been found, as many as its function
gives components, becomes one equality with a tuple; the other equalities are put back.

* `Exp.gathered_soundFor`: what an equality with an indexed call says of the call.
* `slot_table`: a slot of the table holds what the last of its equalities was solved to.
* `regroup_spec`, `foldlM_regroup_spec`: the calls of the table, put back or grouped.
-/

namespace IEGen

open SortedList (Tied StrictWeak)
open Outcome (bind_eq_ok)

/-! ## The code -/

/-- `queryRangeArityCurrEnv` -/
def Environment.queryRangeArity (env : Environment) (funcName : String) : Except Failure Nat := do
  .ok (← env.queryRange funcName).arity

/-- `isIndexed` -/
def Term.isIndexed : Term → Bool
  | .ufCall _ _ _ tupleIndex => tupleIndex.isSome
  | _ => false

/-- `Exp::hasIndexedUFCall`, which looks at the first call only. -/
def Exp.hasIndexedUFCall (e : Exp) : Bool := ((e.terms.find? Term.isUFCall).map Term.isIndexed).getD false

/-- `Exp::cloneIndexedUFCallTerm` -/
def Exp.cloneIndexedUFCallTerm (e : Exp) : Except Failure Term :=
  match e.terms.filter Term.isIndexed with
  | [t] => .ok t
  | [] => .error (.assertException "Exp::getIndexedUFCallTerm: no indexed UFCallTerm")
  | _ => .error (.assertException "Exp::getIndexedUFCallTerm: more than one indexed UFCallTerm in expression")

/-- A call with coefficient one and no index: the key of the table. -/
structure NonIndexed where
  funcName : String
  args : List Exp

/-- `setTupleIndex`: the call with the index. -/
def NonIndexed.call (u : NonIndexed) (tupleIndex : Option Nat) : Term := .ufCall 1 u.funcName u.args tupleIndex

/-- `UFCallTerm::operator<` of the keys. -/
def NonIndexed.lt (u v : NonIndexed) : Bool := (u.call none).lt (v.call none)

/-- What an equality says of an indexed call. -/
structure Gathered where
  ufcall : NonIndexed
  tupleIndex : Nat
  retExp : Exp

/-- The equality is solved for its indexed call, with coefficient one instead of minus one. -/
def Exp.gathered (env : Environment) (e : Exp) : Except Failure Gathered := do
  match ← e.cloneIndexedUFCallTerm with
  | .ufCall coeff funcName args (some tupleIndex) =>
    match ← e.solveForFactor env (.ufCall (if coeff = -1 then 1 else coeff) funcName args (some tupleIndex)) with
    | some retExp => .ok ⟨⟨funcName, args⟩, tupleIndex, retExp⟩
    | none => .error .nullPointer
  | _ => .error .nullPointer

/-- `ufcallAndIndex2Exp` -/
abbrev CallTable := List (NonIndexed × List (Nat × Exp))

/-- `ufcallAndIndex2Exp[*nonindexed][tupleIndex] = ret_exp`; what stood there is lost. -/
def store (table : CallTable) (g : Gathered) : CallTable :=
  SortedMap.alter NonIndexed.lt g.ufcall
    (fun old => SortedMap.alter (fun i j => i < j) g.tupleIndex (fun _ => g.retExp) (old.getD [])) table

/-- The insertion of an expression that is not in the list itself. -/
def insertApart (e : Exp) : List Exp → List Exp
  | [] => [e]
  | d :: ds => if e.eqApart d then d :: ds else if e.lt d then e :: d :: ds else d :: insertApart e ds

/-- `addEquality` of an expression that may hold tuples. -/
def Conjunction.addEqualityApart (c : Conjunction) (equality : Exp) : Conjunction :=
  let e := equality.normalizeForEquality
  if e.equalsZero then c else { c with equalities := insertApart e.setEquality c.equalities }

/-- `(ret_exps) = ufcall` -/
def NonIndexed.tupleEquality (u : NonIndexed) (retExps : List Exp) : Exp :=
  ((Exp.mk .expression []).addTerm (.tupleExp (-1) retExps)).addTerm (u.call none)

/-- `ret_exp = ufcall[index]` -/
def NonIndexed.indexEquality (u : NonIndexed) (p : Nat × Exp) : Exp := (p.2.multiplyBy (-1)).addTerm (u.call (some p.1))

/-- The second loop, for one call. The equalities that are put back share their expressions with the tuple as far as it
was filled, which deletes them: then the conjunction is left with pointers to deleted expressions. -/
def regroup (env : Environment) (acc : Conjunction × Bool) (entry : NonIndexed × List (Nat × Exp)) :
    Except Failure (Conjunction × Bool) := do
  let size ← env.queryRangeArity entry.1.funcName
  match (List.range size).mapM (fun i => SortedMap.find (fun i j => i < j) i entry.2) with
  | some retExps => .ok (acc.1.addEqualityApart (entry.1.tupleEquality retExps), acc.2)
  | none => .ok (entry.2.foldl (fun c p => c.addEqualityApart (entry.1.indexEquality p)) acc.1,
      acc.2 || (SortedMap.find (fun i j => i < j) 0 entry.2).isSome)

/-- `Conjunction::groupIndexedUFCalls`: the conjunction, and whether it holds pointers to deleted expressions. -/
def Conjunction.groupIndexedUFCalls (env : Environment) (c : Conjunction) : Except Failure (Conjunction × Bool) := do
  let gathered ← (c.equalities.filter Exp.hasIndexedUFCall).mapM (Exp.gathered env)
  let rest := c.equalities.filter (fun e => !e.hasIndexedUFCall)
  (gathered.foldl store []).foldlM (regroup env) ({ c with equalities := rest }, false)

/-! ## Legible calls -/

/-- The arguments of a call can be read back from their text. -/
def Term.callLegible : Term → Bool
  | .ufCall _ _ args _ => argsLegible args
  | _ => true

def Exp.callsLegible (e : Exp) : Bool := e.terms.all Term.callLegible

theorem Exp.callsLegible_iff {e : Exp} : e.callsLegible = true ↔ ∀ t ∈ e.terms, t.callLegible = true := List.all_eq_true

@[simp] theorem callLegible_setCoefficient (c : Int) (t : Term) : (t.setCoefficient c).callLegible = t.callLegible := by
  cases t <;> rfl

theorem callLegible_of_combineInto {t u u' : Term} {k : Int} (hu : u.callLegible = true) (h : t.combineInto k u = some u') :
    u'.callLegible = true := by
  have hsimple : combineSimple k t u = some u' → u'.callLegible = true := by
    unfold combineSimple
    split_ifs
    · intro h
      rw [← Option.some.inj h, callLegible_setCoefficient]
      exact hu
    · exact fun h => (by cases h)
  cases t with
  | tupleExp c es =>
    cases u with
    | tupleExp c' es' =>
      simp only [Term.combineInto] at h
      split_ifs at h
      rw [← Option.some.inj h]
      rfl
    | _ => exact hsimple h
  | _ => exact hsimple h

theorem Exp.callsLegible_addTerm {e : Exp} {t : Term} (he : e.callsLegible = true) (ht : t.callLegible = true) :
    (e.addTerm t).callsLegible = true := by
  rw [callsLegible_iff] at he ⊢
  refine forall_termsAddInto (fun u hu _ => ⟨?_, fun v v' hv hc _ => callLegible_of_combineInto hv hc⟩) he
  obtain rfl := List.mem_singleton.1 hu
  rw [Term.multiplyBy, callLegible_setCoefficient]
  exact ht

theorem Exp.callsLegible_of_divideBy {e e' : Exp} {d : Int} (h : e.divideBy d = .ok e') (he : e.callsLegible = true) :
    e'.callsLegible = true := by
  unfold divideBy at h
  split_ifs at h
  rw [callsLegible_iff] at he ⊢
  rw [← Except.ok.inj h]
  intro t ht
  obtain ⟨u, hu, rfl⟩ := List.mem_map.1 ht
  rw [callLegible_setCoefficient]
  exact he u hu

theorem Exp.callsLegible_multiplyBy {e : Exp} (k : Int) (he : e.callsLegible = true) : (e.multiplyBy k).callsLegible = true := by
  rw [callsLegible_iff] at he ⊢
  intro t ht
  rw [terms_multiplyBy] at ht
  obtain ⟨u, hu, rfl⟩ := List.mem_map.1 ht
  rw [Term.multiplyBy, callLegible_setCoefficient]
  exact he u hu

theorem Exp.callsLegible_normalizeForEquality {e : Exp} (he : e.callsLegible = true) :
    e.normalizeForEquality.setEquality.callsLegible = true := by
  rw [callsLegible_iff] at he ⊢
  intro t ht
  obtain ⟨c, u, hu, rfl⟩ := terms_normalizeForEquality e t ht
  rw [callLegible_setCoefficient]
  exact he u hu

/-- A term with legible arguments compares by its value, unless it is a tuple with elements. -/
theorem Term.comparable_iff {t : Term} (h : t.callLegible = true) : t.comparable = true ↔ ∀ c es, t = .tupleExp c es → es = [] := by
  cases t with
  | ufCall c f as i => exact ⟨fun _ _ _ h => (by cases h), fun _ => h⟩
  | tupleExp c es =>
    rw [comparable, List.isEmpty_iff]
    exact ⟨fun h _ _ heq => (by cases heq; exact h), fun h => h c es rfl⟩
  | _ => exact ⟨fun _ _ _ h => (by cases h), fun _ => rfl⟩

/-- Expressions that are equal while their tuples are different objects have no tuples with elements. -/
theorem Exp.comparable_of_eqApart {a b : Exp} (ha : a.callsLegible = true) (hb : b.callsLegible = true)
    (h : a.eqApart b = true) : a.comparable = true ∧ b.comparable = true := by
  rw [callsLegible_iff] at ha hb
  rw [eqApart, Bool.and_eq_true, List.all_eq_true] at h
  obtain ⟨heq, hempty⟩ := h
  simp only [comparable, List.all_eq_true]
  have hleft : ∀ t ∈ a.terms, ∀ c es, t = .tupleExp c es → es = [] := by
    rintro t ht c es rfl
    exact List.isEmpty_iff.1 (hempty _ ht)
  refine ⟨fun t ht => (Term.comparable_iff (ha t ht)).2 (hleft t ht), fun u hu => (Term.comparable_iff (hb u hu)).2 ?_⟩
  rintro c es rfl
  obtain ⟨t, ht, htied⟩ := Outcome.exists_of_mem_forall₂ (tied_exp.1 (eq_iff_tied.1 heq)) hu
  cases t with
  | tupleExp c' es' =>
    obtain rfl := hleft _ ht c' es' rfl
    have hlen : ¬ ([] : List Exp).length < es.length := of_decide_eq_false htied.1
    rw [List.length_nil, Nat.pos_iff_ne_zero, not_not] at hlen
    exact List.length_eq_zero_iff.1 hlen
  | _ => cases htied.1

theorem Exp.val_eq_of_eqApart {I : Interp} {τ : Nat → Int} {a b : Exp} (ha : a.callsLegible = true)
    (hb : b.callsLegible = true) (h : a.eqApart b = true) : a.val I τ = b.val I τ := by
  obtain ⟨ha', hb'⟩ := comparable_of_eqApart ha hb h
  exact val_of_eqApart ha' hb' h

/-! ## Adding an equality -/

theorem forall_insertApart {P : Exp → Prop} {e : Exp} : ∀ {ds : List Exp}, (∀ d ∈ ds, e.eqApart d = true → P d → P e) →
    ((∀ x ∈ insertApart e ds, P x) ↔ P e ∧ ∀ d ∈ ds, P d)
  | [], _ => by simp [insertApart]
  | d :: ds, h => by
    obtain ⟨hd, hds⟩ := List.forall_mem_cons.1 h
    rw [insertApart]
    split_ifs with heq hlt
    · exact ⟨fun hall => ⟨hd heq (hall d List.mem_cons_self), hall⟩, fun hall => hall.2⟩
    · rw [List.forall_mem_cons]
    · rw [List.forall_mem_cons, forall_insertApart hds, List.forall_mem_cons]
      exact ⟨fun ⟨h₁, h₂, h₃⟩ => ⟨h₂, h₁, h₃⟩, fun ⟨h₁, h₂, h₃⟩ => ⟨h₂, h₁, h₃⟩⟩

theorem mem_insertApart {e x : Exp} : ∀ {ds : List Exp}, x ∈ insertApart e ds → x = e ∨ x ∈ ds
  | [], h => .inl (List.mem_singleton.1 h)
  | d :: ds, h => by
    rw [insertApart] at h
    split_ifs at h
    · exact .inr h
    · exact List.mem_cons.1 h
    · rcases List.mem_cons.1 h with rfl | h
      · exact .inr List.mem_cons_self
      · exact (mem_insertApart h).imp_right (List.mem_cons_of_mem _)

namespace Conjunction

/-- What steps that add equalities keep and change, when a call of `f` gives `cod f` components. -/
structure AddsEqualities (cod : String → Nat) (c c' : Conjunction) (P : Interp → (Nat → Int) → Prop) : Prop where
  tupleDecl : c'.tupleDecl = c.tupleDecl
  inequalities : c'.inequalities = c.inequalities
  legible : ∀ e ∈ c'.equalities, e.callsLegible = true
  holds : ∀ I : Interp, I.cod = cod → ∀ τ, (∀ e ∈ c'.equalities, e.HoldsEq I τ) ↔ (∀ e ∈ c.equalities, e.HoldsEq I τ) ∧ P I τ

section Adds

variable {cod : String → Nat} {c c' c'' : Conjunction} {P Q : Interp → (Nat → Int) → Prop}

theorem AddsEqualities.trans (h : AddsEqualities cod c c' P) (h' : AddsEqualities cod c' c'' Q) :
    AddsEqualities cod c c'' (fun I τ => P I τ ∧ Q I τ) := by
  refine ⟨h'.tupleDecl.trans h.tupleDecl, h'.inequalities.trans h.inequalities, h'.legible, fun I hI τ => ?_⟩
  rw [h'.holds I hI, h.holds I hI, and_assoc]

theorem AddsEqualities.congr (h : AddsEqualities cod c c' P) (hPQ : ∀ I : Interp, I.cod = cod → ∀ τ, P I τ ↔ Q I τ) :
    AddsEqualities cod c c' Q :=
  ⟨h.tupleDecl, h.inequalities, h.legible, fun I hI τ => by rw [h.holds I hI, hPQ I hI]⟩

theorem addEqualityApart_adds {e : Exp} (hc : ∀ d ∈ c.equalities, d.callsLegible = true)
    (he : e.callsLegible = true) : c.AddsEqualities cod (c.addEqualityApart e) (fun I τ => e.HoldsEq I τ) := by
  have hlegible := Exp.callsLegible_normalizeForEquality he
  have hholds : ∀ I τ, e.normalizeForEquality.setEquality.HoldsEq I τ ↔ e.HoldsEq I τ := by
    intro I τ
    rw [← holdsEq_normalizeForEquality (e := e)]
    simp only [Exp.HoldsEq, Exp.val_setEquality]
  simp only [addEqualityApart]
  split_ifs with h0
  · refine ⟨rfl, rfl, hc, fun I _ τ => ⟨fun h => ⟨h, ?_⟩, fun h => h.1⟩⟩
    rw [← hholds]
    intro k
    rw [Exp.val_setEquality]
    exact val_of_equalsZero h0 k
  · refine ⟨rfl, rfl, fun d hd => ?_, fun I _ τ => ?_⟩
    · rcases mem_insertApart hd with rfl | hd
      · exact hlegible
      · exact hc d hd
    · rw [forall_insertApart, hholds, and_comm]
      intro d hd heq hz k
      rw [Exp.val_eq_of_eqApart hlegible (hc d hd) heq]
      exact hz k

/-- A loop that adds an equality for each element of a list. -/
theorem foldl_addEqualityApart_adds {α : Type} {f : α → Exp} : ∀ {l : List α} {c : Conjunction},
    (∀ d ∈ c.equalities, d.callsLegible = true) → (∀ a ∈ l, (f a).callsLegible = true) →
    c.AddsEqualities cod (l.foldl (fun c a => c.addEqualityApart (f a)) c) (fun I τ => ∀ a ∈ l, (f a).HoldsEq I τ)
  | [], c, hc, _ => ⟨rfl, rfl, hc, fun _ _ _ => by simp⟩
  | a :: l, c, hc, hl => by
    obtain ⟨ha, hl⟩ := List.forall_mem_cons.1 hl
    have hone := @addEqualityApart_adds cod c (f a) hc ha
    exact (hone.trans (foldl_addEqualityApart_adds hone.legible hl)).congr fun I _ τ => by rw [List.forall_mem_cons]

end Adds

end Conjunction

/-! ## What an equality says of its call -/

/-- The equality has one indexed call, before all other calls, with coefficient one or minus one. -/
def Exp.Gathers (e : Exp) (u : NonIndexed) (k : Nat) : Prop :=
  e.hasIndexedUFCall = true ∧ ∃ c : Int, (c = 1 ∨ c = -1) ∧ e.cloneIndexedUFCallTerm = .ok (.ufCall c u.funcName u.args (some k))

section Gathers

variable {e : Exp}

/-- The only indexed call stands before all other calls. -/
theorem Exp.terms_of_hasIndexedUFCall {t : Term} (h : e.hasIndexedUFCall = true) (ht : e.cloneIndexedUFCallTerm = .ok t) :
    ∃ pre post, e.terms = pre ++ t :: post ∧ ∀ u ∈ pre, u.isUFCall = false := by
  rw [hasIndexedUFCall] at h
  cases hfind : e.terms.find? Term.isUFCall with
  | none =>
    rw [hfind] at h
    cases h
  | some v =>
    rw [hfind] at h
    obtain ⟨-, pre, post, heq, hpre⟩ := List.find?_eq_some_iff_append.1 hfind
    have hmem : v ∈ e.terms.filter Term.isIndexed := by
      refine List.mem_filter.2 ⟨?_, h⟩
      rw [heq]
      exact List.mem_append_right _ List.mem_cons_self
    rw [cloneIndexedUFCallTerm] at ht
    split at ht
    · next w hw =>
      rw [hw] at hmem
      obtain rfl := List.mem_singleton.1 hmem
      cases ht
      exact ⟨pre, post, heq, fun u hu => by simpa using hpre u hu⟩
    · cases ht
    · cases ht

theorem findMatching_append {factor : Term} : ∀ {pre : List Term} (ts : List Term),
    (∀ t ∈ pre, t.factorMatches factor = false) → findMatching factor e (pre ++ ts) = findMatching factor e ts
  | [], _, _ => rfl
  | t :: pre, ts, h => by
    obtain ⟨ht, hpre⟩ := List.forall_mem_cons.1 h
    rw [List.cons_append, findMatching, ht, if_neg Bool.false_ne_true, findMatching_append ts hpre]

/-- The call itself is found and taken out. -/
theorem Exp.gathered_eq (env : Environment) {c : Int} {u : NonIndexed} {k : Nat} (hc : c = 1 ∨ c = -1) (h : e.hasIndexedUFCall = true)
    (ht : e.cloneIndexedUFCallTerm = .ok (.ufCall c u.funcName u.args (some k))) :
    ∃ x, e.solution (u.call (some k)) (.ufCall c u.funcName u.args (some k)) = .ok x ∧ e.gathered env = .ok ⟨u, k, x⟩ := by
  obtain ⟨pre, post, heq, hpre⟩ := terms_of_hasIndexedUFCall h ht
  have hone : (if c = -1 then 1 else c) = 1 := by
    split_ifs with hneg
    · rfl
    · exact hc.resolve_right hneg
  have hdiv : e.isDivisible (Term.ufCall c u.funcName u.args (some k)).coefficient = true := isDivisible_iff.2 fun t _ => by
    rcases hc with rfl | rfl
    · exact one_dvd _
    · exact Int.neg_dvd.2 (one_dvd _)
  obtain ⟨x, hx⟩ := exists_solution (show (u.call (some k)).coefficient = 1 from rfl) hdiv
  have hfind : e.findMatchingFactor (u.call (some k)) = .ok (some (.ufCall c u.funcName u.args (some k))) := by
    have hnone : ∀ t ∈ pre, t.factorMatches (u.call (some k)) = false := by
      intro t ht
      have := hpre t ht
      cases t with
      | ufCall => cases this
      | _ => rfl
    have hself : (Term.ufCall c u.funcName u.args (some k)).factorMatches (u.call (some k)) = true := by
      simp [Term.factorMatches, NonIndexed.call]
    have h0 : ¬ (Term.ufCall c u.funcName u.args (some k)).coefficient = 0 := by
      rw [Term.coefficient]
      omega
    rw [findMatchingFactor, if_neg (by simp [NonIndexed.call, Term.coefficient]), heq, findMatching_append _ hnone, findMatching,
      if_pos hself, if_neg h0, if_pos hdiv]
  refine ⟨x, hx, ?_⟩
  have hsolve : e.solveForFactor env (u.call (some k)) = .ok (some x) := solveForFactor_of_matching rfl hfind hdiv hx
  rw [NonIndexed.call] at hsolve
  simp only [gathered, ht, bind, Except.bind, hone, hsolve]

theorem Exp.gathers_of_gathered {env : Environment} {g : Gathered} (h : e.hasIndexedUFCall = true) (hg : e.gathered env = .ok g) :
    e.Gathers g.ufcall g.tupleIndex := by
  rw [gathered, bind_eq_ok] at hg
  obtain ⟨t, ht, hg⟩ := hg
  split at hg
  · next c f as k =>
    rw [bind_eq_ok] at hg
    obtain ⟨r, hr, hg⟩ := hg
    split at hg
    · next x =>
      cases hg
      have hone : (Term.ufCall (if c = -1 then 1 else c) f as (some k)).coefficient = 1 := by
        by_contra hne
        rw [solveForFactor, if_pos hne] at hr
        cases hr
      refine ⟨h, c, ?_, ht⟩
      rw [Term.coefficient] at hone
      split_ifs at hone with hneg
      · exact .inr hneg
      · exact .inl hone
    · cases hg
  · cases hg

end Gathers

/-- The component of the call is the expression. -/
def NonIndexed.Says (u : NonIndexed) (I : Interp) (τ : Nat → Int) (k : Nat) (x : Exp) : Prop :=
  I.indexVal u.funcName (argsVal I τ u.args) k = x.val I τ 0

/-- The equality is about integers, and its indexed call is taken out of it right. -/
structure Exp.GathersRight (cod : String → Nat) (e : Exp) : Prop where
  integer : e.Within cod 1
  taken : ∀ (u : NonIndexed) k c, e.cloneIndexedUFCallTerm = .ok (.ufCall c u.funcName u.args (some k)) →
    e.TakesRight cod (u.call (some k)) (.ufCall c u.funcName u.args (some k))

/-- What is found for an indexed call is an integer that the equality says the call to be. -/
structure Gathered.SoundFor (cod : String → Nat) (e : Exp) (g : Gathered) : Prop where
  args : argsLegible g.ufcall.args = true
  legible : g.retExp.callsLegible = true
  integer : ∀ I : Interp, I.cod = cod → ∀ τ k, 1 ≤ k → g.retExp.val I τ k = 0
  holds : ∀ I : Interp, I.cod = cod → ∀ τ, e.HoldsEq I τ ↔ g.ufcall.Says I τ g.tupleIndex g.retExp

theorem NonIndexed.val_call (u : NonIndexed) (I : Interp) (τ : Nat → Int) (k : Nat) :
    (u.call (some k)).val I τ = scalar (I.indexVal u.funcName (argsVal I τ u.args) k) := by
  rw [call, Term.val, one_mul]

theorem Exp.gathered_soundFor {env : Environment} {cod : String → Nat} {e : Exp} {g : Gathered} (h : e.hasIndexedUFCall = true)
    (hg : e.gathered env = .ok g) (hl : e.callsLegible = true) (hr : e.GathersRight cod) : g.SoundFor cod e := by
  obtain ⟨-, c, hc, ht⟩ := gathers_of_gathered h hg
  obtain ⟨x, hx, hgx⟩ := gathered_eq env hc h ht
  rw [hg] at hgx
  have hret : g.retExp = x := congrArg Gathered.retExp (Except.ok.inj hgx)
  have h0 : (Term.ufCall c g.ufcall.funcName g.ufcall.args (some g.tupleIndex)).coefficient ≠ 0 := by
    rw [Term.coefficient]
    omega
  have hargs : argsLegible g.ufcall.args = true := by
    obtain ⟨pre, post, heq, -⟩ := terms_of_hasIndexedUFCall h ht
    refine callsLegible_iff.1 hl (.ufCall c g.ufcall.funcName g.ufcall.args (some g.tupleIndex)) ?_
    rw [heq]
    exact List.mem_append_right _ List.mem_cons_self
  have htaken := hr.taken _ _ _ ht
  have hinteger : ∀ I : Interp, I.cod = cod → ∀ τ k, 1 ≤ k → x.val I τ k = 0 := by
    rintro I rfl τ k hk
    have hval : x.val I τ k * (-(Term.ufCall c g.ufcall.funcName g.ufcall.args (some g.tupleIndex)).coefficient) = 0 := by
      rw [val_divideBy hx, val_addTerm_of_merged htaken, val_of_within hr.integer hk, Term.val_multiplyBy,
        NonIndexed.val_call, scalar_of_pos _ hk, zero_mul, add_zero]
    exact (mul_eq_zero.1 hval).resolve_right (neg_ne_zero.2 h0)
  refine ⟨hargs, ?_, by rwa [hret], ?_⟩
  · rw [hret]
    refine callsLegible_of_divideBy hx (callsLegible_addTerm hl ?_)
    rw [Term.multiplyBy, callLegible_setCoefficient]
    exact hargs
  · intro I hI τ
    subst hI
    rw [holdsEq_iff_of_solution hx htaken h0, NonIndexed.val_call, hret]
    constructor
    · exact fun heq => congrFun heq 0
    · intro heq
      funext k
      cases k with
      | zero => exact heq
      | succ k => rw [scalar_succ, hinteger I rfl τ (k + 1) (by omega)]

/-! ## The table -/

theorem strictWeak_nonIndexedLt : StrictWeak NonIndexed.lt := Term.strictWeak_lt.comap _

theorem strictWeak_index : StrictWeak (fun i j : Nat => decide (i < j)) := StrictWeak.of_key (f := id) fun _ _ => rfl

theorem tied_index {i j : Nat} : Tied (fun i j : Nat => decide (i < j)) i j ↔ i = j := by
  simp only [Tied, decide_eq_false_iff_not]
  omega

/-- The entry is for the index of the call. -/
def Gathered.inSlot (u : NonIndexed) (k : Nat) (g : Gathered) : Bool := decide (Tied NonIndexed.lt g.ufcall u) && g.tupleIndex == k

theorem Gathered.inSlot_iff {u : NonIndexed} {k : Nat} {g : Gathered} :
    g.inSlot u k = true ↔ Tied NonIndexed.lt g.ufcall u ∧ g.tupleIndex = k := by
  simp [inSlot]

/-- What stands in the table for the index of the call. -/
def CallTable.slot (table : CallTable) (u : NonIndexed) (k : Nat) : Option Exp :=
  (SortedMap.find NonIndexed.lt u table).bind (SortedMap.find (fun i j => i < j) k)

/-- A table in order, whose calls are those of the entries. -/
structure CallTable.Of (gs : List Gathered) (table : CallTable) : Prop where
  ordered : SortedMap.Ordered NonIndexed.lt table
  inner : ∀ p ∈ table, SortedMap.Ordered (fun i j => i < j) p.2
  key : ∀ p ∈ table, ∃ g ∈ gs, g.ufcall = p.1
  slot : ∀ u k, table.slot u k = (gs.reverse.find? (Gathered.inSlot u k)).map Gathered.retExp

section Table

variable {gs : List Gathered} {table : CallTable}

theorem CallTable.Of.store (h : table.Of gs) (g : Gathered) : CallTable.Of (gs ++ [g]) (store table g) := by
  refine ⟨SortedMap.ordered_alter strictWeak_nonIndexedLt h.ordered, fun p hp => ?_, fun p hp => ?_, fun u k => ?_⟩
  · rcases SortedMap.mem_alter hp with hp | rfl | ⟨q, hq, rfl⟩
    · exact h.inner p hp
    · exact SortedMap.ordered_alter strictWeak_index List.Pairwise.nil
    · exact SortedMap.ordered_alter strictWeak_index (h.inner q hq)
  · have hold : ∀ q ∈ table, ∃ g' ∈ gs ++ [g], g'.ufcall = q.1 := by
      intro q hq
      obtain ⟨g', hg', heq⟩ := h.key q hq
      exact ⟨g', List.mem_append_left _ hg', heq⟩
    rcases SortedMap.mem_alter hp with hp | rfl | ⟨q, hq, rfl⟩
    · exact hold p hp
    · exact ⟨g, List.mem_append_right _ List.mem_cons_self, rfl⟩
    · exact hold q hq
  · rw [CallTable.slot, IEGen.store, SortedMap.find_alter strictWeak_nonIndexedLt h.ordered, List.reverse_append,
      List.reverse_singleton, List.singleton_append, List.find?_cons]
    by_cases ht : Tied NonIndexed.lt g.ufcall u
    · have hm : SortedMap.Ordered (fun i j => decide (i < j)) ((SortedMap.find NonIndexed.lt g.ufcall table).getD []) := by
        cases hfind : SortedMap.find NonIndexed.lt g.ufcall table with
        | none => exact List.Pairwise.nil
        | some m =>
          obtain ⟨v, -, hv⟩ := SortedMap.mem_of_find hfind
          exact h.inner _ hv
      have hslot := h.slot u k
      rw [if_pos ht, Option.bind_some, SortedMap.find_alter strictWeak_index hm]
      by_cases hk : g.tupleIndex = k
      · rw [if_pos (tied_index.2 hk), Gathered.inSlot_iff.2 ⟨ht, hk⟩]
        rfl
      · have hno : g.inSlot u k = false := Bool.eq_false_iff.2 fun hin => hk (Gathered.inSlot_iff.1 hin).2
        rw [if_neg (fun htk => hk (tied_index.1 htk)), hno]
        dsimp only
        rw [← hslot, CallTable.slot, SortedMap.find_congr strictWeak_nonIndexedLt ht]
        cases SortedMap.find NonIndexed.lt u table <;> rfl
    · have hno : g.inSlot u k = false := Bool.eq_false_iff.2 fun hin => ht (Gathered.inSlot_iff.1 hin).1
      rw [if_neg ht, hno]
      exact h.slot u k

/-- A slot of the table holds what the last of its entries was solved to. -/
theorem slot_table (gs : List Gathered) : CallTable.Of gs (gs.foldl store []) := by
  induction gs using List.reverseRecOn with
  | nil => exact ⟨List.Pairwise.nil, fun _ h => (by cases h), fun _ h => (by cases h), fun _ _ => rfl⟩
  | append_singleton gs g ih =>
    rw [List.foldl_append]
    exact ih.store g

end Table

/-! ## Putting the equalities back -/

section Regroup

variable {I : Interp} {τ : Nat → Int} {cod : String → Nat} {env : Environment} {u : NonIndexed}

theorem terms_tupleExp (es : List Exp) : ((Exp.mk .expression []).addTerm (.tupleExp (-1) es)).terms = [.tupleExp (-1) es] :=
  terms_addTerm_empty (by rw [Term.coefficient]; omega)

theorem NonIndexed.val_tupleEquality (u : NonIndexed) (es : List Exp) (k : Nat) : (u.tupleEquality es).val I τ k =
    I.callVal u.funcName (argsVal I τ u.args) k - (es.map (fun x => x.val I τ 0)).getD k 0 := by
  have hmerged : ∀ p ∈ termsMerged 1 [u.call none] ((Exp.mk .expression []).addTerm (.tupleExp (-1) es)).terms,
      MergesRight I.cod p := by
    rw [terms_tupleExp]
    intro p hp
    simp [termsMerged, NonIndexed.call, mergeTarget, Term.combineInto, combineSimple, Term.factorMatches] at hp
  have helem : ((argsVal I τ es).getD k (scalar 0)) 0 = (es.map (fun x => x.val I τ 0)).getD k 0 := by
    rw [argsVal_eq_map, List.getD_eq_getElem?_getD, List.getD_eq_getElem?_getD, List.getElem?_map, List.getElem?_map]
    cases es[k]? <;> rfl
  rw [tupleEquality, Exp.val_addTerm_of_merged hmerged, Exp.val_eq, terms_tupleExp, termsVal_cons, termsVal_nil, add_zero,
    ← helem]
  simp only [call, Term.val]
  ring

/-- The tuple equality says every component. -/
theorem NonIndexed.holdsEq_tupleEquality {es : List Exp} (hes : es.length = I.cod u.funcName) :
    (u.tupleEquality es).HoldsEq I τ ↔ ∀ k x, es[k]? = some x → u.Says I τ k x := by
  have hcomponent : ∀ k, (u.tupleEquality es).val I τ k = 0 ↔ ∀ x, es[k]? = some x → u.Says I τ k x := by
    intro k
    rw [val_tupleEquality, List.getD_eq_getElem?_getD, List.getElem?_map]
    cases hk : es[k]? with
    | none =>
      have hle : ¬ k < I.cod u.funcName := by
        rw [← hes, Nat.not_lt]
        exact List.getElem?_eq_none_iff.1 hk
      rw [Interp.callVal, if_neg hle]
      exact ⟨fun _ _ h => (by cases h), fun _ => rfl⟩
    | some x =>
      have hlt : k < I.cod u.funcName := by
        rw [← hes]
        exact (List.getElem?_eq_some_iff.1 hk).1
      rw [Interp.callVal, if_pos hlt, Option.map_some, Option.getD_some, sub_eq_zero]
      exact ⟨fun h y hy => by cases hy; exact h, fun h => h x rfl⟩
  simp only [Exp.HoldsEq, hcomponent]

theorem NonIndexed.callsLegible_tupleEquality {es : List Exp} (hu : argsLegible u.args = true) :
    (u.tupleEquality es).callsLegible = true :=
  Exp.callsLegible_addTerm (Exp.callsLegible_addTerm rfl rfl) hu

/-- A call is merged with a term of the list that matches it. -/
theorem mem_termsMerged_call {c : Int} {f : String} {as : List Exp} {i : Option Nat} {ts : List Term} {p : Term × Term}
    (hp : p ∈ termsMerged 1 [.ufCall c f as i] ts) : p.1 = .ufCall c f as i ∧ p.2 ∈ ts ∧ p.2.factorMatches p.1 = true := by
  simp only [termsMerged] at hp
  split_ifs at hp
  · cases hp
  · rw [List.append_nil] at hp
    split at hp
    · next v hv =>
      obtain ⟨hmem, hcombine⟩ := mergeTarget_spec hv
      obtain rfl : p = (.ufCall c f as i, v) := by
        cases v <;> exact List.mem_singleton.1 hp
      exact ⟨rfl, hmem, factorMatches_of_combineInto hcombine⟩
    · cases hp

/-- A call that is not at its first component is only merged with itself. -/
theorem NonIndexed.mergesRight_call {k : Nat} {e : Exp} (hk : k ≠ 0) (hu : argsLegible u.args = true)
    (he : e.callsLegible = true) : ∀ p ∈ termsMerged 1 [u.call (some k)] e.terms, MergesRight cod p := by
  rintro ⟨t, v⟩ hp
  obtain ⟨ht, hmem, hmatch⟩ := mem_termsMerged_call hp
  obtain rfl : t = u.call (some k) := ht
  have hv := Exp.callsLegible_iff.1 he v hmem
  cases v with
  | ufCall c f as i =>
    simp only [call, Term.factorMatches, Bool.and_eq_true, beq_iff_eq, Option.getD_some] at hmatch
    have hi : some k = i := by
      cases i with
      | none => exact absurd hmatch.1.2.symm hk
      | some j => rw [← hmatch.1.2]; rfl
    exact ⟨hu, hv, .inl hi⟩
  | _ => cases hmatch

/-- An equality that is put back says what was found. -/
theorem NonIndexed.holdsEq_indexEquality {k : Nat} {x : Exp} (hk : k ≠ 0) (hu : argsLegible u.args = true)
    (hx : x.callsLegible = true) (hint : ∀ k, 1 ≤ k → x.val I τ k = 0) :
    (u.indexEquality (k, x)).HoldsEq I τ ↔ u.Says I τ k x := by
  have hval : ∀ j, (u.indexEquality (k, x)).val I τ j = scalar (I.indexVal u.funcName (argsVal I τ u.args) k) j - x.val I τ j := by
    intro j
    rw [indexEquality, Exp.val_addTerm_of_merged (mergesRight_call hk hu (Exp.callsLegible_multiplyBy _ hx)),
      Exp.val_multiplyBy, val_call]
    ring
  simp only [Exp.HoldsEq, hval]
  constructor
  · exact fun h => sub_eq_zero.1 (h 0)
  · intro h j
    cases j with
    | zero => exact sub_eq_zero.2 h
    | succ j => rw [scalar_succ, hint (j + 1) (by omega), sub_zero]

theorem NonIndexed.callsLegible_indexEquality {p : Nat × Exp} (hu : argsLegible u.args = true)
    (hx : p.2.callsLegible = true) : (u.indexEquality p).callsLegible = true :=
  Exp.callsLegible_addTerm (Exp.callsLegible_multiplyBy _ hx) hu

end Regroup

/-- The indices of an entry are all there. -/
def Filled (n : Nat) (index2retexp : List (Nat × Exp)) : Prop :=
  ∀ k < n, ∃ x, SortedMap.find (fun i j => i < j) k index2retexp = some x

/-- The first index is there, but not all. -/
def HalfFilled (n : Nat) (index2retexp : List (Nat × Exp)) : Prop :=
  ¬ Filled n index2retexp ∧ ∃ x, SortedMap.find (fun i j => i < j) 0 index2retexp = some x

/-- An entry of the table that was filled from equalities. -/
structure SoundEntry (cod : String → Nat) (entry : NonIndexed × List (Nat × Exp)) : Prop where
  args : argsLegible entry.1.args = true
  ordered : SortedMap.Ordered (fun i j => i < j) entry.2
  legible : ∀ p ∈ entry.2, p.2.callsLegible = true
  integer : ∀ p ∈ entry.2, ∀ I : Interp, I.cod = cod → ∀ τ k, 1 ≤ k → p.2.val I τ k = 0

/-- What the conjunction says of the call in the end. -/
def EntrySays (cod : String → Nat) (entry : NonIndexed × List (Nat × Exp)) (I : Interp) (τ : Nat → Int) : Prop :=
  ∀ p ∈ entry.2, (Filled (cod entry.1.funcName) entry.2 → p.1 < cod entry.1.funcName) → entry.1.Says I τ p.1 p.2

section Entries

variable {cod : String → Nat} {env : Environment} {acc acc' : Conjunction × Bool}

theorem mem_iff_find {m : List (Nat × Exp)} (hm : SortedMap.Ordered (fun i j => decide (i < j)) m) {k : Nat} {x : Exp} :
    (k, x) ∈ m ↔ SortedMap.find (fun i j => i < j) k m = some x := by
  refine ⟨fun h => SortedMap.find_of_mem strictWeak_index hm h, fun h => ?_⟩
  obtain ⟨k', ht, hmem⟩ := SortedMap.mem_of_find h
  rwa [tied_index.1 ht] at hmem

/-- One call of the table. -/
theorem regroup_spec {entry : NonIndexed × List (Nat × Exp)} (hentry : SoundEntry cod entry)
    (hcod : ∀ n, env.queryRangeArity entry.1.funcName = .ok n → cod entry.1.funcName = n)
    (hacc : ∀ e ∈ acc.1.equalities, e.callsLegible = true) (h : regroup env acc entry = .ok acc') :
    (∀ e ∈ acc'.1.equalities, e.callsLegible = true) ∧
      (acc'.2 = true ↔ acc.2 = true ∨ HalfFilled (cod entry.1.funcName) entry.2) ∧
      (acc'.2 = false → acc.1.AddsEqualities cod acc'.1 (EntrySays cod entry)) := by
  obtain ⟨u, m⟩ := entry
  rw [regroup, bind_eq_ok] at h
  obtain ⟨n, hn, h⟩ := h
  obtain rfl : cod u.funcName = n := hcod n hn
  have hfind := fun k x => mem_iff_find hentry.ordered (k := k) (x := x)
  split at h
  · next es hes =>
    cases h
    have hes := Outcome.forall₂_of_mapM_some hes
    have hlen : es.length = cod u.funcName := by rw [← hes.length_eq, List.length_range]
    have hget : ∀ k x, es[k]? = some x ↔ k < cod u.funcName ∧ (k, x) ∈ m := by
      obtain ⟨-, hes⟩ := List.forall₂_iff_get.1 hes
      have helem : ∀ k (h : k < es.length), SortedMap.find (fun i j => i < j) k m = some es[k] := by
        intro k h
        have hk := hes k (by rw [List.length_range]; omega) h
        simpa using hk
      intro k x
      rw [hfind]
      constructor
      · intro h
        obtain ⟨hk, rfl⟩ := List.getElem?_eq_some_iff.1 h
        exact ⟨by omega, helem k hk⟩
      · rintro ⟨hk, hx⟩
        rw [← hx, helem k (by omega)]
        exact List.getElem?_eq_getElem _
    have hfilled : Filled (cod u.funcName) m := by
      intro k hk
      have hlt : k < es.length := by omega
      refine ⟨es[k], ?_⟩
      rw [← hfind]
      exact ((hget k _).1 (List.getElem?_eq_getElem _)).2
    have hadds := @Conjunction.addEqualityApart_adds cod acc.1 (u.tupleEquality es) hacc
      (NonIndexed.callsLegible_tupleEquality hentry.args)
    refine ⟨hadds.legible, ⟨.inl, fun h => h.resolve_right fun hhalf => hhalf.1 hfilled⟩, fun _ => hadds.congr ?_⟩
    rintro I rfl τ
    rw [NonIndexed.holdsEq_tupleEquality hlen]
    simp only [hget]
    exact ⟨fun h p hp hlt => h p.1 p.2 ⟨hlt hfilled, hp⟩, fun h k x hkx => h (k, x) hkx.2 fun _ => hkx.1⟩
  · next hnone =>
    cases h
    obtain ⟨k, hk, hkm⟩ := Outcome.exists_of_mapM_none hnone
    have hfilled : ¬ Filled (cod u.funcName) m := by
      intro hf
      obtain ⟨x, hx⟩ := hf k (List.mem_range.1 hk)
      rw [hkm] at hx
      cases hx
    have hadds := @Conjunction.foldl_addEqualityApart_adds cod _ u.indexEquality m _ hacc
      fun p hp => NonIndexed.callsLegible_indexEquality hentry.args (hentry.legible p hp)
    refine ⟨hadds.legible, ?_, fun hflag => hadds.congr ?_⟩
    · rw [Bool.or_eq_true, HalfFilled, Option.isSome_iff_exists]
      exact or_congr_right ⟨fun h => ⟨hfilled, h⟩, fun h => h.2⟩
    · rw [Bool.or_eq_false_iff] at hflag
      have hpos : ∀ p ∈ m, p.1 ≠ 0 := by
        rintro ⟨k, x⟩ hp rfl
        rw [(hfind 0 x).1 hp] at hflag
        cases hflag.2
      intro I hI τ
      refine forall₂_congr fun p hp => ?_
      rw [NonIndexed.holdsEq_indexEquality (hpos p hp) hentry.args (hentry.legible p hp) (hentry.integer p hp I hI τ)]
      exact ⟨fun h _ => h, fun h => h fun hf => absurd hf hfilled⟩

/-- All calls of the table. -/
theorem foldlM_regroup_spec : ∀ {table : CallTable} {acc acc' : Conjunction × Bool}, (∀ p ∈ table, SoundEntry cod p) →
    (∀ p ∈ table, ∀ n, env.queryRangeArity p.1.funcName = .ok n → cod p.1.funcName = n) →
    (∀ e ∈ acc.1.equalities, e.callsLegible = true) → table.foldlM (regroup env) acc = .ok acc' →
    (acc'.2 = true ↔ acc.2 = true ∨ ∃ p ∈ table, HalfFilled (cod p.1.funcName) p.2) ∧
      (acc'.2 = false → acc.1.AddsEqualities cod acc'.1 (fun I τ => ∀ p ∈ table, EntrySays cod p I τ))
  | [], acc, acc', _, _, hacc, h => by
    cases h
    exact ⟨by simp, fun _ => ⟨rfl, rfl, hacc, fun _ _ _ => by simp⟩⟩
  | p :: table, acc, acc', hs, hcod, hacc, h => by
    obtain ⟨hp, hs⟩ := List.forall_mem_cons.1 hs
    obtain ⟨hcodp, hcod⟩ := List.forall_mem_cons.1 hcod
    rw [List.foldlM_cons, bind_eq_ok] at h
    obtain ⟨acc₁, h₁, h⟩ := h
    obtain ⟨hleg₁, hflag₁, hadds₁⟩ := regroup_spec hp hcodp hacc h₁
    obtain ⟨hflag, hadds⟩ := foldlM_regroup_spec hs hcod hleg₁ h
    refine ⟨?_, fun hfalse => ?_⟩
    · rw [hflag, hflag₁, List.exists_mem_cons_iff, or_assoc]
    · have hfalse₁ : acc₁.2 = false := Bool.eq_false_iff.2 fun h => Bool.eq_false_iff.1 hfalse (hflag.2 (.inl h))
      exact ((hadds₁ hfalse₁).trans (hadds hfalse)).congr fun I _ τ => by rw [List.forall_mem_cons]

end Entries

end IEGen
