import IEGen.Objects
import IEGen.Substituted

/-!
# Moving tuple variables

`remapTupleVars` moves the tuple variables of an expression or a conjunction to other locations, all at once and inside
arguments too. It succeeds iff there is a location for each variable, and then gives the expression with the variables
at their new locations (`mapVars`), whose value is read at the new locations.
-/

namespace IEGen

open Outcome (bind_eq_ok)

/-! ## The operations -/

/-- `TupleVarTerm::remapLocation`. The `size() - 1` in its text is unsigned. -/
def remapLocation (oldToNewLocs : List Int) (coeff : Int) (location : Nat) : Except Failure Nat :=
  match oldToNewLocs[location]? with
  | some new =>
    if new < 0 then .error (.assertException ("TupleVarTerm::remapLocation: mapping " ++
      (Term.tupleVar coeff location).toString false false ++ " to location < 0"))
    else .ok new.toNat
  | none => .error (.assertException ("TupleVarTerm::remapLocation: mLocation = " ++ toString location ++
      ", out of range [0," ++ toString ((oldToNewLocs.length + (2 ^ 64 - 1)) % 2 ^ 64) ++ "]"))

/-- What `Exp::remapTupleVars` checks first: no location that is used twice. -/
def distinctLocs (oldToNewLocs : List Int) : Bool := decide (oldToNewLocs.filter (fun new => 0 ≤ new)).Nodup

mutual
/-- The body of the loop in `Exp::remapTupleVars`. -/
def Term.remapTupleVars (oldToNewLocs : List Int) : Term → Except Failure Term
  | .tupleVar c l => do .ok (.tupleVar c (← remapLocation oldToNewLocs c l))
  | .ufCall c f as i => do .ok (.ufCall c f (← argsRemapTupleVars oldToNewLocs as) i)
  | .tupleExp c es => do .ok (.tupleExp c (← argsRemapTupleVars oldToNewLocs es))
  | t => .ok t

/-- `Exp::remapTupleVars` -/
def Exp.remapTupleVars (oldToNewLocs : List Int) : Exp → Except Failure Exp
  | .mk k ts =>
    if distinctLocs oldToNewLocs then do .ok (.mk k (← termsRemapTupleVars oldToNewLocs ts))
    else .error (.assertException
      "Exp::remapTupleVars: two old locations are being mapped to the same new location")

def argsRemapTupleVars (oldToNewLocs : List Int) : List Exp → Except Failure (List Exp)
  | [] => .ok []
  | e :: es => do
    let e' ← e.remapTupleVars oldToNewLocs
    .ok (e' :: (← argsRemapTupleVars oldToNewLocs es))

def termsRemapTupleVars (oldToNewLocs : List Int) : List Term → Except Failure (List Term)
  | [] => .ok []
  | t :: ts => do
    let t' ← t.remapTupleVars oldToNewLocs
    .ok (t' :: (← termsRemapTupleVars oldToNewLocs ts))
end

namespace TupleDecl

/-- `copyTupleElem` -/
def copyTupleElem (d other : TupleDecl) (elemLocFrom elemLocTo : Nat) : TupleDecl :=
  ⟨d.elems.set elemLocTo (other.elem elemLocFrom)⟩

/-- The declaration that `Conjunction::remapTupleVars` makes; gaps are variables with their default names. -/
def remap (oldToNewLocs : List Int) (d : TupleDecl) : TupleDecl :=
  let maxLoc := oldToNewLocs.foldl max (-1)
  oldToNewLocs.zipIdx.foldl (fun newDecl p => if p.1 ≥ 0 then newDecl.copyTupleElem d p.2 p.1.toNat else newDecl)
    (sDefaultTupleDecl (maxLoc + 1).toNat)

end TupleDecl

namespace Conjunction

/-- `Conjunction::remapTupleVars` -/
def remapTupleVars (oldToNewLocs : List Int) (c : Conjunction) : Except Failure Conjunction := do
  let equalities ← c.equalities.mapM (fun e => do .ok (← e.remapTupleVars oldToNewLocs).normalizeForEquality)
  let inequalities ← c.inequalities.mapM (Exp.remapTupleVars oldToNewLocs)
  .ok ⟨equalities, inequalities, c.tupleDecl.remap oldToNewLocs, c.inArity⟩

end Conjunction

/-! ## Normalizing in two steps -/

namespace Exp

/-- The last step of `normalizeForEquality`. -/
def dropZeroTerm (e : Exp) : Exp :=
  match e.terms.getLast? with
  | some last => if last.coefficient = 0 then .mk e.expType e.terms.dropLast else e
  | none => e

theorem normalizeForEquality_cons (k : ExpType) (first : Term) (rest : List Term) :
    (Exp.mk k (first :: rest)).normalizeForEquality =
      (if first.coefficient < 0 then (Exp.mk k (first :: rest)).multiplyBy (-1) else .mk k (first :: rest)).dropZeroTerm :=
  rfl

theorem dropZeroTerm_append {e : Exp} {ts : List Term} {t : Term} (h : e.terms = ts ++ [t]) (h0 : t.coefficient = 0) :
    e.dropZeroTerm = .mk e.expType ts := by
  simp [dropZeroTerm, h, h0]

theorem dropZeroTerm_eq_self {e : Exp} (h : ∀ t ∈ e.terms.getLast?, t.coefficient ≠ 0) : e.dropZeroTerm = e := by
  unfold dropZeroTerm
  cases hl : e.terms.getLast? with
  | none => rfl
  | some last => exact if_neg (h last hl)

theorem dropZeroTerm_spec (e : Exp) :
    (∃ ts t, e.terms = ts ++ [t] ∧ t.coefficient = 0 ∧ e.dropZeroTerm = .mk e.expType ts) ∨
      (∀ t ∈ e.terms.getLast?, t.coefficient ≠ 0) ∧ e.dropZeroTerm = e := by
  by_cases h : ∀ t ∈ e.terms.getLast?, t.coefficient ≠ 0
  · exact .inr ⟨h, dropZeroTerm_eq_self h⟩
  · obtain ⟨t, ht, h0⟩ : ∃ t ∈ e.terms.getLast?, t.coefficient = 0 := by simpa using h
    have hts := (List.dropLast_append_getLast? t ht).symm
    exact .inl ⟨_, t, hts, h0, dropZeroTerm_append hts h0⟩

/-- What is left when the last term goes is part of the expression, and what goes has no value. -/
theorem terms_dropZeroTerm (e : Exp) : ∃ z, e.terms = e.dropZeroTerm.terms ++ z ∧ ∀ t ∈ z, t.coefficient = 0 := by
  rcases e.dropZeroTerm_spec with ⟨ts, t, hts, h0, hd⟩ | ⟨-, hd⟩
  · exact ⟨[t], by rw [hd, hts, terms_mk], by simpa using h0⟩
  · exact ⟨[], by rw [hd, List.append_nil], by simp⟩

/-- The first coefficient of a normalized expression is not negative. -/
theorem head_normalizeForEquality (e : Exp) : ∀ t ∈ e.normalizeForEquality.terms.head?, 0 ≤ t.coefficient := by
  obtain ⟨k, ts⟩ := e
  cases ts with
  | nil => simp [normalizeForEquality]
  | cons first rest =>
    intro t ht
    rw [normalizeForEquality_cons] at ht
    obtain ⟨z, hz, -⟩ := terms_dropZeroTerm
      (if first.coefficient < 0 then (Exp.mk k (first :: rest)).multiplyBy (-1) else .mk k (first :: rest))
    have hhead := @List.head?_append_of_ne_nil _ _ z (List.ne_nil_of_mem (List.mem_of_head? ht))
    rw [← hz] at hhead
    rw [← hhead] at ht
    split_ifs at ht with hneg
    · simp only [terms_multiplyBy, terms_mk, List.map_cons, List.head?_cons, Option.mem_some_iff] at ht
      subst ht
      simp only [Term.multiplyBy, Term.coefficient_setCoefficient]
      omega
    · simp only [terms_mk, List.head?_cons, Option.mem_some_iff] at ht
      subst ht
      omega

/-- Normalizing once more only drops a term with coefficient zero. -/
theorem normalizeForEquality_normalizeForEquality (e : Exp) :
    e.normalizeForEquality.normalizeForEquality = e.normalizeForEquality.dropZeroTerm := by
  have hpos := e.head_normalizeForEquality
  cases hn : e.normalizeForEquality with
  | mk k ts =>
    cases ts with
    | nil => rfl
    | cons first rest =>
      rw [hn] at hpos
      have h0 : ¬ first.coefficient < 0 := not_lt.2 (hpos first rfl)
      rw [normalizeForEquality_cons, if_neg h0]

end Exp

/-! ## Moving tuple variables -/

section MapVars

variable (σ : Nat → Nat)

mutual
/-- The term with the tuple variables at their new locations. -/
def Term.mapVars : Term → Term
  | .tupleVar c l => .tupleVar c (σ l)
  | .ufCall c f as i => .ufCall c f (argsMapVars as) i
  | .tupleExp c es => .tupleExp c (argsMapVars es)
  | t => t

def Exp.mapVars : Exp → Exp
  | .mk k ts => .mk k (termsMapVars ts)

def argsMapVars : List Exp → List Exp
  | [] => []
  | e :: es => e.mapVars :: argsMapVars es

def termsMapVars : List Term → List Term
  | [] => []
  | t :: ts => t.mapVars :: termsMapVars ts
end

theorem termsMapVars_eq_map (ts : List Term) : termsMapVars σ ts = ts.map (Term.mapVars σ) := by
  induction ts with
  | nil => rfl
  | cons t ts ih => rw [termsMapVars, ih, List.map_cons]

@[simp] theorem Exp.terms_mapVars (e : Exp) : (e.mapVars σ).terms = e.terms.map (Term.mapVars σ) := by
  cases e
  exact termsMapVars_eq_map σ _

@[simp] theorem Exp.expType_mapVars (e : Exp) : (e.mapVars σ).expType = e.expType := by cases e; rfl

@[simp] theorem Term.coefficient_mapVars (t : Term) : (t.mapVars σ).coefficient = t.coefficient := by cases t <;> rfl

theorem Term.mapVars_setCoefficient (c : Int) (t : Term) : (t.setCoefficient c).mapVars σ = (t.mapVars σ).setCoefficient c := by
  cases t <;> rfl

theorem Exp.mapVars_multiplyBy (k : Int) (e : Exp) : (e.multiplyBy k).mapVars σ = (e.mapVars σ).multiplyBy k := by
  have hterms : ((e.multiplyBy k).mapVars σ).terms = ((e.mapVars σ).multiplyBy k).terms := by
    simp only [terms_mapVars, terms_multiplyBy, List.map_map]
    refine List.map_congr_left fun t _ => ?_
    simp only [Function.comp_apply, Term.multiplyBy, Term.mapVars_setCoefficient, Term.coefficient_mapVars]
  rw [← Exp.mk_expType_terms ((e.multiplyBy k).mapVars σ), hterms, expType_mapVars, expType_multiplyBy,
    ← expType_mapVars σ e, ← expType_multiplyBy k, Exp.mk_expType_terms]

/-- Normalizing looks at the coefficients only. -/
theorem Exp.mapVars_normalizeForEquality (e : Exp) :
    e.normalizeForEquality.mapVars σ = (e.mapVars σ).normalizeForEquality := by
  have hdrop : ∀ e' : Exp, e'.dropZeroTerm.mapVars σ = (e'.mapVars σ).dropZeroTerm := by
    intro e'
    rcases e'.dropZeroTerm_spec with ⟨ts, t, hts, h0, hd⟩ | ⟨hlast, hd⟩
    · have hts' : (e'.mapVars σ).terms = ts.map (Term.mapVars σ) ++ [t.mapVars σ] := by simp [hts]
      rw [hd, dropZeroTerm_append hts' (by rw [Term.coefficient_mapVars, h0]), expType_mapVars, Exp.mapVars,
        termsMapVars_eq_map]
    · rw [hd, dropZeroTerm_eq_self]
      intro t ht
      rw [terms_mapVars, List.getLast?_map] at ht
      obtain ⟨u, hu, rfl⟩ := Option.mem_map.1 ht
      rw [Term.coefficient_mapVars]
      exact hlast u hu
  obtain ⟨k, ts⟩ := e
  cases ts with
  | nil => rfl
  | cons first rest =>
    have hmap : (Exp.mk k (first :: rest)).mapVars σ = .mk k (first.mapVars σ :: termsMapVars σ rest) := rfl
    rw [hmap, normalizeForEquality_cons, normalizeForEquality_cons, Term.coefficient_mapVars, ← hmap, hdrop]
    split_ifs
    · rw [mapVars_multiplyBy]
    · rfl

variable {σ} {p q : Nat → Prop}

mutual
theorem Term.mapVars_mapVars {τ : Nat → Nat} (h : ∀ l, p l → τ (σ l) = l) : ∀ {t : Term}, t.VarsIn p →
    (t.mapVars σ).mapVars τ = t
  | .tupleVar c l, ht => congrArg (Term.tupleVar c) (h l ht)
  | .symConst .., _ | .constVal _, _ => rfl
  | .ufCall c f as i, ht => by simp only [Term.mapVars, argsMapVars_argsMapVars h ht]
  | .tupleExp c es, ht => by simp only [Term.mapVars, argsMapVars_argsMapVars h ht]

/-- Moving the variables back. -/
theorem Exp.mapVars_mapVars {τ : Nat → Nat} (h : ∀ l, p l → τ (σ l) = l) : ∀ {e : Exp}, e.VarsIn p →
    (e.mapVars σ).mapVars τ = e
  | .mk _ _, he => by simp only [Exp.mapVars, termsMapVars_termsMapVars h he]

theorem argsMapVars_argsMapVars {τ : Nat → Nat} (h : ∀ l, p l → τ (σ l) = l) : ∀ {es : List Exp}, argsVarsIn p es →
    argsMapVars τ (argsMapVars σ es) = es
  | [], _ => rfl
  | _ :: _, hes => by simp only [argsMapVars, Exp.mapVars_mapVars h hes.1, argsMapVars_argsMapVars h hes.2]

theorem termsMapVars_termsMapVars {τ : Nat → Nat} (h : ∀ l, p l → τ (σ l) = l) : ∀ {ts : List Term},
    termsVarsIn p ts → termsMapVars τ (termsMapVars σ ts) = ts
  | [], _ => rfl
  | _ :: _, hts => by simp only [termsMapVars, Term.mapVars_mapVars h hts.1, termsMapVars_termsMapVars h hts.2]
end

mutual
theorem Term.varsIn_mapVars (h : ∀ l, p l → q (σ l)) : ∀ {t : Term}, t.VarsIn p → (t.mapVars σ).VarsIn q
  | .tupleVar _ l, ht => h l ht
  | .symConst .., _ | .constVal _, _ => trivial
  | .ufCall _ _ _ _, ht => argsVarsIn_argsMapVars h ht
  | .tupleExp _ _, ht => argsVarsIn_argsMapVars h ht

theorem Exp.varsIn_mapVars (h : ∀ l, p l → q (σ l)) : ∀ {e : Exp}, e.VarsIn p → (e.mapVars σ).VarsIn q
  | .mk _ _, he => termsVarsIn_termsMapVars h he

theorem argsVarsIn_argsMapVars (h : ∀ l, p l → q (σ l)) : ∀ {es : List Exp}, argsVarsIn p es →
    argsVarsIn q (argsMapVars σ es)
  | [], _ => trivial
  | _ :: _, hes => ⟨Exp.varsIn_mapVars h hes.1, argsVarsIn_argsMapVars h hes.2⟩

theorem termsVarsIn_termsMapVars (h : ∀ l, p l → q (σ l)) : ∀ {ts : List Term}, termsVarsIn p ts →
    termsVarsIn q (termsMapVars σ ts)
  | [], _ => trivial
  | _ :: _, hts => ⟨Term.varsIn_mapVars h hts.1, termsVarsIn_termsMapVars h hts.2⟩
end

theorem termsVarsIn_iff {ts : List Term} : termsVarsIn p ts ↔ ∀ t ∈ ts, t.VarsIn p := by
  induction ts with
  | nil => simp [termsVarsIn]
  | cons t ts ih => simp [termsVarsIn, ih]

theorem Term.varsIn_setCoefficient {c : Int} {t : Term} (h : t.VarsIn p) : (t.setCoefficient c).VarsIn p := by
  cases t <;> exact h

theorem Exp.varsIn_normalizeForEquality {e : Exp} (h : e.VarsIn p) : e.normalizeForEquality.VarsIn p := by
  have hterms : ∀ t ∈ e.terms, t.VarsIn p := by
    cases e
    exact termsVarsIn_iff.1 h
  have hn : ∀ t ∈ e.normalizeForEquality.terms, t.VarsIn p := by
    intro t ht
    obtain ⟨c, u, hu, rfl⟩ := terms_normalizeForEquality e t ht
    exact Term.varsIn_setCoefficient (hterms u hu)
  cases hd : e.normalizeForEquality with
  | mk k ts =>
    rw [hd] at hn
    exact termsVarsIn_iff.2 hn

section Val

variable (σ) {I : Interp} {τ : Nat → Int}

mutual
theorem Term.val_mapVars : ∀ t : Term, (t.mapVars σ).val I τ = t.val I (fun l => τ (σ l))
  | .tupleVar .. | .symConst .. | .constVal _ => rfl
  | .ufCall c f as none => by simp only [Term.mapVars, Term.val, argsVal_argsMapVars as]
  | .ufCall c f as (some i) => by simp only [Term.mapVars, Term.val, argsVal_argsMapVars as]
  | .tupleExp c es => by simp only [Term.mapVars, Term.val, argsVal_argsMapVars es]

/-- Moving a variable is reading its new location. -/
theorem Exp.val_mapVars : ∀ e : Exp, (e.mapVars σ).val I τ = e.val I (fun l => τ (σ l))
  | .mk _ ts => termsVal_termsMapVars ts

theorem argsVal_argsMapVars : ∀ es : List Exp, argsVal I τ (argsMapVars σ es) = argsVal I (fun l => τ (σ l)) es
  | [] => rfl
  | e :: es => by simp only [argsMapVars, argsVal, Exp.val_mapVars e, argsVal_argsMapVars es]

theorem termsVal_termsMapVars : ∀ ts : List Term,
    termsVal I τ (termsMapVars σ ts) = termsVal I (fun l => τ (σ l)) ts
  | [] => rfl
  | t :: ts => by simp only [termsMapVars, termsVal, Term.val_mapVars t, termsVal_termsMapVars ts]
end

end Val

end MapVars

/-! ## When the locations are there -/

section Returns

variable {oldToNewLocs : List Int} {σ : Nat → Nat}

/-- The vector moves location `l` to `σ l`. -/
structure Moves (oldToNewLocs : List Int) (σ : Nat → Nat) : Prop where
  distinct : distinctLocs oldToNewLocs = true
  loc : ∀ l < oldToNewLocs.length, oldToNewLocs[l]? = some (σ l : Int)

theorem remapLocation_eq_ok_iff (hm : Moves oldToNewLocs σ) {c : Int} {l l' : Nat} :
    remapLocation oldToNewLocs c l = .ok l' ↔ l < oldToNewLocs.length ∧ l' = σ l := by
  unfold remapLocation
  by_cases hl : l < oldToNewLocs.length
  · have hneg : ¬ ((σ l : Int) < 0) := by omega
    rw [hm.loc l hl]
    simp only [hneg, if_false, Int.toNat_natCast, Except.ok.injEq, hl, true_and, eq_comm]
  · rw [List.getElem?_eq_none (not_lt.1 hl)]
    simp only [reduceCtorEq, hl, false_and]

mutual
theorem Term.remapTupleVars_eq_ok_iff (hm : Moves oldToNewLocs σ) :
    ∀ (t : Term) {t' : Term}, t.remapTupleVars oldToNewLocs = .ok t' ↔
    t.VarsIn (· < oldToNewLocs.length) ∧ t' = t.mapVars σ
  | .tupleVar c l, t' => by
    simp only [Term.remapTupleVars, bind_eq_ok, remapLocation_eq_ok_iff hm, Except.ok.injEq, Term.VarsIn, Term.mapVars]
    exact ⟨fun ⟨_, ⟨hl, h⟩, ht⟩ => ⟨hl, by rw [← ht, h]⟩, fun ⟨hl, ht⟩ => ⟨_, ⟨hl, rfl⟩, ht.symm⟩⟩
  | .symConst .., t' | .constVal _, t' => by
    simp only [Term.remapTupleVars, Except.ok.injEq, Term.VarsIn, Term.mapVars, true_and, eq_comm]
  | .ufCall c f as i, t' => by
    simp only [Term.remapTupleVars, bind_eq_ok, argsRemapTupleVars_eq_ok_iff hm as, Except.ok.injEq, Term.VarsIn,
      Term.mapVars]
    exact ⟨fun ⟨_, ⟨hl, h⟩, ht⟩ => ⟨hl, by rw [← ht, h]⟩, fun ⟨hl, ht⟩ => ⟨_, ⟨hl, rfl⟩, ht.symm⟩⟩
  | .tupleExp c es, t' => by
    simp only [Term.remapTupleVars, bind_eq_ok, argsRemapTupleVars_eq_ok_iff hm es, Except.ok.injEq, Term.VarsIn,
      Term.mapVars]
    exact ⟨fun ⟨_, ⟨hl, h⟩, ht⟩ => ⟨hl, by rw [← ht, h]⟩, fun ⟨hl, ht⟩ => ⟨_, ⟨hl, rfl⟩, ht.symm⟩⟩

/-- Moving the variables of an expression succeeds iff there is a location for each of them. -/
theorem Exp.remapTupleVars_eq_ok_iff (hm : Moves oldToNewLocs σ) :
    ∀ (e : Exp) {e' : Exp}, e.remapTupleVars oldToNewLocs = .ok e' ↔
    e.VarsIn (· < oldToNewLocs.length) ∧ e' = e.mapVars σ
  | .mk k ts, e' => by
    simp only [Exp.remapTupleVars, hm.distinct, if_true, bind_eq_ok, termsRemapTupleVars_eq_ok_iff hm ts, Except.ok.injEq,
      Exp.VarsIn, Exp.mapVars]
    exact ⟨fun ⟨_, ⟨hl, h⟩, ht⟩ => ⟨hl, by rw [← ht, h]⟩, fun ⟨hl, ht⟩ => ⟨_, ⟨hl, rfl⟩, ht.symm⟩⟩

theorem argsRemapTupleVars_eq_ok_iff (hm : Moves oldToNewLocs σ) :
    ∀ (es : List Exp) {es' : List Exp}, argsRemapTupleVars oldToNewLocs es = .ok es' ↔
    argsVarsIn (· < oldToNewLocs.length) es ∧ es' = argsMapVars σ es
  | [], es' => by
    simp only [argsRemapTupleVars, Except.ok.injEq, argsVarsIn, argsMapVars, true_and, eq_comm]
  | e :: es, es' => by
    simp only [argsRemapTupleVars, bind_eq_ok, Exp.remapTupleVars_eq_ok_iff hm e, argsRemapTupleVars_eq_ok_iff hm es,
      Except.ok.injEq, argsVarsIn, argsMapVars]
    constructor
    · rintro ⟨_, ⟨he, rfl⟩, _, ⟨hes, rfl⟩, rfl⟩
      exact ⟨⟨he, hes⟩, rfl⟩
    · rintro ⟨⟨he, hes⟩, rfl⟩
      exact ⟨_, ⟨he, rfl⟩, _, ⟨hes, rfl⟩, rfl⟩

theorem termsRemapTupleVars_eq_ok_iff (hm : Moves oldToNewLocs σ) :
    ∀ (ts : List Term) {ts' : List Term}, termsRemapTupleVars oldToNewLocs ts = .ok ts' ↔
    termsVarsIn (· < oldToNewLocs.length) ts ∧ ts' = termsMapVars σ ts
  | [], ts' => by
    simp only [termsRemapTupleVars, Except.ok.injEq, termsVarsIn, termsMapVars, true_and, eq_comm]
  | t :: ts, ts' => by
    simp only [termsRemapTupleVars, bind_eq_ok, Term.remapTupleVars_eq_ok_iff hm t, termsRemapTupleVars_eq_ok_iff hm ts,
      Except.ok.injEq, termsVarsIn, termsMapVars]
    constructor
    · rintro ⟨_, ⟨he, rfl⟩, _, ⟨hes, rfl⟩, rfl⟩
      exact ⟨⟨he, hes⟩, rfl⟩
    · rintro ⟨⟨he, hes⟩, rfl⟩
      exact ⟨_, ⟨he, rfl⟩, _, ⟨hes, rfl⟩, rfl⟩
end

variable (hm : Moves oldToNewLocs σ)
include hm

/-- What `Conjunction::remapTupleVars` does, and when it returns. -/
theorem Conjunction.remapTupleVars_eq_ok_iff {c c' : Conjunction} : c.remapTupleVars oldToNewLocs = .ok c' ↔
    c.VarsIn (· < oldToNewLocs.length) ∧
      c' = ⟨c.equalities.map (fun e => (e.mapVars σ).normalizeForEquality), c.inequalities.map (Exp.mapVars σ),
        c.tupleDecl.remap oldToNewLocs, c.inArity⟩ := by
  have heqs : ∀ {r : List Exp},
      c.equalities.mapM (fun e => do .ok (← e.remapTupleVars oldToNewLocs).normalizeForEquality) = .ok r ↔
        (∀ e ∈ c.equalities, e.VarsIn (· < oldToNewLocs.length)) ∧
          r = c.equalities.map (fun e => (e.mapVars σ).normalizeForEquality) := by
    refine Outcome.mapM_eq_ok_iff fun e _ d => ?_
    simp only [bind_eq_ok, Exp.remapTupleVars_eq_ok_iff hm, Except.ok.injEq]
    exact ⟨fun ⟨_, ⟨he, h⟩, hd⟩ => ⟨he, by rw [← hd, h]⟩, fun ⟨he, hd⟩ => ⟨_, ⟨he, rfl⟩, hd.symm⟩⟩
  have hineqs : ∀ {r : List Exp}, c.inequalities.mapM (Exp.remapTupleVars oldToNewLocs) = .ok r ↔
      (∀ e ∈ c.inequalities, e.VarsIn (· < oldToNewLocs.length)) ∧ r = c.inequalities.map (Exp.mapVars σ) :=
    Outcome.mapM_eq_ok_iff fun e _ _ => Exp.remapTupleVars_eq_ok_iff hm e
  simp only [remapTupleVars, bind_eq_ok, heqs, hineqs, Except.ok.injEq, VarsIn, List.forall_mem_append]
  constructor
  · rintro ⟨_, ⟨h₁, rfl⟩, _, ⟨h₂, rfl⟩, rfl⟩
    exact ⟨⟨h₁, h₂⟩, rfl⟩
  · rintro ⟨⟨h₁, h₂⟩, rfl⟩
    exact ⟨_, ⟨h₁, rfl⟩, _, ⟨h₂, rfl⟩, rfl⟩

end Returns

/-! ## The declaration -/

namespace TupleDecl

theorem ext_elem {d d' : TupleDecl} (hs : d.size = d'.size) (h : ∀ l < d.size, d.elem l = d'.elem l) : d = d' := by
  have helems : d.elems = d'.elems := by
    refine List.ext_getElem hs fun l h₁ h₂ => ?_
    have hl := h l h₁
    rwa [elem, elem, List.getD_eq_getElem _ _ h₁, List.getD_eq_getElem _ _ h₂] at hl
  cases d
  cases d'
  exact congrArg TupleDecl.mk helems

theorem size_copyTupleElem (d other : TupleDecl) (i j : Nat) : (d.copyTupleElem other i j).size = d.size := by
  simp [copyTupleElem, size]

theorem elem_copyTupleElem (d other : TupleDecl) (i : Nat) {j l : Nat} (hl : l < d.size) :
    (d.copyTupleElem other i j).elem l = if j = l then other.elem i else d.elem l := by
  have hl' : l < (d.elems.set j (other.elem i)).length := by rw [List.length_set]; exact hl
  have hget : (d.copyTupleElem other i j).elem l = (d.elems.set j (other.elem i))[l] := by
    rw [elem, copyTupleElem, List.getD_eq_getElem _ _ hl']
  rw [hget, List.getElem_set, elem.eq_def d, List.getD_eq_getElem _ _ hl]
  rfl

/-- The loop that copies the elements: each one is at its new location. -/
theorem elem_foldl_copyTupleElem {ls : List Nat} (hnd : ls.Nodup) {d d₀ : TupleDecl} (hlt : ∀ l ∈ ls, l < d₀.size) :
    ((ls.map Int.ofNat).zipIdx.foldl (fun newDecl p => if p.1 ≥ 0 then newDecl.copyTupleElem d p.2 p.1.toNat
      else newDecl) d₀).size = d₀.size ∧ ∀ i l, ls[i]? = some l →
    ((ls.map Int.ofNat).zipIdx.foldl (fun newDecl p => if p.1 ≥ 0 then newDecl.copyTupleElem d p.2 p.1.toNat
      else newDecl) d₀).elem l = d.elem i := by
  induction ls using List.reverseRecOn with
  | nil => simp
  | append_singleton ls x ih =>
    obtain ⟨hnd, -, hx⟩ := List.nodup_append.1 hnd
    obtain ⟨h₁, h₂⟩ := ih hnd fun l hl => hlt l (List.mem_append_left _ hl)
    rw [List.map_append, List.zipIdx_append, List.foldl_append]
    simp only [List.map_cons, List.map_nil, List.zipIdx_cons, List.zipIdx_nil, List.foldl_cons, List.foldl_nil,
      List.length_map, Nat.zero_add, ge_iff_le, Int.ofNat_eq_natCast, Int.natCast_nonneg, if_true, Int.toNat_natCast] at h₁ h₂ ⊢
    refine ⟨(size_copyTupleElem _ _ _ _).trans h₁, fun i l hi => ?_⟩
    have hmem : l ∈ ls ++ [x] := List.mem_of_getElem? hi
    rw [elem_copyTupleElem _ _ _ (by rw [h₁]; exact hlt l hmem)]
    rcases lt_or_ge i ls.length with hlen | hlen
    · rw [List.getElem?_append_left hlen] at hi
      rw [if_neg fun hxl => hx l (List.mem_of_getElem? hi) x (List.mem_singleton_self x) hxl.symm]
      exact h₂ i l hi
    · rw [List.getElem?_append_right hlen] at hi
      rw [List.getElem?_singleton] at hi
      split_ifs at hi with h0
      obtain rfl := Option.some_inj.1 hi
      rw [if_pos rfl, show i = ls.length by omega]

theorem size_sDefaultTupleDecl (n : Nat) : (sDefaultTupleDecl n).size = n := by simp [sDefaultTupleDecl, size]

end TupleDecl

theorem foldl_max_eq {l : List Int} {a m : Int} (h : m = a ∨ m ∈ l) (ha : a ≤ m) (hl : ∀ x ∈ l, x ≤ m) :
    l.foldl max a = m := by
  induction l generalizing a with
  | nil => exact (h.resolve_right (by simp)).symm
  | cons x l ih =>
    obtain ⟨hx, hl⟩ := List.forall_mem_cons.1 hl
    rw [List.foldl_cons]
    refine ih ?_ (max_le ha hx) hl
    rcases h with rfl | h
    · exact .inl (max_eq_left hx).symm
    · exact (List.mem_cons.1 h).imp_left fun hm => by rw [← hm, max_eq_right ha]

end IEGen
