import IEGen.Z3Form

/-!
# When the assertions state the constraints

The visitor of `getZ3form` keeps one text for each side of a constraint, one for the last variable inside of a call, and one for
the argument. So its assertion is the formula of the constraint where one term at most has to be kept in each of these places.

* `Term.Direct`, `Exp.DirectArgument` and `Exp.DirectConstraint` say where this is so.
* `Narrow` and `NoSum` are the shape of what is written; a sum of several terms does not have it. With them the written formulas
  are compared with `Exp.formula` (`Term.shown_eq_iff`, `orZero_eq_side_iff`, `assertedFormula_eq_iff`).
* `getZ3form_iff` is the result about the texts: they declare the variables and state the constraints just where all constraints
  are direct.
-/

namespace IEGen

open SortedList (build Sorted)

/-! ## The condition -/

section Direct

variable (d : TupleDecl)

mutual
/-- A variable, a symbolic constant, or a call of one argument that is written as it is. -/
def Term.Direct : Term → Prop
  | .tupleVar _ l => d.elemIsConst l = false
  | .symConst .. => True
  | .ufCall _ _ as i => i = none ∧ as.length = 1 ∧ argsDirect as
  | .constVal _ | .tupleExp .. => False

/-- An argument with one such term at most, without a coefficient, and a constant. -/
def Exp.DirectArgument : Exp → Prop
  | .mk _ ts => ts ≠ [] ∧ (ts.filter (fun t => !t.isConst)).length ≤ 1 ∧ termsDirect ts

def argsDirect : List Exp → Prop
  | [] => True
  | e :: es => e.DirectArgument ∧ argsDirect es

def termsDirect : List Term → Prop
  | [] => True
  | t :: ts => (t.isConst = false → t.coefficient = 1 ∧ t.Direct) ∧ termsDirect ts
end

/-- A constraint with one such term at most on each side, with no coefficient but one and minus one. -/
def Exp.DirectConstraint (e : Exp) : Prop :=
  (∀ left, (e.sideTerms left).length ≤ 1) ∧ ∀ t ∈ e.terms, t.isConst = false → t.coefficient.natAbs = 1 ∧ t.Direct d

end Direct

/-! ## The shape of what is written -/

/-- With two S-expressions or more, the first is a numeral, and not zero. -/
def Narrow (xs : List SExpr) : Prop := ∀ x y r, xs = x :: y :: r → ∃ k : Int, k ≠ 0 ∧ x = .num k

/-- Not a sum. -/
def NoSum (xs : List SExpr) : Prop := ∀ ys, xs ≠ [.list (.sym "+" :: ys)]

theorem narrow_nil : Narrow [] := nofun

theorem narrow_singleton (x : SExpr) : Narrow [x] := fun _ _ _ h => by cases h

theorem narrow_piece {c : Int} (hc : c ≠ 0) (w : String) : Narrow (smtPiece c w) := by
  unfold smtPiece
  split
  · exact narrow_singleton _
  · intro x y r h
    cases h
    exact ⟨c.natAbs, by omega, rfl⟩

theorem noSum_piece (c : Int) (w : String) : NoSum (smtPiece c w) := by
  intro ys
  unfold smtPiece
  split <;> nofun

theorem noSum_call {f : String} (hf : f ≠ "+") (xs : List SExpr) : NoSum [.list (.sym f :: xs)] := by
  intro ys h
  cases h
  exact hf rfl

theorem ne_plus_of_isIdent {f : String} (h : isIdent f = true) : f ≠ "+" := by
  rintro rfl
  revert h
  decide

theorem ne_times_of_isIdent {f : String} (h : isIdent f = true) : f ≠ "*" := by
  rintro rfl
  revert h
  decide

section Shape

variable {d : TupleDecl}

theorem narrow_paramSeen {s : List SExpr × List SExpr} (h₁ : Narrow s.1) (h₂ : Narrow s.2) (cons : Option Int) :
    Narrow (paramSeen s cons) := by
  cases cons with
  | none =>
    show Narrow (if s.2 = [] then s.1 else s.2)
    split
    · exact h₁
    · exact h₂
  | some c => exact narrow_singleton _

mutual
/-- The last variable inside of a call. -/
theorem Term.narrow_seen : ∀ {t : Term} {s : List SExpr × List SExpr}, t.coefficient ≠ 0 → t.Canonical →
    Narrow s.1 ∧ NoSum s.1 → Narrow (t.seen d s).1 ∧ NoSum (t.seen d s).1
  | .tupleVar .., _, h, _, _ | .symConst .., _, h, _, _ => ⟨narrow_piece h _, noSum_piece _ _⟩
  | .ufCall .., _, _, hc, hs => narrow_argsSeen hc hs
  | .constVal _, _, _, _, hs | .tupleExp .., _, _, _, hs => hs

theorem narrow_argsSeen : ∀ {es : List Exp} {s : List SExpr × List SExpr}, argsCanonical es →
    Narrow s.1 ∧ NoSum s.1 → Narrow (argsSeen d es s).1 ∧ NoSum (argsSeen d es s).1
  | [], _, _, hs => hs
  | .mk k ts :: _, s, ⟨⟨_, _, hts⟩, hes⟩, hs =>
    narrow_argsSeen (s := Exp.seen d (.mk k ts) s) hes (narrow_termsSeen hts hs)

theorem narrow_termsSeen : ∀ {ts : List Term} {s : List SExpr × List SExpr}, termsCanonical ts →
    Narrow s.1 ∧ NoSum s.1 → Narrow (termsSeen d ts s).1 ∧ NoSum (termsSeen d ts s).1
  | [], _, _, hs => hs
  | t :: _, s, ⟨⟨h, ht⟩, hts⟩, hs => narrow_termsSeen (s := t.seen d s) hts (Term.narrow_seen h ht hs)
end

/-- The terms of an argument leave what was there or a call. -/
theorem termsSeen_snd {ts : List Term} (hn : termsScanned d ts) (s : List SExpr × List SExpr) :
    (termsSeen d ts s).2 = s.2 ∨ ∃ f ys, f ≠ "+" ∧ (termsSeen d ts s).2 = [.list (.sym f :: ys)] := by
  induction ts generalizing s with
  | nil => exact .inl rfl
  | cons t ts ih =>
    have hone : (t.seen d s).2 = s.2 ∨ ∃ f ys, f ≠ "+" ∧ (t.seen d s).2 = [.list (.sym f :: ys)] := by
      cases t with
      | ufCall c f as i => exact .inr ⟨f, _, ne_plus_of_isIdent hn.1.1, rfl⟩
      | tupleVar | symConst | constVal | tupleExp => exact .inl rfl
    rcases ih hn.2 (t.seen d s) with h | h
    · rw [termsSeen, h]
      exact hone
    · exact .inr h

theorem narrow_argsSeen_snd {es : List Exp} (hc : argsCanonical es) (hn : argsScanned d es) {s : List SExpr × List SExpr}
    (hs : Narrow s.1 ∧ NoSum s.1) (h : Narrow s.2) : Narrow (argsSeen d es s).2 := by
  induction es generalizing s with
  | nil => exact h
  | cons e es ih =>
    obtain ⟨k, ts⟩ := e
    have hfst := narrow_termsSeen (d := d) hc.1.2.2 hs
    refine ih hc.2 hn.2 hfst (narrow_paramSeen hfst.1 ?_ _)
    rcases termsSeen_snd hn.1 s with h' | ⟨f, ys, -, h'⟩
    · rw [h']
      exact h
    · rw [h']
      exact narrow_singleton _

/-- What is written for the terms of an argument without its constant. -/
def picked (s : List SExpr × List SExpr) : List SExpr := if s.2 = [] then s.1 else s.2

theorem picked_shape {ts : List Term} (hc : termsCanonical ts) (hn : termsScanned d ts) :
    Narrow (picked (termsSeen d ts ([], []))) ∧ NoSum (picked (termsSeen d ts ([], []))) := by
  have hfst := narrow_termsSeen (d := d) (s := ([], [])) hc ⟨narrow_nil, nofun⟩
  unfold picked
  split
  · exact hfst
  · next hne =>
    rcases termsSeen_snd hn ([], []) with h | ⟨f, ys, hf, h⟩
    · exact absurd h hne
    · rw [h]
      exact ⟨narrow_singleton _, noSum_call hf _⟩

end Shape

/-! ## Constants -/

/-- A canonical expression has one constant at most, and it is not zero. -/
theorem consts_cases {ts : List Term} (hs : Sorted Term.factorLt ts) (hc : termsCanonical ts) :
    ts.filter Term.isConst = [] ∨ ∃ c : Int, c ≠ 0 ∧ ts.filter Term.isConst = [.constVal c] := by
  have hconst : ∀ t ∈ ts.filter Term.isConst, ∃ c : Int, c ≠ 0 ∧ t = .constVal c := by
    intro t ht
    obtain ⟨hmem, hconst⟩ := List.mem_filter.1 ht
    obtain ⟨c, rfl⟩ := Term.eq_constVal hconst
    exact ⟨c, (termsCanonical_iff.1 hc _ hmem).1, rfl⟩
  have hsorted : Sorted Term.factorLt (ts.filter Term.isConst) := List.Pairwise.filter _ hs
  match hf : ts.filter Term.isConst with
  | [] => exact .inl rfl
  | [t] =>
    obtain ⟨c, hne, rfl⟩ := hconst t (by rw [hf]; exact List.mem_singleton_self t)
    exact .inr ⟨c, hne, rfl⟩
  | t :: u :: r =>
    rw [hf] at hsorted hconst
    obtain ⟨c, -, rfl⟩ := hconst t List.mem_cons_self
    obtain ⟨c', -, rfl⟩ := hconst u (List.mem_cons_of_mem _ List.mem_cons_self)
    have hlt := (List.pairwise_cons.1 hsorted).1 (.constVal c') List.mem_cons_self
    have hirrefl := Term.strictWeak_factorLt.irrefl (.constVal c')
    have hsame : Term.factorLt (.constVal c) (.constVal c') = Term.factorLt (.constVal c') (.constVal c') := rfl
    rw [hsame, hirrefl] at hlt
    cases hlt

theorem getConstTerm_eq (k : ExpType) (ts : List Term) :
    VisitorGetZ3form.getConstTerm (.mk k ts) = ((ts.filter Term.isConst).head?).map Term.coefficient := by
  unfold VisitorGetZ3form.getConstTerm
  rw [Exp.terms_mk, List.head?_filter]

theorem lastConst_eq (k : Int) (ts : List Term) :
    lastConst k ts = (ts.filter Term.isConst).foldl (fun _ t => t.coefficient) k := by
  unfold lastConst
  rw [List.foldl_filter]

/-- The constant of a canonical expression. -/
theorem lastConst_eq_constSum {ts : List Term} (hs : Sorted Term.factorLt ts) (hc : termsCanonical ts) :
    lastConst 0 ts = constSum ts := by
  rw [lastConst_eq, constSum]
  rcases consts_cases hs hc with h | ⟨c, -, h⟩
  · rw [h]
    rfl
  · rw [h]
    exact (add_zero c).symm

/-! ## Arguments -/

section Equations

variable {d : TupleDecl}

theorem smtProduct_eq_num {c : Int} {x : SExpr} {k : Int} (h : smtProduct c x = .num k) : x = .num k := by
  unfold smtProduct at h
  split at h
  · exact h
  · cases h

theorem smtFactor_ne_num {t : Term} (ht : t.isConst = false) (hp : t.Printable d) (k : Int) : t.smtFactor d ≠ .num k := by
  cases t with
  | constVal c => cases ht
  | tupleVar c l =>
    rw [Term.smtFactor, if_neg (by rw [show d.elemIsConst l = false from hp]; decide)]
    nofun
  | symConst c w => nofun
  | ufCall c f as i => cases as <;> nofun
  | tupleExp c es => nofun

theorem smtProduct_ne_num {t : Term} (ht : t.isConst = false) (hp : t.Printable d) (c k : Int) :
    smtProduct c (t.smtFactor d) ≠ .num k := fun h => smtFactor_ne_num ht hp k (smtProduct_eq_num h)

/-- The words of a variable are its multiple when there is no coefficient to write. -/
theorem smtPiece_eq_iff {c c' : Int} (hc : c'.natAbs = c.natAbs) (w : String) :
    smtPiece c w = [smtProduct c' (.sym w)] ↔ c' = 1 := by
  unfold smtPiece smtProduct
  split_ifs with h₁ h₂
  · exact ⟨fun _ => h₂, fun _ => rfl⟩
  · exact ⟨fun h => (by simp at h), fun h => absurd h h₂⟩
  · exact ⟨fun h => (by simp at h), fun h => absurd h (by omega)⟩
  · exact ⟨fun h => (by simp at h), fun h => absurd h (by omega)⟩

theorem termsSmt_eq (ts : List Term) :
    termsSmt d ts = (ts.filter (fun t => !t.isConst)).map (fun t => smtProduct t.coefficient (t.smtFactor d)) := by
  induction ts with
  | nil => rfl
  | cons t ts ih =>
    rw [termsSmt, ih]
    cases h : t.isConst with
    | true => simp [h]
    | false => simp [h]

theorem termsSeen_filter (ts : List Term) (s : List SExpr × List SExpr) :
    termsSeen d ts s = termsSeen d (ts.filter (fun t => !t.isConst)) s := by
  induction ts generalizing s with
  | nil => rfl
  | cons t ts ih =>
    cases t with
    | constVal c => exact ih s
    | tupleVar | symConst | ufCall | tupleExp => exact ih _

theorem picked_seen {t : Term} (ht : t.isConst = false) : picked (t.seen d ([], [])) = (t.shown d).getD [] := by
  cases t with
  | constVal c => cases ht
  | tupleVar | symConst | ufCall | tupleExp => rfl

theorem termsDirect_iff {ts : List Term} :
    termsDirect d ts ↔ ∀ t ∈ ts, t.isConst = false → t.coefficient = 1 ∧ t.Direct d := by
  induction ts with
  | nil => simp [termsDirect]
  | cons t ts ih => rw [termsDirect, ih, List.forall_mem_cons]

theorem termsPrintable_iff {ts : List Term} : termsPrintable d ts ↔ ∀ t ∈ ts, t.Printable d := by
  induction ts with
  | nil => simp [termsPrintable]
  | cons t ts ih => rw [termsPrintable, ih, List.forall_mem_cons]

theorem termsScanned_iff {ts : List Term} : termsScanned d ts ↔ ∀ t ∈ ts, t.Scanned d := by
  induction ts with
  | nil => simp [termsScanned]
  | cons t ts ih => rw [termsScanned, ih, List.forall_mem_cons]

/-- The terms that are picked are the terms there are where there is none, or one that is written as it is. -/
theorem picked_eq_iff {ts : List Term} (hc : termsCanonical ts) (hp : termsPrintable d ts) (hn : termsScanned d ts)
    (hshown : ∀ t ∈ ts, t.isConst = false →
      (t.shown d = some [smtProduct t.coefficient (t.smtFactor d)] ↔ t.coefficient = 1 ∧ t.Direct d)) :
    picked (termsSeen d ts ([], [])) = termsSmt d ts ↔
      (ts.filter (fun t => !t.isConst)).length ≤ 1 ∧ termsDirect d ts := by
  have hdirect : termsDirect d ts ↔ ∀ t ∈ ts.filter (fun t => !t.isConst), t.coefficient = 1 ∧ t.Direct d := by
    rw [termsDirect_iff]
    simp only [List.mem_filter, Bool.not_eq_true', and_imp]
  have hshape := (picked_shape (d := d) hc hn).1
  have hvars : ∀ t ∈ ts.filter (fun t => !t.isConst), t ∈ ts ∧ t.isConst = false := by
    intro t ht
    obtain ⟨hmem, hconst⟩ := List.mem_filter.1 ht
    exact ⟨hmem, by simpa using hconst⟩
  rw [hdirect, termsSmt_eq, termsSeen_filter] at *
  match hf : ts.filter (fun t => !t.isConst) with
  | [] =>
    rw [hf]
    exact ⟨fun _ => ⟨Nat.zero_le _, nofun⟩, fun _ => rfl⟩
  | [t] =>
    rw [hf] at hvars ⊢
    obtain ⟨hmem, hconst⟩ := hvars t (List.mem_singleton_self t)
    rw [termsSeen, termsSeen, picked_seen hconst, List.forall_mem_singleton, ← hshown t hmem hconst]
    cases t.shown d with
    | none => simp
    | some xs => simp
  | t :: u :: r =>
    rw [hf] at hvars hshape ⊢
    refine ⟨fun h => ?_, fun h => absurd h.1 (by simp)⟩
    obtain ⟨k, -, hk⟩ := hshape _ _ _ h
    obtain ⟨hmem, hconst⟩ := hvars t List.mem_cons_self
    exact absurd hk (smtProduct_ne_num hconst (termsPrintable_iff.1 hp t hmem) _ _)

/-- An argument is written as it is where it is direct. -/
theorem paramSeen_eq_iff {k : ExpType} {ts : List Term} (hs : Sorted Term.factorLt ts) (hc : termsCanonical ts)
    (hp : termsPrintable d ts) (hn : termsScanned d ts)
    (hshown : ∀ t ∈ ts, t.isConst = false →
      (t.shown d = some [smtProduct t.coefficient (t.smtFactor d)] ↔ t.coefficient = 1 ∧ t.Direct d)) :
    (Exp.seen d (.mk k ts) ([], [])).2 = [Exp.smt d (.mk k ts)] ↔ Exp.DirectArgument d (.mk k ts) := by
  have hpicked := picked_eq_iff hc hp hn hshown
  have hshape := (picked_shape (d := d) hc hn).2
  show paramSeen (termsSeen d ts ([], [])) (VisitorGetZ3form.getConstTerm (.mk k ts)) = _ ↔
    ts ≠ [] ∧ (ts.filter (fun t => !t.isConst)).length ≤ 1 ∧ termsDirect d ts
  rw [← hpicked, getConstTerm_eq, Exp.smt, constSum]
  rcases consts_cases hs hc with h | ⟨c, hne, h⟩
  · rw [h]
    show picked (termsSeen d ts ([], [])) = [smtSum (termsSmt d ts) 0] ↔ _
    cases ts with
    | nil => exact ⟨fun h => (by cases h), fun h => absurd rfl h.1⟩
    | cons t ts =>
      have ht : t.isConst = false := by
        by_contra hconst
        rw [List.filter_cons_of_pos (by simpa using hconst)] at h
        cases h
      have hcons : termsSmt d (t :: ts) = smtProduct t.coefficient (t.smtFactor d) :: termsSmt d ts := by
        rw [termsSmt, if_neg (by rw [ht]; decide)]
      rw [and_iff_right (List.cons_ne_nil t ts), hcons]
      cases hrest : termsSmt d ts with
      | nil => exact Iff.rfl
      | cons x xs =>
        refine ⟨fun heq => absurd heq (hshape _), fun heq => ?_⟩
        have hlen := (hpicked.1 (by rw [heq, hcons, hrest])).1
        have hsmt : (termsSmt d (t :: ts)).length = ((t :: ts).filter (fun t => !t.isConst)).length := by
          rw [termsSmt_eq, List.length_map]
        rw [← hsmt, hcons, hrest] at hlen
        simp at hlen
  · have hts : ts ≠ [] := by
      rintro rfl
      cases h
    rw [h, and_iff_right hts]
    show [SExpr.list (.sym "+" :: (picked (termsSeen d ts ([], [])) ++ [.num c]))] = [smtSum (termsSmt d ts) (c + 0)] ↔ _
    rw [add_zero, smtSum_of_ne_zero hne]
    constructor
    · intro heq
      simpa using heq
    · intro heq
      rw [heq]

theorem smt_eq_num {e : Exp} {k : Int} (hc : e.Canonical) (hp : e.Printable d) (h : e.smt d = .num k) : k = 0 := by
  obtain ⟨kind, ts⟩ := e
  rw [Exp.smt, termsSmt_eq] at h
  by_contra hk
  by_cases hconst : constSum ts = 0
  · rw [hconst] at h
    match hf : ts.filter (fun t => !t.isConst) with
    | [] =>
      rw [hf] at h
      exact hk (by cases h; rfl)
    | [t] =>
      rw [hf] at h
      have hmem : t ∈ ts.filter (fun t => !t.isConst) := by rw [hf]; exact List.mem_singleton_self t
      obtain ⟨hmem, hvar⟩ := List.mem_filter.1 hmem
      exact smtProduct_ne_num (by simpa using hvar) (termsPrintable_iff.1 hp t hmem) _ _ h
    | t :: u :: r =>
      rw [hf] at h
      cases h
  · rw [smtSum_of_ne_zero hconst] at h
    cases h

mutual
/-- A term is written as it is where it is direct and has no coefficient. -/
theorem Term.shown_eq_iff : ∀ {t : Term} {c : Int}, c.natAbs = t.coefficient.natAbs → t.isConst = false → t.Canonical →
    t.Printable d → t.Scanned d → (t.shown d = some [smtProduct c (t.smtFactor d)] ↔ c = 1 ∧ t.Direct d)
  | .tupleVar c₀ l, c, hc, _, _, hp, _ => by
    have hfactor : Term.smtFactor d (.tupleVar c₀ l) = .sym (d.elemVarString l) := by
      rw [Term.smtFactor, if_neg (by rw [show d.elemIsConst l = false from hp]; decide)]
    rw [hfactor, Term.shown, Option.some_inj, smtPiece_eq_iff (c := c₀) hc]
    exact (and_iff_left hp).symm
  | .symConst c₀ w, c, hc, _, _, _, _ => by
    rw [Term.smtFactor, Term.shown, Option.some_inj, smtPiece_eq_iff (c := c₀) hc]
    exact (and_iff_left trivial).symm
  | .tupleExp c₀ es, c, _, _, _, _, _ => ⟨fun h => (by cases h), fun h => h.2.elim⟩
  | .constVal _, _, _, h, _, _, _ => by cases h
  | .ufCall c₀ f as i, c, _, _, hcan, hp, hn => by
    have hargs := argsSeen_eq_iff hcan hp hn.2
    have hindex : f ++ indexToString i = f ↔ i = none := by
      cases i with
      | none => simp [indexToString]
      | some j =>
        refine ⟨fun h => ?_, nofun⟩
        have hlen := congrArg (fun s => s.toList.length) h
        simp [indexToString] at hlen
    have hdirect : Term.Direct d (.ufCall c₀ f as i) ↔ i = none ∧ as.length = 1 ∧ argsDirect d as := Iff.rfl
    rw [hdirect, ← hargs, Term.shown, Option.some_inj]
    by_cases hc : c = 1
    · rw [hc, smtProduct, if_pos rfl, and_iff_right rfl]
      cases as with
      | nil => simp [Term.smtFactor]
      | cons e es =>
        rw [← hindex, and_iff_right (List.cons_ne_nil e es)]
        show [SExpr.list (.sym f :: (argsSeen d (e :: es) ([], [])).2)] =
          [SExpr.list (.sym (f ++ indexToString i) :: argsSmt d (e :: es))] ↔ _
        simp only [List.cons.injEq, SExpr.list.injEq, SExpr.sym.injEq, and_true]
        exact and_congr_left fun _ => eq_comm
    · rw [smtProduct, if_neg hc]
      refine ⟨fun h => absurd ?_ (ne_times_of_isIdent hn.1), fun h => absurd h.1 hc⟩
      simp only [List.cons.injEq, SExpr.list.injEq, SExpr.sym.injEq, and_true] at h
      exact h.1

/-- The arguments of a call are written as they are where there is one, and it is direct. -/
theorem argsSeen_eq_iff : ∀ {es : List Exp}, argsCanonical es → argsPrintable d es → argsScanned d es →
    (es ≠ [] ∧ (argsSeen d es ([], [])).2 = argsSmt d es ↔ es.length = 1 ∧ argsDirect d es)
  | [], _, _, _ => ⟨fun h => absurd rfl h.1, fun h => by cases h.1⟩
  | [.mk k ts], ⟨⟨_, hs, hc⟩, _⟩, ⟨hp, _⟩, ⟨hn, _⟩ => by
    have hexp := paramSeen_eq_iff (k := k) hs hc hp hn (termsShown_eq_iff hc hp hn)
    show _ ∧ (Exp.seen d (.mk k ts) ([], [])).2 = [Exp.smt d (.mk k ts)] ↔ 1 = 1 ∧ Exp.DirectArgument d (.mk k ts) ∧ True
    rw [hexp, and_true, and_iff_right rfl]
    exact and_iff_right (List.cons_ne_nil _ _)
  | e :: e' :: es, hc, hp, hn => by
    refine ⟨fun h => ?_, fun h => absurd h.1 (by simp)⟩
    have hnarrow := narrow_argsSeen_snd (s := ([], [])) hc hn ⟨narrow_nil, nofun⟩ narrow_nil
    obtain ⟨k, hk, hnum⟩ := hnarrow _ _ _ h.2
    exact absurd (smt_eq_num hc.1 hp.1 hnum) hk

theorem termsShown_eq_iff : ∀ {ts : List Term}, termsCanonical ts → termsPrintable d ts → termsScanned d ts →
    ∀ t ∈ ts, t.isConst = false →
      (t.shown d = some [smtProduct t.coefficient (t.smtFactor d)] ↔ t.coefficient = 1 ∧ t.Direct d)
  | [], _, _, _ => nofun
  | _ :: _, ⟨⟨_, hc⟩, hcs⟩, ⟨hp, hps⟩, ⟨hn, hns⟩ =>
    List.forall_mem_cons.2 ⟨fun hconst => Term.shown_eq_iff rfl hconst hc hp hn, termsShown_eq_iff hcs hps hns⟩
end

/-! ## Constraints -/

theorem sideSeen_filter (left : Bool) (ts : List Term) (s : List SExpr) : sideSeen d left ts s =
    (ts.filter (fun t => !t.isConst && decide (t.coefficient < 0) == left)).foldl (fun s t => (t.shown d).getD s) s := by
  induction ts generalizing s with
  | nil => rfl
  | cons t ts ih =>
    show sideSeen d left ts (t.onSide d left s) = _
    rw [ih, List.filter_cons]
    unfold Term.onSide
    cases hconst : t.isConst with
    | true =>
      have hshown : t.shown d = none := by
        obtain ⟨c, rfl⟩ := Term.eq_constVal hconst
        rfl
      rw [hshown, Option.getD_none, ite_self]
      rfl
    | false =>
      by_cases hleft : decide (t.coefficient < 0) = left
      · rw [if_pos hleft, if_pos (by simpa using hleft), List.foldl_cons]
      · rw [if_neg hleft, if_neg (by simpa using hleft)]

theorem shown_shape {t : Term} (hc : t.coefficient ≠ 0) (hn : t.Scanned d) {xs : List SExpr} (h : t.shown d = some xs) :
    Narrow xs ∧ NoSum xs := by
  cases t with
  | tupleVar c l =>
    cases h
    exact ⟨narrow_piece hc _, noSum_piece _ _⟩
  | symConst c w =>
    cases h
    exact ⟨narrow_piece hc _, noSum_piece _ _⟩
  | ufCall c f as i =>
    cases h
    exact ⟨narrow_singleton _, noSum_call (ne_plus_of_isIdent hn.1) _⟩
  | constVal c => cases h
  | tupleExp c es => cases h

theorem orZero_ne_nil (xs : List SExpr) : orZero xs ≠ [] := by
  unfold orZero
  split
  · nofun
  · next h => exact h

theorem orZero_shape {xs : List SExpr} (h : Narrow xs ∧ NoSum xs) : Narrow (orZero xs) ∧ NoSum (orZero xs) := by
  unfold orZero
  split
  · exact ⟨narrow_singleton _, nofun⟩
  · exact h

theorem sideSeen_shape {left : Bool} {ts : List Term} (hc : termsCanonical ts) (hn : termsScanned d ts) {s : List SExpr}
    (hs : Narrow s ∧ NoSum s) : Narrow (sideSeen d left ts s) ∧ NoSum (sideSeen d left ts s) := by
  induction ts generalizing s with
  | nil => exact hs
  | cons t ts ih =>
    refine ih hc.2 hn.2 ?_
    unfold Term.onSide
    split
    · cases hshown : t.shown d with
      | none => exact hs
      | some xs => exact shown_shape hc.1.1 hn.1 hshown
    · exact hs

/-- A side is written as it is where it has one direct term at most. -/
theorem orZero_eq_side_iff {k : ExpType} {ts : List Term} (hc : termsCanonical ts) (hp : termsPrintable d ts)
    (hn : termsScanned d ts) (left : Bool) :
    orZero (sideSeen d left ts []) = Exp.side d left (.mk k ts) ↔ (Exp.sideTerms left (.mk k ts)).length ≤ 1 ∧
      ∀ t ∈ Exp.sideTerms left (.mk k ts), t.coefficient.natAbs = 1 ∧ t.Direct d := by
  have hseen : Narrow (sideSeen d left ts []) ∧ NoSum (sideSeen d left ts []) := sideSeen_shape hc hn ⟨narrow_nil, nofun⟩
  have hshape := (orZero_shape hseen).1
  have hvars : ∀ t ∈ Exp.sideTerms left (.mk k ts), t ∈ ts ∧ t.isConst = false := by
    intro t ht
    obtain ⟨hmem, hside⟩ := List.mem_filter.1 ht
    rw [Bool.and_eq_true] at hside
    exact ⟨hmem, by simpa using hside.1⟩
  have hfold : sideSeen d left ts [] = (Exp.sideTerms left (.mk k ts)).foldl (fun s t => (t.shown d).getD s) [] :=
    sideSeen_filter left ts []
  rw [hfold] at hshape ⊢
  unfold Exp.side
  match hside : Exp.sideTerms left (.mk k ts) with
  | [] => exact ⟨fun _ => ⟨Nat.zero_le _, nofun⟩, fun _ => rfl⟩
  | [t] =>
    rw [hside] at hvars
    obtain ⟨hmem, hconst⟩ := hvars t (List.mem_singleton_self t)
    have hprint := termsPrintable_iff.1 hp t hmem
    have hiff := Term.shown_eq_iff (c := (t.coefficient.natAbs : Int)) rfl hconst (termsCanonical_iff.1 hc t hmem).2 hprint
      (termsScanned_iff.1 hn t hmem)
    have hnum := smtProduct_ne_num hconst hprint t.coefficient.natAbs 0
    have hone : (t.coefficient.natAbs : Int) = 1 ↔ t.coefficient.natAbs = 1 := by omega
    rw [List.forall_mem_singleton, ← hone, ← hiff]
    show orZero ((t.shown d).getD []) = [smtProduct t.coefficient.natAbs (t.smtFactor d)] ↔ 1 ≤ 1 ∧ _
    rw [and_iff_right (le_refl 1)]
    unfold orZero
    cases t.shown d with
    | none => exact ⟨fun h => absurd (List.cons.inj h).1.symm hnum, nofun⟩
    | some xs =>
      rw [Option.getD_some, Option.some_inj]
      split
      · next hnil =>
        rw [hnil]
        exact ⟨fun h => absurd (List.cons.inj h).1.symm hnum, nofun⟩
      · rfl
  | t :: u :: r =>
    rw [hside] at hvars hshape
    refine ⟨fun h => ?_, fun h => absurd h.1 (by simp)⟩
    obtain ⟨hmem, hconst⟩ := hvars t List.mem_cons_self
    obtain ⟨k', -, hnum⟩ := hshape _ _ _ h
    exact absurd hnum (smtProduct_ne_num hconst (termsPrintable_iff.1 hp t hmem) _ _)

/-- A sum that is no list of several summands has one. -/
theorem eq_of_smtSum_zero {xs xs' : List SExpr} (hsum : NoSum xs) (hne : xs' ≠ []) (h : xs = [smtSum xs' 0]) : xs = xs' := by
  match xs' with
  | [] => exact absurd rfl hne
  | [x] => exact h
  | x :: y :: r => exact absurd h (hsum _)

/-- A comparison that is written as it is has both sides written as they are. -/
theorem eq_of_writtenCompare {comp : String} {xs ys xs' ys' : List SExpr} {k : Int} (hxs : xs ≠ [] ∧ NoSum xs)
    (hys : ys ≠ [] ∧ NoSum ys) (hxs' : xs' ≠ []) (hys' : ys' ≠ [])
    (h : writtenCompare comp xs ys k = smtCompare comp xs' ys' k) : xs = xs' ∧ ys = ys' := by
  unfold writtenCompare smtCompare at h
  split_ifs at h with hzero hneg
  · rw [show max (-k) 0 = 0 by omega, show max k 0 = 0 by omega] at h
    have hall : xs ++ ys = [smtSum xs' 0, smtSum ys' 0] := (List.cons.inj (SExpr.list.inj h)).2
    obtain ⟨x, xs₁, rfl⟩ := List.exists_cons_of_ne_nil hxs.1
    obtain ⟨y, ys₁, rfl⟩ := List.exists_cons_of_ne_nil hys.1
    have hnil : xs₁ = [] ∧ ys₁ = [] := by
      have hlen := congrArg List.length hall
      simp only [List.length_append, List.length_cons, List.length_nil] at hlen
      exact ⟨List.eq_nil_of_length_eq_zero (by omega), List.eq_nil_of_length_eq_zero (by omega)⟩
    obtain ⟨rfl, rfl⟩ := hnil
    obtain ⟨hx, hrest⟩ := List.cons.inj hall
    exact ⟨eq_of_smtSum_zero hxs.2 hxs' (by rw [hx]), eq_of_smtSum_zero hys.2 hys' hrest⟩
  · rw [show max (-k) 0 = -k by omega, show max k 0 = 0 by omega, smtSum_of_ne_zero (by omega)] at h
    obtain ⟨hx, hy⟩ := List.cons.inj (List.cons.inj (SExpr.list.inj h)).2
    have hxs₁ := (List.cons.inj (SExpr.list.inj hx)).2
    exact ⟨List.append_cancel_right hxs₁, eq_of_smtSum_zero hys.2 hys' hy⟩
  · rw [show max (-k) 0 = 0 by omega, show max k 0 = k by omega, smtSum_of_ne_zero hzero] at h
    have hall : xs ++ [.list (.sym "+" :: (ys ++ [.num k]))] = [smtSum xs' 0] ++ [.list (.sym "+" :: (ys' ++ [.num k]))] :=
      (List.cons.inj (SExpr.list.inj h)).2
    obtain ⟨hx, hy⟩ := List.append_inj' hall rfl
    have hys₁ := (List.cons.inj (SExpr.list.inj (List.cons.inj hy).1)).2
    exact ⟨eq_of_smtSum_zero hxs.2 hxs' hx, List.append_cancel_right hys₁⟩

/-- Sides of one summand are compared as they are. -/
theorem writtenCompare_singleton (comp : String) (x y : SExpr) (k : Int) :
    writtenCompare comp [x] [y] k = smtCompare comp [x] [y] k := by
  unfold writtenCompare smtCompare
  split_ifs with hzero hneg
  · rw [show max (-k) 0 = 0 by omega, show max k 0 = 0 by omega]
    rfl
  · rw [show max (-k) 0 = -k by omega, show max k 0 = 0 by omega, smtSum_of_ne_zero (by omega)]
    rfl
  · rw [show max (-k) 0 = 0 by omega, show max k 0 = k by omega, smtSum_of_ne_zero hzero]
    rfl

/-- The formula that is written for a constraint is its formula where the constraint is direct. -/
theorem assertedFormula_eq_iff {e : Exp} (hc : (Exp.mk .expression e.terms).Canonical) (hp : e.Printable d)
    (hn : e.Scanned d) : e.assertedFormula d = e.formula d ↔ e.DirectConstraint d := by
  obtain ⟨kind, ts⟩ := e
  obtain ⟨-, hs, hc⟩ : (Exp.mk .expression ts).Canonical := hc
  have hside := orZero_eq_side_iff (k := kind) hc hp hn
  have hdirect : Exp.DirectConstraint d (.mk kind ts) ↔
      ∀ left, orZero (sideSeen d left ts []) = Exp.side d left (.mk kind ts) := by
    rw [forall_congr' hside, forall_and, Exp.DirectConstraint]
    refine and_congr_right fun _ => ⟨fun h left t ht => ?_, fun h t ht hconst => ?_⟩
    · obtain ⟨hmem, hleft⟩ := List.mem_filter.1 ht
      rw [Bool.and_eq_true] at hleft
      exact h t hmem (by simpa using hleft.1)
    · exact h (decide (t.coefficient < 0)) t (List.mem_filter.2 ⟨ht, by simp [hconst]⟩)
  have hshape : ∀ left, orZero (sideSeen d left ts []) ≠ [] ∧ NoSum (orZero (sideSeen d left ts [])) := fun left =>
    ⟨orZero_ne_nil _, (orZero_shape (sideSeen_shape hc hn ⟨narrow_nil, nofun⟩)).2⟩
  have hne : ∀ left, Exp.side d left (.mk kind ts) ≠ [] := by
    intro left
    unfold Exp.side
    split
    · nofun
    · next h => exact fun hmap => h (List.map_eq_nil_iff.1 hmap)
  have hcompare : ∀ comp k, writtenCompare comp (orZero (sideSeen d true ts [])) (orZero (sideSeen d false ts [])) k =
      smtCompare comp (Exp.side d true (.mk kind ts)) (Exp.side d false (.mk kind ts)) k ↔
      ∀ left, orZero (sideSeen d left ts []) = Exp.side d left (.mk kind ts) := by
    intro comp k
    constructor
    · intro h
      obtain ⟨hleft, hright⟩ := eq_of_writtenCompare (hshape true) (hshape false) (hne true) (hne false) h
      intro left
      cases left
      · exact hright
      · exact hleft
    · intro h
      have hone : ∀ left, ∃ x, Exp.side d left (.mk kind ts) = [x] := by
        intro left
        have hlen := ((hside left).1 (h left)).1
        unfold Exp.side
        match Exp.sideTerms left (.mk kind ts), hlen with
        | [], _ => exact ⟨_, rfl⟩
        | [t], _ => exact ⟨_, rfl⟩
      obtain ⟨x, hx⟩ := hone true
      obtain ⟨y, hy⟩ := hone false
      rw [h true, h false, hx, hy, writtenCompare_singleton]
  rw [hdirect]
  have hlast : lastConst 0 ts = constSum ts := lastConst_eq_constSum hs hc
  have hasserted : ∀ k, lastConst 0 ts = k → Exp.assertedFormula d (.mk kind ts) =
      if kind = .equality then writtenCompare "=" (orZero (sideSeen d true ts [])) (orZero (sideSeen d false ts [])) k
      else if k = 0 then writtenCompare "<=" (orZero (sideSeen d true ts [])) (orZero (sideSeen d false ts [])) 0
      else writtenCompare "<" (orZero (sideSeen d true ts [])) (orZero (sideSeen d false ts [])) (k + 1) := by
    rintro _ rfl
    rfl
  have hformula : Exp.formula d (.mk kind ts) =
      if kind = .equality then smtCompare "=" (Exp.side d true (.mk kind ts)) (Exp.side d false (.mk kind ts)) (constSum ts)
      else if constSum ts = 0 then smtCompare "<=" (Exp.side d true (.mk kind ts)) (Exp.side d false (.mk kind ts)) 0
      else smtCompare "<" (Exp.side d true (.mk kind ts)) (Exp.side d false (.mk kind ts)) (constSum ts + 1) := rfl
  rw [hasserted _ hlast, hformula]
  split_ifs
  · exact hcompare _ _
  · exact hcompare _ _
  · exact hcompare _ _

end Equations

/-! ## Reading the texts -/

section Legible

variable {d : TupleDecl}

/-- A numeral begins with a digit or with the sign. -/
theorem ne_intStr {s : String} {c : Char} {l : List Char} (hs : s.toList = c :: l) (hc : c.isDigit = false) (hc' : c ≠ '-')
    (n : Int) : s ≠ toString n := by
  intro h
  cases n with
  | ofNat n =>
    obtain ⟨c', l', hdigits, hc₁⟩ := Words.exists_digits n
    have htext : s.toList = c' :: l' := (congrArg String.toList h).trans hdigits
    rw [hs] at htext
    obtain ⟨rfl, -⟩ := List.cons.inj htext
    rw [hc] at hc₁
    cases hc₁
  | negSucc n =>
    have htext : s.toList = '-' :: (toString (n + 1)).toList := by
      rw [h]
      show ("-" ++ toString (n + 1)).toList = _
      rw [String.toList_append]
      rfl
    rw [hs] at htext
    exact hc' (List.cons.inj htext).1

/-- An identifier, and what begins with one, is no numeral. -/
theorem legible_sym {s : String} (h : isIdent s = true) (r : String) : (SExpr.sym (s ++ r)).Legible := by
  have hname := isName_of_isIdent h
  have hchars := isNameChar_of_isName hname
  unfold isName at hname
  split at hname
  · cases hname
  · next c cs hs =>
    simp only [Bool.and_eq_true, Bool.not_eq_true'] at hname
    have hminus : c ≠ '-' := by
      rintro rfl
      have hc := hchars '-' (by rw [hs]; exact List.mem_cons_self)
      revert hc
      decide
    have htext : (s ++ r).toList = c :: (cs ++ r.toList) := by
      rw [String.toList_append, hs]
      rfl
    exact ne_intStr htext hname.1.1 hminus

theorem legible_ident {s : String} (h : isIdent s = true) : (SExpr.sym s).Legible := by
  have hs := legible_sym h ""
  rwa [String.append_empty] at hs

theorem legible_plus : (SExpr.sym "+").Legible := ne_intStr (c := '+') (l := []) rfl rfl (by decide)

theorem legible_smtPiece (c : Int) {w : String} (h : isIdent w = true) : SExpr.SeqLegible (smtPiece c w) := by
  unfold smtPiece
  split
  · exact ⟨legible_ident h, trivial⟩
  · exact ⟨trivial, legible_ident h, trivial⟩

theorem legible_smtSum {xs : List SExpr} (h : SExpr.SeqLegible xs) (k : Int) : (smtSum xs k).Legible := by
  by_cases hk : k = 0
  · rw [hk]
    match xs, h with
    | [], _ => exact trivial
    | [x], h => exact h.1
    | x :: y :: r, h => exact ⟨legible_plus, h⟩
  · rw [smtSum_of_ne_zero hk]
    exact ⟨legible_plus, SExpr.seqLegible_append.2 ⟨h, trivial, trivial⟩⟩

theorem legible_smtProduct {x : SExpr} (h : x.Legible) (c : Int) : (smtProduct c x).Legible := by
  unfold smtProduct
  split
  · exact h
  · exact ⟨ne_intStr (c := '*') (l := []) rfl rfl (by decide), trivial, h, trivial⟩

mutual
theorem Term.legible_smtFactor : ∀ {t : Term}, t.Scanned d → (t.smtFactor d).Legible
  | .tupleVar c l, h => by
    rw [Term.smtFactor]
    split
    · exact trivial
    · next hc => exact legible_ident (h.2 (by simpa using hc))
  | .symConst _ _, h => legible_ident h
  | .ufCall _ _ [] _, h => legible_sym h.1 _
  | .ufCall _ _ (_ :: _) _, h => ⟨legible_sym h.1 _, legible_smt h.2.1, legible_argsSmt h.2.2⟩
  | .constVal _, _ => trivial
  | .tupleExp _ _, h => legible_argsSmt h

theorem legible_smt : ∀ {e : Exp}, e.Scanned d → (e.smt d).Legible
  | .mk _ _, h => legible_smtSum (legible_termsSmt h) _

theorem legible_argsSmt : ∀ {es : List Exp}, argsScanned d es → SExpr.SeqLegible (argsSmt d es)
  | [], _ => trivial
  | _ :: _, h => ⟨legible_smt h.1, legible_argsSmt h.2⟩

theorem legible_termsSmt : ∀ {ts : List Term}, termsScanned d ts → SExpr.SeqLegible (termsSmt d ts)
  | [], _ => trivial
  | t :: ts, h => by
    rw [termsSmt]
    split
    · exact legible_termsSmt h.2
    · exact ⟨legible_smtProduct (Term.legible_smtFactor h.1) _, legible_termsSmt h.2⟩
end

theorem legible_side {e : Exp} (h : e.Scanned d) (left : Bool) : SExpr.SeqLegible (e.side d left) := by
  obtain ⟨k, ts⟩ := e
  have hmap : ∀ us : List Term, (∀ t ∈ us, t.Scanned d) →
      SExpr.SeqLegible (us.map (fun t => smtProduct t.coefficient.natAbs (t.smtFactor d))) := by
    intro us hus
    induction us with
    | nil => exact trivial
    | cons t us ih =>
      exact ⟨legible_smtProduct (Term.legible_smtFactor (hus t List.mem_cons_self)) _,
        ih fun u hu => hus u (List.mem_cons_of_mem _ hu)⟩
  unfold Exp.side
  split
  · exact ⟨trivial, trivial⟩
  · exact hmap _ fun t ht => termsScanned_iff.1 h t (List.mem_filter.1 ht).1

theorem legible_smtCompare {comp : String} (hcomp : (SExpr.sym comp).Legible) {xs ys : List SExpr} (hx : SExpr.SeqLegible xs)
    (hy : SExpr.SeqLegible ys) (k : Int) : (smtCompare comp xs ys k).Legible :=
  ⟨hcomp, legible_smtSum hx _, legible_smtSum hy _, trivial⟩

theorem legible_writtenCompare {comp : String} (hcomp : (SExpr.sym comp).Legible) {xs ys : List SExpr}
    (hx : SExpr.SeqLegible xs) (hy : SExpr.SeqLegible ys) (k : Int) : (writtenCompare comp xs ys k).Legible := by
  have hplus : ∀ {zs : List SExpr} (n : Int), SExpr.SeqLegible zs → (SExpr.list (.sym "+" :: (zs ++ [.num n]))).Legible :=
    fun n hz => ⟨legible_plus, SExpr.seqLegible_append.2 ⟨hz, trivial, trivial⟩⟩
  unfold writtenCompare
  split_ifs
  · exact ⟨hcomp, SExpr.seqLegible_append.2 ⟨hx, hy⟩⟩
  · exact ⟨hcomp, hplus _ hx, hy⟩
  · exact ⟨hcomp, SExpr.seqLegible_append.2 ⟨hx, hplus _ hy, trivial⟩⟩

theorem legible_compare : (SExpr.sym "=").Legible ∧ (SExpr.sym "<=").Legible ∧ (SExpr.sym "<").Legible :=
  ⟨ne_intStr (c := '=') (l := []) rfl rfl (by decide), ne_intStr (c := '<') (l := ['=']) rfl rfl (by decide),
    ne_intStr (c := '<') (l := []) rfl rfl (by decide)⟩

theorem legible_formula {e : Exp} (h : e.Scanned d) : (e.formula d).Legible := by
  have hcompare : ∀ {comp : String} (k : Int), (SExpr.sym comp).Legible →
      (smtCompare comp (e.side d true) (e.side d false) k).Legible :=
    fun k hcomp => legible_smtCompare hcomp (legible_side h true) (legible_side h false) k
  unfold Exp.formula
  dsimp only
  split_ifs
  · exact hcompare _ legible_compare.1
  · exact hcompare _ legible_compare.2.1
  · exact hcompare _ legible_compare.2.2

theorem legible_paramSeen {s : List SExpr × List SExpr} (h : SExpr.SeqLegible s.1 ∧ SExpr.SeqLegible s.2) (cons : Option Int) :
    SExpr.SeqLegible (paramSeen s cons) := by
  have hx : SExpr.SeqLegible (if s.2 = [] then s.1 else s.2) := by
    split
    · exact h.1
    · exact h.2
  cases cons with
  | none => exact hx
  | some c => exact ⟨⟨legible_plus, SExpr.seqLegible_append.2 ⟨hx, trivial, trivial⟩⟩, trivial⟩

mutual
theorem Term.legible_seen : ∀ {t : Term} {s : List SExpr × List SExpr}, t.Scanned d → t.Printable d →
    SExpr.SeqLegible s.1 ∧ SExpr.SeqLegible s.2 → SExpr.SeqLegible (t.seen d s).1 ∧ SExpr.SeqLegible (t.seen d s).2
  | .tupleVar .., _, h, hp, hs => ⟨legible_smtPiece _ (h.2 hp), hs.2⟩
  | .symConst .., _, h, _, hs => ⟨legible_smtPiece _ h, hs.2⟩
  | .ufCall .., _, h, hp, hs =>
    have hargs := legible_argsSeen h.2 hp hs
    ⟨hargs.1, ⟨legible_ident h.1, hargs.2⟩, trivial⟩
  | .constVal _, _, _, _, hs | .tupleExp .., _, _, _, hs => hs

theorem legible_argsSeen : ∀ {es : List Exp} {s : List SExpr × List SExpr}, argsScanned d es → argsPrintable d es →
    SExpr.SeqLegible s.1 ∧ SExpr.SeqLegible s.2 → SExpr.SeqLegible (argsSeen d es s).1 ∧ SExpr.SeqLegible (argsSeen d es s).2
  | [], _, _, _, hs => hs
  | .mk k ts :: _, s, h, hp, hs =>
    have hterms := legible_termsSeen h.1 hp.1 hs
    legible_argsSeen (s := Exp.seen d (.mk k ts) s) h.2 hp.2 ⟨hterms.1, legible_paramSeen hterms _⟩

theorem legible_termsSeen : ∀ {ts : List Term} {s : List SExpr × List SExpr}, termsScanned d ts → termsPrintable d ts →
    SExpr.SeqLegible s.1 ∧ SExpr.SeqLegible s.2 → SExpr.SeqLegible (termsSeen d ts s).1 ∧ SExpr.SeqLegible (termsSeen d ts s).2
  | [], _, _, _, hs => hs
  | t :: _, s, h, hp, hs => legible_termsSeen (s := t.seen d s) h.2 hp.2 (Term.legible_seen h.1 hp.1 hs)
end

theorem legible_sideSeen {left : Bool} {ts : List Term} (hn : termsScanned d ts) (hp : termsPrintable d ts) {s : List SExpr}
    (hs : SExpr.SeqLegible s) : SExpr.SeqLegible (sideSeen d left ts s) := by
  induction ts generalizing s with
  | nil => exact hs
  | cons t ts ih =>
    refine ih hn.2 hp.2 ?_
    have hshown : ∀ xs, t.shown d = some xs → SExpr.SeqLegible xs := by
      intro xs hxs
      cases t with
      | tupleVar c l =>
        cases hxs
        exact legible_smtPiece _ (hn.1.2 hp.1)
      | symConst c w =>
        cases hxs
        exact legible_smtPiece _ hn.1
      | ufCall c f as i =>
        cases hxs
        exact ⟨⟨legible_ident hn.1.1, (legible_argsSeen (s := ([], [])) hn.1.2 hp.1 ⟨trivial, trivial⟩).2⟩, trivial⟩
      | constVal c => cases hxs
      | tupleExp c es => cases hxs
    unfold Term.onSide
    split
    · cases hxs : t.shown d with
      | none => exact hs
      | some xs => exact hshown xs hxs
    · exact hs

theorem legible_assertedFormula {e : Exp} (hn : e.Scanned d) (hp : e.Printable d) : (e.assertedFormula d).Legible := by
  obtain ⟨kind, ts⟩ := e
  have hside : ∀ left, SExpr.SeqLegible (orZero (sideSeen d left ts [])) := by
    intro left
    unfold orZero
    split
    · exact ⟨trivial, trivial⟩
    · exact legible_sideSeen hn hp trivial
  have hcompare : ∀ {comp : String} (k : Int), (SExpr.sym comp).Legible →
      (writtenCompare comp (orZero (sideSeen d true ts [])) (orZero (sideSeen d false ts [])) k).Legible :=
    fun k hcomp => legible_writtenCompare hcomp (hside true) (hside false) k
  unfold Exp.assertedFormula
  dsimp only
  split_ifs
  · exact hcompare _ legible_compare.1
  · exact hcompare _ legible_compare.2.1
  · exact hcompare _ legible_compare.2.2

theorem legible_smtAssertion {x : SExpr} (h : x.Legible) (cc : Nat) : (smtAssertion x cc).Legible := by
  have hname : (SExpr.sym ("c1" ++ toString cc)).Legible := by
    refine ne_intStr (c := 'c') (l := '1' :: (toString cc).toList) ?_ rfl (by decide)
    rw [String.toList_append]
    rfl
  exact ⟨ne_intStr (c := 'a') (l := "ssert".toList) rfl rfl (by decide),
    ⟨ne_intStr (c := '!') (l := []) rfl rfl (by decide), h, ne_intStr (c := ':') (l := "named".toList) rfl rfl (by decide),
      hname, trivial⟩, trivial⟩

end Legible

/-! ## What is asserted of integers -/

section Direct

variable {d : TupleDecl}

mutual
/-- What is direct is printed. -/
theorem Term.Direct.printable : ∀ {t : Term}, t.Direct d → t.Printable d
  | .tupleVar .., h => h
  | .symConst .., _ => trivial
  | .ufCall .., h => argsPrintable_of_direct h.2.2

theorem argsPrintable_of_direct : ∀ {es : List Exp}, argsDirect d es → argsPrintable d es
  | [], _ => trivial
  | .mk _ _ :: _, h => ⟨termsPrintable_of_direct h.1.2.2, argsPrintable_of_direct h.2⟩

theorem termsPrintable_of_direct : ∀ {ts : List Term}, termsDirect d ts → termsPrintable d ts
  | [], _ => trivial
  | t :: _, h => by
    refine ⟨?_, termsPrintable_of_direct h.2⟩
    cases hc : t.isConst with
    | true =>
      obtain ⟨c, rfl⟩ := Term.eq_constVal hc
      exact trivial
    | false => exact Term.Direct.printable (h.1 hc).2
end

mutual
/-- What is direct compares integers. -/
theorem Term.Direct.integral : ∀ {t : Term}, t.Direct d → t.Scanned d → t.Integral d
  | .tupleVar .., _, hn => hn.1
  | .symConst .., _, _ => trivial
  | .ufCall .., h, hn => ⟨h.1, ne_plus_of_isIdent hn.1, ne_times_of_isIdent hn.1, argsIntegral_of_direct h.2.2 hn.2⟩

theorem argsIntegral_of_direct : ∀ {es : List Exp}, argsDirect d es → argsScanned d es → argsIntegral d es
  | [], _, _ => trivial
  | .mk _ _ :: _, h, hn => ⟨termsIntegral_of_direct h.1.2.2 hn.1, argsIntegral_of_direct h.2 hn.2⟩

theorem termsIntegral_of_direct : ∀ {ts : List Term}, termsDirect d ts → termsScanned d ts → termsIntegral d ts
  | [], _, _ => trivial
  | t :: _, h, hn => by
    refine ⟨?_, termsIntegral_of_direct h.2 hn.2⟩
    cases hc : t.isConst with
    | true =>
      obtain ⟨c, rfl⟩ := Term.eq_constVal hc
      exact trivial
    | false => exact Term.Direct.integral (h.1 hc).2 hn.1
end

mutual
/-- The variables in what is direct are declared by their names. -/
theorem Term.Direct.mem_tupleTexts {s : String} : ∀ {t : Term}, t.Direct d → t.coefficient.natAbs = 1 →
    (s ∈ t.tupleTexts d ↔ ∃ l, t.mentions l = true ∧ d.elemVarString l = s)
  | .tupleVar c l, _, hc => by
    have htext : coeffToStream c true ++ d.elemVarString l = d.elemVarString l := by
      have hone : c.natAbs = 1 := hc
      rw [coeffToStream, if_pos rfl, if_pos hone, String.empty_append]
    rw [Term.tupleTexts, htext, List.mem_singleton]
    simp only [Term.mentions, beq_iff_eq]
    exact ⟨fun h => ⟨l, rfl, h.symm⟩, fun ⟨_, hl, h⟩ => hl ▸ h.symm⟩
  | .symConst .., _, _ => by simp [Term.tupleTexts, Term.mentions]
  | .ufCall .., h, _ => mem_argsTupleTexts h.2.2

theorem mem_argsTupleTexts {s : String} : ∀ {es : List Exp}, argsDirect d es →
    (s ∈ argsTupleTexts d es ↔ ∃ l, argsMention l es = true ∧ d.elemVarString l = s)
  | [], _ => by simp [argsTupleTexts, argsMention]
  | .mk _ _ :: _, h => by
    rw [argsTupleTexts, List.mem_append, Exp.tupleTexts, mem_termsTupleTexts h.1.2.2, mem_argsTupleTexts h.2]
    simp only [argsMention, Exp.mentions, Bool.or_eq_true, or_and_right, exists_or]

theorem mem_termsTupleTexts {s : String} : ∀ {ts : List Term}, termsDirect d ts →
    (s ∈ termsTupleTexts d ts ↔ ∃ l, termsMention l ts = true ∧ d.elemVarString l = s)
  | [], _ => by simp [termsTupleTexts, termsMention]
  | t :: ts, h => by
    have ht : s ∈ t.tupleTexts d ↔ ∃ l, t.mentions l = true ∧ d.elemVarString l = s := by
      cases hc : t.isConst with
      | true =>
        obtain ⟨c, rfl⟩ := Term.eq_constVal hc
        simp [Term.tupleTexts, Term.mentions]
      | false =>
        obtain ⟨hone, hdirect⟩ := h.1 hc
        exact Term.Direct.mem_tupleTexts hdirect (by rw [hone]; rfl)
    rw [termsTupleTexts, List.mem_append, ht, mem_termsTupleTexts h.2]
    simp only [termsMention, Bool.or_eq_true, or_and_right, exists_or]
end

theorem Exp.DirectConstraint.printable {e : Exp} (h : e.DirectConstraint d) : e.Printable d := by
  obtain ⟨k, ts⟩ := e
  refine termsPrintable_iff.2 fun t ht => ?_
  cases hc : t.isConst with
  | true =>
    obtain ⟨c, rfl⟩ := Term.eq_constVal hc
    exact trivial
  | false => exact (h.2 t ht hc).2.printable

end Direct

/-- The declarations of the variables and one assertion for each constraint, with all that is in it. -/
structure Conjunction.Asserted (c : Conjunction) (names asserts : List String) : Prop where
  nodup : names.Nodup
  declared : ∀ s, s ∈ names ↔ ∃ l, (∃ e ∈ c.constraints, e.mentions l = true) ∧ c.tupleDecl.elemVarString l = s
  asserted : List.Forall₂
    (fun p text => SExpr.lex text.toList = (smtAssertion (p.1.formula c.tupleDecl) p.2).tokens) (c.constraints.zipIdx 1) asserts
  satisfied : ∀ A, (∀ e ∈ c.constraints, (e.formula c.tupleDecl).Holds A) ↔ tupleOf A c.tupleDecl ∈ c.denote (interpOf A)

section Assertions

variable {d : TupleDecl}

theorem smtAssertion_injective {x y : SExpr} {cc : Nat} (h : smtAssertion x cc = smtAssertion y cc) : x = y := by
  have hinner := (List.cons.inj (List.cons.inj (SExpr.list.inj h)).2).1
  exact (List.cons.inj (List.cons.inj (SExpr.list.inj hinner)).2).1

/-- The texts of the assertions are those of the formulas where the formulas are written as they are. -/
theorem assertions_iff {es : List Exp} {forms : List String}
    (h : List.Forall₂ (fun e form => Shows form [e.assertedFormula d]) es forms) (hn : ∀ e ∈ es, e.Scanned d)
    (hp : ∀ e ∈ es, e.Printable d) (cc : Nat) :
    List.Forall₂ (fun p text => SExpr.lex text.toList = (smtAssertion (p.1.formula d) p.2).tokens) (es.zipIdx cc)
      ((forms.zipIdx cc).map (fun p => VisitorGetZ3form.assertion p.1 p.2)) ↔
      ∀ e ∈ es, e.assertedFormula d = e.formula d := by
  induction h generalizing cc with
  | nil => exact ⟨fun _ => nofun, fun _ => .nil⟩
  | @cons e form es forms hform _ ih =>
    obtain ⟨hne, hn⟩ := List.forall_mem_cons.1 hn
    obtain ⟨hpe, hp⟩ := List.forall_mem_cons.1 hp
    have hone : SExpr.lex (VisitorGetZ3form.assertion form cc).toList = (smtAssertion (e.formula d) cc).tokens ↔
        e.assertedFormula d = e.formula d := by
      rw [(shows_assertion hform cc).lex, SExpr.seqTokens, SExpr.seqTokens, List.append_nil]
      constructor
      · intro htokens
        have hseq : [smtAssertion (e.assertedFormula d) cc] = [smtAssertion (e.formula d) cc] :=
          SExpr.seqTokens_injective ⟨legible_smtAssertion (legible_assertedFormula hne hpe) cc, trivial⟩
            ⟨legible_smtAssertion (legible_formula hne) cc, trivial⟩ (by simp [SExpr.seqTokens, htokens])
        exact smtAssertion_injective (List.cons.inj hseq).1
      · intro heq
        rw [heq]
    rw [List.zipIdx_cons, List.zipIdx_cons, List.map_cons, List.forall₂_cons, hone, ih hn hp, List.forall_mem_cons]

/-- Direct constraints declare their variables. -/
theorem Exp.DirectConstraint.mem_tupleTexts {e : Exp} (h : e.DirectConstraint d) (s : String) :
    s ∈ e.tupleTexts d ↔ ∃ l, e.mentions l = true ∧ d.elemVarString l = s := by
  have hterms : ∀ ts : List Term, (∀ t ∈ ts, t.isConst = false → t.coefficient.natAbs = 1 ∧ t.Direct d) →
      (s ∈ termsTupleTexts d ts ↔ ∃ l, termsMention l ts = true ∧ d.elemVarString l = s) := by
    intro ts hts
    induction ts with
    | nil => simp [termsTupleTexts, termsMention]
    | cons t ts ih =>
      obtain ⟨ht, hts⟩ := List.forall_mem_cons.1 hts
      have hterm : s ∈ t.tupleTexts d ↔ ∃ l, t.mentions l = true ∧ d.elemVarString l = s := by
        cases hc : t.isConst with
        | true =>
          obtain ⟨c, rfl⟩ := Term.eq_constVal hc
          simp [Term.tupleTexts, Term.mentions]
        | false => exact Term.Direct.mem_tupleTexts (ht hc).2 (ht hc).1
      rw [termsTupleTexts, List.mem_append, hterm, ih hts]
      simp only [termsMention, Bool.or_eq_true, or_and_right, exists_or]
  obtain ⟨k, ts⟩ := e
  exact hterms ts h.2

theorem Exp.DirectConstraint.integral {e : Exp} (h : e.DirectConstraint d) (hn : e.Scanned d) : e.Integral d := by
  have hterms : ∀ ts : List Term, (∀ t ∈ ts, t.isConst = false → t.coefficient.natAbs = 1 ∧ t.Direct d) → termsScanned d ts →
      termsIntegral d ts := by
    intro ts hts hn
    induction ts with
    | nil => exact trivial
    | cons t ts ih =>
      obtain ⟨ht, hts⟩ := List.forall_mem_cons.1 hts
      refine ⟨?_, ih hts hn.2⟩
      cases hc : t.isConst with
      | true =>
        obtain ⟨c, rfl⟩ := Term.eq_constVal hc
        exact trivial
      | false => exact (ht hc).2.integral hn.1
  obtain ⟨k, ts⟩ := e
  exact hterms ts h.2 hn

end Assertions

/-- The assertions state a conjunction iff each constraint has one term at most on each side, a variable, a symbolic constant or a
call, with the coefficient one or minus one, and each call in it has one argument with one such term at most. -/
theorem getZ3form_iff (c : Conjunction) (hc : c.Built) (hn : c.Scanned) (UFSyms VarSyms : List String) :
    (∃ r names asserts, getZ3form UFSyms VarSyms true [c] = .ok r ∧
        r.1 = names.map VisitorGetZ3form.declareConst ++ asserts ∧ c.Asserted names asserts) ↔
      ∀ e ∈ c.constraints, e.DirectConstraint c.tupleDecl := by
  have hrun := getZ3form_succeeds UFSyms VarSyms hc.wellTyped hn
  have hcanonical : ∀ e ∈ c.constraints, (Exp.mk .expression e.terms).Canonical := by
    intro e he
    rcases List.mem_append.1 he with he | he
    · exact (hc.equalities e he).1.canonical
    · exact (hc.inequalities e he).canonical
  constructor
  · rintro ⟨r, names, asserts, hr, htexts, hasserted⟩ e he
    obtain ⟨hp, forms, hforms, hr₁⟩ := hrun.of_eq_ok hr
    have hlen : ((forms.zipIdx 1).map (fun p => VisitorGetZ3form.assertion p.1 p.2)).length = asserts.length := by
      rw [List.length_map, List.length_zipIdx, ← hasserted.asserted.length_eq, List.length_zipIdx, hforms.length_eq]
    obtain ⟨-, hsame⟩ := List.append_inj' (hr₁.symm.trans htexts) hlen
    have heq := (assertions_iff hforms hn hp 1).1 (hsame ▸ hasserted.asserted)
    exact (assertedFormula_eq_iff (hcanonical e he) (hp e he) (hn e he)).1 (heq e he)
  · intro h
    have hp : ∀ e ∈ c.constraints, e.Printable c.tupleDecl := fun e he => (h e he).printable
    obtain ⟨r, hr⟩ := hrun.exists_ok_iff.2 hp
    obtain ⟨-, forms, hforms, hr₁⟩ := hrun.of_eq_ok hr
    refine ⟨r, _, _, hr, hr₁, nodup_build_stringLt _, fun s => ?_, ?_, fun A => ?_⟩
    · rw [mem_build_stringLt, List.mem_flatMap]
      constructor
      · rintro ⟨e, he, hs⟩
        obtain ⟨l, hl, hls⟩ := ((h e he).mem_tupleTexts s).1 hs
        exact ⟨l, ⟨e, he, hl⟩, hls⟩
      · rintro ⟨l, ⟨e, he, hl⟩, hls⟩
        exact ⟨e, he, ((h e he).mem_tupleTexts s).2 ⟨l, hl, hls⟩⟩
    · exact (assertions_iff hforms hn hp 1).2 fun e he =>
        (assertedFormula_eq_iff (hcanonical e he) (hp e he) (hn e he)).2 (h e he)
    · exact Conjunction.mem_denote_tupleOf (fun e he => (hc.equalities e he).1.expType)
        (fun e he => (hc.inequalities e he).expType) fun e he => (h e he).integral (hn e he)

/-- `{ [i, j, k] : i + j - k >= 0 }` -/
def sumBound : Conjunction :=
  ⟨[], [.mk .inequality [.tupleVar 1 0, .tupleVar 1 1, .tupleVar (-1) 2]],
    ⟨[⟨false, 0, "i"⟩, ⟨false, 0, "j"⟩, ⟨false, 0, "k"⟩]⟩, 0⟩

/-- The assertion for `i + j >= k` is `k <= j`. -/
theorem getZ3form_dropsTerm : getZ3form [] [] true [sumBound] = .ok (["(declare-const i Int)", "(declare-const j Int)",
      "(declare-const k Int)", "(assert (! (<= k j) :named c11) )"], [], []) ∧
    SExpr.lex "(assert (! (<= k j) :named c11) )".toList =
      (smtAssertion (.list [.sym "<=", .sym "k", .sym "j"]) 1).tokens ∧
    ∃ A, (SExpr.list [.sym "<=", .sym "k", .sym "j"]).Holds A ∧
      tupleOf A sumBound.tupleDecl ∉ sumBound.denote (interpOf A) := by
  refine ⟨rfl, rfl, ⟨fun s => if s = "i" then -1 else 0, fun _ _ => 0⟩, le_refl (0 : Int), ?_⟩
  rintro ⟨-, -, h⟩
  have hge := h _ List.mem_cons_self 0
  revert hge
  decide

/-- `{ [i, j] : j - f(i + 1) >= 0 }` -/
def callBound : Conjunction :=
  ⟨[], [.mk .inequality [.tupleVar 1 1, .ufCall (-1) "f" [.mk .expression [.tupleVar 1 0, .constVal 1]] none]],
    ⟨[⟨false, 0, "i"⟩, ⟨false, 0, "j"⟩]⟩, 0⟩

theorem getZ3form_iff_callBound : ∃ r names asserts, getZ3form [] [] true [callBound] = .ok r ∧
    r.1 = names.map VisitorGetZ3form.declareConst ++ asserts ∧ callBound.Asserted names asserts := by
  have harg : (Exp.mk .expression [.tupleVar 1 0, .constVal 1]).Canonical := by
    refine ⟨rfl, ?_, ⟨by decide, trivial⟩, ⟨by decide, trivial⟩, trivial⟩
    unfold Sorted
    decide
  have hbuilt : callBound.Built := by
    refine ⟨nofun, fun e he => ?_, .nil, List.pairwise_singleton _ _⟩
    obtain rfl := List.mem_singleton.1 he
    refine ⟨rfl, by decide, ⟨rfl, ?_, ⟨by decide, trivial⟩, ⟨by decide, harg, trivial⟩, trivial⟩, by decide⟩
    unfold Sorted
    decide
  have hscanned : callBound.Scanned := by
    intro e he
    obtain rfl := List.mem_singleton.1 he
    exact ⟨⟨by decide, fun _ => rfl⟩, ⟨rfl, ⟨⟨by decide, fun _ => rfl⟩, trivial, trivial⟩, trivial⟩, trivial⟩
  refine (getZ3form_iff callBound hbuilt hscanned [] []).2 fun e he => ?_
  obtain rfl := List.mem_singleton.1 he
  refine ⟨by decide, fun t ht _ => ?_⟩
  rcases List.mem_cons.1 ht with rfl | ht
  · exact ⟨rfl, rfl⟩
  · obtain rfl := List.mem_singleton.1 ht
    exact ⟨rfl, rfl, rfl, ⟨by decide, by decide, fun _ => ⟨rfl, rfl⟩, nofun, trivial⟩, trivial⟩

end IEGen
