import IEGen.Merging
import IEGen.Substituted

/-!
# Simultaneous substitution

`Term.valAt` evaluates with a sequence of components for every tuple variable and every symbolic constant. The value of
`substitute` is the value of the expression where every key of the map has the value of its replacement under the
original interpretation (`SubMap.Assigns`), at every depth and all at once, where each pair of terms that the rebuilt
expressions merge is merged right (`SubstitutesRight`).
-/

namespace IEGen

/-! ## Assignments -/

/-- The components of the tuple variables and of the symbolic constants. -/
structure Assignment where
  var : Nat → Nat → Int
  sym : String → Nat → Int

mutual
/-- The components of a term under an assignment. -/
def Term.valAt (I : Interp) (A : Assignment) : Term → Nat → Int
  | .tupleVar c l => fun k => c * A.var l k
  | .symConst c s => fun k => c * A.sym s k
  | .ufCall c f as none => fun k => c * I.callVal f (argsValAt I A as) k
  | .ufCall c f as (some j) => scalar (c * I.indexVal f (argsValAt I A as) j)
  | .constVal c => scalar c
  | .tupleExp c es => fun k => c * ((argsValAt I A es).getD k (scalar 0)) 0

/-- The components of an expression under an assignment. -/
def Exp.valAt (I : Interp) (A : Assignment) : Exp → Nat → Int
  | .mk _ ts => termsValAt I A ts

def argsValAt (I : Interp) (A : Assignment) : List Exp → List (Nat → Int)
  | [] => []
  | e :: es => e.valAt I A :: argsValAt I A es

def termsValAt (I : Interp) (A : Assignment) : List Term → Nat → Int
  | [] => fun _ => 0
  | t :: ts => fun k => t.valAt I A k + termsValAt I A ts k
end

/-- The assignment of an interpretation. -/
def Assignment.ofInterp (I : Interp) (τ : Nat → Int) : Assignment := ⟨fun l => scalar (τ l), fun s => scalar (I.sym s)⟩

theorem mul_scalar (c v : Int) (k : Nat) : c * scalar v k = scalar (c * v) k := by cases k <;> simp

mutual
/-- Under the assignment of an interpretation an expression has its value. -/
theorem Term.valAt_ofInterp (I : Interp) (τ : Nat → Int) : ∀ t : Term, t.valAt I (.ofInterp I τ) = t.val I τ
  | .tupleVar c l => funext (mul_scalar c _)
  | .symConst c s => funext (mul_scalar c _)
  | .ufCall c f as none => by simp only [Term.valAt, Term.val, argsValAt_ofInterp I τ as]
  | .ufCall c f as (some j) => by simp only [Term.valAt, Term.val, argsValAt_ofInterp I τ as]
  | .constVal c => rfl
  | .tupleExp c es => by simp only [Term.valAt, Term.val, argsValAt_ofInterp I τ es]

theorem Exp.valAt_ofInterp (I : Interp) (τ : Nat → Int) : ∀ e : Exp, e.valAt I (.ofInterp I τ) = e.val I τ
  | .mk _ ts => termsValAt_ofInterp I τ ts

theorem argsValAt_ofInterp (I : Interp) (τ : Nat → Int) : ∀ es : List Exp, argsValAt I (.ofInterp I τ) es = argsVal I τ es
  | [] => rfl
  | e :: es => by rw [argsValAt, argsVal, Exp.valAt_ofInterp I τ e, argsValAt_ofInterp I τ es]

theorem termsValAt_ofInterp (I : Interp) (τ : Nat → Int) :
    ∀ ts : List Term, termsValAt I (.ofInterp I τ) ts = termsVal I τ ts
  | [] => rfl
  | t :: ts => by
    funext k
    rw [termsValAt, termsVal_cons, Term.valAt_ofInterp I τ t, termsValAt_ofInterp I τ ts]
end

/-! ## Maps with distinct keys -/

namespace SubMap

/-- The keys are pairwise distinct factors of tuple variables and symbolic constants. -/
def Distinct (m : SubMap) : Prop :=
  (∀ p ∈ m, p.1.isLeaf = true) ∧ m.Pairwise (fun p q => p.1.factorMatches q.1 = false)

/-- Each key has the value of its replacement, everything else keeps its value. -/
structure Assigns (m : SubMap) (I : Interp) (τ : Nat → Int) (A : Assignment) : Prop where
  value : ∀ p ∈ m, ∀ e, p.2 = some e → (p.1.setCoefficient 1).valAt I A = e.val I τ
  var : ∀ l, (∀ p ∈ m, p.2.isSome = true → p.1.factorMatches (.tupleVar 1 l) = false) → A.var l = scalar (τ l)
  sym : ∀ s, (∀ p ∈ m, p.2.isSome = true → p.1.factorMatches (.symConst 1 s) = false) → A.sym s = scalar (I.sym s)

theorem factorMatches_comm_of_isLeaf {t u : Term} (h : t.isLeaf = true) : t.factorMatches u = u.factorMatches t := by
  cases t <;> cases u <;> simp only [Term.isLeaf, Bool.false_eq_true] at h <;>
    simp only [Term.factorMatches, Bool.beq_comm]

theorem factorMatches_trans_of_isLeaf {t u v : Term} (h : t.isLeaf = true) (hu : t.factorMatches u = true)
    (hv : t.factorMatches v = true) : u.factorMatches v = true := by
  cases t <;> cases u <;> cases v <;>
    simp_all [Term.isLeaf, Term.factorMatches]

/-- The replacement of a key. -/
theorem subExp_of_mem {m : SubMap} (hm : m.Distinct) {t : Term} (ht : t.isLeaf = true) {p : Term × Option Exp}
    (hp : p ∈ m) (h : t.factorMatches p.1 = true) : m.subExp t = p.2 := by
  induction m with
  | nil => cases hp
  | cons q m ih =>
    obtain ⟨hq, hrest⟩ := List.pairwise_cons.1 hm.2
    have htail := ih ⟨fun p hp => hm.1 p (List.mem_cons_of_mem _ hp), hrest⟩
    rw [subExp, List.find?_cons] at *
    rcases List.mem_cons.1 hp with rfl | hp
    · rw [h]
      rfl
    · have hne : t.factorMatches q.1 = false := by
        refine Bool.eq_false_iff.2 fun hq' => ?_
        have hqp := factorMatches_trans_of_isLeaf ht hq' h
        rw [hq p hp] at hqp
        cases hqp
      rw [hne]
      exact htail hp

/-- A factor without replacement. -/
theorem subExp_eq_none_iff {m : SubMap} (hm : m.Distinct) {t : Term} (ht : t.isLeaf = true) :
    m.subExp t = none ↔ ∀ p ∈ m, p.2.isSome = true → p.1.factorMatches t = false := by
  constructor
  · intro h p hp hs
    refine Bool.eq_false_iff.2 fun hmatch => ?_
    rw [← factorMatches_comm_of_isLeaf ht] at hmatch
    rw [subExp_of_mem hm ht hp hmatch] at h
    rw [h] at hs
    cases hs
  · intro h
    rw [subExp]
    cases hf : m.find? (fun p => t.factorMatches p.1) with
    | none => rfl
    | some p =>
      have hmatch := List.find?_some hf
      cases hp2 : p.2 with
      | none => exact hp2
      | some e =>
        have hno := h p (List.mem_of_find?_eq_some hf) (by rw [hp2]; rfl)
        rw [← factorMatches_comm_of_isLeaf ht, hmatch] at hno
        cases hno

/-- There is an assignment that gives each key the value of its replacement. -/
theorem exists_assigns {m : SubMap} (hm : m.Distinct) (I : Interp) (τ : Nat → Int) : ∃ A, m.Assigns I τ A := by
  refine ⟨⟨fun l => ((m.subExp (.tupleVar 1 l)).map (Exp.val I τ)).getD (scalar (τ l)),
    fun s => ((m.subExp (.symConst 1 s)).map (Exp.val I τ)).getD (scalar (I.sym s))⟩, ?_, ?_, ?_⟩
  · intro p hp e he
    have hleaf := hm.1 p hp
    cases hp1 : p.1 with
    | tupleVar c l =>
      have hsub := subExp_of_mem hm (t := .tupleVar 1 l) rfl hp (by simp [hp1, Term.factorMatches])
      funext k
      simp [Term.setCoefficient, Term.valAt, hsub, he]
    | symConst c s =>
      have hsub := subExp_of_mem hm (t := .symConst 1 s) rfl hp (by simp [hp1, Term.factorMatches])
      funext k
      simp [Term.setCoefficient, Term.valAt, hsub, he]
    | _ => rw [hp1] at hleaf; cases hleaf
  · intro l h
    have hsub := (subExp_eq_none_iff hm (t := .tupleVar 1 l) rfl).2 h
    simp [hsub]
  · intro s h
    have hsub := (subExp_eq_none_iff hm (t := .symConst 1 s) rfl).2 h
    simp [hsub]

variable {m : SubMap} {I : Interp} {τ : Nat → Int} {A : Assignment}

/-- A replaced factor has the value of its replacement. -/
theorem Assigns.replaced (h : m.Assigns I τ A) {t : Term} {e : Exp} (hsub : m.subExp t = some e) (hkeys : m.Distinct)
    (k : Nat) : t.valAt I A k = e.val I τ k * t.coefficient := by
  obtain ⟨p, hp, he⟩ := Option.bind_eq_some_iff.1 hsub
  have hmatch := List.find?_some hp
  have hmem := List.mem_of_find?_eq_some hp
  have hleaf := hkeys.1 p hmem
  rw [← h.value p hmem e he]
  cases hp1 : p.1 with
  | tupleVar c l =>
    cases t <;> simp only [hp1, Term.factorMatches, Bool.false_eq_true, beq_iff_eq] at hmatch
    subst hmatch
    simp only [Term.valAt, Term.setCoefficient, Term.coefficient]
    ring
  | symConst c s =>
    cases t <;> simp only [hp1, Term.factorMatches, Bool.false_eq_true, beq_iff_eq] at hmatch
    subst hmatch
    simp only [Term.valAt, Term.setCoefficient, Term.coefficient]
    ring
  | _ =>
    rw [hp1] at hleaf
    cases hleaf

/-- A tuple variable or symbolic constant that is kept. -/
theorem Assigns.kept (h : m.Assigns I τ A) (hm : m.Distinct) {t : Term} (ht : t.isLeaf = true)
    (hsub : m.subExp t = none) : t.val I τ = t.valAt I A := by
  have hno := (subExp_eq_none_iff hm ht).1 hsub
  cases t with
  | tupleVar c l =>
    have hvar := h.var l fun p hp hs => by
      rw [← hno p hp hs]
      cases p.1 <;> rfl
    rw [Term.valAt, hvar]
    exact funext fun k => (mul_scalar c _ k).symm
  | symConst c s =>
    have hsym := h.sym s fun p hp hs => by
      rw [← hno p hp hs]
      cases p.1 <;> rfl
    rw [Term.valAt, hsym]
    exact funext fun k => (mul_scalar c _ k).symm
  | _ => cases ht

end SubMap

/-! ## What substitution merges -/

/-- The terms that the loop of `substitute` adds for one term. -/
def SubMap.contributes (m : SubMap) (t : Term) : List Term :=
  match m.subExp t with
  | some sub => (sub.multiplyBy t.coefficient).terms
  | none => [t.substituteInside m]

mutual
/-- In every expression that is rebuilt the pairs of terms that are merged are merged right: while the terms are added
one after the other, and when they are put back. -/
def Term.SubstitutesRight (cod : String → Nat) (m : SubMap) : Term → Prop
  | .ufCall _ _ as _ => argsSubstituteRight cod m as
  | .tupleExp _ es => argsSubstituteRight cod m es
  | _ => True

def Exp.SubstitutesRight (cod : String → Nat) (m : SubMap) : Exp → Prop
  | .mk _ ts => termsSubstituteRight cod m ts ∧
      (∀ p ∈ termsMerged 1 (ts.flatMap m.contributes) [], MergesRight cod p) ∧
      ∀ p ∈ termsMerged 1 (termsAddInto 1 (ts.flatMap m.contributes) []) [], MergesRight cod p

def argsSubstituteRight (cod : String → Nat) (m : SubMap) : List Exp → Prop
  | [] => True
  | e :: es => e.SubstitutesRight cod m ∧ argsSubstituteRight cod m es

def termsSubstituteRight (cod : String → Nat) (m : SubMap) : List Term → Prop
  | [] => True
  | t :: ts => t.SubstitutesRight cod m ∧ termsSubstituteRight cod m ts
end

theorem termsAddInto_append (k : Int) : ∀ ts us acc : List Term,
    termsAddInto k (ts ++ us) acc = termsAddInto k us (termsAddInto k ts acc)
  | [], _, _ => rfl
  | t :: ts, us, acc => by
    rw [List.cons_append, termsAddInto, termsAddInto, termsAddInto_append k ts us]

/-- The loop adds what each term contributes. -/
theorem terms_termsSubstitute (m : SubMap) (ts : List Term) (addedTerms : Exp) :
    (termsSubstitute m ts addedTerms).terms = termsAddInto 1 (ts.flatMap m.contributes) addedTerms.terms := by
  induction ts generalizing addedTerms with
  | nil => rfl
  | cons t ts ih =>
    rw [termsSubstitute, ih, List.flatMap_cons, termsAddInto_append, SubMap.contributes]
    cases m.subExp t with
    | some sub => rfl
    | none => rfl

/-! ## The value -/

section Val

variable {m : SubMap} {I : Interp} {τ : Nat → Int} {A : Assignment}

mutual
theorem Term.val_substituteInside_eq (hm : m.Distinct) (hA : m.Assigns I τ A) :
    ∀ {t : Term}, t.SubstitutesRight I.cod m → m.subExp t = none →
    (t.substituteInside m).val I τ = t.valAt I A
  | .tupleVar .., _, hs => hA.kept hm rfl hs
  | .symConst .., _, hs => hA.kept hm rfl hs
  | .constVal _, _, _ => rfl
  | .ufCall c f as none, h, _ => by
    simp only [Term.substituteInside, Term.val, Term.valAt, argsVal_argsSubstitute hm hA h]
  | .ufCall c f as (some j), h, _ => by
    simp only [Term.substituteInside, Term.val, Term.valAt, argsVal_argsSubstitute hm hA h]
  | .tupleExp c es, h, _ => by
    simp only [Term.substituteInside, Term.val, Term.valAt, argsVal_argsSubstitute hm hA h]

theorem Exp.val_substitute_eq (hm : m.Distinct) (hA : m.Assigns I τ A) :
    ∀ {e : Exp}, e.SubstitutesRight I.cod m → (e.substitute m).val I τ = e.valAt I A
  | .mk k ts, h => by
    obtain ⟨hts, hadd, hback⟩ := h
    have hterms := terms_termsSubstitute m ts (.mk .expression [])
    rw [Exp.terms_mk] at hterms
    funext j
    rw [Exp.substitute, Exp.val_addExp_of_merged (by rw [hterms]; exact hback), Exp.val_eq, Exp.val_eq, hterms,
      termsVal_termsAddInto hadd, Exp.terms_mk, termsVal_nil, termsVal_contributes hm hA hts, Exp.valAt]
    ring

theorem argsVal_argsSubstitute (hm : m.Distinct) (hA : m.Assigns I τ A) :
    ∀ {es : List Exp}, argsSubstituteRight I.cod m es →
    argsVal I τ (argsSubstitute m es) = argsValAt I A es
  | [], _ => rfl
  | e :: es, h => by
    rw [argsSubstitute, argsVal, argsValAt, Exp.val_substitute_eq hm hA h.1, argsVal_argsSubstitute hm hA h.2]

theorem termsVal_contributes (hm : m.Distinct) (hA : m.Assigns I τ A) :
    ∀ {ts : List Term}, termsSubstituteRight I.cod m ts → ∀ {k : Nat},
    termsVal I τ (ts.flatMap m.contributes) k = termsValAt I A ts k
  | [], _, _ => rfl
  | t :: ts, h, k => by
    rw [List.flatMap_cons, termsVal_append, termsVal_contributes hm hA h.2, termsValAt, SubMap.contributes]
    cases hs : m.subExp t with
    | some sub =>
      dsimp only
      rw [← Exp.val_eq, Exp.val_multiplyBy, hA.replaced hs hm]
    | none =>
      dsimp only
      rw [termsVal_cons, termsVal_nil, Term.val_substituteInside_eq hm hA h.1 hs, add_zero]
end

end Val

/-- Substitution is simultaneous: there is an assignment that gives each key the value of its replacement and leaves
the rest, and the substituted expression has the value of the expression under it. -/
theorem Exp.substitute_simultaneous (cod : String → Nat) (m : SubMap) (hm : m.Distinct) (e : Exp)
    (h : e.SubstitutesRight cod m) (I : Interp) (hI : I.cod = cod) (τ : Nat → Int) :
    (∃ A, m.Assigns I τ A) ∧ ∀ A, m.Assigns I τ A → (e.substitute m).val I τ = e.valAt I A := by
  subst hI
  exact ⟨SubMap.exists_assigns hm I τ, fun A hA => Exp.val_substitute_eq hm hA h⟩

/-- `x - 2 g( y )` where `x` and `y` are swapped. -/
theorem Exp.substitute_simultaneous_swap : ∃ m : SubMap, m.Distinct ∧ ∀ I τ,
    ((Exp.mk .expression [.symConst 1 "x", .ufCall (-2) "g" [.ofTerm (.symConst 1 "y")] none]).substitute m).val I τ =
    (Exp.mk .expression [.symConst 1 "x", .ufCall (-2) "g" [.ofTerm (.symConst 1 "y")] none]).valAt I
      ⟨fun l => scalar (τ l), fun s => if s = "x" then scalar (I.sym "y") else if s = "y" then scalar (I.sym "x")
        else scalar (I.sym s)⟩ := by
  have hm : SubMap.Distinct [(.symConst 1 "x", some (.ofTerm (.symConst 1 "y"))),
      (.symConst 1 "y", some (.ofTerm (.symConst 1 "x")))] := ⟨by simp [Term.isLeaf], by simp [Term.factorMatches]⟩
  refine ⟨_, hm, fun I τ => (Exp.substitute_simultaneous I.cod _ hm _ ?_ I rfl τ).2 _ ?_⟩
  · have hnone : ∀ p : Term × Term, p ∈ ([] : List (Term × Term)) → MergesRight I.cod p := by simp
    exact ⟨⟨trivial, ⟨⟨⟨trivial, trivial⟩, hnone, hnone⟩, trivial⟩, trivial⟩, hnone, hnone⟩
  · refine ⟨?_, fun _ _ => rfl, fun s h => ?_⟩
    · intro p hp e he
      simp only [List.mem_cons, List.not_mem_nil, or_false] at hp
      rcases hp with rfl | rfl <;> cases he <;> funext k <;>
        simp [Term.setCoefficient, Term.valAt, Exp.ofTerm, Exp.val, Term.val]
    · have hx := h _ List.mem_cons_self rfl
      have hy := h _ (List.mem_cons_of_mem _ List.mem_cons_self) rfl
      simp only [Term.factorMatches, beq_eq_false_iff_ne, ne_eq] at hx hy
      dsimp only
      rw [if_neg (Ne.symm hx), if_neg (Ne.symm hy)]

/-- `f( -z ) - f( z )` with the tuple `( x, y )` for `z`: the arguments are printed alike, and the calls cancel. -/
theorem Exp.substitute_wrong : ∃ m : SubMap, m.Distinct ∧ ∃ I τ A, m.Assigns I τ A ∧
    ((Exp.mk .expression [.ufCall 1 "f" [.ofTerm (.symConst (-1) "z")] none,
      .ufCall (-1) "f" [.ofTerm (.symConst 1 "z")] none]).substitute m).val I τ ≠
    (Exp.mk .expression [.ufCall 1 "f" [.ofTerm (.symConst (-1) "z")] none,
      .ufCall (-1) "f" [.ofTerm (.symConst 1 "z")] none]).valAt I A := by
  have hm : SubMap.Distinct [(.symConst 1 "z", some (.ofTerm (.tupleExp 1 [.ofTerm (.symConst 1 "x"),
      .ofTerm (.symConst 1 "y")])))] := ⟨by simp [Term.isLeaf], List.pairwise_singleton _ _⟩
  obtain ⟨A, hA⟩ := SubMap.exists_assigns hm ⟨fun s => if s = "x" then 1 else 0, fun _ as => as, fun _ => 2, fun _ => 1⟩
    (fun _ => 0)
  refine ⟨_, hm, _, _, A, hA, fun h => ?_⟩
  have hz : A.sym "z" 0 = 1 := by
    have h₀ := congrFun (hA.value _ List.mem_cons_self _ rfl) 0
    simpa [Term.setCoefficient, Term.valAt, Exp.ofTerm, Exp.val, Term.val, argsVal] using h₀
  have hleft : (0 : Int) = _ := congrFun h 0
  simp [Exp.valAt, termsValAt, argsValAt, Term.valAt, Exp.ofTerm, Interp.callVal, Interp.argTuple, hz, List.range_succ]
    at hleft

end IEGen
