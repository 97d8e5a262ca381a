import IEGen.Declared
import IEGen.Lib.Extension

/-!
# Rules of monotonic functions

The rules that `appendCurrEnv` adds speak about all integers, while a function is monotonic on its declared domain. A
function that is monotonic there is not ruled out if it can be extended to all integers by one that satisfies the rules.
For the kinds that are not strict it always can; for the strict ones only where the domain has no gaps.
-/

/-- A set of integers. -/
abbrev Integers : Type := Set Int

namespace IEGen

/-! ## What the rules say -/

/-- How the two sides of a rule compare. -/
inductive Comparison where
  | lt
  | gt
  | le
  | ge

def Comparison.holds : Comparison → Int → Int → Prop
  | .lt, a, b => a < b
  | .gt, a, b => a > b
  | .le, a, b => a ≤ b
  | .ge, a, b => a ≥ b

/-- A side of a rule compares the variables, or the values of the function at them. -/
inductive RuleSide where
  | vars (op : Comparison)
  | calls (op : Comparison)

namespace RuleSide

def text (funcName : String) : RuleSide → String
  | vars .lt => "e1 < e2"
  | vars .gt => "e1 > e2"
  | vars .le => "e1 <= e2"
  | vars .ge => "e1 >= e2"
  | calls .lt => funcName ++ "(e1) < " ++ funcName ++ "(e2)"
  | calls .gt => funcName ++ "(e1) > " ++ funcName ++ "(e2)"
  | calls .le => funcName ++ "(e1) <= " ++ funcName ++ "(e2)"
  | calls .ge => funcName ++ "(e1) >= " ++ funcName ++ "(e2)"

def holds (v : Int → Int) (a b : Int) : RuleSide → Prop
  | vars op => op.holds a b
  | calls op => op.holds (v a) (v b)

end RuleSide

/-- The sides of the rules of each kind. -/
def MonotonicType.sides : MonotonicType → List (RuleSide × RuleSide)
  | .increasing => [(.vars .lt, .calls .lt), (.calls .lt, .vars .lt)]
  | .nondecreasing => [(.vars .lt, .calls .le)]
  | .decreasing => [(.vars .lt, .calls .gt), (.calls .lt, .vars .gt)]
  | .nonincreasing => [(.vars .lt, .calls .ge)]
  | .none => []

theorem monotonicityRules_eq (funcName : String) (kind : MonotonicType) :
    monotonicityRules funcName kind = kind.sides.map fun p => (p.1.text funcName, p.2.text funcName) := by
  cases kind <;> rfl

/-- The value of a function with one argument and one result. -/
def Interp.unary (I : Interp) (f : String) (a : Int) : Int := (I.fn f [a]).getD 0 0

/-- The interpretation with another function in the place of `f`. -/
def Interp.withUnary (I : Interp) (f : String) (h : Int → Int) : Interp :=
  { I with fn := fun name args => if name = f then [h (args.getD 0 0)] else I.fn name args }

@[simp] theorem Interp.unary_withUnary (I : Interp) (f : String) (h : Int → Int) : (I.withUnary f h).unary f = h := by
  funext a
  simp [unary, withUnary]

/-- A rule holds: for all integers, the left side implies the right side. -/
def UniQuantRule.HoldsIn (I : Interp) (r : UniQuantRule) : Prop := r.leftSide.denote I ⊆ r.rightSide.denote I

/-- The sets that the constructor makes of the texts are those of the pairs that the texts are about. -/
def ReadsSides (parse_set : ParseSet) (env : Environment) (funcName : String) : Prop :=
  ∀ (side : RuleSide) (s : Set), Set.ofString parse_set (sideText (side.text funcName)) env = .ok s →
    ∀ I : Interp, I.dom funcName = 1 → I.cod funcName = 1 →
      s.denote I = {t | ∃ a b, t = [a, b] ∧ side.holds (I.unary funcName) a b}

/-! ## The kinds of monotonic functions -/

/-- Monotonic on a set of integers in the declared way. -/
def MonotonicType.On (kind : MonotonicType) (g : Int → Int) (D : Integers) : Prop :=
  match kind with
  | .increasing => StrictMonoOn g D
  | .nondecreasing => MonotoneOn g D
  | .decreasing => StrictAntiOn g D
  | .nonincreasing => AntitoneOn g D
  | .none => True

/-- The rules of a kind, at all pairs of integers, say that the function is monotonic on all integers. -/
theorem MonotonicType.sides_hold_iff (kind : MonotonicType) (h : Int → Int) :
    (∀ p ∈ kind.sides, ∀ a b, p.1.holds h a b → p.2.holds h a b) ↔ kind.On h Set.univ := by
  cases kind with
  | none => simp [sides, On]
  | increasing =>
    simp only [sides, On, List.forall_mem_cons, List.not_mem_nil, false_implies, implies_true, and_true, RuleSide.holds,
      Comparison.holds]
    constructor
    · exact fun hr a _ b _ => hr.1 a b
    · exact fun hm => ⟨fun a b => hm trivial trivial, fun a b => (StrictMonoOn.lt_iff_lt hm trivial trivial).1⟩
  | decreasing =>
    simp only [sides, On, List.forall_mem_cons, List.not_mem_nil, false_implies, implies_true, and_true, RuleSide.holds,
      Comparison.holds]
    constructor
    · exact fun hr a _ b _ => hr.1 a b
    · exact fun hm => ⟨fun a b => hm trivial trivial, fun a b => (StrictAntiOn.lt_iff_gt hm trivial trivial).1⟩
  | nondecreasing =>
    simp only [sides, On, List.forall_mem_singleton, RuleSide.holds, Comparison.holds]
    constructor
    · intro hr a _ b _ hab
      rcases hab.eq_or_lt with rfl | hlt
      · exact le_rfl
      · exact hr a b hlt
    · exact fun hm a b hab => hm trivial trivial hab.le
  | nonincreasing =>
    simp only [sides, On, List.forall_mem_singleton, RuleSide.holds, Comparison.holds]
    constructor
    · intro hr a _ b _ hab
      rcases hab.eq_or_lt with rfl | hlt
      · exact le_rfl
      · exact hr a b hlt
    · exact fun hm a b hab => hm trivial trivial hab.le

/-- A function of the kind on a set can be extended to all integers. -/
def MonotonicType.Extends (kind : MonotonicType) (D : Integers) : Prop :=
  ∀ g : Int → Int, kind.On g D → ∃ h : Int → Int, (∀ x ∈ D, h x = g x) ∧ kind.On h Set.univ

/-- Functions that fall are extended as those that rise, with the sign changed. -/
theorem extends_neg {P Q : (Int → Int) → Integers → Prop} (hPQ : ∀ g D, P (fun x => -g x) D ↔ Q g D) (D : Integers) :
    (∀ g, P g D → ∃ h : Int → Int, (∀ x ∈ D, h x = g x) ∧ P h Set.univ) ↔
      ∀ g, Q g D → ∃ h : Int → Int, (∀ x ∈ D, h x = g x) ∧ Q h Set.univ := by
  have hQP : ∀ g D, Q (fun x => -g x) D ↔ P g D := fun g D => by
    rw [← hPQ]
    simp only [neg_neg]
  constructor
  · intro h g hg
    obtain ⟨k, hk, hm⟩ := h _ ((hPQ g D).2 hg)
    exact ⟨fun x => -k x, fun x hx => neg_eq_iff_eq_neg.2 (hk x hx), (hQP k _).2 hm⟩
  · intro h g hg
    obtain ⟨k, hk, hm⟩ := h _ ((hQP g D).2 hg)
    exact ⟨fun x => -k x, fun x hx => neg_eq_iff_eq_neg.2 (hk x hx), (hPQ k _).2 hm⟩

theorem strictAntiOn_neg_iff (g : Int → Int) (D : Integers) : StrictAntiOn (fun x => -g x) D ↔ StrictMonoOn g D :=
  ⟨fun h _ hx _ hy hxy => neg_lt_neg_iff.1 (h hx hy hxy), fun h _ hx _ hy hxy => neg_lt_neg (h hx hy hxy)⟩

theorem antitoneOn_neg_iff (g : Int → Int) (D : Integers) : AntitoneOn (fun x => -g x) D ↔ MonotoneOn g D :=
  ⟨fun h _ hx _ hy hxy => neg_le_neg_iff.1 (h hx hy hxy), fun h _ hx _ hy hxy => neg_le_neg (h hx hy hxy)⟩

/-- The strict kinds need a set without gaps. -/
theorem MonotonicType.extends_iff (kind : MonotonicType) (D : Integers) :
    kind.Extends D ↔ (kind = .increasing ∨ kind = .decreasing → D.OrdConnected) := by
  have hstrict : MonotonicType.increasing.Extends D ↔ D.OrdConnected := by
    rw [← Extension.forall_exists_strictMono_iff]
    simp only [Extends, On, strictMonoOn_univ, Set.EqOn]
  have hweak : MonotonicType.nondecreasing.Extends D := by
    intro g hg
    obtain ⟨k, hk, hm⟩ := Extension.exists_monotone hg
    exact ⟨k, hk, monotoneOn_univ.2 hm⟩
  cases kind with
  | none => simp only [Extends, On, reduceCtorEq, or_self, false_implies, iff_true]; exact fun g _ => ⟨g, fun _ _ => rfl, trivial⟩
  | increasing => simpa using hstrict
  | nondecreasing => simpa using hweak
  | decreasing =>
    have hneg : MonotonicType.decreasing.Extends D ↔ MonotonicType.increasing.Extends D :=
      extends_neg strictAntiOn_neg_iff D
    rw [hneg, hstrict]
    simp
  | nonincreasing =>
    have hneg : MonotonicType.nonincreasing.Extends D ↔ MonotonicType.nondecreasing.Extends D :=
      extends_neg antitoneOn_neg_iff D
    rw [hneg]
    simpa using hweak

/-! ## The rules that are added -/

section Sound

variable {parse_set : ParseSet} {env env' : Environment} {f : UninterpFunc} {I : Interp}

/-- The integers of the declared domain of a function with one argument. -/
def UninterpFunc.domainIn (f : UninterpFunc) (I : Interp) : Integers := {x | [x] ∈ f.domain.denote I}

/-- The rules are sound: every function that is monotonic on the declared domain in the declared way can be extended
to all integers by one that satisfies them. -/
def RulesSound (f : UninterpFunc) (rules : List UniQuantRule) (I : Interp) : Prop :=
  ∀ g : Int → Int, f.monoType.On g (f.domainIn I) → ∃ h : Int → Int, (∀ x ∈ f.domainIn I, h x = g x) ∧
    ∀ r ∈ rules, r.HoldsIn (I.withUnary f.name h)

theorem UniQuantRule.holdsIn_iff (hp : ReadsSides parse_set env f.name) (hdom : I.dom f.name = 1) (hcod : I.cod f.name = 1)
    {p : RuleSide × RuleSide} {r : UniQuantRule}
    (h : UniQuantRule.monotonicity parse_set "[e1,e2]" (p.1.text f.name) (p.2.text f.name) env = .ok r) :
    r.HoldsIn I ↔ ∀ a b, p.1.holds (I.unary f.name) a b → p.2.holds (I.unary f.name) a b := by
  obtain ⟨left, hleft, h⟩ := Outcome.bind_eq_ok.1 h
  obtain ⟨right, hright, h⟩ := Outcome.bind_eq_ok.1 h
  cases h
  unfold UniQuantRule.HoldsIn
  rw [hp p.1 left hleft I hdom hcod, hp p.2 right hright I hdom hcod]
  constructor
  · intro hsub a b hab
    obtain ⟨_, _, heq, hr⟩ := hsub ⟨a, b, rfl, hab⟩
    simp only [List.cons.injEq, and_true] at heq
    obtain ⟨rfl, rfl⟩ := heq
    exact hr
  · rintro himp t ⟨a, b, rfl, hab⟩
    exact ⟨a, b, rfl, himp a b hab⟩

/-- The rules made of the sides hold when the sides imply each other. -/
theorem forall_holdsIn_iff (hp : ReadsSides parse_set env f.name) (hdom : I.dom f.name = 1) (hcod : I.cod f.name = 1) :
    ∀ {sides : List (RuleSide × RuleSide)} {rules : List UniQuantRule},
      List.Forall₂ (fun s r => UniQuantRule.monotonicity parse_set "[e1,e2]" s.1 s.2 env = .ok r)
        (sides.map fun p => (p.1.text f.name, p.2.text f.name)) rules →
      ((∀ r ∈ rules, r.HoldsIn I) ↔
        ∀ p ∈ sides, ∀ a b, p.1.holds (I.unary f.name) a b → p.2.holds (I.unary f.name) a b)
  | [], _, h => by
    cases h
    simp
  | p :: sides, _, h => by
    cases h with
    | cons hr hrest =>
      rw [List.forall_mem_cons, List.forall_mem_cons, UniQuantRule.holdsIn_iff hp hdom hcod hr,
        forall_holdsIn_iff hp hdom hcod hrest]

/-- The rules that are added say that the function can be extended. -/
theorem exists_rules_of_appendCurrEnv (h : appendCurrEnv parse_set f env = .ok () env') (hd : f.domain.arity = 1)
    (hr : f.range.arity = 1) (hp : ReadsSides parse_set (env.inserted f) f.name) (hdom : I.dom f.name = 1)
    (hcod : I.cod f.name = 1) :
    ∃ rules, env'.uniQuantRules = env.uniQuantRules ++ rules ∧
      (RulesSound f rules I ↔ f.monoType.Extends (f.domainIn I)) := by
  obtain ⟨gs, hs, rules, -, -, hmade, rfl, -, -⟩ := appendCurrEnv_ok h
  rw [UninterpFunc.rules, if_pos ⟨hd, hr⟩, monotonicityRules_eq] at hmade
  refine ⟨rules, rfl, forall₂_congr fun g _ => exists_congr fun k => and_congr_right fun _ => ?_⟩
  have hdom' : (I.withUnary f.name k).dom f.name = 1 := hdom
  have hcod' : (I.withUnary f.name k).cod f.name = 1 := hcod
  rw [forall_holdsIn_iff hp hdom' hcod' hmade, Interp.unary_withUnary, MonotonicType.sides_hold_iff]

/-- The rules that are added for a function rule out none that is monotonic as declared just when the kind is not strict
or the declared domain has no gaps. -/
theorem appendCurrEnv_rulesSound_iff (h : appendCurrEnv parse_set f env = .ok () env') (hd : f.domain.arity = 1)
    (hr : f.range.arity = 1) (hp : ReadsSides parse_set (env.inserted f) f.name) (hdom : I.dom f.name = 1)
    (hcod : I.cod f.name = 1) :
    (∃ rules, env'.uniQuantRules = env.uniQuantRules ++ rules ∧ RulesSound f rules I) ↔
      (f.monoType = .increasing ∨ f.monoType = .decreasing → (f.domainIn I).OrdConnected) := by
  obtain ⟨rules, hrules, hsound⟩ := exists_rules_of_appendCurrEnv h hd hr hp hdom hcod
  rw [hrules, ← MonotonicType.extends_iff, ← hsound]
  simp only [List.append_cancel_left_eq, exists_eq_left']

end Sound

/-! ## A domain with a gap -/

/-- `[e1, e2]` -/
def e1e2 : TupleDecl := ⟨[⟨false, 0, "e1"⟩, ⟨false, 0, "e2"⟩]⟩

/-- `e1 < e2`, where the variables are given as the terms -/
def lessConj (t u : Term) : Conjunction :=
  ⟨[], [.mk .inequality [t.multiplyBy (-1), u, .constVal (-1)]], e1e2, 0⟩

/-- `f` at a variable -/
def fAt (l : Nat) : Term := .ufCall 1 "f" [.mk .expression [.tupleVar 1 l]] none

/-- What the parser gives for the texts about `f`, if it is strictly increasing. -/
def readLess : ParseSet := fun _ str =>
  if str = sideText "e1 < e2" then .ok ⟨2, [lessConj (.tupleVar 1 0) (.tupleVar 1 1)]⟩
  else if str = sideText "f(e1) < f(e2)" then .ok ⟨2, [lessConj (fAt 0) (fAt 1)]⟩
  else .error (.parseException "parse error")

theorem mem_denote_lessConj {I : Interp} {t u : Term} {v : Int → Int}
    (ht : ∀ s, t.val I (valuation s) = scalar (v (valuation s 0)))
    (hu : ∀ s, u.val I (valuation s) = scalar (v (valuation s 1))) (s : List Int) :
    s ∈ denoteUnion I [lessConj t u] ↔ ∃ a b, s = [a, b] ∧ v a < v b := by
  have hval : (Exp.mk .inequality [t.multiplyBy (-1), u, .constVal (-1)]).HoldsGe I (valuation s) ↔
      v (valuation s 0) < v (valuation s 1) := by
    have hk : ∀ k, (Exp.mk .inequality [t.multiplyBy (-1), u, .constVal (-1)]).val I (valuation s) k =
        scalar (v (valuation s 1) - v (valuation s 0) - 1) k := by
      intro k
      rw [Exp.val, termsVal_cons, termsVal_cons, termsVal_cons, termsVal_nil, Term.val_multiplyBy, ht, hu]
      cases k <;> simp [Term.val]; ring
    simp only [Exp.HoldsGe, hk]
    constructor
    · intro h
      have h0 := h 0
      rw [scalar_zero] at h0
      omega
    · rintro h (_ | k)
      · rw [scalar_zero]; omega
      · simp
  constructor
  · rintro ⟨_, hc, ⟨hlen, -⟩, -, hineq⟩
    rw [List.mem_singleton.1 hc] at hlen hineq
    obtain ⟨a, b, rfl⟩ := List.length_eq_two.1 hlen
    exact ⟨a, b, rfl, hval.1 (hineq _ List.mem_cons_self)⟩
  · rintro ⟨a, b, rfl, hab⟩
    have hvars : ∀ i < e1e2.size, ¬ e1e2.elemIsConst i = true := by decide
    refine ⟨_, List.mem_cons_self, ⟨rfl, fun i hi hc => absurd hc (hvars i hi)⟩, by simp [lessConj], fun e he => ?_⟩
    rw [List.mem_singleton.1 he]
    exact hval.2 hab

theorem ofString_readLess_vars : Set.ofString readLess (sideText "e1 < e2") ⟨[], [], []⟩ =
    .ok ⟨2, [lessConj (.tupleVar 1 0) (.tupleVar 1 1)]⟩ := rfl

theorem ofString_readLess_calls : Set.ofString readLess (sideText "f(e1) < f(e2)") ⟨[], [], []⟩ =
    .ok ⟨2, [lessConj (fAt 0) (fAt 1)]⟩ := rfl

/-- The parser reads the sides of the rules as the sets they say. -/
theorem readsSides_readLess : ReadsSides readLess ⟨[], [], []⟩ "f" := by
  intro side s h I hdom hcod
  ext t
  cases side with
  | vars op =>
    cases op with
    | lt =>
      cases ofString_readLess_vars.symm.trans h
      exact mem_denote_lessConj (fun s => by simp [Term.val]) (fun s => by simp [Term.val]) t
    | _ => cases h
  | calls op =>
    cases op with
    | lt =>
      cases ofString_readLess_calls.symm.trans h
      have hcall : ∀ l s, (fAt l).val I (valuation s) = scalar (I.unary "f" (valuation s l)) := by
        intro l s
        funext k
        have hargs : argsVal I (valuation s) [.mk .expression [.tupleVar 1 l]] = [scalar (valuation s l)] := by
          simp [argsVal, Exp.val, termsVal, Term.val]
        simp only [fAt, Term.val, hargs, Interp.callVal, Interp.argTuple, hdom, hcod, Interp.unary]
        cases k <;> simp
      exact mem_denote_lessConj (hcall 0) (hcall 1) t
    | _ => cases h

/-- `i = c` -/
def atConj (c : Int) : Conjunction :=
  ⟨[.mk .equality [.tupleVar 1 0, .constVal (-c)]], [], ⟨[⟨false, 0, "i"⟩]⟩, 0⟩

/-- A strictly increasing `f` with a domain -/
def increasingFunc (domain : Set) : UninterpFunc := ⟨"f", domain, .ofArity 1, false, .increasing⟩

/-- `{[i] : i = 1} union {[i] : i = 3}` -/
def gapSet : Set := ⟨1, [atConj 1, atConj 3]⟩

theorem exists_appendCurrEnv_gap : ∃ env', appendCurrEnv readLess (increasingFunc gapSet) ⟨[], [], []⟩ = .ok () env' :=
  ⟨_, rfl⟩

theorem exists_appendCurrEnv_all :
    ∃ env', appendCurrEnv readLess (increasingFunc (.ofArity 1)) ⟨[], [], []⟩ = .ok () env' := ⟨_, rfl⟩

theorem mem_denote_atConj (I : Interp) (c x : Int) : [x] ∈ (atConj c).denote I ↔ x = c := by
  have hval : ∀ k, (Exp.mk .equality [.tupleVar 1 0, .constVal (-c)]).val I (valuation [x]) k = scalar (x - c) k := by
    intro k
    cases k <;> simp [Exp.val, Term.val, valuation, sub_eq_add_neg]
  have hholds : (Exp.mk .equality [.tupleVar 1 0, .constVal (-c)]).HoldsEq I (valuation [x]) ↔ x = c := by
    simp only [Exp.HoldsEq, hval]
    constructor
    · exact fun h => sub_eq_zero.1 (h 0)
    · rintro rfl k
      cases k <;> simp
  have hvars : ∀ i < 1, ¬ (atConj c).tupleDecl.elemIsConst i = true := by
    change ∀ i < 1, ¬ (TupleDecl.mk [⟨false, 0, "i"⟩]).elemIsConst i = true
    decide
  constructor
  · rintro ⟨-, heq, -⟩
    exact hholds.1 (heq _ List.mem_cons_self)
  · intro hx
    refine ⟨⟨rfl, fun i hi hc => absurd hc (hvars i hi)⟩, fun e he => ?_, by simp [atConj]⟩
    rw [List.mem_singleton.1 he]
    exact hholds.2 hx

/-- The interpretation in which the functions are constant. -/
def zeroInterp : Interp := ⟨fun _ => 0, fun _ _ => [0], fun _ => 1, fun _ => 1⟩

/-- A function that rises from `1` to `3` by one cannot be extended. -/
theorem appendCurrEnv_excludes :
    ∃ env', appendCurrEnv readLess (increasingFunc gapSet) ⟨[], [], []⟩ = .ok () env' ∧
      ¬ ∃ rules, env'.uniQuantRules = [] ++ rules ∧ RulesSound (increasingFunc gapSet) rules zeroInterp := by
  obtain ⟨env', h⟩ := exists_appendCurrEnv_gap
  obtain ⟨rules, hrules, hsound⟩ := exists_rules_of_appendCurrEnv h rfl rfl readsSides_readLess
    (show zeroInterp.dom "f" = 1 from rfl) rfl
  refine ⟨env', h, ?_⟩
  rw [hrules]
  rintro ⟨rules', heq, hr⟩
  rw [← List.append_cancel_left heq, hsound, MonotonicType.extends_iff] at hr
  have hmem : ∀ x, x ∈ (increasingFunc gapSet).domainIn zeroInterp ↔ x = 1 ∨ x = 3 := by
    intro x
    change [x] ∈ denoteUnion zeroInterp [atConj 1, atConj 3] ↔ _
    rw [mem_denoteUnion_cons, mem_denote_atConj, mem_denoteUnion_cons, mem_denote_atConj]
    simp [denoteUnion]
  have hgap := (hr (.inl rfl)).out ((hmem 1).2 (.inl rfl)) ((hmem 3).2 (.inr rfl)) (show (2 : Int) ∈ Set.Icc 1 3 by decide)
  rw [hmem] at hgap
  omega

theorem appendCurrEnv_rulesSound_iff_all :
    ∃ env', appendCurrEnv readLess (increasingFunc (.ofArity 1)) ⟨[], [], []⟩ = .ok () env' ∧
      ((∃ rules, env'.uniQuantRules = [] ++ rules ∧ RulesSound (increasingFunc (.ofArity 1)) rules zeroInterp) ↔
        (MonotonicType.increasing = .increasing ∨ MonotonicType.increasing = .decreasing →
          ((increasingFunc (.ofArity 1)).domainIn zeroInterp).OrdConnected)) := by
  obtain ⟨env', h⟩ := exists_appendCurrEnv_all
  exact ⟨env', h, appendCurrEnv_rulesSound_iff h rfl rfl readsSides_readLess rfl rfl⟩

end IEGen
