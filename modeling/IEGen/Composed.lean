import IEGen.Eliminated

/-!
# The composition of two conjunctions

The constraints that `Compose` joins say that the inputs and the inner variables are a pair of the right operand, and the inner
variables and the outputs one of the left operand (`holds_composeStart`). So the result is the composition of the two relations
wherever the inner variables are found and put right, up to the constants that are pushed last: of two different constants for
one variable only one is left (`Compose_composes_iff`).
-/

namespace IEGen

open Outcome (bind_eq_ok)

/-- The pairs that go through an inner tuple, from the right operand to the left one. -/
def composition (I : Interp) (lhs rhs : Conjunction) (innerArity : Nat) : IntTuples :=
  {t | ∃ x y z, x.length = rhs.arity - innerArity ∧ y.length = innerArity ∧ t = x ++ z ∧ x ++ y ∈ rhs.denote I ∧
    y ++ z ∈ lhs.denote I}

section Readable

variable (σ : Nat → Nat)

mutual
/-- Moving tuple variables leaves the names. -/
theorem Term.readable_mapVars : ∀ t : Term, (t.mapVars σ).readable = t.readable
  | .tupleVar .. | .symConst .. | .constVal _ | .tupleExp .. => rfl
  | .ufCall c f as i => by
    rw [Term.mapVars, Term.readable, Term.readable, readable_argsMapVars as]

theorem Exp.readable_mapVars : ∀ e : Exp, (e.mapVars σ).readable = e.readable
  | .mk _ ts => readable_termsMapVars ts

theorem readable_argsMapVars : ∀ es : List Exp, argsReadable (argsMapVars σ es) = argsReadable es
  | [] => rfl
  | e :: es => by
    rw [argsMapVars, argsReadable, argsReadable, Exp.readable_mapVars e, readable_argsMapVars es]

theorem readable_termsMapVars : ∀ ts : List Term, termsReadable (termsMapVars σ ts) = termsReadable ts
  | [] => rfl
  | t :: ts => by
    rw [termsMapVars, termsReadable, termsReadable, Term.readable_mapVars t, readable_termsMapVars ts]
end

end Readable

namespace Conjunction

/-! ## The steps of a composition -/

/-- The constraints of both operands, with the inner variables behind the inputs and the outputs. -/
def composeStart (lhs rhs : Conjunction) (innerArity : Nat) : Except Failure Conjunction := do
  let finalInArity := rhs.arity - innerArity
  let finalOutArity := lhs.arity - innerArity
  let lhs_copy ← lhs.pushConstToConstraints.remapTupleVars (shiftLHSVars lhs.arity innerArity finalInArity)
  let rhs_copy ← rhs.pushConstToConstraints.remapTupleVars (shiftRHSVars rhs.arity finalInArity finalOutArity)
  joined lhs_copy rhs_copy finalInArity finalOutArity innerArity

/-- The functions for the inner variables: of the inputs, when both operands are functions, or else of the outputs. -/
def composeMap (env : Environment) (lhs rhs : Conjunction) (innerArity : Nat) : Except Failure SubMap := do
  let lhsIsFunction ← lhs.isFunction env innerArity
  let rhsIsFunction ← rhs.isFunction env (rhs.arity - innerArity)
  composeSubMap env (lhsIsFunction && rhsIsFunction) (← lhs.composeStart rhs innerArity) (rhs.arity - innerArity)
    (lhs.arity - innerArity) innerArity

/-- The constraints of both operands on the inputs and the outputs, before the constants are pushed into the declaration. -/
def composeEliminated (env : Environment) (lhs rhs : Conjunction) (innerArity : Nat) : Except Failure Conjunction := do
  let result ← lhs.composeStart rhs innerArity
  let substituted ← result.substituteInConstraints env (← lhs.composeMap env rhs innerArity)
  substituted.setTupleDecl (result.tupleDecl.truncate (rhs.arity - innerArity + (lhs.arity - innerArity)))

variable {env : Environment} {lhs rhs result : Conjunction} {innerArity : Nat}

theorem compose_steps (h : lhs.Compose env rhs innerArity = .ok result) : ∃ start m substituted c,
    lhs.composeStart rhs innerArity = .ok start ∧ lhs.composeMap env rhs innerArity = .ok m ∧
      start.substituteInConstraints env m = .ok substituted ∧
      substituted.setTupleDecl (start.tupleDecl.truncate (rhs.arity - innerArity + (lhs.arity - innerArity))) = .ok c ∧
      lhs.composeEliminated env rhs innerArity = .ok c ∧ c.pushConstConstraintsToTupleDecl env = .ok result := by
  unfold Compose at h
  simp only [bind_eq_ok] at h
  obtain ⟨lhsIsFunction, hlf, rhsIsFunction, hrf, lhsIsFunctionInverse, -, rhsIsFunctionInverse, -, h⟩ := h
  generalize (!((lhsIsFunction && rhsIsFunction) || (lhsIsFunctionInverse && rhsIsFunctionInverse))) = refused at h
  cases refused with
  | true => cases h
  | false =>
    rw [if_neg Bool.false_ne_true] at h
    simp only [bind_eq_ok] at h
    obtain ⟨lhs_copy, hlhs, rhs_copy, hrhs, start, hstart, m, hm, substituted, hsubst, c, hc, hpush⟩ := h
    have hstart' : lhs.composeStart rhs innerArity = .ok start := by
      simp only [composeStart, bind_eq_ok]
      exact ⟨lhs_copy, hlhs, rhs_copy, hrhs, hstart⟩
    have hm' : lhs.composeMap env rhs innerArity = .ok m := by
      simp only [composeMap, bind_eq_ok]
      exact ⟨lhsIsFunction, hlf, rhsIsFunction, hrf, start, hstart', hm⟩
    refine ⟨start, m, substituted, c, hstart', hm', hsubst, hc, ?_, hpush⟩
    simp only [composeEliminated, bind_eq_ok]
    exact ⟨start, hstart', m, hm', substituted, hsubst, hc⟩

/-! ## The constraints of both operands -/

/-- A copy of an operand, with its constants as equalities and its variables at their new locations. -/
theorem copy_spec {c copy : Conjunction} {σ : Nat → Nat} (hσ : ∀ i < c.arity, ∀ j < c.arity, σ i = σ j → i = j)
    (hr : c.readable = true)
    (h : c.pushConstToConstraints.remapTupleVars ((List.range c.arity).map fun i => (σ i : Int)) = .ok copy) :
    copy.readable = true ∧ (∀ q : Nat → Prop, (∀ l < c.arity, q (σ l)) → copy.VarsIn q) ∧
      ∀ (I : Interp) (τ : Nat → Int) (t : List Int), t.length = c.arity → (∀ l < c.arity, τ (σ l) = valuation t l) →
        (copy.Holds I τ ↔ t ∈ c.denote I) := by
  obtain ⟨hvars, rfl⟩ := (remapTupleVars_eq_ok_iff (moves_range hσ)).1 h
  rw [List.length_map, List.length_range] at hvars
  have hread : c.pushConstToConstraints.readable = true :=
    (foldl_pushConst (I := ⟨fun _ => 0, fun _ _ => [], fun _ => 0, fun _ => 0⟩) (τ := fun _ => 0) hr c.arity).1
  obtain ⟨heqs, hineqs⟩ := readable_iff.1 hread
  refine ⟨readable_iff.2 ⟨fun e he => ?_, fun e he => ?_⟩, fun q hq e he => ?_, fun I τ t ht hτ => ?_⟩
  · obtain ⟨d, hd, rfl⟩ := List.mem_map.1 he
    exact readable_normalizeForEquality ((Exp.readable_mapVars σ d).trans (heqs d hd))
  · obtain ⟨d, hd, rfl⟩ := List.mem_map.1 he
    exact (Exp.readable_mapVars σ d).trans (hineqs d hd)
  · rcases List.mem_append.1 he with he | he
    · obtain ⟨d, hd, rfl⟩ := List.mem_map.1 he
      exact Exp.varsIn_normalizeForEquality
        (Exp.varsIn_mapVars hq (hvars d (List.mem_append_left _ hd)))
    · obtain ⟨d, hd, rfl⟩ := List.mem_map.1 he
      exact Exp.varsIn_mapVars hq (hvars d (List.mem_append_right _ hd))
  · rw [← holds_pushConstToConstraints hr ht, ← holds_congr hvars hτ]
    simp only [Holds, List.forall_mem_map, holdsEq_normalizeForEquality]
    simp only [Exp.HoldsEq, Exp.HoldsGe, Exp.val_mapVars]

/-- The joined constraints: all variables are declared, and hold of a pair of each operand that share the inner tuple. -/
theorem composeStart_spec {start : Conjunction} (hl : innerArity ≤ lhs.arity) (hr : innerArity ≤ rhs.arity)
    (hlr : lhs.readable = true) (hrr : rhs.readable = true) (h : lhs.composeStart rhs innerArity = .ok start) :
    start.readable = true ∧ start.inArity = rhs.arity - innerArity ∧
      start.arity = rhs.arity - innerArity + (lhs.arity - innerArity) + innerArity ∧
      (∀ i < start.arity, start.tupleDecl.elemIsConst i = false) ∧ start.VarsIn (· < start.arity) ∧
      ∀ (I : Interp) (x y z : List Int), x.length = rhs.arity - innerArity → y.length = innerArity →
        z.length = lhs.arity - innerArity →
          (start.Holds I (valuation (x ++ z ++ y)) ↔ x ++ y ∈ rhs.denote I ∧ y ++ z ∈ lhs.denote I) := by
  simp only [composeStart, bind_eq_ok] at h
  obtain ⟨lhs_copy, hlhs, rhs_copy, hrhs, hstart⟩ := h
  obtain ⟨returned, taken', d', -, hlen, hdecl, hsize, hinputs, hbehind, houtputs⟩ :=
    composedDecl_spec hl hr hlhs hrhs (TupleDecl.size_sDefaultTupleDecl _)
  rw [TupleDecl.size_sDefaultTupleDecl] at hsize hbehind
  obtain rfl : start = ⟨rhs_copy.equalities ++ lhs_copy.equalities, rhs_copy.inequalities ++ lhs_copy.inequalities, d',
      rhs.arity - innerArity⟩ := by
    unfold joined at hstart
    dsimp only at hstart
    rw [show (((ofArity (rhs.arity - innerArity + (lhs.arity - innerArity) + innerArity)).copyConstraintsFrom
      rhs_copy).copyConstraintsFrom lhs_copy).tupleDecl = .sDefaultTupleDecl _ from rfl, hdecl] at hstart
    exact (Except.ok.inj hstart).symm
  obtain ⟨hlread, hlvars, hlholds⟩ := copy_spec lhsLoc_injective hlr hlhs
  obtain ⟨hrread, hrvars, hrholds⟩ := copy_spec rhsLoc_injective hrr hrhs
  have hlt : (∀ l < lhs.arity, lhsLoc lhs.arity innerArity (rhs.arity - innerArity) l < d'.size) ∧
      ∀ l < rhs.arity, rhsLoc (rhs.arity - innerArity) (lhs.arity - innerArity) l < d'.size := by
    rw [hsize]
    refine ⟨fun l hl' => ?_, fun l hl' => ?_⟩
    · unfold lhsLoc
      split <;> omega
    · unfold rhsLoc
      split <;> omega
  refine ⟨?_, rfl, hsize, fun i hi => ?_, ?_, fun I x y z hx hy hz => ?_⟩
  · obtain ⟨hle, hli⟩ := readable_iff.1 hlread
    obtain ⟨hre, hri⟩ := readable_iff.1 hrread
    exact readable_iff.2 ⟨List.forall_mem_append.2 ⟨hre, hle⟩, List.forall_mem_append.2 ⟨hri, hli⟩⟩
  · have hi' : i < d'.size := hi
    rw [hsize] at hi'
    show d'.elemIsConst i = false
    rcases lt_or_ge i (rhs.arity - innerArity) with hin | hge
    · exact (hinputs i hin).1
    · rcases lt_or_ge i (rhs.arity - innerArity + (lhs.arity - innerArity)) with hout | hge'
      · have hvar := (houtputs (i - (rhs.arity - innerArity)) (by omega)).1
        rwa [Nat.add_sub_cancel' hge] at hvar
      · rw [TupleDecl.elemIsConst, hbehind i hi' hge']
        exact elemIsConst_sDefaultTupleDecl _ _
  · have hr' := List.forall_mem_append.1 (hrvars (· < d'.size) hlt.2)
    have hl' := List.forall_mem_append.1 (hlvars (· < d'.size) hlt.1)
    exact List.forall_mem_append.2 ⟨List.forall_mem_append.2 ⟨hr'.1, hl'.1⟩, List.forall_mem_append.2 ⟨hr'.2, hl'.2⟩⟩
  · rw [← hrholds I (valuation (x ++ z ++ y)) (x ++ y) (by rw [List.length_append]; omega) fun l hl' => ?_,
      ← hlholds I (valuation (x ++ z ++ y)) (y ++ z) (by rw [List.length_append]; omega) fun l hl' => ?_]
    · simp only [Holds, List.forall_mem_append]
      tauto
    · have hxz : (x ++ z).length = rhs.arity - innerArity + (lhs.arity - innerArity) := by rw [List.length_append, hx, hz]
      unfold lhsLoc valuation
      split_ifs with hin
      · rw [List.getD_append_right _ _ _ _ (by omega), List.getD_append _ _ _ _ (by omega), hxz]
        congr 1
        omega
      · rw [List.getD_append _ _ _ _ (by omega), List.getD_append_right _ _ _ _ (by omega),
          List.getD_append_right _ _ _ _ (by omega), hx, hy, Nat.add_sub_cancel]
    · have hxz : (x ++ z).length = rhs.arity - innerArity + (lhs.arity - innerArity) := by rw [List.length_append, hx, hz]
      unfold rhsLoc valuation
      split_ifs with hin
      · rw [List.getD_append _ _ _ _ (by omega), List.getD_append _ _ _ _ (by omega), List.getD_append _ _ _ _ (by omega)]
      · rw [List.getD_append_right _ _ _ _ (by omega), List.getD_append_right _ _ _ _ (by omega), hxz, hx]
        congr 1
        omega

/-! ## The composition -/

theorem inArity_push {c c' : Conjunction} (h : c.pushConstConstraintsToTupleDecl env = .ok c') : c'.inArity = c.inArity := by
  simp only [pushConstConstraintsToTupleDecl, bind_eq_ok] at h
  obtain ⟨found, -, h⟩ := h
  cases h
  rfl

/-- The functions are found and put right, and the constants are solved right. -/
structure ComposesRight (env : Environment) (dom cod : String → Nat) (lhs rhs : Conjunction) (innerArity : Nat) : Prop where
  inner : ∀ start m, lhs.composeStart rhs innerArity = .ok start → lhs.composeMap env rhs innerArity = .ok m →
    start.FindsInner env dom cod m ∧ start.SubstitutesRight env dom cod m
  constants : ∀ c, lhs.composeEliminated env rhs innerArity = .ok c → ∀ e i v, c.Fixes env e i v → e.GivesRight env dom cod i

/-- The keys and the functions of `composeMap`. -/
theorem exists_innerSubMap {start : Conjunction} {m : SubMap} (hstart : lhs.composeStart rhs innerArity = .ok start)
    (h : lhs.composeMap env rhs innerArity = .ok m) : ∃ first last : Int,
      last < (rhs.arity - innerArity + (lhs.arity - innerArity) : Nat) ∧
      innerSubMap env start (rhs.arity - innerArity + (lhs.arity - innerArity)) innerArity first last = .ok m := by
  simp only [composeMap, bind_eq_ok] at h
  obtain ⟨lhsIsFunction, -, rhsIsFunction, -, start', hstart', h⟩ := h
  obtain rfl := Except.ok.inj (hstart'.symm.trans hstart)
  unfold composeSubMap at h
  split_ifs at h
  · exact ⟨_, _, by omega, h⟩
  · exact ⟨_, _, by omega, h⟩

/-- The tuples before the constants are pushed. -/
theorem composeEliminated_spec {dom cod : String → Nat} {c : Conjunction} (hl : innerArity ≤ lhs.arity)
    (hr : innerArity ≤ rhs.arity) (hlr : lhs.readable = true) (hrr : rhs.readable = true)
    (hright : lhs.ComposesRight env dom cod rhs innerArity) (h : lhs.composeEliminated env rhs innerArity = .ok c) :
    c.readable = true ∧ ∀ I : Interp, I.dom = dom → I.cod = cod → I.Consistent env →
      c.denote I = composition I lhs rhs innerArity := by
  simp only [composeEliminated, bind_eq_ok] at h
  obtain ⟨start, hstart, m, hm, substituted, hsubst, htrunc⟩ := h
  obtain ⟨hread, -, harity, hvar, hvars, hholds⟩ := composeStart_spec hl hr hlr hrr hstart
  obtain ⟨hfinds, hsubstitutes⟩ := hright.inner start m hstart hm
  obtain ⟨first, last, hlast, hinner⟩ := exists_innerSubMap hstart hm
  obtain ⟨heqs, hineqs, -, hcarity, helem⟩ := truncated_spec (fun i hi => hvar i (by omega)) hsubst htrunc
  have hsubRead := readable_iff.1 (readable_substituteInConstraints hread hfinds.readable hsubst)
  refine ⟨readable_iff.2 (by rw [heqs, hineqs]; exact hsubRead), fun I hdom hcod hI => ?_⟩
  subst hdom hcod
  ext t
  have hadmits : c.tupleDecl.Admits t ↔ t.length = rhs.arity - innerArity + (lhs.arity - innerArity) := by
    refine ⟨fun ht => ht.1.trans hcarity, fun ht => ⟨ht.trans hcarity.symm, fun i hi hconst => ?_⟩⟩
    have hi' : i < rhs.arity - innerArity + (lhs.arity - innerArity) := by
      rw [← hcarity]
      exact hi
    rw [TupleDecl.elemIsConst, helem i hi'] at hconst
    exact absurd hconst (by rw [show (start.tupleDecl.elem i).isConst = false from hvar i (by omega)]; exact Bool.false_ne_true)
  show c.tupleDecl.Admits t ∧ c.Holds I (valuation t) ↔ _
  rw [hadmits, Holds, heqs, hineqs]
  have heliminated := fun ht => holds_eliminated (t := t) (fun j hj => hvar _ (by omega)) hinner hlast hvars harity hfinds hI
    hread hsubst hsubstitutes ht
  constructor
  · rintro ⟨ht, hc⟩
    obtain ⟨y, hy, hstartHolds⟩ := (heliminated ht).1 hc
    rw [← List.take_append_drop (rhs.arity - innerArity) t] at hstartHolds
    have hx : (t.take (rhs.arity - innerArity)).length = rhs.arity - innerArity := by rw [List.length_take]; omega
    have hz : (t.drop (rhs.arity - innerArity)).length = lhs.arity - innerArity := by rw [List.length_drop]; omega
    exact ⟨_, y, _, hx, hy, (List.take_append_drop _ t).symm, (hholds I _ y _ hx hy hz).1 hstartHolds⟩
  · rintro ⟨x, y, z, hx, hy, rfl, hxy, hyz⟩
    have hz : z.length = lhs.arity - innerArity := by
      have hlen : (y ++ z).length = lhs.arity := hyz.1.1
      rw [List.length_append, hy] at hlen
      exact (Nat.sub_eq_of_eq_add' hlen.symm).symm
    have ht : (x ++ z).length = rhs.arity - innerArity + (lhs.arity - innerArity) := by rw [List.length_append, hx, hz]
    exact ⟨ht, (heliminated ht).2 ⟨y, hy, (hholds I x y z hx hy hz).2 ⟨hxy, hyz⟩⟩⟩

/-- A composition that returns has the pairs that go through an inner tuple, where the inner variables are found and put right,
iff no variable is given two constants or what is left besides has no tuple anyway. -/
theorem Compose_composes_iff (env : Environment) (dom cod : String → Nat) (lhs rhs result : Conjunction) (innerArity : Nat)
    (hl : innerArity ≤ lhs.arity) (hr : innerArity ≤ rhs.arity) (hlr : lhs.readable = true) (hrr : rhs.readable = true)
    (h : lhs.Compose env rhs innerArity = .ok result) (hright : lhs.ComposesRight env dom cod rhs innerArity) :
    (result.inArity = rhs.arity - innerArity ∧ result.arity = rhs.arity - innerArity + (lhs.arity - innerArity)) ∧
    ((∀ I : Interp, I.dom = dom → I.cod = cod → I.Consistent env → result.denote I = composition I lhs rhs innerArity) ↔
      ∀ c, lhs.composeEliminated env rhs innerArity = .ok c → c.GivesOne env dom cod) := by
  obtain ⟨start, m, substituted, c, hstart, -, hsubst, htrunc, hc, hpush⟩ := compose_steps h
  refine ⟨?_, ?_⟩
  · obtain ⟨-, hin, harity, hvar, -⟩ := composeStart_spec hl hr hlr hrr hstart
    obtain ⟨-, -, hcin, hcarity, -⟩ := truncated_spec (fun i hi => hvar i (by omega)) hsubst htrunc
    obtain ⟨hp, -⟩ := pushed_of_push hpush
    exact ⟨(inArity_push hpush).trans (hcin.trans hin), hp.size.trans hcarity⟩
  obtain ⟨hread, hdenote⟩ := composeEliminated_spec hl hr hlr hrr hright hc
  have honly : (∀ c, lhs.composeEliminated env rhs innerArity = .ok c → c.GivesOne env dom cod) ↔ c.GivesOne env dom cod := by
    refine ⟨fun hall => hall c hc, fun hone c' hc' => ?_⟩
    obtain rfl := Except.ok.inj (hc.symm.trans hc')
    exact hone
  rw [honly, ← denote_push_iff hread (hright.constants c hc) hpush]
  refine forall₄_congr fun I hdom hcod hI => ?_
  rw [hdenote I hdom hcod hI]

/-- `{[x] -> [y] : x = y && x = v}` -/
def fixedPair (x y : String) (v : Int) : Conjunction :=
  ⟨[.mk .equality [.tupleVar 1 0, .constVal (-v)], .mk .equality [.tupleVar 1 0, .tupleVar (-1) 1]], [],
    ⟨[⟨false, 0, x⟩, ⟨false, 0, y⟩]⟩, 1⟩

/-- `{[k] -> [j] : k = j && k = 4}` after `{[i] -> [k] : i = k && i = 3}` has a pair, though no inner tuple is in both. -/
theorem Compose_composes_fails : ∃ result, (fixedPair "k" "j" 4).Compose ⟨[], [], []⟩ (fixedPair "i" "k" 3) 1 = .ok result ∧
    ∃ I : Interp, I.Consistent ⟨[], [], []⟩ ∧ result.denote I ≠ composition I (fixedPair "k" "j" 4) (fixedPair "i" "k" 3) 1 := by
  refine ⟨_, rfl, ⟨fun _ => 0, fun _ as => as, fun _ => 1, fun _ => 1⟩, fun f h => absurd rfl h, fun heq => ?_⟩
  have hmem : [3, 3] ∈ composition ⟨fun _ => 0, fun _ as => as, fun _ => 1, fun _ => 1⟩ (fixedPair "k" "j" 4)
      (fixedPair "i" "k" 3) 1 := by
    rw [← heq]
    refine ⟨⟨rfl, fun i hi hconst => ?_⟩, fun e he k => ?_, fun e he => absurd he List.not_mem_nil⟩
    · have hi' : i = 0 ∨ i = 1 := by
        have : i < 2 := hi
        omega
      rcases hi' with rfl | rfl
      · rfl
      · cases hconst
    · obtain rfl := List.mem_singleton.1 he
      cases k <;> rfl
  obtain ⟨x, y, z, hx, hy, -, hrhs, hlhs⟩ := hmem
  obtain ⟨a, rfl⟩ := List.length_eq_one_iff.1 hx
  obtain ⟨b, rfl⟩ := List.length_eq_one_iff.1 hy
  have h₁ := hrhs.2.1 _ List.mem_cons_self 0
  have h₂ := hrhs.2.1 _ (List.mem_cons_of_mem _ List.mem_cons_self) 0
  have h₃ := hlhs.2.1 _ List.mem_cons_self 0
  simp [Exp.val, termsVal, Term.val, valuation] at h₁ h₂ h₃
  omega

/-- `{[k] -> [j] : k = j}` after `{[i] -> [k] : i = k}` -/
theorem Compose_composes_identity : ∃ result, (identityConj "k" "j").Compose ⟨[], [], []⟩ (identityConj "i" "k") 1 = .ok result ∧
    ∀ I : Interp, I.dom = (fun _ => 1) → I.cod = (fun _ => 1) → I.Consistent ⟨[], [], []⟩ →
      result.denote I = composition I (identityConj "k" "j") (identityConj "i" "k") 1 := by
  obtain ⟨result, h⟩ : ∃ result,
      (identityConj "k" "j").Compose ⟨[], [], []⟩ (identityConj "i" "k") 1 = .ok result := ⟨_, rfl⟩
  have hnone : ∀ c, (identityConj "k" "j").composeEliminated ⟨[], [], []⟩ (identityConj "i" "k") 1 = .ok c →
      ∀ e i v, ¬ c.Fixes ⟨[], [], []⟩ e i v := by
    rintro c hc e i v ⟨he, hi, -, x, hx, hv⟩
    cases hc
    obtain rfl := List.mem_singleton.1 he
    rcases i with _ | _ | i
    · cases hx
      cases hv
    · cases hx
      cases hv
    · exact absurd (show i + 2 < 2 from hi) (by omega)
  have hjoined : ∀ start, (identityConj "k" "j").composeStart (identityConj "i" "k") 1 = .ok start →
      start.equalities = [.mk .equality [.tupleVar 1 0, .tupleVar (-1) 2], .mk .equality [.tupleVar 1 2, .tupleVar (-1) 1]] ∧
        start.inequalities = [] := by
    intro start hstart
    cases hstart
    exact ⟨rfl, rfl⟩
  have hfound : ∀ m, (identityConj "k" "j").composeMap ⟨[], [], []⟩ (identityConj "i" "k") 1 = .ok m →
      m = [(.tupleVar 1 2, some (.mk .equality [.tupleVar 1 0]))] := by
    intro m hm
    cases hm
    rfl
  have hempty : ∀ p : Term × Term, p ∈ ([] : List (Term × Term)) → MergesRight (fun _ => 1) p := fun _ hp => by cases hp
  refine ⟨result, h, (Compose_composes_iff ⟨[], [], []⟩ (fun _ => 1) (fun _ => 1) (identityConj "k" "j") (identityConj "i" "k")
    result 1 (by decide) (by decide) rfl rfl h ⟨fun start m hstart hm => ?_,
      fun c hc e i v hfix => absurd hfix (hnone c hc e i v)⟩).2.2 fun c hc => .inl fun d _ i v _ hd _ => absurd hd (hnone c hc d i v)⟩
  obtain ⟨heqs, hineqs⟩ := hjoined start hstart
  rw [hfound m hm]
  refine ⟨⟨fun p hp => ?_, fun p hp x hx e he _ => ?_⟩, ⟨fun e he => ?_, fun e he => ?_, fun e he => ?_⟩⟩
  · obtain rfl := List.mem_singleton.1 hp
    exact ⟨_, rfl, rfl, fun t ht => by obtain rfl := List.mem_singleton.1 ht; rfl⟩
  · obtain rfl := List.mem_singleton.1 hp
    rw [heqs] at he
    simp only [List.mem_cons, List.not_mem_nil, or_false] at he
    rcases he with rfl | rfl <;> exact ⟨by simp [Term.coefficient], takesRight_tupleVar _ _⟩
  · rw [heqs, hineqs] at he
    simp only [List.append_nil, List.mem_cons, List.not_mem_nil, or_false] at he
    rcases he with rfl | rfl
    · -- the inner variable is cancelled
      refine ⟨⟨trivial, trivial, trivial⟩, fun p hp => ?_, hempty⟩
      have hpair : p ∈ [(Term.tupleVar (-1) 0, Term.tupleVar 1 0)] := hp
      obtain rfl := List.mem_singleton.1 hpair
      trivial
    · exact ⟨⟨trivial, trivial, trivial⟩, hempty, hempty⟩
  · rw [heqs] at he
    simp only [List.mem_cons, List.not_mem_nil, or_false] at he
    rcases he with rfl | rfl
    · trivial
    · refine ⟨trivial, fun d hd => ?_⟩
      cases hd
      refine ⟨hempty, trivial, fun d hd => ?_⟩
      cases hd
      exact ⟨hempty, trivial⟩
  · rw [hineqs] at he
    cases he

end Conjunction

end IEGen
