import IEGen.Composed

/-!
# The image of a set

`Conjunction::Apply` puts the constraints of a relation and of a set side by side, with the inputs behind the outputs, and
replaces the inputs by functions of the outputs; `Relation::Apply` does it for all pairs and cleans up. The result has the
tuples of the image wherever this is done right for each pair (`Apply_image`), no pair gives way to the next one with tuples
of its own, and there is a pair at all: the result starts as the set of all tuples, which only a pair removes
(`Relation.Apply_image_iff`).
-/

namespace IEGen

open Outcome (bind_eq_ok)

namespace TupleDecl

theorem foldl_max_lt {l : List Int} {a b : Int} (ha : a < b) (hl : ∀ x ∈ l, x < b) : l.foldl max a < b := by
  induction l generalizing a with
  | nil => exact ha
  | cons x l ih =>
    obtain ⟨hx, hl⟩ := List.forall_mem_cons.1 hl
    exact ih (max_lt ha hx) hl

/-- A declaration whose elements change places has as many elements as before. -/
theorem size_remap_range {σ : Nat → Nat} {n : Nat} (h : ∀ i < n, ∀ j < n, σ i = σ j → i = j) (hlt : ∀ i < n, σ i < n)
    (hsurj : ∀ l < n, ∃ i < n, σ i = l) (d : TupleDecl) : (d.remap ((List.range n).map fun i => (σ i : Int))).size = n := by
  obtain ⟨hlocs, hnd⟩ := Conjunction.locs_range h
  have hmax : (((List.range n).map σ).map Int.ofNat).foldl max (-1) + 1 = n := by
    have hle : (((List.range n).map σ).map Int.ofNat).foldl max (-1) < n := foldl_max_lt (by omega) fun x hx => by
      simp only [List.map_map, List.mem_map, List.mem_range, Function.comp_apply] at hx
      obtain ⟨i, hi, rfl⟩ := hx
      have := hlt i hi
      simp only [Int.ofNat_eq_natCast]
      omega
    rcases n.eq_zero_or_pos with rfl | hpos
    · rfl
    · obtain ⟨i, hi, hl⟩ := hsurj (n - 1) (by omega)
      have hmem : ((n - 1 : Nat) : Int) ∈ ((List.range n).map σ).map Int.ofNat := by
        rw [← hl]
        exact List.mem_map_of_mem (List.mem_map_of_mem (List.mem_range.2 hi))
      have hge := le_foldl_max (a := -1) (.inr hmem)
      omega
  rw [hlocs]
  unfold remap
  simp only [hmax, Int.toNat_natCast]
  refine (elem_foldl_copyTupleElem hnd fun l hl => ?_).1.trans (size_sDefaultTupleDecl n)
  obtain ⟨i, hi, rfl⟩ := List.mem_map.1 hl
  rw [size_sDefaultTupleDecl]
  exact hlt i (List.mem_range.1 hi)

end TupleDecl

/-! ## The code -/

namespace Conjunction

/-- The new location of a variable of the relation: the inputs go behind the outputs. -/
def resultLoc (lhsInArity finalResultArity i : Nat) : Nat :=
  if i < lhsInArity then i + finalResultArity else i - lhsInArity

/-- `shiftResultVars` -/
def shiftResultVars (arity lhsInArity finalResultArity : Nat) : List Int :=
  (List.range arity).map fun i => (resultLoc lhsInArity finalResultArity i : Int)

/-- `shiftRHSVars` of `Apply` -/
def shiftSetVars (arity finalResultArity : Nat) : List Int :=
  (List.range arity).map fun i => ((i + finalResultArity : Nat) : Int)

/-- The constraints of the relation and of the set, with the inputs behind the outputs. -/
def applyStart (lhs rhs : Conjunction) : Except Failure Conjunction := do
  let lhsInArity := rhs.arity
  let finalResultArity := lhs.arity - lhsInArity
  let result ← { lhs.pushConstToConstraints with inArity := finalResultArity }.remapTupleVars
    (shiftResultVars lhs.arity lhsInArity finalResultArity)
  let rhs_copy ← rhs.pushConstToConstraints.remapTupleVars (shiftSetVars rhs.arity finalResultArity)
  .ok (result.copyConstraintsFrom rhs_copy)

/-- The functions of the outputs for the inputs. -/
def applyMap (env : Environment) (result : Conjunction) (finalResultArity : Nat) : Except Failure SubMap :=
  innerSubMap env result finalResultArity (result.arity - finalResultArity) 0 ((finalResultArity : Int) - 1)

/-- The constraints of both on the outputs, before the constants are pushed into the declaration. -/
def applyEliminated (env : Environment) (lhs rhs : Conjunction) : Except Failure Conjunction := do
  let finalResultArity := lhs.arity - rhs.arity
  let result ← lhs.applyStart rhs
  let substituted ← result.substituteInConstraints env (← result.applyMap env finalResultArity)
  let final_tdecl := result.tupleDecl.truncate finalResultArity
  .ok ((ofTupleDecl final_tdecl).copyConstraintsFrom substituted)

/-- `Conjunction::Apply` -/
def Apply (env : Environment) (lhs rhs : Conjunction) : Except Failure Conjunction := do
  let lhsIsFunctionInverse ← lhs.isFunctionInverse env rhs.arity
  if !lhsIsFunctionInverse then .error (.assertException "Conjunction::Apply: Relation not invertible")
  else do
    let final_result ← lhs.applyEliminated env rhs
    final_result.pushConstConstraintsToTupleDecl env

end Conjunction

/-- `Relation::Apply` -/
def Relation.Apply (env : Environment) (r : Relation) (rhs : Set) : Except Failure Set :=
  if rhs.arity ≠ r.inArity then .error (.assertException "Relation::Apply: mismatched arities")
  else do
    let conjunctions ← r.conjunctions.foldlM (fun result c => rhs.conjunctions.foldlM (fun result d => do
      .ok (IEGen.addConjunction result (← c.Apply env d))) result) (Set.ofArity r.outArity).conjunctions
    Set.cleanUp env ⟨r.outArity, conjunctions⟩

/-- The tuples that a tuple of the set is related to. -/
def image (R S : IntTuples) : IntTuples := {z | ∃ x ∈ S, x ++ z ∈ R}

/-! ## The constraints of both -/

namespace Conjunction

theorem resultLoc_injective {arity lhsInArity : Nat} (h : lhsInArity ≤ arity) : ∀ i < arity, ∀ j < arity,
    resultLoc lhsInArity (arity - lhsInArity) i = resultLoc lhsInArity (arity - lhsInArity) j → i = j := by
  intro i hi j hj h
  unfold resultLoc at h
  split_ifs at h <;> omega

theorem exists_resultLoc {arity lhsInArity : Nat} (h : lhsInArity ≤ arity) : ∀ l < arity,
    ∃ i < arity, resultLoc lhsInArity (arity - lhsInArity) i = l := by
  intro l hl
  rcases lt_or_ge l (arity - lhsInArity) with hlt | hge
  · refine ⟨l + lhsInArity, by omega, ?_⟩
    rw [resultLoc, if_neg (by omega), Nat.add_sub_cancel]
  · refine ⟨l - (arity - lhsInArity), by omega, ?_⟩
    rw [resultLoc, if_pos (by omega), Nat.sub_add_cancel hge]

theorem resultLoc_lt {arity lhsInArity : Nat} (h : lhsInArity ≤ arity) : ∀ i < arity,
    resultLoc lhsInArity (arity - lhsInArity) i < arity := by
  intro i hi
  unfold resultLoc
  split_ifs <;> omega

/-- The joined constraints: all variables are declared, and hold of a pair of the relation whose inputs are in the set. -/
theorem applyStart_spec {lhs rhs start : Conjunction} (hle : rhs.arity ≤ lhs.arity) (hlr : lhs.readable = true)
    (hrr : rhs.readable = true) (h : lhs.applyStart rhs = .ok start) :
    start.readable = true ∧ start.arity = lhs.arity ∧ (∀ i < start.arity, start.tupleDecl.elemIsConst i = false) ∧
      start.VarsIn (· < start.arity) ∧
      ∀ (I : Interp) (x z : List Int), x.length = rhs.arity → z.length = lhs.arity - rhs.arity →
        (start.Holds I (valuation (z ++ x)) ↔ x ∈ rhs.denote I ∧ x ++ z ∈ lhs.denote I) := by
  simp only [applyStart, bind_eq_ok] at h
  obtain ⟨result, hresult, rhs_copy, hrhs, hstart⟩ := h
  have hlhs : lhs.pushConstToConstraints.remapTupleVars
      ((List.range lhs.arity).map fun i => (resultLoc rhs.arity (lhs.arity - rhs.arity) i : Int)) =
        .ok { result with inArity := lhs.pushConstToConstraints.inArity } := by
    simp only [remapTupleVars, bind_eq_ok] at hresult ⊢
    obtain ⟨eqs, heqs, ineqs, hineqs, hresult⟩ := hresult
    exact ⟨eqs, heqs, ineqs, hineqs, by cases hresult; rfl⟩
  obtain rfl : start = result.copyConstraintsFrom rhs_copy := (Except.ok.inj hstart).symm
  have hinj := resultLoc_injective hle
  obtain ⟨hlread, hlvars, hlholds⟩ := copy_spec hinj hlr hlhs
  obtain ⟨hrread, hrvars, hrholds⟩ := copy_spec (fun i _ j _ hij => Nat.add_right_cancel hij) hrr hrhs
  have hdecl : result.tupleDecl = lhs.pushConstToConstraints.tupleDecl.remap
      ((List.range lhs.arity).map fun i => (resultLoc rhs.arity (lhs.arity - rhs.arity) i : Int)) :=
    congrArg Conjunction.tupleDecl ((remapTupleVars_eq_ok_iff (moves_range hinj)).1 hlhs).2
  have hsize : result.tupleDecl.size = lhs.arity := by
    rw [hdecl]
    exact TupleDecl.size_remap_range hinj (resultLoc_lt hle) (exists_resultLoc hle) _
  refine ⟨?_, hsize, fun l hl => ?_, ?_, fun I x z hx hz => ?_⟩
  · obtain ⟨hle', hli⟩ := readable_iff.1 hlread
    obtain ⟨hre, hri⟩ := readable_iff.1 hrread
    exact readable_iff.2 ⟨List.forall_mem_append.2 ⟨hle', hre⟩, List.forall_mem_append.2 ⟨hli, hri⟩⟩
  · obtain ⟨i, hi, rfl⟩ := exists_resultLoc hle l (by rw [← hsize]; exact hl)
    show result.tupleDecl.elemIsConst _ = false
    rw [TupleDecl.elemIsConst, hdecl, elem_remap_range hinj _ hi]
    exact (lhs.pushConstToConstraints_step.2 i hi).1
  · have hl' := List.forall_mem_append.1 (hlvars (· < lhs.arity) (resultLoc_lt hle))
    have hr' := List.forall_mem_append.1 (hrvars (· < lhs.arity) fun l hl => by omega)
    show (result.copyConstraintsFrom rhs_copy).VarsIn (· < result.tupleDecl.size)
    rw [hsize]
    exact List.forall_mem_append.2 ⟨List.forall_mem_append.2 ⟨hl'.1, hr'.1⟩, List.forall_mem_append.2 ⟨hl'.2, hr'.2⟩⟩
  · rw [← hlholds I (valuation (z ++ x)) (x ++ z) (by rw [List.length_append]; omega) fun l hl => ?_,
      ← hrholds I (valuation (z ++ x)) x hx fun l hl => ?_]
    · simp only [Holds, copyConstraintsFrom, List.forall_mem_append]
      tauto
    · unfold valuation
      rw [List.getD_append_right _ _ _ _ (by omega), hz, Nat.add_sub_cancel]
    · unfold resultLoc valuation
      split_ifs with hin
      · rw [List.getD_append_right _ _ _ _ (by omega), List.getD_append _ _ _ _ (by omega), hz, Nat.add_sub_cancel]
      · rw [List.getD_append _ _ _ _ (by omega), List.getD_append_right _ _ _ _ (by omega), hx]

/-! ## The image of a conjunction -/

/-- The functions are found and put right, constants are solved right, and no constant that matters is dropped. -/
structure AppliesRight (env : Environment) (dom cod : String → Nat) (lhs rhs : Conjunction) : Prop where
  inner : ∀ start m, lhs.applyStart rhs = .ok start → start.applyMap env (lhs.arity - rhs.arity) = .ok m →
    start.FindsInner env dom cod m ∧ start.SubstitutesRight env dom cod m
  constants : ∀ c, lhs.applyEliminated env rhs = .ok c → ∀ e i v, c.Fixes env e i v → e.GivesRight env dom cod i
  one : ∀ c, lhs.applyEliminated env rhs = .ok c → c.GivesOne env dom cod

/-- The tuples before the constants are pushed. -/
theorem applyEliminated_spec {env : Environment} {dom cod : String → Nat} {lhs rhs c : Conjunction} (hle : rhs.arity ≤ lhs.arity)
    (hlr : lhs.readable = true) (hrr : rhs.readable = true) (hright : lhs.AppliesRight env dom cod rhs)
    (h : lhs.applyEliminated env rhs = .ok c) : c.readable = true ∧ c.arity = lhs.arity - rhs.arity ∧
      ∀ I : Interp, I.dom = dom → I.cod = cod → I.Consistent env → c.denote I = image (lhs.denote I) (rhs.denote I) := by
  simp only [applyEliminated, bind_eq_ok] at h
  obtain ⟨start, hstart, m, hm, substituted, hsubst, hc⟩ := h
  obtain ⟨hread, harity, hvar, hvars, hholds⟩ := applyStart_spec hle hlr hrr hstart
  obtain ⟨hfinds, hsubstitutes⟩ := hright.inner start m hstart hm
  obtain rfl : c = ⟨[] ++ substituted.equalities, [] ++ substituted.inequalities,
      start.tupleDecl.truncate (lhs.arity - rhs.arity), 0⟩ := (Except.ok.inj hc).symm
  obtain ⟨htsize, htelem⟩ := start.tupleDecl.elem_truncate (lhs.arity - rhs.arity)
  have hsubRead := readable_substituteInConstraints hread hfinds.readable hsubst
  refine ⟨hsubRead, htsize, fun I hdom hcod hI => ?_⟩
  subst hdom hcod
  ext t
  have hadmits : (start.tupleDecl.truncate (lhs.arity - rhs.arity)).Admits t ↔ t.length = lhs.arity - rhs.arity := by
    refine ⟨fun ht => ht.1.trans htsize, fun ht => ⟨ht.trans htsize.symm, fun i hi hconst => ?_⟩⟩
    rw [htsize] at hi
    rw [TupleDecl.elemIsConst, htelem i hi] at hconst
    exact absurd hconst (by rw [show (start.tupleDecl.elem i).isConst = false from hvar i (by omega)]; exact Bool.false_ne_true)
  show (start.tupleDecl.truncate _).Admits t ∧ substituted.Holds I (valuation t) ↔ _
  rw [hadmits]
  have hbehind : start.arity - (lhs.arity - rhs.arity) = rhs.arity := by omega
  have heliminated := fun ht => holds_eliminated (t := t) (fun j hj => hvar _ (by omega)) hm (by omega) hvars (by omega) hfinds
    hI hread hsubst hsubstitutes ht
  constructor
  · rintro ⟨ht, hc⟩
    obtain ⟨x, hx, hstartHolds⟩ := (heliminated ht).1 hc
    obtain ⟨hxs, hxt⟩ := (hholds I x t (hx.trans hbehind) ht).1 hstartHolds
    exact ⟨x, hxs, hxt⟩
  · rintro ⟨x, hx, hxt⟩
    have hlen : x.length = rhs.arity := hx.1.1
    have ht : t.length = lhs.arity - rhs.arity := by
      have hboth : (x ++ t).length = lhs.arity := hxt.1.1
      rw [List.length_append, hlen] at hboth
      exact (Nat.sub_eq_of_eq_add' hboth.symm).symm
    exact ⟨ht, (heliminated ht).2 ⟨x, hlen.trans hbehind.symm, (hholds I x t hlen ht).2 ⟨hx, hxt⟩⟩⟩

/-- Where a conjunction is applied right, it gives the image. -/
theorem denote_apply {env : Environment} {dom cod : String → Nat} {lhs rhs result : Conjunction} (hle : rhs.arity ≤ lhs.arity)
    (hlr : lhs.readable = true) (hrr : rhs.readable = true) (hright : lhs.AppliesRight env dom cod rhs)
    (h : lhs.Apply env rhs = .ok result) : result.readable = true ∧ result.arity = lhs.arity - rhs.arity ∧
      ∀ I : Interp, I.dom = dom → I.cod = cod → I.Consistent env → result.denote I = image (lhs.denote I) (rhs.denote I) := by
  unfold Apply at h
  simp only [bind_eq_ok] at h
  obtain ⟨lhsIsFunctionInverse, -, h⟩ := h
  cases lhsIsFunctionInverse with
  | false => cases h
  | true =>
    simp only [Bool.not_true, Bool.false_eq_true, if_false, bind_eq_ok] at h
    obtain ⟨c, hc, hpush⟩ := h
    obtain ⟨hread, harity, hdenote⟩ := applyEliminated_spec hle hlr hrr hright hc
    obtain ⟨hp, -⟩ := pushed_of_push hpush
    obtain ⟨heqs, hineqs⟩ := readable_iff.1 hread
    refine ⟨readable_iff.2 ⟨fun e he => heqs e ((hp.equalities e).1 he).1, by rw [hp.inequalities]; exact hineqs⟩,
      hp.size.trans harity, fun I hdom hcod hI => ?_⟩
    rw [(denote_push_iff hread (hright.constants c hc) hpush).2 (hright.one c hc) I hdom hcod hI, hdenote I hdom hcod hI]

end Conjunction

/-! ## The image of a union -/

/-- Cleaning up keeps the tuples of a union where the calls that collapse collapse right. -/
theorem denoteUnion_cleanUp {env : Environment} {cs ds : List Conjunction} (hr : ∀ c ∈ cs, c.readable = true)
    (h : cleanUp env cs = .ok ds) {I : Interp} (hI : I.Consistent env) (heq : ∀ c ∈ cs, ∀ e ∈ c.equalities,
      e.normalizeForEquality.CollapsesRight env I.dom I.cod) (hineq : ∀ c ∈ cs, ∀ e ∈ c.inequalities,
        e.CollapsesRight env I.dom I.cod) : denoteUnion I ds = denoteUnion I cs := by
  have hsame : ∀ c ∈ cs, ∀ d, c.cleanUp env = .ok d → ∀ t, t ∈ d.denote I ↔ t ∈ c.denote I := by
    intro c hc d hd t
    show d.tupleDecl.Admits t ∧ _ ↔ c.tupleDecl.Admits t ∧ _
    rw [(cleanUp_fields hd).1, Conjunction.holds_cleanUp (hr c hc) hd hI (heq c hc) (hineq c hc)]
  ext t
  constructor
  · rintro ⟨d, hd, ht⟩
    obtain ⟨c, hc, hcd⟩ := exists_of_mem_cleanUp h hd
    exact ⟨c, hc, (hsame c hc d hcd t).1 ht⟩
  · rintro ⟨c, hc, ht⟩
    obtain ⟨d, hd⟩ := exists_cleanUp h hc
    have htd := (hsame c hc d hd t).2 ht
    exact ⟨d, mem_cleanUp h hc hd htd.2.satisfiable, htd⟩

/-- A union that is added up from nothing and cleaned up has the tuples of the conjunctions that stay. -/
theorem denoteUnion_cleanUp_foldl {env : Environment} {results cs : List Conjunction} (hr : ∀ c ∈ results, c.readable = true)
    (h : cleanUp env (results.foldl addConjunction []) = .ok cs) {I : Interp} (hI : I.Consistent env)
    (heq : ∀ c ∈ results, ∀ e ∈ c.equalities, e.normalizeForEquality.CollapsesRight env I.dom I.cod)
    (hineq : ∀ c ∈ results, ∀ e ∈ c.inequalities, e.CollapsesRight env I.dom I.cod) :
    denoteUnion I cs = denoteUnion I (kept Conjunction.hasConstraints results) := by
  have hin : ∀ c ∈ results.foldl addConjunction [], c ∈ results :=
    fun c hc => (mem_foldl_addConjunction hc).resolve_left List.not_mem_nil
  have hclean := denoteUnion_cleanUp (fun c hc => hr c (hin c hc)) h hI (fun c hc => heq c (hin c hc)) fun c hc => hineq c (hin c hc)
  exact hclean.trans (Set.ext fun t => mem_denoteUnion_foldl hr)

namespace Relation

/-- What the pairs of conjunctions give. -/
def applied (env : Environment) (r : Relation) (rhs : Set) : Except Failure (List Conjunction) :=
  (r.conjunctions.product rhs.conjunctions).mapM fun p => p.1.Apply env p.2

/-- The conjunctions are applied right, and the calls that collapse in the clean-up collapse right. -/
structure AppliesRight (env : Environment) (dom cod : String → Nat) (r : Relation) (rhs : Set) : Prop where
  pairs : ∀ c ∈ r.conjunctions, ∀ d ∈ rhs.conjunctions, c.AppliesRight env dom cod d
  equalities : ∀ results, r.applied env rhs = .ok results → ∀ c ∈ results, ∀ e ∈ c.equalities,
    e.normalizeForEquality.CollapsesRight env dom cod
  inequalities : ∀ results, r.applied env rhs = .ok results → ∀ c ∈ results, ∀ e ∈ c.inequalities,
    e.CollapsesRight env dom cod

section Pairs

variable {env : Environment} {dom cod : String → Nat} {r : Relation} {s : Set} {results : List Conjunction}
  (hr : r.readable = true) (hs : s.readable = true) (hrarity : ∀ c ∈ r.conjunctions, c.arity = r.inArity + r.outArity)
  (hsarity : ∀ d ∈ s.conjunctions, d.arity = s.arity) (harity : s.arity = r.inArity) (hright : r.AppliesRight env dom cod s)
  (h : r.applied env s = .ok results)
include hr hs hrarity hsarity harity hright h

omit h in
theorem applied_pair {c d x : Conjunction} (hc : c ∈ r.conjunctions) (hd : d ∈ s.conjunctions)
    (hx : c.Apply env d = .ok x) : x.readable = true ∧
      ∀ I : Interp, I.dom = dom → I.cod = cod → I.Consistent env → x.denote I = image (c.denote I) (d.denote I) := by
  have hle : d.arity ≤ c.arity := by
    rw [hrarity c hc, hsarity d hd]
    omega
  obtain ⟨hread, -, hdenote⟩ := Conjunction.denote_apply hle (List.all_eq_true.1 hr c hc) (List.all_eq_true.1 hs d hd)
    (hright.pairs c hc d hd) hx
  exact ⟨hread, hdenote⟩

theorem readable_applied : ∀ x ∈ results, x.readable = true := by
  intro x hx
  obtain ⟨⟨c, d⟩, hp, hcd⟩ := Outcome.exists_of_mem_forall₂ (Outcome.forall₂_of_mapM h) hx
  obtain ⟨hc, hd⟩ := List.mem_product.1 hp
  exact (applied_pair hr hs hrarity hsarity harity hright hc hd hcd).1

/-- The pairs together give the image. -/
theorem denoteUnion_applied {I : Interp} (hdom : I.dom = dom) (hcod : I.cod = cod) (hI : I.Consistent env) :
    denoteUnion I results = image (r.denote I) (s.denote I) := by
  have hall := Outcome.forall₂_of_mapM h
  have hpair := fun {c d x : Conjunction} (hc : c ∈ r.conjunctions) (hd : d ∈ s.conjunctions) (hx : c.Apply env d = .ok x) =>
    (applied_pair hr hs hrarity hsarity harity hright hc hd hx).2 I hdom hcod hI
  ext t
  constructor
  · rintro ⟨x, hx, ht⟩
    obtain ⟨⟨c, d⟩, hp, hcd⟩ := Outcome.exists_of_mem_forall₂ hall hx
    obtain ⟨hc, hd⟩ := List.mem_product.1 hp
    rw [hpair hc hd hcd] at ht
    obtain ⟨y, hy, hyt⟩ := ht
    exact ⟨y, ⟨d, hd, hy⟩, c, hc, hyt⟩
  · rintro ⟨y, ⟨d, hd, hy⟩, c, hc, hyt⟩
    obtain ⟨x, hx, hcd⟩ := Outcome.exists_of_mem_forall₂ hall.flip (List.mem_product.2 ⟨hc, hd⟩)
    refine ⟨x, hx, ?_⟩
    rw [hpair hc hd hcd]
    exact ⟨y, hy, hyt⟩

end Pairs

/-- The image has exactly its tuples iff there is a pair, and no pair gives way with tuples of its own. -/
theorem Apply_image_iff (env : Environment) (dom cod : String → Nat) (r : Relation) (s result : Set)
    (hr : r.readable = true) (hs : s.readable = true) (hrarity : ∀ c ∈ r.conjunctions, c.arity = r.inArity + r.outArity)
    (hsarity : ∀ d ∈ s.conjunctions, d.arity = s.arity) (h : r.Apply env s = .ok result) (hright : r.AppliesRight env dom cod s) :
    result.arity = r.outArity ∧ ∀ I : Interp, I.dom = dom → I.cod = cod → I.Consistent env →
      (result.denote I = image (r.denote I) (s.denote I) ↔ r.conjunctions ≠ [] ∧ s.conjunctions ≠ [] ∧
        ∀ results, r.applied env s = .ok results → LosesNothingIn I results) := by
  unfold Apply at h
  by_cases harity : s.arity = r.inArity
  swap
  · rw [if_pos harity] at h
    cases h
  rw [if_neg (not_not.2 harity)] at h
  simp only [bind_eq_ok, Set.cleanUp] at h
  obtain ⟨conjunctions, hrun, cs, hcs, hresult⟩ := h
  cases hresult
  obtain ⟨results, hresults, rfl⟩ := Outcome.exists_mapM_of_nested_foldlM hrun
  refine ⟨rfl, fun I hdom hcod hI => ?_⟩
  have hread := readable_applied hr hs hrarity hsarity harity hright hresults
  have hmem := (Outcome.forall₂_of_mapM hresults).length_eq
  rw [← denoteUnion_applied hr hs hrarity hsarity harity hright hresults hdom hcod hI]
  subst hdom hcod
  cases results with
  | nil =>
    -- the set of all tuples stays
    have hkept : denoteUnion I cs = (Set.ofArity r.outArity).denote I :=
      denoteUnion_cleanUp (fun c hc => by obtain rfl := List.mem_singleton.1 hc; rfl) hcs hI
        (fun c hc e he => by obtain rfl := List.mem_singleton.1 hc; cases he)
        fun c hc e he => by obtain rfl := List.mem_singleton.1 hc; cases he
    refine ⟨fun heq => ?_, fun hpair => ?_⟩
    · have hall : List.replicate r.outArity 0 ∈ denoteUnion I cs := by
        rw [hkept]
        exact mem_denote_ofArity.2 List.length_replicate
      rw [show denoteUnion I cs = denoteUnion I [] from heq] at hall
      obtain ⟨c, hc, -⟩ := hall
      cases hc
    · obtain ⟨c, hc⟩ := List.exists_mem_of_ne_nil _ hpair.1
      obtain ⟨d, hd⟩ := List.exists_mem_of_ne_nil _ hpair.2.1
      have hp : (c, d) ∈ r.conjunctions.product s.conjunctions := List.mem_product.2 ⟨hc, hd⟩
      rw [List.eq_nil_of_length_eq_zero hmem] at hp
      cases hp
  | cons x results =>
    have hin : ∀ c ∈ (x :: results).foldl IEGen.addConjunction [], c ∈ x :: results :=
      fun c hc => (mem_foldl_addConjunction hc).resolve_left List.not_mem_nil
    -- the first one takes the place of the set of all tuples
    have hcs' : IEGen.cleanUp env ((x :: results).foldl IEGen.addConjunction []) = .ok cs := hcs
    have hkept : denoteUnion I cs = denoteUnion I (kept Conjunction.hasConstraints (x :: results)) :=
      (denoteUnion_cleanUp (fun c hc => hread c (hin c hc)) hcs' hI
        (fun c hc => hright.equalities _ hresults c (hin c hc))
        fun c hc => hright.inequalities _ hresults c (hin c hc)).trans (Set.ext fun t => mem_denoteUnion_foldl hread)
    have hne : r.conjunctions ≠ [] ∧ s.conjunctions ≠ [] := by
      obtain ⟨⟨c, d⟩, hp, -⟩ := Outcome.exists_of_mem_forall₂ (Outcome.forall₂_of_mapM hresults) List.mem_cons_self
      obtain ⟨hc, hd⟩ := List.mem_product.1 hp
      exact ⟨List.ne_nil_of_mem hc, List.ne_nil_of_mem hd⟩
    have honly : (∀ results', r.applied env s = .ok results' → LosesNothingIn I results') ↔
        LosesNothingIn I (x :: results) := by
      refine ⟨fun hl => hl _ hresults, fun hl results' hresults' => ?_⟩
      obtain rfl := Except.ok.inj (hresults.symm.trans hresults')
      exact hl
    rw [and_iff_right hne.1, and_iff_right hne.2, honly, ← kept_denote_iff, ← hkept]
    rfl

/-- Applied to a set without conjunctions, the identity gives all tuples. -/
theorem Apply_image_fails : ∃ result, (Relation.mk 1 1 [Conjunction.identityConj "k" "j"]).Apply ⟨[], [], []⟩ ⟨1, []⟩ = .ok result ∧
    ∀ I : Interp, result.denote I ≠ image ((Relation.mk 1 1 [Conjunction.identityConj "k" "j"]).denote I) ((Set.mk 1 []).denote I) := by
  refine ⟨.ofArity 1, rfl, fun I heq => ?_⟩
  have hall : [0] ∈ (Set.ofArity 1).denote I := mem_denote_ofArity.2 rfl
  rw [heq] at hall
  obtain ⟨x, ⟨c, hc, -⟩, -⟩ := hall
  cases hc

/-- `{[a] : a >= 0}` -/
def rayConj : Conjunction := ⟨[], [.mk .inequality [.tupleVar 1 0]], ⟨[⟨false, 0, "a"⟩]⟩, 0⟩

/-- The ray is its own image under the identity. -/
theorem Apply_image_identity : ∃ result,
    (Relation.mk 1 1 [Conjunction.identityConj "k" "j"]).Apply ⟨[], [], []⟩ ⟨1, [rayConj]⟩ = .ok result ∧
      ∀ I : Interp, I.dom = (fun _ => 1) → I.cod = (fun _ => 1) → I.Consistent ⟨[], [], []⟩ →
        result.denote I = image ((Relation.mk 1 1 [Conjunction.identityConj "k" "j"]).denote I) ((Set.mk 1 [rayConj]).denote I) := by
  obtain ⟨result, h⟩ : ∃ result, (Relation.mk 1 1 [Conjunction.identityConj "k" "j"]).Apply ⟨[], [], []⟩ ⟨1, [rayConj]⟩ =
      .ok result := ⟨_, rfl⟩
  have hstart : ∀ start, (Conjunction.identityConj "k" "j").applyStart rayConj = .ok start →
      start.equalities = [.mk .equality [.tupleVar 1 1, .tupleVar (-1) 0]] ∧
        start.inequalities = [.mk .inequality [.tupleVar 1 1]] ∧
        start.applyMap ⟨[], [], []⟩ 1 = .ok [(.tupleVar 1 1, some (.mk .equality [.tupleVar 1 0]))] := by
    intro start hstart
    cases hstart
    exact ⟨rfl, rfl, rfl⟩
  have hnone : ∀ c, (Conjunction.identityConj "k" "j").applyEliminated ⟨[], [], []⟩ rayConj = .ok c →
      ∀ e i v, ¬ c.Fixes ⟨[], [], []⟩ e i v := by
    rintro c hc e i v ⟨he, -⟩
    cases hc
    cases he
  have hresults : ∀ results, (Relation.mk 1 1 [Conjunction.identityConj "k" "j"]).applied ⟨[], [], []⟩ ⟨1, [rayConj]⟩ =
      .ok results → ∃ d, results = [⟨[], [.mk .inequality [.tupleVar 1 0]], d, 0⟩] := by
    intro results hresults
    cases hresults
    exact ⟨_, rfl⟩
  have hempty : ∀ p : Term × Term, p ∈ ([] : List (Term × Term)) → MergesRight (fun _ => 1) p := fun _ hp => by cases hp
  refine ⟨result, h, fun I hdom hcod hI => ((Apply_image_iff ⟨[], [], []⟩ (fun _ => 1) (fun _ => 1)
    ⟨1, 1, [Conjunction.identityConj "k" "j"]⟩ ⟨1, [rayConj]⟩ result rfl rfl (fun c hc => ?_) (fun d hd => ?_) h
      ⟨fun c hc d hd => ?_, fun results hr c hc e he => ?_, fun results hr c hc e he => ?_⟩).2 I hdom hcod hI).2
        ⟨List.cons_ne_nil _ _, List.cons_ne_nil _ _, fun results hr c hc => ?_⟩⟩
  · obtain rfl := List.mem_singleton.1 hc
    rfl
  · obtain rfl := List.mem_singleton.1 hd
    rfl
  · obtain rfl := List.mem_singleton.1 hc
    obtain rfl := List.mem_singleton.1 hd
    refine ⟨fun start m hs hm => ?_, fun c hc e i v hfix => absurd hfix (hnone c hc e i v),
      fun c hc => .inl fun d _ i v _ hd _ => absurd hd (hnone c hc d i v)⟩
    obtain ⟨heqs, hineqs, hmap⟩ := hstart start hs
    obtain rfl := Except.ok.inj (hmap.symm.trans hm)
    refine ⟨⟨fun p hp => ?_, fun p hp x hx e he _ => ?_⟩, ⟨fun e he => ?_, fun e he => ?_, fun e he => ?_⟩⟩
    · obtain rfl := List.mem_singleton.1 hp
      exact ⟨_, rfl, rfl, fun t ht => by obtain rfl := List.mem_singleton.1 ht; rfl⟩
    · obtain rfl := List.mem_singleton.1 hp
      rw [heqs] at he
      obtain rfl := List.mem_singleton.1 he
      exact ⟨by simp [Term.coefficient], takesRight_tupleVar _ _⟩
    · rw [heqs, hineqs] at he
      simp only [List.cons_append, List.nil_append, List.mem_cons, List.not_mem_nil, or_false] at he
      rcases he with rfl | rfl
      · -- the input is cancelled
        refine ⟨⟨trivial, trivial, trivial⟩, fun p hp => ?_, hempty⟩
        have hpair : p ∈ [(Term.tupleVar (-1) 0, Term.tupleVar 1 0)] := hp
        obtain rfl := List.mem_singleton.1 hpair
        trivial
      · exact ⟨⟨trivial, trivial⟩, hempty, hempty⟩
    · rw [heqs] at he
      obtain rfl := List.mem_singleton.1 he
      trivial
    · rw [hineqs] at he
      obtain rfl := List.mem_singleton.1 he
      exact ⟨trivial, fun d hd => by cases hd; exact ⟨hempty, trivial⟩⟩
  · obtain ⟨d, rfl⟩ := hresults results hr
    obtain rfl := List.mem_singleton.1 hc
    cases he
  · obtain ⟨d, rfl⟩ := hresults results hr
    obtain rfl := List.mem_singleton.1 hc
    obtain rfl := List.mem_singleton.1 he
    exact ⟨trivial, fun d hd => by cases hd; exact ⟨hempty, trivial⟩⟩
  · obtain ⟨d, rfl⟩ := hresults results hr
    cases hc

end Relation

end IEGen
