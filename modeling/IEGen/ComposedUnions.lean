import IEGen.Apply

/-!
# The composition of two unions

`Relation::Compose` composes every conjunction of the left operand with every conjunction of the right one, adds the results
up and cleans up. The result starts without conjunctions, so that, unlike the image of a set, nothing is there that no pair
gave; what can be lost is what `addConjunction` lets give way (`Relation.Compose_union_iff`).
-/

namespace IEGen

open Outcome (bind_eq_ok)

/-- The pairs of `B` and then `A` that share an inner tuple; those of `B` have `n` inputs and `k` inner components. -/
def composedPairs (n k : Nat) (A B : IntTuples) : IntTuples :=
  {t | ∃ x y z, x.length = n ∧ y.length = k ∧ t = x ++ z ∧ x ++ y ∈ B ∧ y ++ z ∈ A}

namespace Relation

/-- `Relation::Compose` -/
def Compose (env : Environment) (r rhs : Relation) : Except Failure Relation :=
  if rhs.outArity ≠ r.inArity then .error (.assertException "Relation::Compose: mismatched arities")
  else do
    let innerArity := rhs.outArity
    let result := Relation.ofArity rhs.inArity r.outArity
    let conjunctions ← r.conjunctions.foldlM (fun result lhs => rhs.conjunctions.foldlM (fun result rhsConj => do
      addConjunction rhs.inArity result (← lhs.Compose env rhsConj innerArity)) result) result.conjunctions
    Relation.cleanUp env { result with conjunctions := conjunctions }

/-- What the pairs of conjunctions give. -/
def composed (env : Environment) (r rhs : Relation) : Except Failure (List Conjunction) :=
  (r.conjunctions.product rhs.conjunctions).mapM fun p => p.1.Compose env p.2 rhs.outArity

/-- The conjunctions have the arities of their relation. -/
def Sized (r : Relation) : Prop := ∀ c ∈ r.conjunctions, c.arity = r.inArity + r.outArity

/-- The pairs are composed right, no constant that matters is dropped, and the calls that collapse in the clean-up collapse
right. -/
structure ComposesRight (env : Environment) (dom cod : String → Nat) (r rhs : Relation) : Prop where
  pairs : ∀ c ∈ r.conjunctions, ∀ d ∈ rhs.conjunctions, c.ComposesRight env dom cod d rhs.outArity
  one : ∀ c ∈ r.conjunctions, ∀ d ∈ rhs.conjunctions, ∀ e, c.composeEliminated env d rhs.outArity = .ok e →
    e.GivesOne env dom cod
  equalities : ∀ results, r.composed env rhs = .ok results → ∀ c ∈ results, ∀ e ∈ c.equalities,
    e.normalizeForEquality.CollapsesRight env dom cod
  inequalities : ∀ results, r.composed env rhs = .ok results → ∀ c ∈ results, ∀ e ∈ c.inequalities,
    e.CollapsesRight env dom cod

/-! ## The composition of the pairs -/

section Pairs

variable {env : Environment} {dom cod : String → Nat} {r q : Relation} {results : List Conjunction}
  (hr : r.readable = true) (hq : q.readable = true) (hrs : r.Sized) (hqs : q.Sized) (harity : q.outArity = r.inArity)
  (hright : r.ComposesRight env dom cod q) (h : r.composed env q = .ok results)
include hr hq hrs hqs harity hright

theorem composed_pair {c d x : Conjunction} (hc : c ∈ r.conjunctions) (hd : d ∈ q.conjunctions)
    (hx : c.Compose env d q.outArity = .ok x) : x.readable = true ∧ x.inArity = q.inArity ∧
      ∀ I : Interp, I.dom = dom → I.cod = cod → I.Consistent env →
        x.denote I = composedPairs q.inArity q.outArity (c.denote I) (d.denote I) := by
  have hl : q.outArity ≤ c.arity := by
    rw [hrs c hc]
    omega
  have hl' : q.outArity ≤ d.arity := by
    rw [hqs d hd]
    omega
  have hin : d.arity - q.outArity = q.inArity := by
    rw [hqs d hd]
    omega
  have hcr := List.all_eq_true.1 hr c hc
  have hdr := List.all_eq_true.1 hq d hd
  have hpair := hright.pairs c hc d hd
  obtain ⟨start, m, substituted, e, hstart, -, hsubst, htrunc, he, hpush⟩ := Conjunction.compose_steps hx
  obtain ⟨-, hsin, hstartArity, hvar, -⟩ := Conjunction.composeStart_spec hl hl' hcr hdr hstart
  obtain ⟨-, -, hein, -⟩ := Conjunction.truncated_spec (fun i hi => hvar i (by omega)) hsubst htrunc
  obtain ⟨hread, hdenote⟩ := Conjunction.composeEliminated_spec hl hl' hcr hdr hpair he
  obtain ⟨hp, -⟩ := Conjunction.pushed_of_push hpush
  obtain ⟨heqs, hineqs⟩ := Conjunction.readable_iff.1 hread
  refine ⟨Conjunction.readable_iff.2 ⟨fun e' he' => heqs e' ((hp.equalities e').1 he').1, by rw [hp.inequalities]; exact hineqs⟩,
    ((Conjunction.inArity_push hpush).trans (hein.trans hsin)).trans hin, fun I hdom hcod hI => ?_⟩
  rw [(Conjunction.denote_push_iff hread (hpair.constants e he) hpush).2 (hright.one c hc d hd e he) I hdom hcod hI,
    hdenote I hdom hcod hI, composition, hin]
  rfl

include h

theorem of_mem_composed : ∀ x ∈ results, x.readable = true ∧ x.inArity = q.inArity := by
  intro x hx
  obtain ⟨⟨c, d⟩, hp, hcd⟩ := Outcome.exists_of_mem_forall₂ (Outcome.forall₂_of_mapM h) hx
  obtain ⟨hc, hd⟩ := List.mem_product.1 hp
  obtain ⟨hread, hin, -⟩ := composed_pair hr hq hrs hqs harity hright hc hd hcd
  exact ⟨hread, hin⟩

/-- The pairs together give the composition. -/
theorem denoteUnion_composed {I : Interp} (hdom : I.dom = dom) (hcod : I.cod = cod) (hI : I.Consistent env) :
    denoteUnion I results = composedPairs q.inArity q.outArity (r.denote I) (q.denote I) := by
  have hall := Outcome.forall₂_of_mapM h
  have hpair := fun {c d x : Conjunction} (hc : c ∈ r.conjunctions) (hd : d ∈ q.conjunctions)
    (hx : c.Compose env d q.outArity = .ok x) =>
      (composed_pair hr hq hrs hqs harity hright hc hd hx).2.2 I hdom hcod hI
  ext t
  constructor
  · rintro ⟨x, hx, ht⟩
    obtain ⟨⟨c, d⟩, hp, hcd⟩ := Outcome.exists_of_mem_forall₂ hall hx
    obtain ⟨hc, hd⟩ := List.mem_product.1 hp
    rw [hpair hc hd hcd] at ht
    obtain ⟨a, b, z, ha, hb, rfl, hab, hbz⟩ := ht
    exact ⟨a, b, z, ha, hb, rfl, ⟨d, hd, hab⟩, c, hc, hbz⟩
  · rintro ⟨a, b, z, ha, hb, rfl, ⟨d, hd, hab⟩, c, hc, hbz⟩
    obtain ⟨x, hx, hcd⟩ := Outcome.exists_of_mem_forall₂ hall.flip (List.mem_product.2 ⟨hc, hd⟩)
    refine ⟨x, hx, ?_⟩
    rw [hpair hc hd hcd]
    exact ⟨a, b, z, ha, hb, rfl, hab, hbz⟩

end Pairs

/-- The composition has exactly its pairs iff no result of two conjunctions gives way with pairs of its own. -/
theorem Compose_union_iff (env : Environment) (dom cod : String → Nat) (r q result : Relation) (hr : r.readable = true)
    (hq : q.readable = true) (hrs : r.Sized) (hqs : q.Sized) (h : r.Compose env q = .ok result)
    (hright : r.ComposesRight env dom cod q) : result.inArity = q.inArity ∧ result.outArity = r.outArity ∧
      ∀ I : Interp, I.dom = dom → I.cod = cod → I.Consistent env →
        (result.denote I = composedPairs q.inArity q.outArity (r.denote I) (q.denote I) ↔
          ∀ results, r.composed env q = .ok results → LosesNothingIn I results) := by
  unfold Compose at h
  by_cases harity : q.outArity = r.inArity
  swap
  · rw [if_pos harity] at h
    cases h
  rw [if_neg (not_not.2 harity)] at h
  simp only [bind_eq_ok, Relation.cleanUp] at h
  obtain ⟨conjunctions, hrun, cs, hcs, hresult⟩ := h
  cases hresult
  obtain ⟨results, hresults, hadd⟩ := Outcome.exists_mapM_of_nested_bind hrun
  have hmem := of_mem_composed hr hq hrs hqs harity hright hresults
  obtain rfl := Except.ok.inj ((foldlM_addConjunction (fun x hx => (hmem x hx).2) _).symm.trans hadd)
  refine ⟨rfl, rfl, fun I hdom hcod hI => ?_⟩
  rw [← denoteUnion_composed hr hq hrs hqs harity hright hresults hdom hcod hI]
  subst hdom hcod
  have hkept := denoteUnion_cleanUp_foldl (fun x hx => (hmem x hx).1) hcs hI (hright.equalities _ hresults)
    (hright.inequalities _ hresults)
  have honly : (∀ results', r.composed env q = .ok results' → LosesNothingIn I results') ↔ LosesNothingIn I results := by
    refine ⟨fun hl => hl _ hresults, fun hl results' hresults' => ?_⟩
    obtain rfl := Except.ok.inj (hresults.symm.trans hresults')
    exact hl
  rw [honly, ← kept_denote_iff, ← hkept]
  rfl

/-! ## Two identities -/

/-- `{[k] -> [j] : k = j}` after `{[i] -> [k] : i = k}`: the inner variable is found as the input. -/
theorem composesRight_identities : (Conjunction.identityConj "k" "j").ComposesRight ⟨[], [], []⟩ (fun _ => 1) (fun _ => 1)
    (Conjunction.identityConj "i" "k") 1 ∧
    ∀ c, (Conjunction.identityConj "k" "j").composeEliminated ⟨[], [], []⟩ (Conjunction.identityConj "i" "k") 1 = .ok c →
      c.GivesOne ⟨[], [], []⟩ (fun _ => 1) (fun _ => 1) := by
  have hnone : ∀ c, (Conjunction.identityConj "k" "j").composeEliminated ⟨[], [], []⟩ (Conjunction.identityConj "i" "k") 1 =
      .ok c → ∀ e i v, ¬ c.Fixes ⟨[], [], []⟩ e i v := by
    rintro c hc e i v ⟨he, hi, -, x, hx, hv⟩
    cases hc
    obtain rfl := List.mem_singleton.1 he
    rcases i with _ | _ | i
    · cases hx
      cases hv
    · cases hx
      cases hv
    · exact absurd (show i + 2 < 2 from hi) (by omega)
  have hjoined : ∀ start, (Conjunction.identityConj "k" "j").composeStart (Conjunction.identityConj "i" "k") 1 = .ok start →
      start.equalities = [.mk .equality [.tupleVar 1 0, .tupleVar (-1) 2], .mk .equality [.tupleVar 1 2, .tupleVar (-1) 1]] ∧
        start.inequalities = [] := by
    intro start hstart
    cases hstart
    exact ⟨rfl, rfl⟩
  have hfound : ∀ m, (Conjunction.identityConj "k" "j").composeMap ⟨[], [], []⟩ (Conjunction.identityConj "i" "k") 1 = .ok m →
      m = [(.tupleVar 1 2, some (.mk .equality [.tupleVar 1 0]))] := by
    intro m hm
    cases hm
    rfl
  have hempty : ∀ p : Term × Term, p ∈ ([] : List (Term × Term)) → MergesRight (fun _ => 1) p := fun _ hp => by cases hp
  refine ⟨⟨fun start m hstart hm => ?_, fun c hc e i v hfix => absurd hfix (hnone c hc e i v)⟩,
    fun c hc => .inl fun d _ i v _ hd _ => absurd hd (hnone c hc d i v)⟩
  obtain ⟨heqs, hineqs⟩ := hjoined start hstart
  rw [hfound m hm]
  refine ⟨⟨fun p hp => ?_, fun p hp x hx e he _ => ?_⟩, ⟨fun e he => ?_, fun e he => ?_, fun e he => ?_⟩⟩
  · obtain rfl := List.mem_singleton.1 hp
    exact ⟨_, rfl, rfl, fun t ht => by obtain rfl := List.mem_singleton.1 ht; rfl⟩
  · obtain rfl := List.mem_singleton.1 hp
    rw [heqs] at he
    simp only [List.mem_cons, List.not_mem_nil, or_false] at he
    rcases he with rfl | rfl <;> exact ⟨by simp [Term.coefficient], takesRight_tupleVar _ _⟩
  · rw [heqs, hineqs] at he
    simp only [List.append_nil, List.mem_cons, List.not_mem_nil, or_false] at he
    rcases he with rfl | rfl
    · refine ⟨⟨trivial, trivial, trivial⟩, fun p hp => ?_, hempty⟩
      have hpair : p ∈ [(Term.tupleVar (-1) 0, Term.tupleVar 1 0)] := hp
      obtain rfl := List.mem_singleton.1 hpair
      trivial
    · exact ⟨⟨trivial, trivial, trivial⟩, hempty, hempty⟩
  · rw [heqs] at he
    simp only [List.mem_cons, List.not_mem_nil, or_false] at he
    rcases he with rfl | rfl
    · trivial
    · refine ⟨trivial, fun d hd => ?_⟩
      cases hd
      refine ⟨hempty, trivial, fun d hd => ?_⟩
      cases hd
      exact ⟨hempty, trivial⟩
  · rw [hineqs] at he
    cases he

theorem Compose_union_identities : ∃ result,
    (Relation.mk 1 1 [Conjunction.identityConj "k" "j"]).Compose ⟨[], [], []⟩ ⟨1, 1, [Conjunction.identityConj "i" "k"]⟩ =
      .ok result ∧ ∀ I : Interp, I.dom = (fun _ => 1) → I.cod = (fun _ => 1) → I.Consistent ⟨[], [], []⟩ →
        result.denote I = composedPairs 1 1 ((Relation.mk 1 1 [Conjunction.identityConj "k" "j"]).denote I)
          ((Relation.mk 1 1 [Conjunction.identityConj "i" "k"]).denote I) := by
  obtain ⟨result, h⟩ : ∃ result, (Relation.mk 1 1 [Conjunction.identityConj "k" "j"]).Compose ⟨[], [], []⟩
      ⟨1, 1, [Conjunction.identityConj "i" "k"]⟩ = .ok result := ⟨_, rfl⟩
  have hresults : ∀ results, (Relation.mk 1 1 [Conjunction.identityConj "k" "j"]).composed ⟨[], [], []⟩
      ⟨1, 1, [Conjunction.identityConj "i" "k"]⟩ = .ok results →
        ∃ d, results = [⟨[.mk .equality [.tupleVar 1 0, .tupleVar (-1) 1]], [], d, 1⟩] := by
    intro results hresults
    cases hresults
    exact ⟨_, rfl⟩
  refine ⟨result, h, fun I hdom hcod hI => ((Compose_union_iff ⟨[], [], []⟩ (fun _ => 1) (fun _ => 1)
    ⟨1, 1, [Conjunction.identityConj "k" "j"]⟩ ⟨1, 1, [Conjunction.identityConj "i" "k"]⟩ result rfl rfl (fun c hc => ?_)
      (fun d hd => ?_) h ⟨fun c hc d hd => ?_, fun c hc d hd => ?_, fun results hr c hc e he => ?_,
        fun results hr c hc e he => ?_⟩).2.2 I hdom hcod hI).2 fun results hr c hc => ?_⟩
  · obtain rfl := List.mem_singleton.1 hc
    rfl
  · obtain rfl := List.mem_singleton.1 hd
    rfl
  · obtain rfl := List.mem_singleton.1 hc
    obtain rfl := List.mem_singleton.1 hd
    exact composesRight_identities.1
  · obtain rfl := List.mem_singleton.1 hc
    obtain rfl := List.mem_singleton.1 hd
    exact composesRight_identities.2
  · obtain ⟨d, rfl⟩ := hresults results hr
    obtain rfl := List.mem_singleton.1 hc
    obtain rfl := List.mem_singleton.1 he
    have hempty : ∀ p : Term × Term, p ∈ ([] : List (Term × Term)) → MergesRight (fun _ => 1) p := fun _ hp => by cases hp
    refine ⟨trivial, fun d hd => ?_⟩
    cases hd
    refine ⟨hempty, trivial, fun d hd => ?_⟩
    cases hd
    exact ⟨hempty, trivial⟩
  · obtain ⟨d, rfl⟩ := hresults results hr
    obtain rfl := List.mem_singleton.1 hc
    cases he
  · obtain ⟨d, rfl⟩ := hresults results hr
    cases hc

end Relation

end IEGen
