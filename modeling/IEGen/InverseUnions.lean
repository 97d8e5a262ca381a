import IEGen.ComposedUnions
import IEGen.Inverse

/-!
# The inverse of a union

`Relation::Inverse` inverts every conjunction, adds the results up and cleans up. The inverse of a conjunction has
constraints where the conjunction has them, so that what gives way in `addConjunction` is what would give way if the
conjunctions were added up themselves: whether pairs are lost does not depend on the inverses (`Relation.Inverse_union_iff`).
-/

namespace IEGen

open Outcome (bind_eq_ok)

/-! ## Pairs the other way round -/

/-- The pairs of `A` the other way round; those of `A` have `n` inputs. -/
def inversePairs (n : Nat) (A : IntTuples) : IntTuples := {t | ∃ x y, x.length = n ∧ t = y ++ x ∧ x ++ y ∈ A}

/-- Where all tuples have `n + m` components, the inverse of the inverse has the pairs again. -/
theorem inversePairs_inversePairs {n m : Nat} {A : IntTuples} (hA : ∀ t ∈ A, t.length = n + m) :
    inversePairs m (inversePairs n A) = A := by
  ext t
  constructor
  · rintro ⟨y, x, hy, rfl, x', y', hx', heq, hmem⟩
    have hlen := hA _ hmem
    rw [List.length_append] at hlen
    obtain ⟨rfl, rfl⟩ := List.append_inj heq (by omega)
    exact hmem
  · intro ht
    have hlen := hA t ht
    refine ⟨t.drop n, t.take n, by rw [List.length_drop]; omega, (List.take_append_drop n t).symm, t.take n, t.drop n,
      by rw [List.length_take]; omega, rfl, ?_⟩
    rwa [List.take_append_drop]

theorem inversePairs_inj {n m : Nat} {A B : IntTuples} (hA : ∀ t ∈ A, t.length = n + m) (hB : ∀ t ∈ B, t.length = n + m) :
    inversePairs n A = inversePairs n B ↔ A = B := by
  refine ⟨fun h => ?_, fun h => h ▸ rfl⟩
  rw [← inversePairs_inversePairs hA, h, inversePairs_inversePairs hB]

/-! ## What stays of two lists -/

section Kept

variable {α β : Type} {R : α → β → Prop} {p : α → Bool} {q : β → Bool} (hpq : ∀ a b, R a b → p a = q b)
include hpq

/-- What stays of a list is related to what stays of a list related to it. -/
theorem forall₂_kept : ∀ {l : List α} {r : List β}, List.Forall₂ R l r → List.Forall₂ R (kept p l) (kept q r)
  | _, _, .nil => .nil
  | _, _, .cons h .nil => .cons h .nil
  | a :: _ :: _, b :: _ :: _, .cons h (.cons h' hl) => by
    simp only [kept, hpq a b h]
    split_ifs
    · exact .cons h (.cons h' hl)
    · exact forall₂_kept (.cons h' hl)

end Kept

/-! ## The inverse -/

namespace Conjunction

variable {c c' : Conjunction} (h : c.inArity ≤ c.arity) (hi : c.Inverse = .ok c')
include h hi

theorem readable_inverse (hr : c.readable = true) : c'.readable = true := by
  obtain ⟨-, rfl⟩ := (inverse_eq_ok_iff h).1 hi
  obtain ⟨heqs, hineqs⟩ := readable_iff.1 hr
  refine readable_iff.2 ⟨fun e he => ?_, fun e he => ?_⟩
  · obtain ⟨d, hd, rfl⟩ := List.mem_map.1 he
    exact readable_normalizeForEquality ((Exp.readable_mapVars _ d).trans (heqs d hd))
  · obtain ⟨d, hd, rfl⟩ := List.mem_map.1 he
    exact (Exp.readable_mapVars _ d).trans (hineqs d hd)

theorem hasConstraints_inverse : c.hasConstraints = c'.hasConstraints := by
  obtain ⟨-, rfl⟩ := (inverse_eq_ok_iff h).1 hi
  simp only [hasConstraints, List.length_map]

theorem denote_inverse {I : Interp} : c'.denote I = inversePairs c.inArity (c.denote I) :=
  Set.ext fun _ => mem_denote_of_inverse h hi

end Conjunction

namespace Relation

/-- `Relation::Inverse` -/
def Inverse (env : Environment) (r : Relation) : Except Failure Relation := do
  let result := Relation.ofArity r.outArity r.inArity
  let conjunctions ← r.conjunctions.foldlM (fun result c => do addConjunction r.outArity result (← c.Inverse))
    result.conjunctions
  Relation.cleanUp env { result with conjunctions := conjunctions }

/-- What the conjunctions give. -/
def inverses (r : Relation) : Except Failure (List Conjunction) := r.conjunctions.mapM Conjunction.Inverse

/-- The calls that collapse in the clean-up collapse right. -/
structure InvertsRight (env : Environment) (dom cod : String → Nat) (r : Relation) : Prop where
  equalities : ∀ results, r.inverses = .ok results → ∀ c ∈ results, ∀ e ∈ c.equalities,
    e.normalizeForEquality.CollapsesRight env dom cod
  inequalities : ∀ results, r.inverses = .ok results → ∀ c ∈ results, ∀ e ∈ c.inequalities, e.CollapsesRight env dom cod

section Inverses

variable {r : Relation} {results : List Conjunction} (hw : r.wellFormed = true) (hs : r.Sized)
include hw hs

theorem le_arity {c : Conjunction} (hc : c ∈ r.conjunctions) : c.inArity ≤ c.arity := by
  rw [wellFormed_iff.1 hw c hc, hs c hc]
  omega

omit hw in
theorem length_of_mem_denoteUnion {I : Interp} {cs : List Conjunction} (hcs : ∀ c ∈ cs, c ∈ r.conjunctions) {t : List Int}
    (ht : t ∈ denoteUnion I cs) : t.length = r.inArity + r.outArity := by
  obtain ⟨c, hc, hct⟩ := ht
  exact hct.1.1.trans (hs c (hcs c hc))

/-- Inverses together have the pairs of their conjunctions the other way round. -/
theorem denoteUnion_inverses {I : Interp} {cs ds : List Conjunction} (hcs : ∀ c ∈ cs, c ∈ r.conjunctions)
    (h : List.Forall₂ (fun c d => c.Inverse = .ok d) cs ds) :
    denoteUnion I ds = inversePairs r.inArity (denoteUnion I cs) := by
  have hone : ∀ {c d : Conjunction}, c ∈ cs → c.Inverse = .ok d → d.denote I = inversePairs r.inArity (c.denote I) := by
    intro c d hc hd
    rw [Conjunction.denote_inverse (le_arity hw hs (hcs c hc)) hd, wellFormed_iff.1 hw c (hcs c hc)]
  ext t
  constructor
  · rintro ⟨d, hd, ht⟩
    obtain ⟨c, hc, hcd⟩ := Outcome.exists_of_mem_forall₂ h hd
    rw [hone hc hcd] at ht
    obtain ⟨x, y, hx, rfl, hxy⟩ := ht
    exact ⟨x, y, hx, rfl, c, hc, hxy⟩
  · rintro ⟨x, y, hx, rfl, c, hc, hxy⟩
    obtain ⟨d, hd, hcd⟩ := Outcome.exists_of_mem_forall₂ h.flip hc
    refine ⟨d, hd, ?_⟩
    rw [hone hc hcd]
    exact ⟨x, y, hx, rfl, hxy⟩

theorem of_mem_inverses (hr : r.readable = true) (h : r.inverses = .ok results) :
    ∀ x ∈ results, x.readable = true ∧ x.inArity = r.outArity := by
  intro x hx
  obtain ⟨c, hc, hcx⟩ := Outcome.exists_of_mem_forall₂ (Outcome.forall₂_of_mapM h) hx
  have hle := le_arity hw hs hc
  refine ⟨Conjunction.readable_inverse hle hcx (List.all_eq_true.1 hr c hc), ?_⟩
  rw [(Conjunction.size_of_inverse hle hcx).2, hs c hc, wellFormed_iff.1 hw c hc]
  omega

/-- What stays of the inverses has exactly the pairs of the relation the other way round iff the conjunctions that give way
have none of their own. -/
theorem kept_inverses_iff {I : Interp} (h : r.inverses = .ok results) :
    denoteUnion I (kept Conjunction.hasConstraints results) = inversePairs r.inArity (r.denote I) ↔
      LosesNothingIn I r.conjunctions := by
  have hmem : ∀ c ∈ kept Conjunction.hasConstraints r.conjunctions, c ∈ r.conjunctions := by
    intro c hc
    rw [← replaced_append_kept Conjunction.hasConstraints r.conjunctions]
    exact List.mem_append_right _ hc
  have hall := Outcome.forall₂_imp_mem (Outcome.forall₂_of_mapM h) (S := fun c d => c ∈ r.conjunctions ∧ c.Inverse = .ok d)
    fun c d hc hcd => ⟨hc, hcd⟩
  have hkept := forall₂_kept (p := Conjunction.hasConstraints) (q := Conjunction.hasConstraints)
    (fun c d hcd => Conjunction.hasConstraints_inverse (le_arity hw hs hcd.1) hcd.2) hall
  rw [denoteUnion_inverses hw hs hmem (hkept.imp fun _ _ hcd => hcd.2), denote,
    inversePairs_inj (m := r.outArity) (fun t => length_of_mem_denoteUnion hs hmem)
      (fun t => length_of_mem_denoteUnion hs fun c hc => hc), kept_denote_iff]

end Inverses

/-- The inverse has exactly the pairs of the relation the other way round iff no conjunction gives way with pairs of its
own. -/
theorem Inverse_union_iff (env : Environment) (dom cod : String → Nat) (r result : Relation) (hr : r.readable = true)
    (hw : r.wellFormed = true) (hs : r.Sized) (h : r.Inverse env = .ok result) (hright : r.InvertsRight env dom cod) :
    result.inArity = r.outArity ∧ result.outArity = r.inArity ∧
      ∀ I : Interp, I.dom = dom → I.cod = cod → I.Consistent env →
        (result.denote I = inversePairs r.inArity (r.denote I) ↔ LosesNothingIn I r.conjunctions) := by
  simp only [Inverse, bind_eq_ok, Relation.cleanUp] at h
  obtain ⟨conjunctions, hrun, cs, hcs, hresult⟩ := h
  cases hresult
  obtain ⟨results, hresults, hadd⟩ := Outcome.exists_mapM_of_bind hrun
  have hmem := of_mem_inverses hw hs hr hresults
  obtain rfl := Except.ok.inj ((foldlM_addConjunction (fun x hx => (hmem x hx).2) _).symm.trans hadd)
  refine ⟨rfl, rfl, fun I hdom hcod hI => ?_⟩
  subst hdom hcod
  have hkept := denoteUnion_cleanUp_foldl (fun x hx => (hmem x hx).1) hcs hI (hright.equalities _ hresults)
    (hright.inequalities _ hresults)
  rw [← kept_inverses_iff hw hs hresults, ← hkept]
  rfl

/-- `{[x] -> [y, z] : y = x && z = x} union {[x] -> [y, z] : x - z >= 0}` -/
def doubleOrLess : Relation :=
  ⟨1, 2, [Conjunction.doubleConj "x" "y" "z",
    ⟨[], [.mk .inequality [.tupleVar 1 0, .tupleVar (-1) 2]], (Conjunction.doubleConj "x" "y" "z").tupleDecl, 1⟩]⟩

theorem Inverse_union_doubleOrLess : ∃ result, doubleOrLess.Inverse ⟨[], [], []⟩ = .ok result ∧
    ∀ I : Interp, I.dom = (fun _ => 1) → I.cod = (fun _ => 1) → I.Consistent ⟨[], [], []⟩ →
      result.denote I = inversePairs 1 (doubleOrLess.denote I) := by
  have hempty : ∀ p : Term × Term, p ∈ ([] : List (Term × Term)) → MergesRight (fun _ => 1) p := fun _ hp => by cases hp
  have hresults : ∀ results, doubleOrLess.inverses = .ok results → ∃ d,
      results = [⟨[.mk .equality [.tupleVar 1 2, .tupleVar (-1) 0], .mk .equality [.tupleVar 1 2, .tupleVar (-1) 1]], [], d, 2⟩,
        ⟨[], [.mk .inequality [.tupleVar 1 2, .tupleVar (-1) 1]], d, 2⟩] := by
    intro results hresults
    cases hresults
    exact ⟨_, rfl⟩
  have hright : ∀ (k : ExpType) (j : Nat), j < 2 →
      (Exp.mk k [.tupleVar 1 2, .tupleVar (-1) j]).CollapsesRight ⟨[], [], []⟩ (fun _ => 1) (fun _ => 1) := by
    intro k j hj
    refine ⟨trivial, fun d hd => ?_⟩
    cases hd
    rcases j with _ | _ | j
    · refine ⟨hempty, trivial, fun d hd => ?_⟩
      cases hd
      exact ⟨hempty, trivial⟩
    · refine ⟨hempty, trivial, fun d hd => ?_⟩
      cases hd
      exact ⟨hempty, trivial⟩
    · omega
  obtain ⟨result, h⟩ : ∃ result, doubleOrLess.Inverse ⟨[], [], []⟩ = .ok result := ⟨_, rfl⟩
  refine ⟨result, h, fun I hdom hcod hI => ((Inverse_union_iff ⟨[], [], []⟩ (fun _ => 1) (fun _ => 1) doubleOrLess result rfl rfl
    (fun c hc => ?_) h ⟨fun results hr c hc e he => ?_, fun results hr c hc e he => ?_⟩).2.2 I hdom hcod hI).2 fun c hc => ?_⟩
  · simp only [doubleOrLess, List.mem_cons, List.not_mem_nil, or_false] at hc
    rcases hc with rfl | rfl <;> rfl
  · obtain ⟨d, rfl⟩ := hresults results hr
    simp only [List.mem_cons, List.not_mem_nil, or_false] at hc
    rcases hc with rfl | rfl
    · simp only [List.mem_cons, List.not_mem_nil, or_false] at he
      rcases he with rfl | rfl
      · exact hright .equality 0 (by decide)
      · exact hright .equality 1 (by decide)
    · cases he
  · obtain ⟨d, rfl⟩ := hresults results hr
    simp only [List.mem_cons, List.not_mem_nil, or_false] at hc
    rcases hc with rfl | rfl
    · cases he
    · obtain rfl := List.mem_singleton.1 he
      exact hright .inequality 1 (by decide)
  · cases hc

end Relation

end IEGen
