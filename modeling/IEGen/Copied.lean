import IEGen.Calls

/-!
# The tuples of a copy

A copy of a union has the tuples of the conjunctions that `addConjunction` keeps, as long as no call collapses, or each
one that does keeps its value; what the calls of a conjunction meet at a tuple, those of its copy meet.
-/

namespace IEGen

open SortedList (Tied build)

section Copy

variable {env : Environment} {I : Interp} {τ : Nat → Int}

/-- A conjunction that holds somewhere is satisfiable. -/
theorem Conjunction.Holds.satisfiable {c : Conjunction} (h : c.Holds I τ) : c.satisfiable = true := by
  refine List.all_eq_true.2 fun e he => ?_
  have hz := h.1 e he 0
  rw [Exp.val_eq] at hz
  unfold Exp.isContradiction
  split
  · next t ht =>
    rw [ht, termsVal_cons, termsVal_nil, add_zero] at hz
    cases t with
    | constVal k =>
      have hk : k = 0 := hz
      simp [Term.isConst, Term.coefficient, hk]
    | _ => rfl
  · rfl

variable {top kinds : Bool → Prop} {P Q : String → Option Nat → List Exp → Prop}

/-- What a conjunction has to be for a copy to keep its tuples. -/
structure Conjunction.Copyable (env : Environment) (cod : String → Nat) (top kinds : Bool → Prop)
    (P : String → Option Nat → List Exp → Prop) (c : Conjunction) : Prop where
  readable : c.readable = true
  fits : c.Fits cod top kinds P
  plain : c.AllCalls (fun f _ as => ¬ Collapsible env f as)

theorem Conjunction.Copyable.keeps {c : Conjunction} (h : c.Copyable env I.cod top kinds P) : c.CollapseKeeps env I τ :=
  fun e he => Exp.collapseKeeps_of_not (h.plain e he)

theorem mem_cleanUp {cs ds : List Conjunction} (h : cleanUp env cs = .ok ds) {c d : Conjunction} (hc : c ∈ cs)
    (hd : c.cleanUp env = .ok d) (hs : d.satisfiable = true) : d ∈ ds := by
  unfold IEGen.cleanUp at h
  rw [Outcome.bind_eq_ok] at h
  obtain ⟨cs', hm, h⟩ := h
  rw [Except.ok.injEq] at h
  obtain ⟨d', hd', hcd⟩ := Outcome.exists_of_mem_forall₂ (Outcome.forall₂_of_mapM hm).flip hc
  rw [hd, Except.ok.injEq] at hcd
  rw [← h, List.mem_insertionSort, hcd]
  exact List.mem_filter.2 ⟨hd', hcd ▸ hs⟩

theorem exists_of_mem_cleanUp {cs ds : List Conjunction} (h : cleanUp env cs = .ok ds) {d : Conjunction} (hd : d ∈ ds) :
    ∃ c ∈ cs, c.cleanUp env = .ok d := by
  unfold IEGen.cleanUp at h
  rw [Outcome.bind_eq_ok] at h
  obtain ⟨cs', hm, h⟩ := h
  rw [Except.ok.injEq] at h
  rw [← h, List.mem_insertionSort] at hd
  exact Outcome.exists_of_mem_forall₂ (Outcome.forall₂_of_mapM hm) (List.mem_filter.1 hd).1

theorem exists_cleanUp {cs ds : List Conjunction} (h : cleanUp env cs = .ok ds) {c : Conjunction} (hc : c ∈ cs) :
    ∃ d, c.cleanUp env = .ok d := by
  unfold IEGen.cleanUp at h
  rw [Outcome.bind_eq_ok] at h
  obtain ⟨cs', hm, -⟩ := h
  obtain ⟨d, -, hcd⟩ := Outcome.exists_of_mem_forall₂ (Outcome.forall₂_of_mapM hm).flip hc
  exact ⟨d, hcd⟩

end Copy

end IEGen
