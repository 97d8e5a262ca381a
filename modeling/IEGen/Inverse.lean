import IEGen.Objects
import IEGen.Remap

/-!
# Inverse conjunctions

`Inverse` moves the outputs of a conjunction before its inputs.

* It returns iff every tuple variable is declared, and then `y ++ x` is in the inverse iff `x ++ y` is in the conjunction.
* The inverse of the inverse cleans up to the constraints to which the conjunction cleans up, wherever the objects are.
-/

namespace IEGen

open SortedList (build)
open Outcome (bind_eq_ok)

/-! ## The inverse -/

namespace Conjunction

/-- The two loops of `Inverse`: the inputs go behind the outputs. -/
def inverseLocs (size outArity : Nat) : List Nat := List.range' outArity (size - outArity) ++ List.range outArity

/-- `Conjunction::Inverse` -/
def Inverse (c : Conjunction) : Except Failure Conjunction :=
  let outArity := c.tupleDecl.size - c.inArity
  { c with inArity := outArity }.remapTupleVars ((inverseLocs c.tupleDecl.size outArity).map Int.ofNat)

/-- Where `Inverse` moves a location. -/
def inverseLoc (size inArity l : Nat) : Nat := if l < inArity then size - inArity + l else l - inArity

theorem length_inverseLocs {size inArity : Nat} (h : inArity ≤ size) :
    (inverseLocs size (size - inArity)).length = size := by
  simp only [inverseLocs, List.length_append, List.length_range', List.length_range]
  omega

theorem inverseLoc_lt {size inArity l : Nat} (h : inArity ≤ size) (hl : l < size) : inverseLoc size inArity l < size := by
  unfold inverseLoc
  split_ifs <;> omega

theorem inverseLoc_inverseLoc {size inArity l : Nat} (h : inArity ≤ size) (hl : l < size) :
    inverseLoc size (size - inArity) (inverseLoc size inArity l) = l := by
  unfold inverseLoc
  split_ifs <;> omega

theorem getElem_inverseLocs {size inArity l : Nat} (h : inArity ≤ size) (hl : l < size) :
    (inverseLocs size (size - inArity))[l]? = some (inverseLoc size inArity l) := by
  have hlen : (List.range' (size - inArity) (size - (size - inArity))).length = inArity := by
    rw [List.length_range']
    omega
  unfold inverseLocs inverseLoc
  split_ifs with hin
  · rw [List.getElem?_append_left (by omega), List.getElem?_range' (by omega), one_mul]
  · rw [List.getElem?_append_right (by omega), hlen, List.getElem?_range (by omega)]

theorem nodup_inverseLocs (size outArity : Nat) : (inverseLocs size outArity).Nodup := by
  refine List.nodup_append.2 ⟨List.nodup_range', List.nodup_range, fun l hl l' hl' => ?_⟩
  have h₁ := List.left_le_of_mem_range' hl
  have h₂ := List.mem_range.1 hl'
  omega

theorem moves_inverseLocs {size inArity : Nat} (h : inArity ≤ size) :
    Moves ((inverseLocs size (size - inArity)).map Int.ofNat) (inverseLoc size inArity) where
  distinct := by
    have hall : ((inverseLocs size (size - inArity)).map Int.ofNat).filter (fun new => 0 ≤ new) =
        (inverseLocs size (size - inArity)).map Int.ofNat := List.filter_eq_self.2 fun x hx => by
      obtain ⟨l, -, rfl⟩ := List.mem_map.1 hx
      simp
    rw [distinctLocs, hall, decide_eq_true_eq]
    exact (nodup_inverseLocs _ _).map Int.ofNat_injective
  loc := by
    intro l hl
    rw [List.length_map, length_inverseLocs h] at hl
    rw [List.getElem?_map, getElem_inverseLocs h hl]
    rfl

/-- The declaration of the inverse has the elements at their new locations. -/
theorem elem_remap_inverseLocs {d : TupleDecl} {inArity : Nat} (h : inArity ≤ d.size) :
    (d.remap ((inverseLocs d.size (d.size - inArity)).map Int.ofNat)).size = d.size ∧ ∀ l < d.size,
      (d.remap ((inverseLocs d.size (d.size - inArity)).map Int.ofNat)).elem (inverseLoc d.size inArity l) = d.elem l := by
  have hlt : ∀ x ∈ inverseLocs d.size (d.size - inArity), x < d.size := by
    intro x hx
    obtain ⟨l, hl, hget⟩ := List.mem_iff_getElem.1 hx
    rw [length_inverseLocs h] at hl
    have hsome := getElem_inverseLocs h hl
    rw [List.getElem?_eq_getElem (by rw [length_inverseLocs h]; exact hl), hget, Option.some_inj] at hsome
    rw [hsome]
    exact inverseLoc_lt h hl
  have hmax : ((inverseLocs d.size (d.size - inArity)).map Int.ofNat).foldl max (-1) = (d.size : Int) - 1 := by
    refine foldl_max_eq ?_ (by omega) fun x hx => ?_
    · rcases Nat.eq_zero_or_pos d.size with h0 | hpos
      · exact .inl (by omega)
      · -- the last location is the image of the one that is moved there
        have hl := inverseLoc_lt (Nat.sub_le d.size inArity) (Nat.sub_lt hpos Nat.one_pos)
        have hback := inverseLoc_inverseLoc (Nat.sub_le d.size inArity) (Nat.sub_lt hpos Nat.one_pos)
        rw [Nat.sub_sub_self h] at hback
        have hmem := List.mem_of_getElem? (getElem_inverseLocs h hl)
        rw [hback] at hmem
        exact .inr (List.mem_map.2 ⟨_, hmem, by simp; omega⟩)
    · obtain ⟨l, hl, rfl⟩ := List.mem_map.1 hx
      have := hlt l hl
      simp only [Int.ofNat_eq_natCast]
      omega
  have hsize : (TupleDecl.sDefaultTupleDecl (((d.size : Int) - 1 + 1).toNat)).size = d.size := by
    rw [TupleDecl.size_sDefaultTupleDecl]
    omega
  obtain ⟨h₁, h₂⟩ := @TupleDecl.elem_foldl_copyTupleElem _ (nodup_inverseLocs d.size (d.size - inArity)) d
    (TupleDecl.sDefaultTupleDecl (((d.size : Int) - 1 + 1).toNat)) (by rw [hsize]; exact hlt)
  unfold TupleDecl.remap
  rw [hmax]
  exact ⟨h₁.trans hsize, fun l hl => h₂ l _ (getElem_inverseLocs h hl)⟩

/-- The inverse, and when it is returned. -/
theorem inverse_eq_ok_iff {c c' : Conjunction} (h : c.inArity ≤ c.arity) : c.Inverse = .ok c' ↔
    c.VarsIn (· < c.arity) ∧ c' = ⟨c.equalities.map (fun e => (e.mapVars (inverseLoc c.arity c.inArity)).normalizeForEquality),
      c.inequalities.map (Exp.mapVars (inverseLoc c.arity c.inArity)),
      c.tupleDecl.remap ((inverseLocs c.arity (c.arity - c.inArity)).map Int.ofNat), c.arity - c.inArity⟩ := by
  have hlen : ((inverseLocs c.arity (c.arity - c.inArity)).map Int.ofNat).length = c.arity := by
    rw [List.length_map, length_inverseLocs h]
  have hr := @remapTupleVars_eq_ok_iff _ _ (moves_inverseLocs h) { c with inArity := c.arity - c.inArity } c'
  rw [hlen] at hr
  exact hr

end Conjunction

/-! ## The tuples of the inverse -/

namespace Conjunction

section Denote

variable {c c' : Conjunction} (h : c.inArity ≤ c.arity) (hi : c.Inverse = .ok c')
include h hi

theorem size_of_inverse : c'.arity = c.arity ∧ c'.inArity = c.arity - c.inArity := by
  obtain ⟨-, rfl⟩ := (inverse_eq_ok_iff h).1 hi
  exact ⟨(elem_remap_inverseLocs h).1, rfl⟩

theorem elem_of_inverse : ∀ l < c.arity, c'.tupleDecl.elem (inverseLoc c.arity c.inArity l) = c.tupleDecl.elem l := by
  obtain ⟨-, rfl⟩ := (inverse_eq_ok_iff h).1 hi
  exact (elem_remap_inverseLocs h).2

theorem varsIn_of_inverse : c'.VarsIn (· < c'.arity) := by
  have hs := (size_of_inverse h hi).1
  obtain ⟨hv, rfl⟩ := (inverse_eq_ok_iff h).1 hi
  rw [hs]
  have hmap : ∀ e ∈ c.equalities ++ c.inequalities, (e.mapVars (inverseLoc c.arity c.inArity)).VarsIn (· < c.arity) :=
    fun e he => Exp.varsIn_mapVars (q := (· < c.arity)) (fun l hl => inverseLoc_lt h hl) (hv e he)
  refine List.forall_mem_append.2 ⟨fun d hd => ?_, fun d hd => ?_⟩
  · obtain ⟨e, he, rfl⟩ := List.mem_map.1 hd
    exact Exp.varsIn_normalizeForEquality (hmap e (List.mem_append_left _ he))
  · obtain ⟨e, he, rfl⟩ := List.mem_map.1 hd
    exact hmap e (List.mem_append_right _ he)

/-- The constraints of the inverse hold where those of the conjunction do at the old locations. -/
theorem holds_of_inverse {I : Interp} {τ : Nat → Int} :
    c'.Holds I τ ↔ c.Holds I (fun l => τ (inverseLoc c.arity c.inArity l)) := by
  obtain ⟨-, rfl⟩ := (inverse_eq_ok_iff h).1 hi
  unfold Holds
  simp only [List.forall_mem_map, holdsEq_normalizeForEquality]
  simp only [Exp.HoldsEq, Exp.HoldsGe, Exp.val_mapVars]

omit hi in
theorem valuation_inverse {x y : List Int} (hx : x.length = c.inArity) (hy : y.length = c.arity - c.inArity) {l : Nat}
    (hl : l < c.arity) : valuation (y ++ x) (inverseLoc c.arity c.inArity l) = valuation (x ++ y) l := by
  unfold valuation inverseLoc
  split_ifs with hin
  · rw [List.getD_append_right _ _ _ _ (by omega), List.getD_append _ _ _ _ (by omega), hy, Nat.add_sub_cancel_left]
  · rw [List.getD_append _ _ _ _ (by omega), List.getD_append_right _ _ _ _ (by omega), hx]

theorem mem_denote_inverse {I : Interp} {x y : List Int} (hx : x.length = c.inArity) (hy : y.length = c.arity - c.inArity) :
    y ++ x ∈ c'.denote I ↔ x ++ y ∈ c.denote I := by
  have hs := (size_of_inverse h hi).1
  have helem := elem_of_inverse h hi
  have hval := fun l hl => valuation_inverse h hx hy (l := l) hl
  obtain ⟨hv, -⟩ := (inverse_eq_ok_iff h).1 hi
  have hholds : c'.Holds I (valuation (y ++ x)) ↔ c.Holds I (valuation (x ++ y)) := by
    rw [holds_of_inverse h hi]
    exact holds_congr hv fun l hl => hval l hl
  refine and_congr ?_ hholds
  have hlen : (y ++ x).length = c'.tupleDecl.size ↔ (x ++ y).length = c.tupleDecl.size := by
    have hs' : c'.tupleDecl.size = c.tupleDecl.size := hs
    rw [hs', List.length_append, List.length_append, Nat.add_comm]
  refine and_congr hlen ⟨fun hc l hl hconst => ?_, fun hc l hl hconst => ?_⟩
  · have hconst' : c'.tupleDecl.elemIsConst (inverseLoc c.arity c.inArity l) = true := by
      rw [TupleDecl.elemIsConst, helem l hl]
      exact hconst
    have hlt : inverseLoc c.arity c.inArity l < c'.tupleDecl.size := lt_of_lt_of_eq (inverseLoc_lt h hl) hs.symm
    rw [← hval l hl, hc _ hlt hconst', TupleDecl.elemConstVal, TupleDecl.elemConstVal, helem l hl]
  · have hl' : l < c.arity := by
      rw [← hs]
      exact hl
    -- the location `l` of the inverse is where some location of the conjunction has moved
    have hback := inverseLoc_inverseLoc (Nat.sub_le c.arity c.inArity) hl'
    rw [Nat.sub_sub_self h] at hback
    have hlt := inverseLoc_lt (Nat.sub_le c.arity c.inArity) hl'
    have hel := helem _ hlt
    rw [hback] at hel
    rw [TupleDecl.elemIsConst, hel] at hconst
    have hv' := hval _ hlt
    rw [hback] at hv'
    rw [hv', hc _ hlt hconst, TupleDecl.elemConstVal, TupleDecl.elemConstVal, hel]

/-- The inverse has the pairs of the conjunction the other way round. -/
theorem mem_denote_of_inverse {I : Interp} {t : List Int} : t ∈ c'.denote I ↔
    ∃ x y, x.length = c.inArity ∧ t = y ++ x ∧ x ++ y ∈ c.denote I := by
  have hs : c'.tupleDecl.size = c.arity := (size_of_inverse h hi).1
  constructor
  · intro ht
    have hlen : t.length = c.arity := ht.1.1.trans hs
    have hx : (t.drop (c.arity - c.inArity)).length = c.inArity := by
      rw [List.length_drop]
      omega
    have hy : (t.take (c.arity - c.inArity)).length = c.arity - c.inArity := by
      rw [List.length_take]
      omega
    refine ⟨_, _, hx, (List.take_append_drop _ t).symm, (mem_denote_inverse h hi hx hy).1 ?_⟩
    rwa [List.take_append_drop]
  · rintro ⟨x, y, hx, rfl, ht⟩
    have hlen : (x ++ y).length = c.arity := ht.1.1
    rw [List.length_append] at hlen
    exact (mem_denote_inverse h hi hx (by omega)).2 ht

end Denote

/-! ## What `cleanUp` adds -/

/-- The equalities that `cleanUp` adds, in their order. -/
def cleanedEqualities (env : Environment) (c : Conjunction) : Except Failure (List Exp) := do
  let es ← c.equalities.mapM (fun e => e.normalizeForEquality.collapseNestedInvertibleFunctions env)
  .ok ((es.filter (fun e => !e.equalsZero)).filterMap Exp.asEquality)

/-- The inequalities that `cleanUp` adds, in their order. -/
def cleanedInequalities (env : Environment) (c : Conjunction) : Except Failure (List Exp) := do
  let es ← c.inequalities.mapM (fun e => e.collapseNestedInvertibleFunctions env)
  .ok ((es.filter (fun e => !e.equalsZero)).filterMap Exp.asInequality)

/-- `cleanUp` builds the lists of what it adds. -/
theorem cleanUp_eq_ok_iff {env : Environment} {c d : Conjunction} : c.cleanUp env = .ok d ↔
    ∃ eqs ineqs, c.cleanedEqualities env = .ok eqs ∧ c.cleanedInequalities env = .ok ineqs ∧
      d = ⟨build Exp.lt eqs, build Exp.lt ineqs, c.tupleDecl, c.inArity⟩ := by
  unfold cleanUp cleanedEqualities cleanedInequalities
  simp only [bind_eq_ok, foldl_addEquality_eq, foldl_addInequality_eq, Except.ok.injEq]
  constructor
  · rintro ⟨es, hes, is, his, rfl⟩
    exact ⟨_, _, ⟨es, hes, rfl⟩, ⟨is, his, rfl⟩, rfl⟩
  · rintro ⟨_, _, ⟨es, hes, rfl⟩, ⟨is, his, rfl⟩, rfl⟩
    exact ⟨es, hes, is, his, rfl⟩

/-- Objects of their own with these values, and what is built of them. -/
def BuiltOf (es : List Exp) (os : List ExpObject) : Prop := ∃ added : List ExpObject,
  added.map ExpObject.value = es ∧ added.Pairwise (fun a b => a.elems.Disjoint b.elems) ∧ os = build ExpObject.lt added

/-- `cleanUp`, with what it adds compared as objects. -/
structure CleansUpTo (env : Environment) (c : Conjunction) (d : ConjunctionObject) : Prop where
  equalities : ∃ es, c.cleanedEqualities env = .ok es ∧ BuiltOf es d.equalities
  inequalities : ∃ es, c.cleanedInequalities env = .ok es ∧ BuiltOf es d.inequalities
  tupleDecl : d.tupleDecl = c.tupleDecl
  inArity : d.inArity = c.inArity

/-- Which constraints stay does not depend on where the objects are. -/
theorem values_of_builtOf {es : List Exp} {os os' : List ExpObject} (h : BuiltOf es os) (h' : BuiltOf es os') (e : Exp) :
    e ∈ os.map ExpObject.value ↔ e ∈ os'.map ExpObject.value := by
  obtain ⟨added, hv, hd, rfl⟩ := h
  obtain ⟨added', hv', hd', rfl⟩ := h'
  have heq := hv.trans hv'.symm
  exact ⟨byPlace_exp.values_build strictWeak_expObjectLt heq hd hd',
    byPlace_exp.values_build strictWeak_expObjectLt heq.symm hd' hd⟩

/-! ## Terms with coefficient zero -/

section Zero

variable {env : Environment}

theorem termsAddInto_of_zero {us acc : List Term} {k : Int} (h : ∀ u ∈ us, u.coefficient = 0) :
    termsAddInto k us acc = acc := by
  induction us generalizing acc with
  | nil => rfl
  | cons u us ih =>
    obtain ⟨hu, hus⟩ := List.forall_mem_cons.1 h
    rw [termsAddInto, hu, zero_mul, if_pos rfl, ih hus]

theorem addExp_of_zero {e e' : Exp} (h : ∀ u ∈ e'.terms, u.coefficient = 0) : e.addExp e' = e := by
  rw [Exp.addExp, termsAddInto_of_zero h, Exp.mk_expType_terms]

theorem terms_addTerm_of_zero {t : Term} (h : t.coefficient = 0) : ((Exp.mk .expression []).addTerm t).terms = [] := by
  rw [Exp.addTerm, termsAddInto_of_zero (by simpa using h), Exp.terms_mk, Exp.terms_mk]

theorem coefficient_of_collapse {t : Term} {e : Exp} (h0 : t.coefficient = 0)
    (h : t.collapseNestedInvertibleFunctions env = .ok e) : ∀ u ∈ e.terms, u.coefficient = 0 := by
  have hadd : e = (Exp.mk .expression []).addTerm t → ∀ u ∈ e.terms, u.coefficient = 0 := by
    rintro rfl
    rw [terms_addTerm_of_zero h0]
    simp
  cases t with
  | ufCall c f as i =>
    obtain rfl : c = 0 := h0
    rcases collapse_ufCall h with ⟨k, c', g, saved, as', j, ts, es, -, -, e', -, rfl⟩ | ⟨-, as', -, rfl⟩
    · intro u hu
      rw [Exp.terms_multiplyBy] at hu
      obtain ⟨v, -, rfl⟩ := List.mem_map.1 hu
      simp [Term.multiplyBy]
    · rw [terms_addTerm_of_zero rfl]
      simp
  | _ => exact hadd (Except.ok.inj h).symm

theorem termsCollapse_append {ts us : List Term} {a d : Exp} : termsCollapse env (ts ++ us) a = .ok d ↔
    ∃ b, termsCollapse env ts a = .ok b ∧ termsCollapse env us b = .ok d := by
  induction ts generalizing a with
  | nil => simp [termsCollapse]
  | cons t ts ih =>
    simp only [List.cons_append, termsCollapse, bind_eq_ok, ih]
    constructor
    · rintro ⟨e, he, b, hb, hd⟩
      exact ⟨b, ⟨e, he, hb⟩, hd⟩
    · rintro ⟨b, ⟨e, he, hb⟩, hd⟩
      exact ⟨e, he, b, hb, hd⟩

/-- A last term with coefficient zero does not count. -/
theorem collapse_dropZeroTerm {e d : Exp} (h : e.collapseNestedInvertibleFunctions env = .ok d) :
    e.dropZeroTerm.collapseNestedInvertibleFunctions env = .ok d := by
  rcases e.dropZeroTerm_spec with ⟨ts, t, hts, h0, hd⟩ | ⟨-, hd⟩
  · obtain ⟨k, us⟩ := e
    obtain rfl : us = ts ++ [t] := hts
    obtain ⟨b, hb, ht⟩ := termsCollapse_append.1 h
    simp only [termsCollapse, bind_eq_ok, Except.ok.injEq] at ht
    obtain ⟨e', he', rfl⟩ := ht
    rw [hd, addExp_of_zero (coefficient_of_collapse h0 he')]
    exact hb
  · rw [hd]
    exact h

end Zero

/-! ## The inverse of the inverse -/

section Twice

variable {c c' : Conjunction} (h : c.inArity ≤ c.arity) (hi : c.Inverse = .ok c')
include h hi

/-- The inverse of the inverse is the conjunction with its equalities normalized twice. -/
theorem inverse_inverse : c'.Inverse =
    .ok { c with equalities := c.equalities.map (fun e => e.normalizeForEquality.normalizeForEquality) } := by
  obtain ⟨hs, hn⟩ := size_of_inverse h hi
  have hle : c'.inArity ≤ c'.arity := by omega
  have hback : ∀ l < c.arity, inverseLoc c'.arity c'.inArity (inverseLoc c.arity c.inArity l) = l := fun l hl => by
    rw [hs, hn]
    exact inverseLoc_inverseLoc h hl
  rw [inverse_eq_ok_iff hle]
  refine ⟨varsIn_of_inverse h hi, ?_⟩
  have hdecl : c'.tupleDecl.remap ((inverseLocs c'.arity (c'.arity - c'.inArity)).map Int.ofNat) = c.tupleDecl := by
    obtain ⟨h₁, h₂⟩ := elem_remap_inverseLocs (d := c'.tupleDecl) hle
    have hsize : c'.tupleDecl.size = c.tupleDecl.size := hs
    refine TupleDecl.ext_elem (h₁.trans hsize) fun l hl => ?_
    have hl' : l < c.arity := lt_of_lt_of_eq hl (h₁.trans hsize)
    have hmoved := h₂ _ (lt_of_lt_of_eq (inverseLoc_lt h hl') hs.symm)
    rw [elem_of_inverse h hi l hl'] at hmoved
    exact (congrArg _ (hback l hl').symm).trans hmoved
  rw [hdecl, hs, hn, Nat.sub_sub_self h]
  obtain ⟨hv, rfl⟩ := (inverse_eq_ok_iff h).1 hi
  have hmap : ∀ e ∈ c.equalities ++ c.inequalities,
      (e.mapVars (inverseLoc c.arity c.inArity)).mapVars (inverseLoc c.arity (c.arity - c.inArity)) = e :=
    fun e he => Exp.mapVars_mapVars (fun l hl => inverseLoc_inverseLoc h hl) (hv e he)
  rw [Conjunction.mk.injEq, List.map_map, List.map_map]
  refine ⟨List.map_congr_left fun e he => ?_, ?_, rfl, rfl⟩
  · rw [Function.comp_apply, Exp.mapVars_normalizeForEquality, hmap e (List.mem_append_left _ he)]
  · exact ((List.map_congr_left fun e he => hmap e (List.mem_append_right _ he)).trans (List.map_id _)).symm

/-- What `cleanUp` adds for the inverse of the inverse. -/
theorem cleaned_inverse_inverse {c'' : Conjunction} (hi' : c'.Inverse = .ok c'') {env : Environment} {eqs ineqs : List Exp}
    (heqs : c.cleanedEqualities env = .ok eqs) (hineqs : c.cleanedInequalities env = .ok ineqs) :
    c''.cleanedEqualities env = .ok eqs ∧ c''.cleanedInequalities env = .ok ineqs := by
  rw [inverse_inverse h hi] at hi'
  cases hi'
  refine ⟨?_, hineqs⟩
  simp only [cleanedEqualities, bind_eq_ok, Except.ok.injEq] at heqs ⊢
  obtain ⟨es, hes, rfl⟩ := heqs
  refine ⟨es, Outcome.mapM_of_forall₂ ?_, rfl⟩
  rw [List.forall₂_map_left_iff]
  refine (Outcome.forall₂_of_mapM hes).imp fun e d hd => ?_
  -- each normalization after the first one drops at most a last zero
  have h₁ := collapse_dropZeroTerm hd
  rw [← Exp.normalizeForEquality_normalizeForEquality] at h₁
  have h₂ := collapse_dropZeroTerm h₁
  rwa [← Exp.normalizeForEquality_normalizeForEquality] at h₂

end Twice

/-- `Inverse` returns iff the tuple variables are declared; then it has the pairs of the conjunction the other way round,
and the inverse of the inverse cleans up to what the conjunction cleans up to. -/
theorem Inverse_inverts (c : Conjunction) (h : c.inArity ≤ c.arity) :
    ((∃ c', c.Inverse = .ok c') ↔ c.VarsIn (· < c.arity)) ∧
    ∀ c', c.Inverse = .ok c' → c'.arity = c.arity ∧ c'.inArity = c.arity - c.inArity ∧
      (∀ I t, t ∈ c'.denote I ↔ ∃ x y, x.length = c.inArity ∧ t = y ++ x ∧ x ++ y ∈ c.denote I) ∧
      ∃ c'', c'.Inverse = .ok c'' ∧ ∀ env,
        (∀ d, c.cleanUp env = .ok d → c''.cleanUp env = .ok d) ∧
        (∀ d, c.CleansUpTo env d → c''.CleansUpTo env d) ∧
        ∀ d d'', c.CleansUpTo env d → c''.CleansUpTo env d'' → d''.inArity = d.inArity ∧ d''.tupleDecl = d.tupleDecl ∧
          (∀ e, e ∈ d''.value.equalities ↔ e ∈ d.value.equalities) ∧
          ∀ e, e ∈ d''.value.inequalities ↔ e ∈ d.value.inequalities := by
  refine ⟨⟨fun hr => ?_, fun hv => ⟨_, (inverse_eq_ok_iff h).2 ⟨hv, rfl⟩⟩⟩, fun c' hi => ?_⟩
  · obtain ⟨c', hi⟩ := hr
    exact ((inverse_eq_ok_iff h).1 hi).1
  · obtain ⟨hs, hn⟩ := size_of_inverse h hi
    refine ⟨hs, hn, fun I t => mem_denote_of_inverse h hi, _, inverse_inverse h hi, fun env => ⟨fun d hd => ?_, ?_, ?_⟩⟩
    · obtain ⟨eqs, ineqs, heqs, hineqs, rfl⟩ := cleanUp_eq_ok_iff.1 hd
      obtain ⟨heqs', hineqs'⟩ := cleaned_inverse_inverse h hi (inverse_inverse h hi) heqs hineqs
      exact cleanUp_eq_ok_iff.2 ⟨eqs, ineqs, heqs', hineqs', rfl⟩
    · rintro d ⟨⟨eqs, heqs, hb⟩, ⟨ineqs, hineqs, hb'⟩, hdecl, hin⟩
      obtain ⟨heqs', hineqs'⟩ := cleaned_inverse_inverse h hi (inverse_inverse h hi) heqs hineqs
      exact ⟨⟨eqs, heqs', hb⟩, ⟨ineqs, hineqs', hb'⟩, hdecl, hin⟩
    · rintro d d'' ⟨⟨eqs, heqs, hb⟩, ⟨ineqs, hineqs, hb'⟩, hdecl, hin⟩ ⟨⟨es, hes, hbe⟩, ⟨is, his, hbi⟩, hdecl'', hin''⟩
      obtain ⟨heqs', hineqs'⟩ := cleaned_inverse_inverse h hi (inverse_inverse h hi) heqs hineqs
      obtain rfl := Except.ok.inj (heqs'.symm.trans hes)
      obtain rfl := Except.ok.inj (hineqs'.symm.trans his)
      exact ⟨hin''.trans hin.symm, hdecl''.trans hdecl.symm, values_of_builtOf hbe hb, values_of_builtOf hbi hb'⟩

/-- `[i, 3] -> [j] : ( j, 1 ) - f(g(i) + j) = 0` -/
def nestedConj : Conjunction :=
  ⟨[.mk .equality [.ufCall (-1) "f" [.mk .expression [.tupleVar 1 2, .ufCall 1 "g" [.ofTerm (.tupleVar 1 0)] none]] none,
      .tupleExp 1 [.ofTerm (.tupleVar 1 2), .ofTerm (.constVal 1)]]], [],
    ⟨[⟨false, 0, "i"⟩, ⟨true, 3, "tv1"⟩, ⟨false, 0, "j"⟩]⟩, 2⟩

theorem Inverse_inverts_nested : ∃ c', nestedConj.Inverse = .ok c' ∧ c'.inArity = 1 ∧
    ∀ I t, t ∈ c'.denote I ↔ ∃ x y, x.length = 2 ∧ t = y ++ x ∧ x ++ y ∈ nestedConj.denote I := by
  obtain ⟨hr, hall⟩ := Inverse_inverts nestedConj (by decide)
  have hv : nestedConj.VarsIn (· < nestedConj.arity) := by
    intro e he
    obtain rfl := List.mem_singleton.1 he
    simp [Exp.VarsIn, termsVarsIn, Term.VarsIn, argsVarsIn, Exp.ofTerm, arity, nestedConj, TupleDecl.size]
  obtain ⟨c', hi⟩ := hr.2 hv
  obtain ⟨-, hn, hd, -⟩ := hall c' hi
  exact ⟨c', hi, hn, hd⟩

end Conjunction

end IEGen
