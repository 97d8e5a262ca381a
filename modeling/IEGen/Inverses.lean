import IEGen.Eval

/-!
# Interpretations that agree with the recorded inverses

An environment records that a function is the inverse of another. An interpretation is consistent with it when each of
the two functions undoes the other on the tuples that it takes (`Interp.Consistent`). Then the inverse of a call gives
the arguments of the call back (`Interp.Inverts.callVal_callVal`, `Interp.Inverts.indexVal_callVal`).

`Exp.Within` bounds the components of an expression by looking at its terms.
-/

namespace IEGen

/-- `g` takes what `f` gives and gives back what `f` took. -/
structure Interp.Inverts (I : Interp) (f g : String) : Prop where
  dom : I.dom g = I.cod f
  cod : I.cod g = I.dom f
  length : ∀ as, as.length = I.dom f → (I.fn f as).length = I.cod f
  undo : ∀ as, as.length = I.dom f → I.fn g (I.fn f as) = as

/-- Each function and its recorded inverse undo one another. -/
def Interp.Consistent (I : Interp) (env : Environment) : Prop :=
  ∀ f, env.funcInverse f ≠ "" → I.Inverts f (env.funcInverse f) ∧ I.Inverts (env.funcInverse f) f

/-- An environment that records `f` and `f_inv`. -/
def invertibleF : Environment := ⟨[], [("f", "f_inv"), ("f_inv", "f")], []⟩

/-- The term has no more than `n` components, when a call of `f` gives `cod f` of them. -/
def Term.Within (cod : String → Nat) (n : Nat) : Term → Prop
  | .ufCall _ f _ none => cod f ≤ n
  | .tupleExp _ es => es.length ≤ n
  | _ => 1 ≤ n

def Exp.Within (cod : String → Nat) (n : Nat) (e : Exp) : Prop := ∀ t ∈ e.terms, t.Within cod n

theorem scalar_of_pos (v : Int) {k : Nat} (h : 1 ≤ k) : scalar v k = 0 := by
  cases k with
  | zero => omega
  | succ k => rfl

theorem length_argsVal (I : Interp) (τ : Nat → Int) (es : List Exp) : (argsVal I τ es).length = es.length := by
  rw [argsVal_eq_map, List.length_map]

section Within

variable {I : Interp} {τ : Nat → Int} {n : Nat}

theorem Term.val_of_within {t : Term} (h : t.Within I.cod n) {k : Nat} (hk : n ≤ k) : t.val I τ k = 0 := by
  cases t with
  | tupleVar c l => exact scalar_of_pos _ (le_trans h hk)
  | symConst c s => exact scalar_of_pos _ (le_trans h hk)
  | constVal c => exact scalar_of_pos _ (le_trans h hk)
  | ufCall c f as i =>
    cases i with
    | none =>
      have hcod : ¬ k < I.cod f := Nat.not_lt.2 (le_trans h hk)
      simp only [Term.val, Interp.callVal, if_neg hcod, mul_zero]
    | some j => exact scalar_of_pos _ (le_trans h hk)
  | tupleExp c es =>
    have hlen : (argsVal I τ es).length ≤ k := by
      rw [length_argsVal]
      exact le_trans h hk
    simp only [Term.val, List.getD_eq_getElem?_getD, List.getElem?_eq_none hlen, Option.getD_none, scalar_zero, mul_zero]

theorem termsVal_of_within {ts : List Term} (h : ∀ t ∈ ts, t.Within I.cod n) {k : Nat} (hk : n ≤ k) :
    termsVal I τ ts k = 0 := by
  induction ts with
  | nil => rfl
  | cons t ts ih =>
    obtain ⟨ht, hts⟩ := List.forall_mem_cons.1 h
    rw [termsVal_cons, Term.val_of_within ht hk, ih hts, add_zero]

/-- There is nothing after the components that the terms have. -/
theorem Exp.val_of_within {e : Exp} (h : e.Within I.cod n) {k : Nat} (hk : n ≤ k) : e.val I τ k = 0 := by
  rw [Exp.val_eq]
  exact termsVal_of_within h hk

end Within

/-! ## The inverse of a call -/

namespace Interp

variable {I : Interp} {f g : String}

theorem map_range_getD {l : List Int} {n : Nat} (h : l.length = n) : (List.range n).map (fun k => l.getD k 0) = l := by
  subst h
  refine List.ext_getElem (by simp) fun k _ hk => ?_
  rw [List.getElem_map, List.getElem_range, List.getD_eq_getElem?_getD, List.getElem?_eq_getElem hk, Option.getD_some]

theorem length_argTuple (I : Interp) (f : String) (v : Nat → Int) : (I.argTuple f [v]).length = I.dom f := by
  rw [argTuple, List.length_map, List.length_range]

/-- With one argument the function gets its first components. -/
theorem getD_argTuple (v : Nat → Int) {k : Nat} (h : k < I.dom f) : (I.argTuple f [v]).getD k 0 = v k := by
  rw [argTuple, List.getD_eq_getElem?_getD, List.getElem?_map, List.getElem?_range h]
  rfl

theorem argTuple_of_length_ne_one {vs : List (Nat → Int)} (h : vs.length ≠ 1) : I.argTuple f vs = vs.map (· 0) := by
  match vs with
  | [] => rfl
  | [v] => exact absurd rfl h
  | _ :: _ :: _ => rfl

/-- A call whose argument is a call of the inverse is applied to what the inverse gives. -/
theorem Inverts.argTuple_callVal (h : I.Inverts f g) {vs : List (Nat → Int)} (hvs : (I.argTuple f vs).length = I.dom f) :
    I.argTuple g [I.callVal f vs] = I.fn f (I.argTuple f vs) := by
  have hmap : (List.range (I.cod f)).map (I.callVal f vs) =
      (List.range (I.cod f)).map (fun k => (I.fn f (I.argTuple f vs)).getD k 0) := by
    refine List.map_congr_left fun k hk => ?_
    rw [callVal, if_pos (List.mem_range.1 hk)]
  rw [argTuple, h.dom, hmap, map_range_getD (h.length _ hvs)]

/-- The inverse, applied to what a call with one argument gives, gives the argument. -/
theorem Inverts.callVal_of_argTuple (h : I.Inverts f g) {v : Nat → Int} (hv : ∀ k, I.dom f ≤ k → v k = 0)
    {vs : List (Nat → Int)} (hvs : I.argTuple g vs = I.fn f (I.argTuple f [v])) : I.callVal g vs = v := by
  funext k
  rw [callVal, hvs, h.undo _ (length_argTuple I f v), h.cod]
  split_ifs with hk
  · exact getD_argTuple v hk
  · exact (hv k (Nat.not_lt.1 hk)).symm

/-- The inverse of a call with one argument is the argument. -/
theorem Inverts.callVal_callVal (h : I.Inverts f g) {v : Nat → Int} (hv : ∀ k, I.dom f ≤ k → v k = 0) :
    I.callVal g [I.callVal f [v]] = v :=
  h.callVal_of_argTuple hv (h.argTuple_callVal (length_argTuple I f v))

/-- A call whose arguments are the components of a call of the inverse. -/
theorem Inverts.argTuple_components (h : I.Inverts f g) {v : Nat → Int} {vs : List (Nat → Int)} (hne : vs.length ≠ 1)
    (hlen : vs.length = I.dom g) (hvs : ∀ k, ∀ w, vs[k]? = some w → w 0 = I.indexVal f [v] k) :
    I.argTuple g vs = I.fn f (I.argTuple f [v]) := by
  have hfn : (I.fn f (I.argTuple f [v])).length = vs.length := by
    rw [h.length _ (length_argTuple I f v), ← h.dom, hlen]
  rw [argTuple_of_length_ne_one hne, ← map_range_getD hfn]
  refine List.ext_getElem? fun k => ?_
  rw [List.getElem?_map, List.getElem?_map]
  rcases Nat.lt_or_ge k vs.length with hk | hk
  · rw [List.getElem?_range hk, List.getElem?_eq_getElem hk]
    exact congrArg some (hvs k _ (List.getElem?_eq_getElem hk))
  · rw [List.getElem?_eq_none hk, List.getElem?_eq_none (by simpa using hk)]
    rfl

/-- The inverse of a call with several arguments gives each of them. -/
theorem Inverts.indexVal_callVal (h : I.Inverts f g) {vs : List (Nat → Int)} (hne : vs.length ≠ 1)
    (hvs : vs.length = I.dom f) (k : Nat) : I.indexVal g [I.callVal f vs] k = (vs.getD k (scalar 0)) 0 := by
  have hlen : (I.argTuple f vs).length = I.dom f := by
    rw [argTuple_of_length_ne_one hne, List.length_map, hvs]
  rw [indexVal, h.argTuple_callVal hlen, h.undo _ hlen, argTuple_of_length_ne_one hne, List.getD_eq_getElem?_getD,
    List.getD_eq_getElem?_getD, List.getElem?_map]
  cases vs[k]? <;> rfl

end Interp

end IEGen
