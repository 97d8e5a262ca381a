import IEGen.Bound
import IEGen.Named

/-!
# Setting a declaration

`setTupleDecl` of a set or a relation sets the arity first and then gives the declaration to one conjunction after the
other. A conjunction with another constant throws, and what was done before stays done.

* `setTupleDecls_of_conflict` and `setTupleDecls_of_not_conflicts` say what a call leaves.
* A call that throws leaves the object as it was exactly where the declaration fits the arity and every conjunction before
  the first one with another constant already has it (`setTupleDecl_leavesAsItWas_iff`).
-/

namespace IEGen

open Outcome (bind_eq_ok)

/-! ## The step on objects -/

/-- A set or a relation with the members that `setTupleDecl` sets. `mOutArity` becomes negative for a declaration that is
shorter than the input tuple. -/
inductive SparseConstraints where
  | set (arity : Nat) (conjunctions : List Conjunction)
  | relation (inArity : Nat) (outArity : Int) (conjunctions : List Conjunction)

/-- The loop of `SparseConstraints::setTupleDecl`: the conjunctions after it, and the exception if there is one. -/
def setTupleDecls (tuple_decl : TupleDecl) : List Conjunction → List Conjunction × Option Failure
  | [] => ([], none)
  | c :: cs =>
    match c.setTupleDecl tuple_decl with
    | .error e => (c :: cs, some e)
    | .ok c' => (c' :: (setTupleDecls tuple_decl cs).1, (setTupleDecls tuple_decl cs).2)

namespace SparseConstraints

/-- A set as an object. -/
def ofSet (s : Set) : SparseConstraints := .set s.arity s.conjunctions

/-- A relation as an object. -/
def ofRelation (r : Relation) : SparseConstraints := .relation r.inArity r.outArity r.conjunctions

def conjunctions : SparseConstraints → List Conjunction
  | .set _ cs | .relation _ _ cs => cs

/-- The input and the output arity; that of a set is its only one. -/
def arities : SparseConstraints → Nat × Int
  | .set arity _ => (arity, 0)
  | .relation inArity outArity _ => (inArity, outArity)

/-- The size of the tuples. -/
def arity : SparseConstraints → Int
  | .set arity _ => arity
  | .relation inArity outArity _ => inArity + outArity

/-- `Set::setTupleDecl` and `Relation::setTupleDecl`, which keeps the input arity. -/
def setTupleDecl (tuple_decl : TupleDecl) : SparseConstraints → SparseConstraints × Option Failure
  | .set _ cs => (.set tuple_decl.size (setTupleDecls tuple_decl cs).1, (setTupleDecls tuple_decl cs).2)
  | .relation inArity _ cs =>
    (.relation inArity (tuple_decl.size - inArity) (setTupleDecls tuple_decl cs).1, (setTupleDecls tuple_decl cs).2)

/-- The object is left exactly as it was. -/
structure LeftAsItWas (o o' : SparseConstraints) : Prop where
  arities : o'.arities = o.arities
  decls : o'.conjunctions.map (fun c => c.tupleDecl.places) = o.conjunctions.map (fun c => c.tupleDecl.places)
  denote : ∀ I, denoteUnion I o'.conjunctions = denoteUnion I o.conjunctions

end SparseConstraints

/-! ## One conjunction -/

theorem places_eq_iff {d d' : TupleDecl} :
    d.places = d'.places ↔ d.size = d'.size ∧ ∀ i < d.size, (d.elem i).place = (d'.elem i).place := by
  have hplace : ∀ (d : TupleDecl) (i : Nat) (hi : i < d.size), d.places[i]? = some (d.elem i).place := by
    intro d i hi
    rw [TupleDecl.places, List.getElem?_map, List.getElem?_eq_getElem hi, TupleDecl.elem, List.getD_eq_getElem _ _ hi]
    rfl
  have hlen : ∀ d : TupleDecl, d.places.length = d.size := fun d => List.length_map _
  constructor
  · intro h
    have hsize : d.size = d'.size := by rw [← hlen, h, hlen]
    refine ⟨hsize, fun i hi => ?_⟩
    have hi' := congrArg (·[i]?) h
    simpa only [hplace d i hi, hplace d' i (hsize ▸ hi), Option.some.injEq] using hi'
  · rintro ⟨hsize, h⟩
    refine List.ext_getElem? fun i => ?_
    by_cases hi : i < d.size
    · rw [hplace d i hi, hplace d' i (hsize ▸ hi), h i hi]
    · rw [List.getElem?_eq_none (by rw [hlen]; omega), List.getElem?_eq_none (by rw [hlen]; omega)]

namespace Conjunction

/-- The declaration has another constant at a place. -/
def ConflictsAt (c : Conjunction) (d : TupleDecl) (i : Nat) : Prop :=
  i < c.tupleDecl.size ∧ c.tupleDecl.elemIsConst i = true ∧ d.elemIsConst i = true ∧
    c.tupleDecl.elemConstVal i ≠ d.elemConstVal i

/-- The declaration has another constant somewhere. -/
def Conflicts (c : Conjunction) (d : TupleDecl) : Prop := ∃ i < d.size, c.ConflictsAt d i

/-- The declaration has the size of that of the conjunction and its variables. -/
def Declares (c : Conjunction) (d : TupleDecl) : Prop :=
  d.size = c.tupleDecl.size ∧ ∀ i < d.size, c.tupleDecl.elemIsConst i = false →
    d.elemIsConst i = false ∧ d.elemVarString i = c.tupleDecl.elemVarString i

variable {c : Conjunction} {d : TupleDecl}

/-- What stands at a place afterwards: a constant stays where a variable is given. -/
def elemAfter (c : Conjunction) (d : TupleDecl) (i : Nat) : TupleElem :=
  if i < c.tupleDecl.size ∧ c.tupleDecl.elemIsConst i = true ∧ d.elemIsConst i = false then c.tupleDecl.elem i
  else d.elem i

/-- The conjunction with the declaration. -/
def redeclared (d : TupleDecl) (c : Conjunction) : Conjunction :=
  { c with tupleDecl := ⟨(List.range d.size).map (c.elemAfter d)⟩ }

@[simp] theorem size_redeclared : (c.redeclared d).tupleDecl.size = d.size := by simp [redeclared, TupleDecl.size]

theorem elem_redeclared {i : Nat} (hi : i < d.size) : (c.redeclared d).tupleDecl.elem i = c.elemAfter d i := by
  have hlen : i < ((List.range d.size).map (c.elemAfter d)).length := by simpa using hi
  rw [TupleDecl.elem, redeclared, List.getD_eq_getElem _ _ hlen, List.getElem_map, List.getElem_range]

/-- One place: the text of a constant is compared, which is as good as its value. -/
theorem elem_eq_ok_iff {i : Nat} {e : TupleElem} :
    (if i < c.tupleDecl.size then mergeElem i c.tupleDecl d else .ok (d.elem i)) = .ok e ↔
      ¬ c.ConflictsAt d i ∧ e = c.elemAfter d i := by
  unfold ConflictsAt elemAfter mergeElem
  have hok : ∀ e' : TupleElem, (Except.ok e' : Except Failure TupleElem) = .ok e ↔ e = e' := fun e' => by
    rw [Except.ok.injEq, eq_comm]
  by_cases hi : i < c.tupleDecl.size
  · rw [if_pos hi]
    cases hc : c.tupleDecl.elemIsConst i with
    | false => simp [hok]
    | true =>
      cases hd : d.elemIsConst i with
      | false => simp [hi, hok]
      | true =>
        have htext : c.tupleDecl.elemToString i false = d.elemToString i false ↔
            c.tupleDecl.elemConstVal i = d.elemConstVal i := by
          rw [TupleDecl.elemToString, TupleDecl.elemToString, if_pos hc, if_pos hd]
          exact ⟨Words.toString_int_injective, fun h => by rw [h]⟩
        by_cases hval : c.tupleDecl.elemConstVal i = d.elemConstVal i
        · simp [htext.2 hval, hval, hok]
        · simp [hi, mt htext.1 hval, hval]
  · rw [if_neg hi]
    simp [hi, hok]

theorem setTupleDecl_eq_ok_iff {c' : Conjunction} :
    c.setTupleDecl d = .ok c' ↔ ¬ c.Conflicts d ∧ c' = c.redeclared d := by
  have hstep : ∀ i ∈ List.range d.size, ∀ e : TupleElem,
      (if i < c.tupleDecl.size then mergeElem i c.tupleDecl d else .ok (d.elem i)) = .ok e ↔
        ¬ c.ConflictsAt d i ∧ e = c.elemAfter d i := fun i _ e => elem_eq_ok_iff
  unfold setTupleDecl
  rw [bind_eq_ok]
  simp only [Outcome.mapM_eq_ok_iff hstep, Except.ok.injEq, List.mem_range]
  constructor
  · rintro ⟨elems, ⟨hnot, rfl⟩, rfl⟩
    exact ⟨fun ⟨i, hi, hat⟩ => hnot i hi hat, rfl⟩
  · rintro ⟨hnot, rfl⟩
    exact ⟨_, ⟨fun i hi hat => hnot ⟨i, hi, hat⟩, rfl⟩, rfl⟩

/-- The new declaration says the same exactly where it has the size and the variables of the old one. -/
theorem places_redeclared_iff (h : ¬ c.Conflicts d) :
    (c.redeclared d).tupleDecl.places = c.tupleDecl.places ↔ c.Declares d := by
  rw [places_eq_iff, size_redeclared, Declares]
  refine and_congr_right fun hsize => forall₂_congr fun i hi => ?_
  have hat : ¬ c.ConflictsAt d i := fun hat => h ⟨i, hi, hat⟩
  have hic : i < c.tupleDecl.size := hsize ▸ hi
  rw [elem_redeclared hi]
  unfold ConflictsAt at hat
  unfold elemAfter TupleElem.place
  simp only [TupleDecl.elemIsConst, TupleDecl.elemConstVal, TupleDecl.elemVarString] at hat ⊢
  by_cases hc : (c.tupleDecl.elem i).isConst = true
  · by_cases hd : (d.elem i).isConst = true
    · have hval : (c.tupleDecl.elem i).constVal = (d.elem i).constVal := by
        by_contra hne
        exact hat ⟨hic, hc, hd, hne⟩
      simp [hc, hd, hval]
    · simp [hc, hd, hic]
  · by_cases hd : (d.elem i).isConst = true
    · simp [hc, hd]
    · simp [hc, hd]

end Conjunction

/-! ## All conjunctions -/

section Decls

variable {d : TupleDecl}

theorem exists_first {P : Conjunction → Prop} {cs : List Conjunction} (h : ∃ c ∈ cs, P c) :
    ∃ cs₁ c cs₂, cs = cs₁ ++ c :: cs₂ ∧ (∀ b ∈ cs₁, ¬ P b) ∧ P c := by
  induction cs with
  | nil => simp at h
  | cons c cs ih =>
    by_cases hc : P c
    · exact ⟨[], c, cs, rfl, by simp, hc⟩
    · obtain ⟨cs₁, c', cs₂, rfl, hnot, hc'⟩ := ih (by simpa [hc] using h)
      exact ⟨c :: cs₁, c', cs₂, rfl, by simpa [hc] using hnot, hc'⟩

/-- What a call leaves: the conjunctions before the first one with another constant are set. -/
theorem setTupleDecls_of_conflict {cs₁ : List Conjunction} {c : Conjunction} (cs₂ : List Conjunction)
    (hcs : ∀ b ∈ cs₁, ¬ b.Conflicts d) (hc : c.Conflicts d) :
    ∃ e, setTupleDecls d (cs₁ ++ c :: cs₂) = (cs₁.map (Conjunction.redeclared d) ++ c :: cs₂, some e) := by
  induction cs₁ with
  | nil =>
    cases hset : c.setTupleDecl d with
    | error e => exact ⟨e, by rw [List.nil_append, setTupleDecls, hset]; rfl⟩
    | ok c' => exact absurd hc (Conjunction.setTupleDecl_eq_ok_iff.1 hset).1
  | cons b cs₁ ih =>
    obtain ⟨hb, hcs⟩ := List.forall_mem_cons.1 hcs
    obtain ⟨e, he⟩ := ih hcs
    refine ⟨e, ?_⟩
    rw [List.cons_append, setTupleDecls, Conjunction.setTupleDecl_eq_ok_iff.2 ⟨hb, rfl⟩, he]
    rfl

/-- A call without another constant sets all conjunctions. -/
theorem setTupleDecls_of_not_conflicts {cs : List Conjunction} (hcs : ∀ b ∈ cs, ¬ b.Conflicts d) :
    setTupleDecls d cs = (cs.map (Conjunction.redeclared d), none) := by
  induction cs with
  | nil => rfl
  | cons b cs ih =>
    obtain ⟨hb, hcs⟩ := List.forall_mem_cons.1 hcs
    rw [setTupleDecls, Conjunction.setTupleDecl_eq_ok_iff.2 ⟨hb, rfl⟩, ih hcs]
    rfl

theorem denote_of_places {c c' : Conjunction} (hplaces : c'.tupleDecl.places = c.tupleDecl.places)
    (heqs : c'.equalities = c.equalities) (hineqs : c'.inequalities = c.inequalities) (I : Interp) :
    c'.denote I = c.denote I := by
  obtain ⟨hsize, hat⟩ := places_eq_iff.1 hplaces
  have hadmits : ∀ t, c'.tupleDecl.Admits t ↔ c.tupleDecl.Admits t := by
    intro t
    unfold TupleDecl.Admits
    rw [hsize]
    refine and_congr_right fun _ => forall₂_congr fun i hi => ?_
    have h := hat i (hsize ▸ hi)
    unfold TupleElem.place at h
    unfold TupleDecl.elemIsConst TupleDecl.elemConstVal
    split_ifs at h with h₁ h₂ h₂
    · injection h with h
      rw [h₁, h₂, h]
    · simp [h₁, h₂]
  ext t
  show _ ∧ _ ↔ _ ∧ _
  rw [hadmits, Conjunction.Holds, Conjunction.Holds, heqs, hineqs]

end Decls

namespace SparseConstraints

variable {o : SparseConstraints} {d : TupleDecl}

/-- The declaration fits the arity, and the conjunctions before the first one with another constant already have it. -/
def ConflictsFirst (o : SparseConstraints) (d : TupleDecl) : Prop :=
  ∀ cs₁ c cs₂, o.conjunctions = cs₁ ++ c :: cs₂ → (∀ b ∈ cs₁, ¬ b.Conflicts d) → c.Conflicts d →
    (d.size : Int) = o.arity ∧ ∀ b ∈ cs₁, b.Declares d

theorem conjunctions_setTupleDecl (o : SparseConstraints) (d : TupleDecl) :
    (o.setTupleDecl d).1.conjunctions = (setTupleDecls d o.conjunctions).1 ∧
      (o.setTupleDecl d).2 = (setTupleDecls d o.conjunctions).2 := by
  cases o <;> exact ⟨rfl, rfl⟩

theorem arities_setTupleDecl_iff : (o.setTupleDecl d).1.arities = o.arities ↔ (d.size : Int) = o.arity := by
  cases o with
  | set arity cs => simp [setTupleDecl, arities, SparseConstraints.arity]
  | relation inArity outArity cs =>
    simp only [setTupleDecl, arities, SparseConstraints.arity, Prod.mk.injEq, true_and]
    omega

/-- The object as a set is the set that the other model of `setTupleDecl` gives when nothing is thrown. -/
theorem setTupleDecl_ofSet {s s' : Set} (h : s.setTupleDecl d = .ok s') : (ofSet s).setTupleDecl d = (ofSet s', none) := by
  obtain ⟨cs, hcs, hs'⟩ := bind_eq_ok.1 h
  cases hs'
  obtain ⟨hnot, rfl⟩ := (Outcome.mapM_eq_ok_iff fun c _ c' => Conjunction.setTupleDecl_eq_ok_iff).1 hcs
  simp only [ofSet, setTupleDecl, setTupleDecls_of_not_conflicts hnot]

/-- A call that throws leaves the object as it was exactly where it throws before it has changed anything. -/
theorem setTupleDecl_leavesAsItWas_iff (o : SparseConstraints) (d : TupleDecl) :
    ((o.setTupleDecl d).2 ≠ none → LeftAsItWas o (o.setTupleDecl d).1) ↔ o.ConflictsFirst d := by
  obtain ⟨hcs, hthrows⟩ := conjunctions_setTupleDecl o d
  constructor
  · intro h cs₁ c cs₂ ho hnot hc
    obtain ⟨e, he⟩ := setTupleDecls_of_conflict cs₂ hnot hc
    rw [← ho] at he
    obtain ⟨harities, hdecls, -⟩ := h (by rw [hthrows, he]; nofun)
    refine ⟨arities_setTupleDecl_iff.1 harities, fun b hb => (Conjunction.places_redeclared_iff (hnot b hb)).1 ?_⟩
    rw [hcs, he, ho, List.map_append, List.map_append] at hdecls
    have hmap := List.append_inj_left hdecls (by simp)
    rw [List.map_map] at hmap
    exact List.map_inj_left.1 hmap b hb
  · intro h hne
    by_cases hall : ∀ b ∈ o.conjunctions, ¬ b.Conflicts d
    · rw [hthrows, setTupleDecls_of_not_conflicts hall] at hne
      exact absurd rfl hne
    · obtain ⟨cs₁, c, cs₂, ho, hnot, hc⟩ := exists_first (by simpa only [not_forall, not_not, exists_prop] using hall)
      obtain ⟨hsize, hdeclares⟩ := h cs₁ c cs₂ ho hnot hc
      obtain ⟨e, he⟩ := setTupleDecls_of_conflict cs₂ hnot hc
      rw [← ho] at he
      have hplaces : ∀ b ∈ cs₁, (b.redeclared d).tupleDecl.places = b.tupleDecl.places := fun b hb =>
        (Conjunction.places_redeclared_iff (hnot b hb)).2 (hdeclares b hb)
      refine ⟨arities_setTupleDecl_iff.2 hsize, ?_, fun I => ?_⟩
      · rw [hcs, he, ho, List.map_append, List.map_append, List.map_map]
        exact congrArg (· ++ _) (List.map_congr_left hplaces)
      · rw [hcs, he, ho, denoteUnion_append, denoteUnion_append]
        refine congrArg (· ∪ _) (Set.ext fun t => ?_)
        constructor
        · rintro ⟨b', hb', ht⟩
          obtain ⟨b, hb, rfl⟩ := List.mem_map.1 hb'
          exact ⟨b, hb, denote_of_places (hplaces b hb) rfl rfl I ▸ ht⟩
        · rintro ⟨b, hb, ht⟩
          exact ⟨_, List.mem_map_of_mem hb, denote_of_places (hplaces b hb) rfl rfl I ▸ ht⟩

/-- The set `{ [a, 0] } union { [a, 1] }`, as `substituteInConstraints` leaves it when it puts `0` for `n` in
`{ [a, 0] : n = 0 } union { [a, 1] : n = 0 }`. -/
def lastPlaces : SparseConstraints :=
  .set 2 [⟨[], [], ⟨[⟨false, 0, "a"⟩, ⟨true, 0, "tv1"⟩]⟩, 0⟩, ⟨[], [], ⟨[⟨false, 0, "a"⟩, ⟨true, 1, "tv1"⟩]⟩, 0⟩]

/-- The declaration `[5, 0]` throws at the second conjunction, when the first one has lost all tuples but `[5, 0]`. -/
theorem setTupleDecl_changes : ¬ ∀ (o : SparseConstraints) (d : TupleDecl),
    (o.setTupleDecl d).2 ≠ none → LeftAsItWas o (o.setTupleDecl d).1 := by
  intro h
  have hleft := h lastPlaces ⟨[⟨true, 5, "tv0"⟩, ⟨true, 0, "tv1"⟩]⟩ (by decide)
  have hdecls := congrArg List.head? hleft.decls
  cases hdecls

end SparseConstraints

end IEGen
