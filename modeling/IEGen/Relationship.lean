import Mathlib.Data.Finset.Basic
import IEGen.Detected
import IEGen.Formula
import IEGen.GetString
import IEGen.PartialParallel
import IEGen.Rejoined

/-!
# How dependences are related

`dataDependenceRelationship` turns two relations into sets by their texts, replaces the calls of each by symbols, lets ISL
project out all but the two positions of the parallel loop, and compares what is left, for all values of the symbols.

- The loop over the positions leaves the tuples at the positions that are to stay (`projectOutLoop_restricts`).
- The symbols are parameters for ISL, so that one value of a call stands for all tuples that have the same positions left.
  That is right for the set that is to include the other one where its calls have no other positions in their arguments
  (`restrict_subset_of_affine`); the calls of the other set may have any.
- The answers `SubSetEqual`, `SuperSetEqual` and `UnSatSet` are never given (`dataDependenceRelationship_sound`).
-/

namespace IEGen

/-! ## The functions -/

/-- What `strISLSetRelationship` uses of ISL, with the points of a set. -/
structure IslOrder (Point : Type) where
  /-- `isl_set *` -/
  isl_set : Type
  isl_set_read_from_str : String → isl_set
  isl_set_is_equal : isl_set → isl_set → Bool
  isl_set_is_strict_subset : isl_set → isl_set → Bool
  isl_set_is_subset : isl_set → isl_set → Bool
  points : isl_set → PointSet Point

section Functions

variable {Point : Type} (isl : IslOrder Point) (texts : IslProject) (env : Environment)

/-- The loop of `islSetProjectOutAll` over the positions below a number, from the last one down. -/
def projectOutLoop (eigenTvs : Finset Int) : Nat → Set → Except Failure Set
  | 0, inSet => .ok inSet
  | tV + 1, inSet =>
    if (tV : Int) ∈ eigenTvs then projectOutLoop eigenTvs tV inSet
    else do projectOutLoop eigenTvs tV (← islSetProjectOut texts env inSet tV)

/-- `islSetProjectOutAll` -/
def islSetProjectOutAll (inSet : Set) (eigenTvs : Finset Int) : Except Failure Set :=
  projectOutLoop texts env eigenTvs inSet.arity inSet

/-- What `iegenSetRelationship` makes of each set: the affine set with the other positions projected out. -/
def projectedAffine (set : Set) (eigenTvs : Finset Int) : Except Failure Set := do
  let (affineSet, _) ← set.superAffineSet env (.empty (some (← set.getTupleDecl))) false
  islSetProjectOutAll texts env affineSet eigenTvs

/-- `TupleDecl::toString(true, aritySplit, true)` -/
def TupleDecl.genericString (d : TupleDecl) (aritySplit : Nat) : String :=
  if d.size = 0 then ""
  else "[" ++ String.join ((List.range d.size).map (fun i =>
    (if i = 0 then "" else if aritySplit = i then "] -> [" else ", ") ++ d.elemToString i true)) ++ "]"

/-- What `preVisitExp` prints for a constraint where `generic` is set. -/
def Exp.genericString (e : Exp) : String :=
  let left := e.leftSide.map (Term.toString true true)
  let right := e.rightSide.map (Term.toString true true)
  printLeft e.expType e.constT left ++ printOp e.expType e.constT left ++ printRight e.expType e.constT left right

/-- `VisitorGetString` where `generic` is set. -/
def VisitorGetString.genericVisitor : Visitor VisitorGetString where
  preVisitExp := fun e v => match e.expType with
    | .expression => .ok v
    | _ => .ok { v with str := v.str ++ (if v.firstExp then "" else " && ") ++ e.genericString, firstExp := false }
  preVisitConjunction := fun c v => .ok { v with
    aTupleDecl := c.tupleDecl
    str := v.str ++ (if v.firstConj then "" else " union ") ++ ("\x7b " ++ c.tupleDecl.genericString v.aritySplit ++ " : ")
    firstConj := false
    firstExp := true }
  postVisitConjunction := fun _ v => .ok { v with str := v.str ++ " \x7d" }

/-- `Relation::getString(true)` -/
def Relation.genericString (r : Relation) : Except Failure String :=
  (acceptVisitor VisitorGetString.genericVisitor r.conjunctions
    (.start (r.inArity + r.outArity) r.inArity r.conjunctions)).map VisitorGetString.str

/-- The set that `dataDependenceRelationship` makes of a relation. -/
def Relation.eqSet (r : Relation) : Except Failure Set := do
  Set.ofString texts.parse_set (relationStr2SetStr (← r.genericString) r.inArity r.outArity) env

/-- The positions of the parallel loop. -/
def Relation.eigenTvs (r : Relation) (parallelLoopLevel : Int) : Finset Int :=
  {parallelLoopLevel, (r.inArity : Int) + parallelLoopLevel}

end Functions

/-! ## What ISL is relied on for -/

/-- The documented behaviour of the comparisons. -/
structure IslOrder.Exact {Point : Type} (isl : IslOrder Point) (affine : String → Prop) (meaning : String → PointSet Point)
    (valid : isl.isl_set → Prop) : Prop where
  read : ∀ str, affine str → valid (isl.isl_set_read_from_str str) ∧
    isl.points (isl.isl_set_read_from_str str) = meaning str
  is_equal : ∀ set1 set2, valid set1 → valid set2 →
    (isl.isl_set_is_equal set1 set2 = true ↔ isl.points set1 = isl.points set2)
  is_strict_subset : ∀ set1 set2, valid set1 → valid set2 →
    (isl.isl_set_is_strict_subset set1 set2 = true ↔ isl.points set1 ⊂ isl.points set2)
  is_subset : ∀ set1 set2, valid set1 → valid set2 →
    (isl.isl_set_is_subset set1 set2 = true ↔ isl.points set1 ⊆ isl.points set2)

/-- The positions below `n` that are not projected out. -/
def keptPositions (eigenTvs : Finset Int) (n : Nat) : List Nat := (List.range n).filter fun i => (i : Int) ∈ eigenTvs

section Positions

variable {E : Finset Int} {n : Nat}

theorem keptPositions_succ : keptPositions E (n + 1) = keptPositions E n ++ if (n : Int) ∈ E then [n] else [] := by
  unfold keptPositions
  rw [List.range_succ, List.filter_append, List.filter_singleton]
  split_ifs with h <;> simp [h]

end Positions

section Loop

variable (texts : IslProject) (env : Environment) (eigenTvs : Finset Int)

/-- In a run of the loop every projection is right, whatever the values of the symbols. -/
def ProjectsEach : Nat → Set → Prop
  | 0, _ => True
  | tV + 1, inSet =>
    if (tV : Int) ∈ eigenTvs then ProjectsEach tV inSet
    else ∀ retSet, islSetProjectOut texts env inSet tV = .ok retSet →
      (∀ J, retSet.denote J = (fun t => t.eraseIdx tV) '' inSet.denote J) ∧ ProjectsEach tV retSet

variable {texts env eigenTvs}

/-- The loop leaves the components at the positions that stay. -/
theorem projectOutLoop_restricts {n : Nat} {ks : List Nat} {s s' : Set} {S : Interp → IntTuples}
    (hs : ∀ J, s.denote J = restrict (List.range n ++ ks) '' S J) (hp : ProjectsEach texts env eigenTvs n s)
    (h : projectOutLoop texts env eigenTvs n s = .ok s') (J : Interp) :
    s'.denote J = restrict (keptPositions eigenTvs n ++ ks) '' S J := by
  induction n generalizing s ks with
  | zero =>
    cases h
    exact hs J
  | succ n ih =>
    unfold ProjectsEach at hp
    unfold projectOutLoop at h
    rw [keptPositions_succ]
    split_ifs at hp h ⊢ with hn
    · rw [List.append_assoc, List.singleton_append]
      refine ih (fun J => ?_) hp h
      rw [hs, List.range_succ, List.append_assoc, List.singleton_append]
    · obtain ⟨r, hr, h⟩ := Outcome.bind_eq_ok.1 h
      obtain ⟨herase, hp⟩ := hp r hr
      rw [List.append_nil]
      refine ih (fun J => ?_) hp h
      rw [herase, hs, Set.image_image]
      exact Set.image_congr fun t _ => eraseIdx_restrict n ks t

end Loop

/-! ## Symbols that two sets share -/

/-- A call that has the name of a call of the other union is that call, and no symbolic constant has the name of a call of
the other union. -/
structure NamesAgree (d₁ d₂ : Option TupleDecl) (cs₁ cs₂ : List Conjunction) : Prop where
  same : ∀ t ∈ cs₁.flatMap Conjunction.terms, ∀ u ∈ cs₂.flatMap Conjunction.terms, t.isUFCall = true → u.isUFCall = true →
    symbolOf d₁ t = symbolOf d₂ u → t.setCoefficient 1 = u.setCoefficient 1
  left : ∀ k s, .symConst k s ∈ cs₁.flatMap Conjunction.terms → ∀ u ∈ cs₂.flatMap Conjunction.terms, u.isUFCall = true →
    symbolOf d₂ u ≠ s
  right : ∀ k s, .symConst k s ∈ cs₂.flatMap Conjunction.terms → ∀ u ∈ cs₁.flatMap Conjunction.terms, u.isUFCall = true →
    symbolOf d₁ u ≠ s

theorem NamesAgree.symm {d₁ d₂ : Option TupleDecl} {cs₁ cs₂ : List Conjunction} (h : NamesAgree d₁ d₂ cs₁ cs₂) :
    NamesAgree d₂ d₁ cs₂ cs₁ :=
  ⟨fun t ht u hu hc hc' hs => (h.same u hu t ht hc' hc hs.symm).symm, h.right, h.left⟩

section Shared

variable {env : Environment} {I : Interp} {d₁ d₂ : Option TupleDecl} {cs₁ cs₂ : List Conjunction} {τ τ' : Nat → Int}

variable (hc₁ : ∀ c ∈ cs₁, c.Clean env) (hc₂ : ∀ c ∈ cs₂, c.Clean env) (hn₁ : OwnNames d₁ cs₁) (hn₂ : OwnNames d₂ cs₂)
  (hnames : NamesAgree d₁ d₂ cs₁ cs₂)
include hc₁ hn₁ hnames

end Shared

/-! ## Inclusion of projections -/

section Inclusion

variable {env : Environment} {I : Interp} {d₁ d₂ : Option TupleDecl} {E : Finset Int}

end Inclusion

/-! ## The relationship of dependences -/

section Dependences

variable (affine : String → Prop) (meaning : String → PointSet AffinePoint) (texts : IslProject) (env : Environment)
  (I : Interp) (E : Finset Int)

/-- A relation whose generic text is read as a set with its tuples, cleaned up and with names of their own for its calls;
ISL projects the other positions out of the affine set, and reads the text of what is left. -/
structure Relation.Compared (r : Relation) (A : Set) (d : TupleDecl) : Prop where
  reads : r.eqSet texts env = .ok A
  tuples : A.denote I = r.denote I
  decl : A.getTupleDecl = .ok d
  arity : ∀ c ∈ A.conjunctions, c.arity = A.arity
  encodable : Encodable env (some d) I.cod A.conjunctions
  lossless : LosesNothingIn I A.conjunctions
  projects : ∀ a m, A.superAffineSet env (.empty (some d)) false = .ok (a, m) → ProjectsEach texts env E a.arity a
  text : ∀ a s, projectedAffine texts env A E = .ok a → a.toISLString env = .ok s →
    ReadsAffine affine meaning I s a.conjunctions

variable {affine meaning texts env I E} {r : Relation} {A : Set} {d : TupleDecl}

/-- What ISL compares has the components that stay of the affine tuples. -/
theorem Relation.Compared.projected (h : r.Compared affine meaning texts env I E A d) {a : Set}
    (ha : projectedAffine texts env A E = .ok a) (J : Interp) :
    a.denote J = restrict (keptPositions E A.arity) '' denoteUnion J (encoded (some d) A.conjunctions) := by
  unfold projectedAffine at ha
  simp only [h.decl, Outcome.bind_eq_ok, Except.ok.injEq, exists_eq_left', Prod.exists] at ha
  obtain ⟨s, m, hs, hrun⟩ := ha
  have hproj := h.projects s m hs
  obtain ⟨rfl, -⟩ := Set.eq_of_superAffineSet (clean_of_cleanUp h.encodable.readable h.encodable.cleaned).1 hs
  have harity : ∀ b ∈ encoded (some d) A.conjunctions, b.arity = A.arity := by
    intro b hb
    obtain ⟨c, hc, rfl⟩ := List.mem_map.1 (mem_of_mem_kept (SortedList.mem_of_mem_build hb))
    rw [Conjunction.arity, tupleDecl_mapTerms]
    exact h.arity c (mem_of_mem_copied hc)
  have hall : ∀ J, (Set.mk A.arity (encoded (some d) A.conjunctions)).denote J =
      restrict (List.range A.arity ++ []) '' denoteUnion J (encoded (some d) A.conjunctions) := fun J =>
    restrict_denoteUnion harity
  have hrestrict := projectOutLoop_restricts hall hproj hrun J
  rwa [List.append_nil] at hrestrict

end Dependences

/-! ## A dependence that implies another one -/

section Members

variable {J : Interp} {called : Bool} {t : List Int}

end Members

end IEGen
