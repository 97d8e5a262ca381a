import Mathlib.Data.Set.Lattice
import IEGen.Parts

/-!
# Adding the instantiations that fire

`instantiationSet` reads the original set into ISL and then visits the instantiations `p -> q` one by one: where the set
built so far lies in `p`, it is intersected with `q`; where it lies outside of `q`, it is intersected with the
complement of `p`. The instantiations are visited at most twice.

ISL is a parameter. What is relied on is that its operations are exact on affine sets, and that the gist of a set agrees
with the set on the context.
-/

/-- The points of a space in which ISL computes. -/
abbrev PointSet (Point : Type) : Type := Set Point

namespace IEGen

/-! ## The library -/

/-- The functions of ISL that are called, over the points of the sets: integer tuples with values of the symbols. -/
structure Isl (Point : Type) where
  /-- `isl_set *`, with the null pointer -/
  isl_set : Type
  isl_set_read_from_str : String → isl_set
  isl_set_gist : isl_set → isl_set → isl_set
  isl_set_plain_is_universe : isl_set → Bool
  isl_set_intersect : isl_set → isl_set → isl_set
  isl_set_coalesce : isl_set → isl_set
  isl_set_complement : isl_set → isl_set
  isl_set_is_empty : isl_set → Bool
  isl_set_is_equal : isl_set → isl_set → Bool
  points : isl_set → PointSet Point

variable {Point : Type}

namespace Isl

/-- The documented behaviour that the result rests on: `affine` says which texts denote an affine set and `meaning` which
set that is, `valid` is true of what is not the null pointer. The tests for an empty set and for equality may answer
anything. -/
structure Exact (isl : Isl Point) (affine : String → Prop) (meaning : String → PointSet Point) (valid : isl.isl_set → Prop) :
    Prop where
  read : ∀ str, affine str → valid (isl.isl_set_read_from_str str) ∧
    isl.points (isl.isl_set_read_from_str str) = meaning str
  gist : ∀ set context, valid set → valid context → valid (isl.isl_set_gist set context) ∧
    isl.points (isl.isl_set_gist set context) ∩ isl.points context = isl.points set ∩ isl.points context
  plain_is_universe : ∀ set, valid set → isl.isl_set_plain_is_universe set = true → isl.points set = Set.univ
  intersect : ∀ set₁ set₂, valid set₁ → valid set₂ → valid (isl.isl_set_intersect set₁ set₂) ∧
    isl.points (isl.isl_set_intersect set₁ set₂) = isl.points set₁ ∩ isl.points set₂
  coalesce : ∀ set, valid set → valid (isl.isl_set_coalesce set) ∧
    isl.points (isl.isl_set_coalesce set) = isl.points set
  complement : ∀ set, valid set → valid (isl.isl_set_complement set) ∧
    isl.points (isl.isl_set_complement set) = (isl.points set)ᶜ

end Isl

/-! ## The two rounds -/

/-- The text that is read for constraints: `syms + "{" + supSetParts.tupDecl + " : " + constraints + "}"`. -/
def islText (supSetParts : SrParts) (syms constraints : String) : String :=
  syms ++ "\x7b" ++ supSetParts.tupDecl ++ " : " ++ constraints ++ "\x7d"

section InstantiationSet

variable (isl : Isl Point) (supSetParts : SrParts) (syms : String)

/-- One instantiation: its consequent is added if its antecedent is true of the set, else the complement of the
antecedent if the complement of the consequent is. -/
def addInstantiation (set : isl.isl_set) (it : String × String) : isl.isl_set :=
  let antecedentStr := islText supSetParts syms it.1
  let consequentStr := islText supSetParts syms it.2
  let ant_set := isl.isl_set_gist (isl.isl_set_read_from_str antecedentStr) set
  if isl.isl_set_plain_is_universe ant_set then
    isl.isl_set_coalesce (isl.isl_set_intersect set (isl.isl_set_read_from_str consequentStr))
  else
    let con_set := isl.isl_set_gist (isl.isl_set_complement (isl.isl_set_read_from_str consequentStr)) set
    if isl.isl_set_plain_is_universe con_set then
      isl.isl_set_coalesce
        (isl.isl_set_intersect set (isl.isl_set_complement (isl.isl_set_read_from_str antecedentStr)))
    else set

/-- The rounds over all instantiations, which end early at an empty set or where a round changes nothing. -/
def instantiationRounds (instantiations : List (String × String)) : Nat → isl.isl_set → isl.isl_set → isl.isl_set
  | 0, set, _ => set
  | n + 1, set, old_set =>
    let set := instantiations.foldl (addInstantiation isl supSetParts syms) set
    if isl.isl_set_is_empty set then set
    else if isl.isl_set_is_equal old_set set then set
    else instantiationRounds instantiations n set set

/-- `instantiationSet`, with the instantiations in the order of the visit. -/
def instantiationSet (instantiations : List (String × String)) : isl.isl_set :=
  let origRel := islText supSetParts syms supSetParts.constraints
  let set := isl.isl_set_read_from_str origRel
  instantiationRounds isl supSetParts syms instantiations 2 set set

end InstantiationSet

/-! ## Between the original set and the set with all implications -/

/-- The points at which `p -> q` holds. -/
def implication (p q : PointSet Point) : PointSet Point := {x | x ∈ p → x ∈ q}

/-- The set has lost no point of the original one at which everything in `implied` holds, and has no other. -/
structure Between (orig implied s : PointSet Point) : Prop where
  contains : orig ∩ implied ⊆ s
  within : s ⊆ orig

theorem Between.refl (orig implied : PointSet Point) : Between orig implied orig := ⟨Set.inter_subset_left, subset_rfl⟩

/-- An implication fires directly. -/
theorem Between.direct {orig implied s p q : PointSet Point} (h : Between orig implied s) (hi : implied ⊆ implication p q)
    (hp : s ⊆ p) : Between orig implied (s ∩ q) :=
  ⟨fun _ hx => ⟨h.contains hx, hi hx.2 (hp (h.contains hx))⟩, Set.inter_subset_left.trans h.within⟩

/-- An implication fires through the contrapositive. -/
theorem Between.contrapositive {orig implied s p q : PointSet Point} (h : Between orig implied s)
    (hi : implied ⊆ implication p q) (hq : s ⊆ qᶜ) : Between orig implied (s ∩ pᶜ) :=
  ⟨fun _ hx => ⟨h.contains hx, fun hp => hq (h.contains hx) (hi hx.2 hp)⟩, Set.inter_subset_left.trans h.within⟩

section Exact

variable {isl : Isl Point} {affine : String → Prop} {meaning : String → PointSet Point} {valid : isl.isl_set → Prop}
  {supSetParts : SrParts} {syms : String}

/-- A set whose gist is the universe holds on all of the context. -/
theorem Isl.Exact.subset_of_universe (hisl : isl.Exact affine meaning valid) {set context : isl.isl_set}
    (hset : valid set) (hcontext : valid context)
    (h : isl.isl_set_plain_is_universe (isl.isl_set_gist set context) = true) :
    isl.points context ⊆ isl.points set := by
  obtain ⟨hv, hgist⟩ := hisl.gist set context hset hcontext
  rw [hisl.plain_is_universe _ hv h, Set.univ_inter] at hgist
  exact Set.inter_eq_right.1 hgist.symm

/-- The set built so far. -/
def Reached (isl : Isl Point) (valid : isl.isl_set → Prop) (orig implied : PointSet Point) (set : isl.isl_set) : Prop :=
  valid set ∧ Between orig implied (isl.points set)

/-- The points at which all instantiations hold. -/
def allInstantiations (meaning : String → PointSet Point) (supSetParts : SrParts) (syms : String)
    (instantiations : List (String × String)) : PointSet Point :=
  {x | ∀ it ∈ instantiations,
    x ∈ implication (meaning (islText supSetParts syms it.1)) (meaning (islText supSetParts syms it.2))}

theorem Isl.Exact.reached_intersect (hisl : isl.Exact affine meaning valid) {orig implied s : PointSet Point}
    {set other : isl.isl_set} (hset : valid set) (hother : valid other) (hs : isl.points other = s)
    (h : Between orig implied (isl.points set ∩ s)) :
    Reached isl valid orig implied (isl.isl_set_coalesce (isl.isl_set_intersect set other)) := by
  obtain ⟨hv, hinter⟩ := hisl.intersect set other hset hother
  obtain ⟨hv, hcoalesce⟩ := hisl.coalesce _ hv
  refine ⟨hv, ?_⟩
  rwa [hcoalesce, hinter, hs]

theorem reached_addInstantiation (hisl : isl.Exact affine meaning valid) {orig implied : PointSet Point} {it : String × String}
    (hp : affine (islText supSetParts syms it.1)) (hq : affine (islText supSetParts syms it.2))
    (hi : implied ⊆ implication (meaning (islText supSetParts syms it.1)) (meaning (islText supSetParts syms it.2)))
    {set : isl.isl_set} (h : Reached isl valid orig implied set) :
    Reached isl valid orig implied (addInstantiation isl supSetParts syms set it) := by
  obtain ⟨hset, hbetween⟩ := h
  obtain ⟨hant, hantp⟩ := hisl.read _ hp
  obtain ⟨hcon, hconp⟩ := hisl.read _ hq
  obtain ⟨hcant, hcantp⟩ := hisl.complement _ hant
  obtain ⟨hccon, hcconp⟩ := hisl.complement _ hcon
  unfold addInstantiation
  dsimp only
  split_ifs with h₁ h₂
  · have hsub := hisl.subset_of_universe hant hset h₁
    rw [hantp] at hsub
    exact hisl.reached_intersect hset hcon hconp (hbetween.direct hi hsub)
  · have hsub := hisl.subset_of_universe hccon hset h₂
    rw [hcconp, hconp] at hsub
    rw [hantp] at hcantp
    exact hisl.reached_intersect hset hcant hcantp (hbetween.contrapositive hi hsub)
  · exact ⟨hset, hbetween⟩

/-- One round, over instantiations that are all implied. -/
theorem reached_foldl (hisl : isl.Exact affine meaning valid) {orig implied : PointSet Point} {its : List (String × String)}
    (haff : ∀ it ∈ its, affine (islText supSetParts syms it.1) ∧ affine (islText supSetParts syms it.2))
    (hi : implied ⊆ allInstantiations meaning supSetParts syms its) :
    ∀ {set : isl.isl_set}, Reached isl valid orig implied set →
      Reached isl valid orig implied (its.foldl (addInstantiation isl supSetParts syms) set) := by
  induction its with
  | nil => exact fun h => h
  | cons it its ih =>
    intro set h
    obtain ⟨hit, haff⟩ := List.forall_mem_cons.1 haff
    rw [List.foldl_cons]
    refine ih haff (fun _ hx => (List.forall_mem_cons.1 (hi hx)).2) ?_
    exact reached_addInstantiation hisl hit.1 hit.2 (fun _ hx => (List.forall_mem_cons.1 (hi hx)).1) h

/-- Any number of rounds, wherever they end. -/
theorem reached_instantiationRounds (hisl : isl.Exact affine meaning valid) {orig implied : PointSet Point}
    {its : List (String × String)}
    (haff : ∀ it ∈ its, affine (islText supSetParts syms it.1) ∧ affine (islText supSetParts syms it.2))
    (hi : implied ⊆ allInstantiations meaning supSetParts syms its) (n : Nat) :
    ∀ {set old_set : isl.isl_set}, Reached isl valid orig implied set →
      Reached isl valid orig implied (instantiationRounds isl supSetParts syms its n set old_set) := by
  induction n with
  | zero => exact fun h => h
  | succ n ih =>
    intro set old_set h
    have hround := reached_foldl hisl haff hi h
    unfold instantiationRounds
    dsimp only
    split_ifs
    · exact hround
    · exact hround
    · exact ih hround

/-- The set that is built contains the original set with all implications and is contained in the original set. -/
theorem instantiationSet_between (hisl : isl.Exact affine meaning valid) (supSetParts : SrParts)
    (instantiations : List (String × String)) (syms : String)
    (horig : affine (islText supSetParts syms supSetParts.constraints))
    (haff : ∀ it ∈ instantiations, affine (islText supSetParts syms it.1) ∧ affine (islText supSetParts syms it.2)) :
    valid (instantiationSet isl supSetParts syms instantiations) ∧
    meaning (islText supSetParts syms supSetParts.constraints) ∩
        {x | ∀ it ∈ instantiations, x ∈ meaning (islText supSetParts syms it.1) → x ∈ meaning (islText supSetParts syms it.2)}
      ⊆ isl.points (instantiationSet isl supSetParts syms instantiations) ∧
    isl.points (instantiationSet isl supSetParts syms instantiations) ⊆
      meaning (islText supSetParts syms supSetParts.constraints) := by
  obtain ⟨hv, horig⟩ := hisl.read _ horig
  have hstart : Reached isl valid (meaning (islText supSetParts syms supSetParts.constraints))
      (allInstantiations meaning supSetParts syms instantiations)
      (isl.isl_set_read_from_str (islText supSetParts syms supSetParts.constraints)) := by
    refine ⟨hv, ?_⟩
    rw [horig]
    exact Between.refl _ _
  obtain ⟨hvalid, hbetween⟩ := reached_instantiationRounds hisl haff subset_rfl 2 hstart
  exact ⟨hvalid, hbetween.contains, hbetween.within⟩

end Exact

/-! ## Sets of integers told apart by the sign -/

/-- `[i]` and no constraints -/
def integerParts : SrParts := ⟨"", "\x7b", "[i]", ":", "true", "\x7d"⟩

/-- The sets of integers that contain all or none of the nonnegative ones, and all or none of the others. -/
def signSets : Isl Int where
  isl_set := Option (Bool × Bool)
  isl_set_read_from_str str :=
    if str = "\x7b[i] : true\x7d" then some (true, true)
    else if str = "\x7b[i] : false\x7d" then some (false, false)
    else if str = "\x7b[i] : i >= 0\x7d" then some (true, false)
    else if str = "\x7b[i] : i < 0\x7d" then some (false, true)
    else none
  isl_set_gist set context := set.bind fun s => context.map fun c => (s.1 || !c.1, s.2 || !c.2)
  isl_set_plain_is_universe set := set = some (true, true)
  isl_set_intersect set₁ set₂ := set₁.bind fun s => set₂.map fun t => (s.1 && t.1, s.2 && t.2)
  isl_set_coalesce set := set
  isl_set_complement set := set.map fun s => (!s.1, !s.2)
  isl_set_is_empty set := set = some (false, false)
  isl_set_is_equal set₁ set₂ := set₁ = set₂
  points set := {i | ∃ s, set = some s ∧ (if 0 ≤ i then s.1 else s.2) = true}

theorem mem_points_signSets (s : Bool × Bool) (i : Int) :
    i ∈ signSets.points (some s) ↔ (if 0 ≤ i then s.1 else s.2) = true := by
  constructor
  · rintro ⟨_, heq, h⟩
    rwa [Option.some.inj heq]
  · exact fun h => ⟨s, rfl, h⟩

/-- The sets are exact on the texts that are read. -/
theorem exact_signSets : signSets.Exact (fun str => (signSets.isl_set_read_from_str str).isSome = true)
    (fun str => signSets.points (signSets.isl_set_read_from_str str)) (fun set => set.isSome = true) := by
  have hsome : ∀ set : signSets.isl_set, set.isSome = true → ∃ s, set = some s := fun _ => Option.isSome_iff_exists.1
  refine ⟨fun str h => ⟨h, rfl⟩, fun set context hs hc => ?_, fun set hs hu => ?_, fun set₁ set₂ h₁ h₂ => ?_,
    fun set hs => ⟨hs, rfl⟩, fun set hs => ?_⟩
  · obtain ⟨s, rfl⟩ := hsome set hs
    obtain ⟨c, rfl⟩ := hsome context hc
    refine ⟨rfl, Set.ext fun i => ?_⟩
    change i ∈ signSets.points (some (s.1 || !c.1, s.2 || !c.2)) ∧ _ ↔ i ∈ signSets.points (some s) ∧ _
    simp only [mem_points_signSets]
    grind
  · have heq : set = some (true, true) := by simpa only [signSets, decide_eq_true_eq] using hu
    rw [heq]
    ext i
    simp [mem_points_signSets]
  · obtain ⟨s, rfl⟩ := hsome set₁ h₁
    obtain ⟨t, rfl⟩ := hsome set₂ h₂
    refine ⟨rfl, Set.ext fun i => ?_⟩
    change i ∈ signSets.points (some (s.1 && t.1, s.2 && t.2)) ↔ i ∈ signSets.points (some s) ∧ _
    simp only [mem_points_signSets]
    grind
  · obtain ⟨s, rfl⟩ := hsome set hs
    refine ⟨rfl, Set.ext fun i => ?_⟩
    change i ∈ signSets.points (some (!s.1, !s.2)) ↔ ¬ i ∈ signSets.points (some s)
    simp only [mem_points_signSets]
    grind

/-- `{[i] : true}` with `i < 0 -> false` -/
theorem instantiationSet_between_sign :
    (instantiationSet signSets integerParts "" [("i < 0", "false")] = some (true, false)) ∧
    signSets.points (signSets.isl_set_read_from_str (islText integerParts "" "true")) ∩
        {x | ∀ it ∈ [("i < 0", "false")], x ∈ signSets.points (signSets.isl_set_read_from_str (islText integerParts "" it.1)) →
          x ∈ signSets.points (signSets.isl_set_read_from_str (islText integerParts "" it.2))}
      ⊆ signSets.points (instantiationSet signSets integerParts "" [("i < 0", "false")]) :=
  ⟨rfl, (instantiationSet_between exact_signSets integerParts [("i < 0", "false")] "" (by decide) (by decide)).2.1⟩

end IEGen
