import IEGen.Conjunction
import IEGen.Lib.Outcome
import Mathlib.Data.List.ProdSigma

/-!
# Union and intersection

`Set::Union`, `Relation::Union`, `Set::Intersect` and `Relation::Intersect` add one conjunction after the other to the
union they return. What `addConjunction` takes for the placeholder can be a conjunction of an operand that has no
constraint but the constants of its declaration: of a list of conjunctions it keeps those from the first with a
constraint on, or the last (`kept`), and the others are replaced (`replaced`).

* `Union` has the tuples of both operands iff the replaced conjunctions have none that the kept ones lack.
* `Intersect` has the common tuples iff, in addition, the declared constants of the second operand cut nothing off and
  (for sets) neither operand is empty.
-/

namespace IEGen

/-! ## The operations -/

namespace Set

/-- `Set(int arity)`: all tuples of the arity. -/
def ofArity (arity : Nat) : Set :=
  ⟨arity, addConjunction [] (.ofTupleDecl (.sDefaultTupleDecl arity))⟩

/-- `Set::Union` -/
def Union (s rhs : Set) : Except Failure Set :=
  if rhs.arity ≠ s.arity then .error (.assertException "Set::Union: mismatched arities")
  else
    -- the default conjunction goes before the conjunctions of the operands come
    let result := dropPlaceholder (ofArity s.arity).conjunctions
    .ok ⟨s.arity, rhs.conjunctions.foldl addConjunction (s.conjunctions.foldl addConjunction result)⟩

/-- `Set::Intersect` -/
def Intersect (s rhs : Set) : Except Failure Set :=
  if rhs.arity ≠ s.arity then .error (.assertException "Set::Intersect: mismatched arities")
  else .ok ⟨s.arity, s.conjunctions.foldl (fun result c =>
    rhs.conjunctions.foldl (fun result d => addConjunction result (c.Intersect d)) result)
    (ofArity s.arity).conjunctions⟩

/-- The integer tuples of a set. -/
def denote (I : Interp) (s : Set) : IntTuples := denoteUnion I s.conjunctions

def readable (s : Set) : Bool := s.conjunctions.all Conjunction.readable

end Set

namespace Relation

/-- `Relation(int inArity, int outArity)`, which starts without conjunctions. -/
def ofArity (inArity outArity : Nat) : Relation := ⟨inArity, outArity, []⟩

/-- `Relation::addConjunction`, which checks the input arity first. -/
def addConjunction (inArity : Nat) (cs : List Conjunction) (c : Conjunction) : Except Failure (List Conjunction) :=
  if c.inArity ≠ inArity then .error (.assertException "Relation::addConjunction: mismatched arities")
  else .ok (IEGen.addConjunction cs c)

/-- What `addConjunction` checks of every conjunction. -/
def wellFormed (r : Relation) : Bool := r.conjunctions.all (fun c => c.inArity == r.inArity)

/-- `Relation::Union` -/
def Union (r rhs : Relation) : Except Failure Relation :=
  if rhs.inArity ≠ r.inArity ∨ rhs.outArity ≠ r.outArity then
    .error (.assertException "Relation::Union: mismatched arities")
  else do
    let result ← r.conjunctions.foldlM (addConjunction r.inArity) (ofArity r.inArity r.outArity).conjunctions
    .ok ⟨r.inArity, r.outArity, ← rhs.conjunctions.foldlM (addConjunction r.inArity) result⟩

/-- `Relation::Intersect`, with the text of `Relation::Union` in its exception. -/
def Intersect (r rhs : Relation) : Except Failure Relation :=
  if rhs.inArity ≠ r.inArity ∨ rhs.outArity ≠ r.outArity then
    .error (.assertException "Relation::Union: mismatched arities")
  else do
    .ok ⟨r.inArity, r.outArity, ← r.conjunctions.foldlM (fun result c =>
      rhs.conjunctions.foldlM (fun result d => addConjunction r.inArity result (c.Intersect d)) result)
      (ofArity r.inArity r.outArity).conjunctions⟩

/-- The integer tuples of a relation, inputs before outputs. -/
def denote (I : Interp) (r : Relation) : IntTuples := denoteUnion I r.conjunctions

def readable (r : Relation) : Bool := r.conjunctions.all Conjunction.readable

end Relation

/-! ## What a union keeps -/

section Kept

variable {α β : Type*} (has : α → Bool)

/-- What stays of a list when its elements are added in turn; `has` tells which have a constraint. -/
def kept : List α → List α
  | c :: d :: cs => if has c then c :: d :: cs else kept (d :: cs)
  | cs => cs

/-- What gives way to the next element: all without a constraint before the first with one, or before the last. -/
def replaced : List α → List α
  | c :: d :: cs => if has c then [] else c :: replaced (d :: cs)
  | _ => []

theorem replaced_append_kept : ∀ cs : List α, replaced has cs ++ kept has cs = cs
  | [] | [_] => rfl
  | c :: d :: cs => by
    simp only [replaced, kept]
    split_ifs
    · rfl
    · rw [List.cons_append, replaced_append_kept (d :: cs)]

theorem has_of_mem_replaced {c : α} : ∀ {cs : List α}, c ∈ replaced has cs → has c = false
  | [], h | [_], h => by simp [replaced] at h
  | d :: e :: cs, h => by
    simp only [replaced] at h
    split_ifs at h with hd
    · simp at h
    · rcases List.mem_cons.1 h with rfl | h
      · simpa using hd
      · exact has_of_mem_replaced h

theorem kept_ne_nil : ∀ {cs : List α}, cs ≠ [] → kept has cs ≠ []
  | [_], _ => by simp [kept]
  | c :: d :: cs, _ => by
    simp only [kept]
    split_ifs
    · simp
    · exact kept_ne_nil (by simp)

variable {has} in
theorem mem_kept_of_has {c : α} {cs : List α} (hc : c ∈ cs) (h : has c = true) : c ∈ kept has cs := by
  rw [← replaced_append_kept has cs, List.mem_append] at hc
  rcases hc with hr | hk
  · rw [has_of_mem_replaced has hr] at h
    cases h
  · exact hk

theorem kept_map (f : β → α) : ∀ cs : List β, kept has (cs.map f) = (kept (has ∘ f) cs).map f
  | [] | [_] => rfl
  | c :: d :: cs => by
    have ih := kept_map f (d :: cs)
    simp only [List.map_cons] at ih
    simp only [List.map_cons, kept, Function.comp_apply]
    split_ifs
    · rfl
    · exact ih

end Kept

section Run

variable {I : Interp}

@[simp] theorem mem_denoteUnion_cons {c : Conjunction} {cs : List Conjunction} {t : List Int} :
    t ∈ denoteUnion I (c :: cs) ↔ t ∈ c.denote I ∨ t ∈ denoteUnion I cs := by
  simp [denoteUnion]

@[simp] theorem mem_denoteUnion_append {cs ds : List Conjunction} {t : List Int} :
    t ∈ denoteUnion I (cs ++ ds) ↔ t ∈ denoteUnion I cs ∨ t ∈ denoteUnion I ds := by
  induction cs with
  | nil => simp [denoteUnion]
  | cons c cs ih => simp only [List.cons_append, mem_denoteUnion_cons, ih, or_assoc]

theorem denoteUnion_append (cs ds : List Conjunction) :
    denoteUnion I (cs ++ ds) = denoteUnion I cs ∪ denoteUnion I ds := Set.ext fun _ => mem_denoteUnion_append

theorem dropPlaceholder_of_two_le {cs : List Conjunction} (h : 2 ≤ cs.length) : dropPlaceholder cs = cs := by
  rcases cs with _ | ⟨c, _ | ⟨d, cs⟩⟩
  · rfl
  · simp at h
  · rfl

/-- Adding to a union from which nothing is taken out leaves such a union. -/
theorem dropPlaceholder_addConjunction {cs : List Conjunction} (h : dropPlaceholder cs = cs) (hne : cs ≠ [])
    (c : Conjunction) : dropPlaceholder (addConjunction cs c) = addConjunction cs c := by
  rcases cs with _ | ⟨d, _ | ⟨e, cs⟩⟩
  · exact absurd rfl hne
  · simp only [addConjunction, h, SortedList.insertUnique]
    split_ifs
    · exact h
    · rfl
    · rfl
  · exact dropPlaceholder_of_two_le (le_trans (by simp) (SortedList.length_le_insertUnique (d :: e :: cs)))

/-- Adding conjunctions to a union from which nothing is taken out adds their tuples. -/
theorem mem_denoteUnion_foldl_of_settled {t : List Int} : ∀ {ds cs : List Conjunction}, dropPlaceholder cs = cs →
    cs ≠ [] → (∀ c ∈ cs, c.readable = true) → (∀ d ∈ ds, d.readable = true) →
    (t ∈ denoteUnion I (ds.foldl addConjunction cs) ↔ t ∈ denoteUnion I cs ∨ t ∈ denoteUnion I ds)
  | [], cs, _, _, _, _ => by simp [denoteUnion]
  | d :: ds, cs, h, hne, hcs, hds => by
    have hd := hds d List.mem_cons_self
    have hcs' : ∀ c ∈ addConjunction cs d, c.readable = true := by
      intro c hc
      rcases mem_addConjunction hc with rfl | hc
      · exact hd
      · exact hcs c hc
    rw [List.foldl_cons, mem_denoteUnion_foldl_of_settled (dropPlaceholder_addConjunction h hne d)
      (SortedList.insertUnique_ne_nil _ _ _) hcs' (fun e he => hds e (List.mem_cons_of_mem _ he)),
      mem_denoteUnion_addConjunction hd hcs, h, mem_denoteUnion_cons]
    tauto

theorem mem_denoteUnion_foldl_singleton {t : List Int} : ∀ {ds : List Conjunction} {c : Conjunction},
    (∀ d ∈ c :: ds, d.readable = true) →
    (t ∈ denoteUnion I (ds.foldl addConjunction [c]) ↔ t ∈ denoteUnion I (kept Conjunction.hasConstraints (c :: ds)))
  | [], c, _ => by simp [kept]
  | d :: ds, c, hr => by
    simp only [kept]
    split_ifs with hk
    · rw [mem_denoteUnion_foldl_of_settled (by simp [dropPlaceholder, hk]) (by simp) (by simp [hr c])
        (fun e he => hr e (List.mem_cons_of_mem _ he))]
      simp [denoteUnion]
    · have hd : addConjunction [c] d = [d] := by simp [addConjunction, dropPlaceholder, hk, SortedList.insertUnique]
      rw [List.foldl_cons, hd]
      exact mem_denoteUnion_foldl_singleton (fun e he => hr e (List.mem_cons_of_mem _ he))

/-- The run of `addConjunction` over a list has the tuples of what it keeps of the list. -/
theorem mem_denoteUnion_foldl {ds : List Conjunction} (hr : ∀ d ∈ ds, d.readable = true) {t : List Int} :
    t ∈ denoteUnion I (ds.foldl addConjunction []) ↔ t ∈ denoteUnion I (kept Conjunction.hasConstraints ds) := by
  cases ds with
  | nil => simp [kept]
  | cons c ds => exact mem_denoteUnion_foldl_singleton hr

end Run

theorem Relation.wellFormed_iff {r : Relation} : r.wellFormed = true ↔ ∀ c ∈ r.conjunctions, c.inArity = r.inArity := by
  simp [Relation.wellFormed]

/-- Conjunctions of the right arity are all added. -/
theorem Relation.foldlM_addConjunction {n : Nat} {cs : List Conjunction} (h : ∀ c ∈ cs, c.inArity = n)
    (acc : List Conjunction) : cs.foldlM (addConjunction n) acc = .ok (cs.foldl IEGen.addConjunction acc) := by
  induction cs generalizing acc with
  | nil => rfl
  | cons c cs ih =>
    obtain ⟨hc, hcs⟩ := List.forall_mem_cons.1 h
    rw [List.foldlM_cons, addConjunction, if_neg (not_not.2 hc)]
    exact ih hcs _

/-! ## Union -/

/-- The tuples of the conjunctions that give way are tuples of conjunctions that stay. -/
def LosesNothing (cs : List Conjunction) : Prop :=
  ∀ I, ∀ c ∈ replaced Conjunction.hasConstraints cs, ∀ t, c.tupleDecl.Admits t →
    t ∈ denoteUnion I (kept Conjunction.hasConstraints cs)

/-- The same in one interpretation. -/
def LosesNothingIn (I : Interp) (cs : List Conjunction) : Prop :=
  ∀ c ∈ replaced Conjunction.hasConstraints cs, ∀ t, c.tupleDecl.Admits t →
    t ∈ denoteUnion I (kept Conjunction.hasConstraints cs)

theorem mem_denote_of_unconstrained {I : Interp} {c : Conjunction} (h : c.hasConstraints = false) {t : List Int} :
    t ∈ c.denote I ↔ c.tupleDecl.Admits t := by
  obtain ⟨heqs, hineqs⟩ := hasConstraints_eq_false.1 h
  simp [Conjunction.denote, Conjunction.Holds, heqs, hineqs]

/-- What stays has all tuples of the list iff the conjunctions that give way have none of their own. -/
theorem kept_denote_iff {I : Interp} {cs : List Conjunction} :
    denoteUnion I (kept Conjunction.hasConstraints cs) = denoteUnion I cs ↔ LosesNothingIn I cs := by
  have hcs : ∀ t, t ∈ denoteUnion I cs ↔ t ∈ denoteUnion I (replaced Conjunction.hasConstraints cs) ∨
      t ∈ denoteUnion I (kept Conjunction.hasConstraints cs) := by
    intro t
    rw [← mem_denoteUnion_append, replaced_append_kept]
  constructor
  · intro h c hc t ht
    rw [h, hcs]
    exact .inl ⟨c, hc, (mem_denote_of_unconstrained (has_of_mem_replaced _ hc)).2 ht⟩
  · intro h
    ext t
    rw [hcs]
    refine ⟨.inr, fun ht => ht.elim ?_ id⟩
    rintro ⟨c, hc, ht⟩
    exact h c hc t ((mem_denote_of_unconstrained (has_of_mem_replaced _ hc)).1 ht)

/-- The conjunctions added in turn have all tuples of the list iff those that give way have none of their own. -/
theorem foldl_denote_iff {cs : List Conjunction} (hr : ∀ c ∈ cs, c.readable = true) :
    (∀ I, denoteUnion I (cs.foldl addConjunction []) = denoteUnion I cs) ↔ LosesNothing cs := by
  refine forall_congr' fun I => ?_
  have h : denoteUnion I (cs.foldl addConjunction []) = denoteUnion I (kept Conjunction.hasConstraints cs) :=
    Set.ext fun t => mem_denoteUnion_foldl hr
  rw [h]
  exact kept_denote_iff

theorem dropPlaceholder_ofArity (n : Nat) : dropPlaceholder (Set.ofArity n).conjunctions = [] := rfl

theorem Set.Union_denote_iff {s rhs : Set} (hs : s.readable = true) (hr : rhs.readable = true)
    (ha : s.arity = rhs.arity) : ∃ u, s.Union rhs = .ok u ∧ u.arity = s.arity ∧
      ((∀ I, u.denote I = s.denote I ∪ rhs.denote I) ↔ LosesNothing (s.conjunctions ++ rhs.conjunctions)) := by
  have hcs : ∀ c ∈ s.conjunctions ++ rhs.conjunctions, c.readable = true := by
    simp only [Set.readable, List.all_eq_true] at hs hr
    exact List.forall_mem_append.2 ⟨hs, hr⟩
  refine ⟨⟨s.arity, rhs.conjunctions.foldl addConjunction (s.conjunctions.foldl addConjunction [])⟩, ?_, rfl, ?_⟩
  · simp only [Set.Union, ha, dropPlaceholder_ofArity, ne_eq, not_true, if_false]
  · rw [← foldl_denote_iff hcs, List.foldl_append]
    simp only [Set.denote, denoteUnion_append]

theorem Relation.Union_denote_iff {r rhs : Relation} (hr : r.readable = true) (hr' : rhs.readable = true)
    (hw : r.wellFormed = true) (hw' : rhs.wellFormed = true) (hi : r.inArity = rhs.inArity)
    (ho : r.outArity = rhs.outArity) : ∃ u, r.Union rhs = .ok u ∧
      u.inArity = r.inArity ∧ u.outArity = r.outArity ∧
      ((∀ I, u.denote I = r.denote I ∪ rhs.denote I) ↔ LosesNothing (r.conjunctions ++ rhs.conjunctions)) := by
  have hcs : ∀ c ∈ r.conjunctions ++ rhs.conjunctions, c.readable = true := by
    simp only [Relation.readable, List.all_eq_true] at hr hr'
    exact List.forall_mem_append.2 ⟨hr, hr'⟩
  refine ⟨⟨r.inArity, r.outArity,
    rhs.conjunctions.foldl IEGen.addConjunction (r.conjunctions.foldl IEGen.addConjunction [])⟩, ?_, rfl, rfl, ?_⟩
  · rw [wellFormed_iff] at hw hw'
    rw [hi] at hw
    simp only [Relation.Union, Relation.ofArity, hi, ho, ne_eq, not_true, or_self, if_false, foldlM_addConjunction hw,
      foldlM_addConjunction hw', Outcome.bind_eq_ok, Except.ok.injEq, exists_eq_left']
  · rw [← foldl_denote_iff hcs, List.foldl_append]
    simp only [Relation.denote, denoteUnion_append]

/-- `Union`, of sets and of relations, has the tuples of both operands iff no tuple is lost with a conjunction that
gave way. -/
theorem Union_denotes (s s' : Set) (r r' : Relation) (hs : s.readable = true) (hs' : s'.readable = true)
    (ha : s.arity = s'.arity) (hr : r.readable = true) (hr' : r'.readable = true) (hw : r.wellFormed = true)
    (hw' : r'.wellFormed = true) (hi : r.inArity = r'.inArity) (ho : r.outArity = r'.outArity) :
    (∃ u, s.Union s' = .ok u ∧ u.arity = s.arity ∧
      ((∀ I, u.denote I = s.denote I ∪ s'.denote I) ↔ LosesNothing (s.conjunctions ++ s'.conjunctions))) ∧
    ∃ u, r.Union r' = .ok u ∧ u.inArity = r.inArity ∧ u.outArity = r.outArity ∧
      ((∀ I, u.denote I = r.denote I ∪ r'.denote I) ↔ LosesNothing (r.conjunctions ++ r'.conjunctions)) :=
  ⟨Set.Union_denote_iff hs hs' ha, Relation.Union_denote_iff hr hr' hw hw' hi ho⟩

/-- `{ [n] }` -/
def pointSet (n : Int) : Set := ⟨1, [.ofTupleDecl ⟨[⟨true, n, "tv0"⟩]⟩]⟩

/-- `[i] : i - n = 0` -/
def symbolConj : Conjunction := ⟨[.mk .equality [.tupleVar 1 0, .symConst (-1) "n"]], [], ⟨[⟨false, 0, "i"⟩]⟩, 0⟩

/-- `{ [i] : i - n = 0 }` -/
def symbolSet : Set := ⟨1, [symbolConj]⟩

theorem denote_pointSet (n : Int) (I : Interp) : (pointSet n).denote I = {[n]} := by
  ext t
  have hd : t ∈ (pointSet n).denote I ↔ (TupleDecl.mk [⟨true, n, "tv0"⟩]).Admits t := by
    rw [Set.denote, pointSet, mem_denoteUnion_cons, mem_denote_of_unconstrained rfl]
    simp [denoteUnion, Conjunction.ofTupleDecl]
  rw [hd, Set.mem_singleton_iff]
  constructor
  · rintro ⟨hl, hc⟩
    obtain ⟨x, rfl⟩ := List.length_eq_one_iff.1 hl
    rw [← show x = n from hc 0 Nat.one_pos rfl]
  · rintro rfl
    refine ⟨rfl, fun i hi _ => ?_⟩
    obtain rfl : i = 0 := Nat.lt_one_iff.1 hi
    rfl

/-- The point `{[0]}` gives way to the point `{[1]}`. -/
theorem Union_points : ∃ u, (pointSet 0).Union (pointSet 1) = .ok u ∧
    ∀ I, u.denote I ≠ (pointSet 0).denote I ∪ (pointSet 1).denote I := by
  refine ⟨pointSet 1, rfl, fun I h => ?_⟩
  rw [denote_pointSet, denote_pointSet] at h
  have h0 : [0] ∈ ({[1]} : IntTuples) := h ▸ .inl rfl
  simp at h0

theorem Union_denotes_symbol : ∃ u, symbolSet.Union (pointSet 1) = .ok u ∧
    ∀ I, u.denote I = symbolSet.denote I ∪ (pointSet 1).denote I := by
  obtain ⟨⟨u, hu, -, h⟩, -⟩ := Union_denotes symbolSet (pointSet 1) (.ofArity 1 1) (.ofArity 1 1) (by decide)
    (by decide) rfl rfl rfl rfl rfl rfl rfl
  exact ⟨u, hu, h.2 (by simp [LosesNothing, replaced, symbolSet, symbolConj, pointSet, Conjunction.hasConstraints])⟩

/-! ## Intersection -/

/-- The intersection of a pair of conjunctions has a constraint. -/
def constrains (p : Conjunction × Conjunction) : Bool :=
  p.1.hasConstraints || p.2.equalities.any (fun e => !e.normalizeForEquality.equalsZero) ||
    p.2.inequalities.any (fun e => !e.equalsZero)

theorem hasConstraints_addEquality (c : Conjunction) (e : Exp) :
    (c.addEquality e).hasConstraints = (c.hasConstraints || !e.normalizeForEquality.equalsZero) := by
  simp only [Conjunction.addEquality]
  split_ifs with h
  · simp [h]
  · have := List.length_pos_of_ne_nil
      (SortedList.insertUnique_ne_nil Exp.lt e.normalizeForEquality.setEquality c.equalities)
    have : Conjunction.hasConstraints { c with
        equalities := SortedList.insertUnique Exp.lt e.normalizeForEquality.setEquality c.equalities } = true := by
      simp only [Conjunction.hasConstraints, decide_eq_true_eq]
      omega
    rw [this]
    simp [h]

theorem hasConstraints_addInequality (c : Conjunction) (e : Exp) :
    (c.addInequality e).hasConstraints = (c.hasConstraints || !e.equalsZero) := by
  simp only [Conjunction.addInequality]
  split_ifs with h
  · simp [h]
  · have := List.length_pos_of_ne_nil
      (SortedList.insertUnique_ne_nil Exp.lt e.setInequality c.inequalities)
    have : Conjunction.hasConstraints { c with
        inequalities := SortedList.insertUnique Exp.lt e.setInequality c.inequalities } = true := by
      simp only [Conjunction.hasConstraints, decide_eq_true_eq]
      omega
    rw [this]
    simp [h]

theorem hasConstraints_intersect (c d : Conjunction) : (c.Intersect d).hasConstraints = constrains (c, d) := by
  have fold : ∀ {add : Conjunction → Exp → Conjunction} {f : Exp → Bool},
      (∀ c e, (add c e).hasConstraints = (c.hasConstraints || f e)) → ∀ (es : List Exp) (c : Conjunction),
      (es.foldl add c).hasConstraints = (c.hasConstraints || es.any f) := by
    intro add f hadd es
    induction es with
    | nil => simp
    | cons e es ih => intro c; rw [List.foldl_cons, ih, hadd, List.any_cons, Bool.or_assoc]
  rw [Conjunction.Intersect, fold hasConstraints_addInequality, fold hasConstraints_addEquality, constrains]

theorem inArity_intersect (c d : Conjunction) : (c.Intersect d).inArity = c.inArity := by
  have fold : ∀ {add : Conjunction → Exp → Conjunction}, (∀ c e, (add c e).inArity = c.inArity) →
      ∀ (es : List Exp) (c : Conjunction), (es.foldl add c).inArity = c.inArity := by
    intro add hadd es
    induction es with
    | nil => exact fun _ => rfl
    | cons e es ih => intro c; rw [List.foldl_cons, ih, hadd]
  rw [Conjunction.Intersect, fold, fold]
  · intro c e
    simp only [Conjunction.addEquality]
    split_ifs <;> rfl
  · intro c e
    simp only [Conjunction.addInequality]
    split_ifs <;> rfl

/-- The tuples of the intersection of two conjunctions: the declared constants of the second one do not count. -/
theorem mem_denote_intersect {I : Interp} {c d : Conjunction} (hc : c.readable = true) (hd : d.readable = true)
    {t : List Int} : t ∈ (c.Intersect d).denote I ↔ t ∈ c.denote I ∧ d.Holds I (valuation t) := by
  have h := Conjunction.intersect_adds hc hd
  simp only [Conjunction.denote, Set.mem_ofPred_eq, h.tupleDecl, h.holds, and_assoc]

/-- No tuple is wrongly kept for a pair that stays, and none is lost with a pair that gives way. -/
def IntersectsExactly (cs ds : List Conjunction) : Prop :=
  (∀ I, ∀ p ∈ kept constrains (cs.product ds), ∀ t ∈ p.1.denote I, p.2.Holds I (valuation t) →
    t ∈ denoteUnion I ds) ∧
  ∀ I, ∀ p ∈ replaced constrains (cs.product ds), ∀ t, p.1.tupleDecl.Admits t → p.2.tupleDecl.Admits t →
    ∃ q ∈ kept constrains (cs.product ds), t ∈ q.1.denote I ∧ q.2.Holds I (valuation t)

section Intersect

variable {cs ds : List Conjunction}

theorem nested_foldl_eq (init : List Conjunction) : cs.foldl (fun result c =>
    ds.foldl (fun result d => addConjunction result (c.Intersect d)) result) init =
      ((cs.product ds).map (fun p => p.1.Intersect p.2)).foldl addConjunction init := by
  simp only [List.product, List.foldl_map, List.foldl_flatMap]

/-- The same with the check of the input arity. -/
theorem nested_foldlM_eq {n : Nat} (hc : ∀ c ∈ cs, c.inArity = n) (init : List Conjunction) :
    cs.foldlM (fun result c =>
      ds.foldlM (fun result d => Relation.addConjunction n result (c.Intersect d)) result) init =
        .ok (((cs.product ds).map (fun p => p.1.Intersect p.2)).foldl addConjunction init) := by
  rw [← nested_foldl_eq]
  induction cs generalizing init with
  | nil => rfl
  | cons c cs ih =>
    obtain ⟨h, hcs⟩ := List.forall_mem_cons.1 hc
    have hds : ∀ e ∈ ds.map (fun d => c.Intersect d), e.inArity = n := by
      intro e he
      obtain ⟨d, -, rfl⟩ := List.mem_map.1 he
      rw [inArity_intersect, h]
    have hrow := Relation.foldlM_addConjunction hds init
    rw [List.foldlM_map, List.foldl_map] at hrow
    rw [List.foldlM_cons, hrow]
    exact ih hcs _

theorem readable_intersects (hc : ∀ c ∈ cs, c.readable = true) (hd : ∀ d ∈ ds, d.readable = true) :
    ∀ c ∈ (cs.product ds).map (fun p => p.1.Intersect p.2), c.readable = true := by
  intro c h
  obtain ⟨p, hp, rfl⟩ := List.mem_map.1 h
  obtain ⟨h₁, h₂⟩ := List.mem_product.1 hp
  exact (Conjunction.intersect_adds (hc _ h₁) (hd _ h₂)).readable

/-- The tuples of the intersections of all pairs, added in turn. -/
theorem mem_denoteUnion_intersects {I : Interp} (hc : ∀ c ∈ cs, c.readable = true) (hd : ∀ d ∈ ds, d.readable = true)
    {t : List Int} :
    t ∈ denoteUnion I (((cs.product ds).map (fun p => p.1.Intersect p.2)).foldl addConjunction []) ↔
      ∃ p ∈ kept constrains (cs.product ds), t ∈ p.1.denote I ∧ p.2.Holds I (valuation t) := by
  have hmem : ∀ p ∈ kept constrains (cs.product ds), p.1 ∈ cs ∧ p.2 ∈ ds := by
    intro p hp
    have h : p ∈ replaced constrains (cs.product ds) ++ kept constrains (cs.product ds) := List.mem_append_right _ hp
    rw [replaced_append_kept] at h
    exact List.mem_product.1 h
  rw [mem_denoteUnion_foldl (readable_intersects hc hd), kept_map,
    show Conjunction.hasConstraints ∘ (fun p : Conjunction × Conjunction => p.1.Intersect p.2) = constrains from
      funext fun p => hasConstraints_intersect p.1 p.2]
  simp only [denoteUnion, Set.mem_ofPred_eq, List.mem_map]
  constructor
  · rintro ⟨c, ⟨p, hp, rfl⟩, ht⟩
    obtain ⟨h₁, h₂⟩ := hmem p hp
    exact ⟨p, hp, (mem_denote_intersect (hc _ h₁) (hd _ h₂)).1 ht⟩
  · rintro ⟨p, hp, ht⟩
    obtain ⟨h₁, h₂⟩ := hmem p hp
    exact ⟨_, ⟨p, hp, rfl⟩, (mem_denote_intersect (hc _ h₁) (hd _ h₂)).2 ht⟩

theorem constrains_false {p : Conjunction × Conjunction} (h : constrains p = false) {I : Interp} {τ : Nat → Int} :
    p.1.hasConstraints = false ∧ p.2.Holds I τ := by
  simp only [constrains, Bool.or_eq_false_iff, List.any_eq_false, Bool.not_eq_true', Bool.not_eq_false] at h
  refine ⟨h.1.1, fun e he => ?_, fun e he k => (val_of_equalsZero (by simpa using h.2 e he) k).ge⟩
  rw [← holdsEq_normalizeForEquality]
  exact fun k => val_of_equalsZero (by simpa using h.1.2 e he) k

theorem intersects_denote_iff (hc : ∀ c ∈ cs, c.readable = true) (hd : ∀ d ∈ ds, d.readable = true) :
    (∀ I, denoteUnion I (((cs.product ds).map (fun p => p.1.Intersect p.2)).foldl addConjunction []) =
      denoteUnion I cs ∩ denoteUnion I ds) ↔ IntersectsExactly cs ds := by
  have hpair : ∀ {p : Conjunction × Conjunction} {I : Interp} {t : List Int}, t ∈ p.2.denote I ↔
      p.2.tupleDecl.Admits t ∧ p.2.Holds I (valuation t) := Iff.rfl
  have hprod : ∀ {p}, p ∈ cs.product ds ↔ p ∈ replaced constrains (cs.product ds) ∨
      p ∈ kept constrains (cs.product ds) := by
    intro p
    rw [← List.mem_append, replaced_append_kept]
  constructor
  · intro h
    refine ⟨fun I p hp t h₁ h₂ => ?_, fun I p hp t h₁ h₂ => ?_⟩
    · have ht : t ∈ denoteUnion I cs ∩ denoteUnion I ds := by
        rw [← h I, mem_denoteUnion_intersects hc hd]
        exact ⟨p, hp, h₁, h₂⟩
      exact ht.2
    · obtain ⟨hp₁, hp₂⟩ := List.mem_product.1 (hprod.2 (.inl hp))
      obtain ⟨hn, hh⟩ := constrains_false (I := I) (τ := valuation t) (has_of_mem_replaced _ hp)
      rw [← mem_denoteUnion_intersects hc hd, h I]
      exact ⟨⟨p.1, hp₁, (mem_denote_of_unconstrained hn).2 h₁⟩, ⟨p.2, hp₂, h₂, hh⟩⟩
  · rintro ⟨hk, hr⟩ I
    ext t
    rw [mem_denoteUnion_intersects hc hd]
    constructor
    · rintro ⟨p, hp, h₁, h₂⟩
      exact ⟨⟨p.1, (List.mem_product.1 (hprod.2 (.inr hp))).1, h₁⟩, hk I p hp t h₁ h₂⟩
    · rintro ⟨⟨c, hcm, h₁⟩, ⟨d, hdm, h₂⟩⟩
      rcases hprod.1 (List.mem_product.2 ⟨hcm, hdm⟩ : (c, d) ∈ cs.product ds) with hp | hp
      · exact hr I _ hp t h₁.1 h₂.1
      · exact ⟨_, hp, h₁, h₂.2⟩

end Intersect

theorem mem_denote_ofArity {I : Interp} {n : Nat} {t : List Int} :
    t ∈ (Set.ofArity n).denote I ↔ t.length = n := by
  have hsize : (TupleDecl.sDefaultTupleDecl n).size = n := by simp [TupleDecl.sDefaultTupleDecl, TupleDecl.size]
  have hvar : ∀ i < n, (TupleDecl.sDefaultTupleDecl n).elemIsConst i = false := by
    intro i hi
    simp [TupleDecl.elemIsConst, TupleDecl.elem, TupleDecl.sDefaultTupleDecl, hi]
  have hd : t ∈ (Set.ofArity n).denote I ↔ (TupleDecl.sDefaultTupleDecl n).Admits t := by
    rw [Set.denote, show (Set.ofArity n).conjunctions = [.ofTupleDecl (.sDefaultTupleDecl n)] from rfl,
      mem_denoteUnion_cons, mem_denote_of_unconstrained rfl]
    simp [denoteUnion, Conjunction.ofTupleDecl]
  rw [hd, TupleDecl.Admits, hsize]
  exact ⟨fun h => h.1, fun h => ⟨h, fun i hi hc => by rw [hvar i hi] at hc; cases hc⟩⟩

theorem Set.Intersect_denote_iff {s rhs : Set} (hs : s.readable = true) (hr : rhs.readable = true)
    (ha : s.arity = rhs.arity) : ∃ u, s.Intersect rhs = .ok u ∧ u.arity = s.arity ∧
      ((∀ I, u.denote I = s.denote I ∩ rhs.denote I) ↔
        s.conjunctions ≠ [] ∧ rhs.conjunctions ≠ [] ∧ IntersectsExactly s.conjunctions rhs.conjunctions) := by
  simp only [Set.readable, List.all_eq_true] at hs hr
  refine ⟨⟨s.arity, ((s.conjunctions.product rhs.conjunctions).map (fun p => p.1.Intersect p.2)).foldl addConjunction
    (ofArity s.arity).conjunctions⟩, ?_, rfl, ?_⟩
  · simp only [Set.Intersect, ha, nested_foldl_eq, ne_eq, not_true, if_false]
  by_cases he : s.conjunctions.product rhs.conjunctions = []
  · have hempty : s.conjunctions = [] ∨ rhs.conjunctions = [] := by
      by_contra hne
      obtain ⟨c, hc⟩ := List.exists_mem_of_ne_nil _ (not_or.1 hne).1
      obtain ⟨d, hd⟩ := List.exists_mem_of_ne_nil _ (not_or.1 hne).2
      have : (c, d) ∈ s.conjunctions.product rhs.conjunctions := List.mem_product.2 ⟨hc, hd⟩
      simp [he] at this
    refine ⟨fun h => ?_, fun h => absurd hempty (not_or.2 ⟨h.1, h.2.1⟩)⟩
    -- the default conjunction stays, and no tuple is in both operands
    have ht : List.replicate s.arity 0 ∈ (ofArity s.arity).denote ⟨fun _ => 0, fun _ _ => [], fun _ => 0, fun _ => 0⟩ :=
      mem_denote_ofArity.2 (by simp)
    rw [he] at h
    have := h ⟨fun _ => 0, fun _ _ => [], fun _ => 0, fun _ => 0⟩ ▸ ht
    rcases hempty with h0 | h0 <;> simp [Set.denote, denoteUnion, h0] at this
  · have hne : s.conjunctions ≠ [] ∧ rhs.conjunctions ≠ [] := by
      constructor
      · rintro h0; simp [h0, List.product] at he
      · rintro h0; simp [h0, List.product] at he
    obtain ⟨p, ps, hp⟩ := List.exists_cons_of_ne_nil he
    rw [← and_assoc, and_iff_right hne, ← intersects_denote_iff hs hr, hp]
    rfl

theorem Relation.Intersect_denote_iff {r rhs : Relation} (hr : r.readable = true) (hr' : rhs.readable = true)
    (hw : r.wellFormed = true) (hi : r.inArity = rhs.inArity) (ho : r.outArity = rhs.outArity) : ∃ u, r.Intersect rhs = .ok u ∧
      u.inArity = r.inArity ∧ u.outArity = r.outArity ∧
      ((∀ I, u.denote I = r.denote I ∩ rhs.denote I) ↔ IntersectsExactly r.conjunctions rhs.conjunctions) := by
  simp only [Relation.readable, List.all_eq_true] at hr hr'
  refine ⟨⟨r.inArity, r.outArity, ((r.conjunctions.product rhs.conjunctions).map
    (fun p => p.1.Intersect p.2)).foldl IEGen.addConjunction []⟩, ?_, rfl, rfl, ?_⟩
  · rw [wellFormed_iff, hi] at hw
    simp only [Relation.Intersect, Relation.ofArity, hi, ho, nested_foldlM_eq hw, ne_eq, not_true, or_self, if_false,
      Outcome.bind_eq_ok, Except.ok.injEq, exists_eq_left']
  · exact intersects_denote_iff hr hr'

/-- `Intersect`, of sets and of relations, has the common tuples iff the pairs do exactly, and for sets there is a
pair. -/
theorem Intersect_denotes (s s' : Set) (r r' : Relation) (hs : s.readable = true) (hs' : s'.readable = true)
    (ha : s.arity = s'.arity) (hr : r.readable = true) (hr' : r'.readable = true) (hw : r.wellFormed = true)
    (hi : r.inArity = r'.inArity) (ho : r.outArity = r'.outArity) :
    (∃ u, s.Intersect s' = .ok u ∧ u.arity = s.arity ∧
      ((∀ I, u.denote I = s.denote I ∩ s'.denote I) ↔
        s.conjunctions ≠ [] ∧ s'.conjunctions ≠ [] ∧ IntersectsExactly s.conjunctions s'.conjunctions)) ∧
    ∃ u, r.Intersect r' = .ok u ∧ u.inArity = r.inArity ∧ u.outArity = r.outArity ∧
      ((∀ I, u.denote I = r.denote I ∩ r'.denote I) ↔ IntersectsExactly r.conjunctions r'.conjunctions) :=
  ⟨Set.Intersect_denote_iff hs hs' ha, Relation.Intersect_denote_iff hr hr' hw hi ho⟩

/-- The intersection with the empty set is the set of all tuples. -/
theorem Intersect_empty : ∃ u, (pointSet 0).Intersect ⟨1, []⟩ = .ok u ∧
    ∀ I, u.denote I ≠ (pointSet 0).denote I ∩ (Set.mk 1 []).denote I := by
  refine ⟨.ofArity 1, rfl, fun I h => ?_⟩
  have h0 : [0] ∈ (Set.ofArity 1).denote I := mem_denote_ofArity.2 rfl
  rw [h] at h0
  simp [Set.denote, denoteUnion] at h0

theorem Intersect_denotes_symbol : ∃ u, (pointSet 1).Intersect symbolSet = .ok u ∧
    ∀ I, u.denote I = (pointSet 1).denote I ∩ symbolSet.denote I := by
  obtain ⟨⟨u, hu, -, h⟩, -⟩ := Intersect_denotes (pointSet 1) symbolSet (.ofArity 1 1) (.ofArity 1 1) (by decide)
    (by decide) rfl rfl rfl rfl rfl rfl
  refine ⟨u, hu, h.2 ⟨by decide, by decide, fun I p hp t h₁ h₂ => ?_, fun I p hp => ?_⟩⟩
  · simp only [pointSet, symbolSet, List.product, List.flatMap_cons, List.map_cons, List.map_nil, List.flatMap_nil,
      List.append_nil, kept, List.mem_singleton] at hp
    subst hp
    refine ⟨symbolConj, List.mem_cons_self, ⟨h₁.1.1, fun i hi hc => ?_⟩, h₂⟩
    obtain rfl : i = 0 := Nat.lt_one_iff.1 hi
    cases hc
  · simp [pointSet, symbolSet, List.product, replaced] at hp

end IEGen
