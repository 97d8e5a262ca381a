import IEGen.Named
import IEGen.Copies

/-!
# The two notations of a union

A union is written as bodies in braces with `union` between them, or as bodies in one pair of braces with semicolons
between them. Both notations build the same conjunction of a body of a set, and add the conjunctions in different orders:
the second notation adds the first body and then the others from the last to the second.

* The orders matter to what the result keeps only, so the results are the same up to ties iff each unconstrained body
  that one notation keeps is tied to one that the other keeps (`KeepsAlike`, `alikeConjunctions_iff`).
* The second notation takes the size of the output tuple of a relation for its input arity (`semiRelConjunct_eq`).
* `notations_agree` puts both together.
-/

namespace IEGen

open SortedList (Tied SameClasses build)

/-! ## What the orders keep -/

section Kept

variable {α β : Type*} {lt : α → α → Bool} {has : α → Bool}

/-- What two orders keep is in the same classes iff this holds of the elements without a constraint. -/
theorem sameClasses_kept_iff (hrefl : ∀ x, Tied lt x x) (hhas : ∀ {x y}, Tied lt x y → has x = has y) {l l' : List α}
    (hmem : ∀ x, x ∈ l ↔ x ∈ l') : SameClasses lt (kept has l) (kept has l') ↔
      (∀ x ∈ kept has l, has x = false → ∃ y ∈ kept has l', has y = false ∧ Tied lt x y) ∧
        ∀ y ∈ kept has l', has y = false → ∃ x ∈ kept has l, has x = false ∧ Tied lt x y := by
  constructor
  · rintro ⟨h₁, h₂⟩
    refine ⟨fun x hx hn => ?_, fun y hy hn => ?_⟩
    · obtain ⟨y, hy, hxy⟩ := h₁ x hx
      exact ⟨y, hy, hhas hxy ▸ hn, hxy⟩
    · obtain ⟨x, hx, hxy⟩ := h₂ y hy
      exact ⟨x, hx, (hhas hxy).trans hn, hxy⟩
  · rintro ⟨h₁, h₂⟩
    refine ⟨fun x hx => ?_, fun y hy => ?_⟩
    · cases hn : has x with
      | true => exact ⟨x, mem_kept_of_has ((hmem x).1 (mem_of_mem_kept hx)) hn, hrefl x⟩
      | false =>
        obtain ⟨y, hy, -, hxy⟩ := h₁ x hx hn
        exact ⟨y, hy, hxy⟩
    · cases hn : has y with
      | true => exact ⟨y, mem_kept_of_has ((hmem y).2 (mem_of_mem_kept hy)) hn, hrefl y⟩
      | false =>
        obtain ⟨x, hx, -, hxy⟩ := h₂ y hy hn
        exact ⟨x, hx, hxy⟩

/-- Each body without a constraint that one of the two orders keeps has the constants of the declaration of one without
a constraint that the other order keeps. -/
def KeepsAlike (constrained : β → Bool) (decl : β → TupleDecl) (first : β) (rest : List β) : Prop :=
  (∀ b ∈ kept constrained (first :: rest), constrained b = false →
    ∃ b' ∈ kept constrained (first :: rest.reverse), constrained b' = false ∧ Tied TupleDecl.lt (decl b) (decl b')) ∧
  ∀ b' ∈ kept constrained (first :: rest.reverse), constrained b' = false →
    ∃ b ∈ kept constrained (first :: rest), constrained b = false ∧ Tied TupleDecl.lt (decl b) (decl b')

end Kept

/-- Conjunctions without constraints are tied when their declarations are. -/
theorem Conjunction.tied_of_unconstrained {a b : Conjunction} (ha : a.hasConstraints = false)
    (hb : b.hasConstraints = false) : Tied Conjunction.lt a b ↔ Tied TupleDecl.lt a.tupleDecl b.tupleDecl := by
  refine ⟨fun h => (Conjunction.tied_parts h).1, fun h => ?_⟩
  obtain ⟨ea, ia, da, na⟩ := a
  obtain ⟨eb, ib, db, nb⟩ := b
  obtain ⟨rfl, rfl⟩ := hasConstraints_eq_false.1 ha
  obtain ⟨rfl, rfl⟩ := hasConstraints_eq_false.1 hb
  obtain ⟨h₁, h₂⟩ := h
  simp only at h₁ h₂
  constructor <;> simp [Conjunction.lt, h₁, h₂, SortedList.lexLt]

/-! ## The conjunctions of the results -/

/-- The same conjunctions up to ties, with the same input arities. -/
def AlikeConjunctions (cs ds : List Conjunction) : Prop :=
  List.Forall₂ (fun c d => Tied Conjunction.lt c d ∧ c.inArity = d.inArity) cs ds

/-- Equal sets: the same arity, conjunctions and tuples. -/
structure Set.Same (s t : Set) : Prop where
  arity : s.arity = t.arity
  conjunctions : AlikeConjunctions s.conjunctions t.conjunctions
  denote : ∀ I, s.denote I = t.denote I

/-- Equal relations: the same arities, conjunctions and tuples. -/
structure Relation.Same (r q : Relation) : Prop where
  inArity : r.inArity = q.inArity
  outArity : r.outArity = q.outArity
  conjunctions : AlikeConjunctions r.conjunctions q.conjunctions
  denote : ∀ I, r.denote I = q.denote I

theorem alikeConjunctions_of_inArity {n : Nat} {cs ds : List Conjunction} (hc : ∀ c ∈ cs, c.inArity = n)
    (hd : ∀ d ∈ ds, d.inArity = n) : AlikeConjunctions cs ds ↔ List.Forall₂ (Tied Conjunction.lt) cs ds := by
  refine ⟨fun h => h.imp fun _ _ => And.left, fun h => ?_⟩
  induction h with
  | nil => exact .nil
  | cons hcd _ ih =>
    obtain ⟨hc₀, hc⟩ := List.forall_mem_cons.1 hc
    obtain ⟨hd₀, hd⟩ := List.forall_mem_cons.1 hd
    exact .cons ⟨hcd, hc₀.trans hd₀.symm⟩ (ih hc hd)

section Orders

variable {β : Type*} {conj : β → Conjunction} {decl : β → TupleDecl} {first : β} {rest : List β} {n : Nat}

/-- The conjunctions of the first notation. -/
def omegaOrder (conj : β → Conjunction) (first : β) (rest : List β) : List Conjunction :=
  ((first :: rest).map conj).foldl addConjunction []

/-- The conjunctions of the second notation. -/
def islOrder (conj : β → Conjunction) (first : β) (rest : List β) : List Conjunction :=
  ((first :: rest.reverse).map conj).foldl addConjunction []

theorem mem_omegaOrder {c : Conjunction} (h : c ∈ omegaOrder conj first rest) : ∃ b ∈ first :: rest, conj b = c :=
  List.mem_map.1 ((mem_foldl_addConjunction h).resolve_left List.not_mem_nil)

theorem mem_islOrder {c : Conjunction} (h : c ∈ islOrder conj first rest) : ∃ b ∈ first :: rest, conj b = c := by
  obtain ⟨b, hb, hc⟩ := List.mem_map.1 ((mem_foldl_addConjunction h).resolve_left List.not_mem_nil)
  exact ⟨b, by simpa using hb, hc⟩

/-- Bodies added in the orders of the two notations give the same conjunctions iff the orders keep alike. -/
theorem alikeConjunctions_iff (conj : β → Conjunction) (hn : ∀ b ∈ first :: rest, (conj b).inArity = n)
    (hd : ∀ b ∈ first :: rest, (conj b).tupleDecl = decl b) :
    AlikeConjunctions (omegaOrder conj first rest) (islOrder conj first rest) ↔
      KeepsAlike (fun b => (conj b).hasConstraints) decl first rest := by
  have hties : AlikeConjunctions (omegaOrder conj first rest) (islOrder conj first rest) ↔
      SameClasses Conjunction.lt (kept Conjunction.hasConstraints ((first :: rest).map conj))
        (kept Conjunction.hasConstraints ((first :: rest.reverse).map conj)) := by
    rw [alikeConjunctions_of_inArity (n := n), omegaOrder, islOrder, foldl_addConjunction_eq_build,
      foldl_addConjunction_eq_build, SortedList.tied_build_iff strictWeak_conjunctionLt]
    · intro c hc
      obtain ⟨b, hb, rfl⟩ := mem_omegaOrder hc
      exact hn b hb
    · intro c hc
      obtain ⟨b, hb, rfl⟩ := mem_islOrder hc
      exact hn b hb
  have htied : ∀ {b b'}, b ∈ first :: rest → b' ∈ first :: rest → (conj b).hasConstraints = false →
      (conj b').hasConstraints = false → (Tied Conjunction.lt (conj b) (conj b') ↔ Tied TupleDecl.lt (decl b) (decl b')) := by
    intro b b' hb hb' hf hf'
    rw [Conjunction.tied_of_unconstrained hf hf', hd b hb, hd b' hb']
  have hrev : ∀ {b}, b ∈ kept (Conjunction.hasConstraints ∘ conj) (first :: rest.reverse) → b ∈ first :: rest :=
    fun hb => by simpa using mem_of_mem_kept hb
  rw [hties, sameClasses_kept_iff strictWeak_conjunctionLt.tied_refl hasConstraints_of_tied (by simp),
    kept_map, kept_map, List.forall_mem_map, List.forall_mem_map]
  simp only [List.mem_map, exists_exists_and_eq_and]
  refine and_congr (forall₂_congr fun b hb => forall_congr' fun hf => exists_congr fun b' => ?_)
    (forall₂_congr fun b hb => forall_congr' fun hf => exists_congr fun b' => ?_)
  · refine and_congr_right fun hb' => and_congr_right fun hf' => ?_
    exact htied (mem_of_mem_kept hb) (hrev hb') hf hf'
  · refine and_congr_right fun hb' => and_congr_right fun hf' => ?_
    exact htied (mem_of_mem_kept hb') (hrev hb) hf' hf

/-- Then they have the same tuples. -/
theorem denoteUnion_of_same {I : Interp} (hb : ∀ b ∈ first :: rest, (conj b).comparable = true)
    (h : AlikeConjunctions (omegaOrder conj first rest) (islOrder conj first rest)) :
    denoteUnion I (omegaOrder conj first rest) = denoteUnion I (islOrder conj first rest) := by
  refine denoteUnion_of_tied (fun c hc => ?_) (fun c hc => ?_)
    (SortedList.tied_sizeLexLt.2 (h.imp fun _ _ => And.left))
  · obtain ⟨b, hm, rfl⟩ := mem_omegaOrder hc
    exact hb b hm
  · obtain ⟨b, hm, rfl⟩ := mem_islOrder hc
    exact hb b hm

end Orders

/-! ## Bodies -/

section Bodies

variable {env : Environment}

/-- The parser builds a conjunction of the body, which has no tuple of expressions. -/
def SetBody.Accepted (env : Environment) (b : SetBody) : Prop :=
  (∀ k ∈ b.constraints, k.plain = true) ∧ ∃ c, b.build env = .ok c

/-- The parser builds a conjunction of the body, which has no tuple of expressions. -/
def RelBody.Accepted (env : Environment) (b : RelBody) : Prop :=
  (∀ k ∈ b.constraints, k.plain = true) ∧ ∃ c, relSingleConjunct env b = .ok c

/-- The conjunction of a body that is accepted. -/
def SetBody.conjunction (env : Environment) (b : SetBody) : Conjunction :=
  (b.build env).toOption.getD (.ofArity 0)

/-- The conjunction of a body that is accepted. -/
def RelBody.conjunction (env : Environment) (b : RelBody) : Conjunction :=
  (relSingleConjunct env b).toOption.getD (.ofArity 0)

/-- Constraints stay of the body. -/
def SetBody.constrained (env : Environment) (b : SetBody) : Bool := (b.conjunction env).hasConstraints

/-- Constraints stay of the body. -/
def RelBody.constrained (env : Environment) (b : RelBody) : Bool := (b.conjunction env).hasConstraints

theorem SetBody.Accepted.build {b : SetBody} (h : b.Accepted env) : b.build env = .ok (b.conjunction env) := by
  obtain ⟨-, c, hc⟩ := h
  rw [SetBody.conjunction, hc]
  rfl

theorem RelBody.Accepted.build {b : RelBody} (h : b.Accepted env) :
    relSingleConjunct env b = .ok (b.conjunction env) := by
  obtain ⟨-, c, hc⟩ := h
  rw [RelBody.conjunction, hc]
  rfl

/-- The second notation takes the input arity from the output tuple. -/
theorem RelBody.Accepted.semiRelConjunct {b : RelBody} (h : b.Accepted env) :
    semiRelConjunct env b = .ok ((b.conjunction env).withInArity (tupleDecl b.outTuple).size) :=
  buildBody_withInArity h.build (tupleDecl b.outTuple).size

theorem size_tupleDecl (es : List TupleElemTree) : (tupleDecl es).size = es.length := by
  rw [tupleDecl_eq, TupleDecl.size, List.length_mapIdx]

theorem RelBody.size_decl (b : RelBody) : b.decl.size = b.inTuple.length + b.outTuple.length := by
  rw [RelBody.decl, TupleDecl.concat, TupleDecl.size, List.length_append, List.length_mapIdx]
  exact congrArg₂ _ (size_tupleDecl b.inTuple) (size_tupleDecl b.outTuple)

theorem comparable_of_built {c : Conjunction} (h : c.Built) : c.comparable = true :=
  Conjunction.comparable_of_readable (readable_of_built h)

theorem omegaSet_eq {first : SetBody} {rest : List SetBody} (h : ∀ b ∈ first :: rest, b.Accepted env) :
    omegaSet env first rest = .ok ⟨(first.conjunction env).arity, omegaOrder (SetBody.conjunction env) first rest⟩ := by
  obtain ⟨hf, hr⟩ := List.forall_mem_cons.1 h
  unfold omegaSet
  rw [hf.build, Outcome.mapM_eq_map fun b hb => (hr b hb).build]
  rfl

theorem islSet_eq {first second : SetBody} {rest : List SetBody}
    (h : ∀ b ∈ first :: second :: rest, b.Accepted env) : islSet env first second rest =
      .ok ⟨(first.conjunction env).arity, islOrder (SetBody.conjunction env) first (second :: rest)⟩ := by
  obtain ⟨hf, hr⟩ := List.forall_mem_cons.1 h
  unfold islSet
  rw [hf.build, Outcome.mapM_eq_map fun b hb => (hr b hb).build]
  simp only [Outcome.bind_eq_ok, islOrder, List.map_cons, List.map_reverse]
  exact ⟨_, rfl, _, rfl, rfl⟩

/-- The conjunctions of accepted bodies of relations with one arity split. -/
theorem RelBody.Accepted.fields {b : RelBody} {m n : Nat} (h : b.Accepted env) (hm : b.inTuple.length = m)
    (hn : b.outTuple.length = n) : (b.conjunction env).inArity = m ∧ (b.conjunction env).arity = m + n := by
  obtain ⟨hd, hi⟩ := buildBody_fields h.build
  refine ⟨hi.trans ((size_tupleDecl _).trans hm), ?_⟩
  rw [Conjunction.arity, hd, b.size_decl, hm, hn]

/-- The arities are those of the first conjunction. -/
theorem relationOf_eq {c : Conjunction} {cs : List Conjunction} {m n : Nat} (hi : ∀ d ∈ c :: cs, d.inArity = m)
    (ha : c.arity - m = n) : relationOf c cs = .ok ⟨m, n, (c :: cs).foldl addConjunction []⟩ := by
  have hc : c.inArity = m := hi c List.mem_cons_self
  unfold relationOf
  simp only [hc, ha]
  rw [Relation.foldlM_addConjunction hi]
  rfl

theorem omegaRelation_eq {first : RelBody} {rest : List RelBody} {m n : Nat}
    (h : ∀ b ∈ first :: rest, b.Accepted env) (hm : ∀ b ∈ first :: rest, b.inTuple.length = m)
    (hn : ∀ b ∈ first :: rest, b.outTuple.length = n) :
    omegaRelation env first rest = .ok ⟨m, n, omegaOrder (RelBody.conjunction env) first rest⟩ := by
  have hfields := fun b hb => (h b hb).fields (hm b hb) (hn b hb)
  obtain ⟨hf, hr⟩ := List.forall_mem_cons.1 h
  unfold omegaRelation
  rw [hf.build, Outcome.mapM_eq_map fun b hb => (hr b hb).build]
  refine relationOf_eq (fun d hd => ?_) (by rw [(hfields first List.mem_cons_self).2, Nat.add_sub_cancel_left])
  rw [← List.map_cons, List.mem_map] at hd
  obtain ⟨b, hb, rfl⟩ := hd
  exact (hfields b hb).1

/-- The arities of the second notation are exchanged. -/
theorem islRelation_eq {first second : RelBody} {rest : List RelBody} {m n : Nat}
    (h : ∀ b ∈ first :: second :: rest, b.Accepted env) (hm : ∀ b ∈ first :: second :: rest, b.inTuple.length = m)
    (hn : ∀ b ∈ first :: second :: rest, b.outTuple.length = n) : islRelation env first second rest =
      .ok ⟨n, m, islOrder (fun b => (b.conjunction env).withInArity n) first (second :: rest)⟩ := by
  have hfields := fun b hb => (h b hb).fields (hm b hb) (hn b hb)
  have hsemi : ∀ b ∈ first :: second :: rest,
      semiRelConjunct env b = .ok ((b.conjunction env).withInArity n) := by
    intro b hb
    rw [(h b hb).semiRelConjunct, size_tupleDecl, hn b hb]
  obtain ⟨hf, hr⟩ := List.forall_mem_cons.1 hsemi
  have harity : ((first.conjunction env).withInArity n).arity = n + m :=
    (hfields first List.mem_cons_self).2.trans (Nat.add_comm m n)
  have hrev : (first :: (second :: rest).reverse).map (fun b => (b.conjunction env).withInArity n) =
      (first.conjunction env).withInArity n ::
        ((second :: rest).map fun b => (b.conjunction env).withInArity n).reverse := by
    rw [List.map_cons, List.map_reverse]
  unfold islRelation
  rw [hf, Outcome.mapM_eq_map hr, islOrder, hrev]
  refine relationOf_eq (fun d hd => ?_) (by rw [harity, Nat.add_sub_cancel_left])
  rw [← hrev, List.mem_map] at hd
  obtain ⟨b, -, rfl⟩ := hd
  rfl

end Bodies

/-- The two notations of a union of accepted bodies, of a set or of a relation, both give a result. The sets are equal
iff the orders of the notations keep alike; the relations are so iff the two tuples also have one size. -/
theorem notations_agree (env : Environment) (a b : SetBody) (l : List SetBody) (p q : RelBody) (k : List RelBody)
    {m n : Nat} (hl : ∀ x ∈ a :: b :: l, x.Accepted env) (hk : ∀ x ∈ p :: q :: k, x.Accepted env)
    (hm : ∀ x ∈ p :: q :: k, x.inTuple.length = m) (hn : ∀ x ∈ p :: q :: k, x.outTuple.length = n) :
    (∃ s t, omegaSet env a (b :: l) = .ok s ∧ islSet env a b l = .ok t ∧
      (s.Same t ↔ KeepsAlike (SetBody.constrained env) (fun x => tupleDecl x.tuple) a (b :: l))) ∧
    ∃ r t, omegaRelation env p (q :: k) = .ok r ∧ islRelation env p q k = .ok t ∧
      (r.Same t ↔ m = n ∧ KeepsAlike (RelBody.constrained env) RelBody.decl p (q :: k)) := by
  constructor
  · refine ⟨_, _, omegaSet_eq hl, islSet_eq hl, ?_⟩
    have hfields := fun x hx => buildBody_fields (hl x hx).build
    have hiff := alikeConjunctions_iff (SetBody.conjunction env) (fun x hx => (hfields x hx).2)
      fun x hx => (hfields x hx).1
    refine ⟨fun h => hiff.1 h.conjunctions, fun h => ⟨rfl, hiff.2 h, fun I => ?_⟩⟩
    refine denoteUnion_of_same (fun x hx => ?_) (hiff.2 h)
    exact comparable_of_built (built_buildBody (hl x hx).1 (hl x hx).build)
  · refine ⟨_, _, omegaRelation_eq hk hm hn, islRelation_eq hk hm hn, ?_⟩
    have hfields := fun x hx => (hk x hx).fields (hm x hx) (hn x hx)
    have hdecl := fun x hx => (buildBody_fields (hk x hx).build).1
    have hiff := alikeConjunctions_iff (RelBody.conjunction env) (fun x hx => (hfields x hx).1) hdecl
    have hsame : m = n → islOrder (fun x => (x.conjunction env).withInArity n) p (q :: k) =
        islOrder (RelBody.conjunction env) p (q :: k) := by
      rintro rfl
      refine congrArg (List.foldl addConjunction []) (List.map_congr_left fun x hx => ?_)
      have hx' : x ∈ p :: q :: k := List.mem_cons.2 ((List.mem_cons.1 hx).imp_right List.mem_reverse.1)
      rw [← (hfields x hx').1]
      rfl
    constructor
    · intro h
      have heq : m = n := h.inArity
      refine ⟨heq, hiff.1 ?_⟩
      rw [← hsame heq]
      exact h.conjunctions
    · rintro ⟨heq, h⟩
      have halike := hiff.2 h
      refine ⟨heq, heq.symm, ?_, fun I => ?_⟩
      · show AlikeConjunctions _ (islOrder (fun x => (x.conjunction env).withInArity n) p (q :: k))
        rw [hsame heq]
        exact halike
      · show _ = denoteUnion I (islOrder (fun x => (x.conjunction env).withInArity n) p (q :: k))
        rw [hsame heq]
        refine denoteUnion_of_same (fun x hx => ?_) halike
        exact comparable_of_built (built_buildBody (hk x hx).1 (hk x hx).build)

/-- `[x] -> [y, z]` -/
def oneTwoBody : RelBody :=
  ⟨[.var ⟨"x", by decide⟩], [.var ⟨"y", by decide⟩, .var ⟨"z", by decide⟩], []⟩

/-- `[n]` for a number `n`. -/
def pointBody (n : Nat) : SetBody := ⟨[.const n], []⟩

/-- Two bodies `[x] -> [y, z]` with a semicolon give a relation with two inputs; and the bodies `[0]`, `[1]`, `[2]` give
`{ [2] }` with `union` and `{ [1] }` with semicolons. -/
theorem notations_differ :
    (∃ r t, omegaRelation ⟨[], [], []⟩ oneTwoBody [oneTwoBody] = .ok r ∧
      islRelation ⟨[], [], []⟩ oneTwoBody oneTwoBody [] = .ok t ∧ ¬ r.Same t) ∧
    ∃ s t, omegaSet ⟨[], [], []⟩ (pointBody 0) [pointBody 1, pointBody 2] = .ok s ∧
      islSet ⟨[], [], []⟩ (pointBody 0) (pointBody 1) [pointBody 2] = .ok t ∧ ¬ s.Same t := by
  refine ⟨⟨_, _, rfl, rfl, fun h => absurd h.inArity (by decide)⟩, ⟨1, [.ofTupleDecl (tupleDecl [.const 2])]⟩,
    ⟨1, [.ofTupleDecl (tupleDecl [.const 1])]⟩, rfl, rfl, fun h => ?_⟩
  cases h.conjunctions with
  | cons hcd _ => exact absurd hcd.1.2 (by decide)

/-- `[x]`, which gives way in both orders to the bodies after it. -/
def wholeBody : SetBody := ⟨[.var ⟨"x", by decide⟩], []⟩

/-- `[x] : x >= 1` -/
def positiveBody : SetBody :=
  ⟨[.var ⟨"x", by decide⟩], [.gte (.id ⟨"x", by decide⟩) (.int 1)]⟩

/-- `[x] : g(x) = 0 && x <= m` -/
def rootBody : SetBody :=
  ⟨[.var ⟨"x", by decide⟩], [.eq (.func ⟨"g", by decide⟩ (.one (.id ⟨"x", by decide⟩)) none) (.int 0),
    .lte (.id ⟨"x", by decide⟩) (.id ⟨"m", by decide⟩)]⟩

/-- `[x] -> [y]` -/
def pairBody : RelBody := ⟨[.var ⟨"x", by decide⟩], [.var ⟨"y", by decide⟩], []⟩

/-- `[x] -> [y] : y = x + 1` -/
def nextBody : RelBody :=
  ⟨[.var ⟨"x", by decide⟩], [.var ⟨"y", by decide⟩],
    [.eq (.id ⟨"y", by decide⟩) (.plus (.id ⟨"x", by decide⟩) (.int 1))]⟩

/-- `[x] -> [y] : g(x) < y` -/
def aboveBody : RelBody :=
  ⟨[.var ⟨"x", by decide⟩], [.var ⟨"y", by decide⟩],
    [.lt (.func ⟨"g", by decide⟩ (.one (.id ⟨"x", by decide⟩)) none) (.id ⟨"y", by decide⟩)]⟩

theorem notations_agree_whole : (∃ s t, omegaSet ⟨[], [], []⟩ wholeBody [positiveBody, rootBody] = .ok s ∧
    islSet ⟨[], [], []⟩ wholeBody positiveBody [rootBody] = .ok t ∧ s.Same t) ∧
    ∃ r t, omegaRelation ⟨[], [], []⟩ pairBody [nextBody, aboveBody] = .ok r ∧
      islRelation ⟨[], [], []⟩ pairBody nextBody [aboveBody] = .ok t ∧ r.Same t := by
  have hl : ∀ x ∈ [wholeBody, positiveBody, rootBody], x.Accepted ⟨[], [], []⟩ := by
    intro x hx
    simp only [List.mem_cons, List.not_mem_nil, or_false] at hx
    rcases hx with rfl | rfl | rfl
    · exact ⟨by decide, _, rfl⟩
    · exact ⟨by decide, _, rfl⟩
    · exact ⟨by decide, _, rfl⟩
  have hk : ∀ x ∈ [pairBody, nextBody, aboveBody], x.Accepted ⟨[], [], []⟩ := by
    intro x hx
    simp only [List.mem_cons, List.not_mem_nil, or_false] at hx
    rcases hx with rfl | rfl | rfl
    · exact ⟨by decide, _, rfl⟩
    · exact ⟨by decide, _, rfl⟩
    · exact ⟨by decide, _, rfl⟩
  obtain ⟨⟨s, t, hs, ht, h₁⟩, r, u, hr, hu, h₂⟩ := notations_agree ⟨[], [], []⟩ wholeBody positiveBody [rootBody] pairBody
    nextBody [aboveBody] (m := 1) (n := 1) hl hk (by simp [pairBody, nextBody, aboveBody])
    (by simp [pairBody, nextBody, aboveBody])
  have halike : ∀ {β : Type} {p : β → Bool} {decl : β → TupleDecl} {a b c : β}, p a = false → p b = true → p c = true →
      KeepsAlike p decl a [b, c] := by
    intro β p decl a b c ha hb hc
    have hkept : ∀ x ∈ kept p [a, b, c], p x = true := by simp [kept, ha, hb, hc]
    have hkept' : ∀ x ∈ kept p [a, c, b], p x = true := by simp [kept, ha, hb, hc]
    exact ⟨fun x hx hf => absurd ((hkept x hx).symm.trans hf) (by simp),
      fun x hx hf => absurd ((hkept' x hx).symm.trans hf) (by simp)⟩
  exact ⟨⟨s, t, hs, ht, h₁.2 (halike rfl (by decide +kernel) (by decide +kernel))⟩, r, u, hr, hu,
    h₂.2 ⟨rfl, halike rfl (by decide +kernel) (by decide +kernel)⟩⟩

end IEGen
