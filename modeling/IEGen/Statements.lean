import IEGen.Objects

/-!
# Statements

A `Stmt` of a computation: the source code, the iteration space, the schedule, and the lists of its reads and writes.
The loop of `operator==` over the writes increments its index twice, so it looks at the first, third, … write only
(`Stmt.eq_ok_iff`). `operator=` replaces the space and the schedule and appends the reads and the writes, so the target is
equal to the source iff it had none and the copies are equal to what they are copies of (`Stmt.assignsEqual_iff`).
-/

namespace IEGen

/-! ## The statement -/

/-- `Stmt` -/
structure Stmt where
  stmtSourceCode : String
  iterationSpace : Option Set
  executionSchedule : Option Relation
  /-- the data spaces with the relations; adding one allocates its relation -/
  dataReads : List (String × Relation)
  dataWrites : List (String × Relation)

/-- `*p` -/
def deref {α : Type} : Option α → Except Failure α
  | some a => .ok a
  | none => .error .nullPointer

/-- `{info.first, new Relation(*info.second)}` -/
def copyAccess (env : Environment) (info : String × Relation) : Except Failure (String × Relation) := do
  .ok (info.1, ← info.2.copy env)

/-- `info.first == other.first && *info.second == *other.second` -/
def accessEq (env : Environment) (info other : String × Relation) : Except Failure Bool :=
  if info.1 = other.1 then info.2.eq env other.2 else .ok false

/-- The loop over the reads of two statements with equally many of them. -/
def readsEq (env : Environment) : List (String × Relation) → List (String × Relation) → Except Failure Bool
  | x :: xs, y :: ys => do if ← accessEq env x y then readsEq env xs ys else .ok false
  | _, _ => .ok true

/-- The loop over the writes, whose body ends with a second `i++`. -/
def writesEq (env : Environment) : List (String × Relation) → List (String × Relation) → Except Failure Bool
  | x :: _ :: xs, y :: _ :: ys => do if ← accessEq env x y then writesEq env xs ys else .ok false
  | x :: _, y :: _ => accessEq env x y
  | _, _ => .ok true

namespace Stmt

/-- `Stmt::isComplete` -/
def isComplete (s : Stmt) : Bool := s.stmtSourceCode ≠ "" && s.iterationSpace.isSome && s.executionSchedule.isSome

/-- `Stmt::operator=`, from another object -/
def assign (env : Environment) (this other : Stmt) : Except Failure Stmt := do
  let iterationSpace ← (← deref other.iterationSpace).copy env
  let executionSchedule ← (← deref other.executionSchedule).copy env
  let dataReads ← other.dataReads.mapM (copyAccess env)
  let dataWrites ← other.dataWrites.mapM (copyAccess env)
  -- the lists of `this` are not cleared before the loops push to them
  .ok ⟨other.stmtSourceCode, some iterationSpace, some executionSchedule, this.dataReads ++ dataReads,
    this.dataWrites ++ dataWrites⟩

/-- `Stmt::operator==` -/
def eq (env : Environment) (this other : Stmt) : Except Failure Bool := do
  if this.stmtSourceCode ≠ other.stmtSourceCode then .ok false
  else if !(← (← deref this.iterationSpace).eq env (← deref other.iterationSpace)) then .ok false
  else if !(← (← deref this.executionSchedule).eq env (← deref other.executionSchedule)) then .ok false
  else if this.dataReads.length ≠ other.dataReads.length ∨ this.dataWrites.length ≠ other.dataWrites.length then .ok false
  else if !(← readsEq env this.dataReads other.dataReads) then .ok false
  else writesEq env this.dataWrites other.dataWrites

end Stmt

/-! ## What the loops compare -/

section Loops

variable {env : Environment}

/-- The same data space and equal relations. -/
def SameAccess (env : Environment) (x y : String × Relation) : Prop := x.1 = y.1 ∧ x.2.eq env y.2 = .ok true

theorem accessEq_eq_ok {x y : String × Relation} : accessEq env x y = .ok true ↔ SameAccess env x y := by
  unfold accessEq SameAccess
  by_cases h : x.1 = y.1 <;> simp [h]

theorem if_eq_ok {x y : Except Failure Bool} :
    (do if ← x then y else .ok false) = (.ok true : Except Failure Bool) ↔ x = .ok true ∧ y = .ok true := by
  rw [Outcome.bind_eq_ok]
  constructor
  · rintro ⟨b, hb, h⟩
    cases b with
    | true => exact ⟨hb, h⟩
    | false => cases h
  · rintro ⟨rfl, rfl⟩
    exact ⟨true, rfl, rfl⟩

theorem readsEq_eq_ok : ∀ {xs ys : List (String × Relation)}, xs.length = ys.length →
    (readsEq env xs ys = .ok true ↔ List.Forall₂ (SameAccess env) xs ys)
  | [], [], _ => by simp [readsEq]
  | x :: xs, y :: ys, h => by
    rw [readsEq, if_eq_ok, accessEq_eq_ok, readsEq_eq_ok (Nat.succ.inj h), List.forall₂_cons]

/-- The accesses at an index of two lists are the same, or there are none. -/
def SameAt (env : Environment) (xs ys : List (String × Relation)) (i : Nat) : Prop :=
  Option.Rel (SameAccess env) xs[i]? ys[i]?

theorem sameAt_zero {x y : String × Relation} {xs ys : List (String × Relation)} :
    SameAt env (x :: xs) (y :: ys) 0 ↔ SameAccess env x y := by
  simp [SameAt]

theorem sameAt_succ {x y : String × Relation} {xs ys : List (String × Relation)} {i : Nat} :
    SameAt env (x :: xs) (y :: ys) (i + 1) ↔ SameAt env xs ys i := by
  simp [SameAt]

theorem sameAt_nil (i : Nat) : SameAt env [] [] i := by
  simp [SameAt]

/-- Lists are related element by element iff they are at each index. -/
theorem forall₂_iff_rel_getElem? {α β : Type*} {R : α → β → Prop} : ∀ {xs : List α} {ys : List β},
    List.Forall₂ R xs ys ↔ ∀ i : Nat, Option.Rel R xs[i]? ys[i]?
  | [], [] => ⟨fun _ _ => .none, fun _ => .nil⟩
  | [], y :: ys => ⟨fun h => (by cases h), fun h => (by cases h 0)⟩
  | x :: xs, [] => ⟨fun h => (by cases h), fun h => (by cases h 0)⟩
  | x :: xs, y :: ys => by
    rw [List.forall₂_cons, forall₂_iff_rel_getElem?]
    constructor
    · rintro ⟨h0, hs⟩ (_ | i)
      · exact .some h0
      · exact hs i
    · exact fun hs => ⟨Option.rel_some_some.1 (hs 0), fun i => hs (i + 1)⟩

/-- The loop over the writes finds the writes with an even index. -/
theorem writesEq_eq_ok : ∀ {xs ys : List (String × Relation)}, xs.length = ys.length →
    (writesEq env xs ys = .ok true ↔ ∀ i, i % 2 = 0 → SameAt env xs ys i)
  | [], [], _ => ⟨fun _ i _ => sameAt_nil i, fun _ => rfl⟩
  | [x], [y], _ => by
    rw [show writesEq env [x] [y] = accessEq env x y from rfl, accessEq_eq_ok]
    constructor
    · rintro h (_ | i) -
      · exact sameAt_zero.2 h
      · exact sameAt_succ.2 (sameAt_nil i)
    · exact fun h => sameAt_zero.1 (h 0 rfl)
  | x :: x' :: xs, y :: y' :: ys, h => by
    rw [writesEq, if_eq_ok, accessEq_eq_ok, writesEq_eq_ok (Nat.succ.inj (Nat.succ.inj h))]
    constructor
    · rintro ⟨h0, hs⟩ (_ | _ | i) hi
      · exact sameAt_zero.2 h0
      · cases hi
      · exact sameAt_succ.2 (sameAt_succ.2 (hs i (by omega)))
    · exact fun hs => ⟨sameAt_zero.1 (hs 0 rfl), fun i hi => sameAt_succ.1 (sameAt_succ.1 (hs (i + 2) (by omega)))⟩

end Loops

/-! ## Equal statements -/

namespace Stmt

/-- What makes two statements equal, but for the writes. -/
structure SameBesidesWrites (env : Environment) (a b : Stmt) : Prop where
  stmtSourceCode : a.stmtSourceCode = b.stmtSourceCode
  iterationSpace : Option.Rel (fun s t => s.eq env t = .ok true) a.iterationSpace b.iterationSpace
  executionSchedule : Option.Rel (fun r q => r.eq env q = .ok true) a.executionSchedule b.executionSchedule
  dataReads : List.Forall₂ (SameAccess env) a.dataReads b.dataReads

/-- All parts are equal. -/
def Same (env : Environment) (a b : Stmt) : Prop :=
  a.SameBesidesWrites env b ∧ List.Forall₂ (SameAccess env) a.dataWrites b.dataWrites

/-- All parts are equal but perhaps the second, fourth, … write. -/
def SameButEveryOther (env : Environment) (a b : Stmt) : Prop :=
  a.SameBesidesWrites env b ∧ a.dataWrites.length = b.dataWrites.length ∧
    ∀ i, i % 2 = 0 → SameAt env a.dataWrites b.dataWrites i

end Stmt

/-! ## The comparison and the assignment -/

namespace Stmt

variable {env : Environment}

/-- Sets and relations of which the copies hold no element of a tuple of expressions, which compare by address. -/
structure Placeless (env : Environment) (a : Stmt) : Prop where
  iterationSpace : ∀ s ∈ a.iterationSpace, IEGen.Placeless env s.conjunctions
  executionSchedule : ∀ r ∈ a.executionSchedule, IEGen.Placeless env r.conjunctions
  dataReads : ∀ x ∈ a.dataReads, IEGen.Placeless env x.2.conjunctions
  dataWrites : ∀ x ∈ a.dataWrites, IEGen.Placeless env x.2.conjunctions

theorem isComplete_iff {a : Stmt} : a.isComplete = true ↔ a.stmtSourceCode ≠ "" ∧
    (∃ s, a.iterationSpace = some s) ∧ ∃ r, a.executionSchedule = some r := by
  simp [isComplete, Option.isSome_iff_exists, and_assoc]

end Stmt

/-- A step of a comparison that goes on only when its parts are equal. -/
theorem if_not_eq_ok {x y : Except Failure Bool} :
    (x >>= fun same => if !same then .ok false else y) = .ok true ↔ x = .ok true ∧ y = .ok true := by
  rw [Outcome.bind_eq_ok]
  constructor
  · rintro ⟨b, hb, h⟩
    cases b with
    | true => exact ⟨hb, h⟩
    | false => cases h
  · rintro ⟨rfl, rfl⟩
    exact ⟨true, rfl, rfl⟩

namespace Stmt

variable {env : Environment}

theorem eq_some {a b : Stmt} {s t : Set} {r q : Relation} (hs : a.iterationSpace = some s)
    (ht : b.iterationSpace = some t) (hr : a.executionSchedule = some r) (hq : b.executionSchedule = some q) :
    a.eq env b = if a.stmtSourceCode ≠ b.stmtSourceCode then .ok false else s.eq env t >>= fun same =>
      if !same then .ok false else r.eq env q >>= fun same =>
        if !same then .ok false
        else if a.dataReads.length ≠ b.dataReads.length ∨ a.dataWrites.length ≠ b.dataWrites.length then .ok false
        else readsEq env a.dataReads b.dataReads >>= fun same =>
          if !same then .ok false else writesEq env a.dataWrites b.dataWrites := by
  unfold Stmt.eq
  rw [hs, ht, hr, hq]
  rfl

/-- The comparison does not look at every other write. -/
theorem eq_ok_iff {a b : Stmt} {s t : Set} {r q : Relation} (hs : a.iterationSpace = some s)
    (ht : b.iterationSpace = some t) (hr : a.executionSchedule = some r) (hq : b.executionSchedule = some q) :
    a.eq env b = .ok true ↔ a.SameButEveryOther env b := by
  rw [eq_some hs ht hr hq]
  constructor
  · intro h
    have hcode : a.stmtSourceCode = b.stmtSourceCode := by
      by_contra hn
      rw [if_pos hn] at h
      cases h
    rw [if_neg (not_not.2 hcode), if_not_eq_ok, if_not_eq_ok] at h
    obtain ⟨hspace, hsched, h⟩ := h
    have hlen : ¬ (a.dataReads.length ≠ b.dataReads.length ∨ a.dataWrites.length ≠ b.dataWrites.length) := by
      intro hn
      rw [if_pos hn] at h
      cases h
    rw [if_neg hlen, if_not_eq_ok] at h
    rw [not_or, not_not, not_not] at hlen
    rw [readsEq_eq_ok hlen.1, writesEq_eq_ok hlen.2] at h
    refine ⟨⟨hcode, ?_, ?_, h.1⟩, hlen.2, h.2⟩
    · rw [hs, ht]
      exact .some hspace
    · rw [hr, hq]
      exact .some hsched
  · rintro ⟨⟨hcode, hspace, hsched, hreads⟩, hlen, hwrites⟩
    rw [hs, ht] at hspace
    rw [hr, hq] at hsched
    have eqSpace : s.eq env t = .ok true := by simpa only [Option.rel_some_some] using hspace
    have eqSched : r.eq env q = .ok true := by simpa only [Option.rel_some_some] using hsched
    rw [if_neg (not_not.2 hcode), if_not_eq_ok, if_not_eq_ok]
    refine ⟨eqSpace, eqSched, ?_⟩
    rw [if_neg (not_or.2 ⟨not_not.2 hreads.length_eq, not_not.2 hlen⟩), if_not_eq_ok, readsEq_eq_ok hreads.length_eq,
      writesEq_eq_ok hlen]
    exact ⟨hreads, hwrites⟩

theorem same_iff {a b : Stmt} : a.Same env b ↔
    a.SameButEveryOther env b ∧ ∀ i, i % 2 = 1 → SameAt env a.dataWrites b.dataWrites i := by
  constructor
  · rintro ⟨hbesides, hwrites⟩
    have hat := forall₂_iff_rel_getElem?.1 hwrites
    exact ⟨⟨hbesides, hwrites.length_eq, fun i _ => hat i⟩, fun i _ => hat i⟩
  · rintro ⟨⟨hbesides, hlen, heven⟩, hodd⟩
    refine ⟨hbesides, forall₂_iff_rel_getElem?.2 fun i => ?_⟩
    rcases Nat.mod_two_eq_zero_or_one i with hi | hi
    · exact heven i hi
    · exact hodd i hi

end Stmt

/-! ### What the comparison needs to return -/

section Returns

variable {env : Environment}

theorem Set.exists_eq {s t : Set} (hs : IEGen.Placeless env s.conjunctions) (ht : IEGen.Placeless env t.conjunctions) :
    ∃ b, s.eq env t = .ok b := by
  obtain ⟨cs, hcs, -⟩ := hs
  obtain ⟨ds, hds, -⟩ := ht
  rw [CopiedTo] at hcs hds
  have hlt : ∃ b, s.lt env t = .ok b := by
    unfold Set.lt
    rw [hcs, hds]
    split_ifs <;> exact ⟨_, rfl⟩
  have hgt : ∃ b, t.lt env s = .ok b := by
    unfold Set.lt
    rw [hcs, hds]
    split_ifs <;> exact ⟨_, rfl⟩
  obtain ⟨b, hb⟩ := hlt
  obtain ⟨b', hb'⟩ := hgt
  unfold Set.eq
  rw [hb, hb']
  cases b <;> cases b' <;> exact ⟨_, rfl⟩

theorem Relation.exists_eq {r q : Relation} (hr : IEGen.Placeless env r.conjunctions)
    (hq : IEGen.Placeless env q.conjunctions) : ∃ b, r.eq env q = .ok b := by
  obtain ⟨cs, hcs, -⟩ := hr
  obtain ⟨ds, hds, -⟩ := hq
  rw [CopiedTo] at hcs hds
  have hlt : ∃ b, r.lt env q = .ok b := by
    unfold Relation.lt
    rw [hcs, hds]
    split_ifs <;> exact ⟨_, rfl⟩
  have hgt : ∃ b, q.lt env r = .ok b := by
    unfold Relation.lt
    rw [hcs, hds]
    split_ifs <;> exact ⟨_, rfl⟩
  obtain ⟨b, hb⟩ := hlt
  obtain ⟨b', hb'⟩ := hgt
  unfold Relation.eq
  rw [hb, hb']
  cases b <;> cases b' <;> exact ⟨_, rfl⟩

theorem exists_if_not {x y : Except Failure Bool} (hx : ∃ b, x = .ok b) (hy : ∃ b, y = .ok b) :
    ∃ b, (x >>= fun same => if !same then .ok false else y) = .ok b := by
  obtain ⟨b, rfl⟩ := hx
  cases b with
  | true => exact hy
  | false => exact ⟨false, rfl⟩

theorem exists_if {x y : Except Failure Bool} (hx : ∃ b, x = .ok b) (hy : ∃ b, y = .ok b) :
    ∃ b, (x >>= fun same => if same then y else .ok false) = .ok b := by
  obtain ⟨b, rfl⟩ := hx
  cases b with
  | true => exact hy
  | false => exact ⟨false, rfl⟩

theorem exists_accessEq {x y : String × Relation} (hx : IEGen.Placeless env x.2.conjunctions)
    (hy : IEGen.Placeless env y.2.conjunctions) : ∃ b, accessEq env x y = .ok b := by
  unfold accessEq
  split
  · exact Relation.exists_eq hx hy
  · exact ⟨_, rfl⟩

theorem exists_readsEq : ∀ {xs ys : List (String × Relation)}, (∀ x ∈ xs, IEGen.Placeless env x.2.conjunctions) →
    (∀ y ∈ ys, IEGen.Placeless env y.2.conjunctions) → ∃ b, readsEq env xs ys = .ok b
  | [], _, _, _ => ⟨true, rfl⟩
  | _ :: _, [], _, _ => ⟨true, rfl⟩
  | x :: xs, y :: ys, hx, hy => by
    rw [List.forall_mem_cons] at hx hy
    exact exists_if (exists_accessEq hx.1 hy.1) (exists_readsEq hx.2 hy.2)

theorem exists_writesEq : ∀ {xs ys : List (String × Relation)}, (∀ x ∈ xs, IEGen.Placeless env x.2.conjunctions) →
    (∀ y ∈ ys, IEGen.Placeless env y.2.conjunctions) → ∃ b, writesEq env xs ys = .ok b
  | [], _, _, _ => ⟨true, rfl⟩
  | [_], [], _, _ => ⟨true, rfl⟩
  | _ :: _ :: _, [], _, _ => ⟨true, rfl⟩
  | [x], [y], hx, hy => exists_accessEq (hx x List.mem_cons_self) (hy y List.mem_cons_self)
  | [x], y :: _ :: _, hx, hy => exists_accessEq (hx x List.mem_cons_self) (hy y List.mem_cons_self)
  | x :: _ :: _, [y], hx, hy => exists_accessEq (hx x List.mem_cons_self) (hy y List.mem_cons_self)
  | x :: _ :: xs, y :: _ :: ys, hx, hy => by
    simp only [List.forall_mem_cons] at hx hy
    exact exists_if (exists_accessEq hx.1 hy.1) (exists_writesEq hx.2.2 hy.2.2)

theorem Stmt.exists_eq {a b : Stmt} (ha : a.isComplete = true) (hb : b.isComplete = true) (hap : a.Placeless env)
    (hbp : b.Placeless env) : ∃ same, a.eq env b = .ok same := by
  obtain ⟨-, ⟨s, hs⟩, r, hr⟩ := Stmt.isComplete_iff.1 ha
  obtain ⟨-, ⟨t, ht⟩, q, hq⟩ := Stmt.isComplete_iff.1 hb
  rw [Stmt.eq_some hs ht hr hq]
  split
  · exact ⟨false, rfl⟩
  refine exists_if_not (Set.exists_eq (hap.iterationSpace s hs) (hbp.iterationSpace t ht))
    (exists_if_not (Relation.exists_eq (hap.executionSchedule r hr) (hbp.executionSchedule q hq)) ?_)
  split
  · exact ⟨false, rfl⟩
  exact exists_if_not (exists_readsEq hap.dataReads hbp.dataReads) (exists_writesEq hap.dataWrites hbp.dataWrites)

end Returns

/-! ### Assigning -/

section Assigning

variable {env : Environment}

/-- The copy is made, and equal to the set. -/
def Set.EqualsItsCopy (env : Environment) (s : Set) : Prop := ∃ s', s.copy env = .ok s' ∧ s'.eq env s = .ok true

/-- The copy is made, and equal to the relation. -/
def Relation.EqualsItsCopy (env : Environment) (r : Relation) : Prop :=
  ∃ r', r.copy env = .ok r' ∧ r'.eq env r = .ok true

theorem Set.eq_symm {s t : Set} (h : s.eq env t = .ok true) : t.eq env s = .ok true := by
  unfold Set.eq at h ⊢
  rw [Outcome.neither_eq_ok] at h ⊢
  exact h.symm

theorem Relation.eq_symm {r q : Relation} (h : r.eq env q = .ok true) : q.eq env r = .ok true := by
  unfold Relation.eq at h ⊢
  rw [Outcome.neither_eq_ok] at h ⊢
  exact h.symm

/-- Of several clean conjunctions, the first that the copy has needs a constraint. -/
theorem Set.equalsItsCopy_iff {s : Set} (hc : ∀ c ∈ s.conjunctions, c.Clean env ∧ c.satisfiable = true) :
    s.EqualsItsCopy env ↔ (∀ c ∈ (copied s.conjunctions).head?, c.hasConstraints = true) ∨
      (copied s.conjunctions).length ≤ 1 := by
  have hcopy := Set.copy_of_clean hc
  constructor
  · rintro ⟨s', h, heq⟩
    rw [hcopy, Except.ok.injEq] at h
    subst h
    exact (Set.eq_copy_iff hc hcopy).1 (Set.eq_symm heq)
  · exact fun h => ⟨_, hcopy, Set.eq_symm ((Set.eq_copy_iff hc hcopy).2 h)⟩

theorem Relation.equalsItsCopy_iff {r : Relation} (hc : ∀ c ∈ r.conjunctions, c.Clean env ∧ c.satisfiable = true)
    (hw : r.wellFormed = true) : r.EqualsItsCopy env ↔
      (∀ c ∈ (copied r.conjunctions).head?, c.hasConstraints = true) ∨ (copied r.conjunctions).length ≤ 1 := by
  have hcopy := Relation.copy_of_clean hc hw
  constructor
  · rintro ⟨r', h, heq⟩
    rw [hcopy, Except.ok.injEq] at h
    subst h
    exact (Relation.eq_copy_iff hc hw hcopy).1 (Relation.eq_symm heq)
  · exact fun h => ⟨_, hcopy, Relation.eq_symm ((Relation.eq_copy_iff hc hw hcopy).2 h)⟩

theorem copyAccess_eq_ok {x y : String × Relation} :
    copyAccess env x = .ok y ↔ y.1 = x.1 ∧ x.2.copy env = .ok y.2 := by
  unfold copyAccess
  rw [Outcome.bind_eq_ok]
  constructor
  · rintro ⟨r, hr, h⟩
    cases h
    exact ⟨rfl, hr⟩
  · obtain ⟨d, r⟩ := y
    rintro ⟨rfl, hr⟩
    exact ⟨r, hr, rfl⟩

/-- An access is the same as its copy iff the relation equals its copy. -/
theorem sameAccess_copy_iff {x y : String × Relation} (h : copyAccess env x = .ok y) :
    SameAccess env y x ↔ x.2.EqualsItsCopy env := by
  obtain ⟨hname, hcopy⟩ := copyAccess_eq_ok.1 h
  constructor
  · exact fun hsame => ⟨y.2, hcopy, hsame.2⟩
  · rintro ⟨r, hr, heq⟩
    rw [hcopy, Except.ok.injEq] at hr
    subst hr
    exact ⟨hname, heq⟩

/-- The accesses at an index are the same as their copies iff the relation there equals its copy. -/
theorem sameAt_copies_iff {xs ys : List (String × Relation)} (h : xs.mapM (copyAccess env) = .ok ys) (i : Nat) :
    SameAt env ys xs i ↔ ∀ x ∈ xs[i]?, x.2.EqualsItsCopy env := by
  have hat := forall₂_iff_rel_getElem?.1 (Outcome.forall₂_of_mapM h) i
  unfold SameAt
  generalize xs[i]? = x, ys[i]? = y at hat
  cases hat with
  | none => simp
  | some hxy => simpa using sameAccess_copy_iff hxy

/-- Each part of a statement equals its copy, but perhaps the second, fourth, … write. -/
structure Stmt.KeptByCopying (env : Environment) (b : Stmt) : Prop where
  iterationSpace : ∃ s, b.iterationSpace = some s ∧ s.EqualsItsCopy env
  executionSchedule : ∃ r, b.executionSchedule = some r ∧ r.EqualsItsCopy env
  dataReads : ∀ x ∈ b.dataReads, x.2.EqualsItsCopy env
  dataWrites : ∀ x ∈ b.dataWrites, ∃ r, x.2.copy env = .ok r
  everyOther : ∀ i, i % 2 = 0 → ∀ x ∈ b.dataWrites[i]?, x.2.EqualsItsCopy env

theorem Stmt.assign_eq_ok {a b a' : Stmt} : a.assign env b = .ok a' ↔ ∃ s s' r r' reads writes,
    b.iterationSpace = some s ∧ s.copy env = .ok s' ∧ b.executionSchedule = some r ∧ r.copy env = .ok r' ∧
    b.dataReads.mapM (copyAccess env) = .ok reads ∧ b.dataWrites.mapM (copyAccess env) = .ok writes ∧
    a' = ⟨b.stmtSourceCode, some s', some r', a.dataReads ++ reads, a.dataWrites ++ writes⟩ := by
  have hderef : ∀ {α : Type} {o : Option α} {x : α}, deref o = .ok x ↔ o = some x := by
    intro α o x
    cases o <;> simp [deref]
  unfold assign
  simp only [Outcome.bind_eq_ok, hderef, Except.ok.injEq]
  constructor
  · rintro ⟨s, hs, s', hs', r, hr, r', hr', reads, hreads, writes, hwrites, rfl⟩
    exact ⟨s, s', r, r', reads, writes, hs, hs', hr, hr', hreads, hwrites, rfl⟩
  · rintro ⟨s, s', r, r', reads, writes, hs, hs', hr, hr', hreads, hwrites, rfl⟩
    exact ⟨s, hs, s', hs', r, hr, r', hr', reads, hreads, writes, hwrites, rfl⟩

/-- A statement is equal to what is assigned to it iff it had no reads and writes, and each part equals its copy. -/
theorem Stmt.assignsEqual_iff {a b : Stmt} : (∃ a', a.assign env b = .ok a' ∧ a'.eq env b = .ok true) ↔
    a.dataReads = [] ∧ a.dataWrites = [] ∧ b.KeptByCopying env := by
  constructor
  · rintro ⟨a', h, heq⟩
    obtain ⟨s, s', r, r', reads, writes, hs, hs', hr, hr', hreads, hwrites, rfl⟩ := Stmt.assign_eq_ok.1 h
    rw [Stmt.eq_ok_iff rfl hs rfl hr] at heq
    obtain ⟨⟨-, hspace, hsched, hsameReads⟩, hlen, heven⟩ := heq
    have hreadsLen := (Outcome.forall₂_of_mapM hreads).length_eq
    have hwritesLen := (Outcome.forall₂_of_mapM hwrites).length_eq
    -- the copies alone are as many as the originals
    have hnoReads : a.dataReads = [] := by
      have hlen := hsameReads.length_eq
      simp only [List.length_append] at hlen
      exact List.length_eq_zero_iff.1 (by omega)
    have hnoWrites : a.dataWrites = [] := by
      simp only [List.length_append] at hlen
      exact List.length_eq_zero_iff.1 (by omega)
    rw [hs] at hspace
    rw [hr] at hsched
    simp only [hnoReads, hnoWrites, List.nil_append] at hsameReads heven
    refine ⟨hnoReads, hnoWrites, ⟨s, hs, s', hs', ?_⟩, ⟨r, hr, r', hr', ?_⟩, ?_, ?_, ?_⟩
    · simpa only [Option.rel_some_some] using hspace
    · simpa only [Option.rel_some_some] using hsched
    · intro x hx
      obtain ⟨i, hi⟩ := List.mem_iff_getElem?.1 hx
      exact (sameAt_copies_iff hreads i).1 (forall₂_iff_rel_getElem?.1 hsameReads i) x hi
    · intro x hx
      obtain ⟨i, hi⟩ := List.mem_iff_getElem?.1 hx
      have hat := forall₂_iff_rel_getElem?.1 (Outcome.forall₂_of_mapM hwrites) i
      rw [hi] at hat
      generalize writes[i]? = y at hat
      cases hat with
      | some hxy => exact ⟨_, (copyAccess_eq_ok.1 hxy).2⟩
    · exact fun i hi => (sameAt_copies_iff hwrites i).1 (heven i hi)
  · rintro ⟨hnoReads, hnoWrites, ⟨s, hs, s', hs', hspace⟩, ⟨r, hr, r', hr', hsched⟩, hkeptReads, hcopies, heven⟩
    obtain ⟨reads, hreads⟩ := Outcome.exists_mapM (f := copyAccess env) (l := b.dataReads) fun x hx => by
      obtain ⟨q, hq, -⟩ := hkeptReads x hx
      exact ⟨(x.1, q), copyAccess_eq_ok.2 ⟨rfl, hq⟩⟩
    obtain ⟨writes, hwrites⟩ := Outcome.exists_mapM (f := copyAccess env) (l := b.dataWrites) fun x hx => by
      obtain ⟨q, hq⟩ := hcopies x hx
      exact ⟨(x.1, q), copyAccess_eq_ok.2 ⟨rfl, hq⟩⟩
    refine ⟨_, Stmt.assign_eq_ok.2 ⟨s, s', r, r', reads, writes, hs, hs', hr, hr', hreads, hwrites, rfl⟩, ?_⟩
    rw [Stmt.eq_ok_iff rfl hs rfl hr, hnoReads, hnoWrites]
    refine ⟨⟨rfl, ?_, ?_, ?_⟩, (Outcome.forall₂_of_mapM hwrites).length_eq.symm, ?_⟩
    · rw [hs]
      exact .some hspace
    · rw [hr]
      exact .some hsched
    · exact forall₂_iff_rel_getElem?.2 fun i =>
        (sameAt_copies_iff hreads i).2 fun x hx => hkeptReads x (List.mem_of_getElem? hx)
    · exact fun i hi => (sameAt_copies_iff hwrites i).2 (heven i hi)

end Assigning

/-! ## The operators as a whole -/

/-- When the comparison is of all parts, and when an assignment makes two statements equal. -/
theorem Stmt.eq_and_assign (env : Environment) (a b : Stmt) (ha : a.isComplete = true) (hb : b.isComplete = true)
    (hap : a.Placeless env) (hbp : b.Placeless env) :
    (∃ same, a.eq env b = .ok same) ∧
    ((a.eq env b = .ok true ↔ a.Same env b) ↔
      (a.SameButEveryOther env b → ∀ i, i % 2 = 1 → SameAt env a.dataWrites b.dataWrites i)) ∧
    ∀ c : Stmt, (∃ c', c.assign env b = .ok c' ∧ c'.eq env b = .ok true) ↔
      c.dataReads = [] ∧ c.dataWrites = [] ∧ b.KeptByCopying env := by
  obtain ⟨-, ⟨s, hs⟩, r, hr⟩ := Stmt.isComplete_iff.1 ha
  obtain ⟨-, ⟨t, ht⟩, q, hq⟩ := Stmt.isComplete_iff.1 hb
  refine ⟨Stmt.exists_eq ha hb hap hbp, ?_, fun c => Stmt.assignsEqual_iff⟩
  rw [Stmt.eq_ok_iff hs ht hr hq, Stmt.same_iff]
  constructor
  · exact fun h hsame => (h.1 hsame).2
  · exact fun h => ⟨fun hsame => ⟨hsame, h hsame⟩, And.left⟩

/-- `x = y;` over `{[i]}` with the schedule `{[i] -> [j]}`, which reads `y` and writes the given data spaces. -/
def writesTo (dataSpaces : List String) : Stmt :=
  let schedule : Relation := ⟨1, 1, [⟨[], [], ⟨[⟨false, 0, "i"⟩, ⟨false, 0, "j"⟩]⟩, 1⟩]⟩
  ⟨"x = y;", some ⟨1, [⟨[], [], ⟨[⟨false, 0, "i"⟩]⟩, 0⟩]⟩, some schedule, [("y", schedule)],
    dataSpaces.map fun d => (d, schedule)⟩

/-- Statements that differ in the second write compare equal; a statement that has a read, or a write, is not equal to
what is assigned to it. -/
theorem Stmt.eq_and_assign_slip : ((writesTo ["x", "y"]).isComplete = true ∧ (writesTo ["x", "z"]).isComplete = true ∧
      (writesTo ["x", "y"]).eq ⟨[], [], []⟩ (writesTo ["x", "z"]) = .ok true ∧
      ¬ (writesTo ["x", "y"]).Same ⟨[], [], []⟩ (writesTo ["x", "z"])) ∧
    ∃ c', (writesTo ["x"]).assign ⟨[], [], []⟩ (writesTo ["x"]) = .ok c' ∧
      c'.eq ⟨[], [], []⟩ (writesTo ["x"]) = .ok false := by
  refine ⟨⟨by decide, by decide, by decide, ?_⟩, _, rfl, by decide⟩
  rintro ⟨-, h⟩
  cases h with
  | cons _ h =>
    cases h with
    | cons h _ => exact absurd h.1 (by decide)

/-- `x(i) = y(f(i));` over `{[i] : i >= 0 && n - i - 1 >= 0}` with the schedule `{[i] -> [j] : i - j = 0}`; it reads `y` at
`f(i)`, and writes the given data spaces at `i`. -/
def storesTo (dataSpaces : List String) : Stmt :=
  let pairs (equality : List Term) : Relation :=
    ⟨1, 1, [⟨[.mk .equality equality], [], ⟨[⟨false, 0, "i"⟩, ⟨false, 0, "j"⟩]⟩, 1⟩]⟩
  let identity := pairs [.tupleVar 1 0, .tupleVar (-1) 1]
  ⟨"x(i) = y(f(i));",
    some ⟨1, [⟨[], [.mk .inequality [.tupleVar 1 0], .mk .inequality [.tupleVar (-1) 0, .symConst 1 "n", .constVal (-1)]],
      ⟨[⟨false, 0, "i"⟩]⟩, 0⟩]⟩, some identity,
    [("y", pairs [.tupleVar 1 1, .ufCall (-1) "f" [.ofTerm (.tupleVar 1 0)] none])],
    dataSpaces.map fun d => (d, identity)⟩

theorem storesTo_placeless {dataSpaces : List String} : (storesTo dataSpaces).Placeless ⟨[], [], []⟩ where
  iterationSpace s hs := by
    obtain rfl := Option.mem_some_iff.1 hs
    exact placeless_of_copy rfl fun d hd => List.mem_singleton.1 hd ▸ rfl
  executionSchedule r hr := by
    obtain rfl := Option.mem_some_iff.1 hr
    exact placeless_of_copy rfl fun d hd => List.mem_singleton.1 hd ▸ rfl
  dataReads x hx := by
    obtain rfl := List.mem_singleton.1 hx
    exact placeless_of_copy rfl fun d hd => List.mem_singleton.1 hd ▸ rfl
  dataWrites x hx := by
    obtain ⟨d, -, rfl⟩ := List.mem_map.1 hx
    exact placeless_of_copy rfl fun d hd => List.mem_singleton.1 hd ▸ rfl

/-- A statement is equal to itself, in all its writes, and to what an empty one becomes when it is assigned. -/
theorem Stmt.eq_and_assign_storesTo : (∃ same, (storesTo ["x", "y"]).eq ⟨[], [], []⟩ (storesTo ["x", "y"]) = .ok same) ∧
    ((storesTo ["x", "y"]).eq ⟨[], [], []⟩ (storesTo ["x", "y"]) = .ok true ↔
      (storesTo ["x", "y"]).Same ⟨[], [], []⟩ (storesTo ["x", "y"])) ∧
    (∃ c', (Stmt.mk "" none none [] []).assign ⟨[], [], []⟩ (storesTo ["x", "y"]) = .ok c' ∧
      c'.eq ⟨[], [], []⟩ (storesTo ["x", "y"]) = .ok true) ∧
    ¬ ∃ c', (storesTo ["z"]).assign ⟨[], [], []⟩ (storesTo ["x", "y"]) = .ok c' ∧
      c'.eq ⟨[], [], []⟩ (storesTo ["x", "y"]) = .ok true := by
  obtain ⟨hruns, hsame, hassign⟩ := Stmt.eq_and_assign ⟨[], [], []⟩ (storesTo ["x", "y"]) (storesTo ["x", "y"]) (by decide)
    (by decide) storesTo_placeless storesTo_placeless
  refine ⟨hruns, hsame.2 fun _ i _ => ?_, (hassign _).2 ⟨rfl, rfl, ⟨_, rfl, _, rfl, rfl⟩, ⟨_, rfl, _, rfl, rfl⟩, ?_, ?_, ?_⟩,
    fun h => absurd ((hassign _).1 h).1 (by simp [storesTo])⟩
  · rcases i with _ | _ | i
    · exact .some ⟨rfl, rfl⟩
    · exact .some ⟨rfl, rfl⟩
    · exact .none
  · intro x hx
    obtain rfl := List.mem_singleton.1 hx
    exact ⟨_, rfl, rfl⟩
  · intro x hx
    obtain ⟨d, -, rfl⟩ := List.mem_map.1 hx
    exact ⟨_, rfl⟩
  · intro i _ x hx
    obtain ⟨d, -, rfl⟩ := List.mem_map.1 (List.mem_of_getElem? hx)
    exact ⟨_, rfl, rfl⟩

end IEGen
