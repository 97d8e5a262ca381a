import IEGen.Lib.Forest
import Mathlib.Logic.Relation

/-!
# The universe of union and find

`UnionFindUniverse` keeps a forest of parents. Each root knows the name and the size of its set, and each name the root of its
set. A call of `Find` gives the name of the set of an element and makes the ways short, a call of `Union` merges two sets that
are given by their names and names the result.

The abstract machine is the map from elements to the names of their sets: `Union` replaces two names by one (`merge`). Every run
of calls that name sets there are gives the answers of the abstract machine, and no search calls itself more often than the
logarithm of the number of elements (`run_answers`). Merging a set with itself under a new name makes its root its own parent,
and no search in it ends any more (`Find_returns_iff`).
-/

namespace OA

open Forest (Reaches tree Balanced Shortens)

variable {n : Nat}

/-! ## The code -/

/-- `UnionFindElement`; an element without parent has the parent `UF_NIL` there. -/
structure UnionFindElement (n : Nat) where
  parent : Option (Fin n)
  name : Fin n
  count : Nat
  root : Fin n

/-- `UnionFindElement::Init` -/
def UnionFindElement.Init (i : Fin n) : UnionFindElement n := ⟨none, i, 1, i⟩

/-- `UnionFindUniverse`, for elements below its high water mark. -/
structure UnionFindUniverse (n : Nat) where
  e : Fin n → UnionFindElement n

namespace UnionFindUniverse

/-- `UnionFindUniverse(unsigned int highWaterMark)` -/
def ofHighWaterMark (n : Nat) : UnionFindUniverse n := ⟨UnionFindElement.Init⟩

variable (u : UnionFindUniverse n)

def Count (i : Fin n) : Nat := (u.e i).count
def Root (i : Fin n) : Fin n := (u.e i).root
def Parent (i : Fin n) : Option (Fin n) := (u.e i).parent
def Name (i : Fin n) : Fin n := (u.e i).name

/-- An assignment to the fields of one element. -/
def set (i : Fin n) (f : UnionFindElement n → UnionFindElement n) : UnionFindUniverse n := ⟨Function.update u.e i (f (u.e i))⟩

def setCount (i : Fin n) (c : Nat) : UnionFindUniverse n := u.set i fun x => { x with count := c }
def setRoot (i r : Fin n) : UnionFindUniverse n := u.set i fun x => { x with root := r }
def setParent (i p : Fin n) : UnionFindUniverse n := u.set i fun x => { x with parent := some p }
def setName (i k : Fin n) : UnionFindUniverse n := u.set i fun x => { x with name := k }

/-- `do_FIND`; each call takes one of the fuel. -/
def do_FIND : Nat → UnionFindUniverse n → Fin n → Option (Fin n × UnionFindUniverse n)
  | 0, _, _ => none
  | fuel + 1, u, v =>
    match u.Parent v with
    | none => some (v, u)
    | some p => do
      let (r, u') ← do_FIND fuel u p
      some (r, u'.setParent v r)

/-- `Find`: the name of the set of an element. -/
def Find (fuel : Nat) (v : Fin n) : Option (Fin n × UnionFindUniverse n) :=
  match u.Parent v with
  | none => some (u.Name v, u)
  | some p => do
    let (r, u') ← do_FIND fuel u p
    some ((u'.setParent v r).Name r, u'.setParent v r)

/-- The assignments of `Union`. -/
def link (large small k : Fin n) : UnionFindUniverse n :=
  let u := u.setParent small large
  let u := u.setCount large (u.Count large + u.Count small)
  let u := u.setName large k
  u.setRoot k large

/-- `Union`: merge set `i` with set `j` and name it `k`. -/
def Union (i j k : Fin n) : UnionFindUniverse n :=
  if i = j ∧ j = k then u
  else if u.Count (u.Root i) > u.Count (u.Root j) then u.link (u.Root i) (u.Root j) k
  else u.link (u.Root j) (u.Root i) k

/-! ## The fields after an assignment -/

section Fields

variable (i p : Fin n) (f : UnionFindElement n → UnionFindElement n) (c : Nat)

theorem set_field {β : Type} (g : UnionFindElement n → β) :
    (fun j => g ((u.set i f).e j)) = Function.update (fun j => g (u.e j)) i (g (f (u.e i))) := Function.comp_update ..

@[simp] theorem Parent_setParent : (u.setParent i p).Parent = Function.update u.Parent i (some p) := u.set_field ..
@[simp] theorem Parent_setCount : (u.setCount i c).Parent = u.Parent :=
  (u.set_field i _ UnionFindElement.parent).trans (Function.update_eq_self ..)
@[simp] theorem Parent_setName : (u.setName i p).Parent = u.Parent :=
  (u.set_field i _ UnionFindElement.parent).trans (Function.update_eq_self ..)
@[simp] theorem Parent_setRoot : (u.setRoot i p).Parent = u.Parent :=
  (u.set_field i _ UnionFindElement.parent).trans (Function.update_eq_self ..)

@[simp] theorem Count_setCount : (u.setCount i c).Count = Function.update u.Count i c := u.set_field ..
@[simp] theorem Count_setParent : (u.setParent i p).Count = u.Count :=
  (u.set_field i _ UnionFindElement.count).trans (Function.update_eq_self ..)
@[simp] theorem Count_setName : (u.setName i p).Count = u.Count :=
  (u.set_field i _ UnionFindElement.count).trans (Function.update_eq_self ..)
@[simp] theorem Count_setRoot : (u.setRoot i p).Count = u.Count :=
  (u.set_field i _ UnionFindElement.count).trans (Function.update_eq_self ..)

@[simp] theorem Name_setName : (u.setName i p).Name = Function.update u.Name i p := u.set_field ..
@[simp] theorem Name_setParent : (u.setParent i p).Name = u.Name :=
  (u.set_field i _ UnionFindElement.name).trans (Function.update_eq_self ..)
@[simp] theorem Name_setCount : (u.setCount i c).Name = u.Name :=
  (u.set_field i _ UnionFindElement.name).trans (Function.update_eq_self ..)
@[simp] theorem Name_setRoot : (u.setRoot i p).Name = u.Name :=
  (u.set_field i _ UnionFindElement.name).trans (Function.update_eq_self ..)

@[simp] theorem Root_setRoot : (u.setRoot i p).Root = Function.update u.Root i p := u.set_field ..
@[simp] theorem Root_setParent : (u.setParent i p).Root = u.Root :=
  (u.set_field i _ UnionFindElement.root).trans (Function.update_eq_self ..)
@[simp] theorem Root_setCount : (u.setCount i c).Root = u.Root :=
  (u.set_field i _ UnionFindElement.root).trans (Function.update_eq_self ..)
@[simp] theorem Root_setName : (u.setName i p).Root = u.Root :=
  (u.set_field i _ UnionFindElement.root).trans (Function.update_eq_self ..)

variable (large small k : Fin n)

@[simp] theorem Parent_link : (u.link large small k).Parent = Function.update u.Parent small (some large) := by
  simp only [link, Parent_setRoot, Parent_setName, Parent_setCount, Parent_setParent]

@[simp] theorem Count_link : (u.link large small k).Count = Function.update u.Count large (u.Count large + u.Count small) := by
  simp only [link, Count_setRoot, Count_setName, Count_setCount, Count_setParent]

@[simp] theorem Name_link : (u.link large small k).Name = Function.update u.Name large k := by
  simp only [link, Name_setRoot, Name_setName, Name_setCount, Name_setParent]

@[simp] theorem Root_link : (u.link large small k).Root = Function.update u.Root k large := by
  simp only [link, Root_setRoot, Root_setName, Root_setCount, Root_setParent]

end Fields

/-! ## Finding -/

/-- What a search leaves: shorter ways, and everything else as it was. -/
structure Compressed (u u' : UnionFindUniverse n) : Prop where
  shortens : Shortens u.Parent u'.Parent
  name : u'.Name = u.Name
  count : u'.Count = u.Count
  root : u'.Root = u.Root

variable {u}

theorem Compressed.refl : Compressed u u := ⟨.refl, rfl, rfl, rfl⟩

/-- An element is hung below its root. -/
theorem Compressed.setParent {u' : UnionFindUniverse n} {v r : Fin n} {d : Nat} (h : Compressed u u')
    (hv : Reaches u.Parent v d r) (hne : v ≠ r) : Compressed u (u'.setParent v r) := by
  obtain ⟨d', -, hv'⟩ := h.shortens.shorter hv
  refine ⟨?_, by rw [Name_setParent, h.name], by rw [Count_setParent, h.count], by rw [Root_setParent, h.root]⟩
  rw [Parent_setParent]
  exact h.shortens.trans (.compress hv' hne)

/-- A search finds the root, with one call for each step of the way. -/
theorem do_FIND_spec {v r : Fin n} {d : Nat} (h : Reaches u.Parent v d r) :
    ∀ {fuel : Nat}, d < fuel → ∃ u', do_FIND fuel u v = some (r, u') ∧ Compressed u u' := by
  induction h with
  | @root r hr =>
    intro fuel hfuel
    obtain ⟨fuel, rfl⟩ := Nat.exists_eq_succ_of_ne_zero (Nat.ne_of_gt hfuel)
    exact ⟨u, by rw [do_FIND, hr], .refl⟩
  | @step v p r d hp hreach ih =>
    intro fuel hfuel
    obtain ⟨fuel, rfl⟩ := Nat.exists_eq_succ_of_ne_zero (Nat.ne_of_gt (Nat.zero_lt_of_lt hfuel))
    obtain ⟨u', hu', hc⟩ := ih (Nat.lt_of_succ_lt_succ hfuel)
    refine ⟨u'.setParent v r, ?_, hc.setParent (.step hp hreach) ?_⟩
    · rw [do_FIND, hp]
      simp only [hu', Option.bind_eq_bind, Option.bind_some]
    · rintro rfl
      rw [hreach.isRoot] at hp
      cases hp

/-- `Find` gives the name of the root; its search has one call for each step of the way. -/
theorem Find_spec {v r : Fin n} {d fuel : Nat} (h : Reaches u.Parent v d r) (hfuel : d ≤ fuel) :
    ∃ u', u.Find fuel v = some (u.Name r, u') ∧ Compressed u u' := by
  cases h with
  | root hr => exact ⟨u, by rw [Find, hr], .refl⟩
  | @step _ p _ d hp hreach =>
    obtain ⟨u', hu', hc⟩ := do_FIND_spec hreach hfuel
    have hne : v ≠ r := by
      rintro rfl
      rw [hreach.isRoot] at hp
      cases hp
    have hset := hc.setParent (.step hp hreach) hne
    refine ⟨u'.setParent v r, ?_, hset⟩
    rw [Find, hp]
    simp only [hu', Option.bind_eq_bind, Option.bind_some, hset.name]

/-! ## The names of the sets -/

/-- The abstract machine has the name of the set of each element; two names become one. -/
def merge (f : Fin n → Fin n) (i j k : Fin n) : Fin n → Fin n := fun v => if f v = i ∨ f v = j then k else f v

/-- What `Union` may be called with: names of sets there are, the same name for one set, and no name of a third set. -/
structure MayMerge (f : Fin n → Fin n) (i j k : Fin n) : Prop where
  left : i ∈ Set.range f
  right : j ∈ Set.range f
  same : i = j → k = i
  fresh : k = i ∨ k = j ∨ k ∉ Set.range f

/-- The forest is balanced, and its roots know the size and the name of their sets, the names the roots. -/
structure Inv (u : UnionFindUniverse n) : Prop where
  balanced : Balanced u.Parent
  count : ∀ r, u.Parent r = none → u.Count r = (tree u.Parent r).ncard
  named : ∀ r, u.Parent r = none → u.Root (u.Name r) = r

/-- The roots have the names that the abstract machine has. -/
def Names (u : UnionFindUniverse n) (f : Fin n → Fin n) : Prop := ∀ v d r, Reaches u.Parent v d r → u.Name r = f v

theorem inv_ofHighWaterMark (n : Nat) : Inv (ofHighWaterMark n) := by
  refine ⟨Forest.balanced_none, fun r _ => ?_, fun r _ => rfl⟩
  exact (Forest.ncard_tree_none r).symm

theorem names_ofHighWaterMark (n : Nat) : Names (ofHighWaterMark n) id := by
  intro v d r h
  exact (h.eq_of_isRoot rfl).2

section Compressed

variable {u' : UnionFindUniverse n} (h : Compressed u u')
include h

/-- A search keeps the invariant. -/
theorem Inv.compressed (hi : Inv u) : Inv u' := by
  have hall := Forest.exists_reaches hi.balanced
  refine ⟨h.shortens.balanced hi.balanced, fun r hr => ?_, fun r hr => ?_⟩
  · rw [h.shortens.tree_eq hall, h.count]
    exact hi.count r ((h.shortens.isRoot_iff hall).1 hr)
  · rw [h.root, h.name]
    exact hi.named r ((h.shortens.isRoot_iff hall).1 hr)

theorem Names.compressed (hi : Inv u) {f : Fin n → Fin n} (hf : Names u f) : Names u' f := by
  intro v d r hv
  obtain ⟨e, -, hv'⟩ := h.shortens.reaches (Forest.exists_reaches hi.balanced) hv
  rw [h.name]
  exact hf v e r hv'

end Compressed

/-- `Find` gives the name of the set, and its search calls itself at most logarithmically often. -/
theorem Find_answers {f : Fin n → Fin n} (hi : Inv u) (hf : Names u f) {fuel : Nat} (hfuel : Nat.log 2 n ≤ fuel) (v : Fin n) :
    ∃ u', u.Find fuel v = some (f v, u') ∧ Inv u' ∧ Names u' f := by
  obtain ⟨d, r, hv⟩ := Forest.exists_reaches hi.balanced v
  have hd := hi.balanced.le_log hv
  rw [Fintype.card_fin] at hd
  obtain ⟨u', hu', hc⟩ := Find_spec hv (hd.trans hfuel)
  rw [hf v d r hv] at hu'
  exact ⟨u', hu', hi.compressed hc, hf.compressed hc hi⟩

/-- The root of a name that is there. -/
theorem Inv.root_of_mem {f : Fin n → Fin n} (hi : Inv u) (hf : Names u f) {i : Fin n} (h : i ∈ Set.range f) :
    u.Parent (u.Root i) = none ∧ u.Name (u.Root i) = i ∧ ∀ v d r, Reaches u.Parent v d r → (f v = i ↔ r = u.Root i) := by
  obtain ⟨a, rfl⟩ := h
  obtain ⟨d, r, ha⟩ := Forest.exists_reaches hi.balanced a
  have hroot : u.Root (f a) = r := by
    rw [← hf a d r ha]
    exact hi.named r ha.isRoot
  rw [hroot]
  refine ⟨ha.isRoot, hf a d r ha, fun v d' r' hv => ⟨fun h => ?_, ?_⟩⟩
  · rw [← hi.named r' hv.isRoot, hf v d' r' hv, h, hroot]
  · rintro rfl
    rw [← hf v d' r' hv, hf a d r' ha]

section Link

variable {f : Fin n → Fin n} {large small k : Fin n} (hi : Inv u) (hf : Names u f) (hl : u.Parent large = none)
  (hs : u.Parent small = none) (hne : large ≠ small)
  (hfresh : ∀ r, u.Parent r = none → r ≠ large → r ≠ small → u.Name r ≠ k)
include hi hl hs hne

include hfresh in
/-- The assignments keep the invariant when they hang the smaller tree below the larger one. -/
theorem Inv.link (hsize : u.Count small ≤ u.Count large) : Inv (u.link large small k) := by
  have hall := Forest.exists_reaches hi.balanced
  -- the roots are the old ones but the smaller one
  have hold : ∀ r, (u.link large small k).Parent r = none → r ≠ small ∧ u.Parent r = none := by
    intro r hr
    rw [Parent_link] at hr
    have hrs : r ≠ small := by
      rintro rfl
      rw [Function.update_self] at hr
      cases hr
    exact ⟨hrs, by rwa [Function.update_of_ne hrs] at hr⟩
  refine ⟨?_, fun r hr => ?_, fun r hr => ?_⟩
  · rw [Parent_link]
    refine hi.balanced.link hs hl hne ?_
    rwa [← hi.count _ hs, ← hi.count _ hl]
  · obtain ⟨hrs, hr'⟩ := hold r hr
    rw [Parent_link, Count_link]
    by_cases hrl : r = large
    · subst hrl
      rw [Function.update_self, Forest.ncard_tree_link hall hs hl hne, hi.count _ hl, hi.count _ hs]
    · rw [Function.update_of_ne hrl, Forest.tree_link hall hs hl hne hrs, if_neg hrl]
      exact hi.count r hr'
  · obtain ⟨hrs, hr'⟩ := hold r hr
    rw [Name_link, Root_link]
    by_cases hrl : r = large
    · subst hrl
      rw [Function.update_self, Function.update_self]
    · rw [Function.update_of_ne hrl, Function.update_of_ne (hfresh r hr' hrl hrs)]
      exact hi.named r hr'

include hf in
theorem Names.link {i j : Fin n} (hij : ∀ v d r, Reaches u.Parent v d r → (f v = i ∨ f v = j ↔ r = large ∨ r = small)) :
    Names (u.link large small k) (merge f i j k) := by
  intro v d r hv
  obtain ⟨e, s, hv'⟩ := Forest.exists_reaches hi.balanced v
  rw [Parent_link] at hv
  obtain ⟨-, rfl⟩ := hv.unique (hv'.link hs hl hne)
  have hin := hij v e s hv'
  rw [Name_link, merge]
  by_cases hss : s = small
  · rw [if_pos hss, Function.update_self, if_pos (hin.2 (.inr hss))]
  · rw [if_neg hss]
    by_cases hsl : s = large
    · rw [hsl, Function.update_self, if_pos (hin.2 (.inl hsl))]
    · rw [Function.update_of_ne hsl, if_neg fun h => (hin.1 h).elim hsl hss]
      exact hf v e s hv'

end Link

/-- `Union` merges the two names, and keeps the invariant. -/
theorem Union_merges {f : Fin n → Fin n} (hi : Inv u) (hf : Names u f) {i j k : Fin n} (h : MayMerge f i j k) :
    Inv (u.Union i j k) ∧ Names (u.Union i j k) (merge f i j k) := by
  obtain ⟨hri, hni, hmi⟩ := hi.root_of_mem hf h.left
  obtain ⟨hrj, hnj, hmj⟩ := hi.root_of_mem hf h.right
  by_cases hij : i = j
  · -- nothing is done, and nothing is renamed
    obtain rfl := hij
    obtain rfl := h.same rfl
    have hmerge : merge f k k k = f := by
      funext v
      unfold merge
      split_ifs with hv
      · exact (hv.elim id id).symm
      · rfl
    rw [Union, if_pos ⟨rfl, rfl⟩, hmerge]
    exact ⟨hi, hf⟩
  · have hne : u.Root i ≠ u.Root j := by
      intro heq
      rw [heq, hnj] at hni
      exact hij hni.symm
    have hfresh : ∀ r, u.Parent r = none → r ≠ u.Root i → r ≠ u.Root j → u.Name r ≠ k := by
      intro r hr hr₁ hr₂ hk
      have hfr : f r = k := by rw [← hf r 0 r (.root hr), hk]
      rcases h.fresh with rfl | rfl | hno
      · exact hr₁ ((hmi r 0 r (.root hr)).1 hfr)
      · exact hr₂ ((hmj r 0 r (.root hr)).1 hfr)
      · exact hno ⟨r, hfr⟩
    have hin : ∀ v d r, Reaches u.Parent v d r → (f v = i ∨ f v = j ↔ r = u.Root i ∨ r = u.Root j) :=
      fun v d r hv => or_congr (hmi v d r hv) (hmj v d r hv)
    rw [Union, if_neg fun h => hij h.1]
    split_ifs with hsize
    · exact ⟨hi.link hri hrj hne hfresh hsize.le, hf.link hi hri hrj hne hin⟩
    · exact ⟨hi.link hrj hri hne.symm (fun r hr h₁ h₂ => hfresh r hr h₂ h₁) (not_lt.1 hsize),
        hf.link hi hrj hri hne.symm fun v d r hv => (hin v d r hv).trans or_comm⟩

/-! ## Runs -/

/-- A call of the universe. -/
inductive Call (n : Nat)
  | find (v : Fin n)
  | union (i j k : Fin n)

/-- The calls one after the other, with the names that the searches give. -/
def run (fuel : Nat) : UnionFindUniverse n → List (Call n) → Option (List (Fin n) × UnionFindUniverse n)
  | u, [] => some ([], u)
  | u, .find v :: cs => do
    let (x, u') ← u.Find fuel v
    let (xs, u'') ← run fuel u' cs
    some (x :: xs, u'')
  | u, .union i j k :: cs => run fuel (u.Union i j k) cs

/-- The answers of the abstract machine. -/
def answers : (Fin n → Fin n) → List (Call n) → List (Fin n)
  | _, [] => []
  | f, .find v :: cs => f v :: answers f cs
  | f, .union i j k :: cs => answers (merge f i j k) cs

/-- Each call of `Union` names sets that are there at its time. -/
def Allowed : (Fin n → Fin n) → List (Call n) → Prop
  | _, [] => True
  | f, .find _ :: cs => Allowed f cs
  | f, .union i j k :: cs => MayMerge f i j k ∧ Allowed (merge f i j k) cs

/-- The names of the abstract machine after the calls. -/
def namesAfterCalls : (Fin n → Fin n) → List (Call n) → Fin n → Fin n
  | f, [] => f
  | f, .find _ :: cs => namesAfterCalls f cs
  | f, .union i j k :: cs => namesAfterCalls (merge f i j k) cs

/-- A run of allowed calls gives the answers of the abstract machine, and keeps the invariant and the names. -/
theorem run_answers_from {fuel : Nat} (hfuel : Nat.log 2 n ≤ fuel) {cs : List (Call n)} : ∀ {u : UnionFindUniverse n}
    {f : Fin n → Fin n}, Inv u → Names u f → Allowed f cs →
      ∃ u', run fuel u cs = some (answers f cs, u') ∧ Inv u' ∧ Names u' (namesAfterCalls f cs) := by
  induction cs with
  | nil => exact fun hi hf _ => ⟨_, rfl, hi, hf⟩
  | cons c cs ih =>
    intro u f hi hf h
    cases c with
    | find v =>
      obtain ⟨u', hu', hi', hf'⟩ := Find_answers hi hf hfuel v
      obtain ⟨u'', hu'', hreached⟩ := ih hi' hf' h
      refine ⟨u'', ?_, hreached⟩
      rw [run, answers]
      simp only [hu', hu'', Option.bind_eq_bind, Option.bind_some]
    | union i j k =>
      obtain ⟨hi', hf'⟩ := Union_merges hi hf h.1
      exact ih hi' hf' h.2

/-- The universe that allowed calls reach from a fresh one has the invariant, and the names of the abstract machine. -/
theorem run_reaches {fuel : Nat} (hfuel : Nat.log 2 n ≤ fuel) {cs : List (Call n)} (h : Allowed id cs)
    {xs : List (Fin n)} {u : UnionFindUniverse n} (hrun : run fuel (ofHighWaterMark n) cs = some (xs, u)) :
    Inv u ∧ Names u (namesAfterCalls id cs) := by
  obtain ⟨u', hu', hreached⟩ := run_answers_from hfuel (inv_ofHighWaterMark n) (names_ofHighWaterMark n) h
  rw [hrun, Option.some.injEq, Prod.mk.injEq] at hu'
  obtain ⟨-, rfl⟩ := hu'
  exact hreached

/-- Every run of allowed calls gives the answers of the abstract machine. No search calls itself more often than the logarithm
of the number of elements. -/
theorem run_answers (fuel : Nat) (hfuel : Nat.log 2 n ≤ fuel) (cs : List (Call n)) (h : Allowed id cs) :
    ∃ u, run fuel (ofHighWaterMark n) cs = some (answers id cs, u) := by
  obtain ⟨u, hu, -⟩ := run_answers_from hfuel (inv_ofHighWaterMark n) (names_ofHighWaterMark n) h
  exact ⟨u, hu⟩

/-- The sets of 1, 2 and 3 are merged, under the names 1 and then 3. -/
theorem run_answers_three : ∃ u, run 2 (ofHighWaterMark 4) [.union 1 2 1, .find 2, .union 1 3 3, .find 2] = some ([1, 3], u) := by
  refine run_answers 2 (by decide) [.union 1 2 1, .find 2, .union 1 3 3, .find 2] ⟨⟨⟨1, rfl⟩, ⟨2, rfl⟩, fun h => ?_, .inl rfl⟩,
    ⟨⟨1, rfl⟩, ⟨3, rfl⟩, fun h => ?_, .inr (.inl rfl)⟩, trivial⟩
  · exact absurd h (by decide)
  · exact absurd h (by decide)

/-! ## Connected elements -/

/-- The pairs are merged one after the other: `Union(Find(a), Find(b), Find(b))`. -/
def mergePairs (fuel : Nat) : UnionFindUniverse n → List (Fin n × Fin n) → Option (UnionFindUniverse n)
  | u, [] => some u
  | u, p :: ps => do
    let (i, u₁) ← u.Find fuel p.1
    let (j, u₂) ← u₁.Find fuel p.2
    let (k, u₃) ← u₂.Find fuel p.2
    mergePairs fuel (u₃.Union i j k) ps

/-- The names after the pairs. -/
def namesAfter (f : Fin n → Fin n) (ps : List (Fin n × Fin n)) : Fin n → Fin n :=
  ps.foldl (fun f p => merge f (f p.1) (f p.2) (f p.2)) f

theorem mayMerge_names (f : Fin n → Fin n) (a b : Fin n) : MayMerge f (f a) (f b) (f b) :=
  ⟨⟨a, rfl⟩, ⟨b, rfl⟩, Eq.symm, .inr (.inl rfl)⟩

theorem mergePairs_names {fuel : Nat} (hfuel : Nat.log 2 n ≤ fuel) (ps : List (Fin n × Fin n)) : ∀ {u : UnionFindUniverse n}
    {f : Fin n → Fin n}, Inv u → Names u f → ∃ u', mergePairs fuel u ps = some u' ∧ Inv u' ∧ Names u' (namesAfter f ps) := by
  induction ps with
  | nil => exact fun hi hf => ⟨_, rfl, hi, hf⟩
  | cons p ps ih =>
    intro u f hi hf
    obtain ⟨u₁, hu₁, hi₁, hf₁⟩ := Find_answers hi hf hfuel p.1
    obtain ⟨u₂, hu₂, hi₂, hf₂⟩ := Find_answers hi₁ hf₁ hfuel p.2
    obtain ⟨u₃, hu₃, hi₃, hf₃⟩ := Find_answers hi₂ hf₂ hfuel p.2
    obtain ⟨hi', hf'⟩ := Union_merges hi₃ hf₃ (mayMerge_names f p.1 p.2)
    obtain ⟨u', hu', h⟩ := ih hi' hf'
    refine ⟨u', ?_, h⟩
    rw [mergePairs]
    simp only [hu₁, hu₂, hu₃, hu', Option.bind_eq_bind, Option.bind_some]

/-- Merging two names identifies the elements that have them. -/
theorem merge_eq_iff (f : Fin n → Fin n) (a b v w : Fin n) : merge f (f a) (f b) (f b) v = merge f (f a) (f b) (f b) w ↔
    f v = f w ∨ ((f v = f a ∨ f v = f b) ∧ (f w = f a ∨ f w = f b)) := by
  unfold merge
  split_ifs with hv hw hw
  · exact ⟨fun _ => .inr ⟨hv, hw⟩, fun _ => rfl⟩
  · refine ⟨fun h => absurd (.inr h.symm) hw, fun h => ?_⟩
    rcases h with h | h
    · rw [← h] at hw
      exact absurd hv hw
    · exact absurd h.2 hw
  · refine ⟨fun h => absurd (.inr h) hv, fun h => ?_⟩
    rcases h with h | h
    · rw [h] at hv
      exact absurd hw hv
    · exact absurd h.1 hv
  · exact ⟨.inl, fun h => h.elim id fun h => absurd h.1 hv⟩

/-- Two elements have one name in the end iff they had one in the beginning, up to the pairs. -/
theorem namesAfter_eq_iff {ps : List (Fin n × Fin n)} : ∀ {f : Fin n → Fin n} {v w : Fin n},
    namesAfter f ps v = namesAfter f ps w ↔ Relation.EqvGen (fun a b => f a = f b ∨ (a, b) ∈ ps) v w := by
  induction ps with
  | nil =>
    intro f v w
    refine ⟨fun h => .rel _ _ (.inl h), fun h => ?_⟩
    induction h with
    | rel _ _ h => exact h.resolve_right List.not_mem_nil
    | refl => rfl
    | symm _ _ _ ih => exact ih.symm
    | trans _ _ _ _ _ ih₁ ih₂ => exact ih₁.trans ih₂
  | cons p ps ih =>
    intro f v w
    obtain ⟨a, b⟩ := p
    rw [show namesAfter f ((a, b) :: ps) = namesAfter (merge f (f a) (f b) (f b)) ps from rfl, ih]
    have hpair : Relation.EqvGen (fun x y => f x = f y ∨ (x, y) ∈ (a, b) :: ps) a b := .rel _ _ (.inr List.mem_cons_self)
    have hname : ∀ {x y : Fin n}, f x = f y → Relation.EqvGen (fun x y => f x = f y ∨ (x, y) ∈ (a, b) :: ps) x y :=
      fun h => .rel _ _ (.inl h)
    constructor
    · intro h
      induction h with
      | rel x y h =>
        rcases h with h | h
        · rcases (merge_eq_iff f a b x y).1 h with h | ⟨hx, hy⟩
          · exact hname h
          · -- both are joined with `b`
            have hb : ∀ z, f z = f a ∨ f z = f b →
                Relation.EqvGen (fun x y => f x = f y ∨ (x, y) ∈ (a, b) :: ps) z b := fun z hz =>
              hz.elim (fun hz => (hname hz).trans _ _ _ hpair) hname
            exact (hb x hx).trans _ _ _ ((hb y hy).symm _ _)
        · exact .rel _ _ (.inr (List.mem_cons_of_mem _ h))
      | refl => exact .refl _
      | symm _ _ _ ih => exact ih.symm _ _
      | trans _ _ _ _ _ ih₁ ih₂ => exact ih₁.trans _ _ _ ih₂
    · intro h
      induction h with
      | rel x y h =>
        rcases h with h | h
        · exact .rel _ _ (.inl ((merge_eq_iff f a b x y).2 (.inl h)))
        · rcases List.mem_cons.1 h with h | h
          · cases h
            exact .rel _ _ (.inl ((merge_eq_iff f _ _ _ _).2 (.inr ⟨.inl rfl, .inr rfl⟩)))
          · exact .rel _ _ (.inr h)
      | refl => exact .refl _
      | symm _ _ _ ih => exact ih.symm _ _
      | trans _ _ _ _ _ ih₁ ih₂ => exact ih₁.trans _ _ _ ih₂

theorem namesAfter_id_eq_iff {ps : List (Fin n × Fin n)} {v w : Fin n} :
    namesAfter id ps v = namesAfter id ps w ↔ Relation.EqvGen (fun a b => (a, b) ∈ ps) v w := by
  rw [namesAfter_eq_iff]
  refine ⟨fun h => ?_, fun h => h.mono fun _ _ => .inr⟩
  induction h with
  | rel x y h =>
    rcases h with h | h
    · cases h
      exact .refl _
    · exact .rel _ _ h
  | refl => exact .refl _
  | symm _ _ _ ih => exact ih.symm _ _
  | trans _ _ _ _ _ ih₁ ih₂ => exact ih₁.trans _ _ _ ih₂

/-- After any pairs have been merged, two searches give the same name iff the pairs connect their elements. -/
theorem mergePairs_connects (fuel : Nat) (hfuel : Nat.log 2 n ≤ fuel) (ps : List (Fin n × Fin n)) :
    ∃ u, mergePairs fuel (ofHighWaterMark n) ps = some u ∧ ∀ v w, ∃ x u' y u'', u.Find fuel v = some (x, u') ∧
      u'.Find fuel w = some (y, u'') ∧ (x = y ↔ Relation.EqvGen (fun a b => (a, b) ∈ ps) v w) := by
  obtain ⟨u, hu, hi, hf⟩ := mergePairs_names hfuel ps (inv_ofHighWaterMark n) (names_ofHighWaterMark n)
  refine ⟨u, hu, fun v w => ?_⟩
  obtain ⟨u', hu', hi', hf'⟩ := Find_answers hi hf hfuel v
  obtain ⟨u'', hu'', -⟩ := Find_answers hi' hf' hfuel w
  exact ⟨_, u', _, u'', hu', hu'', namesAfter_id_eq_iff⟩

theorem mergePairs_connects_ends : ∃ u, mergePairs 2 (ofHighWaterMark 4) [(0, 1), (2, 1)] = some u ∧ ∀ v w, ∃ x u' y u'',
    u.Find 2 v = some (x, u') ∧ u'.Find 2 w = some (y, u'') ∧
      (x = y ↔ Relation.EqvGen (fun a b : Fin 4 => (a, b) ∈ [(0, 1), (2, 1)]) v w) :=
  mergePairs_connects 2 (by decide) [(0, 1), (2, 1)]

/-! ## A set merged with itself -/

/-- Below an element that is its own parent, no search ends. -/
theorem do_FIND_loop {v r : Fin n} {d : Nat} (h : Reaches u.Parent v d r) {u' : UnionFindUniverse n}
    (hp : u'.Parent = Function.update u.Parent r (some r)) : ∀ fuel, do_FIND fuel u' v = none := by
  induction h with
  | @root r hr =>
    intro fuel
    induction fuel with
    | zero => rfl
    | succ fuel ih =>
      rw [do_FIND, hp, Function.update_self]
      simp only [ih, Option.bind_eq_bind, Option.bind_none]
  | @step v p r d hv hreach ih =>
    intro fuel
    have hne : v ≠ r := by
      rintro rfl
      rw [hreach.isRoot] at hv
      cases hv
    cases fuel with
    | zero => rfl
    | succ fuel =>
      rw [do_FIND, hp, Function.update_of_ne hne, hv]
      simp only [ih hp fuel, Option.bind_eq_bind, Option.bind_none]

theorem Find_loop {v r : Fin n} {d : Nat} (h : Reaches u.Parent v d r) {u' : UnionFindUniverse n}
    (hp : u'.Parent = Function.update u.Parent r (some r)) (fuel : Nat) : u'.Find fuel v = none := by
  cases h with
  | root hr =>
    rw [Find, hp, Function.update_self]
    simp only [do_FIND_loop (.root hr) hp, Option.bind_eq_bind, Option.bind_none]
  | @step _ p _ _ hv hreach =>
    have hne : v ≠ r := by
      rintro rfl
      rw [hreach.isRoot] at hv
      cases hv
    rw [Find, hp, Function.update_of_ne hne, hv]
    simp only [do_FIND_loop hreach hp, Option.bind_eq_bind, Option.bind_none]

/-- After two sets that are there have been merged, a search ends unless a set was merged with itself under a new name and
the element is in it. -/
theorem Find_returns_iff (u : UnionFindUniverse n) (f : Fin n → Fin n) (i j k v : Fin n) (hi : Inv u) (hf : Names u f)
    (hl : i ∈ Set.range f) (hr : j ∈ Set.range f) :
    (∃ fuel x u', (u.Union i j k).Find fuel v = some (x, u')) ↔ ¬ (i = j ∧ k ≠ i ∧ f v = i) := by
  obtain ⟨hri, hni, hmi⟩ := hi.root_of_mem hf hl
  obtain ⟨hrj, hnj, -⟩ := hi.root_of_mem hf hr
  obtain ⟨d, r, hv⟩ := Forest.exists_reaches hi.balanced v
  have hends : ∀ {u' : UnionFindUniverse n} {e : Nat} {s : Fin n}, Reaches u'.Parent v e s →
      ∃ fuel x u'', u'.Find fuel v = some (x, u'') := by
    intro u' e s h
    obtain ⟨u'', hu'', -⟩ := Find_spec h le_rfl
    exact ⟨e, _, u'', hu''⟩
  by_cases hij : i = j
  · obtain rfl := hij
    by_cases hk : k = i
    · rw [Union, if_pos ⟨rfl, hk.symm⟩]
      exact iff_of_true (hends hv) fun h => h.2.1 hk
    · have hunion : (u.Union i i k).Parent = Function.update u.Parent (u.Root i) (some (u.Root i)) := by
        rw [Union, if_neg fun h => hk h.2.symm, ite_self, Parent_link]
      by_cases hfv : f v = i
      · obtain rfl := (hmi v d r hv).1 hfv
        refine iff_of_false ?_ fun h => h ⟨rfl, hk, hfv⟩
        rintro ⟨fuel, x, u', hfind⟩
        rw [Find_loop hv hunion] at hfind
        cases hfind
      · refine iff_of_true (hends (e := d) (s := r) ?_) fun h => hfv h.2.2
        rw [hunion]
        exact hv.frame hri fun h => hfv ((hmi v d r hv).2 h)
  · have hne : u.Root i ≠ u.Root j := by
      intro heq
      rw [heq, hnj] at hni
      exact hij hni.symm
    refine iff_of_true ?_ fun h => hij h.1
    rw [Union, if_neg fun h => hij h.1]
    split_ifs
    · have hlink := hv.link hrj hri hne
      rw [← u.Parent_link _ _ k] at hlink
      exact hends hlink
    · have hlink := hv.link hri hrj hne.symm
      rw [← u.Parent_link _ _ k] at hlink
      exact hends hlink

/-- The set of 1 under the name 2: the search for 1 does not end, the one for 0 does. -/
theorem Find_returns_renamed : ¬ (∃ fuel x u', ((ofHighWaterMark 3).Union 1 1 2).Find fuel 1 = some (x, u')) ∧
    ∃ fuel x u', ((ofHighWaterMark 3).Union 1 1 2).Find fuel 0 = some (x, u') := by
  refine ⟨fun h => ?_, ?_⟩
  · exact (Find_returns_iff (ofHighWaterMark 3) id 1 1 2 1 (inv_ofHighWaterMark 3) (names_ofHighWaterMark 3) ⟨1, rfl⟩
      ⟨1, rfl⟩).1 h ⟨rfl, by decide, rfl⟩
  · exact (Find_returns_iff (ofHighWaterMark 3) id 1 1 2 0 (inv_ofHighWaterMark 3) (names_ofHighWaterMark 3) ⟨1, rfl⟩
      ⟨1, rfl⟩).2 fun h => absurd h.2.2 (by decide)

end UnionFindUniverse

end OA
