import Mathlib.Data.Nat.Log
import Mathlib.Data.Set.Card
import Mathlib.Logic.Function.Basic

/-!
# Forests

A forest is given by the parent of each element; roots have none. Two changes of a forest: a root becomes the child of another
root (`Reaches.link`), and an element becomes a child of its root (`Reaches.compress`). The first one joins two trees, the second
one only makes ways shorter. A forest whose trees are at least as large as two to the length of their ways keeps this when the
smaller tree is linked to the larger one (`Balanced.link`), so its ways are at most logarithmically long.
-/

namespace Forest

variable {α : Type*} {parent : α → Option α}

/-- The way from an element to its root, with its length. -/
inductive Reaches (parent : α → Option α) : α → Nat → α → Prop
  | root {r : α} (h : parent r = none) : Reaches parent r 0 r
  | step {v u r : α} {d : Nat} (h : parent v = some u) (hu : Reaches parent u d r) : Reaches parent v (d + 1) r

namespace Reaches

variable {v w r s : α} {d e : Nat}

theorem isRoot (h : Reaches parent v d r) : parent r = none := by
  induction h with
  | root h => exact h
  | step _ _ ih => exact ih

/-- There is only one way. -/
theorem unique (h : Reaches parent v d r) (h' : Reaches parent v e s) : d = e ∧ r = s := by
  induction h generalizing e with
  | root hr =>
    cases h' with
    | root => exact ⟨rfl, rfl⟩
    | step hs => rw [hr] at hs; cases hs
  | step hv _ ih =>
    cases h' with
    | root hs => rw [hv] at hs; cases hs
    | step hs hu =>
      rw [hv] at hs
      cases hs
      obtain ⟨rfl, rfl⟩ := ih hu
      exact ⟨rfl, rfl⟩

/-- A root is its own root. -/
theorem eq_of_isRoot (h : Reaches parent v d r) (hv : parent v = none) : d = 0 ∧ r = v :=
  h.unique (.root hv)

variable [DecidableEq α]

/-- What happens at one root leaves the ways to the others. -/
theorem frame {s : α} {x : Option α} (hs : parent s = none) (hr : r ≠ s) (h : Reaches parent v d r) :
    Reaches (Function.update parent s x) v d r := by
  induction h with
  | root h => exact .root (by rw [Function.update_of_ne hr, h])
  | @step v u _ _ hv _ ih =>
    refine .step ?_ (ih hr)
    rw [Function.update_of_ne, hv]
    rintro rfl
    rw [hs] at hv
    cases hv

/-- When a root becomes a child of another one, the ways to it get one longer. -/
theorem link {s l : α} (hs : parent s = none) (hl : parent l = none) (hne : l ≠ s) (h : Reaches parent v d r) :
    Reaches (Function.update parent s (some l)) v (if r = s then d + 1 else d) (if r = s then l else r) := by
  have hl' : Function.update parent s (some l) l = none := by rw [Function.update_of_ne hne, hl]
  induction h with
  | @root r hr =>
    split_ifs with hrs
    · rw [hrs]
      exact .step (Function.update_self ..) (.root hl')
    · exact .root (by rw [Function.update_of_ne hrs, hr])
  | @step v u r d hv _ ih =>
    have hvs : v ≠ s := by
      rintro rfl
      rw [hs] at hv
      cases hv
    have hstep := ih
    split_ifs at hstep ⊢
    · exact .step (by rw [Function.update_of_ne hvs, hv]) hstep
    · exact .step (by rw [Function.update_of_ne hvs, hv]) hstep

/-- When an element becomes a child of its root, no way gets longer. -/
theorem compress (hv : Reaches parent v d r) (hne : v ≠ r) (h : Reaches parent w e s) :
    ∃ e' ≤ e, Reaches (Function.update parent v (some r)) w e' s := by
  have hroot : ∀ {x : α}, parent x = none → Function.update parent v (some r) x = none := by
    intro x hx
    rw [Function.update_of_ne, hx]
    rintro rfl
    exact hne (hv.eq_of_isRoot hx).2.symm
  induction h with
  | root hs => exact ⟨0, le_rfl, .root (hroot hs)⟩
  | @step w u s e hw hu ih =>
    by_cases hwv : w = v
    · subst hwv
      obtain ⟨-, rfl⟩ := hv.unique (.step hw hu)
      exact ⟨1, by omega, .step (Function.update_self ..) (.root (hroot hv.isRoot))⟩
    · obtain ⟨e', he', hreach⟩ := ih
      exact ⟨e' + 1, by omega, .step (by rw [Function.update_of_ne hwv, hw]) hreach⟩

end Reaches

/-- The tree of a root. -/
def tree (parent : α → Option α) (r : α) : Set α := {v | ∃ d, Reaches parent v d r}

/-- Every element has a root, and a way that is at most logarithmic in the size of its tree. -/
def Balanced (parent : α → Option α) : Prop := ∀ v, ∃ d r, Reaches parent v d r ∧ 2 ^ d ≤ (tree parent r).ncard

section Link

variable [DecidableEq α] {s l : α} (hb : ∀ v, ∃ d r, Reaches parent v d r) (hs : parent s = none)
  (hl : parent l = none) (hne : l ≠ s)
include hb hs hl hne

/-- The trees after a link. -/
theorem tree_link {r : α} (hr : r ≠ s) : tree (Function.update parent s (some l)) r =
    if r = l then tree parent l ∪ tree parent s else tree parent r := by
  ext v
  obtain ⟨d, r', hv⟩ := hb v
  have hv' := hv.link hs hl hne
  have hmem : ∀ x, v ∈ tree parent x ↔ x = r' := fun x =>
    ⟨fun ⟨_, h⟩ => (h.unique hv).2, fun h => ⟨d, h ▸ hv⟩⟩
  have hmem' : v ∈ tree (Function.update parent s (some l)) r ↔ r = if r' = s then l else r' :=
    ⟨fun ⟨_, h⟩ => (h.unique hv').2, fun h => ⟨_, h ▸ hv'⟩⟩
  rw [hmem']
  split_ifs with h₁ h₂ h₂
  · simp [hmem, h₁, h₂]
  · simp [hmem, h₁, hr, h₂]
  · simp only [Set.mem_union, hmem]
    exact ⟨fun h => .inl (h₂.symm.trans h), fun h => by
      rcases h with h | h
      · exact h₂.trans h
      · exact absurd h.symm h₁⟩
  · rw [hmem]

theorem ncard_tree_link [Finite α] : (tree (Function.update parent s (some l)) l).ncard = (tree parent l).ncard + (tree parent s).ncard := by
  rw [tree_link hb hs hl hne hne, if_pos rfl]
  refine Set.ncard_union_eq (Set.disjoint_left.2 ?_) (Set.toFinite _) (Set.toFinite _)
  rintro v ⟨_, h⟩ ⟨_, h'⟩
  exact hne (h.unique h').2

end Link

theorem exists_reaches {parent : α → Option α} (hb : Balanced parent) (v : α) : ∃ d r, Reaches parent v d r := by
  obtain ⟨d, r, h, -⟩ := hb v
  exact ⟨d, r, h⟩

/-- Linking the smaller tree to the larger one keeps the ways logarithmic. -/
theorem Balanced.link [DecidableEq α] [Finite α] {s l : α} (hb : Balanced parent) (hs : parent s = none) (hl : parent l = none)
    (hne : l ≠ s) (hsize : (tree parent s).ncard ≤ (tree parent l).ncard) :
    Balanced (Function.update parent s (some l)) := by
  intro v
  obtain ⟨d, r, hv, hd⟩ := hb v
  refine ⟨_, _, hv.link hs hl hne, ?_⟩
  split_ifs with hr
  · rw [hr] at hd
    rw [ncard_tree_link (exists_reaches hb) hs hl hne, pow_succ]
    omega
  · rw [tree_link (exists_reaches hb) hs hl hne hr]
    split_ifs with hrl
    · rw [hrl] at hd
      exact hd.trans (Set.ncard_le_ncard Set.subset_union_left (Set.toFinite _))
    · exact hd

/-- In a balanced forest a way is at most as long as the logarithm of the number of elements. -/
theorem Balanced.le_log [Fintype α] (hb : Balanced parent) {v r : α} {d : Nat} (h : Reaches parent v d r) :
    d ≤ Nat.log 2 (Fintype.card α) := by
  obtain ⟨e, s, h', he⟩ := hb v
  obtain ⟨rfl, rfl⟩ := h.unique h'
  have hcard : (tree parent r).ncard ≤ Fintype.card α := by
    rw [← Nat.card_eq_fintype_card, ← Set.ncard_univ]
    exact Set.ncard_le_ncard (Set.subset_univ _) (Set.toFinite _)
  exact Nat.le_log_of_pow_le (by decide) (he.trans hcard)

/-- Without parents, each tree is a root alone. -/
theorem ncard_tree_none (r : α) : (tree (fun _ : α => none) r).ncard = 1 := by
  have htree : tree (fun _ : α => none) r = {r} := by
    ext v
    refine ⟨fun ⟨_, h⟩ => (h.eq_of_isRoot rfl).2.symm, ?_⟩
    rintro rfl
    exact ⟨0, .root rfl⟩
  rw [htree, Set.ncard_singleton]

theorem balanced_none : Balanced (fun _ : α => none) := fun v => ⟨0, v, .root rfl, (ncard_tree_none v).ge⟩

/-- A change that shortens ways and keeps roots. -/
structure Shortens (parent parent' : α → Option α) : Prop where
  shorter : ∀ {v r : α} {d : Nat}, Reaches parent v d r → ∃ d' ≤ d, Reaches parent' v d' r

namespace Shortens

variable {parent' parent'' : α → Option α}

theorem refl : Shortens parent parent := ⟨fun h => ⟨_, le_rfl, h⟩⟩

theorem trans (h : Shortens parent parent') (h' : Shortens parent' parent'') : Shortens parent parent'' :=
  ⟨fun hv => by
    obtain ⟨d', hd', hv'⟩ := h.shorter hv
    obtain ⟨d'', hd'', hv''⟩ := h'.shorter hv'
    exact ⟨d'', hd''.trans hd', hv''⟩⟩

theorem compress [DecidableEq α] {v r : α} {d : Nat} (hv : Reaches parent v d r) (hne : v ≠ r) :
    Shortens parent (Function.update parent v (some r)) := ⟨fun hw => hv.compress hne hw⟩

variable (h : Shortens parent parent')
include h

theorem reaches {v r : α} {d : Nat} (hall : ∀ v, ∃ d r, Reaches parent v d r) (hv : Reaches parent' v d r) :
    ∃ e, d ≤ e ∧ Reaches parent v e r := by
  obtain ⟨e, s, hv'⟩ := hall v
  obtain ⟨d', hd', hs⟩ := h.shorter hv'
  obtain ⟨rfl, rfl⟩ := hv.unique hs
  exact ⟨e, hd', hv'⟩

theorem isRoot_iff (hall : ∀ v, ∃ d r, Reaches parent v d r) {r : α} : parent' r = none ↔ parent r = none := by
  constructor
  · intro hr
    obtain ⟨e, -, hreach⟩ := h.reaches hall (.root hr)
    exact hreach.isRoot
  · intro hr
    obtain ⟨d', -, hreach⟩ := h.shorter (.root hr)
    exact hreach.isRoot

theorem tree_eq (hall : ∀ v, ∃ d r, Reaches parent v d r) (r : α) : tree parent' r = tree parent r := by
  ext v
  refine ⟨fun ⟨_, hv⟩ => ?_, fun ⟨_, hv⟩ => ?_⟩
  · obtain ⟨e, -, hv'⟩ := h.reaches hall hv
    exact ⟨e, hv'⟩
  · obtain ⟨d', -, hv'⟩ := h.shorter hv
    exact ⟨d', hv'⟩

theorem balanced (hb : Balanced parent) : Balanced parent' := by
  intro v
  obtain ⟨d, r, hv, hd⟩ := hb v
  obtain ⟨d', hd', hv'⟩ := h.shorter hv
  refine ⟨d', r, hv', ?_⟩
  rw [h.tree_eq (exists_reaches hb)]
  exact (Nat.pow_le_pow_right (by decide) hd').trans hd

end Shortens

end Forest
