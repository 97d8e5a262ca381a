import Mathlib.Order.ConditionallyCompleteLattice.Basic
import Mathlib.Data.Int.ConditionallyCompleteOrder
import Mathlib.Order.Interval.Set.OrdConnected
import Mathlib.Tactic.Linarith

/-!
# Extending monotone functions on the integers

A function on a set of integers that grows by at least `s` with every step, for a fixed `s`, can be extended to all
integers with the same growth: it goes on from the nearest element of the set. With `s = 0` these are the monotone
functions, which can be extended from any set. A strictly monotone function grows by one with every step only where the
set has no gaps, and only then can every one be extended.
-/

namespace Extension

variable {D : Set ℤ} {g : ℤ → ℤ} {s : ℤ}

/-- The last element up to `x`, or the first one. -/
noncomputable def nearest (D : Set ℤ) (x : ℤ) : ℤ :=
  open Classical in if (D ∩ Set.Iic x).Nonempty then sSup (D ∩ Set.Iic x) else sInf D

theorem bddAbove_inter_Iic (D : Set ℤ) (x : ℤ) : BddAbove (D ∩ Set.Iic x) := ⟨x, fun _ h => h.2⟩

theorem nearest_of_nonempty {x : ℤ} (h : (D ∩ Set.Iic x).Nonempty) :
    nearest D x ∈ D ∩ Set.Iic x ∧ ∀ y ∈ D, y ≤ x → y ≤ nearest D x := by
  rw [nearest, if_pos h]
  exact ⟨Int.csSup_mem h (bddAbove_inter_Iic D x), fun y hy hyx => le_csSup (bddAbove_inter_Iic D x) ⟨hy, hyx⟩⟩

theorem nearest_of_empty {x : ℤ} (h : ¬ (D ∩ Set.Iic x).Nonempty) (hD : D.Nonempty) :
    nearest D x ∈ D ∧ ∀ y ∈ D, nearest D x ≤ y := by
  have hbelow : BddBelow D := by
    refine ⟨x, fun y hy => ?_⟩
    by_contra hlt
    exact h ⟨y, hy, le_of_not_ge hlt⟩
  rw [nearest, if_neg h]
  exact ⟨Int.csInf_mem hD hbelow, fun y hy => csInf_le hbelow hy⟩

theorem nearest_mem (hD : D.Nonempty) (x : ℤ) : nearest D x ∈ D := by
  by_cases h : (D ∩ Set.Iic x).Nonempty
  · exact (nearest_of_nonempty h).1.1
  · exact (nearest_of_empty h hD).1

theorem nearest_of_mem {x : ℤ} (hx : x ∈ D) : nearest D x = x := by
  obtain ⟨hmem, hmax⟩ := nearest_of_nonempty ⟨x, hx, le_refl x⟩
  exact le_antisymm hmem.2 (hmax x hx le_rfl)

theorem nearest_mono (hD : D.Nonempty) : Monotone (nearest D) := by
  intro x y hxy
  by_cases hx : (D ∩ Set.Iic x).Nonempty
  · have hx' := (nearest_of_nonempty hx).1
    exact (nearest_of_nonempty ⟨_, hx'.1, le_trans hx'.2 hxy⟩).2 _ hx'.1 (le_trans hx'.2 hxy)
  · exact (nearest_of_empty hx hD).2 _ (nearest_mem hD y)

/-- A function that grows by at least `s` with every step. -/
def Grows (s : ℤ) (D : Set ℤ) (g : ℤ → ℤ) : Prop := ∀ x ∈ D, ∀ y ∈ D, x ≤ y → s * (y - x) ≤ g y - g x

theorem exists_grows (h : Grows s D g) : ∃ k : ℤ → ℤ, Set.EqOn k g D ∧ Grows s Set.univ k := by
  rcases D.eq_empty_or_nonempty with rfl | hD
  · refine ⟨fun x => s * x, Set.eqOn_empty _ _, fun x _ y _ _ => ?_⟩
    rw [mul_sub]
  · refine ⟨fun x => g (nearest D x) + s * (x - nearest D x), fun x hx => ?_, fun x _ y _ hxy => ?_⟩
    · simp only [nearest_of_mem hx, sub_self, mul_zero, add_zero]
    · have hg := h _ (nearest_mem hD x) _ (nearest_mem hD y) (nearest_mono hD hxy)
      linarith

/-! ## Monotone functions -/

theorem grows_zero_iff : Grows 0 D g ↔ MonotoneOn g D := by
  unfold Grows MonotoneOn
  simp only [zero_mul, sub_nonneg]

theorem strictMono_of_grows_one (h : Grows 1 Set.univ g) : StrictMono g := by
  intro x y hxy
  have hg := h x trivial y trivial hxy.le
  linarith

/-- A strictly monotone function on a set without gaps grows by one with every step. -/
theorem grows_one_of_strictMonoOn (hD : D.OrdConnected) (h : StrictMonoOn g D) : Grows 1 D g := by
  intro x hx y hy hxy
  obtain ⟨n, rfl⟩ := Int.le.dest hxy
  have hgrow : ∀ n : ℕ, x + n ∈ D → (n : ℤ) ≤ g (x + n) - g x := by
    intro n
    induction n with
    | zero => simp
    | succ n ih =>
      intro hn
      have hmem : x + n ∈ D := hD.out hx hn ⟨by omega, by push_cast; omega⟩
      have hlt := h hmem hn (by push_cast; omega)
      have hle := ih hmem
      push_cast at hlt ⊢
      linarith
  have := hgrow n hy
  linarith

/-- Every monotone function on a set can be extended. -/
theorem exists_monotone (h : MonotoneOn g D) : ∃ k : ℤ → ℤ, Set.EqOn k g D ∧ Monotone k := by
  obtain ⟨k, hk, hgrows⟩ := exists_grows (grows_zero_iff.2 h)
  exact ⟨k, hk, monotoneOn_univ.1 (grows_zero_iff.1 hgrows)⟩

/-- Every strictly monotone function on a set can be extended just when the set has no gaps. -/
theorem forall_exists_strictMono_iff :
    (∀ g : ℤ → ℤ, StrictMonoOn g D → ∃ k : ℤ → ℤ, Set.EqOn k g D ∧ StrictMono k) ↔ D.OrdConnected := by
  constructor
  · intro h
    refine ⟨fun x hx y hy z hz => ?_⟩
    by_contra hzD
    -- the function that closes the gap at `z`
    have hg : StrictMonoOn (fun t => if t < z then t else t - 1) D := by
      intro a ha b hb hab
      have hne : ∀ t ∈ D, t ≠ z := fun t ht heq => hzD (heq ▸ ht)
      have := hne a ha
      have := hne b hb
      dsimp only
      split_ifs <;> omega
    obtain ⟨k, hk, hmono⟩ := h _ hg
    have hxz : x < z := lt_of_le_of_ne hz.1 fun heq => hzD (heq ▸ hx)
    have hzy : z < y := lt_of_le_of_ne hz.2 fun heq => hzD (heq ▸ hy)
    have hgrow := grows_one_of_strictMonoOn Set.ordConnected_univ (hmono.strictMonoOn _) x trivial y trivial
      (hxz.trans hzy).le
    rw [hk hx, hk hy] at hgrow
    simp only [hxz, if_true, not_lt.2 hzy.le, if_false] at hgrow
    omega
  · intro hD g hg
    obtain ⟨k, hk, hgrows⟩ := exists_grows (grows_one_of_strictMonoOn hD hg)
    exact ⟨k, hk, strictMono_of_grows_one hgrows⟩

end Extension
