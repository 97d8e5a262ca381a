import IEGen.Lib.Words
import Mathlib.Data.Finset.Card
import Mathlib.Data.Nat.Find
import Mathlib.Order.Interval.Finset.Nat

/-!
# Numbered names

A name with a number behind it, and the first number that makes a name that is free. Of more numbers than there are names
one is free, so that the search for it ends (`search_eq_some`).
-/

namespace FreshNames

/-- The name with a number behind it. -/
def numbered (name : String) (k : Nat) : String := name ++ toString k

theorem numbered_injective (name : String) : Function.Injective (numbered name) := by
  intro i j h
  have hlist := congrArg String.toList h
  simp only [numbered, String.toList_append] at hlist
  exact Words.digits_injective (List.append_cancel_left hlist)

/-- Of more numbers in a row than there are names, one is free. -/
theorem exists_numbered_notMem (name : String) (taken : List String) (start : Nat) :
    ∃ k, start ≤ k ∧ k ≤ start + taken.length ∧ numbered name k ∉ taken := by
  by_contra hno
  have hsub : (Finset.Icc start (start + taken.length)).image (numbered name) ⊆ taken.toFinset := by
    intro s hs
    obtain ⟨k, hk, rfl⟩ := Finset.mem_image.1 hs
    obtain ⟨h₁, h₂⟩ := Finset.mem_Icc.1 hk
    by_contra hfree
    exact hno ⟨k, h₁, h₂, fun hmem => hfree (List.mem_toFinset.2 hmem)⟩
  have hcard := Finset.card_le_card hsub
  rw [Finset.card_image_of_injective _ (numbered_injective name), Nat.card_Icc] at hcard
  have := List.toFinset_card_le taken
  omega

/-- The number is the first from one on that makes a free name. -/
structure IsFirstFree (name : String) (taken : List String) (k : Nat) : Prop where
  pos : 1 ≤ k
  free : numbered name k ∉ taken
  below : ∀ i, 1 ≤ i → i < k → numbered name i ∈ taken

theorem IsFirstFree.unique {name : String} {taken : List String} {k k' : Nat} (h : IsFirstFree name taken k)
    (h' : IsFirstFree name taken k') : k = k' := by
  rcases lt_trichotomy k k' with hlt | heq | hlt
  · exact absurd (h'.below k h.pos hlt) h.free
  · exact heq
  · exact absurd (h.below k' h'.pos hlt) h'.free

/-- The search for a free name from a number on, in a bounded number of rounds. -/
def search (name : String) (taken : List String) : Nat → Nat → Option String
  | 0, _ => none
  | fuel + 1, k => if numbered name k ∈ taken then search name taken fuel (k + 1) else some (numbered name k)

/-- As many rounds as there are numbers up to the first that makes a free name are enough. -/
theorem search_eq_some {name : String} {taken : List String} {k : Nat} (hfree : numbered name k ∉ taken) :
    ∀ {fuel start : Nat}, (∀ i, start ≤ i → i < k → numbered name i ∈ taken) → start ≤ k → k < start + fuel →
      search name taken fuel start = some (numbered name k)
  | 0, start, _, hle, hlt => by omega
  | fuel + 1, start, hbelow, hle, hlt => by
    rw [search]
    rcases Nat.eq_or_lt_of_le hle with rfl | hne
    · rw [if_neg hfree]
    · rw [if_pos (hbelow start le_rfl hne)]
      exact search_eq_some hfree (fun i hi => hbelow i (by omega)) hne (by omega)

theorem exists_isFirstFree (name : String) (taken : List String) :
    ∃ k, IsFirstFree name taken k ∧ k ≤ taken.length + 1 := by
  have hex : ∃ k, 1 ≤ k ∧ numbered name k ∉ taken := by
    obtain ⟨k, hk, -, hfree⟩ := exists_numbered_notMem name taken 1
    exact ⟨k, hk, hfree⟩
  obtain ⟨hpos, hfree⟩ := Nat.find_spec hex
  refine ⟨Nat.find hex, ⟨hpos, hfree, fun i hi hik => ?_⟩, ?_⟩
  · by_contra hno
    exact Nat.find_min hex hik ⟨hi, hno⟩
  · obtain ⟨k, hk, hle, hkfree⟩ := exists_numbered_notMem name taken 1
    have := Nat.find_min' hex ⟨hk, hkfree⟩
    omega

end FreshNames
