import IEGen.Lib.WeakOrder

/-!
# Maps as lists in the order of their keys

A map is a list of keys with values, in the order of the keys by a strict weak order; tied keys count as one key.
`alter` gives a key a new value, made from the one it had, if any. A value is found under the key that it was put at, or
a tied one (`find_alter`), and the entries of a map in order are what is found (`find_of_mem`, `mem_of_find`).
-/

namespace SortedMap

open SortedList (Tied Sorted StrictWeak)

variable {κ β : Type*} {lt : κ → κ → Bool} {k k' : κ} {m : List (κ × β)}

/-- The value of a key. -/
def find (lt : κ → κ → Bool) (k : κ) (m : List (κ × β)) : Option β :=
  (m.find? (fun p => decide (Tied lt p.1 k))).map Prod.snd

/-- A new value for a key. -/
def alter (lt : κ → κ → Bool) (k : κ) (f : Option β → β) : List (κ × β) → List (κ × β)
  | [] => [(k, f none)]
  | p :: m =>
    if lt k p.1 then (k, f none) :: p :: m
    else if lt p.1 k then p :: alter lt k f m
    else (p.1, f (some p.2)) :: m

/-- The keys are in order. -/
def Ordered (lt : κ → κ → Bool) (m : List (κ × β)) : Prop := Sorted (fun p q : κ × β => lt p.1 q.1) m

theorem ordered_cons {p : κ × β} : Ordered lt (p :: m) ↔ (∀ q ∈ m, lt p.1 q.1 = true) ∧ Ordered lt m := List.pairwise_cons

theorem find_cons {p : κ × β} : find lt k (p :: m) = if Tied lt p.1 k then some p.2 else find lt k m := by
  unfold find
  rw [List.find?_cons]
  by_cases h : Tied lt p.1 k <;> simp [h]

theorem find_eq_none (h : ∀ p ∈ m, ¬ Tied lt p.1 k) : find lt k m = none := by
  rw [find, Option.map_eq_none_iff, List.find?_eq_none]
  simpa using h

theorem mem_of_find {b : β} (h : find lt k m = some b) : ∃ k', Tied lt k' k ∧ (k', b) ∈ m := by
  rw [find, Option.map_eq_some_iff] at h
  obtain ⟨p, hp, rfl⟩ := h
  have ht := List.find?_some hp
  rw [decide_eq_true_eq] at ht
  exact ⟨p.1, ht, List.mem_of_find?_eq_some hp⟩

/-- An entry of a changed map is the changed value of the key, or an old entry. -/
theorem mem_alter {f : Option β → β} {q : κ × β} : ∀ {m : List (κ × β)}, q ∈ alter lt k f m →
    q ∈ m ∨ q = (k, f none) ∨ ∃ p ∈ m, q = (p.1, f (some p.2))
  | [], h => .inr (.inl (List.mem_singleton.1 h))
  | p :: m, h => by
    rw [alter] at h
    split_ifs at h
    · rcases List.mem_cons.1 h with rfl | h
      · exact .inr (.inl rfl)
      · exact .inl h
    · rcases List.mem_cons.1 h with rfl | h
      · exact .inl List.mem_cons_self
      · rcases mem_alter h with h | h | ⟨p', hp', h⟩
        · exact .inl (List.mem_cons_of_mem _ h)
        · exact .inr (.inl h)
        · exact .inr (.inr ⟨p', List.mem_cons_of_mem _ hp', h⟩)
    · rcases List.mem_cons.1 h with rfl | h
      · exact .inr (.inr ⟨p, List.mem_cons_self, rfl⟩)
      · exact .inl (List.mem_cons_of_mem _ h)

/-- The key of an entry is the new key or one of the old. -/
theorem key_of_mem_alter {f : Option β → β} {q : κ × β} (h : q ∈ alter lt k f m) : q.1 = k ∨ ∃ r ∈ m, q.1 = r.1 := by
  rcases mem_alter h with h | rfl | ⟨r, hr, rfl⟩
  · exact .inr ⟨q, h, rfl⟩
  · exact .inl rfl
  · exact .inr ⟨r, hr, rfl⟩

section Order

variable (hlt : StrictWeak lt)
include hlt

theorem find_congr (h : Tied lt k k') : find lt k m = find lt k' m := by
  have hiff : ∀ a, Tied lt a k ↔ Tied lt a k' := fun a =>
    ⟨fun ha => hlt.tied_trans ha h, fun ha => hlt.tied_trans ha h.symm⟩
  simp only [find, hiff]

/-- What stands in a map in order is found there. -/
theorem find_of_mem {b : β} (hm : Ordered lt m) (h : (k, b) ∈ m) : find lt k m = some b := by
  induction m with
  | nil => cases h
  | cons p m ih =>
    obtain ⟨hp, hm⟩ := ordered_cons.1 hm
    rw [find_cons]
    rcases List.mem_cons.1 h with rfl | h
    · rw [if_pos (hlt.tied_refl _)]
    · have hno : ¬ Tied lt p.1 k := fun ht => Bool.false_ne_true (ht.1.symm.trans (hp (k, b) h))
      rw [if_neg hno, ih hm h]

theorem ordered_alter {f : Option β → β} (hm : Ordered lt m) : Ordered lt (alter lt k f m) := by
  induction m with
  | nil => exact List.pairwise_singleton _ _
  | cons p m ih =>
    obtain ⟨hp, hm'⟩ := ordered_cons.1 hm
    rw [alter]
    split_ifs with h₁ h₂
    · refine ordered_cons.2 ⟨fun q hq => ?_, hm⟩
      rcases List.mem_cons.1 hq with rfl | hq
      · exact h₁
      · exact hlt.trans h₁ (hp q hq)
    · refine ordered_cons.2 ⟨fun q hq => ?_, ih hm'⟩
      rcases key_of_mem_alter hq with hk | ⟨r, hr, hk⟩
      · rw [hk]
        exact h₂
      · rw [hk]
        exact hp r hr
    · exact ordered_cons.2 ⟨hp, hm'⟩

/-- What is found after a change: the new value under the key and those tied to it, the old ones elsewhere. -/
theorem find_alter {f : Option β → β} (hm : Ordered lt m) :
    find lt k' (alter lt k f m) = if Tied lt k k' then some (f (find lt k m)) else find lt k' m := by
  induction m with
  | nil =>
    rw [alter, find_cons]
    rfl
  | cons p m ih =>
    obtain ⟨hp, hm'⟩ := ordered_cons.1 hm
    rw [alter]
    split_ifs with h₁ h₂ h₃ h₄ h₅
    · have hnone : find lt k (p :: m) = none := by
        refine find_eq_none fun q hq ht => ?_
        have hkq : lt k q.1 = true := by
          rcases List.mem_cons.1 hq with rfl | hq
          · exact h₁
          · exact hlt.trans h₁ (hp q hq)
        rw [ht.2] at hkq
        cases hkq
      rw [find_cons, if_pos h₂, hnone]
    · rw [find_cons, if_neg h₂]
    · have hno : ¬ Tied lt p.1 k := fun ht => Bool.false_ne_true (ht.1.symm.trans h₃)
      have hno' : ¬ Tied lt p.1 k' := fun ht => hno (hlt.tied_trans ht h₄.symm)
      rw [find_cons, find_cons, if_neg hno', if_neg hno, ih hm', if_pos h₄]
    · rw [find_cons, find_cons, ih hm', if_neg h₄]
    · have htk : Tied lt p.1 k := ⟨by simpa using h₃, by simpa using h₁⟩
      rw [find_cons, find_cons, if_pos (hlt.tied_trans htk h₅), if_pos htk]
    · have htk : Tied lt p.1 k := ⟨by simpa using h₃, by simpa using h₁⟩
      have hno : ¬ Tied lt p.1 k' := fun ht => h₅ (hlt.tied_trans htk.symm ht)
      rw [find_cons, find_cons, if_neg hno, if_neg hno]

end Order

end SortedMap
