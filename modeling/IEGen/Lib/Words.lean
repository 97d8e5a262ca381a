import Mathlib.Data.List.Basic

/-!
# Reading words off a text

A text that starts with a run of elements of one class, followed by one that is not of the class (or by nothing), can
be split into the run and the rest in one way only. For decimal numerals the run gives the number back.
-/

namespace Words

variable {α : Type*}

/-- The text does not go on with an element of the class. -/
def Stops (p : α → Bool) (r : List α) : Prop := ∀ c ∈ r.head?, p c = false

@[simp] theorem stops_nil (p : α → Bool) : Stops p [] := by simp [Stops]

@[simp] theorem stops_cons (p : α → Bool) (c : α) (r : List α) : Stops p (c :: r) ↔ p c = false := by simp [Stops]

/-- A run of the class is read off in one way. -/
theorem run_unique {p : α → Bool} : ∀ {u u' r r' : List α}, (∀ c ∈ u, p c = true) → (∀ c ∈ u', p c = true) →
    Stops p r → Stops p r' → u ++ r = u' ++ r' → u = u' ∧ r = r'
  | [], [], _, _, _, _, _, _, h => ⟨rfl, by simpa using h⟩
  | [], c :: u', _, _, _, hu', hr, _, h => by
    obtain rfl : _ = c :: (u' ++ _) := h
    rw [stops_cons, hu' c List.mem_cons_self] at hr
    cases hr
  | c :: u, [], _, _, hu, _, _, hr', h => by
    obtain rfl : c :: (u ++ _) = _ := h
    rw [stops_cons, hu c List.mem_cons_self] at hr'
    cases hr'
  | c :: u, c' :: u', _, _, hu, hu', hr, hr', h => by
    simp only [List.cons_append, List.cons.injEq] at h
    obtain ⟨rfl, h⟩ := h
    obtain ⟨hu, hrr⟩ := run_unique (fun d hd => hu d (List.mem_cons_of_mem _ hd))
      (fun d hd => hu' d (List.mem_cons_of_mem _ hd)) hr hr' h
    exact ⟨by rw [hu], hrr⟩

/-! ## Numerals -/

/-- The decimal digits of a number. -/
def digits (n : Nat) : List Char := (toString n).toList

theorem digits_eq (n : Nat) : digits n = Nat.toDigits 10 n := Nat.toList_repr

theorem isDigit_of_mem_digits {n : Nat} {c : Char} (h : c ∈ digits n) : c.isDigit = true :=
  Nat.isDigit_of_mem_toDigits (by decide) (by decide) (digits_eq n ▸ h)

theorem digits_ne_nil (n : Nat) : digits n ≠ [] := by rw [digits_eq]; exact Nat.toDigits_ne_nil

theorem digits_injective {m n : Nat} (h : digits m = digits n) : m = n := by
  rw [digits_eq, digits_eq] at h
  rw [← Nat.ofDigitChars_ten_toDigits (n := m), h, Nat.ofDigitChars_ten_toDigits]

theorem toString_int_injective {m n : Int} (h : toString m = toString n) : m = n := by
  have hdigits : ∀ {m n : Nat}, toString m = toString n → m = n := fun h => digits_injective (congrArg String.toList h)
  have hminus : ∀ {m n : Nat}, toString m ≠ "-" ++ toString n := fun {m n} h => by
    have hmem : '-' ∈ digits m := by
      rw [digits, h, String.toList_append]
      exact List.mem_append_left _ (by decide)
    exact absurd (isDigit_of_mem_digits hmem) (by decide)
  cases m with
  | ofNat m =>
    cases n with
    | ofNat n => exact congrArg Int.ofNat (hdigits h)
    | negSucc n => exact absurd h hminus
  | negSucc m =>
    cases n with
    | ofNat n => exact absurd h.symm hminus
    | negSucc n =>
      have htail : toString (m + 1) = toString (n + 1) := by
        have hl := congrArg String.toList (show "-" ++ toString (m + 1) = "-" ++ toString (n + 1) from h)
        rw [String.toList_append, String.toList_append] at hl
        exact String.toList_inj.1 (List.append_cancel_left hl)
      exact congrArg Int.negSucc (Nat.succ.inj (hdigits htail))

/-- A numeral starts with a digit. -/
theorem exists_digits (n : Nat) : ∃ c l, digits n = c :: l ∧ c.isDigit = true := by
  cases h : digits n with
  | nil => exact absurd h (digits_ne_nil n)
  | cons c l => exact ⟨c, l, rfl, isDigit_of_mem_digits (h ▸ List.mem_cons_self)⟩

/-- A numeral is read off in one way. -/
theorem digits_unique {m n : Nat} {r r' : List Char} (hr : Stops Char.isDigit r) (hr' : Stops Char.isDigit r')
    (h : digits m ++ r = digits n ++ r') : m = n ∧ r = r' := by
  obtain ⟨hd, hrr⟩ := run_unique (fun _ => isDigit_of_mem_digits) (fun _ => isDigit_of_mem_digits) hr hr' h
  exact ⟨digits_injective hd, hrr⟩

end Words
