import Mathlib.Data.List.Basic
import Mathlib.Data.List.Forall2

/-!
# Lists kept in order by a Boolean comparison

`lt : α → α → Bool` is any comparison; two values are *tied* (`Tied lt`) when neither comes before the other.

* `lexLt` compares two lists of one length position by position, `sizeLexLt` compares the lengths first.
* `insertUnique` puts a value into a list: it walks to the first element that is tied to the value (and drops
  the value) or comes after it (and inserts the value there).

The facts about membership hold for every `lt`; that the list stays sorted needs a strict weak order.
-/

namespace SortedList

variable {α : Type*}

/-- Neither value comes before the other. -/
def Tied (lt : α → α → Bool) (a b : α) : Prop := lt a b = false ∧ lt b a = false

instance (lt : α → α → Bool) (a b : α) : Decidable (Tied lt a b) := inferInstanceAs (Decidable (_ ∧ _))

theorem Tied.symm {lt : α → α → Bool} {a b : α} (h : Tied lt a b) : Tied lt b a := ⟨h.2, h.1⟩

/-! ## Lexicographic comparison -/

/-- The position-by-position comparison of two lists of one length. -/
def lexLt (lt : α → α → Bool) : List α → List α → Bool
  | x :: xs, y :: ys => if lt x y then true else if lt y x then false else lexLt lt xs ys
  | _, _ => false

/-- By length, then position by position. -/
def sizeLexLt (lt : α → α → Bool) (xs ys : List α) : Bool :=
  if xs.length < ys.length then true else if ys.length < xs.length then false else lexLt lt xs ys

theorem lexLt_cons {lt : α → α → Bool} {x y : α} {xs ys : List α} (h : Tied lt x y) :
    lexLt lt (x :: xs) (y :: ys) = lexLt lt xs ys := by simp [lexLt, h.1, h.2]

/-- Lists of one length are tied iff they are so position by position. -/
theorem tied_lexLt {lt : α → α → Bool} : ∀ {xs ys : List α}, xs.length = ys.length →
    (Tied (lexLt lt) xs ys ↔ List.Forall₂ (Tied lt) xs ys)
  | [], [], _ => by simp [Tied, lexLt]
  | [], _ :: _, h | _ :: _, [], h => by simp at h
  | x :: xs, y :: ys, h => by
    rw [List.forall₂_cons]
    by_cases hxy : Tied lt x y
    · rw [← tied_lexLt (by simpa using h)]
      simp only [Tied, lexLt_cons hxy, lexLt_cons hxy.symm]
      exact ⟨fun h' => ⟨hxy, h'⟩, fun h' => h'.2⟩
    · refine ⟨fun h' => absurd ?_ hxy, fun h' => absurd h'.1 hxy⟩
      obtain ⟨h₁, h₂⟩ := h'
      simp only [lexLt] at h₁ h₂
      cases hx : lt x y <;> cases hy : lt y x <;> simp_all [Tied]

theorem tied_sizeLexLt {lt : α → α → Bool} {xs ys : List α} :
    Tied (sizeLexLt lt) xs ys ↔ List.Forall₂ (Tied lt) xs ys := by
  rcases Nat.lt_trichotomy xs.length ys.length with h | h | h
  · refine ⟨fun h' => ?_, fun h' => absurd h'.length_eq (by omega)⟩
    simp [Tied, sizeLexLt, h] at h'
  · rw [← tied_lexLt h]
    simp [Tied, sizeLexLt, h]
  · refine ⟨fun h' => ?_, fun h' => absurd h'.length_eq (by omega)⟩
    simp [Tied, sizeLexLt, h] at h'

/-! ## Insertion -/

/-- `x` put into the list, unless an element that is tied to it stands before its place. -/
def insertUnique (lt : α → α → Bool) (x : α) : List α → List α
  | [] => [x]
  | c :: cs =>
    if Tied lt x c then c :: cs
    else if lt x c then x :: c :: cs
    else c :: insertUnique lt x cs

section Insert

variable {lt : α → α → Bool} {x : α}

theorem mem_insertUnique {y : α} : ∀ {l : List α}, y ∈ insertUnique lt x l → y = x ∨ y ∈ l
  | [], h => by simpa [insertUnique] using h
  | c :: cs, h => by
    simp only [insertUnique] at h
    split_ifs at h
    · exact .inr h
    · simpa using h
    · rcases List.mem_cons.1 h with rfl | h
      · exact .inr (List.mem_cons_self)
      · exact (mem_insertUnique h).imp_right (List.mem_cons_of_mem _)

/-- Nothing is lost from the list. -/
theorem subset_insertUnique {y : α} : ∀ {l : List α}, y ∈ l → y ∈ insertUnique lt x l
  | c :: cs, h => by
    simp only [insertUnique]
    split_ifs
    · exact h
    · exact List.mem_cons_of_mem _ h
    · rcases List.mem_cons.1 h with rfl | h
      · exact List.mem_cons_self
      · exact List.mem_cons_of_mem _ (subset_insertUnique h)

/-- The value itself, or an element tied to it, is in the result. -/
theorem insertUnique_covers (lt : α → α → Bool) (x : α) :
    ∀ l : List α, x ∈ insertUnique lt x l ∨ ∃ c ∈ l, Tied lt x c
  | [] => .inl (by simp [insertUnique])
  | c :: cs => by
    simp only [insertUnique]
    split_ifs with h₁ h₂
    · exact .inr ⟨c, List.mem_cons_self, h₁⟩
    · exact .inl List.mem_cons_self
    · rcases insertUnique_covers lt x cs with h | ⟨d, hd, he⟩
      · exact .inl (List.mem_cons_of_mem _ h)
      · exact .inr ⟨d, List.mem_cons_of_mem _ hd, he⟩

theorem insertUnique_ne_nil (lt : α → α → Bool) (x : α) (l : List α) : insertUnique lt x l ≠ [] := by
  cases l with
  | nil => simp [insertUnique]
  | cons c cs => simp only [insertUnique]; split_ifs <;> simp

theorem length_le_insertUnique : ∀ l : List α, l.length ≤ (insertUnique lt x l).length
  | [] => by simp
  | c :: cs => by
    have := length_le_insertUnique cs
    simp only [insertUnique]
    split_ifs <;> simp
    omega

/-- For a predicate that tied values share, inserting `x` adds the requirement `P x` and no other. -/
theorem forall_insertUnique {P : α → Prop} {l : List α} (hP : ∀ y ∈ l, Tied lt x y → P y → P x) :
    (∀ y ∈ insertUnique lt x l, P y) ↔ P x ∧ ∀ y ∈ l, P y := by
  constructor
  · intro h
    refine ⟨?_, fun y hy => h y (subset_insertUnique hy)⟩
    rcases insertUnique_covers lt x l with hx | ⟨c, hc, he⟩
    · exact h x hx
    · exact hP c hc he (h c (subset_insertUnique hc))
  · rintro ⟨hx, hl⟩ y hy
    rcases mem_insertUnique hy with rfl | hy
    · exact hx
    · exact hl y hy

/-- For a predicate that tied values share, inserting `x` adds the possibility `P x` and no other. -/
theorem exists_insertUnique {P : α → Prop} {l : List α} (hP : ∀ y ∈ l, Tied lt x y → P x → P y) :
    (∃ y ∈ insertUnique lt x l, P y) ↔ P x ∨ ∃ y ∈ l, P y := by
  constructor
  · rintro ⟨y, hy, hPy⟩
    rcases mem_insertUnique hy with rfl | hy
    · exact .inl hPy
    · exact .inr ⟨y, hy, hPy⟩
  · rintro (hx | ⟨y, hy, hPy⟩)
    · rcases insertUnique_covers lt x l with hm | ⟨c, hc, he⟩
      · exact ⟨x, hm, hx⟩
      · exact ⟨c, subset_insertUnique hc, hP c hc he hx⟩
    · exact ⟨y, subset_insertUnique hy, hPy⟩

end Insert

/-! ## Maps that keep the order -/

/-- A map that keeps how an element compares with those of a list keeps its place. -/
theorem insertUnique_map_of_forall {β : Type*} {f : α → β} {lt : α → α → Bool} {lt' : β → β → Bool} {x : α} :
    ∀ {l : List α}, (∀ y ∈ l, lt' (f x) (f y) = lt x y ∧ lt' (f y) (f x) = lt y x) →
      insertUnique lt' (f x) (l.map f) = (insertUnique lt x l).map f
  | [], _ => rfl
  | y :: l, h => by
    obtain ⟨⟨hxy, hyx⟩, hl⟩ := List.forall_mem_cons.1 h
    have htied : Tied lt' (f x) (f y) ↔ Tied lt x y := by
      unfold Tied
      rw [hxy, hyx]
    simp only [List.map_cons, insertUnique, htied, hxy]
    split_ifs
    · rfl
    · rfl
    · rw [insertUnique_map_of_forall hl, List.map_cons]

section Map

variable {β : Type*} {f : α → β} {lt : α → α → Bool} {lt' : β → β → Bool} (h : ∀ x y, lt' (f x) (f y) = lt x y)
include h

theorem lexLt_map : ∀ xs ys : List α, lexLt lt' (xs.map f) (ys.map f) = lexLt lt xs ys
  | [], _ | _ :: _, [] => rfl
  | x :: xs, y :: ys => by
    simp only [List.map_cons, lexLt, h]
    rw [lexLt_map xs ys]

theorem sizeLexLt_map (xs ys : List α) : sizeLexLt lt' (xs.map f) (ys.map f) = sizeLexLt lt xs ys := by
  unfold sizeLexLt
  rw [List.length_map, List.length_map, lexLt_map h]

theorem insertUnique_map (x : α) (l : List α) : insertUnique lt' (f x) (l.map f) = (insertUnique lt x l).map f :=
  insertUnique_map_of_forall fun y _ => ⟨h x y, h y x⟩

end Map

end SortedList
