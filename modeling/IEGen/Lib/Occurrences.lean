import Mathlib.Data.List.Infix
import Mathlib.Data.List.Count
import IEGen.Lib.Words

/-!
# Occurrences of a word in a text

A text has marks for the places of a variable. With a word `r` over a class of characters at the marks, a search finds `r`
at the marks, and besides wherever else it stands. Replacing what the first two searches find, the second from the place
behind the first one on, puts another text at all marks and nowhere else only where there are exactly two of them and the
searches find nothing else (`replaceTwo_eq_fill_iff`). Every text has marks for those of its words that are `r`, so that
this says when a word is replaced (`fill_markWords`).
-/

namespace Occurrences

open Words (Stops)

variable {α : Type*}

/-! ## Searching -/

/-- The first position at which `r` stands in the text. -/
def find [DecidableEq α] (r : List α) : List α → Option Nat
  | [] => if r = [] then some 0 else none
  | c :: s => if r <+: c :: s then some 0 else (find r s).map (· + 1)

/-- `n` elements from a position on are replaced. -/
def replaceAt (pos n : Nat) (u s : List α) : List α := s.take pos ++ u ++ s.drop (pos + n)

theorem replaceAt_append (a r b u : List α) : replaceAt a.length r.length u (a ++ (r ++ b)) = a ++ (u ++ b) := by
  rw [replaceAt, List.take_left, ← List.append_assoc a r b, ← List.length_append, List.drop_left, List.append_assoc]

/-- The text before the first place where `r` stands, and the text behind it. -/
def FirstAt (r s a b : List α) : Prop := s = a ++ (r ++ b) ∧ ∀ a' b', s = a' ++ (r ++ b') → a.length ≤ a'.length

theorem FirstAt.unique {r s a b a' b' : List α} (h : FirstAt r s a b) (h' : FirstAt r s a' b') : a = a' ∧ b = b' := by
  have hlen : a.length = a'.length := le_antisymm (h.2 _ _ h'.1) (h'.2 _ _ h.1)
  obtain ⟨rfl, hb⟩ := List.append_inj (h.1.symm.trans h'.1) hlen
  exact ⟨rfl, List.append_cancel_left hb⟩

theorem find_eq_some_iff [DecidableEq α] {r : List α} : ∀ {s : List α} {n : Nat},
    find r s = some n ↔ ∃ a b, FirstAt r s a b ∧ a.length = n
  | [], n => by
    unfold find FirstAt
    constructor
    · intro h
      split_ifs at h with hr
      cases h
      exact ⟨[], [], ⟨by simp [hr], fun _ _ _ => Nat.zero_le _⟩, rfl⟩
    · rintro ⟨a, b, ⟨hs, -⟩, rfl⟩
      obtain ⟨rfl, hrb⟩ := List.append_eq_nil_iff.1 hs.symm
      rw [if_pos (List.append_eq_nil_iff.1 hrb).1]
      rfl
  | c :: s, n => by
    unfold find
    by_cases hr : r <+: c :: s
    · rw [if_pos hr]
      obtain ⟨b, hb⟩ := hr
      have hfirst : FirstAt r (c :: s) [] b := ⟨hb.symm, fun _ _ _ => Nat.zero_le _⟩
      constructor
      · intro h
        exact ⟨[], b, hfirst, Option.some.inj h⟩
      · rintro ⟨a, b', h, rfl⟩
        rw [← (hfirst.unique h).1]
        rfl
    · rw [if_neg hr, Option.map_eq_some_iff]
      constructor
      · rintro ⟨m, hm, rfl⟩
        obtain ⟨a, b, ⟨hs, hmin⟩, rfl⟩ := find_eq_some_iff.1 hm
        refine ⟨c :: a, b, ⟨by rw [hs]; rfl, fun a' b' h => ?_⟩, rfl⟩
        cases a' with
        | nil => exact absurd ⟨b', h.symm⟩ hr
        | cons c' a' => exact Nat.succ_le_succ (hmin a' b' (List.cons.inj h).2)
      · rintro ⟨a, b, ⟨hs, hmin⟩, rfl⟩
        cases a with
        | nil => exact absurd ⟨b, hs.symm⟩ hr
        | cons c' a =>
          obtain ⟨rfl, htail⟩ := List.cons.inj hs
          refine ⟨a.length, find_eq_some_iff.2 ⟨a, b, ⟨htail, fun a' b' h => ?_⟩, rfl⟩, rfl⟩
          exact Nat.le_of_succ_le_succ (hmin (c :: a') b' (by rw [h]; rfl))

theorem find_eq_none_iff [DecidableEq α] {r : List α} : ∀ {s : List α}, find r s = none ↔ ¬ r <:+: s
  | [] => by
    unfold find
    split_ifs with hr
    · simp [hr]
    · simpa using hr
  | c :: s => by
    unfold find
    split_ifs with hr
    · simpa using hr.isInfix
    · rw [Option.map_eq_none_iff, find_eq_none_iff, List.infix_cons_iff, not_or]
      exact (and_iff_right hr).symm

/-! ## Marked texts -/

/-- A text with a text put in at each mark. -/
def fill (v : List α) (m : List (Option α)) : List α := m.flatMap (fun o => o.elim v ([·]))

@[simp] theorem fill_nil (v : List α) : fill v [] = [] := rfl

@[simp] theorem fill_cons_some (v : List α) (c : α) (m : List (Option α)) : fill v (some c :: m) = c :: fill v m := rfl

@[simp] theorem fill_cons_none (v : List α) (m : List (Option α)) : fill v (none :: m) = v ++ fill v m := rfl

@[simp] theorem fill_append (v : List α) (m m' : List (Option α)) : fill v (m ++ m') = fill v m ++ fill v m' :=
  List.flatMap_append

@[simp] theorem fill_map_some (v a : List α) : fill v (a.map some) = a := by
  induction a with
  | nil => rfl
  | cons c a ih => rw [List.map_cons, fill_cons_some, ih]

section Class

variable (p : α → Bool)

/-- No mark stands next to another or to an element of the class; whether there is one before the text. -/
def Isolated : Bool → List (Option α) → Prop
  | _, [] => True
  | _, some c :: m => Isolated (p c) m
  | inRun, none :: m => inRun = false ∧ (∀ o ∈ m.head?, o.elim False (fun c => p c = false)) ∧ Isolated true m

variable {p}

theorem isolated_map_some (a : List α) (inRun : Bool) : Isolated p inRun (a.map some) := by
  induction a generalizing inRun with
  | nil => trivial
  | cons c a ih => exact ih (p c)

/-- Texts that an element outside of the class separates. -/
theorem Isolated.append_cons {c : α} (hc : p c = false) {m m' : List (Option α)} {inRun : Bool} (h : Isolated p inRun m)
    (h' : Isolated p false m') : Isolated p inRun (m ++ some c :: m') := by
  induction m generalizing inRun with
  | nil =>
    show Isolated p (p c) m'
    rw [hc]
    exact h'
  | cons o m ih =>
    cases o with
    | some d => exact ih h
    | none =>
      refine ⟨h.1, ?_, ih h.2.2⟩
      cases m with
      | nil =>
        intro o ho
        obtain rfl : some c = o := Option.some.inj ho
        exact hc
      | cons o' m => exact h.2.1

/-- What stands around a mark. -/
theorem Isolated.around {a : List α} {m : List (Option α)} {inRun : Bool} (h : Isolated p inRun (a.map some ++ none :: m)) :
    (a = [] → inRun = false) ∧ Stops p a.reverse ∧ (∀ o ∈ m.head?, o.elim False (fun c => p c = false)) ∧ Isolated p true m := by
  induction a generalizing inRun with
  | nil => exact ⟨fun _ => h.1, by simp, h.2⟩
  | cons c a ih =>
    have hrest : Isolated p (p c) (a.map some ++ none :: m) := h
    obtain ⟨h₁, h₂, h₃⟩ := ih hrest
    refine ⟨by simp, ?_, h₃⟩
    cases a with
    | nil => simpa using h₁ rfl
    | cons d a =>
      intro x hx
      rw [List.reverse_cons, List.head?_append_of_ne_nil _ (by simp)] at hx
      exact h₂ x hx

/-- What stands around two marks. -/
theorem Isolated.around_two {a b c : List α} (h : Isolated p false (a.map some ++ none :: (b.map some ++ none :: c.map some))) :
    Stops p a.reverse ∧ b ≠ [] ∧ Stops p b.reverse := by
  obtain ⟨-, ha, hhead, h⟩ := h.around
  obtain ⟨-, hb, -⟩ := h.around
  refine ⟨ha, ?_, hb⟩
  rintro rfl
  exact hhead none rfl

theorem exists_map_some {m : List (Option α)} (h : none ∉ m) : ∃ a : List α, m = a.map some := by
  induction m with
  | nil => exact ⟨[], rfl⟩
  | cons o m ih =>
    rw [List.mem_cons, not_or] at h
    obtain ⟨a, rfl⟩ := ih h.2
    obtain ⟨c, rfl⟩ := Option.ne_none_iff_exists'.1 (Ne.symm h.1)
    exact ⟨c :: a, rfl⟩

/-- What follows a mark: nothing, or an element outside of the class. -/
def Opens (p : α → Bool) (m : List (Option α)) : Prop := ∀ o ∈ m.head?, o.elim False fun c => p c = false

theorem Isolated.of_opens {m : List (Option α)} (ho : Opens p m) {b b' : Bool} (h : Isolated p b m) : Isolated p b' m := by
  cases m with
  | nil => trivial
  | cons o m =>
    cases o with
    | none => exact (ho none rfl).elim
    | some c => exact h

/-- Marked texts one after the other. -/
theorem Isolated.append {m m' : List (Option α)} {inRun b : Bool} (h : Isolated p inRun m) (ho : Opens p m')
    (h' : Isolated p b m') : Isolated p inRun (m ++ m') := by
  induction m generalizing inRun with
  | nil => exact h'.of_opens ho
  | cons o m ih =>
    cases o with
    | some c => exact ih h
    | none =>
      refine ⟨h.1, ?_, ih h.2.2⟩
      cases m with
      | nil => exact ho
      | cons o' m => exact h.2.1

/-- A marked text behind one that does not end in the class. -/
theorem Isolated.behind {a : List α} {m : List (Option α)} {inRun : Bool} (ha : ∀ c ∈ a.getLast?, p c = false)
    (hne : a = [] → inRun = false) (h : Isolated p false m) : Isolated p inRun (a.map some ++ m) := by
  induction a generalizing inRun with
  | nil =>
    rw [hne rfl]
    exact h
  | cons c a ih =>
    have hrest : Isolated p (p c) (a.map some ++ m) := by
      refine ih (fun d hd => ?_) fun hnil => ?_
      · cases a with
        | nil => cases hd
        | cons e a => exact ha d (by rwa [List.getLast?_cons_cons])
      · subst hnil
        exact ha c rfl
    exact hrest

end Class

section Two

variable {p : α → Bool} {r : List α}

/-- A place where `r` stands before a word `r` does not reach into it. -/
theorem append_of_length_lt (hr : ∀ x ∈ r, p x = true) {a b a' b' : List α} (ha : Stops p a.reverse)
    (h : a' ++ (r ++ b') = a ++ (r ++ b)) (hlt : a'.length < a.length) : ∃ m, a = a' ++ (r ++ m) ∧ b' = m ++ (r ++ b) := by
  rcases List.append_eq_append_iff.1 h with ⟨d, hd, hrb⟩ | ⟨d, hd, -⟩
  · rcases List.append_eq_append_iff.1 hrb with ⟨m, hm, hb⟩ | ⟨m, hm, -⟩
    · exact ⟨m, by rw [hd, hm], hb⟩
    · rcases List.eq_nil_or_concat d with rfl | ⟨d', c, rfl⟩
      · rw [List.append_nil] at hd
        rw [hd] at hlt
        exact absurd hlt (lt_irrefl _)
      · have hc : p c = false := ha c (by simp [hd])
        rw [hr c (by simp [hm])] at hc
        cases hc
  · rw [hd, List.length_append] at hlt
    omega

/-- A place where `r` stands in two texts with an element in between that `r` does not have is in one of the two. -/
theorem append_of_not_mem {e : α} (he : e ∉ r) {w b a' b' : List α} (h : w ++ e :: b = a' ++ (r ++ b')) :
    (∃ m, w = a' ++ (r ++ m) ∧ b' = m ++ e :: b) ∨ ∃ m, a' = w ++ e :: m ∧ b = m ++ (r ++ b') := by
  rcases List.append_eq_append_iff.1 h with ⟨d, hd, hb⟩ | ⟨d, hd, hb⟩
  · cases d with
    | nil =>
      cases r with
      | nil => exact .inl ⟨[], by simpa using hd.symm, hb.symm⟩
      | cons c r => exact absurd (List.cons.inj hb).1 fun hec => he (hec ▸ List.mem_cons_self)
    | cons c d =>
      obtain ⟨rfl, htail⟩ := List.cons.inj hb
      exact .inr ⟨d, hd, htail⟩
  · rcases List.append_eq_append_iff.1 hb with ⟨m, hm, hb'⟩ | ⟨m, hm, hb'⟩
    · exact .inl ⟨m, by rw [hd, hm], hb'⟩
    · cases m with
      | nil => exact .inl ⟨[], by rw [hd, hm, List.append_nil, List.append_nil], hb'.symm⟩
      | cons c m =>
        obtain ⟨rfl, -⟩ := List.cons.inj hb'
        exact absurd (by rw [hm]; simp) he

theorem FirstAt.not_infix (hne : r ≠ []) {s a b : List α} (h : FirstAt r s a b) : ¬ r <:+: a := by
  rintro ⟨a', m, rfl⟩
  have hle := h.2 a' (m ++ (r ++ b)) (by rw [h.1]; simp)
  have hpos := List.length_pos_iff.2 hne
  simp only [List.length_append] at hle
  omega

theorem stops_reverse_of_append {a b : List α} (h : Stops p (a ++ b).reverse) : Stops p b.reverse := by
  intro c hc
  refine h c ?_
  rw [List.reverse_append, List.head?_append, Option.mem_def.1 hc]
  rfl

/-- A text that ends in `r` and one that ends in what `r` does not end in. -/
theorem ne_of_ends {e : α} (hne : r ≠ []) (he : e ∉ r) {a b w c : List α} : a ++ (r ++ c) ≠ b ++ ((w ++ [e]) ++ c) := by
  intro h
  rw [← List.append_assoc, ← List.append_assoc] at h
  have hlast := congrArg List.getLast? (List.append_cancel_right h)
  rw [List.getLast?_append_of_ne_nil _ hne, ← List.append_assoc, List.getLast?_concat] at hlast
  exact he (List.mem_of_mem_getLast? hlast)

variable [DecidableEq α]

/-- The first two places where `r` is found get `u`, where the second search starts behind the first element put in. -/
def replaceTwo (r u t : List α) : Option (List α) :=
  (find r t).bind fun found =>
    (find r ((replaceAt found r.length u t).drop (found + 1))).map fun found' =>
      replaceAt (found + 1 + found') r.length u (replaceAt found r.length u t)

theorem replaceTwo_eq_some_iff {x : α} {u t y : List α} : replaceTwo r (x :: u) t = some y ↔
    ∃ a b a' b', FirstAt r t a b ∧ FirstAt r (u ++ b) a' b' ∧ y = a ++ x :: (a' ++ (x :: u ++ b')) := by
  have hdrop : ∀ {a b}, FirstAt r t a b → (replaceAt a.length r.length (x :: u) t).drop (a.length + 1) = u ++ b := by
    intro a b h
    have hcons : a ++ (x :: u ++ b) = (a ++ [x]) ++ (u ++ b) := by simp
    have hlen : a.length + 1 = (a ++ [x]).length := by simp
    rw [h.1, replaceAt_append, hcons, hlen, List.drop_left]
  have hreplace : ∀ {a b a' b'}, FirstAt r t a b → FirstAt r (u ++ b) a' b' →
      replaceAt (a.length + 1 + a'.length) r.length (x :: u) (replaceAt a.length r.length (x :: u) t) =
        a ++ x :: (a' ++ (x :: u ++ b')) := by
    intro a b a' b' h h'
    have hsplit : a ++ (x :: u ++ b) = (a ++ x :: a') ++ (r ++ b') := by
      rw [List.cons_append, h'.1]
      simp
    have hlen : a.length + 1 + a'.length = (a ++ x :: a').length := by
      rw [List.length_append, List.length_cons, Nat.add_assoc, Nat.add_comm 1]
    rw [h.1, replaceAt_append, hsplit, hlen, replaceAt_append]
    simp
  unfold replaceTwo
  simp only [Option.bind_eq_some_iff, Option.map_eq_some_iff, find_eq_some_iff]
  constructor
  · rintro ⟨n, ⟨a, b, h, rfl⟩, n', ⟨a', b', h', rfl⟩, rfl⟩
    rw [hdrop h] at h'
    exact ⟨a, b, a', b', h, h', hreplace h h'⟩
  · rintro ⟨a, b, a', b', h, h', rfl⟩
    exact ⟨a.length, ⟨a, b, h, rfl⟩, a'.length, ⟨a', b', by rw [hdrop h]; exact h', rfl⟩, hreplace h h'⟩

/-- The text has two marks, and with `r` at the marks `r` stands nowhere else before the second one, nor in `u` behind its
first element. -/
def TwoMarks (r u : List α) (m : List (Option α)) : Prop :=
  ¬ r <:+: u.tail ∧ ∃ a b c : List α, m = a.map some ++ none :: (b.map some ++ none :: c.map some) ∧
    ¬ r <:+: a ∧ ¬ r <:+: b

/-- The marks, counted at an element of `u` that `r` does not have. -/
theorem count_fill {q : α} {u : List α} (hq : q ∉ r) (hu : u.count q = 1) (m : List (Option α)) :
    (fill u m).count q = (fill r m).count q + m.count none := by
  induction m with
  | nil => rfl
  | cons o m ih =>
    cases o with
    | none =>
      rw [fill_cons_none, fill_cons_none, List.count_append, List.count_append, ih, hu, List.count_eq_zero.2 hq,
        List.count_cons_self]
      omega
    | some c =>
      rw [fill_cons_some, fill_cons_some, List.count_cons, List.count_cons, ih, List.count_cons_of_ne (by simp)]
      omega

/-- Where exactly the two marks are found, replacing what is found fills them. -/
theorem replaceTwo_of_twoMarks {x e : α} {w : List α} {m : List (Option α)} (hr : ∀ c ∈ r, p c = true) (he : e ∉ r)
    (hm : Isolated p false m) (h : TwoMarks r (x :: (w ++ [e])) m) :
    replaceTwo r (x :: (w ++ [e])) (fill r m) = some (fill (x :: (w ++ [e])) m) := by
  obtain ⟨htail, a, b, c, rfl, hra, hrb⟩ := h
  obtain ⟨ha, hbne, hb⟩ := hm.around_two
  simp only [fill_append, fill_map_some, fill_cons_none]
  rw [replaceTwo_eq_some_iff]
  have hfirst : FirstAt r (a ++ (r ++ (b ++ (r ++ c)))) a (b ++ (r ++ c)) := by
    refine ⟨rfl, fun a' b' h => not_lt.1 fun hlt => ?_⟩
    obtain ⟨l, hl, -⟩ := append_of_length_lt hr ha h.symm hlt
    exact hra ⟨a', l, by rw [hl, List.append_assoc]⟩
  have hsecond : FirstAt r ((w ++ [e]) ++ (b ++ (r ++ c))) ((w ++ [e]) ++ b) c := by
    refine ⟨by simp, fun a' b' h => not_lt.1 fun hlt => ?_⟩
    have hstops : Stops p ((w ++ [e]) ++ b).reverse := by
      intro y hy
      rw [List.reverse_append, List.head?_append_of_ne_nil _ (List.reverse_ne_nil_iff.2 hbne)] at hy
      exact hb y hy
    have hplace : a' ++ (r ++ b') = ((w ++ [e]) ++ b) ++ (r ++ c) := by rw [← h]; simp
    obtain ⟨l, hl, -⟩ := append_of_length_lt hr hstops hplace hlt
    -- it stands in the text put in or in the text between the marks
    rw [List.append_assoc, List.singleton_append] at hl
    rcases append_of_not_mem he hl with ⟨k, hk, -⟩ | ⟨k, -, hk⟩
    · exact htail ⟨a', k ++ [e], by rw [List.tail_cons, hk]; simp⟩
    · exact hrb ⟨k, l, by rw [hk, List.append_assoc]⟩
  exact ⟨a, _, _, c, hfirst, hsecond, by simp⟩

theorem twoMarks_of_replaceTwo {x e q : α} {w : List α} {m : List (Option α)} (hne : r ≠ []) (hr : ∀ c ∈ r, p c = true)
    (he : e ∉ r) (hq : q ∉ r) (hcount : (x :: (w ++ [e])).count q = 1) (hm : Isolated p false m)
    (h : replaceTwo r (x :: (w ++ [e])) (fill r m) = some (fill (x :: (w ++ [e])) m)) :
    TwoMarks r (x :: (w ++ [e])) m := by
  obtain ⟨a, b, a', b', hfirst, hsecond, hy⟩ := replaceTwo_eq_some_iff.1 h
  -- two places are replaced, so there are two marks
  have htwo : m.count none = 2 := by
    have hc := congrArg (List.count q) hy
    have hb := congrArg (List.count q) hsecond.1
    have ht := congrArg (List.count q) hfirst.1
    rw [count_fill hq hcount] at hc
    simp only [List.count_append, List.count_cons, List.count_eq_zero.2 hq] at hc hb ht hcount
    omega
  obtain ⟨m₁, rest, rfl, hm₁⟩ := List.eq_append_cons_of_mem (List.count_pos_iff.1 (by omega : 0 < m.count none))
  have hrest : rest.count none = 1 := by
    rw [List.count_append, List.count_cons_self, List.count_eq_zero.2 hm₁] at htwo
    omega
  obtain ⟨m₂, m₃, rfl, hm₂⟩ := List.eq_append_cons_of_mem (List.count_pos_iff.1 (by omega : 0 < rest.count none))
  have hm₃ : none ∉ m₃ := by
    rw [List.count_append, List.count_cons_self, List.count_eq_zero.2 hm₂] at hrest
    exact List.count_eq_zero.1 (by omega)
  obtain ⟨a₀, rfl⟩ := exists_map_some hm₁
  obtain ⟨b₀, rfl⟩ := exists_map_some hm₂
  obtain ⟨c₀, rfl⟩ := exists_map_some hm₃
  obtain ⟨hstops, hbetween, hstops'⟩ := hm.around_two
  simp only [fill_append, fill_map_some, fill_cons_none] at hfirst hy
  -- what follows the first place ends in the second mark
  have hlen : a.length ≤ a₀.length := hfirst.2 _ _ rfl
  obtain ⟨v, hv, rfl⟩ : ∃ v, a ++ (r ++ v) = a₀ ++ (r ++ b₀) ∧ b = v ++ (r ++ c₀) := by
    have heq : (a₀ ++ (r ++ b₀)) ++ (r ++ c₀) = (a ++ r) ++ b := by
      rw [List.append_assoc a, ← hfirst.1]
      simp
    rcases List.append_eq_append_iff.1 heq with ⟨d, hd, -⟩ | ⟨d, hd, hb⟩
    · have hl := congrArg List.length hd
      have hpos := List.length_pos_iff.2 hbetween
      simp only [List.length_append] at hl
      omega
    · exact ⟨d, by rw [hd, List.append_assoc], hb⟩
  have hvstops : Stops p v.reverse := by
    have hall : Stops p (a ++ (r ++ v)).reverse := by
      intro y hy
      rw [hv, ← List.append_assoc, List.reverse_append,
        List.head?_append_of_ne_nil _ (List.reverse_ne_nil_iff.2 hbetween)] at hy
      exact hstops' y hy
    rw [← List.append_assoc] at hall
    exact stops_reverse_of_append hall
  -- so the result may not end in `r` where the second mark was
  have hcontra : ∀ l, a ++ x :: (a' ++ (x :: (w ++ [e]) ++ b')) ≠ l ++ (r ++ c₀) := by
    intro l hl
    have hends : a₀ ++ (x :: (w ++ [e]) ++ (b₀ ++ (x :: (w ++ [e]) ++ c₀))) =
        (a₀ ++ (x :: (w ++ [e]) ++ (b₀ ++ [x]))) ++ ((w ++ [e]) ++ c₀) := by simp
    exact ne_of_ends hne he (hl.symm.trans (hy.symm.trans hends))
  have hplace : w ++ e :: (v ++ (r ++ c₀)) = a' ++ (r ++ b') := by rw [← hsecond.1]; simp
  rcases append_of_not_mem he hplace with ⟨l, hl, rfl⟩ | ⟨b₁, rfl, hb⟩
  · exact absurd (by simp) (hcontra (a ++ x :: (a' ++ (x :: (w ++ [e]) ++ (l ++ e :: v)))))
  have hfirst' : FirstAt r (v ++ (r ++ c₀)) b₁ b' := by
    refine ⟨hb, fun c d hcd => ?_⟩
    have hle := hsecond.2 ((w ++ [e]) ++ c) d (by rw [hcd]; simp)
    simp only [List.length_append, List.length_cons, List.length_nil] at hle
    omega
  obtain ⟨rfl, rfl⟩ : v = b₁ ∧ b' = c₀ := by
    rcases (hfirst'.2 v c₀ rfl).lt_or_eq with hlt | heq
    · obtain ⟨l, -, hl⟩ := append_of_length_lt hr hvstops hb.symm hlt
      exact absurd (by rw [hl]; simp) (hcontra (a ++ x :: ((w ++ e :: b₁) ++ (x :: (w ++ [e]) ++ l))))
    · obtain ⟨h₁, h₂⟩ := List.append_inj hb heq.symm
      exact ⟨h₁, (List.append_cancel_left h₂).symm⟩
  have hrv := hfirst'.not_infix hne
  obtain ⟨rfl, rfl⟩ : a = a₀ ∧ v = b₀ := by
    rcases hlen.lt_or_eq with hlt | heq
    · obtain ⟨l, -, hl⟩ := append_of_length_lt hr hstops hv hlt
      exact absurd ⟨l, b₀, by rw [hl, List.append_assoc]⟩ hrv
    · obtain ⟨h₁, h₂⟩ := List.append_inj hv heq
      exact ⟨h₁, List.append_cancel_left h₂⟩
  refine ⟨?_, a, v, b', rfl, hfirst.not_infix hne, hrv⟩
  rintro ⟨c, d, hcd⟩
  rw [List.tail_cons] at hcd
  have hle := hsecond.2 c (d ++ (v ++ (r ++ b'))) (by rw [← hcd]; simp)
  have hl := congrArg List.length hcd
  have hpos := List.length_pos_iff.2 hne
  simp only [List.length_append, List.length_cons, List.length_nil] at hl hle
  omega

/-- Replacing what two searches find fills the marks exactly where there are two marks, and they are found. -/
theorem replaceTwo_eq_fill_iff {x e q : α} {w : List α} {m : List (Option α)} (hne : r ≠ []) (hr : ∀ c ∈ r, p c = true)
    (he : e ∉ r) (hq : q ∉ r) (hcount : (x :: (w ++ [e])).count q = 1) (hm : Isolated p false m) :
    replaceTwo r (x :: (w ++ [e])) (fill r m) = some (fill (x :: (w ++ [e])) m) ↔ TwoMarks r (x :: (w ++ [e])) m :=
  ⟨twoMarks_of_replaceTwo hne hr he hq hcount hm, replaceTwo_of_twoMarks hr he hm⟩

end Two

/-! ## The words of a text -/

section Words

variable [DecidableEq α] (p : α → Bool)

/-- A run of the class that has ended is marked if it is `r`. The run is given the wrong way round. -/
def markRun (r w : List α) : List (Option α) := if w.reverse = r then [none] else w.reverse.map some

/-- A text with a mark for each of its longest runs of the class that is `r`, where `w` is the run so far, the wrong way
round. -/
def markWords (r : List α) : List α → List α → List (Option α)
  | w, [] => markRun r w
  | w, c :: t => if p c then markWords r (c :: w) t else markRun r w ++ some c :: markWords r [] t

/-- `u` for every word of the text that is `r`. -/
def replaceWord (r u t : List α) : List α := fill u (markWords p r [] t)

variable {p} {r : List α}

theorem fill_markRun (w : List α) : fill r (markRun r w) = w.reverse := by
  unfold markRun
  split_ifs with h
  · rw [fill_cons_none, fill_nil, List.append_nil, h]
  · exact fill_map_some r _

/-- With `r` at the marks the text is as it was. -/
theorem fill_markWords (w t : List α) : fill r (markWords p r w t) = w.reverse ++ t := by
  induction t generalizing w with
  | nil => rw [markWords, fill_markRun, List.append_nil]
  | cons c t ih =>
    rw [markWords]
    split_ifs
    · rw [ih, List.reverse_cons, List.append_assoc, List.singleton_append]
    · rw [fill_append, fill_markRun, fill_cons_some, ih, List.reverse_nil, List.nil_append]

theorem isolated_markWords (w t : List α) : Isolated p false (markWords p r w t) := by
  have hrun : ∀ w : List α, Isolated p false (markRun r w) := by
    intro w
    unfold markRun
    split_ifs
    · exact ⟨rfl, by simp, trivial⟩
    · exact isolated_map_some _ _
  induction t generalizing w with
  | nil => exact hrun w
  | cons c t ih =>
    rw [markWords]
    split_ifs with hc
    · exact ih _
    · exact (hrun w).append_cons (by simpa using hc) (ih [])

/-- Nothing is replaced where the first or the second search finds nothing. -/
theorem replaceTwo_eq_none_iff {x : α} {u t : List α} :
    replaceTwo r (x :: u) t = none ↔ ∀ a b, FirstAt r t a b → ¬ r <:+: u ++ b := by
  constructor
  · rintro h a b hfirst hin
    cases hfind : find r (u ++ b) with
    | none => exact find_eq_none_iff.1 hfind hin
    | some n =>
      obtain ⟨a', b', hsecond, -⟩ := find_eq_some_iff.1 hfind
      rw [replaceTwo_eq_some_iff.2 ⟨a, b, a', b', hfirst, hsecond, rfl⟩] at h
      cases h
  · intro h
    cases hy : replaceTwo r (x :: u) t with
    | none => rfl
    | some y =>
      obtain ⟨a, b, a', b', hfirst, hsecond, -⟩ := replaceTwo_eq_some_iff.1 hy
      exact absurd ⟨a', b', by rw [hsecond.1, List.append_assoc]⟩ (h a b hfirst)

end Words

end Occurrences
