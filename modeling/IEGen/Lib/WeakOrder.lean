import IEGen.Lib.SortedList
import Mathlib.Data.List.Induction
import Mathlib.Order.Lattice
import Mathlib.Data.List.Perm.Basic
import Mathlib.Data.List.Pairwise

/-!
# Lists kept in order by a strict weak order

A comparison is a strict weak order (`StrictWeak`) when no two values come before each other and, if `a` comes before
`c`, every `b` comes after `a` or before `c`. Comparing by a key, by one comparison after another, or list by list
gives such orders from such orders.

* A list built by insertion (`build`) is strictly sorted, and holds every value or one tied to it.
* A strictly sorted list is determined by its elements (`eq_of_sorted`).
* Values that are compared by their places as well are tied to copies of theirs only if they have no place (`ByPlace`).
* Encoding a sorted list and decoding the result gives the list back (`build_build`), when each element comes back and
  no two elements have tied codes.
-/

namespace SortedList

variable {α β : Type*}

/-- A strict weak order, as a Boolean comparison. -/
structure StrictWeak (lt : α → α → Bool) : Prop where
  asymm : ∀ {a b}, lt a b = true → lt b a = false
  cotrans : ∀ {a c} (b), lt a c = true → lt a b = true ∨ lt b c = true

namespace StrictWeak

variable {lt lt' : α → α → Bool}

theorem irrefl (h : StrictWeak lt) (a : α) : lt a a = false := by
  cases ha : lt a a with
  | false => rfl
  | true => rw [← ha]; exact h.asymm ha

theorem trans (h : StrictWeak lt) {a b c : α} (hab : lt a b = true) (hbc : lt b c = true) : lt a c = true := by
  rcases h.cotrans c hab with hac | hcb
  · exact hac
  · rw [h.asymm hcb] at hbc; cases hbc

theorem tied_refl (h : StrictWeak lt) (a : α) : Tied lt a a := ⟨h.irrefl a, h.irrefl a⟩

theorem tied_trans (h : StrictWeak lt) {a b c : α} (hab : Tied lt a b) (hbc : Tied lt b c) : Tied lt a c := by
  have hn : ∀ {a b c : α}, Tied lt a b → Tied lt b c → lt a c = false := by
    intro a b c hab hbc
    cases hac : lt a c with
    | false => rfl
    | true =>
      rcases h.cotrans b hac with h' | h'
      · rw [hab.1] at h'; cases h'
      · rw [hbc.1] at h'; cases h'
  exact ⟨hn hab hbc, hn hbc.symm hab.symm⟩

/-- Tied values come before the same values. -/
theorem lt_congr_left (h : StrictWeak lt) {a b : α} (hab : Tied lt a b) (c : α) : lt a c = lt b c := by
  have hn : ∀ {a b : α}, Tied lt a b → lt a c = true → lt b c = true := by
    intro a b hab hac
    rcases h.cotrans b hac with h' | h'
    · rw [hab.1] at h'; cases h'
    · exact h'
  cases hac : lt a c with
  | true => exact (hn hab hac).symm
  | false =>
    cases hbc : lt b c with
    | false => rfl
    | true => rw [hn hab.symm hbc] at hac; cases hac

/-- The same values come before tied values. -/
theorem lt_congr_right (h : StrictWeak lt) {a b : α} (hab : Tied lt a b) (c : α) : lt c a = lt c b := by
  have hn : ∀ {a b : α}, Tied lt a b → lt c a = true → lt c b = true := by
    intro a b hab hca
    rcases h.cotrans b hca with h' | h'
    · exact h'
    · rw [hab.2] at h'; cases h'
  cases hca : lt c a with
  | true => exact (hn hab hca).symm
  | false =>
    cases hcb : lt c b with
    | false => rfl
    | true => rw [hn hab.symm hcb] at hca; cases hca

/-- The comparison of keys in a linear order. -/
theorem of_key {κ : Type*} [LinearOrder κ] {f : α → κ} (hlt : ∀ a b, lt a b = decide (f a < f b)) : StrictWeak lt := by
  refine ⟨fun {a b} hab => ?_, fun {a c} b hac => ?_⟩
  · rw [hlt] at hab ⊢
    simp only [decide_eq_true_eq, decide_eq_false_iff_not] at hab ⊢
    exact lt_asymm hab
  · rw [hlt] at hac
    simp only [hlt, decide_eq_true_eq] at hac ⊢
    rcases lt_or_ge (f a) (f b) with h | h
    · exact .inl h
    · exact .inr (lt_of_le_of_lt h hac)

theorem comap (h : StrictWeak lt) (f : β → α) : StrictWeak (fun a b => lt (f a) (f b)) :=
  ⟨fun hab => h.asymm hab, fun b hac => h.cotrans (f b) hac⟩

end StrictWeak

/-- One comparison, and another for values that the first one ties. -/
def thenLt (lt lt' : α → α → Bool) (a b : α) : Bool := if lt a b then true else if lt b a then false else lt' a b

theorem thenLt_of_tied {lt lt' : α → α → Bool} {a b : α} (h : Tied lt a b) : thenLt lt lt' a b = lt' a b := by
  simp [thenLt, h.1, h.2]

theorem tied_thenLt {lt lt' : α → α → Bool} {a b : α} : Tied (thenLt lt lt') a b ↔ Tied lt a b ∧ Tied lt' a b := by
  unfold Tied thenLt
  cases lt a b <;> cases lt b a <;> simp

theorem StrictWeak.thenLt {lt lt' : α → α → Bool} (h : StrictWeak lt) (h' : StrictWeak lt') :
    StrictWeak (thenLt lt lt') := by
  have cases_of : ∀ {a b}, SortedList.thenLt lt lt' a b = true → lt a b = true ∨ Tied lt a b ∧ lt' a b = true := by
    intro a b hab
    unfold SortedList.thenLt at hab
    split_ifs at hab with h₁ h₂
    · exact .inl h₁
    · exact .inr ⟨⟨by simpa using h₁, by simpa using h₂⟩, hab⟩
  have of_lt : ∀ {a b}, lt a b = true → SortedList.thenLt lt lt' a b = true := by
    intro a b hab
    simp [SortedList.thenLt, hab]
  refine ⟨fun {a b} hab => ?_, fun {a c} b hac => ?_⟩
  · rcases cases_of hab with hab | ⟨ht, hab⟩
    · simp [SortedList.thenLt, hab, h.asymm hab]
    · rw [thenLt_of_tied ht.symm, h'.asymm hab]
  · rcases cases_of hac with hac | ⟨ht, hac⟩
    · exact (h.cotrans b hac).imp of_lt of_lt
    · by_cases hab : Tied lt a b
      · rw [thenLt_of_tied hab, thenLt_of_tied (h.tied_trans hab.symm ht)]
        exact h'.cotrans b hac
      · -- `b` is not tied to `a`, hence before it or after it, and the same for `c`
        cases h₁ : lt a b with
        | true => exact .inl (of_lt h₁)
        | false =>
          cases h₂ : lt b a with
          | false => exact absurd ⟨h₁, h₂⟩ hab
          | true =>
            refine .inr (of_lt ?_)
            rcases h.cotrans c h₂ with h₃ | h₃
            · exact h₃
            · rw [ht.2] at h₃; cases h₃

theorem lexLt_asymm {lt : α → α → Bool} (h : StrictWeak lt) : ∀ {xs ys : List α}, lexLt lt xs ys = true →
    lexLt lt ys xs = false
  | [], _, hxy => by simp [lexLt] at hxy
  | _ :: _, [], hxy => by simp [lexLt] at hxy
  | x :: xs, y :: ys, hxy => by
    simp only [lexLt] at hxy ⊢
    cases h₁ : lt x y with
    | true => simp [h.asymm h₁]
    | false =>
      cases h₂ : lt y x with
      | true => simp [h₁, h₂] at hxy
      | false =>
        simp only [h₁, h₂, Bool.false_eq_true, if_false] at hxy ⊢
        exact lexLt_asymm h hxy

theorem lexLt_cotrans {lt : α → α → Bool} (h : StrictWeak lt) : ∀ {xs ys zs : List α}, xs.length = ys.length →
    ys.length = zs.length → lexLt lt xs zs = true → lexLt lt xs ys = true ∨ lexLt lt ys zs = true
  | [], _, _, _, _, hxz => by simp [lexLt] at hxz
  | _ :: _, [], _, hl, _, _ => by simp at hl
  | _ :: _, _ :: _, [], _, hl, _ => by simp at hl
  | x :: xs, y :: ys, z :: zs, hl, hl', hxz => by
    have step : thenLt lt (fun _ _ => lexLt lt xs zs) x z = true := by
      simpa [thenLt, lexLt] using hxz
    cases h₁ : lt x z with
    | true =>
      rcases h.cotrans y h₁ with h₂ | h₂
      · exact .inl (by simp [lexLt, h₂])
      · exact .inr (by simp [lexLt, h₂])
    | false =>
      cases h₂ : lt z x with
      | true => simp [thenLt, h₁, h₂] at step
      | false =>
        by_cases hxy : Tied lt x y
        · have hyz := h.tied_trans hxy.symm ⟨h₁, h₂⟩
          rw [lexLt_cons hxy, lexLt_cons hyz]
          rw [lexLt_cons ⟨h₁, h₂⟩] at hxz
          exact lexLt_cotrans h (by simpa using hl) (by simpa using hl') hxz
        · -- `y` is before or after both `x` and `z`
          cases h₃ : lt x y with
          | true => exact .inl (by simp [lexLt, h₃])
          | false =>
            cases h₄ : lt y x with
            | false => exact absurd ⟨h₃, h₄⟩ hxy
            | true =>
              refine .inr ?_
              rcases h.cotrans z h₄ with h₅ | h₅
              · simp [lexLt, h₅]
              · rw [h₂] at h₅; cases h₅

theorem StrictWeak.sizeLexLt {lt : α → α → Bool} (h : StrictWeak lt) : StrictWeak (sizeLexLt lt) := by
  have cases_of : ∀ {xs ys : List α}, SortedList.sizeLexLt lt xs ys = true →
      xs.length < ys.length ∨ xs.length = ys.length ∧ lexLt lt xs ys = true := by
    intro xs ys hxy
    unfold SortedList.sizeLexLt at hxy
    split_ifs at hxy with h₁ h₂
    · exact .inl h₁
    · exact .inr ⟨by omega, hxy⟩
  have of_length : ∀ {xs ys : List α}, xs.length < ys.length → SortedList.sizeLexLt lt xs ys = true := by
    intro xs ys hl
    simp [SortedList.sizeLexLt, hl]
  have of_lex : ∀ {xs ys : List α}, xs.length = ys.length → lexLt lt xs ys = true →
      SortedList.sizeLexLt lt xs ys = true := by
    intro xs ys hl hxy
    simp [SortedList.sizeLexLt, hl, hxy]
  refine ⟨fun {xs ys} hxy => ?_, fun {xs zs} ys hxz => ?_⟩
  · rcases cases_of hxy with hl | ⟨hl, hxy⟩
    · have : ¬ ys.length < xs.length := by omega
      simp [SortedList.sizeLexLt, hl, this]
    · simp [SortedList.sizeLexLt, hl, lexLt_asymm h hxy]
  · rcases cases_of hxz with hl | ⟨hl, hxz⟩
    · rcases Nat.lt_or_ge xs.length ys.length with hl' | hl'
      · exact .inl (of_length hl')
      · exact .inr (of_length (by omega))
    · rcases Nat.lt_trichotomy xs.length ys.length with hl' | hl' | hl'
      · exact .inl (of_length hl')
      · exact (lexLt_cotrans h hl' (by omega) hxz).imp (of_lex hl') (of_lex (by omega))
      · exact .inr (of_length (by omega))

/-! ## Sorted lists -/

/-- Every element comes before all later ones. -/
def Sorted (lt : α → α → Bool) (l : List α) : Prop := l.Pairwise (fun a b => lt a b = true)

section Sorted

variable {lt : α → α → Bool}

/-- Two elements of a sorted list that are tied are one. -/
theorem Sorted.eq_of_tied {l : List α} (hs : Sorted lt l) {x y : α} (hx : x ∈ l) (hy : y ∈ l) (ht : Tied lt x y) :
    x = y := by
  by_contra hne
  have hsymm : Std.Symm (fun a b => lt a b = true ∨ lt b a = true) := ⟨fun a b h => h.symm⟩
  have hor : l.Pairwise (fun a b => lt a b = true ∨ lt b a = true) := hs.imp .inl
  rcases hor.forall hx hy hne with h | h
  · rw [ht.1] at h; cases h
  · rw [ht.2] at h; cases h

theorem Sorted.nodup {l : List α} (hs : Sorted lt l) (h : StrictWeak lt) : l.Nodup := by
  refine List.Pairwise.imp (fun {a b} hab hne => ?_) hs
  rw [hne, h.irrefl] at hab
  cases hab

/-- A sorted list is determined by its elements. -/
theorem eq_of_sorted {l l' : List α} (h : StrictWeak lt) (hs : Sorted lt l) (hs' : Sorted lt l')
    (hm : ∀ x, x ∈ l ↔ x ∈ l') : l = l' := by
  have hp : l.Perm l' := (List.perm_ext_iff_of_nodup (hs.nodup h) (hs'.nodup h)).2 hm
  refine hp.eq_of_pairwise (fun a b _ _ hab hba => ?_) hs hs'
  rw [h.asymm hab] at hba
  cases hba

theorem sorted_insertUnique {x : α} (h : StrictWeak lt) : ∀ {l : List α}, Sorted lt l → Sorted lt (insertUnique lt x l)
  | [], _ => by simp [insertUnique, Sorted]
  | c :: cs, hs => by
    have hcs := List.pairwise_cons.1 hs
    simp only [insertUnique]
    split_ifs with h₁ h₂
    · exact hs
    · refine List.pairwise_cons.2 ⟨fun d hd => ?_, hs⟩
      rcases List.mem_cons.1 hd with rfl | hd
      · exact h₂
      · exact h.trans h₂ (hcs.1 d hd)
    · refine List.pairwise_cons.2 ⟨fun d hd => ?_, sorted_insertUnique h hcs.2⟩
      rcases mem_insertUnique hd with rfl | hd
      · cases h₃ : lt c d with
        | true => rfl
        | false => exact absurd ⟨by simpa using h₂, h₃⟩ h₁
      · exact hcs.1 d hd

/-! ## Lists built by insertion -/

/-- The values of a list inserted one after the other. -/
def build (lt : α → α → Bool) (l : List α) : List α := l.foldl (fun acc x => insertUnique lt x acc) []

theorem foldl_insertUnique_subset {acc l : List α} {y : α}
    (hy : y ∈ l.foldl (fun acc x => insertUnique lt x acc) acc) : y ∈ acc ∨ y ∈ l := by
  induction l generalizing acc with
  | nil => exact .inl hy
  | cons x l ih =>
    rcases ih hy with h | h
    · rcases mem_insertUnique h with rfl | h
      · exact .inr List.mem_cons_self
      · exact .inl h
    · exact .inr (List.mem_cons_of_mem _ h)

theorem subset_foldl_insertUnique {acc l : List α} {y : α} (hy : y ∈ acc) :
    y ∈ l.foldl (fun acc x => insertUnique lt x acc) acc := by
  induction l generalizing acc with
  | nil => exact hy
  | cons x l ih => exact ih (subset_insertUnique hy)

theorem mem_of_mem_build {l : List α} {y : α} (hy : y ∈ build lt l) : y ∈ l := by
  rcases foldl_insertUnique_subset hy with h | h
  · cases h
  · exact h

/-- Every value of the list, or one tied to it, is in the built list. -/
theorem build_covers (lt : α → α → Bool) {l : List α} {y : α} (hy : y ∈ l) : y ∈ build lt l ∨ ∃ z ∈ build lt l, Tied lt y z := by
  have hfold : ∀ {acc : List α}, y ∈ l → (y ∈ l.foldl (fun acc x => insertUnique lt x acc) acc ∨
      ∃ z ∈ l.foldl (fun acc x => insertUnique lt x acc) acc, Tied lt y z) := by
    intro acc hy
    induction l generalizing acc with
    | nil => cases hy
    | cons x l ih =>
      rcases List.mem_cons.1 hy with rfl | hy
      · rcases insertUnique_covers lt y acc with h | ⟨z, hz, ht⟩
        · exact .inl (subset_foldl_insertUnique (l := l) h)
        · exact .inr ⟨z, subset_foldl_insertUnique (l := l) (subset_insertUnique hz), ht⟩
      · exact ih hy hy
  exact hfold hy

theorem sorted_foldl_insertUnique (h : StrictWeak lt) {acc l : List α} (ha : Sorted lt acc) :
    Sorted lt (l.foldl (fun acc x => insertUnique lt x acc) acc) := by
  induction l generalizing acc with
  | nil => exact ha
  | cons x l ih => exact ih (sorted_insertUnique h ha)

theorem sorted_build (h : StrictWeak lt) (l : List α) : Sorted lt (build lt l) :=
  sorted_foldl_insertUnique h .nil

theorem length_insertUnique_le (x : α) (l : List α) : (insertUnique lt x l).length ≤ l.length + 1 := by
  induction l with
  | nil => simp [insertUnique]
  | cons y l ih =>
    simp only [insertUnique]
    split_ifs <;> simp only [List.length_cons] <;> omega

theorem length_build_le (lt : α → α → Bool) (l : List α) : (build lt l).length ≤ l.length := by
  have hfold : ∀ acc : List α, (l.foldl (fun acc x => insertUnique lt x acc) acc).length ≤ acc.length + l.length := by
    induction l with
    | nil => simp
    | cons x l ih =>
      intro acc
      have h₁ := ih (insertUnique lt x acc)
      have h₂ : (insertUnique lt x acc).length ≤ acc.length + 1 := length_insertUnique_le x acc
      simp only [List.foldl_cons, List.length_cons]
      omega
  simpa [build] using hfold []

/-- Every element of either list is tied to one of the other. -/
def SameClasses (lt : α → α → Bool) (l l' : List α) : Prop :=
  (∀ x ∈ l, ∃ y ∈ l', Tied lt x y) ∧ ∀ y ∈ l', ∃ x ∈ l, Tied lt x y

theorem SameClasses.symm {l l' : List α} (h : SameClasses lt l l') : SameClasses lt l' l :=
  ⟨fun y hy => (h.2 y hy).imp fun _ hx => ⟨hx.1, hx.2.symm⟩, fun x hx => (h.1 x hx).imp fun _ hy => ⟨hy.1, hy.2.symm⟩⟩

theorem SameClasses.trans (h : StrictWeak lt) {a b c : List α} (hab : SameClasses lt a b) (hbc : SameClasses lt b c) :
    SameClasses lt a c := by
  refine ⟨fun x hx => ?_, fun z hz => ?_⟩
  · obtain ⟨y, hy, hxy⟩ := hab.1 x hx
    obtain ⟨z, hz, hyz⟩ := hbc.1 y hy
    exact ⟨z, hz, h.tied_trans hxy hyz⟩
  · obtain ⟨y, hy, hyz⟩ := hbc.2 z hz
    obtain ⟨x, hx, hxy⟩ := hab.2 y hy
    exact ⟨x, hx, h.tied_trans hxy hyz⟩

theorem sameClasses_of_forall₂ {l l' : List α} (h : List.Forall₂ (Tied lt) l l') : SameClasses lt l l' := by
  induction h with
  | nil => exact ⟨by simp, by simp⟩
  | @cons a b l l' hab _ ih =>
    obtain ⟨h₁, h₂⟩ := ih
    refine ⟨List.forall_mem_cons.2 ⟨⟨b, List.mem_cons_self, hab⟩, fun x hx => ?_⟩,
      List.forall_mem_cons.2 ⟨⟨a, List.mem_cons_self, hab⟩, fun y hy => ?_⟩⟩
    · obtain ⟨y, hy, hxy⟩ := h₁ x hx
      exact ⟨y, List.mem_cons_of_mem _ hy, hxy⟩
    · obtain ⟨x, hx, hxy⟩ := h₂ y hy
      exact ⟨x, List.mem_cons_of_mem _ hx, hxy⟩

/-- Sorted lists with the same classes are tied element by element. -/
theorem forall₂_tied_of_sorted (h : StrictWeak lt) : ∀ {l l' : List α}, Sorted lt l → Sorted lt l' →
    SameClasses lt l l' → List.Forall₂ (Tied lt) l l'
  | [], [], _, _, _ => .nil
  | [], y :: l', _, _, hc => by
    obtain ⟨x, hx, -⟩ := hc.2 y List.mem_cons_self
    cases hx
  | x :: l, [], _, _, hc => by
    obtain ⟨y, hy, -⟩ := hc.1 x List.mem_cons_self
    cases hy
  | x :: l, y :: l', hs, hs', hc => by
    obtain ⟨hx, hs⟩ := List.pairwise_cons.1 hs
    obtain ⟨hy, hs'⟩ := List.pairwise_cons.1 hs'
    have hxy : Tied lt x y := by
      obtain ⟨y', hy', hxy'⟩ := hc.1 x List.mem_cons_self
      obtain ⟨x', hx', hxy''⟩ := hc.2 y List.mem_cons_self
      rcases List.mem_cons.1 hy' with rfl | hy'
      · exact hxy'
      rcases List.mem_cons.1 hx' with rfl | hx'
      · exact hxy''
      -- otherwise each of the first elements comes before the other
      have hlt : lt x y = true := by rw [← h.lt_congr_right hxy'', hx x' hx']
      have hgt : lt y x = true := by rw [h.lt_congr_right hxy', hy y' hy']
      rw [h.asymm hlt] at hgt
      cases hgt
    refine .cons hxy (forall₂_tied_of_sorted h hs hs' ⟨fun z hz => ?_, fun z hz => ?_⟩)
    · obtain ⟨w, hw, hzw⟩ := hc.1 z (List.mem_cons_of_mem _ hz)
      rcases List.mem_cons.1 hw with rfl | hw
      · have htied := h.tied_trans hxy hzw.symm
        have := hx z hz
        rw [htied.1] at this
        cases this
      · exact ⟨w, hw, hzw⟩
    · obtain ⟨w, hw, hwz⟩ := hc.2 z (List.mem_cons_of_mem _ hz)
      rcases List.mem_cons.1 hw with rfl | hw
      · have htied := h.tied_trans hxy.symm hwz
        have := hy z hz
        rw [htied.1] at this
        cases this
      · exact ⟨w, hw, hwz⟩

/-- What is built of two lists is tied element by element iff the lists have the same classes. -/
theorem tied_build_iff (h : StrictWeak lt) {l l' : List α} :
    List.Forall₂ (Tied lt) (build lt l) (build lt l') ↔ SameClasses lt l l' := by
  have hbuild : ∀ l : List α, SameClasses lt l (build lt l) := by
    refine fun l => ⟨fun x hx => ?_, fun y hy => ⟨y, mem_of_mem_build hy, h.tied_refl y⟩⟩
    rcases build_covers lt hx with hm | hm
    · exact ⟨x, hm, h.tied_refl x⟩
    · exact hm
  constructor
  · exact fun hf => ((hbuild l).trans h (sameClasses_of_forall₂ hf)).trans h (hbuild l').symm
  · exact fun hc => forall₂_tied_of_sorted h (sorted_build h l) (sorted_build h l')
      (((hbuild l).symm.trans h hc).trans h (hbuild l'))

/-- A value enters a sorted list unless one of the list is tied to it. -/
theorem mem_insertUnique_iff (h : StrictWeak lt) {l : List α} (hs : Sorted lt l) {x z : α} :
    x ∈ insertUnique lt z l ↔ x ∈ l ∨ x = z ∧ ∀ y ∈ l, ¬ Tied lt y z := by
  have hself : ∀ {l : List α}, Sorted lt l → (∃ y ∈ l, Tied lt y z) → insertUnique lt z l = l := by
    intro l hs
    induction l with
    | nil => simp
    | cons w l ih =>
      rintro ⟨y, hy, ht⟩
      obtain ⟨hw, hl⟩ := List.pairwise_cons.1 hs
      simp only [insertUnique]
      rcases List.mem_cons.1 hy with rfl | hy
      · rw [if_pos ht.symm]
      · have hwz : lt w z = true := (h.lt_congr_right ht w).symm.trans (hw y hy)
        have hno : ¬ Tied lt z w := fun ht' => by rw [ht'.2] at hwz; cases hwz
        rw [if_neg hno, h.asymm hwz, ih hl ⟨y, hy, ht⟩]
        rfl
  by_cases ht : ∃ y ∈ l, Tied lt y z
  · rw [hself hs ht]
    exact ⟨.inl, fun hx => hx.elim id fun hx => absurd ht (by simpa using hx.2)⟩
  · have hno : ∀ y ∈ l, ¬ Tied lt y z := by simpa using ht
    constructor
    · intro hx
      exact (mem_insertUnique hx).elim (fun hx => .inr ⟨hx, hno⟩) .inl
    · rintro (hx | ⟨rfl, -⟩)
      · exact subset_insertUnique hx
      · rcases insertUnique_covers lt x l with hx | ⟨y, hy, hxy⟩
        · exact hx
        · exact absurd hxy.symm (hno y hy)

/-- What is built has the values that no earlier value is tied to. -/
theorem mem_build_iff_first (h : StrictWeak lt) {l : List α} {x : α} :
    x ∈ build lt l ↔ ∃ pre post, l = pre ++ x :: post ∧ ∀ y ∈ pre, ¬ Tied lt y x := by
  induction l using List.reverseRecOn with
  | nil => simp [build]
  | append_singleton l z ih =>
    have hbuild : build lt (l ++ [z]) = insertUnique lt z (build lt l) := by simp [build]
    rw [hbuild, mem_insertUnique_iff h (sorted_build h l), ih]
    constructor
    · rintro (⟨pre, post, rfl, hpre⟩ | ⟨rfl, hno⟩)
      · exact ⟨pre, post ++ [z], by simp, hpre⟩
      · refine ⟨l, [], rfl, fun y hy ht => ?_⟩
        rcases build_covers lt hy with hb | ⟨w, hw, hyw⟩
        · exact hno y hb ht
        · exact hno w hw (h.tied_trans hyw.symm ht)
    · rintro ⟨pre, post, hl, hpre⟩
      rcases List.eq_nil_or_concat post with rfl | ⟨post, w, rfl⟩
      · obtain ⟨rfl, hz⟩ := List.append_inj' hl rfl
        cases hz
        exact .inr ⟨rfl, fun y hy => hpre y (mem_of_mem_build hy)⟩
      · rw [List.concat_eq_append, ← List.cons_append, ← List.append_assoc] at hl
        exact .inl ⟨pre, post, (List.append_inj' hl rfl).1, hpre⟩

/-- A sorted list is what is built from it. -/
theorem build_eq_self (h : StrictWeak lt) {l : List α} (hs : Sorted lt l) : build lt l = l := by
  refine eq_of_sorted h (sorted_build h l) hs fun x => ⟨mem_of_mem_build, fun hx => ?_⟩
  rcases build_covers lt hx with hc | ⟨y, hy, ht⟩
  · exact hc
  · rwa [hs.eq_of_tied hx (mem_of_mem_build hy) ht]

/-- Building the codes of a sorted list and then what they decode to gives the list back. -/
theorem build_build {lt' : β → β → Bool} (h : StrictWeak lt) {l : List α} (hs : Sorted lt l) {enc : α → β}
    {dec : β → α} (hdec : ∀ x ∈ l, dec (enc x) = x) (hinj : ∀ x ∈ l, ∀ y ∈ l, Tied lt' (enc x) (enc y) → x = y) :
    build lt ((build lt' (l.map enc)).map dec) = l := by
  have hback : ∀ y ∈ build lt' (l.map enc), ∃ x ∈ l, y = enc x := by
    intro y hy
    obtain ⟨x, hx, rfl⟩ := List.mem_map.1 (mem_of_mem_build hy)
    exact ⟨x, hx, rfl⟩
  have hmem : ∀ x, x ∈ (build lt' (l.map enc)).map dec ↔ x ∈ l := by
    intro x
    constructor
    · intro hx
      obtain ⟨y, hy, rfl⟩ := List.mem_map.1 hx
      obtain ⟨z, hz, rfl⟩ := hback y hy
      rw [hdec z hz]
      exact hz
    · intro hx
      rcases build_covers lt' (List.mem_map_of_mem hx : enc x ∈ l.map enc) with hc | ⟨y, hy, ht⟩
      · exact List.mem_map.2 ⟨enc x, hc, hdec x hx⟩
      · obtain ⟨z, hz, rfl⟩ := hback y hy
        obtain rfl := hinj x hx z hz ht
        exact List.mem_map.2 ⟨enc x, hy, hdec x hx⟩
  refine eq_of_sorted h (sorted_build h _) hs fun x => ⟨fun hx => (hmem x).1 (mem_of_mem_build hx), fun hx => ?_⟩
  rcases build_covers lt ((hmem x).2 hx) with hc | ⟨y, hy, ht⟩
  · exact hc
  · rwa [hs.eq_of_tied hx ((hmem y).1 (mem_of_mem_build hy)) ht]

theorem filterMap_eq_map_of_some {f : α → Option β} {g : α → β} {l : List α} (h : ∀ x ∈ l, f x = some (g x)) :
    l.filterMap f = l.map g := (List.filterMap_congr h).trans (congrFun List.filterMap_eq_map l)

/-- The same, where encoding and decoding can fail but do not fail on the list. -/
theorem build_filterMap_build {lt' : β → β → Bool} (h : StrictWeak lt) {l : List α} (hs : Sorted lt l)
    {f : α → Option β} {g : β → Option α} {enc : α → β} (hf : ∀ x ∈ l, f x = some (enc x))
    (hg : ∀ x ∈ l, g (enc x) = some x) (hinj : ∀ x ∈ l, ∀ y ∈ l, Tied lt' (enc x) (enc y) → x = y) :
    build lt ((build lt' (l.filterMap f)).filterMap g) = l := by
  cases l with
  | nil => rfl
  | cons x₀ xs =>
    have henc : (x₀ :: xs).filterMap f = (x₀ :: xs).map enc := filterMap_eq_map_of_some hf
    have hdec : (build lt' ((x₀ :: xs).map enc)).filterMap g =
        (build lt' ((x₀ :: xs).map enc)).map (fun y => (g y).getD x₀) := by
      refine filterMap_eq_map_of_some fun y hy => ?_
      obtain ⟨x, hx, rfl⟩ := List.mem_map.1 (mem_of_mem_build hy)
      rw [hg x hx]
      rfl
    rw [henc, hdec]
    exact build_build h hs (fun x hx => by rw [hg x hx]; rfl) hinj

end Sorted

/-! ## Comparing what is stored in places -/

/-- A comparison of stored values looks at their places: it ties two only when the values are tied and the places are
the same, and compares the values where there is no place. -/
structure ByPlace {ν κ : Type*} (lt : α → α → Bool) (lt' : ν → ν → Bool) (value : α → ν) (places : α → List κ) :
    Prop where
  tied : ∀ {a b}, Tied lt a b → Tied lt' (value a) (value b) ∧ places a = places b
  lt_eq : ∀ {a b}, places a = [] → places b = [] → lt a b = lt' (value a) (value b)
  places_eq_nil : ∀ {a b}, value a = value b → places a = [] → places b = []

namespace ByPlace

variable {ν κ : Type*} {lt : α → α → Bool} {lt' : ν → ν → Bool} {value : α → ν} {places : α → List κ}

/-- Values in different places are tied only when they have no places. -/
theorem nil_of_disjoint (h : ByPlace lt lt' value places) {a b : α} (hd : (places a).Disjoint (places b))
    (ht : Tied lt a b) : (places a = [] ∧ places b = []) ∧ Tied lt' (value a) (value b) := by
  obtain ⟨htied, hp⟩ := h.tied ht
  have hnil : places a = [] := List.eq_nil_iff_forall_not_mem.2 fun p hpa => hd hpa (hp ▸ hpa)
  exact ⟨⟨hnil, hp ▸ hnil⟩, htied⟩

/-- One value in different places is tied to itself iff it has no places. -/
theorem tied_iff_of_disjoint (h : ByPlace lt lt' value places) (hw : StrictWeak lt') {a b : α} (hv : value a = value b)
    (hd : (places a).Disjoint (places b)) : Tied lt a b ↔ places a = [] := by
  constructor
  · intro ht
    exact (h.nil_of_disjoint hd ht).1.1
  · intro ha
    have hb := h.places_eq_nil hv ha
    unfold Tied
    rw [h.lt_eq ha hb, h.lt_eq hb ha, hv]
    exact hw.tied_refl (value b)

theorem tied_iff (h : ByPlace lt lt' value places) {a b : α} (hd : (places a).Disjoint (places b)) :
    Tied lt a b ↔ (places a = [] ∧ places b = []) ∧ Tied lt' (value a) (value b) := by
  refine ⟨h.nil_of_disjoint hd, fun ⟨⟨ha, hb⟩, ht⟩ => ?_⟩
  unfold Tied
  rw [h.lt_eq ha hb, h.lt_eq hb ha]
  exact ht

/-- Values at places of their own: which values are built does not depend on the places. -/
theorem values_build (h : ByPlace lt lt' value places) (hw : StrictWeak lt) {l l' : List α}
    (hv : l.map value = l'.map value) (hd : l.Pairwise (fun a b => (places a).Disjoint (places b)))
    (hd' : l'.Pairwise (fun a b => (places a).Disjoint (places b))) {v : ν} (hm : v ∈ (build lt l).map value) :
    v ∈ (build lt l').map value := by
  obtain ⟨x, hx, rfl⟩ := List.mem_map.1 hm
  obtain ⟨pre, post, rfl, hpre⟩ := (mem_build_iff_first hw).1 hx
  rw [List.map_append, List.map_cons] at hv
  obtain ⟨pre', rest, rfl, hpre', hrest⟩ := List.map_eq_append_iff.1 hv.symm
  obtain ⟨x', post', rfl, hx', -⟩ := List.map_eq_cons_iff.1 hrest
  have hdis : ∀ y ∈ pre, (places y).Disjoint (places x) := fun y hy =>
    (List.pairwise_append.1 hd).2.2 y hy x List.mem_cons_self
  have hdis' : ∀ y ∈ pre', (places y).Disjoint (places x') := fun y hy =>
    (List.pairwise_append.1 hd').2.2 y hy x' List.mem_cons_self
  refine List.mem_map.2 ⟨x', (mem_build_iff_first hw).2 ⟨pre', post', rfl, fun y' hy' ht => ?_⟩, hx'⟩
  obtain ⟨⟨hny, hnx⟩, htied⟩ := h.nil_of_disjoint (hdis' y' hy') ht
  obtain ⟨y, hy, hyv⟩ := List.mem_map.1 (hpre' ▸ List.mem_map_of_mem hy')
  refine hpre y hy ((h.tied_iff (hdis y hy)).2 ⟨⟨h.places_eq_nil hyv.symm hny, h.places_eq_nil hx' hnx⟩, ?_⟩)
  rw [hyv, ← hx']
  exact htied

theorem lexLt_eq (h : ByPlace lt lt' value places) : ∀ {xs ys : List α}, xs.flatMap places = [] →
    ys.flatMap places = [] → lexLt lt xs ys = lexLt lt' (xs.map value) (ys.map value)
  | [], _, _, _ | _ :: _, [], _, _ => by simp [lexLt]
  | x :: xs, y :: ys, hx, hy => by
    rw [List.flatMap_cons, List.append_eq_nil_iff] at hx hy
    simp only [lexLt, List.map_cons, h.lt_eq hx.1 hy.1, h.lt_eq hy.1 hx.1, lexLt_eq h hx.2 hy.2]

theorem flatMap_eq_nil (h : ByPlace lt lt' value places) : ∀ {xs ys : List α}, xs.map value = ys.map value →
    xs.flatMap places = [] → ys.flatMap places = []
  | [], [], _, _ => rfl
  | [], _ :: _, hv, _ | _ :: _, [], hv, _ => by simp at hv
  | x :: xs, y :: ys, hv, hx => by
    rw [List.map_cons, List.map_cons, List.cons.injEq] at hv
    rw [List.flatMap_cons, List.append_eq_nil_iff] at hx ⊢
    exact ⟨h.places_eq_nil hv.1 hx.1, flatMap_eq_nil h hv.2 hx.2⟩

/-- Lists compare by place when their elements do. -/
theorem sizeLexLt (h : ByPlace lt lt' value places) :
    ByPlace (SortedList.sizeLexLt lt) (SortedList.sizeLexLt lt') (List.map value) (List.flatMap places) := by
  refine ⟨fun {xs ys} ht => ?_, fun {xs ys} hx hy => ?_, flatMap_eq_nil h⟩
  · rw [tied_sizeLexLt] at ht ⊢
    induction ht with
    | nil => exact ⟨.nil, rfl⟩
    | cons hxy _ ih =>
      obtain ⟨hv, hp⟩ := h.tied hxy
      exact ⟨.cons hv ih.1, by rw [List.flatMap_cons, List.flatMap_cons, hp, ih.2]⟩
  · simp only [SortedList.sizeLexLt, List.length_map, lexLt_eq h hx hy]

end ByPlace

end SortedList
