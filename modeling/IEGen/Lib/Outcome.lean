import Mathlib.Data.List.Forall2

/-!
# Computations that can fail

What a sequence of steps that ended well says about its steps.
-/

namespace Outcome

universe u v

variable {ε : Type v} {α β : Type u}

@[simp] theorem bind_eq_ok {x : Except ε α} {f : α → Except ε β} {r : β} :
    (x >>= f) = .ok r ↔ ∃ a, x = .ok a ∧ f a = .ok r := by
  cases x with
  | error e =>
    constructor
    · intro h; cases h
    · rintro ⟨_, h, _⟩; cases h
  | ok a =>
    constructor
    · exact fun h => ⟨a, rfl, h⟩
    · rintro ⟨_, h, hf⟩
      cases h
      exact hf

theorem map_eq_ok {x : Except ε α} {f : α → β} {r : β} : x.map f = .ok r ↔ ∃ a, x = .ok a ∧ f a = r := by
  cases x with
  | error e => exact ⟨fun h => (by cases h), fun h => (by obtain ⟨_, h, _⟩ := h; cases h)⟩
  | ok a => exact ⟨fun h => ⟨a, rfl, Except.ok.inj h⟩, fun h => (by obtain ⟨_, h, hf⟩ := h; cases h; exact congrArg _ hf)⟩

theorem eq_ok_of_toOption {x : Except ε α} {a : α} (h : x.toOption = some a) : x = .ok a := by
  cases x with
  | error => cases h
  | ok => exact congrArg Except.ok (Option.some.inj h)

/-- The comparison that finds two values equal when neither comes before the other. -/
theorem neither_eq_ok {ε : Type v} {x y : Except ε Bool} :
    (do if ← x then .ok false else if ← y then .ok false else .ok true) = (.ok true : Except ε Bool) ↔
      x = .ok false ∧ y = .ok false := by
  constructor
  · intro h
    rw [bind_eq_ok] at h
    obtain ⟨b, hb, h⟩ := h
    cases b with
    | true => cases h
    | false =>
      rw [if_neg Bool.false_ne_true, bind_eq_ok] at h
      obtain ⟨b', hb', h⟩ := h
      cases b' with
      | true => cases h
      | false => exact ⟨hb, hb'⟩
  · rintro ⟨rfl, rfl⟩
    rfl

/-- A step for each element gives a list, element by element. -/
theorem forall₂_of_mapM {f : α → Except ε β} : ∀ {l : List α} {r : List β}, l.mapM f = .ok r →
    List.Forall₂ (fun a b => f a = .ok b) l r
  | [], r, h => by
    rw [List.mapM_nil] at h
    cases h
    exact .nil
  | a :: l, r, h => by
    rw [List.mapM_cons, bind_eq_ok] at h
    obtain ⟨b, hb, h⟩ := h
    rw [bind_eq_ok] at h
    obtain ⟨bs, hbs, h⟩ := h
    cases h
    exact .cons hb (forall₂_of_mapM hbs)

theorem exists_mapM {f : α → Except ε β} {l : List α} (h : ∀ a ∈ l, ∃ b, f a = .ok b) : ∃ r, l.mapM f = .ok r := by
  induction l with
  | nil => exact ⟨[], rfl⟩
  | cons a l ih =>
    obtain ⟨⟨b, hb⟩, hl⟩ := List.forall_mem_cons.1 h
    obtain ⟨bs, hbs⟩ := ih hl
    exact ⟨b :: bs, by rw [List.mapM_cons, hb]; simp only [hbs]; rfl⟩

/-- What holds of the pairs whose first value is in the list. -/
theorem forall₂_imp_mem {R S : α → β → Prop} {l : List α} {r : List β} (h : List.Forall₂ R l r)
    (hrs : ∀ a b, a ∈ l → R a b → S a b) : List.Forall₂ S l r := by
  induction h with
  | nil => exact .nil
  | @cons a b _ _ hab _ ih =>
    exact .cons (hrs a b List.mem_cons_self hab) (ih fun a b ha => hrs a b (List.mem_cons_of_mem _ ha))

/-- Lists whose related elements are equal. -/
theorem eq_of_forall₂ {R : α → α → Prop} {l r : List α} (h : List.Forall₂ R l r)
    (heq : ∀ a ∈ l, ∀ b ∈ r, R a b → a = b) : l = r := by
  induction h with
  | nil => rfl
  | @cons a b l r hab _ ih =>
    have htail : ∀ a ∈ l, ∀ b ∈ r, R a b → a = b :=
      fun a ha b hb => heq a (List.mem_cons_of_mem _ ha) b (List.mem_cons_of_mem _ hb)
    rw [heq a List.mem_cons_self b List.mem_cons_self hab, ih htail]

theorem mapM_of_forall₂ {f : α → Except ε β} {l : List α} {r : List β}
    (h : List.Forall₂ (fun a b => f a = .ok b) l r) : l.mapM f = .ok r := by
  induction h with
  | nil => rfl
  | cons hab _ ih => rw [List.mapM_cons, hab]; simp only [ih]; rfl

/-- A step that succeeds on each element with a pure result gives the results. -/
theorem mapM_eq_map {f : α → Except ε β} {g : α → β} {l : List α} (h : ∀ a ∈ l, f a = .ok (g a)) :
    l.mapM f = .ok (l.map g) := by
  refine mapM_of_forall₂ ?_
  rw [List.forall₂_map_right_iff, List.forall₂_same]
  exact h

/-- A step that succeeds where `P` holds. -/
theorem mapM_eq_ok_iff {f : α → Except ε β} {g : α → β} {P : α → Prop} {l : List α} {r : List β}
    (h : ∀ a ∈ l, ∀ b, f a = .ok b ↔ P a ∧ b = g a) : l.mapM f = .ok r ↔ (∀ a ∈ l, P a) ∧ r = l.map g := by
  induction l generalizing r with
  | nil =>
    rw [List.mapM_nil]
    exact ⟨fun hr => ⟨by simp, by cases hr; rfl⟩, fun hr => by rw [hr.2]; rfl⟩
  | cons a l ih =>
    obtain ⟨ha, hl⟩ := List.forall_mem_cons.1 h
    rw [List.mapM_cons, bind_eq_ok]
    simp only [ha, bind_eq_ok, ih hl, List.forall_mem_cons, List.map_cons]
    constructor
    · rintro ⟨b, ⟨hP, rfl⟩, bs, ⟨hPs, rfl⟩, hr⟩
      cases hr
      exact ⟨⟨hP, hPs⟩, rfl⟩
    · rintro ⟨⟨hP, hPs⟩, rfl⟩
      exact ⟨g a, ⟨hP, rfl⟩, l.map g, ⟨hPs, rfl⟩, rfl⟩

/-- A step that does the same to what is mapped gives the mapped results. -/
theorem mapM_map {α' β' : Type u} {f : α → Except ε β} {g : α' → Except ε β'} {u : α → α'} {v : β → β'}
    (h : ∀ a, g (u a) = (f a).map v) : ∀ l : List α, (l.map u).mapM g = (l.mapM f).map (List.map v)
  | [] => rfl
  | a :: l => by
    rw [List.map_cons, List.mapM_cons, List.mapM_cons, h, mapM_map h l]
    cases f a with
    | error e => rfl
    | ok b => cases l.mapM f <;> rfl

/-- A search in one of two related lists finds what the search in the other finds. -/
theorem find?_of_forall₂ {R : α → β → Prop} {p : α → Bool} {q : β → Bool} {l : List α} {r : List β} (h : List.Forall₂ R l r)
    (hpq : ∀ a b, R a b → p a = q b) :
    (∀ a, l.find? p = some a → ∃ b, r.find? q = some b ∧ R a b) ∧ ∀ b, r.find? q = some b → ∃ a, l.find? p = some a ∧ R a b := by
  induction h with
  | nil => exact ⟨fun _ h => (by cases h), fun _ h => (by cases h)⟩
  | @cons a b l r hab _ ih =>
    rw [List.find?_cons, List.find?_cons, hpq a b hab]
    cases q b with
    | true => exact ⟨fun _ h => ⟨b, rfl, by cases h; exact hab⟩, fun _ h => ⟨a, rfl, by cases h; exact hab⟩⟩
    | false => exact ih

theorem exists_of_mem_forall₂ {R : α → β → Prop} {l : List α} {r : List β} (h : List.Forall₂ R l r) {b : β}
    (hb : b ∈ r) : ∃ a ∈ l, R a b := by
  induction h with
  | nil => cases hb
  | cons hab _ ih =>
    rcases List.mem_cons.1 hb with rfl | hb
    · exact ⟨_, List.mem_cons_self, hab⟩
    · obtain ⟨a, ha, h⟩ := ih hb
      exact ⟨a, List.mem_cons_of_mem _ ha, h⟩

/-- What holds of related elements alike holds of all on either side. -/
theorem forall_iff_of_forall₂ {R : α → β → Prop} {p : α → Prop} {q : β → Prop} {l : List α} {r : List β}
    (h : List.Forall₂ R l r) (hpq : ∀ a ∈ l, ∀ b, R a b → (q b ↔ p a)) : (∀ b ∈ r, q b) ↔ ∀ a ∈ l, p a := by
  induction h with
  | nil => simp
  | cons hab _ ih =>
    obtain ⟨h, hrest⟩ := List.forall_mem_cons.1 hpq
    rw [List.forall_mem_cons, List.forall_mem_cons, h _ hab, ih hrest]

/-- A run of steps, each of which succeeds iff its element is good and then has a pure result. -/
theorem foldlM_eq_ok_iff {σ : Type u} {f : σ → α → Except ε σ} {g : σ → α → σ} {P : α → Prop} {Inv : σ → Prop}
    {l : List α} (hstep : ∀ a ∈ l, ∀ s, Inv s → ∀ s', f s a = .ok s' ↔ P a ∧ s' = g s a)
    (hinv : ∀ a ∈ l, ∀ s, Inv s → P a → Inv (g s a)) {s s' : σ} (hs : Inv s) :
    l.foldlM f s = .ok s' ↔ (∀ a ∈ l, P a) ∧ s' = l.foldl g s := by
  induction l generalizing s with
  | nil =>
    rw [List.foldlM_nil, List.foldl_nil]
    constructor
    · intro h
      cases h
      exact ⟨by simp, rfl⟩
    · rintro ⟨-, rfl⟩
      rfl
  | cons a l ih =>
    have ih := @ih (fun b hb => hstep b (List.mem_cons_of_mem _ hb)) (fun b hb => hinv b (List.mem_cons_of_mem _ hb))
    rw [List.foldlM_cons, bind_eq_ok, List.foldl_cons, List.forall_mem_cons]
    constructor
    · rintro ⟨s₁, h₁, h⟩
      obtain ⟨ha, rfl⟩ := (hstep a List.mem_cons_self s hs s₁).1 h₁
      obtain ⟨hl, hs'⟩ := (ih (hinv a List.mem_cons_self s hs ha)).1 h
      exact ⟨⟨ha, hl⟩, hs'⟩
    · rintro ⟨⟨ha, hl⟩, hs'⟩
      exact ⟨_, (hstep a List.mem_cons_self s hs _).2 ⟨ha, rfl⟩,
        (ih (hinv a List.mem_cons_self s hs ha)).2 ⟨hl, hs'⟩⟩

/-- A run that adds what each element gives: all elements give something. -/
theorem exists_mapM_of_foldlM {σ : Type u} {f : α → Except ε β} {g : σ → β → σ} {l : List α} {s s' : σ}
    (h : l.foldlM (fun s a => do .ok (g s (← f a))) s = .ok s') : ∃ bs, l.mapM f = .ok bs ∧ s' = bs.foldl g s := by
  induction l generalizing s with
  | nil =>
    cases h
    exact ⟨[], rfl, rfl⟩
  | cons a l ih =>
    rw [List.foldlM_cons, bind_eq_ok] at h
    obtain ⟨s₁, h₁, h⟩ := h
    rw [bind_eq_ok] at h₁
    obtain ⟨b, hb, h₁⟩ := h₁
    cases h₁
    obtain ⟨bs, hbs, rfl⟩ := ih h
    exact ⟨b :: bs, by simp only [List.mapM_cons, bind_eq_ok]; exact ⟨b, hb, bs, hbs, rfl⟩, rfl⟩

/-- The same for a loop in a loop. -/
theorem exists_mapM_of_nested_foldlM {γ σ : Type u} {f : α → γ → Except ε β} {g : σ → β → σ} {l : List α} {l' : List γ} {s s' : σ}
    (h : l.foldlM (fun s a => l'.foldlM (fun s c => do .ok (g s (← f a c))) s) s = .ok s') :
    ∃ bs, (l.product l').mapM (fun p => f p.1 p.2) = .ok bs ∧ s' = bs.foldl g s := by
  induction l generalizing s with
  | nil =>
    cases h
    exact ⟨[], rfl, rfl⟩
  | cons a l ih =>
    rw [List.foldlM_cons, bind_eq_ok] at h
    obtain ⟨s₁, h₁, h⟩ := h
    obtain ⟨bs₁, hbs₁, rfl⟩ := exists_mapM_of_foldlM h₁
    obtain ⟨bs₂, hbs₂, rfl⟩ := ih h
    refine ⟨bs₁ ++ bs₂, ?_, by rw [List.foldl_append]⟩
    rw [show (a :: l).product l' = l'.map (Prod.mk a) ++ l.product l' from List.flatMap_cons, List.mapM_append, bind_eq_ok]
    refine ⟨bs₁, by rw [List.mapM_map]; exact hbs₁, ?_⟩
    rw [bind_eq_ok]
    exact ⟨bs₂, hbs₂, rfl⟩

/-- A loop that adds what each element gives, where adding may fail: all elements give something, which is added in turn. -/
theorem exists_mapM_of_bind {σ : Type u} {f : α → Except ε β} {g : σ → β → Except ε σ} {l : List α} {s s' : σ}
    (h : l.foldlM (fun s a => do g s (← f a)) s = .ok s') : ∃ bs, l.mapM f = .ok bs ∧ bs.foldlM g s = .ok s' := by
  induction l generalizing s with
  | nil => exact ⟨[], rfl, h⟩
  | cons a l ih =>
    rw [List.foldlM_cons, bind_eq_ok] at h
    obtain ⟨s₁, h₁, h⟩ := h
    rw [bind_eq_ok] at h₁
    obtain ⟨b, hb, h₁⟩ := h₁
    obtain ⟨bs, hbs, h⟩ := ih h
    refine ⟨b :: bs, ?_, ?_⟩
    · simp only [List.mapM_cons, bind_eq_ok]
      exact ⟨b, hb, bs, hbs, rfl⟩
    · rw [List.foldlM_cons, bind_eq_ok]
      exact ⟨s₁, h₁, h⟩

/-- The same for a loop in a loop. -/
theorem exists_mapM_of_nested_bind {γ σ : Type u} {f : α → γ → Except ε β} {g : σ → β → Except ε σ} {l : List α}
    {l' : List γ} {s s' : σ} (h : l.foldlM (fun s a => l'.foldlM (fun s c => do g s (← f a c)) s) s = .ok s') :
    ∃ bs, (l.product l').mapM (fun p => f p.1 p.2) = .ok bs ∧ bs.foldlM g s = .ok s' := by
  induction l generalizing s with
  | nil => exact ⟨[], rfl, h⟩
  | cons a l ih =>
    rw [List.foldlM_cons, bind_eq_ok] at h
    obtain ⟨s₁, h₁, h⟩ := h
    obtain ⟨bs₁, hbs₁, h₁⟩ := exists_mapM_of_bind h₁
    obtain ⟨bs₂, hbs₂, h⟩ := ih h
    refine ⟨bs₁ ++ bs₂, ?_, ?_⟩
    · rw [show (a :: l).product l' = l'.map (Prod.mk a) ++ l.product l' from List.flatMap_cons, List.mapM_append, bind_eq_ok]
      refine ⟨bs₁, by rw [List.mapM_map]; exact hbs₁, ?_⟩
      rw [bind_eq_ok]
      exact ⟨bs₂, hbs₂, rfl⟩
    · rw [List.foldlM_append, bind_eq_ok]
      exact ⟨s₁, h₁, h⟩

/-! ## Steps on a state that stays when a step fails -/

section Steps

variable {ε σ α β : Type u}

theorem get_bind (f : σ → EStateM ε σ α) (s : σ) : (get >>= f) s = f s s := rfl

theorem step_bind_eq_ok {x : EStateM ε σ α} {f : α → EStateM ε σ β} {s t : σ} {b : β} :
    (x >>= f) s = .ok b t ↔ ∃ a u, x s = .ok a u ∧ f a u = .ok b t := by
  show EStateM.bind x f s = _ ↔ _
  unfold EStateM.bind
  cases hx : x s with
  | ok a u => simp
  | error e u => simp

theorem step_bind_eq_error {x : EStateM ε σ α} {f : α → EStateM ε σ β} {s t : σ} {e : ε} :
    (x >>= f) s = .error e t ↔ x s = .error e t ∨ ∃ a u, x s = .ok a u ∧ f a u = .error e t := by
  show EStateM.bind x f s = _ ↔ _
  unfold EStateM.bind
  cases hx : x s with
  | ok a u => simp
  | error e u => simp

end Steps

/-! ## Computations with an optional result -/

theorem forall₂_of_mapM_some {f : α → Option β} : ∀ {l : List α} {r : List β}, l.mapM f = some r →
    List.Forall₂ (fun a b => f a = some b) l r
  | [], r, h => by
    rw [List.mapM_nil] at h
    cases h
    exact .nil
  | a :: l, r, h => by
    rw [List.mapM_cons] at h
    obtain ⟨b, hb, h⟩ := Option.bind_eq_some_iff.1 h
    obtain ⟨bs, hbs, h⟩ := Option.bind_eq_some_iff.1 h
    cases h
    exact .cons hb (forall₂_of_mapM_some hbs)

/-- A list of optional results has one where nothing is left out. -/
theorem exists_of_mapM_none {f : α → Option β} : ∀ {l : List α}, l.mapM f = none → ∃ a ∈ l, f a = none
  | [], h => by cases h
  | a :: l, h => by
    cases ha : f a with
    | none => exact ⟨a, List.mem_cons_self, ha⟩
    | some b =>
      cases hl : l.mapM f with
      | none =>
        obtain ⟨a', ha', h'⟩ := exists_of_mapM_none hl
        exact ⟨a', List.mem_cons_of_mem _ ha', h'⟩
      | some bs =>
        rw [List.mapM_cons, ha] at h
        simp only [hl] at h
        cases h

end Outcome
