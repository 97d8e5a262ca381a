import IEGen.Lib.Words

/-!
# Cutting a text into lexemes

A scanner takes lexemes off a text, each as long as it goes on, and skips what is blank between them. The lexemes hold what
is not blank in the text (`flatten_lex`), so a text that lacks some of it has other lexemes.

* A text *scans* as a list of lexemes (`Scans`) when it does in front of every text that does not go on with an element of an
  inner class, that of the words; one that scans so in front of every text *leads* (`Leads`).
* `Reads` is for a text that is as it is meant where a property holds, and otherwise is too short or has a flaw that what is
  meant has not. Such texts are put together with separators (`Reads.append`).
-/

open Words (Stops)

/-- Which elements are skipped, and whether a lexeme goes on with an element. -/
structure Lexer (α : Type*) where
  blank : α → Bool
  goesOn : List α → α → Bool

/-- Something that a text keeps when others are put around it. -/
structure Flaw (α : Type*) where
  has : List α → Prop
  around : ∀ u s v, has s → has (u ++ (s ++ v))

namespace Lexer

variable {α : Type*}

section Lex

variable (L : Lexer α)

/-- The lexeme read so far, when there is one. -/
def emit (w : List α) : List (List α) := if w.isEmpty then [] else [w]

/-- The lexemes of a text behind a part of one. -/
def lexFrom (w : List α) : List α → List (List α)
  | [] => emit w
  | c :: cs =>
    if L.blank c then emit w ++ lexFrom [] cs
    else if w.isEmpty || L.goesOn w c then lexFrom (w ++ [c]) cs
    else w :: lexFrom [c] cs

/-- The lexemes of a text. -/
def lex (cs : List α) : List (List α) := L.lexFrom [] cs

/-- What is not blank. -/
def ink (cs : List α) : List α := cs.filter (fun c => !L.blank c)

end Lex

variable {L : Lexer α} {p : α → Bool}

@[simp] theorem lex_nil : L.lex [] = [] := rfl

@[simp] theorem ink_append (s t : List α) : L.ink (s ++ t) = L.ink s ++ L.ink t := List.filter_append ..

theorem flatten_emit (w : List α) : (emit w).flatten = w := by
  unfold emit
  cases w <;> simp

theorem flatten_lexFrom (w cs : List α) : (L.lexFrom w cs).flatten = w ++ L.ink cs := by
  induction cs generalizing w with
  | nil => simp [lexFrom, flatten_emit, ink]
  | cons c cs ih =>
    unfold lexFrom
    split_ifs with hb hg
    · rw [List.flatten_append, flatten_emit, ih, ink, ink, List.filter_cons_of_neg (by simp [hb]), List.nil_append]
    · rw [ih, ink, ink, List.filter_cons_of_pos (by simp [hb]), List.append_assoc, List.singleton_append]
    · rw [List.flatten_cons, ih, ink, ink, List.filter_cons_of_pos (by simp [hb]), List.singleton_append]

/-- The lexemes of a text are what is not blank in it. -/
theorem flatten_lex (cs : List α) : (L.lex cs).flatten = L.ink cs := by
  rw [lex, flatten_lexFrom, List.nil_append]

/-- A lexeme that goes on as long as a class does. -/
theorem lexFrom_run {P : List α → Prop} (hP : ∀ w c, P w → p c = true → L.blank c = false ∧ L.goesOn w c = true ∧ P (w ++ [c])) :
    ∀ {u w : List α}, P w → (∀ c ∈ u, p c = true) → ∀ v, L.lexFrom w (u ++ v) = L.lexFrom (w ++ u) v
  | [], w, _, _, v => by simp
  | c :: u, w, hw, hu, v => by
    obtain ⟨hb, hg, hwc⟩ := hP w c hw (hu c List.mem_cons_self)
    rw [List.cons_append, lexFrom, if_neg (by simp [hb]), if_pos (by simp [hg]),
      lexFrom_run hP hwc (fun d hd => hu d (List.mem_cons_of_mem _ hd)), List.append_assoc, List.singleton_append]

/-- A lexeme ends where the text does not go on with it. -/
theorem lexFrom_of_stops {w v : List α} (hw : w ≠ []) (hv : ∀ c ∈ v.head?, L.blank c = true ∨ L.goesOn w c = false) :
    L.lexFrom w v = w :: L.lex v := by
  have hempty : w.isEmpty = false := by simp [hw]
  cases v with
  | nil => simp [lexFrom, emit, hempty]
  | cons c v =>
    rw [lex, lexFrom, lexFrom, hempty, Bool.false_or]
    rcases hv c rfl with hb | hg
    · rw [if_pos hb, if_pos hb, emit, hempty, if_neg Bool.false_ne_true]
      rfl
    · rw [if_neg (by simp [hg] : ¬ L.goesOn w c = true)]
      split_ifs
      · rw [emit, hempty, if_neg Bool.false_ne_true]
        rfl
      · rfl
      · rename_i h
        exact absurd rfl h

/-! ## Texts in front of others -/

section Texts

variable (L p)

/-- In front of every text. -/
def Leads (s : List α) (ls : List (List α)) : Prop := ∀ r, L.lex (s ++ r) = ls ++ L.lex r

/-- In front of every text that does not go on with the class. -/
def Scans (s : List α) (ls : List (List α)) : Prop := ∀ r, Stops p r → L.lex (s ++ r) = ls ++ L.lex r

/-- A text that leads, and does not begin with the class. -/
structure Separates (s : List α) (ls : List (List α)) : Prop where
  leads : L.Leads s ls
  stops : Stops p s
  ne_nil : s ≠ []

/-- A text is as it is meant where the property holds, and has a flaw or lacks something otherwise. -/
def Reads (F : Flaw α) (P : Prop) (s : List α) (ls : List (List α)) : Prop :=
  (P ∧ L.Scans p s ls) ∨ (¬ P ∧ (F.has (L.ink s) ∨ (L.ink s).length < ls.flatten.length))

end Texts

variable {F : Flaw α} {s t q : List α} {ls ms ns : List (List α)} {P Q : Prop}

theorem leads_nil : L.Leads [] [] := fun _ => rfl

theorem Leads.scans (h : L.Leads s ls) : L.Scans p s ls := fun r _ => h r

theorem Scans.lex (h : L.Scans p s ls) : L.lex s = ls := by
  simpa using h [] (Words.stops_nil p)

theorem Leads.append (h : L.Leads s ls) (h' : L.Leads t ms) : L.Leads (s ++ t) (ls ++ ms) := fun r => by
  rw [List.append_assoc, h, h', List.append_assoc]

theorem Leads.scans_append (h : L.Leads s ls) (h' : L.Scans p t ms) : L.Scans p (s ++ t) (ls ++ ms) := fun r hr => by
  rw [List.append_assoc, h, h' r hr, List.append_assoc]

theorem Scans.leads_append (h : L.Scans p s ls) (h' : L.Separates p t ms) : L.Leads (s ++ t) (ls ++ ms) := fun r => by
  have hstops : Stops p (t ++ r) := by
    obtain ⟨-, hs, hne⟩ := h'
    cases t with
    | nil => exact absurd rfl hne
    | cons c t => exact hs
  rw [List.append_assoc, h _ hstops, h'.leads, List.append_assoc]

theorem Scans.ink (h : L.Scans p s ls) : L.ink s = ls.flatten := by rw [← flatten_lex, h.lex]

theorem Leads.ink (h : L.Leads s ls) : L.ink s = ls.flatten := (h.scans (p := fun _ => false)).ink

theorem Reads.le (h : L.Reads p F P s ls) : F.has (L.ink s) ∨ (L.ink s).length ≤ ls.flatten.length := by
  rcases h with ⟨-, h⟩ | ⟨-, h | h⟩
  · exact .inr (Nat.le_of_eq (congrArg List.length h.ink))
  · exact .inl h
  · exact .inr (Nat.le_of_lt h)

theorem Reads.congr (h : L.Reads p F P s ls) (hpq : P ↔ Q) : L.Reads p F Q s ls := by
  rwa [Reads, ← hpq]

/-- A text that reads right exactly where the property holds, when what is meant has no flaw. -/
theorem Reads.iff (h : L.Reads p F P s ls) (hF : ¬ F.has ls.flatten) : L.lex s = ls ↔ P := by
  rcases h with ⟨hP, h⟩ | ⟨hP, h⟩
  · exact iff_of_true h.lex hP
  · refine iff_of_false (fun hl => ?_) hP
    rw [← flatten_lex, hl] at h
    exact h.elim hF (Nat.lt_irrefl _)

theorem Scans.reads (h : L.Scans p s ls) : L.Reads p F True s ls := .inl ⟨trivial, h⟩

/-- What is too short, or flawed, around a text that may be. -/
theorem Reads.short (h : L.Reads p F P s ls) (hQ : ¬ Q) (hF : F.has (L.ink s) → F.has (L.ink t))
    (hlt : (L.ink s).length ≤ ls.flatten.length → (L.ink t).length < ms.flatten.length) : L.Reads p F Q t ms :=
  .inr ⟨hQ, h.le.imp hF hlt⟩

theorem Flaw.append_left (h : F.has t) (s : List α) : F.has (s ++ t) := by
  simpa using F.around s t [] h

theorem Flaw.append_right (h : F.has s) (t : List α) : F.has (s ++ t) := by
  simpa using F.around [] s t h

theorem Leads.reads_append (h : L.Leads s ls) (h' : L.Reads p F P t ms) : L.Reads p F P (s ++ t) (ls ++ ms) := by
  by_cases hP : P
  · refine .inl ⟨hP, h.scans_append ?_⟩
    exact (h'.resolve_right fun hn => hn.1 hP).2
  · rcases h' with ⟨hP', -⟩ | ⟨-, h'⟩
    · exact absurd hP' hP
    · refine .inr ⟨hP, h'.imp (fun hf => ?_) fun hlt => ?_⟩
      · rw [ink_append]
        exact Flaw.append_left hf _
      · rw [ink_append, h.ink, List.flatten_append, List.length_append, List.length_append]
        omega

theorem Reads.append_separates (h : L.Reads p F P s ls) (h' : L.Separates p t ms) : L.Reads p F P (s ++ t) (ls ++ ms) := by
  rcases h with ⟨hP, h⟩ | ⟨hP, h⟩
  · exact .inl ⟨hP, (h.leads_append h').scans⟩
  · refine .inr ⟨hP, h.imp (fun hf => ?_) fun hlt => ?_⟩
    · rw [ink_append]
      exact Flaw.append_right hf _
    · rw [ink_append, h'.leads.ink, List.flatten_append, List.length_append, List.length_append]
      omega

/-- Two texts with a separator between them. -/
theorem Reads.append (h : L.Reads p F P s ls) (h' : L.Separates p q ns) (h'' : L.Reads p F Q t ms) :
    L.Reads p F (P ∧ Q) (s ++ (q ++ t)) (ls ++ (ns ++ ms)) := by
  by_cases hP : P
  · have hs := (h.resolve_right fun hn => hn.1 hP).2
    have hall := (hs.leads_append h').reads_append h''
    rw [List.append_assoc, List.append_assoc] at hall
    exact hall.congr ⟨fun hQ => ⟨hP, hQ⟩, And.right⟩
  · refine .inr ⟨fun h => hP h.1, ?_⟩
    have hs := (h.resolve_left fun hp => hP hp.1).2
    rw [ink_append, ink_append]
    rcases hs with hs | hs
    · exact .inl (Flaw.append_right hs _)
    · refine h''.le.imp (fun hf => Flaw.append_left (Flaw.append_left hf _) _) fun hle => ?_
      simp only [h'.leads.ink, List.flatten_append, List.length_append]
      omega

end Lexer
