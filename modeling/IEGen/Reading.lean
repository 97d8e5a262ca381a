import IEGen.Eval
import IEGen.Lib.Words

/-!
# Reading printed expressions back

Two calls count as the same call when their arguments print the same. For expressions without tuples whose names can be
told apart from the other parts of a text (`readable`), a printed expression can be read in one way only, up to the
kind of constraint and to the empty sum, which prints as the constant zero (`Exp.plain`). So calls that count as the
same have the same value in every interpretation.
-/

namespace IEGen

open Words (Stops digits)

/-! ## Readable expressions -/

/-- A character that a name can hold: none of those that `toString` puts between names and numbers. -/
def isNameChar (c : Char) : Bool := !([' ', ',', '(', ')', '[', ']', '+', '-'].contains c)

/-- A name is not empty and starts neither with a digit nor as a printed tuple variable does. -/
def isName (s : String) : Bool :=
  match s.toList with
  | [] => false
  | c :: cs => !c.isDigit && (c :: cs).all isNameChar && !"__tv".toList.isPrefixOf (c :: cs)

mutual
/-- No tuple of expressions, and names for symbolic constants and functions. -/
def Term.readable : Term → Bool
  | .tupleVar .. => true
  | .symConst _ s => isName s
  | .ufCall _ f as _ => isName f && argsReadable as
  | .constVal _ => true
  | .tupleExp .. => false

def Exp.readable : Exp → Bool
  | .mk _ ts => termsReadable ts

def argsReadable : List Exp → Bool
  | [] => true
  | e :: es => e.readable && argsReadable es

def termsReadable : List Term → Bool
  | [] => true
  | t :: ts => t.readable && termsReadable ts
end

/-- A term other than a tuple, with a name for its symbolic constant or its function. -/
def Term.named : Term → Bool
  | .symConst _ s => isName s
  | .ufCall _ f _ _ => isName f
  | .tupleExp .. => false
  | _ => true

mutual
/-- Names for symbolic constants and functions, and coefficient one for tuples of expressions, whose coefficient is not
printed. -/
def Term.legible : Term → Bool
  | .tupleVar .. => true
  | .symConst _ s => isName s
  | .ufCall _ f as _ => isName f && argsLegible as
  | .constVal _ => true
  | .tupleExp c es => c == 1 && argsLegible es

def Exp.legible : Exp → Bool
  | .mk _ ts => termsLegible ts

def argsLegible : List Exp → Bool
  | [] => true
  | e :: es => e.legible && argsLegible es

def termsLegible : List Term → Bool
  | [] => true
  | t :: ts => t.legible && termsLegible ts
end

mutual
/-- The term with plain arguments. -/
def Term.plain : Term → Term
  | .tupleVar c l => .tupleVar c l
  | .symConst c s => .symConst c s
  | .ufCall c f as i => .ufCall c f (argsPlain as) i
  | .constVal c => .constVal c
  | .tupleExp c es => .tupleExp c (argsPlain es)

/-- What the text of an expression says: no kind of constraint, and a zero for the empty sum. -/
def Exp.plain : Exp → Exp
  | .mk _ [] => .mk .expression [.constVal 0]
  | .mk _ (t :: ts) => .mk .expression (t.plain :: termsPlain ts)

def argsPlain : List Exp → List Exp
  | [] => []
  | e :: es => e.plain :: argsPlain es

def termsPlain : List Term → List Term
  | [] => []
  | t :: ts => t.plain :: termsPlain ts
end

theorem Exp.readable_iff {e : Exp} : e.readable = true ↔ ∀ t ∈ e.terms, t.readable = true := by
  obtain ⟨k, ts⟩ := e
  show termsReadable ts = true ↔ ∀ t ∈ ts, t.readable = true
  induction ts with
  | nil => simp [termsReadable]
  | cons t ts ih => simp [termsReadable, ih]

mutual
theorem Term.legible_of_readable : ∀ {t : Term}, t.readable = true → t.legible = true
  | .tupleVar .., _ | .constVal _, _ => rfl
  | .symConst .., h => h
  | .ufCall .., h => by
    simp only [Term.readable, Bool.and_eq_true] at h
    simp only [Term.legible, h.1, argsLegible_of_readable h.2, Bool.and_self]
  | .tupleExp .., h => by cases h

theorem Exp.legible_of_readable : ∀ {e : Exp}, e.readable = true → e.legible = true
  | .mk _ _, h => termsLegible_of_readable h

theorem argsLegible_of_readable : ∀ {es : List Exp}, argsReadable es = true → argsLegible es = true
  | [], _ => rfl
  | e :: es, h => by
    simp only [argsReadable, Bool.and_eq_true] at h
    simp only [argsLegible, Exp.legible_of_readable h.1, argsLegible_of_readable h.2, Bool.and_self]

theorem termsLegible_of_readable : ∀ {ts : List Term}, termsReadable ts = true → termsLegible ts = true
  | [], _ => rfl
  | t :: ts, h => by
    simp only [termsReadable, Bool.and_eq_true] at h
    simp only [termsLegible, Term.legible_of_readable h.1, termsLegible_of_readable h.2, Bool.and_self]
end

/-- What a comparison of values tells apart: names in the arguments of calls, and no tuple of expressions that has
an element outside of them. -/
def Term.comparable : Term → Bool
  | .ufCall _ _ as _ => argsLegible as
  | .tupleExp _ es => es.isEmpty
  | _ => true

def Exp.comparable (e : Exp) : Bool := e.terms.all Term.comparable

theorem Exp.comparable_of_readable {e : Exp} (h : e.readable = true) : e.comparable = true := by
  refine List.all_eq_true.2 fun t ht => ?_
  have hr := Exp.readable_iff.1 h t ht
  cases t with
  | ufCall c f as i =>
    simp only [Term.readable, Bool.and_eq_true] at hr
    exact argsLegible_of_readable hr.2
  | tupleExp c es => cases hr
  | _ => rfl

theorem Term.named_of_legible {t : Term} (h : t.legible = true) (ht : t.isTupleExp = false) : t.named = true := by
  cases t with
  | ufCall c f as i =>
    simp only [Term.legible, Bool.and_eq_true] at h
    exact h.1
  | tupleExp => cases ht
  | _ => exact h

@[simp] theorem readable_setCoefficient (c : Int) (t : Term) : (t.setCoefficient c).readable = t.readable := by
  cases t <;> rfl

section Plain

variable (I : Interp) (τ : Nat → Int)

mutual
theorem Term.val_plain : ∀ t : Term, t.plain.val I τ = t.val I τ
  | .tupleVar .. | .symConst .. | .constVal _ => rfl
  | .ufCall c f as none => by simp only [Term.plain, Term.val, argsVal_plain as]
  | .ufCall c f as (some i) => by simp only [Term.plain, Term.val, argsVal_plain as]
  | .tupleExp c es => by simp only [Term.plain, Term.val, argsVal_plain es]

theorem Exp.val_plain : ∀ e : Exp, e.plain.val I τ = e.val I τ
  | .mk _ [] => by
    funext k
    cases k <;> rfl
  | .mk _ (t :: ts) => by simp only [Exp.plain, Exp.val, termsVal, Term.val_plain t, termsVal_plain ts]

theorem argsVal_plain : ∀ es : List Exp, argsVal I τ (argsPlain es) = argsVal I τ es
  | [] => rfl
  | e :: es => by simp only [argsPlain, argsVal, Exp.val_plain e, argsVal_plain es]

theorem termsVal_plain : ∀ ts : List Term, termsVal I τ (termsPlain ts) = termsVal I τ ts
  | [] => rfl
  | t :: ts => by simp only [termsPlain, termsVal, Term.val_plain t, termsVal_plain ts]
end

end Plain

/-! ## Where a text ends -/

/-- What closes the arguments of a call, or the elements of a tuple. -/
def Closing (close : List Char) : Prop := close = [')'] ∨ close = [' ', ')']

/-- What can follow an expression: nothing, the next argument or the end of the arguments or of the elements. -/
def ExpEnd (r : List Char) : Prop := (r = [] ∨ ∃ c l, r = c :: l ∧ (c = ',' ∨ c = ')')) ∨ ∃ l, r = ' ' :: ')' :: l

/-- What can follow a term: the end of the expression, or the sign of the next term. -/
def TermEnd (r : List Char) : Prop := ExpEnd r ∨ ∃ s l, r = ' ' :: s :: l ∧ (s = '+' ∨ s = '-')

theorem TermEnd.stops {r : List Char} (h : TermEnd r) : Stops isNameChar r := by
  rcases h with ((rfl | ⟨c, l, rfl, rfl | rfl⟩) | ⟨l, rfl⟩) | ⟨s, l, rfl, _⟩ <;> simp [isNameChar]

theorem TermEnd.stops_digit {r : List Char} (h : TermEnd r) : Stops Char.isDigit r := by
  rcases h with ((rfl | ⟨c, l, rfl, rfl | rfl⟩) | ⟨l, rfl⟩) | ⟨s, l, rfl, _⟩ <;> simp [Char.isDigit]

/-! ## Coefficients -/

/-- The number before the factor of a term. -/
def coeffChars (n : Nat) : List Char := if n = 1 then [] else digits n ++ [' ']

@[simp] theorem coeffChars_one : coeffChars 1 = [] := rfl

/-- The sign of the first term. -/
def signChars (c : Int) : List Char := if c < 0 then ['-'] else []

theorem toList_toString_int (c : Int) : (toString c).toList = signChars c ++ digits c.natAbs := by
  cases c with
  | ofNat n =>
    have h : ¬ (Int.ofNat n < 0) := by simp
    simp only [signChars, if_neg h, List.nil_append]
    rfl
  | negSucc n =>
    have h : Int.negSucc n < 0 := Int.negSucc_lt_zero n
    have hs : toString (Int.negSucc n) = "-" ++ toString (n + 1) := rfl
    simp only [signChars, if_pos h, hs, String.toList_append, digits, Int.natAbs_negSucc]
    rfl

theorem toList_coeffToStream_true (c : Int) : (coeffToStream c true).toList = coeffChars c.natAbs := by
  simp only [coeffToStream, coeffChars]
  split_ifs <;> simp [digits]

theorem toList_coeffToStream_false (c : Int) :
    (coeffToStream c false).toList = signChars c ++ coeffChars c.natAbs := by
  by_cases h₁ : c = 1
  · subst h₁; rfl
  by_cases h₂ : c = -1
  · subst h₂; rfl
  have h : c.natAbs ≠ 1 := by omega
  simp [coeffToStream, coeffChars, h₁, h₂, h, toList_toString_int, -Int.toString_eq_repr]

/-- The text of a factor, which is that of the term with coefficient one. -/
def Term.factorChars (t : Term) : List Char := ((t.setCoefficient 1).toString true false).toList

theorem toList_toString_true {t : Term} (hr : t.named = true) (hc : t.isConst = false) :
    (t.toString true false).toList = coeffChars t.coefficient.natAbs ++ t.factorChars := by
  cases t with
  | constVal c => cases hc
  | tupleExp c es => simp [Term.named] at hr
  | _ => simp [Term.toString, Term.factorChars, Term.setCoefficient, toList_coeffToStream_true, Term.coefficient]

/-- The text of a first term is the one of a later term, after its sign. -/
theorem toList_toString_false {t : Term} (hr : t.named = true) :
    (t.toString false false).toList = signChars t.coefficient ++ (t.toString true false).toList := by
  cases t with
  | constVal c => simp [Term.toString, Term.coefficient, toList_toString_int, digits, -Int.toString_eq_repr]
  | tupleExp c es => simp [Term.named] at hr
  | _ =>
    simp [Term.toString, Term.coefficient, toList_coeffToStream_true, toList_coeffToStream_false]

/-! ## Reading names -/

theorem isName_chars {s : String} (h : isName s = true) :
    (∀ c ∈ s.toList, isNameChar c = true) ∧ ∃ c l, s.toList = c :: l ∧ c.isDigit = false := by
  simp only [isName] at h
  split at h
  · cases h
  · next c l hs =>
    simp only [Bool.and_eq_true, Bool.not_eq_true', List.all_eq_true] at h
    exact ⟨by rw [hs]; exact h.1.2, c, l, hs, h.1.1⟩

/-- No name is the text of a tuple variable. -/
theorem isName_ne_tupleVar {s : String} (h : isName s = true) (l : List Char) : s.toList ≠ "__tv".toList ++ l := by
  intro hs
  have hp : "__tv".toList.isPrefixOf s.toList = true := by
    rw [hs]; exact List.isPrefixOf_iff_prefix.2 ⟨l, rfl⟩
  simp only [isName] at h
  split at h
  · cases h
  · next c l' hs' => rw [← hs', hp] at h; simp at h

theorem isNameChar_of_isDigit {c : Char} (h : c.isDigit = true) : isNameChar c = true := by
  by_contra hc
  simp only [isNameChar, Bool.not_eq_true, Bool.not_eq_false', List.contains_iff_mem, List.mem_cons,
    List.not_mem_nil, or_false] at hc
  rcases hc with rfl | rfl | rfl | rfl | rfl | rfl | rfl | rfl <;> simp [Char.isDigit] at h

/-- The name that a factor starts with; none for constants and tuples. -/
def Term.word : Term → List Char
  | .tupleVar _ l => "__tv".toList ++ digits l
  | .symConst _ s => s.toList
  | .ufCall _ f _ _ => f.toList
  | .constVal _ | .tupleExp .. => []

/-- The rest of a factor after its name: the arguments and the index of a call. -/
def Term.afterWord : Term → List Char
  | .ufCall _ _ as i => '(' :: ((argsToStream false as).toList ++ ')' :: (indexToString i).toList)
  | _ => []

theorem word_chars {t : Term} (hr : t.named = true) (hc : t.isConst = false) :
    (∀ c ∈ t.word, isNameChar c = true) ∧ ∃ c l, t.word = c :: l ∧ c.isDigit = false := by
  cases t with
  | tupleVar c l =>
    have tv : "__tv".toList.all isNameChar = true := by decide
    refine ⟨fun d hd => ?_, '_', _, rfl, by decide⟩
    rcases List.mem_append.1 hd with hd | hd
    · exact List.all_eq_true.1 tv d hd
    · exact isNameChar_of_isDigit (Words.isDigit_of_mem_digits hd)
  | symConst c s => exact isName_chars hr
  | ufCall c f as i => exact isName_chars hr
  | constVal c => cases hc
  | tupleExp c es => cases hr

theorem factorChars_eq {t : Term} (hr : t.named = true) (hc : t.isConst = false) :
    t.factorChars = t.word ++ t.afterWord := by
  cases t with
  | constVal c => cases hc
  | tupleExp c es => cases hr
  | _ =>
    simp [Term.factorChars, Term.setCoefficient, Term.toString, Term.word, Term.afterWord, coeffToStream, digits]

/-- The names of two factors are equal when their texts are, whatever follows. -/
theorem word_unique {t t' : Term} (hr : t.named = true) (hr' : t'.named = true) (hc : t.isConst = false)
    (hc' : t'.isConst = false) {r r' : List Char} (he : TermEnd r) (he' : TermEnd r')
    (h : t.factorChars ++ r = t'.factorChars ++ r') : t.word = t'.word ∧ t.afterWord ++ r = t'.afterWord ++ r' := by
  have stops : ∀ {u : Term} {x : List Char}, TermEnd x → Stops isNameChar (u.afterWord ++ x) := by
    intro u x hx
    cases u with
    | ufCall c f as i => simp [Term.afterWord, isNameChar]
    | _ => exact hx.stops
  rw [factorChars_eq hr hc, factorChars_eq hr' hc', List.append_assoc, List.append_assoc] at h
  exact Words.run_unique (word_chars hr hc).1 (word_chars hr' hc').1 (stops he) (stops he') h

/-! ## Reading coefficients -/

theorem exists_factorChars {t : Term} (hr : t.named = true) (hc : t.isConst = false) :
    ∃ c l, t.factorChars = c :: l ∧ isNameChar c = true ∧ c.isDigit = false := by
  obtain ⟨hw, c, l, h, hd⟩ := word_chars hr hc
  exact ⟨c, l ++ t.afterWord, by rw [factorChars_eq hr hc, h]; rfl, hw c (h ▸ List.mem_cons_self), hd⟩

/-- A number that a factor follows is not a number that ends a term. -/
theorem coeffChars_ne_digits {t : Term} (hr : t.named = true) (hc : t.isConst = false) {m n : Nat} {r r' : List Char}
    (he : TermEnd r') : coeffChars m ++ (t.factorChars ++ r) ≠ digits n ++ r' := by
  obtain ⟨c, l, hf, hn, hd⟩ := exists_factorChars hr hc
  intro h
  rw [hf, coeffChars] at h
  split_ifs at h
  · obtain ⟨c', l', hd', hdig⟩ := Words.exists_digits n
    rw [hd'] at h
    simp only [List.nil_append, List.cons_append, List.cons.injEq] at h
    rw [h.1, hdig] at hd
    cases hd
  · rw [List.append_assoc] at h
    obtain ⟨-, rfl⟩ := Words.digits_unique (by simp [Char.isDigit]) he.stops_digit h
    simp only [List.cons_append, List.nil_append] at he
    rcases he with ((he | ⟨c', l', he, rfl | rfl⟩) | ⟨l', he⟩) | ⟨s, l', he, rfl | rfl⟩
    · cases he
    · simp at he
    · simp at he
    · simp only [List.cons.injEq, true_and] at he
      rw [he.1] at hn; simp [isNameChar] at hn
    · simp only [List.cons.injEq, true_and] at he
      rw [he.1] at hn; simp [isNameChar] at hn
    · simp only [List.cons.injEq, true_and] at he
      rw [he.1] at hn; simp [isNameChar] at hn

/-- The number before a factor is read off in one way. -/
theorem coeffChars_unique {t t' : Term} (hr : t.named = true) (hr' : t'.named = true) (hc : t.isConst = false)
    (hc' : t'.isConst = false) {m n : Nat} {r r' : List Char}
    (h : coeffChars m ++ (t.factorChars ++ r) = coeffChars n ++ (t'.factorChars ++ r')) :
    m = n ∧ t.factorChars ++ r = t'.factorChars ++ r' := by
  obtain ⟨c, l, hf, -, hd⟩ := exists_factorChars hr hc
  obtain ⟨c', l', hf', -, hd'⟩ := exists_factorChars hr' hc'
  have head : ∀ {d : Char} {k : List Char} {j : Nat} {x : List Char}, d.isDigit = false →
      d :: k ≠ digits j ++ [' '] ++ x := by
    intro d k j x hd h
    obtain ⟨e, u, hu, he⟩ := Words.exists_digits j
    rw [hu] at h
    simp only [List.cons_append, List.cons.injEq] at h
    rw [h.1, he] at hd
    cases hd
  rw [hf, hf'] at h ⊢
  simp only [coeffChars] at h
  split_ifs at h with h₁ h₂ h₂
  · exact ⟨by omega, h⟩
  · exact absurd h (head hd)
  · exact absurd h.symm (head hd')
  · rw [List.append_assoc, List.append_assoc] at h
    obtain ⟨rfl, h⟩ := Words.digits_unique (by simp [Char.isDigit]) (by simp [Char.isDigit]) h
    exact ⟨rfl, by simpa using h⟩

/-! ## Reading expressions -/

/-- What the text of a term says when its sign has been read. -/
def Term.SameText (t t' : Term) : Prop :=
  t.coefficient.natAbs = t'.coefficient.natAbs ∧ (t.setCoefficient 1).plain = (t'.setCoefficient 1).plain

theorem plain_setCoefficient (c : Int) (t : Term) : (t.setCoefficient c).plain = t.plain.setCoefficient c := by
  cases t <;> rfl

@[simp] theorem coefficient_plain (t : Term) : t.plain.coefficient = t.coefficient := by cases t <;> rfl

theorem Term.SameText.plain_eq {t t' : Term} (h : t.SameText t') (hs : t.coefficient < 0 ↔ t'.coefficient < 0) :
    t.plain = t'.plain := by
  obtain ⟨ha, hp⟩ := h
  have hc : t.coefficient = t'.coefficient := by omega
  rw [plain_setCoefficient, plain_setCoefficient] at hp
  calc t.plain = (t.plain.setCoefficient 1).setCoefficient t.coefficient := by
        rw [setCoefficient_setCoefficient, ← coefficient_plain t, setCoefficient_self]
    _ = (t'.plain.setCoefficient 1).setCoefficient t'.coefficient := by rw [hp, hc]
    _ = t'.plain := by rw [setCoefficient_setCoefficient, ← coefficient_plain t', setCoefficient_self]

theorem ExpEnd.head_ne {r : List Char} (h : ExpEnd r) (l : List Char) : r ≠ ' ' :: '-' :: l ∧ r ≠ ' ' :: '+' :: l := by
  constructor
  · rintro rfl
    rcases h with (h | ⟨c, k, h, rfl | rfl⟩) | ⟨k, h⟩ <;> simp at h
  · rintro rfl
    rcases h with (h | ⟨c, k, h, rfl | rfl⟩) | ⟨k, h⟩ <;> simp at h

theorem TermEnd.head_ne {r : List Char} (h : TermEnd r) (l : List Char) : r ≠ '(' :: l ∧ r ≠ '[' :: l := by
  constructor
  · rintro rfl
    rcases h with ((h | ⟨c, k, h, rfl | rfl⟩) | ⟨k, h⟩) | ⟨s, k, h, -⟩ <;> simp at h
  · rintro rfl
    rcases h with ((h | ⟨c, k, h, rfl | rfl⟩) | ⟨k, h⟩) | ⟨s, k, h, -⟩ <;> simp at h

/-- The index of a call is read off in one way. -/
theorem index_unique : ∀ {i i' : Option Nat} {r r' : List Char}, TermEnd r → TermEnd r' →
    (indexToString i).toList ++ r = (indexToString i').toList ++ r' → i = i' ∧ r = r'
  | none, none, _, _, _, _, h => ⟨rfl, by simpa [indexToString] using h⟩
  | none, some i', r, _, he, _, h => absurd (by simpa [indexToString] using h) (he.head_ne _).2
  | some i, none, _, r', _, he', h => absurd (by simpa [indexToString] using h.symm) (he'.head_ne _).2
  | some i, some i', r, r', _, _, h => by
    have hd : digits i ++ ']' :: r = digits i' ++ ']' :: r' := by
      simpa [indexToString, digits] using h
    obtain ⟨rfl, h⟩ := Words.digits_unique (by simp [Char.isDigit]) (by simp [Char.isDigit]) hd
    exact ⟨rfl, by simpa using h⟩

/-- The text of a term without its sign starts with a digit or as a name does. -/
theorem text_head {t : Term} (hr : t.named = true) :
    ∃ c l, (t.toString true false).toList = c :: l ∧ isNameChar c = true := by
  cases hc : t.isConst with
  | true =>
    cases t with
    | constVal c =>
      obtain ⟨d, k, hd, hdig⟩ := Words.exists_digits c.natAbs
      exact ⟨d, k, hd, isNameChar_of_isDigit hdig⟩
    | _ => cases hc
  | false =>
    obtain ⟨c, k, hf, hn, -⟩ := exists_factorChars hr hc
    rw [toList_toString_true hr hc, hf, coeffChars]
    split_ifs
    · exact ⟨c, k, rfl, hn⟩
    · obtain ⟨d, k', hd, hdig⟩ := Words.exists_digits t.coefficient.natAbs
      exact ⟨d, k' ++ ' ' :: c :: k, by rw [hd]; simp, isNameChar_of_isDigit hdig⟩

theorem signChars_unique {c c' : Int} {x x' : List Char} (hx : ∀ l, x ≠ '-' :: l) (hx' : ∀ l, x' ≠ '-' :: l)
    (h : signChars c ++ x = signChars c' ++ x') : (c < 0 ↔ c' < 0) ∧ x = x' := by
  simp only [signChars] at h
  split_ifs at h with h₁ h₂ h₂
  · exact ⟨by omega, by simpa using h⟩
  · exact absurd (by simpa using h.symm) (hx' x)
  · exact absurd (by simpa using h) (hx x')
  · exact ⟨by omega, by simpa using h⟩

/-- A constant is read off in one way. -/
theorem const_text_unique {c : Int} {t : Term} (hr : t.named = true) {r r' : List Char} (he : TermEnd r)
    (he' : TermEnd r') (h : digits c.natAbs ++ r = (t.toString true false).toList ++ r') :
    (Term.constVal c).SameText t ∧ r = r' := by
  cases hc : t.isConst with
  | true =>
    cases t with
    | constVal c' =>
      obtain ⟨hn, hrr⟩ := Words.digits_unique (n := c'.natAbs) he.stops_digit he'.stops_digit
        (by simpa [Term.toString, digits] using h)
      exact ⟨⟨hn, rfl⟩, hrr⟩
    | _ => cases hc
  | false =>
    rw [toList_toString_true hr hc, List.append_assoc] at h
    exact absurd h.symm (coeffChars_ne_digits hr hc he)

/-- A factor that is no call is read off in one way. -/
theorem leaf_factor_unique {t t' : Term} (hr : t.named = true) (hr' : t'.named = true)
    (hc : t.isConst = false) (hc' : t'.isConst = false) (hl : t.isUFCall = false) {r r' : List Char} (he : TermEnd r)
    (hw : t.word = t'.word) (h : t.afterWord ++ r = t'.afterWord ++ r') :
    (t.setCoefficient 1).plain = (t'.setCoefficient 1).plain ∧ r = r' := by
  cases t with
  | ufCall => cases hl
  | constVal => cases hc
  | tupleExp => cases hr
  | tupleVar c l =>
    cases t' with
    | constVal => cases hc'
    | tupleExp => cases hr'
    | tupleVar c' l' =>
      obtain rfl := Words.digits_injective (List.append_cancel_left hw)
      exact ⟨rfl, h⟩
    | symConst c' s' => exact absurd hw.symm (isName_ne_tupleVar hr' _)
    | ufCall c' f as i => exact absurd h (he.head_ne _).1
  | symConst c s =>
    cases t' with
    | constVal => cases hc'
    | tupleExp => cases hr'
    | tupleVar c' l' => exact absurd hw (isName_ne_tupleVar hr _)
    | symConst c' s' =>
      obtain rfl := String.toList_inj.1 hw
      exact ⟨rfl, h⟩
    | ufCall c' f as i => exact absurd h (he.head_ne _).1

/-- A term that is no call is read off in one way. -/
theorem leaf_text_unique {t t' : Term} (hr : t.named = true) (hr' : t'.named = true) (hl : t.isUFCall = false)
    {r r' : List Char} (he : TermEnd r) (he' : TermEnd r')
    (h : (t.toString true false).toList ++ r = (t'.toString true false).toList ++ r') : t.SameText t' ∧ r = r' := by
  cases hc : t.isConst with
  | true =>
    cases t with
    | constVal c => exact const_text_unique hr' he he' (by simpa [Term.toString, digits] using h)
    | _ => cases hc
  | false =>
    cases hc' : t'.isConst with
    | true =>
      cases t' with
      | constVal c' =>
        obtain ⟨⟨hn, hp⟩, hrr⟩ := const_text_unique (c := c') hr he' he (by simpa [Term.toString, digits] using h.symm)
        exact ⟨⟨hn.symm, hp.symm⟩, hrr.symm⟩
      | _ => cases hc'
    | false =>
      rw [toList_toString_true hr hc, toList_toString_true hr' hc', List.append_assoc, List.append_assoc] at h
      obtain ⟨hn, h⟩ := coeffChars_unique hr hr' hc hc' h
      obtain ⟨hw, h⟩ := word_unique hr hr' hc hc' he he' h
      obtain ⟨hp, hrr⟩ := leaf_factor_unique hr hr' hc hc' hl he hw h
      exact ⟨⟨hn, hp⟩, hrr⟩

/-- Only a call of the same function has the text of a call. -/
theorem call_text_unique {c : Int} {f : String} {as : List Exp} {i : Option Nat} {t' : Term}
    (hr : (Term.ufCall c f as i).named = true) (hr' : t'.named = true) {r r' : List Char} (he : TermEnd r)
    (he' : TermEnd r')
    (h : ((Term.ufCall c f as i).toString true false).toList ++ r = (t'.toString true false).toList ++ r') :
    ∃ c' as' i', t' = .ufCall c' f as' i' ∧ c.natAbs = c'.natAbs ∧
      (argsToStream false as).toList ++ ')' :: ((indexToString i).toList ++ r) =
        (argsToStream false as').toList ++ ')' :: ((indexToString i').toList ++ r') := by
  cases hc' : t'.isUFCall with
  | false =>
    obtain ⟨⟨-, hp⟩, -⟩ := leaf_text_unique hr' hr hc' he' he h.symm
    cases t' <;> first | cases hp | cases hc'
  | true =>
    cases t' with
    | ufCall c' f' as' i' =>
      rw [toList_toString_true hr rfl, toList_toString_true hr' rfl, List.append_assoc, List.append_assoc] at h
      obtain ⟨hn, h⟩ := coeffChars_unique hr hr' rfl rfl h
      obtain ⟨hw, h⟩ := word_unique hr hr' rfl rfl he he' h
      obtain rfl := String.toList_inj.1 hw
      exact ⟨c', as', i', rfl, hn, by simpa [Term.afterWord] using h⟩
    | _ => cases hc'

theorem termEnd_terms (ts : List Term) {r : List Char} (he : ExpEnd r) :
    TermEnd ((termsToString false ts).toList ++ r) := by
  cases ts with
  | nil => exact .inl (by simpa [termsToString] using he)
  | cons t ts =>
    refine .inr ?_
    simp only [termsToString, String.toList_append, signToString]
    split_ifs
    · exact ⟨'-', _, rfl, .inr rfl⟩
    · exact ⟨'+', _, rfl, .inl rfl⟩

/-- After an element comes the next one, or what closes them. -/
theorem expEnd_restArgs {close : List Char} (hclose : Closing close) (es : List Exp) (r : List Char) :
    ExpEnd ((restArgsToStream false es).toList ++ (close ++ r)) := by
  cases es with
  | nil =>
    rcases hclose with rfl | rfl
    · exact .inl (.inr ⟨')', r, rfl, .inr rfl⟩)
    · exact .inr ⟨r, rfl⟩
  | cons e es => exact .inl (.inr ⟨',', _, by simp only [restArgsToStream, String.toList_append]; rfl, .inl rfl⟩)

/-- The sign between two terms is read off in one way. -/
theorem signToString_unique {c c' : Int} {x x' : List Char}
    (h : (signToString c).toList ++ x = (signToString c').toList ++ x') : (c < 0 ↔ c' < 0) ∧ x = x' := by
  simp only [signToString] at h
  split_ifs at h with h₁ h₂ h₂ <;> simp at h
  · exact ⟨by omega, h⟩
  · exact ⟨by omega, h⟩

/-- No sign follows an expression. -/
theorem ExpEnd.ne_sign {r : List Char} (h : ExpEnd r) (c : Int) (x : List Char) : r ≠ (signToString c).toList ++ x := by
  intro hr
  unfold signToString at hr
  split_ifs at hr
  · exact (h.head_ne (' ' :: x)).1 hr
  · exact (h.head_ne (' ' :: x)).2 hr

theorem toList_tupleExp (c : Int) (es : List Exp) (absValue : Bool) : ((Term.tupleExp c es).toString absValue false).toList =
    '(' :: ' ' :: ((argsToStream false es).toList ++ [' ', ')']) := by
  simp [Term.toString]

/-- The text of a term without its sign starts with a digit, as a name does, or with the bracket of a tuple. -/
theorem text_start {t : Term} (hr : t.legible = true) :
    ∃ c l, (t.toString true false).toList = c :: l ∧ (isNameChar c = true ∧ t.isTupleExp = false ∨
      c = '(' ∧ t.isTupleExp = true) := by
  cases ht : t.isTupleExp with
  | false =>
    obtain ⟨c, l, h, hn⟩ := text_head (Term.named_of_legible hr ht)
    exact ⟨c, l, h, .inl ⟨hn, rfl⟩⟩
  | true =>
    cases t with
    | tupleExp c es => exact ⟨'(', _, toList_tupleExp c es true, .inr ⟨rfl, rfl⟩⟩
    | _ => cases ht

theorem toList_toString_false_of_legible {t : Term} (hr : t.legible = true) :
    (t.toString false false).toList = signChars t.coefficient ++ (t.toString true false).toList := by
  cases ht : t.isTupleExp with
  | false => exact toList_toString_false (Term.named_of_legible hr ht)
  | true =>
    cases t with
    | tupleExp c es =>
      simp only [Term.legible, Bool.and_eq_true, beq_iff_eq] at hr
      obtain ⟨rfl, -⟩ := hr
      rfl
    | _ => cases ht

/-- The sign of the first term is read off in one way. -/
theorem first_unique {t t' : Term} (hr : t.legible = true) (hr' : t'.legible = true) {x x' : List Char}
    (h : (t.toString false false).toList ++ x = (t'.toString false false).toList ++ x') :
    (t.coefficient < 0 ↔ t'.coefficient < 0) ∧
      (t.toString true false).toList ++ x = (t'.toString true false).toList ++ x' := by
  have not_sign : ∀ {u : Term} {y : List Char}, u.legible = true → ∀ l, (u.toString true false).toList ++ y ≠ '-' :: l := by
    intro u y hu l h
    obtain ⟨c, k, hk, hn⟩ := text_start hu
    rw [hk] at h
    obtain ⟨rfl, -⟩ := List.cons.inj h
    rcases hn with ⟨hn, -⟩ | ⟨hn, -⟩
    · simp [isNameChar] at hn
    · simp at hn
  rw [toList_toString_false_of_legible hr, toList_toString_false_of_legible hr', List.append_assoc, List.append_assoc] at h
  exact signChars_unique (not_sign hr) (not_sign hr') h

/-- The text of an argument is not what closes the arguments. -/
theorem expText_ne {close : List Char} (hclose : Closing close) : ∀ {e : Exp}, e.legible = true →
    ∀ x l : List Char, (e.toString false).toList ++ x ≠ close ++ l
  | .mk _ [], _, x, l, h => by rcases hclose with rfl | rfl <;> simp [Exp.toString] at h
  | .mk _ (t :: ts), hr, x, l, h => by
    simp only [Exp.legible, termsLegible, Bool.and_eq_true] at hr
    obtain ⟨c, k, hk, hn⟩ := text_start hr.1
    simp only [Exp.toString, String.toList_append, toList_toString_false_of_legible hr.1, hk, signChars] at h
    split_ifs at h
    · rcases hclose with rfl | rfl <;> simp at h
    · rcases hclose with rfl | rfl
      · obtain ⟨rfl, -⟩ := List.cons.inj h
        rcases hn with ⟨hn, -⟩ | ⟨hn, -⟩
        · simp [isNameChar] at hn
        · simp at hn
      · obtain ⟨rfl, -⟩ := List.cons.inj h
        rcases hn with ⟨hn, -⟩ | ⟨hn, -⟩
        · simp [isNameChar] at hn
        · simp at hn

/-- Only a constant zero has the text of the empty sum. -/
theorem zero_text_unique {t : Term} {ts : List Term} (hr : t.legible = true) {r r' : List Char} (he : ExpEnd r)
    (he' : ExpEnd r')
    (h : "0".toList ++ r = (t.toString false false).toList ++ ((termsToString false ts).toList ++ r')) :
    (Term.constVal 0).plain = t.plain ∧ ts = [] ∧ r = r' := by
  obtain ⟨hs, h⟩ := first_unique (t := .constVal 0) rfl hr h
  have htuple : t.isTupleExp = false := by
    obtain ⟨c, l, hc, ⟨-, ht⟩ | ⟨rfl, -⟩⟩ := text_start hr
    · exact ht
    · rw [hc] at h
      simp [Term.toString] at h
  obtain ⟨ht, h⟩ := leaf_text_unique rfl (Term.named_of_legible hr htuple) rfl (.inl he) (termEnd_terms ts he') h
  refine ⟨ht.plain_eq hs, ?_⟩
  cases ts with
  | nil => exact ⟨rfl, by simpa [termsToString] using h⟩
  | cons t' ts =>
    simp only [termsToString, String.toList_append, List.append_assoc] at h
    exact absurd h (he.ne_sign _ _)

/-- A term other than a tuple does not start as a tuple does. -/
theorem isTupleExp_of_text {t : Term} {es : List Exp} {c : Int} {r r' : List Char} (hr : t.legible = true)
    (h : ((Term.tupleExp c es).toString true false).toList ++ r = (t.toString true false).toList ++ r') :
    t.isTupleExp = true := by
  obtain ⟨d, l, hd, ⟨hn, -⟩ | ⟨-, ht⟩⟩ := text_start hr
  · rw [toList_tupleExp, hd] at h
    obtain ⟨rfl, -⟩ := List.cons.inj h
    simp [isNameChar] at hn
  · exact ht

mutual
/-- The text of a term without its sign is read off in one way. -/
theorem Term.text_unique : ∀ (t t' : Term) {r r' : List Char}, t.legible = true → t'.legible = true →
    TermEnd r → TermEnd r' → (t.toString true false).toList ++ r = (t'.toString true false).toList ++ r' →
    t.SameText t' ∧ r = r'
  | .tupleExp c es, t', r, r', hr, hr', _, _, h => by
    cases t' with
    | tupleExp c' es' =>
      simp only [Term.legible, Bool.and_eq_true, beq_iff_eq] at hr hr'
      obtain ⟨rfl, hes⟩ := hr
      obtain ⟨rfl, hes'⟩ := hr'
      rw [toList_tupleExp, toList_tupleExp] at h
      simp only [List.cons_append, List.append_assoc, List.cons.injEq, true_and] at h
      obtain ⟨hp, hrr⟩ := args_text_unique (.inr rfl) es es' hes hes' h
      exact ⟨⟨rfl, by simp only [Term.setCoefficient, Term.plain, hp]⟩, hrr⟩
    | _ => cases isTupleExp_of_text hr' h
  | .constVal c, t', _, _, hr, hr', he, he', h
  | .tupleVar c l, t', _, _, hr, hr', he, he', h
  | .symConst c s, t', _, _, hr, hr', he, he', h => by
    cases ht : t'.isTupleExp with
    | false => exact leaf_text_unique (Term.named_of_legible hr rfl) (Term.named_of_legible hr' ht) rfl he he' h
    | true =>
      cases t' with
      | tupleExp => cases isTupleExp_of_text hr h.symm
      | _ => cases ht
  | .ufCall c f as i, t', _, _, hr, hr', he, he', h => by
    cases ht : t'.isTupleExp with
    | false =>
      obtain ⟨c', as', i', rfl, hc, h⟩ :=
        call_text_unique (Term.named_of_legible hr rfl) (Term.named_of_legible hr' ht) he he' h
      simp only [Term.legible, Bool.and_eq_true] at hr hr'
      obtain ⟨hp, h⟩ := args_text_unique (.inl rfl) as as' hr.2 hr'.2 h
      obtain ⟨hi, hrr⟩ := index_unique he he' h
      exact ⟨⟨hc, by simp [Term.setCoefficient, Term.plain, hp, hi]⟩, hrr⟩
    | true =>
      cases t' with
      | tupleExp => cases isTupleExp_of_text hr h.symm
      | _ => cases ht
termination_by structural t => t

/-- The text of an expression is read off in one way. -/
theorem Exp.text_unique : ∀ (e e' : Exp) {r r' : List Char}, e.legible = true → e'.legible = true →
    ExpEnd r → ExpEnd r' → (e.toString false).toList ++ r = (e'.toString false).toList ++ r' →
    e.plain = e'.plain ∧ r = r'
  | .mk _ [], .mk _ [], _, _, _, _, _, _, h => ⟨rfl, by simpa [Exp.toString] using h⟩
  | .mk _ [], .mk _ (t' :: ts'), r, r', _, hr', he, he', h => by
    simp only [Exp.legible, termsLegible, Bool.and_eq_true] at hr'
    obtain ⟨ht, rfl, hrr⟩ := zero_text_unique hr'.1 he he' (by simpa [Exp.toString] using h)
    exact ⟨by rw [Exp.plain, Exp.plain, ← ht]; rfl, hrr⟩
  | .mk _ (t :: ts), .mk _ [], r, r', hr, _, he, he', h => by
    simp only [Exp.legible, termsLegible, Bool.and_eq_true] at hr
    obtain ⟨ht, rfl, hrr⟩ := zero_text_unique hr.1 he' he (by simpa [Exp.toString] using h.symm)
    exact ⟨by rw [Exp.plain, Exp.plain, ← ht]; rfl, hrr.symm⟩
  | .mk _ (t :: ts), .mk _ (t' :: ts'), r, r', hr, hr', he, he', h => by
    simp only [Exp.legible, termsLegible, Bool.and_eq_true] at hr hr'
    simp only [Exp.toString, String.toList_append, List.append_assoc] at h
    obtain ⟨hs, h⟩ := first_unique hr.1 hr'.1 h
    obtain ⟨ht, h⟩ := Term.text_unique t t' hr.1 hr'.1 (termEnd_terms ts he) (termEnd_terms ts' he') h
    obtain ⟨hts, h⟩ := terms_text_unique ts ts' hr.2 hr'.2 he he' h
    exact ⟨by simp only [Exp.plain, ht.plain_eq hs, hts], h⟩
termination_by structural e => e

/-- The terms after the first are read off in one way. -/
theorem terms_text_unique : ∀ (ts ts' : List Term) {r r' : List Char}, termsLegible ts = true →
    termsLegible ts' = true → ExpEnd r → ExpEnd r' →
    (termsToString false ts).toList ++ r = (termsToString false ts').toList ++ r' →
    termsPlain ts = termsPlain ts' ∧ r = r'
  | [], [], _, _, _, _, _, _, h => ⟨rfl, by simpa [termsToString] using h⟩
  | [], t' :: ts', r, r', _, _, he, _, h => by
    simp only [termsToString, String.toList_append, List.append_assoc] at h
    exact absurd h (he.ne_sign _ _)
  | t :: ts, [], r, r', _, _, _, he', h => by
    simp only [termsToString, String.toList_append, List.append_assoc] at h
    exact absurd h.symm (he'.ne_sign _ _)
  | t :: ts, t' :: ts', r, r', hr, hr', he, he', h => by
    simp only [termsLegible, Bool.and_eq_true] at hr hr'
    simp only [termsToString, String.toList_append, List.append_assoc] at h
    obtain ⟨hs, h⟩ := signToString_unique h
    obtain ⟨ht, h⟩ := Term.text_unique t t' hr.1 hr'.1 (termEnd_terms ts he) (termEnd_terms ts' he') h
    obtain ⟨hts, h⟩ := terms_text_unique ts ts' hr.2 hr'.2 he he' h
    exact ⟨by simp only [termsPlain, ht.plain_eq hs, hts], h⟩
termination_by structural ts => ts

/-- The arguments of a call, or the elements of a tuple, are read off in one way. -/
theorem args_text_unique {close : List Char} (hclose : Closing close) : ∀ (as as' : List Exp) {r r' : List Char},
    argsLegible as = true → argsLegible as' = true →
    (argsToStream false as).toList ++ (close ++ r) = (argsToStream false as').toList ++ (close ++ r') →
    argsPlain as = argsPlain as' ∧ r = r'
  | [], [], _, _, _, _, h => ⟨rfl, by simpa [argsToStream] using h⟩
  | [], e' :: es', r, r', _, hr', h => by
    simp only [argsLegible, Bool.and_eq_true] at hr'
    simp only [argsToStream, String.toList_append, List.append_assoc] at h
    exact absurd h.symm (expText_ne hclose hr'.1 _ _)
  | e :: es, [], r, r', hr, _, h => by
    simp only [argsLegible, Bool.and_eq_true] at hr
    simp only [argsToStream, String.toList_append, List.append_assoc] at h
    exact absurd h (expText_ne hclose hr.1 _ _)
  | e :: es, e' :: es', r, r', hr, hr', h => by
    simp only [argsLegible, Bool.and_eq_true] at hr hr'
    simp only [argsToStream, String.toList_append, List.append_assoc] at h
    obtain ⟨hp, h⟩ :=
      Exp.text_unique e e' hr.1 hr'.1 (expEnd_restArgs hclose es r) (expEnd_restArgs hclose es' r') h
    obtain ⟨hps, h⟩ := restArgs_text_unique hclose es es' hr.2 hr'.2 h
    exact ⟨by simp only [argsPlain, hp, hps], h⟩
termination_by structural as => as

/-- The arguments after the first are read off in one way. -/
theorem restArgs_text_unique {close : List Char} (hclose : Closing close) : ∀ (as as' : List Exp) {r r' : List Char},
    argsLegible as = true → argsLegible as' = true →
    (restArgsToStream false as).toList ++ (close ++ r) = (restArgsToStream false as').toList ++ (close ++ r') →
    argsPlain as = argsPlain as' ∧ r = r'
  | [], [], _, _, _, _, h => ⟨rfl, by simpa [restArgsToStream] using h⟩
  | [], e' :: es', r, r', _, _, h => by
    rcases hclose with rfl | rfl <;> simp [restArgsToStream] at h
  | e :: es, [], r, r', _, _, h => by
    rcases hclose with rfl | rfl <;> simp [restArgsToStream] at h
  | e :: es, e' :: es', r, r', hr, hr', h => by
    simp only [argsLegible, Bool.and_eq_true] at hr hr'
    simp only [restArgsToStream, String.toList_append, List.append_assoc, List.append_cancel_left_eq] at h
    obtain ⟨hp, h⟩ :=
      Exp.text_unique e e' hr.1 hr'.1 (expEnd_restArgs hclose es r) (expEnd_restArgs hclose es' r') h
    obtain ⟨hps, h⟩ := restArgs_text_unique hclose es es' hr.2 hr'.2 h
    exact ⟨by simp only [argsPlain, hp, hps], h⟩
termination_by structural as => as
end

/-- Legible arguments that print the same are equal but for what the text does not tell. -/
theorem argsPlain_of_toString_eq {as as' : List Exp} (hr : argsLegible as = true) (hr' : argsLegible as' = true)
    (h : argsToStream false as = argsToStream false as') : argsPlain as = argsPlain as' := by
  have ht : (argsToStream false as).toList ++ ([')'] ++ []) = (argsToStream false as').toList ++ ([')'] ++ []) := by rw [h]
  exact (args_text_unique (.inl rfl) as as' hr hr' ht).1

/-! ## Tied terms have one value -/

section TiedVal

variable {I : Interp} {τ : Nat → Int}

/-- Arguments that print the same have the same values. -/
theorem argsVal_of_toString_eq {as as' : List Exp} (hr : argsLegible as = true) (hr' : argsLegible as' = true)
    (h : argsToStream false as = argsToStream false as') : argsVal I τ as = argsVal I τ as' := by
  have hp := argsPlain_of_toString_eq hr hr' h
  rw [← argsVal_plain, hp, argsVal_plain]

theorem Term.val_of_tied {t t' : Term} (hr : t.comparable = true) (hr' : t'.comparable = true)
    (h : SortedList.Tied Term.lt t t') : t.val I τ = t'.val I τ := by
  cases t <;> cases t' <;> simp [SortedList.Tied, Term.lt, Term.typeRank] at h
  case tupleVar.tupleVar c l c' l' =>
    obtain ⟨rfl, h₁, h₂⟩ := ltBy_false h.1 h.2
    obtain rfl : c = c' := by simp at h₁ h₂; omega
    rfl
  case symConst.symConst c s c' s' =>
    obtain ⟨rfl, h₁, h₂⟩ := ltBy_false h.1 h.2
    obtain rfl : c = c' := by simp at h₁ h₂; omega
    rfl
  case constVal.constVal c c' =>
    obtain rfl : c = c' := by omega
    rfl
  case tupleExp.tupleExp c es c' es' =>
    rw [List.isEmpty_iff.1 hr, List.isEmpty_iff.1 hr']
    funext k
    simp [Term.val, argsVal, scalar]
  case ufCall.ufCall c f as i c' f' as' i' =>
    obtain ⟨rfl, rfl, ha, rfl⟩ := tied_ufCall h
    have hv := argsVal_of_toString_eq (I := I) (τ := τ) hr hr' ha
    cases i <;> simp only [Term.val, hv]

/-- Expressions that neither comes before the other have the same value. -/
theorem Exp.val_of_tied {e e' : Exp} (hr : e.comparable = true) (hr' : e'.comparable = true)
    (h : SortedList.Tied Exp.lt e e') : e.val I τ = e'.val I τ := by
  rw [Exp.comparable, List.all_eq_true] at hr hr'
  rw [tied_exp] at h
  rw [Exp.val_eq, Exp.val_eq]
  generalize e.terms = ts, e'.terms = ts' at *
  induction h with
  | nil => rfl
  | cons ht _ ih =>
    funext k
    rw [termsVal_cons, termsVal_cons, Term.val_of_tied (hr _ List.mem_cons_self) (hr' _ List.mem_cons_self) ht,
      ih (fun t ht => hr t (List.mem_cons_of_mem _ ht)) (fun t ht => hr' t (List.mem_cons_of_mem _ ht))]

end TiedVal

end IEGen
