import IEGen.Objects
import IEGen.Remap
import Mathlib.Data.List.Chain

/-!
# The lists of constraints

`addEquality` and `addInequality` put a constraint into the ordered list it belongs to. The objects are compared, so that
tuples of expressions, which are compared by their addresses, may stand in the conjunction. A constraint without them is
compared by what it says: it is tied only with constraints that print the same and have no tuples either, and these have its
value.
-/

namespace IEGen

open SortedList (Tied Sorted StrictWeak insertUnique)

/-! ## Names at every depth -/

mutual
/-- Names for symbolic constants and functions, in the elements of tuples too. -/
def Term.allNamed : Term → Bool
  | .tupleVar .. => true
  | .symConst _ s => isName s
  | .ufCall _ f as _ => isName f && argsAllNamed as
  | .constVal _ => true
  | .tupleExp _ es => argsAllNamed es

def Exp.allNamed : Exp → Bool
  | .mk _ ts => termsAllNamed ts

def argsAllNamed : List Exp → Bool
  | [] => true
  | e :: es => e.allNamed && argsAllNamed es

def termsAllNamed : List Term → Bool
  | [] => true
  | t :: ts => t.allNamed && termsAllNamed ts
end

theorem termsAllNamed_iff {ts : List Term} : termsAllNamed ts = true ↔ ∀ t ∈ ts, t.allNamed = true := by
  induction ts with
  | nil => simp [termsAllNamed]
  | cons t ts ih => simp [termsAllNamed, ih]

/-! ## Tuples show in a text -/

/-- No blank stands right behind an opening bracket, where the text of a tuple has one. -/
def Snug (s : List Char) : Prop := s.IsChain (fun c d => c = '(' → d ≠ ' ')

/-- And there may be a blank behind the whole. -/
def Closed (s : List Char) : Prop := Snug s ∧ ∀ c ∈ s.getLast?, c ≠ '('

namespace Closed

variable {s t : List Char}

theorem append (hs : Closed s) (ht : Closed t) : Closed (s ++ t) := by
  refine ⟨List.isChain_append.2 ⟨hs.1, ht.1, fun c hc d _ h => absurd h (hs.2 c hc)⟩, fun c hc => ?_⟩
  rw [List.getLast?_append] at hc
  cases h : t.getLast? with
  | none =>
    rw [h] at hc
    exact hs.2 c hc
  | some d =>
    rw [h] at hc
    exact ht.2 c (h ▸ hc)

theorem of_forall (h : ∀ c ∈ s, c ≠ '(') : Closed s := by
  refine ⟨?_, fun c hc => h c (List.mem_of_getLast? hc)⟩
  induction s with
  | nil => exact .nil
  | cons c s ih =>
    obtain ⟨hc, hs⟩ := List.forall_mem_cons.1 h
    exact (ih hs).cons fun d _ h => absurd h hc

theorem of_all (h : s.all (· != '(') = true) : Closed s := of_forall (by simpa using h)

theorem brackets (hs : Closed s) (hhead : ∀ c ∈ s.head?, c ≠ ' ') : Closed ('(' :: (s ++ [')'])) := by
  have htail : Closed (s ++ [')']) := hs.append (of_all rfl)
  refine ⟨htail.1.cons fun d hd _ => ?_, fun c hc => htail.2 c ?_⟩
  · cases s with
    | nil =>
      obtain rfl : ')' = d := by simpa using hd
      decide
    | cons c s => exact hhead d hd
  · rwa [List.getLast?_cons_of_ne_nil (by simp)] at hc

end Closed

theorem closed_digits (n : Nat) : Closed (Words.digits n) := by
  refine .of_forall fun c hc h => ?_
  rw [h] at hc
  exact absurd (Words.isDigit_of_mem_digits hc) (by decide)

theorem closed_int (c : Int) : Closed (toString c).toList := by
  rw [toList_toString_int, signChars]
  split_ifs
  · exact (Closed.of_all (by decide)).append (closed_digits _)
  · exact closed_digits _

theorem closed_coeff (c : Int) (absValue : Bool) : Closed (coeffToStream c absValue).toList := by
  have habs : Closed (coeffChars c.natAbs) := by
    unfold coeffChars
    split_ifs
    · exact .of_all (by decide)
    · exact (closed_digits _).append (.of_all (by decide))
  cases absValue with
  | true => exact toList_coeffToStream_true c ▸ habs
  | false =>
    rw [toList_coeffToStream_false, signChars]
    split_ifs
    · exact (Closed.of_all (by decide)).append habs
    · exact habs

theorem closed_name {s : String} (h : isName s = true) : Closed s.toList := by
  refine .of_forall fun c hc heq => ?_
  rw [heq] at hc
  exact absurd ((isName_chars h).1 _ hc) (by decide)

theorem closed_index (i : Option Nat) : Closed (indexToString i).toList := by
  cases i with
  | none => exact .of_all (by decide)
  | some i =>
    simp only [indexToString, String.toList_append]
    exact ((Closed.of_all (by decide)).append (closed_digits i)).append (.of_all (by decide))

theorem closed_sign (c : Int) : Closed (signToString c).toList := by
  unfold signToString
  split_ifs <;> exact .of_all (by decide)

/-- An expression without tuples starts with no blank. -/
theorem start_toString {e : Exp} (h : e.readable = true) : ∃ c l, (e.toString false).toList = c :: l ∧ c ≠ ' ' := by
  obtain ⟨k, ts⟩ := e
  cases ts with
  | nil => exact ⟨'0', [], by simp [Exp.toString], by decide⟩
  | cons t ts =>
    have hl := Term.legible_of_readable (Exp.readable_iff.1 h t List.mem_cons_self)
    obtain ⟨c, l, hc, hn⟩ := text_start hl
    rw [Exp.toString, String.toList_append, toList_toString_false_of_legible hl, hc, signChars]
    split_ifs
    · exact ⟨'-', c :: (l ++ (termsToString false ts).toList), rfl, by decide⟩
    · refine ⟨c, l ++ (termsToString false ts).toList, rfl, ?_⟩
      rintro rfl
      rcases hn with ⟨hn, -⟩ | ⟨hn, -⟩
      · exact absurd hn (by decide)
      · cases hn

theorem head_argsToStream {es : List Exp} (h : argsReadable es = true) : ∀ c ∈ (argsToStream false es).toList.head?, c ≠ ' ' := by
  cases es with
  | nil => exact fun c hc => by cases hc
  | cons e es =>
    rw [argsReadable, Bool.and_eq_true] at h
    obtain ⟨c, l, hc, hne⟩ := start_toString h.1
    rw [argsToStream, String.toList_append, hc]
    rintro d hd
    obtain rfl : c = d := by simpa using hd
    exact hne

mutual
/-- Terms without tuples have snug texts. -/
theorem Term.closed_toString : ∀ {t : Term}, t.readable = true → ∀ absValue, Closed (t.toString absValue false).toList
  | .tupleVar c l, _, b => by
    simp only [Term.toString, String.toList_append]
    exact ((closed_coeff c b).append (.of_all (by decide))).append (closed_digits l)
  | .symConst c s, h, b => by
    simp only [Term.toString, String.toList_append]
    exact (closed_coeff c b).append (closed_name h)
  | .ufCall c f as i, h, b => by
    rw [Term.readable, Bool.and_eq_true] at h
    have hargs := (closed_argsToStream h.2).brackets (head_argsToStream h.2)
    have hall := ((closed_coeff c b).append (closed_name h.1)).append (hargs.append (closed_index i))
    simpa [Term.toString] using hall
  | .constVal c, _, b => by
    cases b with
    | false => exact closed_int c
    | true => exact closed_digits c.natAbs

theorem Exp.closed_toString : ∀ {e : Exp}, e.readable = true → Closed (e.toString false).toList
  | .mk _ [], _ => .of_all (show "0".toList.all (· != '(') = true by decide)
  | .mk _ (t :: ts), h => by
    have h : (t.readable && termsReadable ts) = true := h
    rw [Bool.and_eq_true] at h
    rw [Exp.toString, String.toList_append]
    exact (Term.closed_toString h.1 false).append (closed_termsToString h.2)

theorem closed_termsToString : ∀ {ts : List Term}, termsReadable ts = true → Closed (termsToString false ts).toList
  | [], _ => .of_all (by decide)
  | t :: ts, h => by
    rw [termsReadable, Bool.and_eq_true] at h
    simp only [termsToString, String.toList_append]
    exact ((closed_sign _).append (Term.closed_toString h.1 true)).append (closed_termsToString h.2)

theorem closed_argsToStream : ∀ {es : List Exp}, argsReadable es = true → Closed (argsToStream false es).toList
  | [], _ => .of_all (by decide)
  | e :: es, h => by
    rw [argsReadable, Bool.and_eq_true] at h
    rw [argsToStream, String.toList_append]
    exact (Exp.closed_toString h.1).append (closed_restArgsToStream h.2)

theorem closed_restArgsToStream : ∀ {es : List Exp}, argsReadable es = true → Closed (restArgsToStream false es).toList
  | [], _ => .of_all (by decide)
  | e :: es, h => by
    rw [argsReadable, Bool.and_eq_true] at h
    simp only [restArgsToStream, String.toList_append]
    exact ((Closed.of_all (by decide)).append (Exp.closed_toString h.1)).append (closed_restArgsToStream h.2)
end

mutual
/-- A snug text is that of a term without tuples. -/
theorem Term.readable_of_snug : ∀ {t : Term}, t.allNamed = true → ∀ {absValue}, Snug (t.toString absValue false).toList →
    t.readable = true
  | .tupleVar .., _, _, _ | .constVal _, _, _, _ => rfl
  | .symConst .., h, _, _ => h
  | .ufCall c f as i, h, b, hs => by
    rw [Term.allNamed, Bool.and_eq_true] at h
    have hargs : Snug (argsToStream false as).toList := by
      simp only [Term.toString, String.toList_append] at hs
      exact (List.isChain_append.1 (List.isChain_append.1 (List.isChain_append.1 hs).1).1).2.1
    rw [Term.readable, h.1, argsReadable_of_snug h.2 hargs, Bool.and_self]
  | .tupleExp c es, _, b, hs => by
    rw [toList_tupleExp] at hs
    exact absurd rfl ((List.isChain_cons_cons.1 hs).1 rfl)

theorem Exp.readable_of_snug : ∀ {e : Exp}, e.allNamed = true → Snug (e.toString false).toList → e.readable = true
  | .mk _ [], _, _ => rfl
  | .mk _ (t :: ts), h, hs => by
    have h : (t.allNamed && termsAllNamed ts) = true := h
    rw [Bool.and_eq_true] at h
    rw [Exp.toString, String.toList_append] at hs
    obtain ⟨ht, hts, -⟩ := List.isChain_append.1 hs
    show (t.readable && termsReadable ts) = true
    rw [Term.readable_of_snug h.1 ht, termsReadable_of_snug h.2 hts, Bool.and_self]

theorem termsReadable_of_snug : ∀ {ts : List Term}, termsAllNamed ts = true → Snug (termsToString false ts).toList →
    termsReadable ts = true
  | [], _, _ => rfl
  | t :: ts, h, hs => by
    rw [termsAllNamed, Bool.and_eq_true] at h
    simp only [termsToString, String.toList_append] at hs
    obtain ⟨hfirst, hts, -⟩ := List.isChain_append.1 hs
    rw [termsReadable, Term.readable_of_snug h.1 (List.isChain_append.1 hfirst).2.1, termsReadable_of_snug h.2 hts, Bool.and_self]

theorem argsReadable_of_snug : ∀ {es : List Exp}, argsAllNamed es = true → Snug (argsToStream false es).toList →
    argsReadable es = true
  | [], _, _ => rfl
  | e :: es, h, hs => by
    rw [argsAllNamed, Bool.and_eq_true] at h
    rw [argsToStream, String.toList_append] at hs
    obtain ⟨he, hes, -⟩ := List.isChain_append.1 hs
    rw [argsReadable, Exp.readable_of_snug h.1 he, restArgsReadable_of_snug h.2 hes, Bool.and_self]

theorem restArgsReadable_of_snug : ∀ {es : List Exp}, argsAllNamed es = true → Snug (restArgsToStream false es).toList →
    argsReadable es = true
  | [], _, _ => rfl
  | e :: es, h, hs => by
    rw [argsAllNamed, Bool.and_eq_true] at h
    simp only [restArgsToStream, String.toList_append] at hs
    obtain ⟨hfirst, hes, -⟩ := List.isChain_append.1 hs
    rw [argsReadable, Exp.readable_of_snug h.1 (List.isChain_append.1 hfirst).2.1, restArgsReadable_of_snug h.2 hes, Bool.and_self]
end

/-- Arguments that print as arguments without tuples do have none. -/
theorem argsReadable_of_toString_eq {as as' : List Exp} (hr : argsReadable as = true) (hn : argsAllNamed as' = true)
    (h : argsToStream false as = argsToStream false as') : argsReadable as' = true :=
  argsReadable_of_snug hn (h ▸ (closed_argsToStream hr).1)

/-! ## Tied constraints -/

theorem Term.readable_of_tied {t u : Term} (ht : t.readable = true) (hu : u.allNamed = true) (h : Tied Term.lt t u) :
    u.readable = true := by
  cases t <;> cases u <;> simp only [Tied, Term.lt, Term.typeRank] at h
  case ufCall.ufCall c f as i c' f' as' i' =>
    obtain ⟨rfl, -, hargs, -⟩ := tied_ufCall h
    rw [Term.readable, Bool.and_eq_true] at ht
    rw [Term.allNamed, Bool.and_eq_true] at hu
    rw [Term.readable, ht.1, argsReadable_of_toString_eq ht.2 hu.2 hargs, Bool.and_self]
  case tupleVar.tupleVar => rfl
  case symConst.symConst => exact hu
  case constVal.constVal => rfl
  case tupleExp.tupleExp => cases ht
  all_goals simp at h

namespace ExpObject

/-- `Exp::operator==` -/
def eq (a b : ExpObject) : Bool := !(a.lt b || b.lt a)

/-- Objects without tuples on one side compare as their terms. -/
theorem lexLt_term : ∀ {as : List TermObject}, (∀ t ∈ as, t.term.isTupleExp = false) → ∀ bs : List TermObject,
    SortedList.lexLt Term.lt (as.map TermObject.term) (bs.map TermObject.term) = SortedList.lexLt TermObject.lt as bs ∧
      SortedList.lexLt Term.lt (bs.map TermObject.term) (as.map TermObject.term) = SortedList.lexLt TermObject.lt bs as := by
  intro as
  induction as with
  | nil => intro _ bs; cases bs <;> exact ⟨rfl, rfl⟩
  | cons t as ih =>
    intro has bs
    obtain ⟨ht, has⟩ := List.forall_mem_cons.1 has
    cases bs with
    | nil => exact ⟨rfl, rfl⟩
    | cons u bs =>
      simp only [List.map_cons, SortedList.lexLt, ih has, TermObject.lt_of_not_tuple (.inl ht),
        TermObject.lt_of_not_tuple (.inr ht)]
      exact ⟨trivial, trivial⟩

theorem lt_value {a : ExpObject} (ha : a.value.readable = true) (b : ExpObject) :
    a.value.lt b.value = a.lt b ∧ b.value.lt a.value = b.lt a := by
  have hterm : ∀ t ∈ a.terms, t.term.isTupleExp = false := by
    intro t ht
    have hr := Exp.readable_iff.1 ha t.term (List.mem_map_of_mem ht)
    cases h : t.term with
    | tupleExp => rw [h] at hr; cases hr
    | _ => rfl
  have hboth := lexLt_term hterm b.terms
  unfold lt Exp.lt SortedList.sizeLexLt
  simp only [value, Exp.terms_mk, List.length_map, hboth]
  exact ⟨trivial, trivial⟩

/-- What is tied with an expression without tuples has none, and the value. -/
theorem val_of_tied_readable {a b : ExpObject} (ha : a.value.readable = true) (hb : b.value.allNamed = true) (h : Tied lt a b)
    (I : Interp) (τ : Nat → Int) : a.value.val I τ = b.value.val I τ := by
  have htied : Tied Exp.lt a.value b.value := by
    unfold Tied
    rw [(lt_value ha b).1, (lt_value ha b).2]
    exact h
  have hread : b.value.readable = true := by
    have hterms := tied_exp.1 htied
    refine Exp.readable_iff.2 fun u hu => ?_
    obtain ⟨t, ht, htu⟩ := Outcome.exists_of_mem_forall₂ hterms hu
    exact Term.readable_of_tied (Exp.readable_iff.1 ha t ht) (termsAllNamed_iff.1 hb u hu) htu
  exact Exp.val_of_tied (Exp.comparable_of_readable ha) (Exp.comparable_of_readable hread) htied

end ExpObject

/-! ## Adding a constraint -/

/-- `Term::multiplyBy` -/
def TermObject.multiplyBy (constant : Int) (t : TermObject) : TermObject :=
  ⟨t.term.multiplyBy constant, t.elems, by
    rw [t.length_elems]
    cases t.term <;> rfl⟩

namespace ExpObject

/-- `Exp::multiplyBy` -/
def multiplyBy (constant : Int) (e : ExpObject) : ExpObject := ⟨e.expType, e.terms.map (TermObject.multiplyBy constant)⟩

/-- `Exp::normalizeForEquality` -/
def normalizeForEquality (e : ExpObject) : ExpObject :=
  match e.terms with
  | [] => e
  | first :: _ =>
    let e' := if first.term.coefficient < 0 then e.multiplyBy (-1) else e
    match e'.terms.getLast? with
    | some last => if last.term.coefficient = 0 then ⟨e'.expType, e'.terms.dropLast⟩ else e'
    | none => e'

/-- `setEquality` -/
def setEquality (e : ExpObject) : ExpObject := ⟨.equality, e.terms⟩

/-- `setInequality` -/
def setInequality (e : ExpObject) : ExpObject := ⟨.inequality, e.terms⟩

@[simp] theorem value_setEquality (e : ExpObject) : e.setEquality.value = e.value.setEquality := rfl

@[simp] theorem value_setInequality (e : ExpObject) : e.setInequality.value = e.value.setInequality := rfl

theorem value_multiplyBy (k : Int) (e : ExpObject) : (e.multiplyBy k).value = e.value.multiplyBy k := by
  simp [value, multiplyBy, Exp.multiplyBy, TermObject.multiplyBy]

theorem value_normalizeForEquality (e : ExpObject) : e.normalizeForEquality.value = e.value.normalizeForEquality := by
  obtain ⟨k, ts⟩ := e
  cases ts with
  | nil => rfl
  | cons first rest =>
    have hflip : (if first.term.coefficient < 0 then multiplyBy (-1) ⟨k, first :: rest⟩ else ⟨k, first :: rest⟩).value =
        if first.term.coefficient < 0 then Exp.multiplyBy (-1) (.mk k (first.term :: rest.map TermObject.term))
        else .mk k (first.term :: rest.map TermObject.term) := by
      split_ifs
      · exact value_multiplyBy _ _
      · rfl
    rw [show (ExpObject.value ⟨k, first :: rest⟩) = .mk k (first.term :: rest.map TermObject.term) from rfl,
      Exp.normalizeForEquality_cons, ← hflip]
    unfold normalizeForEquality Exp.dropZeroTerm
    dsimp only
    generalize (if first.term.coefficient < 0 then multiplyBy (-1) ⟨k, first :: rest⟩ else ⟨k, first :: rest⟩) = e'
    rw [show e'.value.terms.getLast? = e'.terms.getLast?.map TermObject.term from List.getLast?_map]
    cases e'.terms.getLast? with
    | none => rfl
    | some last =>
      simp only [Option.map_some]
      split_ifs
      · simp [value]
      · rfl

end ExpObject

/-- Strictly sorted and without duplicates, as `operator<` and `operator==` have it. -/
def Ordered (l : List ExpObject) : Prop :=
  l.Pairwise (fun a b => a.lt b = true) ∧ l.Pairwise (fun a b => a.eq b = false)

theorem ordered_iff {l : List ExpObject} : Ordered l ↔ Sorted ExpObject.lt l :=
  ⟨And.left, fun h => ⟨h, h.imp fun hlt => by simp [ExpObject.eq, hlt]⟩⟩

namespace ConjunctionObject

/-- `Conjunction::addEquality` -/
def addEquality (c : ConjunctionObject) (equality : ExpObject) : ConjunctionObject :=
  let e := equality.normalizeForEquality
  if e.value.equalsZero then c else { c with equalities := insertUnique ExpObject.lt e.setEquality c.equalities }

/-- `Conjunction::addInequality` -/
def addInequality (c : ConjunctionObject) (inequality : ExpObject) : ConjunctionObject :=
  if inequality.value.equalsZero then c
  else { c with inequalities := insertUnique ExpObject.lt inequality.setInequality c.inequalities }

/-- Both lists are ordered. -/
structure Ordered (c : ConjunctionObject) : Prop where
  equalities : IEGen.Ordered c.equalities
  inequalities : IEGen.Ordered c.inequalities

/-- Names for symbolic constants and functions in all constraints. -/
def AllNamed (c : ConjunctionObject) : Prop := ∀ e ∈ c.equalities ++ c.inequalities, e.value.allNamed = true

variable {c : ConjunctionObject} {e : ExpObject}

/-- On values this is the addition of the conjunctions without addresses. -/
theorem value_addEquality (he : e.value.readable = true) : (c.addEquality e).value = c.value.addEquality e.value := by
  have hr : e.normalizeForEquality.setEquality.value.readable = true := by
    rw [ExpObject.value_setEquality, readable_setEquality, ExpObject.value_normalizeForEquality]
    exact readable_normalizeForEquality he
  unfold addEquality Conjunction.addEquality
  rw [← ExpObject.value_normalizeForEquality]
  dsimp only
  split_ifs
  · rfl
  · rw [← ExpObject.value_setEquality]
    exact congrArg (fun l => Conjunction.mk l _ _ _) (SortedList.insertUnique_map_of_forall fun d _ => ExpObject.lt_value hr d).symm

theorem value_addInequality (he : e.value.readable = true) : (c.addInequality e).value = c.value.addInequality e.value := by
  have hr : e.setInequality.value.readable = true := by
    rw [ExpObject.value_setInequality, readable_setInequality]
    exact he
  unfold addInequality Conjunction.addInequality
  split_ifs
  · rfl
  · rw [← ExpObject.value_setInequality]
    exact congrArg (fun l => Conjunction.mk _ l _ _) (SortedList.insertUnique_map_of_forall fun d _ => ExpObject.lt_value hr d).symm

theorem ordered_addEquality (h : c.Ordered) (e : ExpObject) : (c.addEquality e).Ordered := by
  unfold addEquality
  dsimp only
  split_ifs
  · exact h
  · exact ⟨ordered_iff.2 (SortedList.sorted_insertUnique strictWeak_expObjectLt (ordered_iff.1 h.equalities)), h.inequalities⟩

theorem ordered_addInequality (h : c.Ordered) (e : ExpObject) : (c.addInequality e).Ordered := by
  unfold addInequality
  split_ifs
  · exact h
  · exact ⟨h.equalities, ordered_iff.2 (SortedList.sorted_insertUnique strictWeak_expObjectLt (ordered_iff.1 h.inequalities))⟩

variable {I : Interp} {τ : Nat → Int}

theorem holds_addEquality (hc : c.AllNamed) (he : e.value.readable = true) :
    (c.addEquality e).value.Holds I τ ↔ c.value.Holds I τ ∧ e.value.HoldsEq I τ := by
  have hr : e.normalizeForEquality.setEquality.value.readable = true := by
    rw [ExpObject.value_setEquality, readable_setEquality, ExpObject.value_normalizeForEquality]
    exact readable_normalizeForEquality he
  rw [← holdsEq_normalizeForEquality, ← ExpObject.value_normalizeForEquality]
  unfold addEquality
  dsimp only
  split_ifs with h0
  · exact (and_iff_left fun k => val_of_equalsZero h0 k).symm
  · have hs : e.normalizeForEquality.setEquality.value.HoldsEq I τ ↔ e.normalizeForEquality.value.HoldsEq I τ := by
      simp only [ExpObject.value_setEquality, Exp.HoldsEq, Exp.val_setEquality]
    have hP : ∀ d ∈ c.equalities, Tied ExpObject.lt e.normalizeForEquality.setEquality d → d.value.HoldsEq I τ →
        e.normalizeForEquality.setEquality.value.HoldsEq I τ := by
      intro d hd ht hz k
      rw [ExpObject.val_of_tied_readable hr (hc d (List.mem_append_left _ hd)) ht]
      exact hz k
    have hall := SortedList.forall_insertUnique (P := fun d : ExpObject => d.value.HoldsEq I τ) hP
    simp only [Conjunction.Holds, value, List.forall_mem_map, hall, hs]
    tauto

theorem holds_addInequality (hc : c.AllNamed) (he : e.value.readable = true) :
    (c.addInequality e).value.Holds I τ ↔ c.value.Holds I τ ∧ e.value.HoldsGe I τ := by
  have hr : e.setInequality.value.readable = true := by
    rw [ExpObject.value_setInequality, readable_setInequality]
    exact he
  unfold addInequality
  split_ifs with h0
  · exact (and_iff_left fun k => (val_of_equalsZero h0 k).ge).symm
  · have hs : e.setInequality.value.HoldsGe I τ ↔ e.value.HoldsGe I τ := by
      simp only [ExpObject.value_setInequality, Exp.HoldsGe, Exp.val_setInequality]
    have hP : ∀ d ∈ c.inequalities, Tied ExpObject.lt e.setInequality d → d.value.HoldsGe I τ →
        e.setInequality.value.HoldsGe I τ := by
      intro d hd ht hz k
      rw [ExpObject.val_of_tied_readable hr (hc d (List.mem_append_right _ hd)) ht]
      exact hz k
    have hall := SortedList.forall_insertUnique (P := fun d : ExpObject => d.value.HoldsGe I τ) hP
    simp only [Conjunction.Holds, value, List.forall_mem_map, hall, hs]
    tauto

theorem denote_eq_inter {c' : ConjunctionObject} {P : (Nat → Int) → Prop} (hd : c'.tupleDecl = c.tupleDecl)
    (h : ∀ τ, c'.value.Holds I τ ↔ c.value.Holds I τ ∧ P τ) :
    c'.value.denote I = c.value.denote I ∩ {t | P (valuation t)} := by
  ext t
  show c'.tupleDecl.Admits t ∧ _ ↔ (c.tupleDecl.Admits t ∧ _) ∧ _
  rw [hd, h, and_assoc]
  rfl

end ConjunctionObject

/-- A constraint that is added keeps both lists strictly sorted and cuts the conjunction down to its tuples. -/
theorem addConstraint_intersects (c : ConjunctionObject) (e : ExpObject) (hc : c.Ordered) (hn : c.AllNamed)
    (he : e.value.readable = true) :
    ((c.addEquality e).Ordered ∧
      ∀ I, (c.addEquality e).value.denote I = c.value.denote I ∩ {t | e.value.HoldsEq I (valuation t)}) ∧
    ((c.addInequality e).Ordered ∧
      ∀ I, (c.addInequality e).value.denote I = c.value.denote I ∩ {t | e.value.HoldsGe I (valuation t)}) := by
  refine ⟨⟨ConjunctionObject.ordered_addEquality hc e, fun I => ?_⟩, ConjunctionObject.ordered_addInequality hc e, fun I => ?_⟩
  · refine ConjunctionObject.denote_eq_inter (P := fun τ => e.value.HoldsEq I τ) ?_ fun τ =>
      ConjunctionObject.holds_addEquality hn he
    unfold ConjunctionObject.addEquality
    dsimp only
    split_ifs <;> rfl
  · refine ConjunctionObject.denote_eq_inter (P := fun τ => e.value.HoldsGe I τ) ?_ fun τ =>
      ConjunctionObject.holds_addInequality hn he
    unfold ConjunctionObject.addInequality
    split_ifs <;> rfl

/-- `{[i, j] : i - j = 0 && i >= 0}` -/
def diagonal : ConjunctionObject :=
  ⟨[⟨.equality, [⟨.tupleVar 1 0, [], List.length_nil⟩, ⟨.tupleVar (-1) 1, [], List.length_nil⟩]⟩],
    [⟨.inequality, [⟨.tupleVar 1 0, [], List.length_nil⟩]⟩], ⟨[⟨false, 0, "i"⟩, ⟨false, 0, "j"⟩]⟩, 0⟩

/-- `-i + j` -/
def difference : ExpObject :=
  ⟨.expression, [⟨.tupleVar (-1) 0, [], List.length_nil⟩, ⟨.tupleVar 1 1, [], List.length_nil⟩]⟩

theorem addConstraint_intersects_negation : (diagonal.addEquality difference).equalities.length = 1 ∧
    (diagonal.addInequality difference).inequalities.length = 2 ∧
    (diagonal.addInequality difference).Ordered ∧ ∀ I, (diagonal.addInequality difference).value.denote I =
      diagonal.value.denote I ∩ {t | difference.value.HoldsGe I (valuation t)} := by
  have hc : diagonal.Ordered := ⟨⟨List.pairwise_singleton _ _, List.pairwise_singleton _ _⟩,
    ⟨List.pairwise_singleton _ _, List.pairwise_singleton _ _⟩⟩
  have hn : diagonal.AllNamed := by
    intro e he
    rcases List.mem_append.1 he with he | he
    · rw [List.mem_singleton.1 he]
      rfl
    · rw [List.mem_singleton.1 he]
      rfl
  exact ⟨by decide, by decide, (addConstraint_intersects diagonal difference hc hn rfl).2⟩

end IEGen
