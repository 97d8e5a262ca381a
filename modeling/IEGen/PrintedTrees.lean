import IEGen.Scanner
import IEGen.Asserted

/-!
# Reading printed constraints back

The trees of the productions that the text of a constraint is meant to go through are made from its terms (`Term.tree`,
`Exp.constraintTree`), where there are any: a call has an argument, and a tuple has two elements at least. What is printed has
their lexemes exactly where nothing is left out (`Term.PrintsRight`, `SidesPrintRight`), and otherwise is too short or has a plus
that belongs to nothing (`Exp.prints_constraint`).
-/

namespace IEGen

open Outcome (bind_eq_ok)
open Lexer (Reads)

/-! ## Printing next to reading -/

/-- Where the property holds there are a text and what it is meant to be; and whatever they are, they are related. -/
structure Prints {σ α : Type} (P : Prop) (R : σ → α → Prop) (x : Except Failure σ) (y : Option α) : Prop where
  ok : P → ∃ s a, x = .ok s ∧ y = some a
  reads : ∀ s a, x = .ok s → y = some a → R s a

namespace Prints

variable {σ σ' σ'' α β γ : Type} {P Q S : Prop} {R : σ → α → Prop} {R' : σ' → β → Prop} {T : σ'' → γ → Prop}
  {x : Except Failure σ} {y : Option α} {x' : Except Failure σ'} {y' : Option β}

theorem pure {s : σ} {a : α} (h : R s a) : Prints P R (.ok s) (some a) :=
  ⟨fun _ => ⟨s, a, rfl, rfl⟩, fun _ _ hs ha => by cases hs; cases ha; exact h⟩

theorem error (hP : ¬ P) (e : Failure) (y : Option α) : Prints P R (.error e) y := ⟨fun h => absurd h hP, nofun⟩

theorem none (hP : ¬ P) (x : Except Failure σ) : Prints P R x none := ⟨fun h => absurd h hP, nofun⟩

theorem map {g : σ → σ'} {k : α → β} (h : Prints P R x y) (hQ : Q → P) (hg : ∀ s a, x = .ok s → R s a → R' (g s) (k a)) :
    Prints Q R' (do let s ← x; .ok (g s)) (do let a ← y; some (k a)) := by
  refine ⟨fun hq => ?_, fun s a hs ha => ?_⟩
  · obtain ⟨s, a, rfl, rfl⟩ := h.ok (hQ hq)
    exact ⟨_, _, rfl, rfl⟩
  · obtain ⟨s₀, hs₀, hs⟩ := bind_eq_ok.1 hs
    obtain ⟨a₀, ha₀, ha⟩ := Option.bind_eq_some_iff.1 ha
    cases hs
    cases ha
    exact hg s₀ a₀ hs₀ (h.reads s₀ a₀ hs₀ ha₀)

/-- One after the other. -/
theorem seq {g : σ → σ' → σ''} {k : α → β → γ} (h : Prints P R x y) (h' : Prints Q R' x' y') (hS : S → P ∧ Q)
    (hg : ∀ s s' a b, R s a → R' s' b → T (g s s') (k a b)) :
    Prints S T (do let s ← x; let s' ← x'; .ok (g s s')) (do let a ← y; let b ← y'; some (k a b)) := by
  refine ⟨fun hS' => ?_, fun s a hs ha => ?_⟩
  · obtain ⟨hP, hQ⟩ := hS hS'
    obtain ⟨s, a, rfl, rfl⟩ := h.ok hP
    obtain ⟨s', b, rfl, rfl⟩ := h'.ok hQ
    exact ⟨_, _, rfl, rfl⟩
  · obtain ⟨s₀, hs₀, hs⟩ := bind_eq_ok.1 hs
    obtain ⟨s₁, hs₁, hs⟩ := bind_eq_ok.1 hs
    obtain ⟨a₀, ha₀, ha⟩ := Option.bind_eq_some_iff.1 ha
    obtain ⟨b₀, hb₀, hb⟩ := Option.bind_eq_some_iff.1 ha
    cases hs
    cases hb
    exact hg _ _ _ _ (h.reads _ _ hs₀ ha₀) (h'.reads _ _ hs₁ hb₀)

theorem ok_bind (s : σ) (f : σ → Except Failure σ') : (Except.ok s >>= f) = f s := rfl

/-- The texts of a list. -/
theorem mapM {ι : Type} {P : ι → Prop} {f : ι → Except Failure String} {k : ι → Option α} {lexemes : α → List (List Char)}
    {l : List ι} (h : ∀ i ∈ l, Prints (P i) (fun s a => TextReads (P i) s (lexemes a)) (f i) (k i)) :
    Prints (∀ i ∈ l, P i) (fun ss as => ss.length = l.length ∧ ListReads (∀ i ∈ l, P i) ss (as.map lexemes))
      (l.mapM f) (l.mapM k) := by
  induction l with
  | nil => exact .pure ⟨rfl, ListReads.nil.congr (by simp)⟩
  | cons i l ih =>
    obtain ⟨hi, hl⟩ := List.forall_mem_cons.1 h
    rw [List.mapM_cons, List.mapM_cons]
    exact hi.seq (ih hl) List.forall_mem_cons.1 fun s ss a as hs hss =>
      ⟨congrArg (· + 1) hss.1, (ListReads.cons hs hss.2).congr List.forall_mem_cons.symm⟩

end Prints

/-! ## Trees -/

/-- A name as the scanner hands it over. -/
def ident? (s : String) : Option Ident := if h : isIdent s = true then some ⟨s, h⟩ else none

/-- A coefficient without its sign. -/
def scaled (c : Int) (e : ExpTree) : ExpTree := if c.natAbs = 1 then e else .intMult c.natAbs e

/-- The sign of the first term of an expression. -/
def signed (c : Int) (e : ExpTree) : ExpTree := if c < 0 then .unop e else e

/-- The sign of another term. -/
def plusOrDash (c : Int) (e e' : ExpTree) : ExpTree := if c < 0 then .dash e e' else .plus e e'

section Trees

variable (d : TupleDecl)

mutual
/-- A term without its sign. -/
def Term.tree : Term → Option ExpTree
  | .tupleVar c l => if d.elemIsConst l then none else (ident? (d.elemVarString l)).map fun name => scaled c (.id name)
  | .symConst c s => (ident? s).map fun name => scaled c (.id name)
  | .ufCall c f as i => do
    let name ← ident? f
    let list ← argsTree as
    some (scaled c (.func name list i))
  | .constVal c => some (.int c.natAbs)
  | .tupleExp c es => do
    let list ← argsTree es
    match list with
    | .one _ => none
    | .cons .. => some (scaled c (.paren list))

/-- An expression; one without terms is zero. -/
def Exp.tree : Exp → Option ExpTree
  | .mk _ [] => some (.int 0)
  | .mk _ (t :: ts) => do
    let e ← t.tree
    termsTree (signed t.coefficient e) ts

/-- The terms of an expression behind those of `e`. -/
def termsTree (e : ExpTree) : List Term → Option ExpTree
  | [] => some e
  | t :: ts => do
    let e' ← t.tree
    termsTree (plusOrDash t.coefficient e e') ts

/-- Arguments. -/
def argsTree : List Exp → Option ExpTrees
  | [] => none
  | e :: es => do
    let e ← e.tree
    restArgsTree e es

/-- Arguments behind one. -/
def restArgsTree (e : ExpTree) : List Exp → Option ExpTrees
  | [] => some (.one e)
  | e' :: es => do
    let e' ← e'.tree
    let list ← restArgsTree e' es
    some (.cons e list)
end

end Trees

/-! ## What is printed right -/

section PrintsRight

variable (d : TupleDecl)

/-- A term whose sign is printed in front of an expression. -/
def Term.LeadsRight : Term → Prop
  | .tupleExp c _ => c = 1
  | _ => True

mutual
/-- A tuple variable has a name, a call has an argument, and a tuple has two elements and no coefficient. -/
def Term.PrintsRight : Term → Prop
  | .tupleVar _ l => d.elemIsConst l = false
  | .symConst .. | .constVal _ => True
  | .ufCall _ _ as _ => as ≠ [] ∧ argsPrintRight as
  | .tupleExp c es => c.natAbs = 1 ∧ 2 ≤ es.length ∧ argsPrintRight es

/-- An argument has a term. -/
def Exp.PrintsRight : Exp → Prop
  | .mk _ [] => False
  | .mk _ (t :: ts) => (t.LeadsRight ∧ t.PrintsRight) ∧ termsPrintRight ts

def argsPrintRight : List Exp → Prop
  | [] => True
  | e :: es => e.PrintsRight ∧ argsPrintRight es

def termsPrintRight : List Term → Prop
  | [] => True
  | t :: ts => t.PrintsRight ∧ termsPrintRight ts
end

end PrintsRight

/-! ## Terms -/

/-- The lexemes of a coefficient without its sign. -/
def coefficientLexemes (c : Int) : List (List Char) := if c.natAbs = 1 then [] else [Words.digits c.natAbs]

theorem leads_coeffToStream (c : Int) : scanner.Leads (coeffToStream c true).toList (coefficientLexemes c) := by
  unfold coeffToStream coefficientLexemes
  rw [if_pos rfl]
  split
  · exact Lexer.leads_nil
  · rw [String.toList_append]
    have h := (scans_digits c.natAbs).leads_append separates_blank
    rwa [List.append_nil] at h

theorem lexemes_scaled (c : Int) (e : ExpTree) : (scaled c e).lexemes = coefficientLexemes c ++ e.lexemes := by
  unfold scaled coefficientLexemes
  split <;> simp [ExpTree.lexemes]

theorem lexemes_signed (c : Int) (e : ExpTree) : (signed c e).lexemes = (if c < 0 then [['-']] else []) ++ e.lexemes := by
  unfold signed
  split <;> simp [ExpTree.lexemes]

theorem lexemes_plusOrDash (c : Int) (e e' : ExpTree) :
    (plusOrDash c e e').lexemes = e.lexemes ++ ([if c < 0 then ['-'] else ['+']] ++ e'.lexemes) := by
  unfold plusOrDash
  split <;> simp [ExpTree.lexemes]

/-- A name with its coefficient. -/
theorem prints_name (c : Int) {s : String} (h : isIdent s = true) (P : Prop) (hP : P) :
    Prints P (fun s e => TextReads P s (ExpTree.lexemes e)) (.ok (coeffToStream c true ++ s))
      ((ident? s).map fun name => scaled c (.id name)) := by
  unfold ident?
  rw [dif_pos h]
  refine .pure ?_
  rw [lexemes_scaled]
  exact ((textReads_ident h).behind (leads_coeffToStream c)).congr (by simp [hP])

theorem ident?_eq {s : String} (h : isIdent s = true) : ident? s = some ⟨s, h⟩ := dif_pos h

/-- A term does not begin with the rest of an arrow. -/
theorem exists_head {d : TupleDecl} {t : Term} (ht : t.Scanned d) {s : String} (h : t.prettyPrintString d true = .ok s) :
    ∃ c cs, s.toList = c :: cs ∧ c ≠ '>' := by
  have hident : ∀ {w : String}, isIdent w = true → ∀ (c : Int) (r : String), ∃ c' cs,
      (coeffToStream c true ++ (w ++ r)).toList = c' :: cs ∧ c' ≠ '>' := by
    intro w hw c r
    unfold coeffToStream
    rw [if_pos rfl]
    split
    · obtain ⟨d, ds, hd, -, -, hchar, -⟩ := exists_of_isIdent hw
      refine ⟨d, ds ++ r.toList, by rw [String.empty_append, String.toList_append, hd]; rfl, ?_⟩
      rintro rfl
      cases hchar
    · obtain ⟨d, ds, hd, hne⟩ := exists_digit c.natAbs
      exact ⟨d, ds ++ (" ".toList ++ (w ++ r).toList), by
        rw [String.toList_append, String.toList_append, hd, List.append_assoc, List.cons_append], hne⟩
  cases t with
  | tupleVar c l =>
    rw [Term.prettyPrintString] at h
    split_ifs at h with hl
    cases h
    have hname := hident (ht.2 (by simpa using hl)) c ""
    rw [String.append_empty] at hname
    rw [TupleDecl.elemToString, if_neg hl, if_neg Bool.false_ne_true]
    exact hname
  | symConst c w =>
    cases h
    have hname := hident (show isIdent w = true from ht) c ""
    rwa [String.append_empty] at hname
  | ufCall c f as i =>
    obtain ⟨s, -, h⟩ := bind_eq_ok.1 h
    cases h
    obtain ⟨c', cs, h, hne⟩ := hident ht.1 c ("(" ++ s ++ ")" ++ indexToString i)
    exact ⟨c', cs, by rw [← h]; simp [String.append_assoc], hne⟩
  | constVal c =>
    cases h
    exact exists_digit c.natAbs
  | tupleExp c es =>
    obtain ⟨s, -, h⟩ := bind_eq_ok.1 h
    cases h
    exact ⟨'(', ' ' :: (s ++ " )").toList, by simp, by decide⟩

theorem coeffToStream_signed (c : Int) : coeffToStream c false = (if c < 0 then "-" else "") ++ coeffToStream c true := by
  cases c with
  | ofNat n =>
    have hneg : ¬ Int.ofNat n < 0 := by simp
    rw [if_neg hneg, String.empty_append]
    unfold coeffToStream
    by_cases hn : n = 1
    · subst hn
      rfl
    · have hone : ¬ Int.ofNat n = 1 := by simpa using hn
      rw [if_neg Bool.false_ne_true, if_neg hone, if_neg (by omega), if_pos rfl, if_neg (by simpa using hn)]
      rfl
  | negSucc n =>
    rw [if_pos (Int.negSucc_lt_zero n)]
    unfold coeffToStream
    cases n with
    | zero => rfl
    | succ n =>
      rw [if_neg Bool.false_ne_true, if_neg (by omega), if_neg (by omega), if_pos rfl, if_neg (by simp)]
      show "-" ++ toString (n + 1 + 1) ++ " " = _
      rw [String.append_assoc]
      rfl

theorem toString_signed (c : Int) : toString c = (if c < 0 then "-" else "") ++ toString c.natAbs := by
  cases c with
  | ofNat n => rw [if_neg (by simp), String.empty_append]; rfl
  | negSucc n => rw [if_pos (Int.negSucc_lt_zero n)]; rfl

/-- A term in front of an expression is printed with its sign, when it is not a tuple. -/
theorem prettyPrint_signed {d : TupleDecl} {t : Term} (ht : ∀ c es, t ≠ .tupleExp c es) : t.prettyPrintString d false =
    (do let s ← t.prettyPrintString d true; .ok ((if t.coefficient < 0 then "-" else "") ++ s)) := by
  cases t with
  | tupleVar c l =>
    rw [Term.prettyPrintString, Term.prettyPrintString]
    cases d.elemIsConst l with
    | true => rfl
    | false =>
      show Except.ok (coeffToStream c false ++ d.elemToString l false) =
        .ok ((if c < 0 then "-" else "") ++ (coeffToStream c true ++ d.elemToString l false))
      rw [coeffToStream_signed, String.append_assoc]
  | symConst c w =>
    show Except.ok (coeffToStream c false ++ w) = .ok ((if c < 0 then "-" else "") ++ (coeffToStream c true ++ w))
    rw [coeffToStream_signed, String.append_assoc]
  | ufCall c f as i =>
    rw [Term.prettyPrintString, Term.prettyPrintString, bind_assoc]
    refine congrArg _ (funext fun s => ?_)
    show Except.ok (coeffToStream c false ++ f ++ "(" ++ s ++ ")" ++ indexToString i) =
      .ok ((if c < 0 then "-" else "") ++ (coeffToStream c true ++ f ++ "(" ++ s ++ ")" ++ indexToString i))
    simp only [coeffToStream_signed, String.append_assoc]
  | constVal c =>
    show Except.ok (toString c) = .ok ((if c < 0 then "-" else "") ++ toString c.natAbs)
    rw [toString_signed]
  | tupleExp c es => exact absurd rfl (ht c es)

/-- The sign of the first term of an expression. -/
theorem prints_signed {d : TupleDecl} {t : Term} (ht : t.Scanned d) (h : Prints (t.PrintsRight d)
      (fun s e => TextReads (t.PrintsRight d) s (ExpTree.lexemes e)) (t.prettyPrintString d true) (t.tree d)) :
    Prints (t.LeadsRight ∧ t.PrintsRight d) (fun s e => TextReads (t.LeadsRight ∧ t.PrintsRight d) s (ExpTree.lexemes e))
      (t.prettyPrintString d false) (do let e ← t.tree d; some (signed t.coefficient e)) := by
  cases t with
  | tupleExp c es =>
    have hsame : (Term.tupleExp c es).prettyPrintString d false =
        (do let s ← (Term.tupleExp c es).prettyPrintString d true; .ok s) := by
      rw [Term.prettyPrintString, Term.prettyPrintString, bind_assoc]
      rfl
    rw [hsame]
    refine h.map And.right fun s e _ hs => ?_
    show TextReads (c = 1 ∧ _) s (signed c e).lexemes
    unfold signed
    split
    · refine hs.short (by omega) id fun hle => ?_
      rw [ExpTree.lexemes, List.flatten_cons, List.length_append]
      exact hle.trans_lt (Nat.lt_add_of_pos_left Nat.zero_lt_one)
    · exact hs.congr ⟨fun h => ⟨by have := h.1; omega, h⟩, And.right⟩
  | _ =>
    rw [prettyPrint_signed (by simp)]
    refine h.map And.right fun s e hs₀ hs => ?_
    unfold signed
    split
    · exact Reads.congr (TextReads.minus hs (exists_head ht hs₀)) (by simp [Term.LeadsRight])
    · rw [String.empty_append]
      exact hs.congr (by simp [Term.LeadsRight])

theorem leads_call (c : Int) {f : String} (h : isIdent f = true) :
    scanner.Leads (coeffToStream c true ++ (f ++ "(")).toList (coefficientLexemes c ++ ([f.toList] ++ [['(']])) := by
  rw [String.toList_append, String.toList_append]
  exact (leads_coeffToStream c).append ((scans_ident h).leads_append separates_opens)

theorem separates_sign (c : Int) :
    scanner.Separates isIdentChar (signToString c).toList [if c < 0 then ['-'] else ['+']] := by
  unfold signToString
  split_ifs <;> exact separates_of (fun _ => rfl) rfl

/-- The lexemes of an index. -/
def indexLexemes : Option Nat → List (List Char)
  | none => []
  | some j => [['['], Words.digits j, [']']]

theorem separates_index (i : Option Nat) :
    scanner.Separates isIdentChar (")" ++ indexToString i).toList ([')'] :: indexLexemes i) := by
  refine separates_of (fun r => ?_) (by rw [String.toList_append]; rfl)
  cases i with
  | none => exact separates_closes.leads r
  | some j =>
    have h := separates_closes.leads.append (separates_opensIndex.leads.append
      ((scans_digits j).leads_append separates_closesIndex))
    have htext : (")" ++ indexToString (some j)).toList = [')'] ++ (['['] ++ (Words.digits j ++ [']'])) := by
      simp [indexToString, Words.digits]
    rw [htext]
    exact h r

section Scan

open Prints (ok_bind)

variable {d : TupleDecl}

theorem prints_call {as : List Exp} (c : Int) {f : String} (hf : isIdent f = true) (i : Option Nat)
    (h : Prints (as ≠ [] ∧ argsPrintRight d as) (fun s list => TextReads (as ≠ [] ∧ argsPrintRight d as) s (ExpTrees.lexemes list))
      (argsToStreamPrettyPrint d as) (argsTree d as)) :
    Prints ((Term.ufCall c f as i).PrintsRight d)
      (fun s e => TextReads ((Term.ufCall c f as i).PrintsRight d) s (ExpTree.lexemes e))
      ((Term.ufCall c f as i).prettyPrintString d true) ((Term.ufCall c f as i).tree d) := by
  rw [Term.prettyPrintString, Term.tree, ident?_eq hf]
  refine h.map id fun s list _ hs => ?_
  have htext : coeffToStream c true ++ f ++ "(" ++ s ++ ")" ++ indexToString i =
      (coeffToStream c true ++ (f ++ "(")) ++ (s ++ (")" ++ indexToString i)) := by simp only [String.append_assoc]
  have hlex : (scaled c (.func ⟨f, hf⟩ list i)).lexemes =
      coefficientLexemes c ++ ([f.toList] ++ [['(']]) ++ (list.lexemes ++ ([')'] :: indexLexemes i)) := by
    rw [lexemes_scaled]
    cases i <;> simp [ExpTree.lexemes, indexLexemes]
  rw [htext, hlex]
  exact hs.between (leads_call c hf) (separates_index i)

theorem restArgsTree_cases {es : List Exp} {e : ExpTree} {list : ExpTrees} (h : restArgsTree d e es = some list) :
    (es = [] ∧ list = .one e) ∨ (es ≠ [] ∧ ∃ rest, list = .cons e rest) := by
  cases es with
  | nil =>
    cases h
    exact .inl ⟨rfl, rfl⟩
  | cons e' es =>
    rw [restArgsTree] at h
    obtain ⟨t, -, h⟩ := Option.bind_eq_some_iff.1 h
    obtain ⟨rest, -, h⟩ := Option.bind_eq_some_iff.1 h
    cases h
    exact .inr ⟨List.cons_ne_nil _ _, rest, rfl⟩

theorem argsTree_cases {es : List Exp} {list : ExpTrees} (h : argsTree d es = some list) :
    (es.length = 1 ∧ ∃ e, list = .one e) ∨ (2 ≤ es.length ∧ ∃ e rest, list = .cons e rest) := by
  cases es with
  | nil => cases h
  | cons e es =>
    obtain ⟨t, -, h⟩ := Option.bind_eq_some_iff.1 h
    rcases restArgsTree_cases h with ⟨rfl, rfl⟩ | ⟨hne, rest, rfl⟩
    · exact .inl ⟨rfl, t, rfl⟩
    · exact .inr ⟨Nat.succ_le_succ (List.length_pos_iff.2 hne), t, rest, rfl⟩

theorem prints_tuple {es : List Exp} (c : Int)
    (h : Prints (es ≠ [] ∧ argsPrintRight d es) (fun s list => TextReads (es ≠ [] ∧ argsPrintRight d es) s (ExpTrees.lexemes list))
      (argsToStreamPrettyPrint d es) (argsTree d es)) :
    Prints ((Term.tupleExp c es).PrintsRight d)
      (fun s e => TextReads ((Term.tupleExp c es).PrintsRight d) s (ExpTree.lexemes e))
      ((Term.tupleExp c es).prettyPrintString d true) ((Term.tupleExp c es).tree d) := by
  rw [Term.prettyPrintString, Term.tree]
  refine ⟨fun hP => ?_, fun s e hs he => ?_⟩
  · obtain ⟨-, hlen, hes⟩ := hP
    have hne : es ≠ [] := List.ne_nil_of_length_pos (by omega)
    obtain ⟨s, list, hs, hlist⟩ := h.ok ⟨hne, hes⟩
    rcases argsTree_cases hlist with ⟨hone, -⟩ | ⟨-, e, rest, rfl⟩
    · omega
    · rw [hs, hlist]
      exact ⟨_, _, rfl, rfl⟩
  · obtain ⟨s, hs₀, hs⟩ := bind_eq_ok.1 hs
    obtain ⟨list, hlist, he⟩ := Option.bind_eq_some_iff.1 he
    cases hs
    rcases argsTree_cases hlist with ⟨-, e', rfl⟩ | ⟨hlen, e', rest, rfl⟩
    · cases he
    · cases he
      have hread : TextReads (es ≠ [] ∧ argsPrintRight d es) ("( " ++ (s ++ " )"))
          ([['(']] ++ ((ExpTrees.cons e' rest).lexemes ++ [[')']])) :=
        TextReads.between (h.reads s _ hs₀ hlist) (fun _ => rfl) (separates_of (fun r => lex_symbol (c := ')') rfl (fun _ => rfl) r) rfl)
      have hne : es ≠ [] := List.ne_nil_of_length_pos (by omega)
      rw [String.append_assoc]
      show TextReads (c.natAbs = 1 ∧ 2 ≤ es.length ∧ argsPrintRight d es) _ _
      unfold scaled
      split
      · next hc => exact hread.congr (by simp [hc, hlen, hne])
      · next hc =>
        refine hread.short (fun h => hc h.1) id fun hle => ?_
        have hpos : 0 < (Words.digits c.natAbs).length := List.length_pos_iff.2 (Words.digits_ne_nil _)
        rw [ExpTree.lexemes, List.flatten_cons, List.length_append]
        exact hle.trans_lt (Nat.lt_add_of_pos_left hpos)

mutual
theorem Term.prints : ∀ {t : Term}, t.Scanned d →
    Prints (t.PrintsRight d) (fun s e => TextReads (t.PrintsRight d) s (ExpTree.lexemes e)) (t.prettyPrintString d true) (t.tree d)
  | .tupleVar c l, h => by
    rw [Term.prettyPrintString, Term.tree]
    split_ifs with hl
    · exact .error (by simp [Term.PrintsRight, hl]) _ _
    · have hl : d.elemIsConst l = false := by simpa using hl
      rw [TupleDecl.elemToString, hl, if_neg Bool.false_ne_true, if_neg Bool.false_ne_true]
      exact prints_name c (h.2 hl) _ hl
  | .symConst c s, h => prints_name c h _ trivial
  | .constVal c, _ => .pure (textReads_nat c.natAbs)
  | .ufCall c f as i, h => prints_call c h.1 i (prints_args h.2)
  | .tupleExp c es, h => prints_tuple c (prints_args h)

theorem Exp.prints : ∀ {e : Exp}, e.Scanned d →
    Prints (e.PrintsRight d) (fun s e' => TextReads (e.PrintsRight d) s (ExpTree.lexemes e')) (e.prettyPrintString d) (e.tree d)
  | .mk _ [], _ => .pure (.inr ⟨id, .inr (by decide)⟩)
  | .mk _ (t :: ts), ⟨ht, hts⟩ => by
    have h := prints_terms hts (prints_signed ht (Term.prints ht))
    rw [bind_assoc] at h
    exact h

theorem prints_terms : ∀ {ts : List Term}, termsScanned d ts → ∀ {P : Prop} {x : Except Failure String} {y : Option ExpTree},
    Prints P (fun s e => TextReads P s (ExpTree.lexemes e)) x y →
    Prints (P ∧ termsPrintRight d ts) (fun s e => TextReads (P ∧ termsPrintRight d ts) s (ExpTree.lexemes e))
      (do let s ← x; let rest ← termsPrettyPrint d ts; .ok (s ++ rest)) (do let e ← y; termsTree d e ts)
  | [], _, P, x, y, h => by
    refine h.map And.left fun s e _ hs => ?_
    rw [String.append_empty]
    exact Reads.congr hs (by simp [termsPrintRight])
  | t :: ts, ⟨ht, hts⟩, P, x, y, h => by
    have hnext := h.seq (Term.prints ht) (S := P ∧ t.PrintsRight d) (g := fun s s' => s ++ (signToString t.coefficient ++ s'))
      (k := plusOrDash t.coefficient) (T := fun s e => TextReads (P ∧ t.PrintsRight d) s (ExpTree.lexemes e)) id
      fun s s' e e' hs hs' => by
        rw [lexemes_plusOrDash]
        exact TextReads.append hs (separates_sign t.coefficient) hs'
    have hall := prints_terms hts hnext
    have htext : (do let s ← x; let rest ← termsPrettyPrint d (t :: ts); .ok (s ++ rest)) =
        (do let s ← (do let s ← x; let s' ← t.prettyPrintString d true; .ok (s ++ (signToString t.coefficient ++ s')))
            let rest ← termsPrettyPrint d ts
            .ok (s ++ rest) : Except Failure String) := by
      simp only [termsPrettyPrint, bind_assoc, ok_bind, String.append_assoc]
    have htree : (do let e ← y; termsTree d e (t :: ts)) =
        (do let e ← (do let e ← y; let e' ← t.tree d; some (plusOrDash t.coefficient e e')); termsTree d e ts) := by
      simp only [termsTree, bind_assoc]
      rfl
    rw [htext, htree]
    exact ⟨fun hP => hall.ok ⟨⟨hP.1, hP.2.1⟩, hP.2.2⟩, fun s e hs he => Reads.congr (hall.reads s e hs he) and_assoc⟩

theorem prints_args : ∀ {es : List Exp}, argsScanned d es →
    Prints (es ≠ [] ∧ argsPrintRight d es) (fun s list => TextReads (es ≠ [] ∧ argsPrintRight d es) s (ExpTrees.lexemes list))
      (argsToStreamPrettyPrint d es) (argsTree d es)
  | [], _ => .none (by simp) _
  | e :: es, ⟨he, hes⟩ => by
    have h := prints_restArgs hes (Exp.prints he)
    exact ⟨fun hP => h.ok hP.2, fun s list hs hlist =>
      Reads.congr (h.reads s list hs hlist) ⟨fun hP => ⟨nofun, hP⟩, And.right⟩⟩

theorem prints_restArgs : ∀ {es : List Exp}, argsScanned d es → ∀ {P : Prop} {x : Except Failure String} {y : Option ExpTree},
    Prints P (fun s e => TextReads P s (ExpTree.lexemes e)) x y →
    Prints (P ∧ argsPrintRight d es) (fun s list => TextReads (P ∧ argsPrintRight d es) s (ExpTrees.lexemes list))
      (do let s ← x; let rest ← restArgsPrettyPrint d es; .ok (s ++ rest)) (do let e ← y; restArgsTree d e es)
  | [], _, P, x, y, h => by
    refine h.map And.left fun s e _ hs => ?_
    rw [String.append_empty]
    exact Reads.congr hs (by simp [argsPrintRight])
  | e :: es, ⟨he, hes⟩, P, x, y, h => by
    have hrest := prints_restArgs hes (Exp.prints he)
    have hall := h.seq hrest (S := P ∧ argsPrintRight d (e :: es)) (g := fun s s' => s ++ (", " ++ s')) (k := ExpTrees.cons)
      (T := fun s list => TextReads (P ∧ argsPrintRight d (e :: es)) s (ExpTrees.lexemes list)) id
      fun s s' e list hs hs' => TextReads.append hs separates_comma hs'
    have htext : (do let s ← x; let rest ← restArgsPrettyPrint d (e :: es); .ok (s ++ rest)) =
        (do let s ← x
            let s' ← (do let s ← e.prettyPrintString d; let rest ← restArgsPrettyPrint d es; .ok (s ++ rest))
            .ok (s ++ (", " ++ s')) : Except Failure String) := by
      simp only [restArgsPrettyPrint, bind_assoc, ok_bind, String.append_assoc]
    have htree : (do let e' ← y; restArgsTree d e' (e :: es)) =
        (do let e' ← y; let list ← (do let e ← e.tree d; restArgsTree d e es); some (ExpTrees.cons e' list)) := by
      simp only [restArgsTree, bind_assoc]
    rw [htext, htree]
    exact hall
end

end Scan

/-! ## Constraints -/

/-- A constant. -/
def intTree (c : Int) : ExpTree := signed c (.int c.natAbs)

/-- The sum of the terms of a side; without terms it is zero. -/
def sumTree : List ExpTree → ExpTree
  | [] => .int 0
  | e :: es => es.foldl .plus e

/-- The constant on the left side. -/
def leftConst (k : ExpType) (constT : Option Int) (leftEmpty : Bool) : Option Int :=
  match k, constT with
  | .equality, some c => if c < 0 then some (-c) else none
  | .inequality, some c =>
    if c < 0 then (if -c - 1 = 0 then none else some (-c - 1))
    else if 0 < c && leftEmpty then some (-c - 1) else none
  | _, _ => none

/-- The constant on the right side. -/
def rightConst (k : ExpType) (constT : Option Int) (leftEmpty : Bool) : Option Int :=
  match k, constT with
  | .equality, some c => if 0 < c then some c else none
  | .inequality, some c => if 0 < c && !leftEmpty then some c else none
  | _, _ => none

/-- The comparison of two sides. -/
def compared (k : ExpType) (constT : Option Int) (leftEmpty : Bool) (e e' : ExpTree) : ConstraintTree :=
  match k, constT with
  | .inequality, some c => if c < 0 || (0 < c && leftEmpty) then .lt e e' else .lte e e'
  | .inequality, none => .lte e e'
  | _, _ => .eq e e'

/-- A constraint in the form that `getString` gives it: the terms of both sides without their signs, and the constant on one
of them. -/
def Exp.constraintTree (d : TupleDecl) (e : Exp) : Option ConstraintTree := do
  let left ← e.leftSide.mapM (Term.tree d)
  let right ← e.rightSide.mapM (Term.tree d)
  some (compared e.expType e.constT left.isEmpty
    (sumTree (left ++ ((leftConst e.expType e.constT left.isEmpty).map intTree).toList))
    (sumTree (right ++ ((rightConst e.expType e.constT left.isEmpty).map intTree).toList)))

/-- No side has two terms, and each side has something that is printed. -/
def SidesPrintRight (k : ExpType) (constT : Option Int) (l r : Nat) : Prop :=
  match k, constT with
  | _, none => l ≤ 1 ∧ r ≤ 1
  | .equality, some c => if c < 0 then l ≤ 1 ∧ r = 1 else l = 1 ∧ r = 1
  | .inequality, some c =>
    if c < 0 then l ≤ 1 ∧ r = 1 else if 0 < c then l = 0 ∧ r = 1 ∨ l = 1 ∧ r ≤ 1 else l = 1 ∧ r = 1
  | .expression, some _ => l = 1 ∧ r = 1

/-- The terms of a constraint are printed right, and so are its sides. -/
def Exp.ConstraintPrintsRight (d : TupleDecl) (e : Exp) : Prop :=
  ((∀ t ∈ e.leftSide, t.PrintsRight d) ∧ ∀ t ∈ e.rightSide, t.PrintsRight d) ∧
    SidesPrintRight e.expType e.constT e.leftSide.length e.rightSide.length

/-! ### The sides of a constraint -/

/-- The lexemes of the sum of a side. -/
def sideLexemes (lss : List (List (List Char))) : List (List Char) :=
  if lss.isEmpty then [['0']] else separated ['+'] lss

theorem separated_append (l : List Char) (ls ls' : List (List Char)) (lss : List (List (List Char))) :
    separated l ((ls ++ l :: ls') :: lss) = separated l (ls :: ls' :: lss) := by
  cases lss <;> simp [separated]

theorem lexemes_foldl_plus (e : ExpTree) (es : List ExpTree) :
    (es.foldl .plus e).lexemes = separated ['+'] (e.lexemes :: es.map ExpTree.lexemes) := by
  induction es generalizing e with
  | nil => rfl
  | cons e' es ih => rw [List.foldl_cons, ih, ExpTree.lexemes, separated_append, List.map_cons]

theorem lexemes_sumTree (es : List ExpTree) : (sumTree es).lexemes = sideLexemes (es.map ExpTree.lexemes) := by
  cases es with
  | nil => rfl
  | cons e es => exact lexemes_foldl_plus e es

theorem lexemes_intTree (c : Int) : (intTree c).lexemes = intLexemes c := by
  unfold intTree intLexemes
  rw [lexemes_signed]
  split <;> rfl

/-- The lexeme of the comparison. -/
def opLexeme (k : ExpType) (constT : Option Int) (leftEmpty : Bool) : List Char :=
  match k, constT with
  | .inequality, some c => if c < 0 || (0 < c && leftEmpty) then ['<'] else "<=".toList
  | .inequality, none => "<=".toList
  | _, _ => ['=']

theorem lexemes_compared (k : ExpType) (constT : Option Int) (leftEmpty : Bool) (e e' : ExpTree) :
    (compared k constT leftEmpty e e').lexemes = e.lexemes ++ ([opLexeme k constT leftEmpty] ++ e'.lexemes) := by
  rcases constT with - | c
  · cases k <;> rfl
  · cases k with
    | inequality =>
      unfold compared opLexeme
      dsimp only
      split_ifs <;> rfl
    | _ => rfl

theorem separates_op (k : ExpType) (constT : Option Int) (left : List String) :
    scanner.Separates isIdentChar (printOp k constT left).toList [opLexeme k constT left.isEmpty] := by
  rcases constT with - | c
  · cases k with
    | inequality => exact separates_lte
    | _ => exact separates_eq
  · cases k with
    | inequality =>
      unfold printOp opLexeme
      dsimp only
      split_ifs
      · exact separates_lt
      · exact separates_lte
    | _ => exact separates_eq

section Sides

variable {P Q : Prop} {ss : List String} {lss : List (List (List Char))}

theorem length_ink_join (ss : List String) : (scanner.ink (String.join ss).toList).length = inkSum ss := by
  induction ss with
  | nil => rw [String.join_nil]; rfl
  | cons s ss ih =>
    rw [String.join_cons, String.toList_append, Lexer.ink_append, List.length_append, ih, inkSum_cons]

/-- A text with a flaw has it among the terms of a side. -/
theorem flawed_join {ss : List String} (h : ∃ s ∈ ss, unaryPlus.has (scanner.ink s.toList)) :
    unaryPlus.has (scanner.ink (String.join ss).toList) := by
  induction ss with
  | nil =>
    obtain ⟨_, h, -⟩ := h
    cases h
  | cons s ss ih =>
    obtain ⟨t, ht, hf⟩ := h
    rw [String.join_cons, String.toList_append, Lexer.ink_append]
    rcases List.mem_cons.1 ht with rfl | ht
    · exact Lexer.Flaw.append_right hf _
    · exact Lexer.Flaw.append_left (ih ⟨t, ht, hf⟩) _

theorem length_sideLexemes (ls : List (List Char)) (lss : List (List (List Char))) :
    (sideLexemes (ls :: lss)).flatten.length = ls.flatten.length + lexemesSum lss + lss.length := by
  rw [sideLexemes, List.isEmpty_cons, if_neg Bool.false_ne_true, length_separated, List.length_singleton, Nat.mul_one]

theorem lexemesSum_append (lss lss' : List (List (List Char))) : lexemesSum (lss ++ lss') = lexemesSum lss + lexemesSum lss' := by
  rw [lexemesSum, List.map_append, List.sum_append]
  rfl

theorem lexemesSum_singleton (ls : List (List Char)) : lexemesSum [ls] = ls.flatten.length := Nat.add_zero _

theorem ListReads.singleton {s : String} {ls : List (List Char)} (h : ListReads P [s] [ls]) : TextReads P s ls := by
  obtain ⟨-, ⟨hP, h⟩ | ⟨hP, h⟩⟩ := h
  · cases h with
    | cons h _ => exact .inl ⟨hP, h⟩
  · refine .inr ⟨hP, h.imp (fun ⟨t, ht, hf⟩ => ?_) fun hlt => by simpa [inkSum, lexemesSum] using hlt⟩
    rw [List.mem_singleton.1 ht] at hf
    exact hf

/-- There is nothing wrong with no texts. -/
theorem ListReads.of_nil (h : ListReads P [] []) : P := by
  obtain ⟨-, ⟨hP, -⟩ | ⟨-, h⟩⟩ := h
  · exact hP
  · rcases h with ⟨_, h, -⟩ | h
    · cases h
    · exact absurd h (lt_irrefl 0)

/-- The terms of a side that has no constant, where nothing is printed when there are none. -/
theorem ListReads.side (h : ListReads P ss lss) : TextReads (P ∧ ss.length = 1) (String.join ss) (sideLexemes lss) := by
  have hle := h.le
  match ss, lss, h.1 with
  | [], [], _ => exact .inr ⟨fun h => Nat.zero_ne_one h.2, .inr (by decide)⟩
  | [s], [ls], _ =>
    rw [String.join_cons, String.join_nil, String.append_empty]
    exact h.singleton.congr (by simp)
  | s :: s' :: ss, ls :: ls' :: lss, _ =>
    refine .inr ⟨by simp, hle.imp flawed_join fun hle => ?_⟩
    rw [length_ink_join, length_sideLexemes, List.length_cons]
    rw [lexemesSum_cons] at hle
    omega

/-- The terms of a side, or zero. -/
theorem ListReads.orZero (h : ListReads P ss lss) :
    TextReads (P ∧ ss.length ≤ 1) (String.join ss ++ if ss.isEmpty then "0" else "") (sideLexemes lss) := by
  match ss, lss, h.1 with
  | [], [], _ => exact (textReads_nat 0).congr (by simp [h.of_nil])
  | s :: ss, ls :: lss, _ =>
    rw [List.isEmpty_cons, if_neg Bool.false_ne_true, String.append_empty]
    exact h.side.congr (by simp)

/-- The terms of a side with a constant behind them. -/
theorem ListReads.constAfter (h : ListReads P ss lss) (c : Int) :
    TextReads (P ∧ ss.length ≤ 1) (String.join ss ++ constAfter ss c) (sideLexemes (lss ++ [intLexemes c])) := by
  have hle := h.le
  match ss, lss, h.1 with
  | [], [], _ =>
    rw [String.join_nil, String.empty_append]
    exact (textReads_int c).congr (by simp [h.of_nil])
  | [s], [ls], _ =>
    rw [String.join_cons, String.join_nil, String.append_empty]
    exact (h.singleton.append separates_plus (textReads_int c)).congr (by simp)
  | s :: s' :: ss, ls :: ls' :: lss, _ =>
    have htext : String.join (s :: s' :: ss) ++ IEGen.constAfter (s :: s' :: ss) c =
      String.join (s :: s' :: ss) ++ (" + " ++ toString c) := rfl
    have hc : (scanner.ink (toString c).toList).length = (intLexemes c).flatten.length := by
      rw [((textReads_int c).resolve_right fun h => h.1 trivial).2.ink]
    rw [htext]
    refine .inr ⟨by simp, ?_⟩
    rw [String.toList_append, String.toList_append, Lexer.ink_append, Lexer.ink_append]
    refine hle.imp (fun hf => Lexer.Flaw.append_right (flawed_join hf) _) fun hle => ?_
    rw [separates_plus.leads.ink, List.length_append, List.length_append, length_ink_join, hc, List.cons_append,
      length_sideLexemes, lexemesSum_append, lexemesSum_singleton, List.length_append, List.flatten_singleton]
    rw [lexemesSum_cons] at hle
    simp only [List.length_cons, List.length_nil]
    omega

/-- A constant behind the terms of a side, where there is no plus between them. -/
theorem ListReads.short (h : ListReads P ss lss) (c : Int) :
    unaryPlus.has (scanner.ink (String.join ss ++ toString c).toList) ∨
      (scanner.ink (String.join ss ++ toString c).toList).length ≤ (sideLexemes (lss ++ [intLexemes c])).flatten.length := by
  have hc : (scanner.ink (toString c).toList).length = (intLexemes c).flatten.length := by
    rw [((textReads_int c).resolve_right fun h => h.1 trivial).2.ink]
  rw [String.toList_append, Lexer.ink_append]
  refine h.le.imp (fun hf => Lexer.Flaw.append_right (flawed_join hf) _) fun hle => ?_
  rw [List.length_append, length_ink_join, hc]
  match ss, lss, h.1 with
  | [], [], _ => exact (Nat.zero_add _).le
  | s :: ss, ls :: lss, _ =>
    rw [List.cons_append, length_sideLexemes, lexemesSum_append, lexemesSum_singleton]
    rw [lexemesSum_cons] at hle
    omega

/-- The two sides of an equality with a positive constant, which is put behind the terms of the right side with a plus where
there are terms on the left side. -/
theorem ListReads.positive {left right : List String} {llss rlss : List (List (List Char))} (hl : ListReads P left llss)
    (hr : ListReads Q right rlss) (c : Int) : TextReads ((P ∧ left.length = 1) ∧ Q ∧ right.length = 1)
      (String.join left ++ (" = " ++ (String.join right ++ IEGen.constAfter left c)))
      (sideLexemes llss ++ ([['=']] ++ sideLexemes (rlss ++ [intLexemes c]))) := by
  match left, right, llss, hl.1 with
  | [], right, [], _ =>
    have hafter : String.join right ++ IEGen.constAfter [] c = String.join right ++ toString c := rfl
    have hzero : (sideLexemes []).flatten.length = 1 := rfl
    rw [hafter]
    refine .inr ⟨fun h => Nat.zero_ne_one h.1.2, ?_⟩
    rw [String.join_nil, String.empty_append, String.toList_append, Lexer.ink_append, separates_eq.leads.ink]
    refine (hr.short c).imp (fun hf => Lexer.Flaw.append_left hf _) fun hle => ?_
    rw [List.length_append, List.flatten_append, List.flatten_append, List.length_append, List.length_append, hzero]
    omega
  | l :: ls, [], _, _ =>
    refine .inr ⟨fun h => Nat.zero_ne_one h.2.2, .inl ?_⟩
    have hafter : String.join [] ++ IEGen.constAfter (l :: ls) c = " + " ++ toString c := String.empty_append
    have hplus : unaryPlus.has (['='] ++ (['+'] ++ scanner.ink (toString c).toList)) := by
      intro h
      rw [List.singleton_append, List.singleton_append, List.isChain_cons_cons] at h
      exact h.1 ⟨rfl, rfl⟩
    rw [hafter, String.toList_append, String.toList_append, String.toList_append, Lexer.ink_append, Lexer.ink_append,
      Lexer.ink_append, separates_eq.leads.ink, separates_plus.leads.ink]
    exact Lexer.Flaw.append_left hplus _
  | l :: ls, r :: rs, llss, _ =>
    have hafter : IEGen.constAfter (l :: ls) c = IEGen.constAfter (r :: rs) c := rfl
    rw [hafter]
    exact (hl.side.append separates_eq (hr.constAfter c)).congr (by simp)

/-- What is printed for a constraint is as it is meant, or is flawed or too short. -/
theorem reads_sides (k : ExpType) (constT : Option Int) {left right : List String} {llss rlss : List (List (List Char))}
    (hl : ListReads P left llss) (hr : ListReads Q right rlss) :
    TextReads ((P ∧ Q) ∧ SidesPrintRight k constT left.length right.length)
      (printLeft k constT left ++ (printOp k constT left ++ printRight k constT left right))
      (sideLexemes (llss ++ ((leftConst k constT left.isEmpty).map intLexemes).toList) ++
        ([opLexeme k constT left.isEmpty] ++
          sideLexemes (rlss ++ ((rightConst k constT left.isEmpty).map intLexemes).toList))) := by
  have hop := separates_op k constT left
  have hside : ∀ {P : Prop} {ss lss}, ListReads P ss lss →
      TextReads (P ∧ ss.length = 1) (String.join ss ++ "") (sideLexemes (lss ++ [])) := by
    intro P ss lss h
    rw [String.append_empty, List.append_nil]
    exact h.side
  have hzero : ∀ {P : Prop} {ss lss}, ListReads P ss lss →
      TextReads (P ∧ ss.length ≤ 1) (String.join ss ++ if ss.isEmpty then "0" else "") (sideLexemes (lss ++ [])) := by
    intro P ss lss h
    rw [List.append_nil]
    exact h.orZero
  rcases constT with - | c
  · cases k <;> exact ((hzero hl).append hop (hzero hr)).congr and_and_and_comm
  cases k with
  | expression => exact ((hside hl).append hop (hside hr)).congr and_and_and_comm
  | equality =>
    rcases lt_trichotomy c 0 with hc | rfl | hc
    · have hpos : ¬ 0 < c := not_lt.2 hc.le
      simp only [SidesPrintRight, printLeft, printRight, leftConst, rightConst, if_pos hc, if_neg hpos]
      exact ((hl.constAfter (-c)).append hop (hside hr)).congr and_and_and_comm
    · exact ((hside hl).append hop (hside hr)).congr and_and_and_comm
    · have hneg : ¬ c < 0 := not_lt.2 hc.le
      simp only [SidesPrintRight, printLeft, printRight, leftConst, rightConst, if_pos hc, if_neg hneg]
      have hsides := (hl.positive hr c).congr and_and_and_comm
      show TextReads _ ((String.join left ++ "") ++ _) (sideLexemes (llss ++ []) ++ _)
      rw [String.append_empty, List.append_nil]
      exact hsides
  | inequality =>
    rcases lt_trichotomy c 0 with hc | rfl | hc
    · have hpos : ¬ 0 < c := not_lt.2 hc.le
      simp only [SidesPrintRight, printLeft, printRight, leftConst, rightConst, if_pos hc, decide_eq_false hpos,
        Bool.false_and, Bool.false_eq_true, if_false]
      by_cases hone : -c - 1 = 0
      · rw [if_neg (not_not.2 hone), if_pos hone]
        exact ((hzero hl).append hop (hside hr)).congr and_and_and_comm
      · rw [if_pos hone, if_neg hone]
        exact ((hl.constAfter (-c - 1)).append hop (hside hr)).congr and_and_and_comm
    · exact ((hside hl).append hop (hside hr)).congr and_and_and_comm
    · have hneg : ¬ c < 0 := not_lt.2 hc.le
      simp only [SidesPrintRight, printLeft, printRight, leftConst, rightConst, if_neg hneg, if_pos hc, decide_eq_true hc,
        Bool.true_and]
      cases left with
      | nil => exact ((hl.constAfter (-c - 1)).append hop (hside hr)).congr (by simp [and_assoc])
      | cons l ls => exact ((hside hl).append hop (hr.constAfter c)).congr (by simp; tauto)

end Sides

theorem mem_of_mem_leftSide {e : Exp} {t : Term} (h : t ∈ e.leftSide) : t ∈ e.terms :=
  List.mem_of_mem_filter (List.mem_reverse.1 h)

theorem mem_of_mem_rightSide {e : Exp} {t : Term} (h : t ∈ e.rightSide) : t ∈ e.terms :=
  List.mem_of_mem_filter (List.mem_reverse.1 h)

/-- A printed constraint. -/
theorem Exp.prints_constraint {d : TupleDecl} {e : Exp} (he : e.Scanned d) :
    Prints (e.ConstraintPrintsRight d) (fun s c => TextReads (e.ConstraintPrintsRight d) s (ConstraintTree.lexemes c))
      (e.getString d) (e.constraintTree d) := by
  have hscan : ∀ t ∈ e.terms, Prints (t.PrintsRight d) (fun s e => TextReads (t.PrintsRight d) s (ExpTree.lexemes e))
      (t.prettyPrintString d true) (t.tree d) := by
    obtain ⟨k, ts⟩ := e
    exact fun t ht => Term.prints (termsScanned_iff.1 he t ht)
  have hleft := Prints.mapM fun t (ht : t ∈ e.leftSide) => hscan t (mem_of_mem_leftSide ht)
  have hright := Prints.mapM fun t (ht : t ∈ e.rightSide) => hscan t (mem_of_mem_rightSide ht)
  refine hleft.seq hright And.left fun left right ltrees rtrees hl hr' => ?_
  have hlen : ltrees.isEmpty = left.isEmpty := by
    rw [Bool.eq_iff_iff, List.isEmpty_iff_length_eq_zero, List.isEmpty_iff_length_eq_zero, hl.2.1, List.length_map]
  have hconst : ∀ (es : List ExpTree) (o : Option Int), (sumTree (es ++ (o.map intTree).toList)).lexemes =
      sideLexemes (es.map ExpTree.lexemes ++ (o.map intLexemes).toList) := by
    intro es o
    rw [lexemes_sumTree, List.map_append]
    cases o <;> simp [lexemes_intTree]
  have hsides := reads_sides e.expType e.constT hl.2 hr'.2
  rw [lexemes_compared, hconst, hconst, hlen, String.append_assoc]
  rw [hl.1, hr'.1] at hsides
  exact hsides

/-! ## Grouping -/

section Grouping

variable {d : TupleDecl}

theorem grouped_scaled {c : Int} {e : ExpTree} (hs : e.IsSimple) (hg : e.Grouped) :
    (scaled c e).Grouped ∧ ¬ (scaled c e).IsBinop := by
  unfold scaled
  split
  · refine ⟨hg, fun h => ?_⟩
    cases e <;> first | exact hs | exact h
  · exact ⟨⟨hs, hg⟩, id⟩

theorem grouped_signed {c : Int} {e : ExpTree} (hg : e.Grouped ∧ ¬ e.IsBinop) : (signed c e).Grouped ∧ ¬ (signed c e).IsBinop := by
  unfold signed
  split
  · exact ⟨hg.symm, id⟩
  · exact hg

theorem grouped_plusOrDash {c : Int} {e e' : ExpTree} (hg : e.Grouped) (hg' : e'.Grouped ∧ ¬ e'.IsBinop) :
    (plusOrDash c e e').Grouped := by
  unfold plusOrDash
  split <;> exact ⟨hg, hg'.symm⟩

mutual
theorem Term.grouped_tree : ∀ {t : Term} {e : ExpTree}, t.tree d = some e → e.Grouped ∧ ¬ e.IsBinop
  | .tupleVar c l, e, h => by
    rw [Term.tree] at h
    split_ifs at h
    obtain ⟨name, -, rfl⟩ := Option.map_eq_some_iff.1 h
    exact grouped_scaled trivial trivial
  | .symConst c s, e, h => by
    obtain ⟨name, -, rfl⟩ := Option.map_eq_some_iff.1 h
    exact grouped_scaled trivial trivial
  | .ufCall c f as i, e, h => by
    obtain ⟨name, -, h⟩ := Option.bind_eq_some_iff.1 h
    obtain ⟨list, hlist, h⟩ := Option.bind_eq_some_iff.1 h
    cases h
    have hg : list.Grouped := grouped_argsTree hlist
    exact grouped_scaled trivial hg
  | .constVal c, e, h => by
    cases h
    exact ⟨trivial, id⟩
  | .tupleExp c es, e, h => by
    obtain ⟨list, hlist, h⟩ := Option.bind_eq_some_iff.1 h
    cases list with
    | one _ => cases h
    | cons e' rest =>
      cases h
      exact grouped_scaled trivial (grouped_argsTree hlist)

theorem Exp.grouped_tree : ∀ {e : Exp} {e' : ExpTree}, e.tree d = some e' → e'.Grouped
  | .mk _ [], e', h => by
    cases h
    trivial
  | .mk _ (t :: ts), e', h => by
    obtain ⟨e, he, h⟩ := Option.bind_eq_some_iff.1 h
    exact grouped_termsTree (grouped_signed (Term.grouped_tree he)).1 h

theorem grouped_termsTree : ∀ {ts : List Term} {e e' : ExpTree}, e.Grouped → termsTree d e ts = some e' → e'.Grouped
  | [], e, e', hg, h => by
    cases h
    exact hg
  | t :: ts, e, e', hg, h => by
    obtain ⟨u, hu, h⟩ := Option.bind_eq_some_iff.1 h
    exact grouped_termsTree (grouped_plusOrDash hg (Term.grouped_tree hu)) h

theorem grouped_argsTree : ∀ {es : List Exp} {list : ExpTrees}, argsTree d es = some list → list.Grouped
  | [], list, h => by cases h
  | e :: es, list, h => by
    obtain ⟨t, ht, h⟩ := Option.bind_eq_some_iff.1 h
    exact grouped_restArgsTree (Exp.grouped_tree ht) h

theorem grouped_restArgsTree : ∀ {es : List Exp} {e : ExpTree} {list : ExpTrees}, e.Grouped →
    restArgsTree d e es = some list → list.Grouped
  | [], e, list, hg, h => by
    cases h
    exact hg
  | e' :: es, e, list, hg, h => by
    obtain ⟨t, ht, h⟩ := Option.bind_eq_some_iff.1 h
    obtain ⟨rest, hrest, h⟩ := Option.bind_eq_some_iff.1 h
    cases h
    exact ⟨hg, grouped_restArgsTree (Exp.grouped_tree ht) hrest⟩
end

theorem grouped_sumTree {es : List ExpTree} (h : ∀ e ∈ es, e.Grouped ∧ ¬ e.IsBinop) : (sumTree es).Grouped := by
  have hfoldl : ∀ (es : List ExpTree) (e : ExpTree), e.Grouped → (∀ e ∈ es, e.Grouped ∧ ¬ e.IsBinop) →
      (es.foldl .plus e).Grouped := by
    intro es
    induction es with
    | nil => exact fun e he _ => he
    | cons e' es ih =>
      intro e he h
      obtain ⟨h', h⟩ := List.forall_mem_cons.1 h
      exact ih (.plus e e') ⟨he, h'.symm⟩ h
  cases es with
  | nil => trivial
  | cons e es => exact hfoldl es e (h e List.mem_cons_self).1 fun e he => h e (List.mem_cons_of_mem _ he)

/-- The trees of a side, its constant included. -/
theorem grouped_side {ts : List Term} {es : List ExpTree} (h : ts.mapM (Term.tree d) = some es) (o : Option Int) :
    (sumTree (es ++ (o.map intTree).toList)).Grouped := by
  refine grouped_sumTree fun e he => ?_
  rcases List.mem_append.1 he with he | he
  · obtain ⟨t, -, ht⟩ := Outcome.exists_of_mem_forall₂ (Outcome.forall₂_of_mapM_some h) he
    exact Term.grouped_tree ht
  · cases o with
    | none => cases he
    | some c =>
      rw [List.mem_singleton.1 he]
      exact grouped_signed ⟨trivial, id⟩

theorem Exp.grouped_constraintTree {e : Exp} {k : ConstraintTree} (h : e.constraintTree d = some k) : k.Grouped := by
  obtain ⟨left, hleft, h⟩ := Option.bind_eq_some_iff.1 h
  obtain ⟨right, hright, h⟩ := Option.bind_eq_some_iff.1 h
  cases h
  have hl := grouped_side hleft (leftConst e.expType e.constT left.isEmpty)
  have hr := grouped_side hright (rightConst e.expType e.constT left.isEmpty)
  unfold compared
  split
  · split <;> exact ⟨hl, hr⟩
  · exact ⟨hl, hr⟩
  · exact ⟨hl, hr⟩

end Grouping

end IEGen
