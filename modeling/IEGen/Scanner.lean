import IEGen.Lib.Lexemes
import IEGen.GetString
import IEGen.Named
import Mathlib.Data.List.Chain

/-!
# Lexemes of written sets and relations

`parser.l` cuts a text into lexemes: digits, identifiers and keywords, and symbols of one or two characters. The productions
of `parser.y` that a text goes through have lexemes (`ExpTree.lexemes`, `SetBody.lexemes`), and a text is read by them when
these are its own. The precedence of the operators leaves one way to group them (`ExpTree.Grouped`).
-/

namespace IEGen

open Lexer (Leads Scans Separates Reads)
open Words (Stops)

/-- Symbols of two characters. -/
def longSymbols : List (List Char) := ["<=".toList, ">=".toList, "->".toList, "&&".toList]

/-- The rules of `parser.l`; the longest lexeme is taken. What begins like an identifier is an identifier, a keyword or an
invalid identifier. -/
def scanner : Lexer Char where
  blank c := " \t\n\r".toList.contains c
  goesOn w c :=
    match w with
    | [] => false
    | d :: ds =>
      if d.isDigit then c.isDigit
      else if isLetter d || d == '_' then isIdentChar c
      else longSymbols.contains (d :: (ds ++ [c]))

/-! ## Expressions -/

mutual
/-- The lexemes of an expression; a multiplication is written without `*`. -/
def ExpTree.lexemes : ExpTree → List (List Char)
  | .int value => [Words.digits value]
  | .id name => [name.1.toList]
  | .func name args none => name.1.toList :: ['('] :: (args.lexemes ++ [[')']])
  | .func name args (some j) => name.1.toList :: ['('] :: (args.lexemes ++ [[')'], ['['], Words.digits j, [']']])
  | .paren list => ['('] :: (list.lexemes ++ [[')']])
  | .unop e => ['-'] :: e.lexemes
  | .plus e e' => e.lexemes ++ ['+'] :: e'.lexemes
  | .dash e e' => e.lexemes ++ ['-'] :: e'.lexemes
  | .intMult n e => Words.digits n :: e.lexemes

def ExpTrees.lexemes : ExpTrees → List (List Char)
  | .one e => e.lexemes
  | .cons e list => e.lexemes ++ [','] :: list.lexemes
end

namespace ExpTree

/-- `expression_simple` -/
def IsSimple : ExpTree → Prop
  | .id _ | .func .. | .paren _ => True
  | _ => False

/-- `expression_binop` -/
def IsBinop : ExpTree → Prop
  | .plus .. | .dash .. => True
  | _ => False

end ExpTree

mutual
/-- `+` and `-` are grouped to the left, a sign takes less than they do, and a number multiplies `expression_simple`. -/
def ExpTree.Grouped : ExpTree → Prop
  | .int _ | .id _ => True
  | .func _ args _ => args.Grouped
  | .paren list => list.Grouped
  | .unop e => ¬ e.IsBinop ∧ e.Grouped
  | .plus e e' | .dash e e' => e.Grouped ∧ ¬ e'.IsBinop ∧ e'.Grouped
  | .intMult _ e => e.IsSimple ∧ e.Grouped

def ExpTrees.Grouped : ExpTrees → Prop
  | .one e => e.Grouped
  | .cons e list => e.Grouped ∧ list.Grouped
end

/-! ## Constraints and bodies -/

namespace ConstraintTree

/-- The lexemes of a constraint. -/
def lexemes : ConstraintTree → List (List Char)
  | .eq e e' => e.lexemes ++ ['='] :: e'.lexemes
  | .lt e e' => e.lexemes ++ ['<'] :: e'.lexemes
  | .lte e e' => e.lexemes ++ "<=".toList :: e'.lexemes
  | .gt e e' => e.lexemes ++ ['>'] :: e'.lexemes
  | .gte e e' => e.lexemes ++ ">=".toList :: e'.lexemes
  | .rangeLteLt e e' e'' => e.lexemes ++ "<=".toList :: (e'.lexemes ++ ['<'] :: e''.lexemes)
  | .rangeLtLte e e' e'' => e.lexemes ++ ['<'] :: (e'.lexemes ++ "<=".toList :: e''.lexemes)
  | .rangeLteLte e e' e'' => e.lexemes ++ "<=".toList :: (e'.lexemes ++ "<=".toList :: e''.lexemes)
  | .rangeLtLt e e' e'' => e.lexemes ++ ['<'] :: (e'.lexemes ++ ['<'] :: e''.lexemes)

def Grouped : ConstraintTree → Prop
  | .eq e e' | .lt e e' | .lte e e' | .gt e e' | .gte e e' => e.Grouped ∧ e'.Grouped
  | .rangeLteLt e e' e'' | .rangeLtLte e e' e'' | .rangeLteLte e e' e'' | .rangeLtLt e e' e'' =>
    e.Grouped ∧ e'.Grouped ∧ e''.Grouped

end ConstraintTree

/-- Lexemes with a lexeme between each two of the lists. -/
def separated (sep : List Char) : List (List (List Char)) → List (List Char)
  | [] => []
  | [ls] => ls
  | ls :: ls' :: lss => ls ++ sep :: separated sep (ls' :: lss)

/-- The lexeme of an element of a tuple. -/
def TupleElemTree.lexeme : TupleElemTree → List Char
  | .var name => name.1.toList
  | .const value => Words.digits value

/-- `tuple_decl_with_brackets` -/
def tupleLexemes (es : List TupleElemTree) : List (List Char) :=
  if es.isEmpty then [] else ['['] :: (separated [','] (es.map fun e => [e.lexeme]) ++ [[']']])

/-- A body in braces, with a colon. -/
def bodyLexemes (tuples : List (List Char)) (constraints : List ConstraintTree) : List (List Char) :=
  ['\x7b'] :: (tuples ++ [':'] :: (separated "&&".toList (constraints.map ConstraintTree.lexemes) ++ [['\x7d']]))

/-- `single_conjunct` -/
def SetBody.lexemes (b : SetBody) : List (List Char) := bodyLexemes (tupleLexemes b.tuple) b.constraints

/-- `rel_single_conjunct` -/
def RelBody.lexemes (b : RelBody) : List (List Char) :=
  bodyLexemes (tupleLexemes b.inTuple ++ "->".toList :: tupleLexemes b.outTuple) b.constraints

/-- `conjunct_list` and `rel_conjunct_list` -/
def unionLexemes (bodies : List (List (List Char))) : List (List Char) := separated "union".toList bodies

/-- The text of a set is read by these productions. -/
structure ReadsAsSet (text : String) (bodies : List SetBody) : Prop where
  nonempty : bodies ≠ []
  lexemes : scanner.lex text.toList = unionLexemes (bodies.map SetBody.lexemes)
  grouped : ∀ b ∈ bodies, ∀ c ∈ b.constraints, c.Grouped

/-- The text of a relation is read by these productions. -/
structure ReadsAsRelation (text : String) (bodies : List RelBody) : Prop where
  nonempty : bodies ≠ []
  lexemes : scanner.lex text.toList = unionLexemes (bodies.map RelBody.lexemes)
  grouped : ∀ b ∈ bodies, ∀ c ∈ b.constraints, c.Grouped

/-! ## Words -/

theorem isIdentChar_of_isDigit {c : Char} (h : c.isDigit = true) : isIdentChar c = true := by
  simp [isIdentChar, Char.isAlphanum, h]

theorem blank_of_isIdentChar {c : Char} (h : isIdentChar c = true) : scanner.blank c = false := by
  by_contra hb
  simp only [scanner, Bool.not_eq_false, List.contains_eq_mem, decide_eq_true_eq] at hb
  have hmem : c ∈ [' ', '\t', '\n', '\r'] := hb
  simp only [List.mem_cons, List.not_mem_nil, or_false] at hmem
  rcases hmem with rfl | rfl | rfl | rfl <;> revert h <;> decide

/-- A run of digits or of the characters of an identifier is one lexeme. -/
theorem scans_run {d : Char} {ds : List Char} (q : Char → Bool) (hq : ∀ c, q c = true → isIdentChar c = true)
    (hgo : ∀ es c, scanner.goesOn (d :: es) c = q c) (hd : isIdentChar d = true) (hds : ∀ c ∈ ds, q c = true) :
    scanner.Scans isIdentChar (d :: ds) [d :: ds] := by
  intro r hr
  have hrun := Lexer.lexFrom_run (L := scanner) (p := q) (P := fun w => ∃ es, w = d :: es) (by
    rintro w c ⟨es, rfl⟩ hc
    exact ⟨blank_of_isIdentChar (hq c hc), (hgo es c).trans hc, es ++ [c], rfl⟩) (u := ds) (w := [d]) ⟨[], rfl⟩ hds r
  have hstart : scanner.lex (d :: ds ++ r) = scanner.lexFrom [d] (ds ++ r) := by
    rw [Lexer.lex, List.cons_append, Lexer.lexFrom, if_neg (by simp [blank_of_isIdentChar hd]), List.isEmpty_nil, Bool.true_or,
      if_pos rfl, List.nil_append]
  rw [hstart, hrun, List.singleton_append, List.singleton_append, Lexer.lexFrom_of_stops (List.cons_ne_nil _ _)]
  intro c hc
  refine .inr ?_
  rw [hgo]
  by_contra hqc
  have := hr c hc
  rw [hq c (by simpa using hqc)] at this
  cases this

theorem scans_digits (n : Nat) : scanner.Scans isIdentChar (Words.digits n) [Words.digits n] := by
  obtain ⟨d, ds, h, hd⟩ := Words.exists_digits n
  have hall : ∀ c ∈ Words.digits n, c.isDigit = true := fun _ => Words.isDigit_of_mem_digits
  rw [h] at hall ⊢
  refine scans_run Char.isDigit (fun _ => isIdentChar_of_isDigit) (fun es c => ?_) (isIdentChar_of_isDigit hd)
    fun c hc => hall c (List.mem_cons_of_mem _ hc)
  simp [scanner, hd]

/-- An identifier begins like one and goes on with the characters of one. -/
theorem exists_of_isIdent {s : String} (h : isIdent s = true) : ∃ d ds, s.toList = d :: ds ∧ d.isDigit = false ∧
    (isLetter d || d == '_') = true ∧ isIdentChar d = true ∧ ∀ c ∈ ds, isIdentChar c = true := by
  unfold isIdent at h
  rw [Bool.and_eq_true] at h
  obtain ⟨-, h⟩ := h
  match hs : s.toList with
  | [] =>
    rw [hs] at h
    cases h
  | [c] =>
    rw [hs] at h
    obtain ⟨h₁, h₂, -⟩ := isLetter_props h
    exact ⟨c, [], rfl, h₂, by rw [show isLetter c = true from h, Bool.true_or], h₁, nofun⟩
  | c :: c' :: cs =>
    rw [hs] at h
    simp only [Bool.and_eq_true, Bool.or_eq_true, beq_iff_eq] at h
    obtain ⟨h, hcs⟩ := h
    rcases h with ⟨h, h'⟩ | ⟨rfl, h'⟩
    · obtain ⟨h₁, h₂, -⟩ := isLetter_props h
      exact ⟨c, c' :: cs, rfl, h₂, by rw [h, Bool.true_or], h₁, List.forall_mem_cons.2 ⟨h', List.all_eq_true.1 hcs⟩⟩
    · exact ⟨'_', c' :: cs, rfl, rfl, rfl, rfl, List.forall_mem_cons.2 ⟨(isLetter_props h').1, List.all_eq_true.1 hcs⟩⟩

theorem scans_ident {s : String} (h : isIdent s = true) : scanner.Scans isIdentChar s.toList [s.toList] := by
  obtain ⟨d, ds, hs, hdigit, hstart, hd, hds⟩ := exists_of_isIdent h
  rw [hs]
  refine scans_run isIdentChar (fun _ => id) (fun es c => ?_) hd hds
  simp only [scanner, hdigit, hstart, Bool.false_eq_true, if_false, if_true]

/-! ## Symbols -/

/-- A symbol that no longer one begins with, behind blanks or in front of them. -/
theorem separates_of {s : List Char} {ls : List (List Char)} (hl : ∀ r, scanner.lex (s ++ r) = ls ++ scanner.lex r)
    (hs : s.head?.map isIdentChar = some false) : scanner.Separates isIdentChar s ls := by
  cases s with
  | nil => cases hs
  | cons c s => exact ⟨hl, (Words.stops_cons ..).2 (Option.some.inj hs), List.cons_ne_nil _ _⟩

theorem separates_blank : scanner.Separates isIdentChar [' '] [] := separates_of (fun _ => rfl) (by decide)

theorem lex_symbol {c : Char} (hb : scanner.blank c = false) (hgo : ∀ d, scanner.goesOn [c] d = false) (r : List Char) :
    scanner.lex (c :: r) = [c] :: scanner.lex r := by
  rw [Lexer.lex, Lexer.lexFrom, hb, if_neg Bool.false_ne_true, List.isEmpty_nil, Bool.true_or, if_pos rfl, List.nil_append,
    Lexer.lexFrom_of_stops (List.cons_ne_nil _ _) fun d _ => .inr (hgo d)]

/-- The brackets and the comma are lexemes wherever they stand. -/
theorem separates_opens : scanner.Separates isIdentChar ['('] [['(']] := separates_of (lex_symbol rfl fun _ => rfl) rfl

theorem separates_closes : scanner.Separates isIdentChar [')'] [[')']] := separates_of (lex_symbol rfl fun _ => rfl) rfl

theorem separates_opensIndex : scanner.Separates isIdentChar ['['] [['[']] := separates_of (lex_symbol rfl fun _ => rfl) rfl

theorem separates_closesIndex : scanner.Separates isIdentChar [']'] [[']']] := separates_of (lex_symbol rfl fun _ => rfl) rfl

theorem separates_comma : scanner.Separates isIdentChar ", ".toList [[',']] := separates_of (fun _ => rfl) rfl

theorem separates_plus : scanner.Separates isIdentChar " + ".toList [['+']] := separates_of (fun _ => rfl) rfl

theorem separates_eq : scanner.Separates isIdentChar " = ".toList [['=']] := separates_of (fun _ => rfl) rfl

theorem separates_lt : scanner.Separates isIdentChar " < ".toList [['<']] := separates_of (fun _ => rfl) rfl

theorem separates_lte : scanner.Separates isIdentChar " <= ".toList ["<=".toList] := separates_of (fun _ => rfl) rfl

theorem separates_and : scanner.Separates isIdentChar " && ".toList ["&&".toList] := separates_of (fun _ => rfl) rfl

theorem separates_union : scanner.Separates isIdentChar " union ".toList ["union".toList] := separates_of (fun _ => rfl) rfl

theorem separates_colon : scanner.Separates isIdentChar " : ".toList [[':']] := separates_of (fun _ => rfl) rfl

theorem separates_arrow : scanner.Separates isIdentChar "] -> [".toList [[']'], "->".toList, ['[']] :=
  separates_of (fun r => congrArg (fun ls => [']'] :: "->".toList :: ls) (lex_symbol (c := '[') rfl (fun _ => rfl) r)) rfl

/-! ## Printed texts -/

/-- A plus right behind an equals sign. -/
def unaryPlus : Flaw Char where
  has s := ¬ s.IsChain (fun a b => ¬ (a = '=' ∧ b = '+'))
  around _ _ _ h h' := h (List.isChain_append.1 (List.isChain_append.1 h').2.1).1

/-- A text is as it is meant where the property holds, and has a flaw or lacks something otherwise. -/
abbrev TextReads (P : Prop) (s : String) (ls : List (List Char)) : Prop := scanner.Reads isIdentChar unaryPlus P s.toList ls

namespace TextReads

variable {P Q : Prop} {s t q : String} {ls ms ns : List (List Char)}

/-- Two texts with a separator between them. -/
theorem append (h : TextReads P s ls) (hq : scanner.Separates isIdentChar q.toList ns) (h' : TextReads Q t ms) :
    TextReads (P ∧ Q) (s ++ (q ++ t)) (ls ++ (ns ++ ms)) := by
  unfold TextReads
  rw [String.toList_append, String.toList_append]
  exact Reads.append h hq h'

/-- A text between others that are not part of its lexemes. -/
theorem between (h : TextReads P s ls) (ht : scanner.Leads t.toList ms) (hq : scanner.Separates isIdentChar q.toList ns) :
    TextReads P (t ++ (s ++ q)) (ms ++ (ls ++ ns)) := by
  unfold TextReads
  rw [String.toList_append, String.toList_append]
  exact ht.reads_append (h.append_separates hq)

theorem behind (h : TextReads P s ls) (ht : scanner.Leads t.toList ms) : TextReads P (t ++ s) (ms ++ ls) := by
  unfold TextReads
  rw [String.toList_append]
  exact ht.reads_append h

end TextReads

theorem textReads_nat (n : Nat) : TextReads True (toString n) [Words.digits n] := (scans_digits n).reads

theorem textReads_ident {s : String} (h : isIdent s = true) : TextReads True s [s.toList] := (scans_ident h).reads

/-- A minus is a lexeme when the text does not go on with the rest of an arrow. -/
theorem lex_minus {s : List Char} (hs : ∀ c ∈ s.head?, c ≠ '>') : scanner.lex ('-' :: s) = ['-'] :: scanner.lex s := by
  refine Lexer.lexFrom_of_stops (w := ['-']) (List.cons_ne_nil _ _) fun c hc => .inr ?_
  show longSymbols.contains ['-', c] = false
  by_contra hgo
  rw [Bool.not_eq_false, List.contains_iff_mem] at hgo
  simp [longSymbols] at hgo
  exact hs c hc hgo

/-- A text with a sign in front of it. -/
theorem TextReads.minus {P : Prop} {s : String} {ls : List (List Char)} (h : TextReads P s ls)
    (hs : ∃ c cs, s.toList = c :: cs ∧ c ≠ '>') : TextReads P ("-" ++ s) (['-'] :: ls) := by
  obtain ⟨c, cs, hcs, hc⟩ := hs
  have htext : ("-" ++ s).toList = '-' :: s.toList := by rw [String.toList_append]; rfl
  have hink : scanner.ink ('-' :: s.toList) = ['-'] ++ scanner.ink s.toList := rfl
  unfold TextReads
  rw [htext]
  rcases h with ⟨hP, h⟩ | ⟨hP, h⟩
  · refine .inl ⟨hP, fun r hr => ?_⟩
    rw [List.cons_append, lex_minus, h r hr, List.cons_append]
    rw [hcs]
    exact fun d hd => Option.some.inj hd ▸ hc
  · refine .inr ⟨hP, h.imp (fun hf => ?_) fun hlt => ?_⟩
    · rw [hink]
      exact Lexer.Flaw.append_left hf _
    · rw [hink, List.flatten_cons, List.length_append, List.length_append]
      exact Nat.add_lt_add_left hlt 1

theorem exists_digit (n : Nat) : ∃ c cs, (toString n).toList = c :: cs ∧ c ≠ '>' := by
  obtain ⟨d, ds, hd, hdigit⟩ := Words.exists_digits n
  refine ⟨d, ds, hd, ?_⟩
  rintro rfl
  cases hdigit

/-- The lexemes of a printed integer. -/
def intLexemes (c : Int) : List (List Char) := if c < 0 then [['-'], Words.digits c.natAbs] else [Words.digits c.natAbs]

theorem textReads_int (c : Int) : TextReads True (toString c) (intLexemes c) := by
  cases c with
  | ofNat n => exact textReads_nat n
  | negSucc n =>
    rw [intLexemes, if_pos (Int.negSucc_lt_zero n)]
    exact (textReads_nat (n + 1)).minus (exists_digit (n + 1))

/-! ## Lists of printed texts -/

/-- How much there is in the texts of a list. -/
def inkSum (texts : List String) : Nat := (texts.map fun s => (scanner.ink s.toList).length).sum

/-- How much there is in lists of lexemes. -/
def lexemesSum (lss : List (List (List Char))) : Nat := (lss.map fun ls => ls.flatten.length).sum

/-- Each text of a list is as it is meant where the property holds, and one has a flaw or they lack something otherwise. -/
def ListReads (P : Prop) (texts : List String) (lss : List (List (List Char))) : Prop :=
  texts.length = lss.length ∧
    ((P ∧ List.Forall₂ (fun s ls => scanner.Scans isIdentChar s.toList ls) texts lss) ∨
      (¬ P ∧ ((∃ s ∈ texts, unaryPlus.has (scanner.ink s.toList)) ∨ inkSum texts < lexemesSum lss)))

@[simp] theorem inkSum_cons (s : String) (ss : List String) :
    inkSum (s :: ss) = (scanner.ink s.toList).length + inkSum ss := List.sum_cons

@[simp] theorem lexemesSum_cons (ls : List (List Char)) (lss : List (List (List Char))) :
    lexemesSum (ls :: lss) = ls.flatten.length + lexemesSum lss := List.sum_cons

/-- How long lexemes are with separators between them. -/
theorem length_separated (l : List Char) (ls : List (List Char)) (lss : List (List (List Char))) :
    (separated l (ls :: lss)).flatten.length = ls.flatten.length + lexemesSum lss + lss.length * l.length := by
  induction lss generalizing ls with
  | nil => simp [separated, lexemesSum]
  | cons ls' lss ih =>
    rw [separated, List.flatten_append, List.length_append, List.flatten_cons, List.length_append, ih, lexemesSum_cons,
      List.length_cons]
    ring

theorem length_ink_joinWith {sep : String} {l : List Char} (hsep : scanner.ink sep.toList = l) (s : String) (ss : List String) :
    (scanner.ink (joinWith sep (s :: ss)).toList).length =
      (scanner.ink s.toList).length + inkSum ss + ss.length * l.length := by
  induction ss generalizing s with
  | nil => simp [joinWith, inkSum]
  | cons s' ss ih =>
    rw [joinWith, String.toList_append, String.toList_append, Lexer.ink_append, Lexer.ink_append, hsep, List.length_append,
      List.length_append, ih, inkSum_cons, List.length_cons]
    ring

/-- A text with a flaw has it among others. -/
theorem flawed_joinWith {sep : String} : ∀ {ss : List String}, (∃ s ∈ ss, unaryPlus.has (scanner.ink s.toList)) →
    unaryPlus.has (scanner.ink (joinWith sep ss).toList)
  | [], ⟨_, h, _⟩ => by cases h
  | [s], ⟨t, h, hf⟩ => by
    rw [List.mem_singleton.1 h] at hf
    exact hf
  | s :: s' :: ss, ⟨t, h, hf⟩ => by
    rw [joinWith, String.toList_append, String.toList_append, Lexer.ink_append, Lexer.ink_append]
    rcases List.mem_cons.1 h with rfl | h
    · exact Lexer.Flaw.append_right hf _
    · exact Lexer.Flaw.append_left (Lexer.Flaw.append_left (flawed_joinWith ⟨t, h, hf⟩) _) _

namespace ListReads

variable {P Q : Prop} {s : String} {ls : List (List Char)} {ss : List String} {lss : List (List (List Char))}

theorem nil : ListReads True [] [] := ⟨rfl, .inl ⟨trivial, .nil⟩⟩

theorem le (h : ListReads P ss lss) :
    (∃ s ∈ ss, unaryPlus.has (scanner.ink s.toList)) ∨ inkSum ss ≤ lexemesSum lss := by
  obtain ⟨-, ⟨-, h⟩ | ⟨-, h⟩⟩ := h
  · refine .inr ?_
    induction h with
    | nil => exact le_rfl
    | cons h _ ih =>
      rw [inkSum_cons, lexemesSum_cons, h.ink]
      exact Nat.add_le_add_left ih _
  · exact h.imp_right le_of_lt

theorem cons (h : TextReads P s ls) (hs : ListReads Q ss lss) : ListReads (P ∧ Q) (s :: ss) (ls :: lss) := by
  refine ⟨congrArg (· + 1) hs.1, ?_⟩
  have hle := h.le
  have hles := hs.le
  rw [inkSum_cons, lexemesSum_cons]
  rcases h with ⟨hP, h⟩ | ⟨hP, h⟩
  · rcases hs.2 with ⟨hQ, hs⟩ | ⟨hQ, hs⟩
    · exact .inl ⟨⟨hP, hQ⟩, .cons h hs⟩
    · refine .inr ⟨fun h => hQ h.2, ?_⟩
      rcases hs with ⟨t, ht, hf⟩ | hs
      · exact .inl ⟨t, List.mem_cons_of_mem _ ht, hf⟩
      · exact hle.imp (fun hf => ⟨s, List.mem_cons_self, hf⟩) fun hle => by omega
  · refine .inr ⟨fun h => hP h.1, ?_⟩
    rcases h with hf | h
    · exact .inl ⟨s, List.mem_cons_self, hf⟩
    · exact hles.imp (fun ⟨t, ht, hf⟩ => ⟨t, List.mem_cons_of_mem _ ht, hf⟩) fun hle => by omega

theorem congr (h : ListReads P ss lss) (hpq : P ↔ Q) : ListReads Q ss lss := by
  rwa [ListReads, ← hpq]

/-- Printed texts with a separator between each two. -/
theorem joinWith {sep : String} {l : List Char} (hsep : scanner.Separates isIdentChar sep.toList [l]) (h : ListReads P ss lss) :
    TextReads P (joinWith sep ss) (separated l lss) := by
  obtain ⟨hlen, ⟨hP, h⟩ | ⟨hP, h⟩⟩ := h
  · refine .inl ⟨hP, ?_⟩
    induction h with
    | nil => exact Lexer.leads_nil.scans
    | @cons s ls ss lss h hs ih =>
      cases hs with
      | nil => exact h
      | cons h' hs =>
        have hlead := (h.leads_append hsep).scans_append (ih (Nat.succ.inj hlen))
        rw [List.append_assoc, List.append_assoc, ← String.toList_append, ← String.toList_append] at hlead
        exact hlead
  · refine .inr ⟨hP, h.imp flawed_joinWith fun hlt => ?_⟩
    have hink : scanner.ink sep.toList = l := by rw [hsep.leads.ink, List.flatten_singleton]
    match ss, lss, hlen with
    | [], [], _ => exact absurd hlt (lt_irrefl 0)
    | s :: ss, ls :: lss, hlen =>
      have hlen : ss.length = lss.length := Nat.succ.inj hlen
      rw [length_ink_joinWith hink, length_separated, hlen]
      rw [inkSum_cons, lexemesSum_cons] at hlt
      omega

end ListReads

/-! ## What is written -/

theorem ne_of_isIdentChar {c : Char} (h : isIdentChar c = true) : c ≠ '=' ∧ c ≠ '+' := by
  constructor
  · rintro rfl
    cases h
  · rintro rfl
    cases h

theorem ident_chars {s : String} (h : isIdent s = true) :
    (∃ c cs, s.toList = c :: cs ∧ c ≠ '+') ∧ ∀ c ∈ s.toList, c ≠ '=' := by
  obtain ⟨d, ds, hs, -, -, hd, hds⟩ := exists_of_isIdent h
  refine ⟨⟨d, ds, hs, (ne_of_isIdentChar hd).2⟩, fun c hc => ?_⟩
  rw [hs] at hc
  rcases List.mem_cons.1 hc with rfl | hc
  · exact (ne_of_isIdentChar hd).1
  · exact (ne_of_isIdentChar (hds c hc)).1

theorem digits_chars (n : Nat) : (∃ c cs, Words.digits n = c :: cs ∧ c ≠ '+') ∧ ∀ c ∈ Words.digits n, c ≠ '=' := by
  have hdigit : ∀ c ∈ Words.digits n, c ≠ '=' ∧ c ≠ '+' := fun c hc =>
    ne_of_isIdentChar (isIdentChar_of_isDigit (Words.isDigit_of_mem_digits hc))
  obtain ⟨d, ds, hd, -⟩ := Words.exists_digits n
  exact ⟨⟨d, ds, hd, (hdigit d (hd ▸ List.mem_cons_self)).2⟩, fun c hc => (hdigit c hc).1⟩

mutual
/-- A written expression has no comparison in it, and no plus in front. -/
theorem ExpTree.chars : ∀ e : ExpTree,
    (∃ c cs, e.lexemes.flatten = c :: cs ∧ c ≠ '+') ∧ ∀ c ∈ e.lexemes.flatten, c ≠ '='
  | .int value => by
    rw [ExpTree.lexemes, List.flatten_singleton]
    exact digits_chars value
  | .id name => by
    rw [ExpTree.lexemes, List.flatten_singleton]
    exact ident_chars name.2
  | .func name args index => by
    obtain ⟨⟨c, cs, hc, hne⟩, hname⟩ := ident_chars name.2
    have hargs := ExpTrees.chars args
    cases index with
    | none =>
      refine ⟨⟨c, _, by rw [ExpTree.lexemes, List.flatten_cons, hc]; rfl, hne⟩, fun d hd => ?_⟩
      simp only [ExpTree.lexemes, List.flatten_cons, List.flatten_append, List.flatten_nil, List.mem_append, List.mem_cons,
        List.not_mem_nil, or_false] at hd
      rcases hd with hd | rfl | hd | rfl
      · exact hname d hd
      · decide
      · exact hargs d hd
      · decide
    | some j =>
      refine ⟨⟨c, _, by rw [ExpTree.lexemes, List.flatten_cons, hc]; rfl, hne⟩, fun d hd => ?_⟩
      simp only [ExpTree.lexemes, List.flatten_cons, List.flatten_append, List.flatten_nil, List.mem_append, List.mem_cons,
        List.not_mem_nil, or_false] at hd
      rcases hd with hd | rfl | hd | rfl | rfl | hd | rfl
      · exact hname d hd
      · decide
      · exact hargs d hd
      · decide
      · decide
      · exact (digits_chars j).2 d hd
      · decide
  | .paren list => by
    refine ⟨⟨'(', _, rfl, by decide⟩, fun d hd => ?_⟩
    simp only [ExpTree.lexemes, List.flatten_cons, List.flatten_append, List.flatten_nil, List.mem_append, List.mem_cons,
      List.not_mem_nil, or_false] at hd
    rcases hd with rfl | hd | rfl
    · decide
    · exact ExpTrees.chars list d hd
    · decide
  | .unop e => by
    refine ⟨⟨'-', _, rfl, by decide⟩, fun d hd => ?_⟩
    rcases List.mem_cons.1 hd with rfl | hd
    · decide
    · exact (ExpTree.chars e).2 d hd
  | .plus e e' | .dash e e' => by
    obtain ⟨⟨c, cs, hc, hne⟩, he⟩ := ExpTree.chars e
    refine ⟨⟨c, _, by rw [ExpTree.lexemes, List.flatten_append, hc]; rfl, hne⟩, fun d hd => ?_⟩
    rw [ExpTree.lexemes, List.flatten_append, List.flatten_cons, List.mem_append, List.mem_append, List.mem_singleton] at hd
    rcases hd with hd | rfl | hd
    · exact he d hd
    · decide
    · exact (ExpTree.chars e').2 d hd
  | .intMult n e => by
    obtain ⟨⟨c, cs, hc, hne⟩, hn⟩ := digits_chars n
    refine ⟨⟨c, _, by rw [ExpTree.lexemes, List.flatten_cons, hc]; rfl, hne⟩, fun d hd => ?_⟩
    rw [ExpTree.lexemes, List.flatten_cons, List.mem_append] at hd
    exact hd.elim (hn d) ((ExpTree.chars e).2 d)

theorem ExpTrees.chars : ∀ list : ExpTrees, ∀ c ∈ list.lexemes.flatten, c ≠ '='
  | .one e => (ExpTree.chars e).2
  | .cons e list => by
    intro c hc
    rw [ExpTrees.lexemes, List.flatten_append, List.flatten_cons, List.mem_append, List.mem_append, List.mem_singleton] at hc
    rcases hc with hc | rfl | hc
    · exact (ExpTree.chars e).2 c hc
    · decide
    · exact ExpTrees.chars list c hc
end

/-- No plus is right behind an equals sign, nor would one be that is put behind. -/
structure Tidy (s : List Char) : Prop where
  isChain : s.IsChain (fun a b => ¬ (a = '=' ∧ b = '+'))
  getLast : ∀ c ∈ s.getLast?, c ≠ '='

namespace Tidy

variable {s t : List Char} {ls : List (List Char)} {lss : List (List (List Char))}

theorem append (hs : Tidy s) (ht : Tidy t) : Tidy (s ++ t) := by
  refine ⟨List.isChain_append.2 ⟨hs.isChain, ht.isChain, fun a ha b _ h => hs.getLast a ha h.1⟩, fun c hc => ?_⟩
  rw [List.getLast?_append] at hc
  cases h : t.getLast? with
  | none =>
    rw [h] at hc
    exact hs.getLast c hc
  | some d =>
    rw [h] at hc
    exact ht.getLast c (h ▸ hc)

theorem of_forall (h : ∀ c ∈ s, c ≠ '=') : Tidy s := by
  refine ⟨?_, fun c hc => h c (List.mem_of_getLast? hc)⟩
  induction s with
  | nil => exact .nil
  | cons c s ih =>
    obtain ⟨hc, hs⟩ := List.forall_mem_cons.1 h
    exact (ih hs).cons fun d _ h => hc h.1

theorem of_all (h : s.all (· != '=') = true) : Tidy s := of_forall (by simpa using h)

theorem nil : Tidy [] := of_forall nofun

/-- Lists of lexemes with a lexeme between each two. -/
theorem separated {l : List Char} (hl : Tidy l) (h : ∀ ls ∈ lss, Tidy ls.flatten) : Tidy (separated l lss).flatten := by
  induction lss with
  | nil => exact nil
  | cons ls lss ih =>
    obtain ⟨hls, hlss⟩ := List.forall_mem_cons.1 h
    cases lss with
    | nil => exact hls
    | cons ls' lss =>
      rw [IEGen.separated, List.flatten_append, List.flatten_cons]
      exact hls.append (hl.append (ih hlss))

end Tidy

/-- A comparison. -/
abbrev IsComparison (op : List Char) : Prop := op ∈ [['='], ['<'], ['>'], "<=".toList, ">=".toList]

/-- An expression and a comparison in front of what begins with no plus. -/
theorem tidy_compared {op : List Char} (hop : IsComparison op) (e : ExpTree) {rs : List (List Char)} (hr : Tidy rs.flatten)
    (hhead : ∃ c cs, rs.flatten = c :: cs ∧ c ≠ '+') : Tidy (e.lexemes ++ op :: rs).flatten := by
  obtain ⟨c, cs, hc, hne⟩ := hhead
  have htail : Tidy (op ++ rs.flatten) := by
    rw [hc] at hr ⊢
    have heq : Tidy ('=' :: (c :: cs)) := by
      refine ⟨hr.isChain.cons fun d hd h => hne (Option.some.inj hd ▸ h.2), fun d hd => ?_⟩
      rw [List.getLast?_cons_cons] at hd
      exact hr.getLast d hd
    simp only [IsComparison, List.mem_cons, List.not_mem_nil, or_false] at hop
    rcases hop with rfl | rfl | rfl | rfl | rfl
    · exact heq
    · exact (Tidy.of_all (s := ['<']) (by decide)).append hr
    · exact (Tidy.of_all (s := ['>']) (by decide)).append hr
    · exact (Tidy.of_all (s := ['<']) (by decide)).append heq
    · exact (Tidy.of_all (s := ['>']) (by decide)).append heq
  rw [List.flatten_append, List.flatten_cons]
  exact (Tidy.of_forall (ExpTree.chars e).2).append htail

theorem ConstraintTree.tidy (k : ConstraintTree) : Tidy k.lexemes.flatten := by
  have hone : ∀ {op : List Char}, IsComparison op → ∀ e e' : ExpTree, Tidy (e.lexemes ++ op :: e'.lexemes).flatten :=
    fun hop e e' => tidy_compared hop e (.of_forall (ExpTree.chars e').2) (ExpTree.chars e').1
  have htwo : ∀ {op op' : List Char}, IsComparison op → IsComparison op' → ∀ e e' e'' : ExpTree,
      Tidy (e.lexemes ++ op :: (e'.lexemes ++ op' :: e''.lexemes)).flatten := by
    intro op op' hop hop' e e' e''
    obtain ⟨c, cs, hc, hne⟩ := (ExpTree.chars e').1
    exact tidy_compared hop e (hone hop' e' e'') ⟨c, _, by rw [List.flatten_append, hc]; rfl, hne⟩
  have heq : IsComparison ['='] := by decide
  have hlt : IsComparison ['<'] := by decide
  have hgt : IsComparison ['>'] := by decide
  have hle : IsComparison "<=".toList := by decide
  have hge : IsComparison ">=".toList := by decide
  cases k with
  | eq e e' => exact hone heq e e'
  | lt e e' => exact hone hlt e e'
  | lte e e' => exact hone hle e e'
  | gt e e' => exact hone hgt e e'
  | gte e e' => exact hone hge e e'
  | rangeLteLt e e' e'' => exact htwo hle hlt e e' e''
  | rangeLtLte e e' e'' => exact htwo hlt hle e e' e''
  | rangeLteLte e e' e'' => exact htwo hle hle e e' e''
  | rangeLtLt e e' e'' => exact htwo hlt hlt e e' e''

theorem tidy_tuple (es : List TupleElemTree) : Tidy (tupleLexemes es).flatten := by
  unfold tupleLexemes
  split
  · exact .nil
  · have helem : ∀ e : TupleElemTree, Tidy e.lexeme := by
      intro e
      cases e with
      | var name => exact .of_forall (ident_chars name.2).2
      | const n => exact .of_forall (digits_chars n).2
    rw [List.flatten_cons, List.flatten_append]
    refine (Tidy.of_all (by decide)).append ((Tidy.separated (.of_all (by decide)) fun ls hls => ?_).append
      (.of_all (by decide)))
    obtain ⟨e, -, rfl⟩ := List.mem_map.1 hls
    rw [List.flatten_singleton]
    exact helem e

theorem tidy_body {tuples : List (List Char)} (ht : Tidy tuples.flatten) (ks : List ConstraintTree) :
    Tidy (bodyLexemes tuples ks).flatten := by
  unfold bodyLexemes
  rw [List.flatten_cons, List.flatten_append, List.flatten_cons, List.flatten_append]
  refine (Tidy.of_all (by decide)).append (ht.append ((Tidy.of_all (by decide)).append
    ((Tidy.separated (.of_all (by decide)) fun ls hls => ?_).append (.of_all (by decide)))))
  obtain ⟨k, -, rfl⟩ := List.mem_map.1 hls
  exact k.tidy

theorem SetBody.tidy (b : SetBody) : Tidy b.lexemes.flatten := tidy_body (tidy_tuple b.tuple) b.constraints

theorem RelBody.tidy (b : RelBody) : Tidy b.lexemes.flatten := by
  refine tidy_body ?_ b.constraints
  rw [List.flatten_append, List.flatten_cons]
  exact (tidy_tuple b.inTuple).append ((Tidy.of_all (by decide)).append (tidy_tuple b.outTuple))

/-- No plus is right behind an equals sign in a union. -/
theorem tidy_union {bodies : List (List (List Char))} (h : ∀ b ∈ bodies, Tidy b.flatten) : ¬ unaryPlus.has (unionLexemes bodies).flatten :=
  not_not.2 (Tidy.separated (.of_all (by decide)) h).isChain

end IEGen
