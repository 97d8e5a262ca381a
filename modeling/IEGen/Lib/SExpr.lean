import IEGen.Lib.Words
import Mathlib

/-!
# S-expressions of linear arithmetic

The formulas that a solver reads: numerals, symbols and lists, cut from a text at blanks and brackets (`lex`). A text is read
as one sequence of S-expressions at most (`seqTokens_injective`). Their values are those of integer arithmetic with
uninterpreted symbols and functions.
-/

/-- An S-expression. -/
inductive SExpr where
  | num (n : Int)
  | sym (s : String)
  | list (xs : List SExpr)

namespace SExpr

/-! ## Texts -/

/-- A bracket, or a word between brackets and blanks. -/
inductive Token where
  | opens
  | closes
  | word (w : List Char)

/-- The word read so far, when there is one. -/
def wordToken (w : List Char) : List Token := if w = [] then [] else [.word w]

/-- Brackets and blanks end a word. -/
def isDelimiter (c : Char) : Bool := c == ' ' || c == '(' || c == ')'

/-- What a delimiter stands for. -/
def delimiterToken (c : Char) : List Token := if c = '(' then [.opens] else if c = ')' then [.closes] else []

/-- The tokens of a text behind a word. -/
def lexFrom (w : List Char) : List Char → List Token
  | [] => wordToken w
  | c :: cs => if isDelimiter c then wordToken w ++ (delimiterToken c ++ lexFrom [] cs) else lexFrom (w ++ [c]) cs

/-- The tokens of a text. -/
def lex (cs : List Char) : List Token := lexFrom [] cs

@[simp] theorem lex_nil : lex [] = [] := rfl

theorem lexFrom_append {c : Char} (hc : isDelimiter c = true) (w u v : List Char) :
    lexFrom w (u ++ c :: v) = lexFrom w u ++ (delimiterToken c ++ lex v) := by
  induction u generalizing w with
  | nil => simp [lexFrom, hc, lex]
  | cons d u ih =>
    simp only [List.cons_append, lexFrom]
    split
    · rw [ih]; simp
    · exact ih _

/-- A delimiter separates the tokens before it from those behind it. -/
theorem lex_append {c : Char} (hc : isDelimiter c = true) (u v : List Char) :
    lex (u ++ c :: v) = lex u ++ (delimiterToken c ++ lex v) := lexFrom_append hc [] u v

theorem lexFrom_word {w u : List Char} (h : ∀ c ∈ u, isDelimiter c = false) : lexFrom w u = wordToken (w ++ u) := by
  induction u generalizing w with
  | nil => rw [List.append_nil]; rfl
  | cons c u ih =>
    rw [lexFrom, if_neg (by simp [h c List.mem_cons_self]), ih fun d hd => h d (List.mem_cons_of_mem _ hd)]
    simp

/-- A word without delimiters is one token. -/
theorem lex_word {w : List Char} (hw : w ≠ []) (h : ∀ c ∈ w, isDelimiter c = false) : lex w = [.word w] := by
  rw [lex, lexFrom_word h, List.nil_append, wordToken, if_neg hw]

/-! ## Reading -/

mutual
/-- The tokens of an S-expression. -/
def tokens : SExpr → List Token
  | .num n => [.word (toString n).toList]
  | .sym s => [.word s.toList]
  | .list xs => .opens :: (seqTokens xs ++ [.closes])

/-- The tokens of a sequence of S-expressions. -/
def seqTokens : List SExpr → List Token
  | [] => []
  | x :: xs => x.tokens ++ seqTokens xs
end

mutual
/-- No symbol reads as a numeral. -/
def Legible : SExpr → Prop
  | .num _ => True
  | .sym s => ∀ n : Int, s ≠ toString n
  | .list xs => SeqLegible xs

def SeqLegible : List SExpr → Prop
  | [] => True
  | x :: xs => x.Legible ∧ SeqLegible xs
end

@[simp] theorem seqTokens_append (xs ys : List SExpr) : seqTokens (xs ++ ys) = seqTokens xs ++ seqTokens ys := by
  induction xs with
  | nil => rfl
  | cons x xs ih => simp [seqTokens, ih]

theorem seqLegible_append {xs ys : List SExpr} : SeqLegible (xs ++ ys) ↔ SeqLegible xs ∧ SeqLegible ys := by
  induction xs with
  | nil => simp [SeqLegible]
  | cons x xs ih => simp [SeqLegible, ih, and_assoc]

mutual
/-- An S-expression is read off in one way. -/
theorem tokens_unique : ∀ {x y : SExpr} {r r' : List Token}, x.Legible → y.Legible → x.tokens ++ r = y.tokens ++ r' →
    x = y ∧ r = r'
  | .num m, .num n, _, _, _, _, h => by
    obtain ⟨hw, hr⟩ := List.cons.inj h
    exact ⟨congrArg _ (Words.toString_int_injective (String.toList_inj.1 (Token.word.inj hw))), hr⟩
  | .sym s, .sym t, _, _, _, _, h => by
    obtain ⟨hw, hr⟩ := List.cons.inj h
    exact ⟨congrArg _ (String.toList_inj.1 (Token.word.inj hw)), hr⟩
  | .num m, .sym t, _, _, _, ht, h => absurd (String.toList_inj.1 (Token.word.inj (List.cons.inj h).1)).symm (ht m)
  | .sym s, .num n, _, _, hs, _, h => absurd (String.toList_inj.1 (Token.word.inj (List.cons.inj h).1)) (hs n)
  | .list xs, .list ys, r, r', hx, hy, h => by
    have htail : seqTokens xs ++ .closes :: r = seqTokens ys ++ .closes :: r' := by
      simpa [tokens] using h
    obtain ⟨rfl, hr⟩ := seqTokens_unique hx hy htail
    exact ⟨rfl, hr⟩
  | .num _, .list _, _, _, _, _, h | .sym _, .list _, _, _, _, _, h | .list _, .num _, _, _, _, _, h
  | .list _, .sym _, _, _, _, _, h => by simp [tokens] at h

theorem seqTokens_unique : ∀ {xs ys : List SExpr} {r r' : List Token}, SeqLegible xs → SeqLegible ys →
    seqTokens xs ++ .closes :: r = seqTokens ys ++ .closes :: r' → xs = ys ∧ r = r'
  | [], [], _, _, _, _, h => ⟨rfl, (List.cons.inj h).2⟩
  | x :: xs, y :: ys, r, r', hx, hy, h => by
    have hall : x.tokens ++ (seqTokens xs ++ .closes :: r) = y.tokens ++ (seqTokens ys ++ .closes :: r') := by
      simpa [seqTokens] using h
    obtain ⟨rfl, hrest⟩ := tokens_unique hx.1 hy.1 hall
    obtain ⟨rfl, hr⟩ := seqTokens_unique hx.2 hy.2 hrest
    exact ⟨rfl, hr⟩
  | [], y :: ys, _, _, _, _, h => by
    cases y <;> simp [seqTokens, tokens] at h
  | x :: xs, [], _, _, _, _, h => by
    cases x <;> simp [seqTokens, tokens] at h
end

/-- The tokens of a text are those of one sequence of S-expressions. -/
theorem seqTokens_injective {xs ys : List SExpr} (hx : SeqLegible xs) (hy : SeqLegible ys) (h : seqTokens xs = seqTokens ys) :
    xs = ys :=
  (seqTokens_unique hx hy (congrArg (· ++ [.closes]) h)).1

/-! ## Values -/

/-- Integers for the symbols, and integer functions. -/
structure Assignment where
  vars : String → Int
  funcs : String → List Int → Int

section Value

variable (A : Assignment)

mutual
/-- The value of a term. -/
def value : SExpr → Int
  | .num n => n
  | .sym s => A.vars s
  | .list (.sym "+" :: xs) => (seqValues xs).sum
  | .list (.sym "*" :: xs) => (seqValues xs).prod
  | .list (.sym f :: xs) => A.funcs f (seqValues xs)
  | .list _ => 0

def seqValues : List SExpr → List Int
  | [] => []
  | x :: xs => x.value :: seqValues xs
end

/-- A comparison of two terms holds. -/
def Holds : SExpr → Prop
  | .list [.sym "=", x, y] => x.value A = y.value A
  | .list [.sym "<=", x, y] => x.value A ≤ y.value A
  | .list [.sym "<", x, y] => x.value A < y.value A
  | _ => False

end Value

end SExpr
