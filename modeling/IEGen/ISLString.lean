import Mathlib.Data.String.Basic
import IEGen.Parts
import IEGen.Named

/-!
# The parameters of a text for ISL

`toISLString` prints the symbolic constants of a union before the union. The iterator of a conjunction goes over a set, so
that each name of a conjunction is there once; the names of the conjunctions are printed one after the other.

* `toISLString_eq` gives the text that is printed, and `parameterList_injective` says that a list of names is read off such
  a text in one way.
* `toISLString_declares_iff`: the list has each symbolic constant once and no tuple variable exactly where no two
  conjunctions share a symbolic constant and none is called like a tuple variable.
-/

namespace IEGen

open Outcome (bind_eq_ok)
open SortedList (build insertUnique Sorted)

/-! ## Iterators over symbols -/

/-- The order of a `std::set<std::string>`. -/
def stringLt (s t : String) : Bool := decide (s < t)

mutual
/-- The names that `getSymbolIterator` inserts for a term. -/
def Term.symbols : Term → List String
  | .symConst _ symbol => [symbol]
  | .ufCall _ _ args _ => argsSymbols args
  | .tupleExp _ exps => argsSymbols exps
  | .tupleVar .. | .constVal _ => []

/-- `Exp::getSymbolIterator` -/
def Exp.getSymbolIterator : Exp → List String
  | .mk _ ts => build stringLt (termsSymbols ts)

/-- What the iterators of arguments go over. -/
def argsSymbols : List Exp → List String
  | [] => []
  | e :: es => e.getSymbolIterator ++ argsSymbols es

/-- What is inserted for the terms, one after the other. -/
def termsSymbols : List Term → List String
  | [] => []
  | t :: ts => t.symbols ++ termsSymbols ts
end

/-- `Conjunction::getSymbolIterator` -/
def Conjunction.getSymbolIterator (c : Conjunction) : List String :=
  build stringLt ((c.equalities ++ c.inequalities).flatMap Exp.getSymbolIterator)

/-! ## Printing -/

/-- One step of the loop over the symbols, with the text and `foundSymbols`. -/
def printSymbol (st : String × Bool) (symbol : String) : String × Bool :=
  if st.2 then (st.1 ++ ", " ++ symbol, true) else (st.1 ++ "[ " ++ symbol, true)

/-- The loop over the conjunctions. -/
def printSymbols (st : String × Bool) (cs : List Conjunction) : String × Bool :=
  cs.foldl (fun st c => c.getSymbolIterator.foldl printSymbol st) st

/-- `SparseConstraints::toISLString` -/
def toISLString (env : Environment) (aritySplit arity : Nat) (cs : List Conjunction) : Except Failure String := do
  let (ss, foundSymbols) := printSymbols ("", false) cs
  let ss := if foundSymbols then ss ++ " ] -> " else ss
  .ok (ss ++ (← prettyPrintString env aritySplit arity cs))

/-- `Set::toISLString` -/
def Set.toISLString (env : Environment) (s : Set) : Except Failure String := IEGen.toISLString env 0 s.arity s.conjunctions

/-! ## Which symbols there are -/

section Mentions

variable (s : String)

mutual
/-- A symbolic constant occurs in a term, at any depth. -/
def Term.hasSymbol : Term → Prop
  | .symConst _ symbol => symbol = s
  | .ufCall _ _ args _ => argsHaveSymbol args
  | .tupleExp _ exps => argsHaveSymbol exps
  | .tupleVar .. | .constVal _ => False

def Exp.hasSymbol : Exp → Prop
  | .mk _ ts => termsHaveSymbol ts

def argsHaveSymbol : List Exp → Prop
  | [] => False
  | e :: es => e.hasSymbol ∨ argsHaveSymbol es

def termsHaveSymbol : List Term → Prop
  | [] => False
  | t :: ts => t.hasSymbol ∨ termsHaveSymbol ts
end

/-- A symbolic constant occurs in a conjunction. -/
def Conjunction.hasSymbol (c : Conjunction) : Prop := ∃ e ∈ c.equalities ++ c.inequalities, e.hasSymbol s

end Mentions

theorem strictWeak_stringLt : SortedList.StrictWeak stringLt := .of_key (f := id) fun _ _ => rfl

theorem mem_build_stringLt {l : List String} {s : String} : s ∈ build stringLt l ↔ s ∈ l := by
  refine ⟨SortedList.mem_of_mem_build, fun h => ?_⟩
  rcases SortedList.build_covers stringLt h with h | ⟨t, ht, htied⟩
  · exact h
  · obtain ⟨h₁, h₂⟩ := htied
    simp only [stringLt, decide_eq_false_iff_not, not_lt] at h₁ h₂
    rwa [le_antisymm h₂ h₁]

theorem nodup_build_stringLt (l : List String) : (build stringLt l).Nodup :=
  (SortedList.sorted_build strictWeak_stringLt l).nodup strictWeak_stringLt

mutual
theorem Term.mem_symbols {s : String} : ∀ {t : Term}, s ∈ t.symbols ↔ t.hasSymbol s
  | .symConst .. => by rw [Term.symbols, List.mem_singleton, Term.hasSymbol, eq_comm]
  | .ufCall .. => mem_argsSymbols
  | .tupleExp .. => mem_argsSymbols
  | .tupleVar .. | .constVal _ => by simp [Term.symbols, Term.hasSymbol]

theorem Exp.mem_getSymbolIterator {s : String} : ∀ {e : Exp}, s ∈ e.getSymbolIterator ↔ e.hasSymbol s
  | .mk .. => mem_build_stringLt.trans mem_termsSymbols

theorem mem_argsSymbols {s : String} : ∀ {es : List Exp}, s ∈ argsSymbols es ↔ argsHaveSymbol s es
  | [] => by simp [argsSymbols, argsHaveSymbol]
  | _ :: _ => by rw [argsSymbols, List.mem_append, Exp.mem_getSymbolIterator, mem_argsSymbols, argsHaveSymbol]

theorem mem_termsSymbols {s : String} : ∀ {ts : List Term}, s ∈ termsSymbols ts ↔ termsHaveSymbol s ts
  | [] => by simp [termsSymbols, termsHaveSymbol]
  | _ :: _ => by rw [termsSymbols, List.mem_append, Term.mem_symbols, mem_termsSymbols, termsHaveSymbol]
end

theorem Conjunction.mem_getSymbolIterator {s : String} {c : Conjunction} : s ∈ c.getSymbolIterator ↔ c.hasSymbol s := by
  rw [getSymbolIterator, mem_build_stringLt, List.mem_flatMap]
  simp only [Exp.mem_getSymbolIterator, hasSymbol]

/-! ## The text -/

/-- The list of names that stands before a union; nothing when there is none. -/
def parameterList : List String → String
  | [] => ""
  | names => "[ " ++ ", ".intercalate names ++ " ] -> "

/-- The names in the order in which they are printed. -/
def islParameters (cs : List Conjunction) : List String := cs.flatMap Conjunction.getSymbolIterator

theorem foldl_printSymbol_true (names : List String) (t n : String) :
    names.foldl printSymbol (t ++ n, true) = (t ++ ", ".intercalate (n :: names), true) := by
  induction names generalizing t n with
  | nil => rw [String.intercalate_singleton]; rfl
  | cons m names ih =>
    rw [List.foldl_cons, String.intercalate_cons_cons, ← String.append_assoc, ← String.append_assoc, ← ih (t ++ n ++ ", ") m]
    rfl

theorem printSymbols_eq (cs : List Conjunction) :
    (let st := printSymbols ("", false) cs; if st.2 then st.1 ++ " ] -> " else st.1) = parameterList (islParameters cs) := by
  have hflat : printSymbols ("", false) cs = (islParameters cs).foldl printSymbol ("", false) :=
    (List.foldl_flatMap ..).symm
  rw [hflat]
  cases islParameters cs with
  | nil => rfl
  | cons n names =>
    have hfirst : printSymbol ("", false) n = ("[ " ++ n, true) := rfl
    rw [List.foldl_cons, hfirst, foldl_printSymbol_true]
    rfl

/-- The symbols of the conjunctions are printed in turn, before the union. -/
theorem toISLString_eq {env : Environment} {aritySplit arity : Nat} {cs : List Conjunction} {set : String}
    (h : prettyPrintString env aritySplit arity cs = .ok set) :
    toISLString env aritySplit arity cs = .ok (parameterList (islParameters cs) ++ set) := by
  unfold toISLString
  rw [h, ← printSymbols_eq]
  rfl

/-- The text after the first name. -/
def afterName : List String → List Char
  | [] => " ] -> ".toList
  | n :: names => ", ".toList ++ (n.toList ++ afterName names)

theorem toList_parameterList (n : String) (names : List String) :
    (parameterList (n :: names)).toList = "[ ".toList ++ (n.toList ++ afterName names) := by
  have hrest : ∀ n, (", ".intercalate (n :: names)).toList ++ " ] -> ".toList = n.toList ++ afterName names := by
    induction names with
    | nil => intro n; rw [String.intercalate_singleton]; rfl
    | cons m names ih =>
      intro n
      rw [String.intercalate_cons_cons, String.toList_append, String.toList_append, List.append_assoc, ih m]
      simp [afterName]
  show (("[ " ++ ", ".intercalate (n :: names)) ++ " ] -> ").toList = _
  rw [String.toList_append, String.toList_append, List.append_assoc, hrest]

/-- Names without blanks and commas are read off in one way. -/
theorem afterName_injective : ∀ {names names' : List String} {n n' : String} {r : List Char},
    (∀ m ∈ n :: names, ∀ c ∈ m.toList, isNameChar c = true) → (∀ m ∈ n' :: names', ∀ c ∈ m.toList, isNameChar c = true) →
    n.toList ++ (afterName names ++ r) = n'.toList ++ (afterName names' ++ r) → n :: names = n' :: names' := by
  have hstops : ∀ (names : List String) (r : List Char), Words.Stops isNameChar (afterName names ++ r) := by
    intro names r
    cases names <;> simp [afterName, isNameChar, Words.Stops]
  intro names
  induction names with
  | nil =>
    intro names' n n' r hn hn' h
    obtain ⟨hname, hrest⟩ := Words.run_unique (hn n List.mem_cons_self) (hn' n' List.mem_cons_self) (hstops _ _) (hstops _ _) h
    cases names' with
    | nil => rw [String.toList_inj.1 hname]
    | cons m' names' => simp [afterName] at hrest
  | cons m names ih =>
    intro names' n n' r hn hn' h
    obtain ⟨hname, hrest⟩ := Words.run_unique (hn n List.mem_cons_self) (hn' n' List.mem_cons_self) (hstops _ _) (hstops _ _) h
    cases names' with
    | nil => simp [afterName] at hrest
    | cons m' names' =>
      have htail : m.toList ++ (afterName names ++ r) = m'.toList ++ (afterName names' ++ r) := by
        simpa [afterName] using hrest
      rw [String.toList_inj.1 hname, ih (fun x hx => hn x (List.mem_cons_of_mem _ hx))
        (fun x hx => hn' x (List.mem_cons_of_mem _ hx)) htail]

/-- A list of names is read off the text before a union in one way. -/
theorem parameterList_injective {names names' : List String} {set : String}
    (hn : ∀ m ∈ names, ∀ c ∈ m.toList, isNameChar c = true) (hn' : ∀ m ∈ names', ∀ c ∈ m.toList, isNameChar c = true)
    (h : parameterList names ++ set = parameterList names' ++ set) : names = names' := by
  have hl := congrArg String.toList h
  rw [String.toList_append, String.toList_append] at hl
  cases names with
  | nil =>
    cases names' with
    | nil => rfl
    | cons n' names' =>
      rw [toList_parameterList] at hl
      have hlen := congrArg List.length hl
      simp [parameterList] at hlen
      omega
  | cons n names =>
    cases names' with
    | nil =>
      rw [toList_parameterList] at hl
      have hlen := congrArg List.length hl
      simp [parameterList] at hlen
      omega
    | cons n' names' =>
      rw [toList_parameterList, toList_parameterList] at hl
      simp only [List.append_assoc] at hl
      exact afterName_injective hn hn' (List.append_cancel_left hl)

/-! ## The declared names -/

/-- The names are the symbolic constants of the union, each once, and none is the name of a tuple variable. -/
structure DeclaresSymbols (cs : List Conjunction) (names : List String) : Prop where
  nodup : names.Nodup
  complete : ∀ s, s ∈ names ↔ ∃ c ∈ cs, c.hasSymbol s
  apart : ∀ s ∈ names, ∀ c ∈ cs, .var s ∉ c.tupleDecl.places

theorem mem_islParameters {cs : List Conjunction} {s : String} : s ∈ islParameters cs ↔ ∃ c ∈ cs, c.hasSymbol s := by
  rw [islParameters, List.mem_flatMap]
  simp only [Conjunction.mem_getSymbolIterator]

theorem nodup_islParameters {cs : List Conjunction} : (islParameters cs).Nodup ↔
    cs.Pairwise (fun c d => ∀ s, c.hasSymbol s → ¬ d.hasSymbol s) := by
  rw [islParameters, List.nodup_flatMap]
  have hdisjoint : ∀ {c d : Conjunction}, Function.onFun List.Disjoint Conjunction.getSymbolIterator c d ↔
      ∀ s, c.hasSymbol s → ¬ d.hasSymbol s := by
    intro c d
    simp only [Function.onFun, List.Disjoint, Conjunction.mem_getSymbolIterator, imp_false]
  have hnodup : ∀ c ∈ cs, c.getSymbolIterator.Nodup := fun c _ => nodup_build_stringLt _
  rw [and_iff_right hnodup]
  exact List.Pairwise.iff fun _ _ => hdisjoint

theorem isNameChar_of_isName {s : String} (h : isName s = true) : ∀ c ∈ s.toList, isNameChar c = true := by
  unfold isName at h
  split at h
  · cases h
  · next c cs hs =>
    simp only [Bool.and_eq_true] at h
    rw [hs]
    exact List.all_eq_true.1 h.1.2

/-- The list before the union has each symbolic constant once and no tuple variable iff no two conjunctions share a symbolic
constant and none has the name of a tuple variable. -/
theorem toISLString_declares_iff (env : Environment) (aritySplit arity : Nat) (cs : List Conjunction) (set : String)
    (hset : prettyPrintString env aritySplit arity cs = .ok set)
    (hnames : ∀ c ∈ cs, ∀ s, c.hasSymbol s → isName s = true) :
    (∃ names, toISLString env aritySplit arity cs = .ok (parameterList names ++ set) ∧ DeclaresSymbols cs names) ↔
      cs.Pairwise (fun c d => ∀ s, c.hasSymbol s → ¬ d.hasSymbol s) ∧
        ∀ c ∈ cs, ∀ d ∈ cs, ∀ s, c.hasSymbol s → .var s ∉ d.tupleDecl.places := by
  have hchars : ∀ names : List String, (∀ s, s ∈ names ↔ ∃ c ∈ cs, c.hasSymbol s) →
      ∀ m ∈ names, ∀ c ∈ m.toList, isNameChar c = true := by
    intro names h m hm
    obtain ⟨c, hc, hmc⟩ := (h m).1 hm
    exact isNameChar_of_isName (hnames c hc m hmc)
  rw [toISLString_eq hset]
  constructor
  · rintro ⟨names, htext, hnodup, hcomplete, hapart⟩
    obtain rfl : islParameters cs = names :=
      parameterList_injective (hchars _ fun s => mem_islParameters) (hchars _ hcomplete) (Except.ok.inj htext)
    exact ⟨nodup_islParameters.1 hnodup, fun c hc d hd s hs => hapart s ((hcomplete s).2 ⟨c, hc, hs⟩) d hd⟩
  · rintro ⟨hpair, hapart⟩
    refine ⟨islParameters cs, rfl, nodup_islParameters.2 hpair, fun s => mem_islParameters, fun s hs d hd => ?_⟩
    obtain ⟨c, hc, hsc⟩ := mem_islParameters.1 hs
    exact hapart c hc d hd s hsc

/-- `[i] : i - n >= 0` and `[i] : -i + n >= 0` -/
def boundedByConj (k : Int) : Conjunction :=
  ⟨[], [.mk .inequality [.tupleVar k 0, .symConst (-k) "n"]], ⟨[⟨false, 0, "i"⟩]⟩, 0⟩

/-- `{ [i] : -i + n >= 0 } union { [i] : i - n >= 0 }` has its parameter twice. -/
theorem toISLString_repeats : ∃ set, prettyPrintString ⟨[], [], []⟩ 0 1 [boundedByConj (-1), boundedByConj 1] = .ok set ∧
    toISLString ⟨[], [], []⟩ 0 1 [boundedByConj (-1), boundedByConj 1] = .ok ("[ n, n ] -> " ++ set) :=
  ⟨"\x7b [i] : -i + n >= 0 \x7d union \x7b [i] : i - n >= 0 \x7d", rfl, rfl⟩

/-- `[i] : f(n + 1) <= i && g(k)[0] = 0`, `[i] : i >= m` and `[i] : i >= 0` -/
def nestedSymbolConjs : List Conjunction :=
  [⟨[.mk .equality [.ufCall 1 "g" [.ofTerm (.symConst 1 "k")] (some 0)]],
      [.mk .inequality [.tupleVar 1 0, .ufCall (-1) "f" [.mk .expression [.symConst 1 "n", .constVal 1]] none]],
      ⟨[⟨false, 0, "i"⟩]⟩, 0⟩,
    ⟨[], [.mk .inequality [.tupleVar 1 0, .symConst (-1) "m"]], ⟨[⟨false, 0, "i"⟩]⟩, 0⟩,
    ⟨[], [.mk .inequality [.tupleVar 1 0]], ⟨[⟨false, 0, "i"⟩]⟩, 0⟩]

theorem toISLString_declares_iff_bounded : ∃ names set,
    toISLString ⟨[], [], []⟩ 0 1 nestedSymbolConjs = .ok (parameterList names ++ set) ∧
      DeclaresSymbols nestedSymbolConjs names := by
  have hprint : ∃ set, prettyPrintString ⟨[], [], []⟩ 0 1 nestedSymbolConjs = .ok set := ⟨_, rfl⟩
  obtain ⟨set, hset⟩ := hprint
  have hsymbols : ∀ c ∈ nestedSymbolConjs, ∀ s, c.hasSymbol s ↔ s ∈ c.getSymbolIterator := fun c _ s =>
    Conjunction.mem_getSymbolIterator.symm
  have hlists : nestedSymbolConjs.map Conjunction.getSymbolIterator = [["k", "n"], ["m"], []] := by decide +kernel
  simp only [nestedSymbolConjs, List.map_cons, List.map_nil, List.cons.injEq, and_true] at hlists
  obtain ⟨h₁, h₂, h₃⟩ := hlists
  have hof : ∀ c ∈ nestedSymbolConjs, ∀ s, c.hasSymbol s → s ∈ ["k", "n", "m"] := by
    intro c hc s hs
    rw [hsymbols c hc] at hs
    simp only [nestedSymbolConjs, List.mem_cons, List.not_mem_nil, or_false] at hc
    rcases hc with rfl | rfl | rfl
    · rw [h₁] at hs
      exact List.mem_append_left ["m"] hs
    · rw [h₂] at hs
      exact List.mem_append_right ["k", "n"] hs
    · rw [h₃] at hs
      cases hs
  have hnames : ∀ c ∈ nestedSymbolConjs, ∀ s, c.hasSymbol s → isName s = true := by
    intro c hc s hs
    have hmem := hof c hc s hs
    simp only [List.mem_cons, List.not_mem_nil, or_false] at hmem
    rcases hmem with rfl | rfl | rfl <;> decide
  have hpairwise : nestedSymbolConjs.Pairwise fun c d => ∀ s, c.hasSymbol s → ¬ d.hasSymbol s := by
    simp only [nestedSymbolConjs, List.pairwise_cons, List.mem_cons, List.not_mem_nil, or_false, forall_eq_or_imp, forall_eq,
      ← Conjunction.mem_getSymbolIterator, h₁, h₂, h₃]
    simp
  have hapart : ∀ c ∈ nestedSymbolConjs, ∀ d ∈ nestedSymbolConjs, ∀ s, c.hasSymbol s → .var s ∉ d.tupleDecl.places := by
    intro c hc d hd s hs hplace
    have hplaces : d.tupleDecl.places = [.var "i"] := by
      simp only [nestedSymbolConjs, List.mem_cons, List.not_mem_nil, or_false] at hd
      rcases hd with rfl | rfl | rfl <;> rfl
    rw [hplaces, List.mem_singleton] at hplace
    injection hplace with hplace
    have hmem := hof c hc s hs
    rw [hplace] at hmem
    exact absurd hmem (by decide)
  obtain ⟨names, htext, hdeclares⟩ := (toISLString_declares_iff ⟨[], [], []⟩ 0 1 nestedSymbolConjs set hset hnames).2
    ⟨hpairwise, hapart⟩
  exact ⟨names, set, htext, hdeclares⟩

end IEGen
