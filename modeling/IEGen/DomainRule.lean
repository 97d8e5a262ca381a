import IEGen.GetString
import IEGen.Grammar
import IEGen.Instances
import IEGen.Lib.Occurrences
import IEGen.Tuples

/-!
# The rule of a declared domain and range

`getUQRForFuncDomainRange` makes the rule that what is in the domain of a function has its value in the range. It prints
both sets and puts the call for the tuple variable of the range by searching the printed constraints for its name.

* The two searches find the first two places where the name stands, inside of other names and in the call just put in as
  well, and they have to find two (`putCall_eq`).
* So the rule says of the call what the range says of its variable exactly where the name is twice a word of the constraints
  and stands nowhere else before the second one (`getUQRForFuncDomainRange_right_iff`); where it is not found a second time,
  `replace` throws.
-/

namespace IEGen

open Outcome (bind_eq_ok)
open Occurrences

/-! ## The function -/

/-- How `getUQRForFuncDomainRange` ends without a rule: `std::string::replace` throws `std::out_of_range` at a position
that was not found, or there is another exception. -/
inductive RuleFault where
  | outOfRange
  | thrown (failure : Failure)
  deriving DecidableEq

/-- What `getUQRForFuncDomainRange` reads off the printed domain and range. -/
structure DomainRangeTexts where
  dtdStr : String
  domainConstStr : String
  rangeConstStr : String
  /-- the front of `dtd_its` -/
  dtv : List Char
  rtv : List Char
  deriving DecidableEq

/-- The texts; the front of an empty queue is undefined. -/
def domainRangeTexts (env : Environment) (func : String) : Except Failure DomainRangeTexts := do
  let domain ← env.queryDomain func
  let range ← env.queryRange func
  let _ ← domain.getTupleDecl
  let _ ← range.getTupleDecl
  let domainParts := getPartsFromStr (← domain.getString)
  let rangeParts := getPartsFromStr (← range.getString)
  match tupVarsExtract domainParts.tupDecl.toList domain.arity 0, tupVarsExtract rangeParts.tupDecl.toList range.arity 0 with
  | dtv :: _, rtv :: _ =>
    .ok ⟨domainParts.tupDecl, domainParts.constraints, rangeParts.constraints, dtv, rtv⟩
  | _, _ => .error .undefined

/-- `ufc`: the call of the function on the tuple variable of the domain. -/
def callText (func : String) (dtv : List Char) : List Char := func.toList ++ ('(' :: (dtv ++ [')']))

/-- The call for the name where it is found first, and where it is found behind that position then. -/
def putCall (rtv ufc rangeConstStr : List Char) : Except RuleFault (List Char) :=
  match find rtv rangeConstStr with
  | none => .error .outOfRange
  | some found =>
    let rangeConstStr := replaceAt found rtv.length ufc rangeConstStr
    if found < rangeConstStr.length then
      match find rtv (rangeConstStr.drop (found + 1)) with
      | none => .error .outOfRange
      | some k => .ok (replaceAt (found + 1 + k) rtv.length ufc rangeConstStr)
    else .ok rangeConstStr

/-- The right side of the rule, from the texts. -/
def DomainRangeTexts.rightSide (texts : DomainRangeTexts) (func : String) : Except RuleFault (List Char) :=
  putCall texts.rtv (callText func texts.dtv) texts.rangeConstStr.toList

/-- `getUQRForFuncDomainRange` -/
def getUQRForFuncDomainRange (parse_set : ParseSet) (env : Environment) (func : String) : Except RuleFault UniQuantRule := do
  let texts ← (domainRangeTexts env func).mapError .thrown
  let rightSide ← texts.rightSide func
  (UniQuantRule.ofStrings parse_set "DomainRange" texts.dtdStr texts.domainConstStr (.ofList rightSide) env).mapError .thrown

/-! ## The two searches -/

/-- The second search is always made: the call is not empty. -/
theorem putCall_eq {r t : List Char} {x : Char} {u : List Char} :
    putCall r (x :: u) t = (replaceTwo r (x :: u) t).elim (.error .outOfRange) .ok := by
  unfold putCall replaceTwo
  cases hfound : find r t with
  | none => rfl
  | some found =>
    obtain ⟨a, b, hfirst, rfl⟩ := find_eq_some_iff.1 hfound
    have hlt : a.length < (replaceAt a.length r.length (x :: u) t).length := by
      rw [hfirst.1, replaceAt_append]
      simp
    simp only [if_pos hlt, Option.bind_some]
    cases find r ((replaceAt a.length r.length (x :: u) t).drop (a.length + 1)) <;> rfl

/-! ## Names -/

/-- Characters of names, without anything between them. -/
def IdentRun (w : List Char) : Prop := w ≠ [] ∧ ∀ c ∈ w, isIdentChar c = true

instance (w : List Char) : Decidable (IdentRun w) :=
  decidable_of_iff (w ≠ [] ∧ w.all isIdentChar = true) (and_congr_right fun _ => List.all_eq_true)

theorem IdentRun.not_mem {w : List Char} (h : IdentRun w) {c : Char} (hc : isIdentChar c = false) : c ∉ w := by
  intro hmem
  rw [h.2 c hmem] at hc
  cases hc

theorem IdentRun.trim_eq {w : List Char} (h : IdentRun w) : trim w = w := by
  have hblank : ∀ c ∈ w, isSpace c = false := by
    intro c hc
    by_contra hs
    rw [Bool.not_eq_false, isSpace, decide_eq_true_eq] at hs
    simp only [List.mem_cons, List.not_mem_nil, or_false] at hs
    rcases hs with rfl | rfl | rfl | rfl | rfl | rfl <;> exact h.not_mem (by decide) hc
  have hdrop : ∀ v : List Char, (∀ c ∈ v, c ∈ w) → v.dropWhile isSpace = v := by
    intro v hv
    cases v with
    | nil => rfl
    | cons c v => rw [List.dropWhile_cons, if_neg (by rw [hblank c (hv c List.mem_cons_self)]; exact Bool.false_ne_true)]
  rw [trim, hdrop w fun _ hc => hc, hdrop w.reverse fun _ hc => List.mem_reverse.1 hc, List.reverse_reverse]

/-! ## The variable of a printed set -/

/-- A set of one dimension, whose first conjunction declares this name. -/
structure Set.Declares (s : Set) (x : String) : Prop where
  arity : s.arity = 1
  wellTyped : ∀ c ∈ s.conjunctions, c.WellTyped
  first : ∃ c cs k, s.conjunctions = c :: cs ∧ c.tupleDecl = ⟨[⟨false, k, x⟩]⟩
  name : IdentRun x.toList

theorem exists_joinWith_cons (sep s : String) (ss : List String) : ∃ rest, joinWith sep (s :: ss) = s ++ rest := by
  cases ss with
  | nil => exact ⟨"", by simp [joinWith]⟩
  | cons s' ss => exact ⟨_, rfl⟩

/-- How a set is printed, up to the end of its first conjunction. -/
theorem Set.Declares.toList_text {s : Set} {x text : String} (hs : s.Declares x) (h : s.getString = .ok text) :
    ∃ c cs constraints, ∃ rest : List Char, s.conjunctions = c :: cs ∧
      (c.equalities ++ c.inequalities).mapM (Exp.getString c.tupleDecl) = .ok constraints ∧
      text.toList = '\x7b' :: (' ' :: '[' :: (x.toList ++ [']', ' ']) ++ ':' ::
        (' ' :: ((joinWith " && " constraints).toList ++ [' ']) ++ '\x7d' :: rest)) := by
  obtain ⟨c, cs, k, hcs, hdecl⟩ := hs.first
  rw [Set.getString_eq (by rw [hcs]; exact List.cons_ne_nil _ _) hs.wellTyped, unionString, Outcome.map_eq_ok, hcs] at h
  obtain ⟨texts, htexts, rfl⟩ := h
  simp only [List.mapM_cons, bind_eq_ok] at htexts
  obtain ⟨t, ht, ts, -, htexts⟩ := htexts
  cases htexts
  rw [Conjunction.getString, bind_eq_ok] at ht
  obtain ⟨constraints, hconstraints, ht⟩ := ht
  cases ht
  obtain ⟨rest, hrest⟩ := exists_joinWith_cons " union "
    ("\x7b " ++ (c.tupleDecl.toString 0 ++ (" : " ++ (joinWith " && " constraints ++ " \x7d")))) ts
  have hname : c.tupleDecl.toString 0 = "[" ++ x ++ "]" := by
    rw [hdecl]
    simp [TupleDecl.toString, TupleDecl.size, TupleDecl.elemToString, TupleDecl.elemIsConst, TupleDecl.elem,
      TupleDecl.elemVarString, List.range_succ]
  refine ⟨c, cs, constraints, rest.toList, hcs, hconstraints, ?_⟩
  rw [hrest, hname]
  simp [String.toList_append]

/-- Its parts: the constraints end at the first closing brace. -/
theorem Set.Declares.getPartsFromStr_eq {s : Set} {x text : String} (hs : s.Declares x) (h : s.getString = .ok text) :
    ∃ c cs constraints, ∃ u rest rest' : List Char, s.conjunctions = c :: cs ∧
      (c.equalities ++ c.inequalities).mapM (Exp.getString c.tupleDecl) = .ok constraints ∧ '\x7d' ∉ u ∧
      ' ' :: ((joinWith " && " constraints).toList ++ [' ']) ++ '\x7d' :: rest = u ++ '\x7d' :: rest' ∧
      getPartsFromStr text = ⟨"", "\x7b", .ofList (' ' :: '[' :: (x.toList ++ [']', ' '])), ":", .ofList u, "\x7d"⟩ := by
  obtain ⟨c, cs, constraints, rest, hcs, hconstraints, htext⟩ := hs.toList_text h
  obtain ⟨u, rest', hu, hclosed⟩ := List.eq_append_cons_of_mem
    (by simp : '\x7d' ∈ ' ' :: ((joinWith " && " constraints).toList ++ [' ']) ++ '\x7d' :: rest)
  have hcolon : ':' ∉ ' ' :: '[' :: (x.toList ++ [']', ' ']) := by
    have := hs.name.not_mem (c := ':') (by decide)
    simpa using this
  have hnone : '\x7b' ∉ ([] : List Char) := List.not_mem_nil
  have hparts := @getPartsFromStr_colon [] _ _ rest' hnone hcolon hclosed
  rw [List.nil_append, ← hu, ← htext, String.ofList_toList] at hparts
  exact ⟨c, cs, constraints, u, rest, rest', hcs, hconstraints, hclosed, hu, hparts⟩

/-- The name is read off again. -/
theorem tupVarsExtract_getString {s : Set} {x text : String} (hs : s.Declares x) (h : s.getString = .ok text) :
    tupVarsExtract (getPartsFromStr text).tupDecl.toList s.arity 0 = [x.toList] := by
  obtain ⟨-, -, -, u, -, -, -, -, -, -, hparts⟩ := hs.getPartsFromStr_eq h
  have hreads : Elements x.toList [x.toList] := by
    have hone : Elements ([','].intercalate [x.toList]) [x.toList] := .cons fun e he => by
      obtain rfl := List.mem_singleton.1 he
      exact ⟨hs.name.not_mem (by decide), hs.name.not_mem (by decide)⟩
    simpa using hone
  have hextract := DeclText.tupVarsExtract_eq ⟨[' '], ⟨x.toList, [x.toList], hreads⟩, none, [' '], by simp, by simp⟩
  rw [hparts, hs.arity, String.toList_ofList]
  refine Eq.trans ?_ (hextract.trans ?_)
  · show tupVarsExtract _ 1 0 = tupVarsExtract _ 1 0
    congr 1
  · simp [TupleText.tupVars, DeclText.outVars, hs.name.trim_eq]

/-- The names that are used are those of the declared sets. -/
theorem names_of_domainRangeTexts {env : Environment} {func x y : String} {domain range : Set} {texts : DomainRangeTexts}
    (hdomain : env.queryDomain func = .ok domain) (hrange : env.queryRange func = .ok range) (hx : domain.Declares x)
    (hy : range.Declares y) (h : domainRangeTexts env func = .ok texts) : texts.dtv = x.toList ∧ texts.rtv = y.toList := by
  simp only [domainRangeTexts, bind_eq_ok, hdomain, hrange, Except.ok.injEq, exists_eq_left'] at h
  obtain ⟨-, -, -, -, domainText, hdomainText, rangeText, hrangeText, h⟩ := h
  rw [tupVarsExtract_getString hx hdomainText, tupVarsExtract_getString hy hrangeText] at h
  cases h
  exact ⟨rfl, rfl⟩

/-! ## The right side -/

section Texts

variable {func : String} {texts : DomainRangeTexts} (hfunc : IdentRun func.toList) (hdtv : IdentRun texts.dtv)
  (hrtv : IdentRun texts.rtv)
include hfunc

/-- The call starts with the name of the function, and ends with a bracket. -/
theorem exists_callText (dtv : List Char) : ∃ x w, callText func dtv = x :: (w ++ [')']) := by
  obtain ⟨hne, -⟩ := hfunc
  obtain ⟨x, w, hw⟩ := List.exists_cons_of_ne_nil hne
  exact ⟨x, w ++ '(' :: dtv, by rw [callText, hw]; simp⟩

theorem rightSide_eq_ok_iff {y : List Char} : texts.rightSide func = .ok y ↔
    replaceTwo texts.rtv (callText func texts.dtv) texts.rangeConstStr.toList = some y := by
  obtain ⟨x, w, hcall⟩ := exists_callText hfunc texts.dtv
  rw [DomainRangeTexts.rightSide, hcall, putCall_eq]
  cases replaceTwo texts.rtv (x :: (w ++ [')'])) texts.rangeConstStr.toList <;> simp

include hdtv in
/-- The call has one opening bracket. -/
theorem count_callText : (callText func texts.dtv).count '(' = 1 := by
  rw [callText, List.count_append, List.count_cons_self, List.count_append,
    List.count_eq_zero.2 (hfunc.not_mem (by decide)), List.count_eq_zero.2 (hdtv.not_mem (by decide))]
  rfl

include hdtv hrtv

/-- The call is put at the places of the variable exactly where there are two of them, and they are found. -/
theorem rightSide_eq_fill_iff {m : List (Option Char)} (hm : Isolated isIdentChar false m)
    (htext : texts.rangeConstStr.toList = fill texts.rtv m) :
    texts.rightSide func = .ok (fill (callText func texts.dtv) m) ↔ TwoMarks texts.rtv (callText func texts.dtv) m := by
  have hcount := count_callText hfunc hdtv
  rw [rightSide_eq_ok_iff hfunc, htext]
  obtain ⟨x, w, hcall⟩ := exists_callText hfunc texts.dtv
  rw [hcall] at hcount ⊢
  exact replaceTwo_eq_fill_iff hrtv.1 hrtv.2 (hrtv.not_mem (by decide)) (hrtv.not_mem (by decide)) hcount hm

theorem rightSide_eq_replaceWord_iff :
    texts.rightSide func = .ok (replaceWord isIdentChar texts.rtv (callText func texts.dtv) texts.rangeConstStr.toList) ↔
      TwoMarks texts.rtv (callText func texts.dtv) (markWords isIdentChar texts.rtv [] texts.rangeConstStr.toList) :=
  rightSide_eq_fill_iff hfunc hdtv hrtv (isolated_markWords _ _) (fill_markWords [] _).symm

omit hdtv hrtv in
theorem rightSide_eq_outOfRange_iff :
    texts.rightSide func = .error .outOfRange ↔ ∀ a b, FirstAt texts.rtv texts.rangeConstStr.toList a b →
      ¬ texts.rtv <:+: (callText func texts.dtv).tail ++ b := by
  obtain ⟨x, w, hcall⟩ := exists_callText hfunc texts.dtv
  rw [DomainRangeTexts.rightSide, hcall, putCall_eq, List.tail_cons, ← replaceTwo_eq_none_iff (x := x)]
  cases replaceTwo texts.rtv (x :: (w ++ [')'])) texts.rangeConstStr.toList with
  | none => simp
  | some y => simp

end Texts

/-- Domains and ranges with the same variable never give the rule: the second search finds the argument just put in. -/
theorem rightSide_of_same {func : String} {texts : DomainRangeTexts} (hfunc : IdentRun func.toList) (hdtv : IdentRun texts.dtv)
    (hsame : texts.rtv = texts.dtv) : texts.rightSide func ≠
      .ok (replaceWord isIdentChar texts.rtv (callText func texts.dtv) texts.rangeConstStr.toList) := by
  intro hright
  obtain ⟨htail, -⟩ := (rightSide_eq_replaceWord_iff hfunc hdtv (hsame ▸ hdtv)).1 hright
  obtain ⟨x, w, hw⟩ := List.exists_cons_of_ne_nil hfunc.1
  refine htail ⟨w ++ ['('], [')'], ?_⟩
  rw [callText, hw, hsame]
  simp

/-- The call is put for the words that are the name of the range's variable, and for nothing else, exactly where there are
two of them and the searches find them; the rule is made with that text. `replace` throws where the second search finds
nothing. -/
theorem getUQRForFuncDomainRange_right_iff (parse_set : ParseSet) (env : Environment) (func x y : String)
    (domain range : Set) (texts : DomainRangeTexts) (hdomain : env.queryDomain func = .ok domain)
    (hrange : env.queryRange func = .ok range) (hx : domain.Declares x) (hy : range.Declares y)
    (hfunc : IdentRun func.toList) (h : domainRangeTexts env func = .ok texts) :
    (getUQRForFuncDomainRange parse_set env func = .error .outOfRange ↔
      ∀ a b, FirstAt y.toList texts.rangeConstStr.toList a b → ¬ y.toList <:+: (callText func x.toList).tail ++ b) ∧
    (texts.rightSide func = .ok (replaceWord isIdentChar y.toList (callText func x.toList) texts.rangeConstStr.toList) ↔
      TwoMarks y.toList (callText func x.toList) (markWords isIdentChar y.toList [] texts.rangeConstStr.toList)) ∧
    ∀ rightSide, texts.rightSide func = .ok rightSide → getUQRForFuncDomainRange parse_set env func =
      (UniQuantRule.ofStrings parse_set "DomainRange" texts.dtdStr texts.domainConstStr (.ofList rightSide) env).mapError
        .thrown := by
  obtain ⟨hdtv, hrtv⟩ := names_of_domainRangeTexts hdomain hrange hx hy h
  rw [← hdtv, ← hrtv]
  have hrun : getUQRForFuncDomainRange parse_set env func = (texts.rightSide func).bind fun rightSide =>
      (UniQuantRule.ofStrings parse_set "DomainRange" texts.dtdStr texts.domainConstStr (.ofList rightSide) env).mapError
        .thrown := by
    rw [getUQRForFuncDomainRange, h]
    rfl
  refine ⟨?_, rightSide_eq_replaceWord_iff hfunc (hdtv ▸ hx.name) (hrtv ▸ hy.name), fun rightSide hright => ?_⟩
  swap
  · rw [hrun, hright]
    rfl
  rw [hrun, ← rightSide_eq_outOfRange_iff hfunc]
  cases texts.rightSide func with
  | error fault =>
    constructor <;>
    · intro hx
      cases hx
      rfl
  | ok rightSide =>
    have hne : ∀ {α : Type} {x : Except Failure α}, x.mapError RuleFault.thrown ≠ .error .outOfRange := by
      intro α x hx
      cases x <;> cases hx
    exact ⟨fun hx => absurd hx hne, fun hx => by cases hx⟩

/-- `{[e] : e >= 0}` -/
def boundedDomain : Set := ⟨1, [⟨[], [.mk .inequality [.tupleVar 1 0]], ⟨[⟨false, 0, "e"⟩]⟩, 0⟩]⟩

/-- `{[j] : j >= 0 && n - j - 1 >= 0}` -/
def boundedRange : Set :=
  ⟨1, [⟨[], [.mk .inequality [.tupleVar 1 0], .mk .inequality [.tupleVar (-1) 0, .symConst 1 "n", .constVal (-1)]],
    ⟨[⟨false, 0, "j"⟩]⟩, 0⟩]⟩

/-- `f` with these two -/
def boundedEnv : Environment := ⟨[("f", ⟨"f", boundedDomain, boundedRange, false, .none⟩)], [], []⟩

/-- A set that has inequalities without calls only. -/
theorem Set.declares_of_inequalities {x : String} {ineqs : List Exp} (hx : IdentRun x.toList)
    (hineqs : ∀ e ∈ ineqs, e.expType = .inequality ∧ e.arguments = []) :
    (Set.mk 1 [⟨[], ineqs, ⟨[⟨false, 0, x⟩]⟩, 0⟩]).Declares x := by
  refine ⟨rfl, fun c hc => ?_, ⟨_, _, _, rfl, rfl⟩, hx⟩
  obtain rfl := List.mem_singleton.1 hc
  refine ⟨⟨nofun, fun e he => (hineqs e he).1⟩, fun e he => ?_⟩
  obtain ⟨d, hd, hmem⟩ := List.mem_flatMap.1 he
  rw [(hineqs d hd).2] at hmem
  cases hmem

theorem boundedDomain_declares : boundedDomain.Declares "e" :=
  Set.declares_of_inequalities (by decide +kernel) fun e he => by
    obtain rfl := List.mem_singleton.1 he
    exact ⟨rfl, rfl⟩

theorem boundedRange_declares : boundedRange.Declares "j" :=
  Set.declares_of_inequalities (by decide +kernel) fun e he => by
    simp only [List.mem_cons, List.not_mem_nil, or_false] at he
    rcases he with rfl | rfl <;> exact ⟨rfl, rfl⟩

theorem getUQRForFuncDomainRange_right_bounded : ∃ texts, domainRangeTexts boundedEnv "f" = .ok texts ∧
    texts.rightSide "f" = .ok " 0 <= f(e) && f(e) < n ".toList := by
  have h : domainRangeTexts boundedEnv "f" = .ok ⟨" [e] ", " 0 <= e ", " 0 <= j && j < n ", ['e'], ['j']⟩ :=
    Outcome.eq_ok_of_toOption (by decide +kernel)
  obtain ⟨-, hright, -⟩ := getUQRForFuncDomainRange_right_iff (fun _ _ => .error .undefined) boundedEnv "f" "e" "j"
    boundedDomain boundedRange _ (Outcome.eq_ok_of_toOption (by decide +kernel)) (Outcome.eq_ok_of_toOption (by decide +kernel))
    boundedDomain_declares boundedRange_declares (by decide +kernel) h
  have hmarks : TwoMarks ['j'] (callText "f" ['e']) (markWords isIdentChar ['j'] [] " 0 <= j && j < n ".toList) :=
    ⟨find_eq_none_iff.1 (by decide +kernel), " 0 <= ".toList, " && ".toList, " < n ".toList, by decide +kernel,
      find_eq_none_iff.1 (by decide +kernel), find_eq_none_iff.1 (by decide +kernel)⟩
  exact ⟨_, h, (hright.2 hmarks).trans (congrArg _ (by decide +kernel))⟩

end IEGen
