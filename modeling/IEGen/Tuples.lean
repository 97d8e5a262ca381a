import IEGen.Parts

/-!
# Tuples in texts

`tupVarsExtract` reads the elements of a tuple declaration off its text: it looks for the brackets and the commas, and trims
what stands between them. The functions on texts take a set or a relation into its parts, change the declaration and put
the parts together again.

* `SRText` is a text of the documented form. It is cut into its parts as its colon allows (`getPartsFromStr_some`,
  `getPartsFromStr_none`), and its elements are read off (`tupVarsExtract_eq`).
* `projectOutStrCorrection_takesOut_iff`: an element is taken out of the declaration, and all else stays as it is, when the
  text has one body and a relation has outputs. The loop puts a separator behind an element just when another one of its
  tuple is left (`foldl_appendElem`), and the arrow before the first output; what follows the first closing brace is dropped.
-/

namespace IEGen

/-! ## Elements of a declaration -/

/-- The variables of one tuple, as many as its arity says, from a position on. -/
def tupVarsFrom (str : List Char) : Nat → Int → List (List Char)
  | 0, _ => []
  | n + 1, tst =>
    let tend := findFirstOf ',' tst str
    trim (substr tst (tend - tst) str) :: tupVarsFrom str n (tend + 1)

/-- The text between the next pair of brackets, and the position behind it. -/
def nextTuple (tupDecl : List Char) (st : Int) : List Char × Int :=
  let st := findFirstOf '[' st tupDecl
  let tend := findFirstOf ']' st tupDecl
  (substr (st + 1) (tend - st - 1) tupDecl, tend + 1)

/-- `tupVarsExtract` -/
def tupVarsExtract (tupDecl : List Char) (inArity outArity : Nat) : List (List Char) :=
  let (tuple, st) := nextTuple tupDecl 0
  if outArity ≠ 0 then tupVarsFrom tuple inArity 0 ++ tupVarsFrom (nextTuple tupDecl st).1 outArity 0
  else tupVarsFrom tuple (inArity + outArity) 0

/-! ## Changing the declaration -/

/-- One step of the loop of `projectOutStrCorrection` over the elements, with their numbers. -/
def projectElem (poTv : Int) (inArity outArity : Nat) (newTupDecl : List Char) (elem : List Char × Nat) : List Char :=
  let (orig, i) := elem
  let arity := inArity + outArity
  let newTupDecl := if i = inArity ∧ outArity ≠ 0 then newTupDecl ++ "] -> [".toList else newTupDecl
  if (i : Int) ≠ poTv then
    let newTupDecl := newTupDecl ++ orig
    if (i : Int) ≠ arity - 1 ∧ (i : Int) ≠ inArity - 1 ∧
        ¬ (((i : Int) = arity - 2 ∧ poTv = arity - 1) ∨ ((i : Int) = inArity - 2 ∧ poTv = inArity - 1)) then
      newTupDecl ++ ", ".toList
    else newTupDecl
  else newTupDecl

/-- `projectOutStrCorrection` -/
def projectOutStrCorrection (str : String) (poTv : Int) (inArity outArity : Nat) : String :=
  let parts := getPartsFromStr str
  let origTupVars := tupVarsExtract parts.tupDecl.toList inArity outArity
  let newTupDecl := origTupVars.zipIdx.foldl (projectElem poTv inArity outArity) "[".toList ++ "] ".toList
  if parts.constraints.length = 0 then parts.symVars ++ parts.sC ++ .ofList newTupDecl ++ parts.eC
  else parts.symVars ++ parts.sC ++ .ofList newTupDecl ++ parts.sepC ++ parts.constraints ++ parts.eC

/-- `missingEqs`: equalities between the elements of two declarations, where they differ. -/
def missingEqs (origTupDecl islTupDecl : List Char) (inArity outArity : Nat) : String :=
  let tupVars := (tupVarsExtract origTupDecl inArity outArity).zip (tupVarsExtract islTupDecl inArity outArity)
  (tupVars.foldl (fun (eqs, firstEq) (orig, isl) =>
    if orig ≠ isl then
      (eqs ++ (if firstEq then " " else " and ") ++ String.ofList orig ++ " = " ++ String.ofList isl, false)
    else (eqs, firstEq)) ("", true)).1

/-- `revertISLTupDeclToOrig` -/
def revertISLTupDeclToOrig (origStr islStr : String) (inArity outArity : Nat) : String :=
  let origParts := getPartsFromStr origStr
  let islParts := getPartsFromStr islStr
  let eqsStr := missingEqs origParts.tupDecl.toList islParts.tupDecl.toList inArity outArity
  let front := islParts.symVars ++ islParts.sC ++ origParts.tupDecl ++ islParts.sepC
  if islParts.constraints.length = 0 then front ++ eqsStr ++ islParts.eC
  else if eqsStr.length = 0 then front ++ islParts.constraints ++ islParts.eC
  else front ++ islParts.constraints ++ " and " ++ eqsStr ++ islParts.eC

/-! ## Positions -/

theorem findFirstOf_append {c : Char} {a b : List Char} (pos : Nat) (hpos : pos ≤ a.length) (h : c ∉ a.drop pos) :
    findFirstOf c pos (a ++ c :: b) = a.length := by
  have hdrop : (a ++ c :: b).drop ((pos : Int)).toNat = a.drop pos ++ c :: b := by
    rw [Int.toNat_natCast, List.drop_append_of_le_length hpos]
  have hfind : (a.drop pos ++ c :: b).findIdx? (· == c) = some (a.drop pos).length := by
    rw [List.findIdx?_append, List.findIdx?_eq_none_iff.2 fun x hx => by simpa using fun hxc : x = c => h (hxc ▸ hx)]
    simp [List.findIdx?_cons]
  rw [findFirstOf, if_neg (by omega), hdrop, hfind]
  simp only [List.length_drop]
  omega

theorem findFirstOf_not_mem {c : Char} {a : List Char} (pos : Nat) (h : c ∉ a.drop pos) : findFirstOf c pos a = -1 := by
  have hfind : (a.drop pos).findIdx? (· == c) = none :=
    List.findIdx?_eq_none_iff.2 fun x hx => by simpa using fun hxc : x = c => h (hxc ▸ hx)
  rw [findFirstOf, if_neg (by omega), Int.toNat_natCast, hfind]

/-- What stands between two positions. -/
theorem substr_append {a b c : List Char} {pos n : Int} (hpos : pos = a.length) (hn : n = b.length) :
    substr pos n (a ++ (b ++ c)) = b := by
  subst hpos hn
  rw [substr, if_neg (by omega), Int.toNat_natCast, Int.toNat_natCast, List.drop_left, List.take_left]

/-- All from a position on, when the length is below zero. -/
theorem substr_append_of_neg {a b : List Char} {pos n : Int} (hpos : pos = a.length) (hn : n < 0) :
    substr pos n (a ++ b) = b := by
  subst hpos
  rw [substr, if_pos hn, Int.toNat_natCast, List.drop_left]

/-! ## Cutting a text -/

/-- What stands up to the end of the declaration. -/
def frontText (symVars decl : List Char) : List Char := symVars ++ '\x7b' :: decl

theorem drop_frontText (symVars decl : List Char) : (frontText symVars decl).drop symVars.length = '\x7b' :: decl :=
  List.drop_left

theorem length_frontText (symVars decl : List Char) :
    ((frontText symVars decl).length : Int) = symVars.length + 1 + decl.length := by
  simp [frontText]; omega

/-- A text with a colon is cut at its brace, its colon and its closing brace. -/
theorem getPartsFromStr_colon {symVars decl c rest : List Char} (hs : '\x7b' ∉ symVars) (hd : ':' ∉ decl)
    (hc : '\x7d' ∉ c) :
    getPartsFromStr (.ofList (symVars ++ '\x7b' :: (decl ++ ':' :: (c ++ '\x7d' :: rest)))) =
      ⟨.ofList symVars, "\x7b", .ofList decl, ":", .ofList c, "\x7d"⟩ := by
  obtain ⟨str, hstr⟩ : ∃ str, str = symVars ++ '\x7b' :: (decl ++ ':' :: (c ++ '\x7d' :: rest)) := ⟨_, rfl⟩
  have hfront : str = frontText symVars decl ++ ':' :: (c ++ '\x7d' :: rest) := by simp [hstr, frontText]
  have hopening : findFirstOf '\x7b' 0 str = symVars.length := hstr ▸ findFirstOf_append 0 (Nat.zero_le _) hs
  have hcolon : findFirstOf ':' symVars.length str = (frontText symVars decl).length := by
    rw [hfront]
    refine findFirstOf_append _ (by simp [frontText]) ?_
    rw [drop_frontText]
    simpa using hd
  have hclosing : findFirstOf '\x7d' (frontText symVars decl).length str = (frontText symVars decl ++ ':' :: c).length := by
    have htext : str = (frontText symVars decl ++ ':' :: c) ++ '\x7d' :: rest := by simp [hfront]
    rw [htext]
    refine findFirstOf_append _ (by simp) ?_
    rw [List.drop_left]
    simpa using hc
  have hsym : substr 0 symVars.length str = symVars := hstr ▸ substr_append (a := []) rfl rfl
  have hdecl : substr (symVars.length + 1) ((frontText symVars decl).length - (symVars.length + 1)) str = decl := by
    have htext : str = (symVars ++ ['\x7b']) ++ (decl ++ ':' :: (c ++ '\x7d' :: rest)) := by simp [hstr]
    rw [htext]
    exact substr_append (by simp) (by rw [length_frontText]; omega)
  have hconstraints : substr ((frontText symVars decl).length + 1)
      ((frontText symVars decl ++ ':' :: c).length - ((frontText symVars decl).length + 1)) str = c := by
    have htext : str = (frontText symVars decl ++ [':']) ++ (c ++ '\x7d' :: rest) := by simp [hfront]
    rw [htext]
    exact substr_append (by simp) (by simp)
  have hnot : ¬ (((frontText symVars decl).length : Int) < 0) := by omega
  rw [← hstr]
  unfold getPartsFromStr
  simp only [String.toList_ofList, hopening, hcolon, hclosing, hsym, hdecl, hconstraints, if_neg hnot]

/-- Without a colon the last character before the closing brace is lost. -/
theorem getPartsFromStr_noColon {symVars decl rest : List Char} {last : Char} (hs : '\x7b' ∉ symVars)
    (hd : ':' ∉ decl ++ [last]) (hd' : '\x7d' ∉ decl ++ [last]) (hr : ':' ∉ rest) :
    getPartsFromStr (.ofList (symVars ++ '\x7b' :: (decl ++ [last] ++ '\x7d' :: rest))) =
      ⟨.ofList symVars, "\x7b", .ofList decl, ":", "", "\x7d"⟩ := by
  obtain ⟨str, hstr⟩ : ∃ str, str = symVars ++ '\x7b' :: (decl ++ [last] ++ '\x7d' :: rest) := ⟨_, rfl⟩
  have hfront : str = frontText symVars (decl ++ [last]) ++ '\x7d' :: rest := by simp [hstr, frontText]
  have hopening : findFirstOf '\x7b' 0 str = symVars.length := hstr ▸ findFirstOf_append 0 (Nat.zero_le _) hs
  have hcolon : findFirstOf ':' symVars.length str = -1 := by
    refine findFirstOf_not_mem _ ?_
    rw [hfront, List.drop_append_of_le_length (by simp [frontText]), drop_frontText]
    simp only [List.mem_append, List.mem_cons, not_or]
    simpa using ⟨by simpa using hd, hr⟩
  have hclosing : findFirstOf '\x7d' symVars.length str = (frontText symVars (decl ++ [last])).length := by
    rw [hfront]
    refine findFirstOf_append _ (by simp [frontText]) ?_
    rw [drop_frontText]
    simpa using hd'
  have hsym : substr 0 symVars.length str = symVars := hstr ▸ substr_append (a := []) rfl rfl
  have hdecl : substr (symVars.length + 1) ((frontText symVars (decl ++ [last])).length - (symVars.length + 1) - 1) str = decl := by
    have htext : str = (symVars ++ ['\x7b']) ++ (decl ++ last :: '\x7d' :: rest) := by simp [hstr]
    rw [htext]
    exact substr_append (by simp) (by rw [length_frontText]; simp)
  rw [← hstr]
  unfold getPartsFromStr
  simp only [String.toList_ofList, hopening, hcolon, hclosing, hsym, hdecl]
  rfl

/-! ## Texts of the documented form -/

/-- What stands between the brackets of a tuple, and its elements with the blanks around them. -/
inductive Elements : List Char → List (List Char) → Prop
  | nil {inner : List Char} : ']' ∉ inner → Elements inner []
  | cons {e : List Char} {elems : List (List Char)} :
    (∀ x ∈ e :: elems, ',' ∉ x ∧ ']' ∉ x) → Elements ([','].intercalate (e :: elems)) (e :: elems)

theorem not_mem_intercalate {c : Char} {elems : List (List Char)} (hc : c ≠ ',') (h : ∀ x ∈ elems, c ∉ x) :
    c ∉ [','].intercalate elems := by
  induction elems with
  | nil => exact List.not_mem_nil
  | cons e elems ih =>
    have htail := ih fun x hx => h x (List.mem_cons_of_mem _ hx)
    cases elems with
    | nil => simpa using h e List.mem_cons_self
    | cons e' elems =>
      rw [List.intercalate_cons_cons]
      simp only [List.mem_append, List.mem_singleton, not_or]
      exact ⟨⟨h e List.mem_cons_self, hc⟩, htail⟩

theorem Elements.not_mem {inner : List Char} {elems : List (List Char)} (h : Elements inner elems) : ']' ∉ inner := by
  cases h with
  | nil h => exact h
  | cons h => exact not_mem_intercalate (by decide) fun x hx => (h x hx).2

/-- The elements are read one after the other. -/
theorem tupVarsFrom_intercalate {e : List Char} {elems : List (List Char)} (done : List Char)
    (h : ∀ x ∈ e :: elems, ',' ∉ x) :
    tupVarsFrom (done ++ [','].intercalate (e :: elems)) (elems.length + 1) done.length = (e :: elems).map trim := by
  induction elems generalizing e done with
  | nil =>
    have hend : findFirstOf ',' (done.length : Nat) (done ++ e) = -1 := by
      refine findFirstOf_not_mem _ ?_
      rw [List.drop_left]
      exact h e List.mem_cons_self
    rw [List.intercalate_singleton]
    show trim (substr done.length (findFirstOf ',' done.length (done ++ e) - done.length) (done ++ e)) :: [] = [trim e]
    rw [hend, substr_append_of_neg rfl (by omega)]
  | cons e' elems ih =>
    have he : ',' ∉ e := h e List.mem_cons_self
    have hstr : done ++ [','].intercalate (e :: e' :: elems) = (done ++ e) ++ ',' :: [','].intercalate (e' :: elems) := by
      rw [List.intercalate_cons_cons]; simp
    have hend : findFirstOf ',' done.length (done ++ [','].intercalate (e :: e' :: elems)) = (done ++ e).length := by
      rw [hstr]
      refine findFirstOf_append _ (by simp) ?_
      rw [List.drop_left]
      exact he
    have hnext : ((done ++ e ++ [',']).length : Int) = ((done ++ e).length : Int) + 1 := by simp; omega
    have htail := ih (done ++ e ++ [',']) (e := e') fun x hx => h x (List.mem_cons_of_mem _ hx)
    rw [List.length_cons, tupVarsFrom, hend]
    refine congrArg₂ List.cons ?_ ?_
    · rw [hstr, List.append_assoc, substr_append rfl (by simp)]
    · rw [← hnext, hstr, ← htail]
      simp

theorem Elements.tupVarsFrom_eq {inner : List Char} {elems : List (List Char)} (h : Elements inner elems) :
    tupVarsFrom inner elems.length 0 = elems.map trim := by
  cases h with
  | nil _ => rfl
  | cons h => exact tupVarsFrom_intercalate [] fun x hx => (h x hx).1

/-- The next tuple behind what holds no opening bracket. -/
theorem nextTuple_eq {done pre inner rest : List Char} (hpre : '[' ∉ pre) (hinner : ']' ∉ inner) :
    nextTuple (done ++ (pre ++ '[' :: (inner ++ ']' :: rest))) done.length =
      (inner, ((done ++ (pre ++ '[' :: (inner ++ [']']))).length : Int)) := by
  have hst : findFirstOf '[' done.length (done ++ (pre ++ '[' :: (inner ++ ']' :: rest))) = (done ++ pre).length := by
    rw [← List.append_assoc]
    refine findFirstOf_append _ (by simp) ?_
    rw [List.drop_left]
    exact hpre
  have hassoc : done ++ (pre ++ '[' :: (inner ++ ']' :: rest)) = (done ++ pre ++ '[' :: inner) ++ ']' :: rest := by simp
  have hend : findFirstOf ']' ((done ++ pre).length : Nat) (done ++ (pre ++ '[' :: (inner ++ ']' :: rest))) =
      (done ++ pre ++ '[' :: inner).length := by
    rw [hassoc]
    refine findFirstOf_append _ (by simp) ?_
    rw [List.drop_left]
    simpa using hinner
  have hsub : done ++ (pre ++ '[' :: (inner ++ ']' :: rest)) = (done ++ pre ++ ['[']) ++ (inner ++ ']' :: rest) := by simp
  unfold nextTuple
  simp only [hst, hend]
  refine Prod.ext ?_ (by simp; omega)
  show substr _ _ _ = _
  rw [hsub, substr_append (by simp; omega) (by simp)]

/-- A tuple in a text. -/
structure TupleText where
  inner : List Char
  elems : List (List Char)
  reads : Elements inner elems

namespace TupleText

def arity (t : TupleText) : Nat := t.elems.length

/-- The tuple of some elements. -/
def of (e : List Char) (elems : List (List Char)) (h : ∀ x ∈ e :: elems, ',' ∉ x ∧ ']' ∉ x) : TupleText :=
  ⟨_, e :: elems, .cons h⟩

/-- The tuple and what follows it. -/
def text (t : TupleText) (rest : List Char) : List Char := '[' :: (t.inner ++ ']' :: rest)

/-- The elements as they are read off. -/
def tupVars (t : TupleText) : List (List Char) := t.elems.map trim

end TupleText

/-- A declaration in a text: the tuple of a set, or the two tuples of a relation with the arrow between them. -/
structure DeclText where
  before : List Char
  ins : TupleText
  outs : Option (List Char × TupleText)
  after : List Char
  noBracket : '[' ∉ before ∧ ∀ o ∈ outs, '[' ∉ o.1

namespace DeclText

variable (d : DeclText)

def inArity : Nat := d.ins.arity

/-- The number of outputs, zero for a set. -/
def outArity : Nat := (d.outs.map fun o => o.2.arity).getD 0

def text : List Char :=
  d.before ++ d.ins.text (match d.outs with
    | none => d.after
    | some (arrow, o) => arrow ++ o.text d.after)

theorem text_ne_nil : d.text ≠ [] := by simp [text, TupleText.text]

/-- The elements of the output tuple. -/
def outVars : List (List Char) := (d.outs.map fun o => o.2.tupVars).getD []

/-- A relation has outputs, for without them its declaration has the arity of a set. -/
def IsSetOrRelation : Prop := ∀ o ∈ d.outs, o.2.elems ≠ []

instance : Decidable d.IsSetOrRelation := by unfold IsSetOrRelation; infer_instance

end DeclText

theorem TupleText.nextTuple_eq (t : TupleText) (done rest : List Char) {pre : List Char} (hpre : '[' ∉ pre) :
    nextTuple (done ++ (pre ++ t.text rest)) done.length = (t.inner, ((done ++ (pre ++ t.text [])).length : Int)) :=
  IEGen.nextTuple_eq hpre t.reads.not_mem

theorem tupVarsExtract_set {decl inner : List Char} {st : Int} (n : Nat) (h : nextTuple decl 0 = (inner, st)) :
    tupVarsExtract decl n 0 = tupVarsFrom inner n 0 := by
  unfold tupVarsExtract
  rw [h]
  rfl

theorem tupVarsExtract_relation {decl inner inner' : List Char} {st st' : Int} (n : Nat) {m : Nat} (hm : m ≠ 0)
    (h : nextTuple decl 0 = (inner, st)) (h' : nextTuple decl st = (inner', st')) :
    tupVarsExtract decl n m = tupVarsFrom inner n 0 ++ tupVarsFrom inner' m 0 := by
  unfold tupVarsExtract
  rw [h]
  simp only [ne_eq, hm, not_false_eq_true, if_true]
  rw [h']

/-- The elements that the text declares are read off, those of the input tuple first. -/
theorem DeclText.tupVarsExtract_eq (d : DeclText) :
    tupVarsExtract d.text d.inArity d.outArity = d.ins.tupVars ++ d.outVars := by
  obtain ⟨before, ins, outs, after, hbefore, hbetween⟩ := d
  rcases outs with _ | ⟨arrow, o⟩
  · have hnext := ins.nextTuple_eq [] after hbefore
    refine (tupVarsExtract_set ins.arity hnext).trans ?_
    rw [DeclText.outVars, Option.map_none, Option.getD_none, List.append_nil]
    exact ins.reads.tupVarsFrom_eq
  by_cases hout : o.arity = 0
  · have hnext := ins.nextTuple_eq [] (arrow ++ o.text after) hbefore
    have hvars : DeclText.outVars ⟨before, ins, some (arrow, o), after, hbefore, hbetween⟩ = [] := by
      rw [DeclText.outVars, Option.map_some, Option.getD_some, TupleText.tupVars, List.length_eq_zero_iff.1 hout]
      rfl
    rw [hvars, List.append_nil]
    show tupVarsExtract _ ins.arity o.arity = _
    rw [hout]
    exact (tupVarsExtract_set ins.arity hnext).trans ins.reads.tupVarsFrom_eq
  · have hnext := ins.nextTuple_eq [] (arrow ++ o.text after) hbefore
    have hnext' := o.nextTuple_eq (before ++ ins.text []) after (hbetween _ rfl)
    have hdecl : before ++ ins.text [] ++ (arrow ++ o.text after) = [] ++ (before ++ ins.text (arrow ++ o.text after)) := by
      simp [TupleText.text]
    rw [hdecl] at hnext'
    refine (tupVarsExtract_relation ins.arity hout hnext hnext').trans ?_
    exact congrArg₂ _ ins.reads.tupVarsFrom_eq o.reads.tupVarsFrom_eq

/-- A text of the documented form: the parameters, a declaration in braces, perhaps a colon and constraints, and blanks. -/
structure SRText where
  symVars : List Char
  decl : DeclText
  constraints : Option (List Char)
  rest : List Char
  noOpening : '\x7b' ∉ symVars
  noColon : ':' ∉ decl.text
  noClosing : '\x7d' ∉ decl.text ++ constraints.getD []
  blank : ∀ c ∈ rest, isSpace c = true

namespace SRText

variable (t : SRText)

/-- What follows the declaration. -/
def tail : List Char :=
  match t.constraints with
  | none => '\x7d' :: t.rest
  | some c => ':' :: (c ++ '\x7d' :: t.rest)

def text : List Char := t.symVars ++ '\x7b' :: (t.decl.text ++ t.tail)

theorem noColon_rest : ':' ∉ t.rest := fun h => absurd (t.blank _ h) (by decide)

theorem getPartsFromStr_some {c : List Char} (h : t.constraints = some c) :
    getPartsFromStr (.ofList t.text) =
      ⟨.ofList t.symVars, "\x7b", .ofList t.decl.text, ":", .ofList c, "\x7d"⟩ := by
  have hc : '\x7d' ∉ c := fun hmem => t.noClosing (by rw [h]; exact List.mem_append_right _ hmem)
  rw [text, tail, h]
  exact getPartsFromStr_colon t.noOpening t.noColon hc

theorem getPartsFromStr_none (h : t.constraints = none) :
    getPartsFromStr (.ofList t.text) =
      ⟨.ofList t.symVars, "\x7b", .ofList t.decl.text.dropLast, ":", "", "\x7d"⟩ := by
  have hlast := List.dropLast_append_getLast t.decl.text_ne_nil
  have hd := t.noColon
  have hd' := fun hmem => t.noClosing (List.mem_append_left _ hmem)
  rw [← hlast] at hd hd'
  rw [text, tail, h]
  conv_lhs => rw [← hlast]
  exact getPartsFromStr_noColon t.noOpening hd hd' t.noColon_rest

end SRText

/-! ## Taking an element out -/

/-- Elements with commas between them. -/
def commaSeparated (elems : List (List Char)) : List Char := ", ".toList.intercalate elems

/-- The text that declares elements, with the arrow between the inputs and the outputs of a relation. -/
def declares (ins : List (List Char)) : Option (List (List Char)) → List Char
  | none => '[' :: (commaSeparated ins ++ "]".toList)
  | some outs => '[' :: (commaSeparated ins ++ ("] -> [".toList ++ (commaSeparated outs ++ "]".toList)))

/-- What the loop appends for an element when no arrow stands before it: the element and a separator, or nothing. -/
def appendElem (p : Nat) (sep : Nat → Prop) [DecidablePred sep] (acc : List Char) (elem : List Char × Nat) : List Char :=
  if elem.2 ≠ p then (if sep elem.2 then acc ++ elem.1 ++ ", ".toList else acc ++ elem.1) else acc

/-- The elements from `b` on that are left when element `p` is taken out. -/
def leftFrom (b p : Nat) (elems : List (List Char)) : List (List Char) :=
  if b ≤ p then elems.eraseIdx (p - b) else elems

theorem leftFrom_cons_self (b : Nat) (e : List Char) (elems : List (List Char)) :
    leftFrom b b (e :: elems) = leftFrom (b + 1) b elems := by
  simp [leftFrom]

theorem leftFrom_cons {b p : Nat} (h : b ≠ p) (e : List Char) (elems : List (List Char)) :
    leftFrom b p (e :: elems) = e :: leftFrom (b + 1) p elems := by
  unfold leftFrom
  rcases lt_or_gt_of_ne h with h | h
  · have hsub : p - b = p - (b + 1) + 1 := by omega
    rw [if_pos h.le, if_pos (show b + 1 ≤ p by omega), hsub, List.eraseIdx_cons_succ]
  · rw [if_neg (by omega), if_neg (by omega)]

theorem leftFrom_eq_nil {b p : Nat} {elems : List (List Char)} :
    leftFrom b p elems = [] ↔ elems.length = 0 ∨ (elems.length = 1 ∧ p = b) := by
  unfold leftFrom
  split
  · rw [← List.length_eq_zero_iff, List.length_eraseIdx]
    split <;> omega
  · rw [List.length_eq_zero_iff.symm]
    omega

theorem commaSeparated_cons (e : List Char) (elems : List (List Char)) :
    commaSeparated (e :: elems) = if elems = [] then e else e ++ ", ".toList ++ commaSeparated elems := by
  cases elems with
  | nil => simp [commaSeparated]
  | cons e' elems => rw [if_neg (List.cons_ne_nil _ _)]; exact List.intercalate_cons_cons

/-- Over one tuple: where a separator stands behind an element just when another one is left behind it, the elements that
are left come out with commas between them. -/
theorem foldl_appendElem {p : Nat} (sep : Nat → Prop) [DecidablePred sep] {elems : List (List Char)} {b : Nat}
    (hsep : ∀ i, b ≤ i → i < b + elems.length →
      (sep i ↔ ¬ (i + 1 = b + elems.length ∨ (i + 2 = b + elems.length ∧ p = i + 1)))) (acc : List Char) :
    (elems.zipIdx b).foldl (appendElem p sep) acc = acc ++ commaSeparated (leftFrom b p elems) := by
  induction elems generalizing b acc with
  | nil => simp [leftFrom, commaSeparated]
  | cons e elems ih =>
    rw [List.length_cons] at hsep
    have hrest := ih (b := b + 1) fun i hb hi => by rw [hsep i (by omega) (by omega)]; omega
    rw [List.zipIdx_cons, List.foldl_cons, hrest]
    by_cases hp : b = p
    · subst hp
      rw [leftFrom_cons_self, appendElem, if_neg (by simp)]
    · have hiff : sep b ↔ leftFrom (b + 1) p elems ≠ [] := by
        rw [hsep b le_rfl (by omega), ne_eq, leftFrom_eq_nil]; omega
      rw [leftFrom_cons hp, commaSeparated_cons, appendElem, if_pos (by simpa using hp)]
      by_cases hleft : leftFrom (b + 1) p elems = []
      · rw [if_pos hleft, if_neg (fun h => hiff.1 h hleft), hleft]
        simp [commaSeparated]
      · rw [if_neg hleft, if_pos (hiff.2 hleft)]
        simp

/-- Where the loop puts a separator. -/
def SeparatorAfter (p inArity outArity i : Nat) : Prop :=
  (i : Int) ≠ (inArity + outArity : Nat) - 1 ∧ (i : Int) ≠ inArity - 1 ∧
    ¬ (((i : Int) = (inArity + outArity : Nat) - 2 ∧ (p : Int) = (inArity + outArity : Nat) - 1) ∨
      ((i : Int) = inArity - 2 ∧ (p : Int) = inArity - 1))

instance (p inArity outArity : Nat) : DecidablePred (SeparatorAfter p inArity outArity) := fun i => by
  unfold SeparatorAfter; infer_instance

theorem projectElem_eq (p inArity outArity : Nat) (acc : List Char) (elem : List Char × Nat) :
    projectElem p inArity outArity acc elem = appendElem p (SeparatorAfter p inArity outArity)
      (if elem.2 = inArity ∧ outArity ≠ 0 then acc ++ "] -> [".toList else acc) elem := by
  obtain ⟨e, i⟩ := elem
  simp only [projectElem, appendElem, SeparatorAfter, ne_eq, Nat.cast_inj, Nat.cast_add]

/-- The elements of the first tuple, behind the opening bracket. -/
theorem foldl_projectElem_ins {p inArity outArity : Nat} {elems : List (List Char)} (h : elems.length = inArity)
    (acc : List Char) :
    elems.zipIdx.foldl (projectElem p inArity outArity) acc = acc ++ commaSeparated (leftFrom 0 p elems) := by
  rw [← foldl_appendElem (SeparatorAfter p inArity outArity)]
  · refine List.foldl_ext _ _ _ fun a elem helem => ?_
    have hlt := List.snd_lt_of_mem_zipIdx helem
    rw [projectElem_eq, if_neg (by omega)]
  · intro i _ hi
    unfold SeparatorAfter
    omega

/-- The elements of the second tuple: the arrow stands before the first of them. -/
theorem foldl_projectElem_outs {p inArity outArity : Nat} {elems : List (List Char)} (h : elems.length = outArity)
    (hpos : outArity ≠ 0) (acc : List Char) :
    (elems.zipIdx inArity).foldl (projectElem p inArity outArity) acc =
      acc ++ "] -> [".toList ++ commaSeparated (leftFrom inArity p elems) := by
  rw [← foldl_appendElem (SeparatorAfter p inArity outArity)]
  · cases elems with
    | nil => exact absurd h.symm hpos
    | cons e elems =>
      rw [List.zipIdx_cons, List.foldl_cons, List.foldl_cons, projectElem_eq, if_pos ⟨rfl, hpos⟩]
      refine List.foldl_ext _ _ _ fun a elem helem => ?_
      have hle := List.le_snd_of_mem_zipIdx helem
      rw [projectElem_eq, if_neg (by omega)]
  · intro i _ hi
    unfold SeparatorAfter
    omega

/-- The declaration with element `p` taken out. -/
def DeclText.without (d : DeclText) (p : Nat) : List Char :=
  declares (leftFrom 0 p d.ins.tupVars) (d.outs.map fun o => leftFrom d.inArity p o.2.tupVars)

/-- The declaration that is written: the arrow stands before the first output, and so nowhere when there is none. -/
def DeclText.rewritten (d : DeclText) (p : Nat) : List Char :=
  if d.IsSetOrRelation then d.without p else declares (leftFrom 0 p d.ins.tupVars) none

theorem DeclText.foldl_projectElem (d : DeclText) (p : Nat) :
    (d.ins.tupVars ++ d.outVars).zipIdx.foldl (projectElem p d.inArity d.outArity) "[".toList ++ "] ".toList =
      d.rewritten p ++ " ".toList := by
  have hin : d.ins.tupVars.length = d.inArity := List.length_map _
  obtain ⟨before, ins, outs, after, hbracket⟩ := d
  rw [List.zipIdx_append, List.foldl_append, foldl_projectElem_ins hin]
  cases outs with
  | none => simp [rewritten, IsSetOrRelation, outVars, without, declares]
  | some o =>
    by_cases hnil : o.2.elems = []
    · simp [rewritten, IsSetOrRelation, outVars, hnil, TupleText.tupVars, declares]
    · have hout : o.2.tupVars.length = outArity ⟨before, ins, some o, after, hbracket⟩ := List.length_map _
      have hpos : o.2.tupVars.length ≠ 0 := by
        rw [TupleText.tupVars, List.length_map]
        exact fun h0 => hnil (List.length_eq_zero_iff.1 h0)
      simp only [outVars, Option.map_some, Option.getD_some]
      rw [hin, zero_add, foldl_projectElem_outs hout (hout ▸ hpos)]
      simp [rewritten, IsSetOrRelation, hnil, without, declares]

/-- The elements left on both sides of the arrow are all the elements but the one at `p`. -/
theorem leftFrom_append_leftFrom (p : Nat) (ins outs : List (List Char)) :
    leftFrom 0 p ins ++ leftFrom ins.length p outs = (ins ++ outs).eraseIdx p := by
  unfold leftFrom
  rw [if_pos (Nat.zero_le p), Nat.sub_zero]
  split
  · rename_i hle
    rw [List.eraseIdx_of_length_le hle, List.eraseIdx_append_of_length_le hle]
  · rw [List.eraseIdx_append_of_lt_length (by omega)]

/-! ## Texts with a colon -/

/-- What stands between the braces for one conjunction: a declaration, a colon and the constraints. -/
structure BodyText where
  decl : DeclText
  constraints : List Char
  noColon : ':' ∉ decl.text
  noClosing : '\x7d' ∉ constraints

def BodyText.text (b : BodyText) : List Char := b.decl.text ++ ':' :: b.constraints

/-- The text of a union: the parameters, the first body, and the bodies that follow it with what stands before their
opening braces. -/
structure UnionText where
  symVars : List Char
  first : BodyText
  others : List (List Char × BodyText)
  rest : List Char
  noOpening : '\x7b' ∉ symVars
  sameArity : ∀ o ∈ others, o.2.decl.inArity = first.decl.inArity ∧ o.2.decl.outArity = first.decl.outArity ∧
    o.2.decl.outs.isSome = first.decl.outs.isSome
  blank : ∀ c ∈ rest, isSpace c = true

namespace UnionText

variable (t : UnionText)

/-- The bodies behind the first one. -/
def more (bodies : List (List Char × List Char)) (rest : List Char) : List Char :=
  bodies.flatMap (fun o => o.1 ++ '\x7b' :: (o.2 ++ ['\x7d'])) ++ rest

def text : List Char :=
  t.symVars ++ '\x7b' :: (t.first.text ++ '\x7d' :: more (t.others.map fun o => (o.1, o.2.text)) t.rest)

def inArity : Nat := t.first.decl.inArity
def outArity : Nat := t.first.decl.outArity

/-- What `projectOutStrCorrection` writes: the first body, and nothing of the others. -/
theorem projectOutStrCorrection_eq (poTv : Nat) :
    projectOutStrCorrection (.ofList t.text) poTv t.inArity t.outArity =
      .ofList (t.symVars ++ '\x7b' :: (t.first.decl.rewritten poTv ++
        ' ' :: ((if t.first.constraints = [] then [] else ':' :: t.first.constraints) ++ ['\x7d']))) := by
  have hparts : getPartsFromStr (.ofList t.text) =
      ⟨.ofList t.symVars, "\x7b", .ofList t.first.decl.text, ":", .ofList t.first.constraints, "\x7d"⟩ := by
    rw [text, BodyText.text, List.append_assoc, List.cons_append]
    exact getPartsFromStr_colon t.noOpening t.first.noColon t.first.noClosing
  have hlen : (String.ofList t.first.constraints).length = t.first.constraints.length := String.length_ofList
  unfold projectOutStrCorrection
  simp only [hparts, String.toList_ofList, inArity, outArity, t.first.decl.tupVarsExtract_eq,
    t.first.decl.foldl_projectElem, hlen]
  by_cases hnil : t.first.constraints = []
  · rw [if_pos (by simp [hnil]), if_pos hnil]
    simp [← String.toList_inj]
  · rw [if_neg (by simpa using hnil), if_neg hnil]
    simp [← String.toList_inj]

end UnionText

/-! ## When an element is taken out -/

/-- A body with element `p` taken out of its declaration: blanks may stand around the declaration, and a colon before no
constraints may be left out. -/
def BodyText.TakenOut (b : BodyText) (p : Nat) (s : List Char) : Prop :=
  ∃ pre post, (∀ c ∈ pre ++ post, isSpace c = true) ∧
    (s = pre ++ b.decl.without p ++ post ++ ':' :: b.constraints ∨
      b.constraints = [] ∧ s = pre ++ b.decl.without p ++ post)

/-- A text with element `p` taken out of every declaration, and all else as it was. -/
def UnionText.TakenOut (t : UnionText) (p : Nat) (s : String) : Prop :=
  ∃ first others rest, t.first.TakenOut p first ∧ t.others.Forall₂ (fun o o' => o'.1 = o.1 ∧ o.2.TakenOut p o'.2) others ∧
    (∀ c ∈ rest, isSpace c = true) ∧
    s = .ofList (t.symVars ++ '\x7b' :: (first ++ '\x7d' :: more others rest))

theorem count_opening_blank {s : List Char} (h : ∀ c ∈ s, isSpace c = true) : s.count '[' = 0 :=
  List.count_eq_zero.2 fun hmem => absurd (h _ hmem) (by decide)

theorem BodyText.TakenOut.count_opening {b : BodyText} {p : Nat} {s : List Char} (h : b.TakenOut p s) :
    s.count '[' = (b.decl.without p).count '[' + b.constraints.count '[' := by
  obtain ⟨pre, post, hblank, hs⟩ := h
  have hpre := count_opening_blank fun c hc => hblank c (List.mem_append_left _ hc)
  have hpost := count_opening_blank fun c hc => hblank c (List.mem_append_right _ hc)
  rcases hs with rfl | ⟨hnil, rfl⟩
  · simp [List.count_append, hpre, hpost]
  · simp [List.count_append, hpre, hpost, hnil]

theorem DeclText.count_opening_without_pos (d : DeclText) (p : Nat) : 0 < (d.without p).count '[' := by
  refine List.count_pos_iff.2 ?_
  unfold without declares
  split <;> exact List.mem_cons_self

/-- A second tuple has an opening bracket of its own. -/
theorem DeclText.count_opening_rewritten {d : DeclText} (h : ¬ d.IsSetOrRelation) (p : Nat) :
    (d.rewritten p).count '[' < (d.without p).count '[' := by
  obtain ⟨before, ins, outs, after, hbracket⟩ := d
  rw [rewritten, if_neg h]
  cases outs with
  | none => exact absurd (fun o ho => nomatch ho) h
  | some o =>
    simp only [without, Option.map_some, declares, List.count_cons, List.count_append]
    have harrow : "] -> [".toList.count '[' = 1 := by decide
    omega

theorem more_count_opening {bodies : List (List Char × List Char)} (rest : List Char)
    (h : ∀ o ∈ bodies, 0 < o.2.count '[') (hne : bodies ≠ []) : 0 < (UnionText.more bodies rest).count '[' := by
  obtain ⟨o, os, rfl⟩ := List.exists_cons_of_ne_nil hne
  have ho := h o List.mem_cons_self
  simp only [UnionText.more, List.flatMap_cons, List.count_append, List.count_cons]
  omega

namespace UnionText

variable {t : UnionText} {p : Nat}

/-- One set or one relation with outputs: what the function is written for. -/
theorem takenOut_of_single (hothers : t.others = []) (hdecl : t.first.decl.IsSetOrRelation) :
    t.TakenOut p (projectOutStrCorrection (.ofList t.text) p t.inArity t.outArity) := by
  have hrewritten : t.first.decl.rewritten p = t.first.decl.without p := if_pos hdecl
  have hfirst : t.first.TakenOut p (t.first.decl.rewritten p ++
      ' ' :: (if t.first.constraints = [] then [] else ':' :: t.first.constraints)) := by
    refine ⟨[], [' '], fun c hc => List.mem_singleton.1 hc ▸ rfl, ?_⟩
    by_cases hnil : t.first.constraints = []
    · exact .inr ⟨hnil, by simp [hnil, hrewritten]⟩
    · exact .inl (by simp [hnil, hrewritten])
  refine ⟨_, [], [], hfirst, by rw [hothers]; exact .nil, by simp, ?_⟩
  rw [t.projectOutStrCorrection_eq]
  simp [more]

/-- Opening brackets are missing from what is written for a union or for a relation without outputs. -/
theorem not_takenOut (h : ¬ (t.others = [] ∧ t.first.decl.IsSetOrRelation)) :
    ¬ t.TakenOut p (projectOutStrCorrection (.ofList t.text) p t.inArity t.outArity) := by
  rintro ⟨first, others, rest, hfirst, hothers, _, hs⟩
  rw [t.projectOutStrCorrection_eq] at hs
  have hcount := congrArg (List.count '[') (String.ofList_injective hs)
  simp only [List.count_append, List.count_cons, hfirst.count_opening] at hcount
  have hc : (if t.first.constraints = [] then [] else ':' :: t.first.constraints).count '[' =
      t.first.constraints.count '[' := by
    split
    · rename_i hnil; rw [hnil]
    · simp
  rw [hc] at hcount
  have hpos : ∀ o ∈ others, 0 < o.2.count '[' := fun o ho => by
    obtain ⟨o', _, _, hbody⟩ := Outcome.exists_of_mem_forall₂ hothers ho
    rw [hbody.count_opening]
    exact Nat.add_pos_left (o'.2.decl.count_opening_without_pos p) _
  by_cases hdecl : t.first.decl.IsSetOrRelation
  · have hne : others ≠ [] := fun hnil => h ⟨List.forall₂_nil_right_iff.1 (hnil ▸ hothers), hdecl⟩
    have hmore := more_count_opening rest hpos hne
    rw [DeclText.rewritten, if_pos hdecl] at hcount
    simp at hcount
    omega
  · have hlt := DeclText.count_opening_rewritten hdecl p
    simp at hcount
    omega

end UnionText

/-- **An element is taken out of the declaration, and all else of the text stays as it is, just when the text has one body
and, for a relation, an output.** -/
theorem UnionText.projectOutStrCorrection_takesOut_iff (t : UnionText) (poTv : Nat) :
    (t.TakenOut poTv (projectOutStrCorrection (.ofList t.text) poTv t.inArity t.outArity) ↔
      t.others = [] ∧ t.first.decl.IsSetOrRelation) ∧
    leftFrom 0 poTv t.first.decl.ins.tupVars ++ leftFrom t.inArity poTv t.first.decl.outVars =
      (t.first.decl.ins.tupVars ++ t.first.decl.outVars).eraseIdx poTv := by
  refine ⟨⟨fun h => not_not.1 fun hnot => not_takenOut hnot h, fun h => takenOut_of_single h.1 h.2⟩, ?_⟩
  have hin : t.inArity = t.first.decl.ins.tupVars.length := (List.length_map _).symm
  rw [hin, leftFrom_append_leftFrom]

/-- The text `{[i, j] -> [] : i = j}` of a relation without outputs. -/
def noOutputsText : UnionText where
  symVars := []
  first :=
    { decl :=
        { before := []
          ins := .of "i".toList [" j".toList] (by decide)
          outs := some (" -> ".toList, ⟨[], [], .nil (by decide)⟩)
          after := " ".toList
          noBracket := by decide }
      constraints := " i = j".toList
      noColon := by decide
      noClosing := by decide }
  others := []
  rest := []
  noOpening := by decide
  sameArity := by simp
  blank := by simp

/-- The arrow goes with the last input that is not there. -/
theorem noOutputsText_projectOutStrCorrection :
    noOutputsText.text = "{[i, j] -> [] : i = j}".toList ∧
    projectOutStrCorrection "{[i, j] -> [] : i = j}" 0 2 0 = "{[j] : i = j}" ∧
    ¬ noOutputsText.TakenOut 0 "{[j] : i = j}" := by
  have hcode : projectOutStrCorrection "{[i, j] -> [] : i = j}" 0 2 0 = "{[j] : i = j}" := by decide +kernel
  have htext : noOutputsText.text = "{[i, j] -> [] : i = j}".toList := by decide +kernel
  refine ⟨htext, hcode, ?_⟩
  have hnot := UnionText.not_takenOut (t := noOutputsText) (p := 0) (by decide)
  rwa [htext, String.ofList_toList, show noOutputsText.inArity = 2 from rfl, show noOutputsText.outArity = 0 from rfl,
    Nat.cast_zero, hcode] at hnot

end IEGen
