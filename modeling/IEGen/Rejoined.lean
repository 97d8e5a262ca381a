import IEGen.Tuples
import IEGen.Grammar
import IEGen.Lib.Words
import Mathlib.Data.List.DropRight

/-!
# Texts put together again

`getFullStrFromParts` puts the parts of a text together, and `setStr2RelationStr` and `relationStr2SetStr` do so with
another declaration.

* The text before the brace ends in its arrow already, and `getFullStrFromParts` writes one behind it. So a text with
  anything before its brace is not one any more when it is put together (`Prefix.count_eq`).
* A set is what a relation without outputs becomes, and what it stays.
* `reads_iff`: where nothing stands before the brace, no bracket is cut off and a relation has outputs, and only there, what
  is put together reads as what was taken apart.
-/

namespace IEGen

/-! ## The functions on texts -/

/-- `getFullStrFromParts` -/
def getFullStrFromParts (parts : SrParts) : String :=
  let compStr := if parts.symVars ≠ "" then parts.symVars ++ " -> " else ""
  compStr ++ parts.sC ++ parts.tupDecl ++ parts.sepC ++ parts.constraints ++ parts.eC

/-- One step of the loop of `setStr2RelationStr` over the elements, with their numbers. -/
def splitElem (inArity : Nat) (newTupDecl : List Char) (iter : List Char × Nat) : List Char :=
  (if iter.2 = inArity then newTupDecl ++ "] -> [".toList else if iter.2 ≠ 0 then newTupDecl ++ ",".toList else newTupDecl) ++
    iter.1

/-- `setStr2RelationStr` -/
def setStr2RelationStr (set : String) (inArity outArity : Nat) : String :=
  let setParts := getPartsFromStr set
  let iters := tupVarsExtract setParts.tupDecl.toList (inArity + outArity) 0
  let newTupDecl := iters.zipIdx.foldl (splitElem inArity) "[".toList ++ "]".toList
  getFullStrFromParts { setParts with tupDecl := .ofList newTupDecl }

/-- One step of the loop of `relationStr2SetStr` over the elements, with their numbers. -/
def joinElem (newTupDecl : List Char) (iter : List Char × Nat) : List Char :=
  (if iter.2 ≠ 0 then newTupDecl ++ ",".toList else newTupDecl) ++ iter.1

/-- `relationStr2SetStr` -/
def relationStr2SetStr (relation : String) (inArity outArity : Nat) : String :=
  let relationParts := getPartsFromStr relation
  let iters := tupVarsExtract relationParts.tupDecl.toList inArity outArity
  let newTupDecl := iters.zipIdx.foldl joinElem "[".toList ++ "]".toList
  getFullStrFromParts { relationParts with tupDecl := .ofList newTupDecl }

/-! ## Reading a text -/

/-- Blanks. -/
def Blank (s : List Char) : Prop := ∀ c ∈ s, isSpace c = true

/-- A parameter: a name, perhaps with blanks around it. -/
def IsParam (x : List Char) : Prop := (∀ c ∈ x, isIdentChar c = true ∨ isSpace c = true) ∧ trim x ≠ []

/-- What stands before the brace: nothing, or the parameters in brackets and an arrow. -/
inductive Prefix : List Char → List (List Char) → Prop
  | none {s : List Char} : Blank s → Prefix s []
  | some {a b c e : List Char} {names : List (List Char)} :
    Blank a → (∀ x ∈ e :: names, IsParam x) → Blank b → Blank c →
    Prefix (a ++ '[' :: ([','].intercalate (e :: names) ++ ']' :: (b ++ '-' :: '>' :: c))) ((e :: names).map trim)

/-- What stands between the two tuples of a relation. -/
def Arrow (s : List Char) : Prop := ∃ a b, Blank a ∧ Blank b ∧ s = a ++ '-' :: '>' :: b

/-- An element is not blank, and no character of it marks the parts of a text. -/
def IsElement (e : List Char) : Prop := (∀ c ∈ e, c ∉ "[]\x7b\x7d,:".toList) ∧ trim e ≠ []

/-- A tuple with elements, or an empty one. -/
def TupleText.Written (t : TupleText) : Prop := (∀ e ∈ t.elems, IsElement e) ∧ (t.elems = [] → Blank t.inner)

/-- A declaration in the documented format. -/
structure DeclText.Written (d : DeclText) : Prop where
  before : Blank d.before
  ins : d.ins.Written
  arrow : ∀ o ∈ d.outs, Arrow o.1
  outs : ∀ o ∈ d.outs, o.2.Written
  after : Blank d.after

/-- A text in the documented format, with these parameters. -/
structure SRText.Written (t : SRText) (params : List (List Char)) : Prop where
  symVars : Prefix t.symVars params
  decl : t.decl.Written

/-- What a text is read as: the parameters, the elements of a set or a relation and the constraints. -/
structure Reading where
  params : List (List Char)
  ins : List (List Char)
  outs : Option (List (List Char))
  constraints : List Char

def SRText.reading (t : SRText) (params : List (List Char)) : Reading :=
  ⟨params, t.decl.ins.tupVars, t.decl.outs.map fun o => o.2.tupVars, trim (t.constraints.getD [])⟩

/-- A text is read as this. -/
def ReadsAs (s : String) (r : Reading) : Prop :=
  ∃ (t : SRText) (params : List (List Char)), t.Written params ∧ s = .ofList t.text ∧ t.reading params = r

/-! ## Lemmas about characters -/

theorem mem_of_mem_trim {c : Char} {x : List Char} (h : c ∈ trim x) : c ∈ x :=
  (List.dropWhile_suffix _).subset (List.mem_reverse.1 ((List.dropWhile_suffix _).subset (List.mem_reverse.1 h)))

theorem trim_trim (x : List Char) : trim (trim x) = trim x := by
  have hhead : (trim x).dropWhile isSpace = trim x := by
    rw [List.dropWhile_eq_self_iff]
    intro hl
    have hpre : trim x <+: x.dropWhile isSpace := List.rdropWhile_prefix isSpace _
    have hl' : 0 < (x.dropWhile isSpace).length := hl.trans_le hpre.length_le
    rw [hpre.getElem hl]
    exact List.dropWhile_get_zero_not _ _ hl'
  have hlast : (trim x).rdropWhile isSpace = trim x := List.rdropWhile_idempotent _ _
  show ((trim x).dropWhile isSpace).rdropWhile isSpace = _
  rw [hhead, hlast]

theorem Blank.not_mem {s : List Char} {c : Char} (h : Blank s) (hc : isSpace c = false) : c ∉ s :=
  fun hmem => by simp [h c hmem] at hc

theorem Blank.count {s : List Char} {c : Char} (h : Blank s) (hc : isSpace c = false) : s.count c = 0 :=
  List.count_eq_zero_of_not_mem (h.not_mem hc)

theorem IsElement.not_mem {e : List Char} {c : Char} (h : IsElement e) (hc : c ∈ "[]\x7b\x7d,:".toList) : c ∉ e :=
  fun hmem => h.1 c hmem hc

theorem IsElement.trim {e : List Char} (h : IsElement e) : IsElement (trim e) :=
  ⟨fun c hc => h.1 c (mem_of_mem_trim hc), by rw [trim_trim]; exact h.2⟩

theorem IsParam.not_mem {x : List Char} {c : Char} (h : IsParam x) (hc : isIdentChar c = false) (hs : isSpace c = false) :
    c ∉ x := fun hmem => by
  rcases h.1 c hmem with h | h
  · rw [h] at hc; cases hc
  · rw [h] at hs; cases hs

/-- Before the brace there are as many arrows as brackets. -/
theorem Prefix.count_eq {s : List Char} {params : List (List Char)} (h : Prefix s params) : s.count '>' = s.count '[' := by
  cases h with
  | none h => rw [h.count (by decide), h.count (by decide)]
  | @some a b c e names ha hn hb hc =>
    have hnames : ∀ d : Char, isIdentChar d = false → isSpace d = false → d ≠ ',' →
        ([','].intercalate (e :: names)).count d = 0 := fun d hi hd hcomma =>
      List.count_eq_zero_of_not_mem (not_mem_intercalate hcomma fun x hx => (hn x hx).not_mem hi hd)
    simp only [List.count_append, List.count_cons, ha.count (show isSpace '>' = false by decide),
      ha.count (show isSpace '[' = false by decide), hb.count (show isSpace '>' = false by decide),
      hb.count (show isSpace '[' = false by decide), hc.count (show isSpace '>' = false by decide),
      hc.count (show isSpace '[' = false by decide), hnames '>' (by decide) (by decide) (by decide),
      hnames '[' (by decide) (by decide) (by decide)]
    decide

/-- An opening or a closing bracket. -/
def IsBracket (c : Char) : Prop := c = '[' ∨ c = ']'

theorem IsBracket.not_isSpace {c : Char} (h : IsBracket c) : isSpace c = false := by rcases h with rfl | rfl <;> decide

/-- A bracket stands in no element. -/
theorem TupleText.Written.count_inner {t : TupleText} (h : t.Written) {c : Char} (hc : IsBracket c) : t.inner.count c = 0 := by
  refine List.count_eq_zero_of_not_mem ?_
  obtain ⟨inner, elems, hreads⟩ := t
  cases hreads with
  | nil _ => exact (h.2 rfl).not_mem hc.not_isSpace
  | cons _ =>
    refine not_mem_intercalate (by rcases hc with rfl | rfl <;> decide) fun x hx => (h.1 x hx).not_mem ?_
    rcases hc with rfl | rfl <;> decide

theorem Arrow.count {s : List Char} (h : Arrow s) {c : Char} (hc : IsBracket c) : s.count c = 0 := by
  obtain ⟨a, b, ha, hb, rfl⟩ := h
  rw [List.count_append, List.count_cons, List.count_cons, ha.count hc.not_isSpace, hb.count hc.not_isSpace]
  rcases hc with rfl | rfl <;> decide

/-- A set has one pair of brackets and a relation two. -/
theorem DeclText.Written.count_text {d : DeclText} (h : d.Written) {c : Char} (hc : IsBracket c) :
    d.text.count c = if d.outs.isSome then 2 else 1 := by
  have hbrackets : ∀ (u : TupleText) (rest : List Char), u.Written → (u.text rest).count c = 1 + rest.count c := by
    intro u rest hu
    rw [TupleText.text, List.count_cons, List.count_append, List.count_cons, hu.count_inner hc]
    rcases hc with rfl | rfl <;> simp <;> omega
  have harrow := h.arrow
  have houts := h.outs
  unfold DeclText.text
  rw [List.count_append, h.before.count hc.not_isSpace, hbrackets _ _ h.ins]
  cases ho : d.outs with
  | none => simp [h.after.count hc.not_isSpace]
  | some o => simp [(harrow o ho).count hc, hbrackets _ _ (houts o ho), h.after.count hc.not_isSpace]

/-! ## What is put together -/

/-- A text put together from its parts. -/
def joined (symVars decl c : List Char) : List Char := symVars ++ '\x7b' :: (decl ++ ':' :: (c ++ ['\x7d']))

/-- What stands before the brace when `getFullStrFromParts` has put its arrow behind it. -/
def arrowed (symVars : List Char) : List Char := if symVars = [] then [] else symVars ++ " -> ".toList

theorem getFullStrFromParts_eq (symVars decl c : List Char) :
    getFullStrFromParts ⟨.ofList symVars, "\x7b", .ofList decl, ":", .ofList c, "\x7d"⟩ =
      .ofList (joined (arrowed symVars) decl c) := by
  unfold getFullStrFromParts joined arrowed
  by_cases h : symVars = []
  · simp [h, ← String.toList_inj]
  · have hne : (String.ofList symVars) ≠ "" := fun heq => h (by simpa using congrArg String.toList heq)
    simp [h, hne, ← String.toList_inj]

theorem not_mem_arrowed {symVars : List Char} (h : '\x7b' ∉ symVars) : '\x7b' ∉ arrowed symVars := by
  unfold arrowed
  split
  · exact List.not_mem_nil
  · simpa using h

theorem getPartsFromStr_joined {symVars decl c : List Char} (hs : '\x7b' ∉ symVars) (hd : ':' ∉ decl) (hc : '\x7d' ∉ c) :
    getPartsFromStr (.ofList (joined symVars decl c)) = ⟨.ofList symVars, "\x7b", .ofList decl, ":", .ofList c, "\x7d"⟩ :=
  getPartsFromStr_colon hs hd hc

namespace SRText

variable (t : SRText)

/-- The declaration as it is cut out of a text: without a colon its last character is lost. -/
def cutDecl : List Char := if t.constraints.isSome then t.decl.text else t.decl.text.dropLast

theorem getPartsFromStr_eq :
    getPartsFromStr (.ofList t.text) =
      ⟨.ofList t.symVars, "\x7b", .ofList t.cutDecl, ":", .ofList (t.constraints.getD []), "\x7d"⟩ := by
  cases h : t.constraints with
  | none => rw [t.getPartsFromStr_none h, cutDecl, h]; rfl
  | some c => rw [t.getPartsFromStr_some h, cutDecl, h]; rfl

theorem colon_not_mem_cutDecl : ':' ∉ t.cutDecl := by
  unfold cutDecl
  split
  · exact t.noColon
  · exact fun h => t.noColon ((List.dropLast_sublist _).subset h)

/-- The text before the brace and the declaration are read off in one way. -/
theorem cut {t : SRText} {symVars decl rest : List Char} (h : t.text = symVars ++ '\x7b' :: (decl ++ ':' :: rest))
    (hs : '\x7b' ∉ symVars) (hd : ':' ∉ decl) : t.symVars = symVars ∧ t.decl.text = decl := by
  have hrun : ∀ {c : Char} {u : List Char}, c ∉ u → ∀ x ∈ u, (x != c) = true := fun {c u} hu x hx => by
    have hne : x ≠ c := fun heq => hu (heq ▸ hx)
    simpa using hne
  obtain ⟨hsym, hrest⟩ := Words.run_unique (p := (· != '\x7b')) (hrun t.noOpening) (hrun hs) (by simp) (by simp) h
  have hdecl : t.decl.text ++ t.tail = decl ++ ':' :: rest := (List.cons.inj hrest).2
  refine ⟨hsym, ?_⟩
  cases hc : t.constraints with
  | none =>
    have hmem : ':' ∈ t.decl.text ++ t.tail := by rw [hdecl]; simp
    rw [tail, hc] at hmem
    simp only [List.mem_append, List.mem_cons] at hmem
    rcases hmem with hmem | hmem | hmem
    · exact absurd hmem t.noColon
    · exact absurd hmem (by decide)
    · exact absurd hmem t.noColon_rest
  | some c =>
    rw [tail, hc] at hdecl
    exact (Words.run_unique (p := (· != ':')) (hrun t.noColon) (hrun hd) (by simp) (by simp) hdecl).1

end SRText

/-- What is put together reads as something only where it has as many arrows as brackets before its brace, and the brackets of
a set or of a relation behind it. -/
theorem ReadsAs.counts {symVars decl c : List Char} {r : Reading} (h : ReadsAs (.ofList (joined symVars decl c)) r)
    (hs : '\x7b' ∉ symVars) (hd : ':' ∉ decl) :
    symVars.count '>' = symVars.count '[' ∧ ∀ b, IsBracket b → decl.count b = if r.outs.isSome then 2 else 1 := by
  obtain ⟨t, params, hw, htext, rfl⟩ := h
  obtain ⟨rfl, rfl⟩ := SRText.cut (String.ofList_injective htext).symm hs hd
  refine ⟨hw.symVars.count_eq, fun b hb => ?_⟩
  rw [hw.decl.count_text hb, SRText.reading]
  simp

/-- Behind nothing, a declaration in the documented format and constraints read as what they are. -/
theorem DeclText.Written.readsAs {d : DeclText} (h : d.Written) {c : List Char} (hcolon : ':' ∉ d.text)
    (hclosing : '\x7d' ∉ d.text ++ c) :
    ReadsAs (.ofList (joined [] d.text c)) ⟨[], d.ins.tupVars, d.outs.map fun o => o.2.tupVars, trim c⟩ :=
  ⟨⟨[], d, some c, [], List.not_mem_nil, hcolon, hclosing, fun _ hc => absurd hc List.not_mem_nil⟩, [],
    ⟨.none fun _ hc => absurd hc List.not_mem_nil, h⟩, rfl, rfl⟩

theorem Prefix.eq_nil {params : List (List Char)} (h : Prefix [] params) : params = [] := by
  generalize hs : ([] : List Char) = s at h
  cases h with
  | none => rfl
  | some => simp at hs

theorem count_arrowed_gt {s : List Char} (h : s ≠ []) : (arrowed s).count '>' = s.count '>' + 1 := by
  rw [arrowed, if_neg h, List.count_append]
  rfl

theorem count_arrowed_bracket (s : List Char) : (arrowed s).count '[' = s.count '[' := by
  unfold arrowed
  split
  · rename_i h; rw [h]
  · rw [List.count_append]
    rfl

theorem arrowed_eq_nil {s : List Char} : arrowed s = [] ↔ s = [] := by
  unfold arrowed
  split <;> simp_all

/-! ## What is taken apart and put together -/

namespace DeclText

variable (d : DeclText)

/-- The declaration with other blanks behind it. -/
def withAfter (after : List Char) : DeclText := { d with after := after }

theorem exists_text_withAfter : ∃ pre : List Char, ∀ after, (d.withAfter after).text = pre ++ ']' :: after := by
  obtain ⟨before, ins, outs, after, hbracket⟩ := d
  cases outs with
  | none => exact ⟨before ++ '[' :: ins.inner, fun after => by simp [withAfter, text, TupleText.text]⟩
  | some o =>
    exact ⟨before ++ ins.text (o.1 ++ '[' :: o.2.inner), fun after => by simp [withAfter, text, TupleText.text]⟩

/-- Without a blank behind it a declaration loses its last bracket. -/
theorem count_dropLast (h : d.after = []) : d.text.dropLast.count ']' + 1 = d.text.count ']' := by
  obtain ⟨pre, hpre⟩ := d.exists_text_withAfter
  have htext : d.text = pre ++ [']'] := h ▸ hpre d.after
  rw [htext, List.dropLast_concat, List.count_append]
  rfl

/-- With blanks behind it a declaration loses one of them. -/
theorem dropLast_text (h : d.after ≠ []) : d.text.dropLast = (d.withAfter d.after.dropLast).text := by
  obtain ⟨pre, hpre⟩ := d.exists_text_withAfter
  have htext : d.text = pre ++ ']' :: d.after := hpre d.after
  rw [htext, hpre, List.dropLast_append_of_ne_nil (List.cons_ne_nil _ _), List.dropLast_cons_of_ne_nil h]

end DeclText

theorem Blank.dropLast {s : List Char} (h : Blank s) : Blank s.dropLast :=
  fun c hc => h c ((List.dropLast_sublist _).subset hc)

namespace SRText

variable {t : SRText} {params : List (List Char)}

/-- Nothing stands before the brace, and the declaration keeps its brackets. -/
def KeepsBrackets (t : SRText) : Prop := t.constraints = none → t.decl.after ≠ []

/-- The parts of a text put together read as the text just when nothing stands before its brace and it keeps its brackets. -/
theorem Written.getFullStrFromParts_iff (h : t.Written params) :
    ReadsAs (getFullStrFromParts (getPartsFromStr (.ofList t.text))) (t.reading params) ↔
      t.symVars = [] ∧ t.KeepsBrackets := by
  rw [t.getPartsFromStr_eq, getFullStrFromParts_eq]
  constructor
  · intro hr
    obtain ⟨hcount, hbrackets⟩ := hr.counts (not_mem_arrowed t.noOpening) t.colon_not_mem_cutDecl
    refine ⟨by_contra fun hne => ?_, fun hnone hafter => ?_⟩
    · have hbefore := h.symVars.count_eq
      have hgt := count_arrowed_gt hne
      have hbracket := count_arrowed_bracket t.symVars
      omega
    · have hdecl := h.decl.count_text (c := ']') (.inr rfl)
      have hlost := t.decl.count_dropLast hafter
      have hcut := hbrackets ']' (.inr rfl)
      rw [cutDecl, hnone] at hcut
      simp only [reading, Option.isSome_map] at hcut
      simp only [Option.isSome_none, Bool.false_eq_true, if_false] at hcut
      omega
  · rintro ⟨hsym, hkeeps⟩
    obtain rfl : params = [] := (hsym ▸ h.symVars).eq_nil
    have harrowed : arrowed t.symVars = [] := if_pos hsym
    rw [harrowed, reading, cutDecl]
    cases hc : t.constraints with
    | some c => exact h.decl.readsAs t.noColon (hc ▸ t.noClosing)
    | none =>
      have hafter := hkeeps hc
      have hsub : (t.decl.withAfter t.decl.after.dropLast).text ⊆ t.decl.text := by
        rw [← t.decl.dropLast_text hafter]
        exact (List.dropLast_sublist _).subset
      have hw : (t.decl.withAfter t.decl.after.dropLast).Written := ⟨h.decl.before, h.decl.ins, h.decl.arrow, h.decl.outs, h.decl.after.dropLast⟩
      simp only [Option.isSome_none, Bool.false_eq_true, if_false, t.decl.dropLast_text hafter]
      refine hw.readsAs (fun hmem => t.noColon (hsub hmem)) fun hmem => ?_
      rw [Option.getD_none, List.append_nil] at hmem
      exact t.noClosing (List.mem_append_left _ (hsub hmem))

end SRText

/-! ## Relations as sets and back -/

/-- The next tuple where its closing bracket is cut off. -/
theorem nextTuple_cut (done : List Char) {pre inner : List Char} (hpre : '[' ∉ pre) (hinner : ']' ∉ inner) :
    nextTuple (done ++ (pre ++ '[' :: inner)) done.length = (inner, 0) := by
  have hst : findFirstOf '[' done.length (done ++ (pre ++ '[' :: inner)) = (done ++ pre).length := by
    rw [← List.append_assoc]
    refine findFirstOf_append _ (by simp) ?_
    rw [List.drop_left]
    exact hpre
  have hend : findFirstOf ']' ((done ++ pre).length : Nat) (done ++ (pre ++ '[' :: inner)) = -1 := by
    refine findFirstOf_not_mem _ ?_
    rw [← List.append_assoc, List.drop_left]
    simpa using hinner
  have hsub : done ++ (pre ++ '[' :: inner) = (done ++ pre ++ ['[']) ++ inner := by simp
  unfold nextTuple
  simp only [hst, hend]
  refine Prod.ext ?_ rfl
  show substr _ _ _ = _
  rw [hsub, substr_append_of_neg (by simp; omega) (by omega)]

/-- The elements of a relation are read off even where the last bracket is cut off. -/
theorem DeclText.tupVarsExtract_dropLast (d : DeclText) (h : d.outs.isSome) :
    tupVarsExtract d.text.dropLast d.inArity d.outArity = d.ins.tupVars ++ d.outVars := by
  by_cases hafter : d.after = []
  · obtain ⟨before, ins, _ | ⟨arrow, o⟩, after, hbefore, hbetween⟩ := d
    · cases h
    obtain rfl : after = [] := hafter
    have htext : (DeclText.text ⟨before, ins, some (arrow, o), [], hbefore, hbetween⟩).dropLast =
        before ++ ins.text (arrow ++ '[' :: o.inner) := by
      have hall : DeclText.text ⟨before, ins, some (arrow, o), [], hbefore, hbetween⟩ =
          (before ++ ins.text (arrow ++ '[' :: o.inner)) ++ [']'] := by simp [text, TupleText.text]
      rw [hall, List.dropLast_concat]
    have hnext := ins.nextTuple_eq [] (arrow ++ '[' :: o.inner) hbefore
    have hnext' := nextTuple_cut (before ++ ins.text []) (hbetween _ rfl) o.reads.not_mem
    have hdecl : before ++ ins.text [] ++ (arrow ++ '[' :: o.inner) = [] ++ (before ++ ins.text (arrow ++ '[' :: o.inner)) := by
      simp [TupleText.text]
    rw [hdecl] at hnext'
    have hvars : DeclText.outVars ⟨before, ins, some (arrow, o), [], hbefore, hbetween⟩ = o.tupVars := rfl
    rw [htext, hvars]
    show tupVarsExtract _ ins.arity o.arity = _
    by_cases hout : o.arity = 0
    · have hnil : o.tupVars = [] := by rw [TupleText.tupVars, List.length_eq_zero_iff.1 hout]; rfl
      rw [hout, hnil, List.append_nil]
      exact (tupVarsExtract_set ins.arity hnext).trans ins.reads.tupVarsFrom_eq
    · refine (tupVarsExtract_relation ins.arity hout hnext hnext').trans ?_
      exact congrArg₂ _ ins.reads.tupVarsFrom_eq o.reads.tupVarsFrom_eq
  · rw [d.dropLast_text hafter]
    exact (d.withAfter d.after.dropLast).tupVarsExtract_eq

theorem SRText.tupVarsExtract_cutDecl (t : SRText) (h : t.decl.outs.isSome) :
    tupVarsExtract t.cutDecl t.decl.inArity t.decl.outArity = t.decl.ins.tupVars ++ t.decl.outVars := by
  unfold cutDecl
  split
  · exact t.decl.tupVarsExtract_eq
  · exact t.decl.tupVarsExtract_dropLast h

/-- Elements with commas between them and no blanks. -/
def commaJoined (elems : List (List Char)) : List Char := [','].intercalate elems

theorem commaJoined_cons (e : List Char) (elems : List (List Char)) :
    commaJoined (e :: elems) = e ++ elems.flatMap (',' :: ·) := by
  unfold commaJoined
  induction elems generalizing e with
  | nil => simp
  | cons e' elems ih => rw [List.intercalate_cons_cons, ih]; simp

/-- The declaration of a set. -/
def setDecl (elems : List (List Char)) : List Char := '[' :: (commaJoined elems ++ "]".toList)

/-- The declaration that `setStr2RelationStr` writes: no arrow is written where no output follows. -/
def relationDecl (ins outs : List (List Char)) : List Char :=
  if outs = [] then setDecl ins else '[' :: (commaJoined ins ++ ("] -> [".toList ++ (commaJoined outs ++ "]".toList)))

/-- Behind the first element of a tuple every element has a comma before it. -/
theorem foldl_joinElem_zipIdx {elems : List (List Char)} {b : Nat} (hb : b ≠ 0) (acc : List Char) :
    (elems.zipIdx b).foldl joinElem acc = acc ++ elems.flatMap (',' :: ·) := by
  induction elems generalizing b acc with
  | nil => simp
  | cons e elems ih =>
    have hcomma : joinElem acc (e, b) = acc ++ ',' :: e := by simp [joinElem, hb]
    rw [List.zipIdx_cons, List.foldl_cons, hcomma, ih (Nat.succ_ne_zero b)]
    simp

theorem foldl_joinElem (elems : List (List Char)) (acc : List Char) :
    elems.zipIdx.foldl joinElem acc = acc ++ commaJoined elems := by
  cases elems with
  | nil => simp [commaJoined]
  | cons e elems =>
    have hfirst : joinElem acc (e, 0) = acc ++ e := by simp [joinElem]
    rw [List.zipIdx_cons, List.foldl_cons, hfirst, foldl_joinElem_zipIdx (by decide), commaJoined_cons]
    simp

theorem splitElem_of_ne {inArity : Nat} {iter : List Char × Nat} (h : iter.2 ≠ inArity) (acc : List Char) :
    splitElem inArity acc iter = joinElem acc iter := by rw [splitElem, if_neg h, joinElem]

theorem foldl_splitElem (ins outs : List (List Char)) :
    (ins ++ outs).zipIdx.foldl (splitElem ins.length) "[".toList ++ "]".toList = relationDecl ins outs := by
  have hins : ins.zipIdx.foldl (splitElem ins.length) "[".toList = "[".toList ++ commaJoined ins := by
    rw [← foldl_joinElem]
    refine List.foldl_ext _ _ _ fun a elem helem => splitElem_of_ne ?_ a
    have := List.snd_lt_of_mem_zipIdx helem
    omega
  rw [List.zipIdx_append, List.foldl_append, hins, zero_add]
  cases outs with
  | nil => simp [relationDecl, setDecl]
  | cons o outs =>
    have hfirst : splitElem ins.length ("[".toList ++ commaJoined ins) (o, ins.length) =
        "[".toList ++ commaJoined ins ++ "] -> [".toList ++ o := by simp [splitElem]
    have hrest : ∀ acc, (outs.zipIdx (ins.length + 1)).foldl (splitElem ins.length) acc = acc ++ outs.flatMap (',' :: ·) := by
      intro acc
      rw [← foldl_joinElem_zipIdx (Nat.succ_ne_zero ins.length)]
      refine List.foldl_ext _ _ _ fun a elem helem => splitElem_of_ne ?_ a
      have := List.le_snd_of_mem_zipIdx helem
      omega
    rw [List.zipIdx_cons, List.foldl_cons, hfirst, hrest, relationDecl, if_neg (List.cons_ne_nil _ _), commaJoined_cons o]
    simp

theorem not_mem_setDecl {c : Char} (hc : c ∉ "[],".toList) {elems : List (List Char)} (h : ∀ x ∈ elems, c ∉ x) : c ∉ setDecl elems := by
  simp only [String.reduceToList, List.mem_cons, not_or] at hc
  have hin : c ∉ commaJoined elems := not_mem_intercalate hc.2.2.1 h
  simpa [setDecl] using ⟨hc.1, hin, hc.2.1⟩

/-- The tuple of some elements, with no blanks between them. -/
def TupleText.ofElems (elems : List (List Char)) (h : ∀ x ∈ elems, ',' ∉ x ∧ ']' ∉ x) : TupleText where
  inner := commaJoined elems
  elems := elems
  reads := by
    cases elems with
    | nil => exact .nil List.not_mem_nil
    | cons e elems => exact .cons h

theorem IsElement.noSeparator {x : List Char} (h : IsElement x) : ',' ∉ x ∧ ']' ∉ x :=
  ⟨h.not_mem (by decide), h.not_mem (by decide)⟩

theorem blank_nil : Blank [] := fun _ h => absurd h List.not_mem_nil

theorem TupleText.written_ofElems {elems : List (List Char)} (h : ∀ x ∈ elems, IsElement x) :
    (ofElems elems fun x hx => (h x hx).noSeparator).Written := by
  refine ⟨h, fun hnil => ?_⟩
  obtain rfl : elems = [] := hnil
  exact blank_nil

/-- The declaration of a set of these elements. -/
def setDeclText (elems : List (List Char)) (h : ∀ x ∈ elems, IsElement x) : DeclText where
  before := []
  ins := .ofElems elems fun x hx => (h x hx).noSeparator
  outs := none
  after := []
  noBracket := by simp

/-- The declaration of a relation between these elements. -/
def relationDeclText (ins outs : List (List Char)) (hi : ∀ x ∈ ins, IsElement x) (ho : ∀ x ∈ outs, IsElement x) : DeclText where
  before := []
  ins := .ofElems ins fun x hx => (hi x hx).noSeparator
  outs := some (" -> ".toList, .ofElems outs fun x hx => (ho x hx).noSeparator)
  after := []
  noBracket := by simp

theorem written_setDeclText {elems : List (List Char)} (h : ∀ x ∈ elems, IsElement x) : (setDeclText elems h).Written where
  before := blank_nil
  ins := TupleText.written_ofElems h
  arrow := fun _ ho => absurd ho (by simp [setDeclText])
  outs := fun _ ho => absurd ho (by simp [setDeclText])
  after := blank_nil

theorem written_relationDeclText {ins outs : List (List Char)} (hi : ∀ x ∈ ins, IsElement x)
    (ho : ∀ x ∈ outs, IsElement x) : (relationDeclText ins outs hi ho).Written where
  before := blank_nil
  ins := TupleText.written_ofElems hi
  arrow := fun o hmem => by
    obtain rfl := Option.some.inj hmem
    exact ⟨[' '], [' '], by simp [Blank, isSpace], by simp [Blank, isSpace], rfl⟩
  outs := fun o hmem => by
    obtain rfl := Option.some.inj hmem
    exact TupleText.written_ofElems ho
  after := blank_nil

theorem text_setDeclText {elems : List (List Char)} (h : ∀ x ∈ elems, IsElement x) :
    (setDeclText elems h).text = setDecl elems := by
  simp [setDeclText, DeclText.text, TupleText.text, TupleText.ofElems, setDecl]

theorem text_relationDeclText {ins outs : List (List Char)} (hi : ∀ x ∈ ins, IsElement x) (ho : ∀ x ∈ outs, IsElement x)
    (hne : outs ≠ []) : (relationDeclText ins outs hi ho).text = relationDecl ins outs := by
  simp [relationDeclText, DeclText.text, TupleText.text, TupleText.ofElems, relationDecl, hne]

theorem tupVarsExtract_setDecl {elems : List (List Char)} (h : ∀ x ∈ elems, IsElement x) :
    tupVarsExtract (setDecl elems) elems.length 0 = elems.map trim := by
  have hd := (setDeclText elems h).tupVarsExtract_eq
  rw [text_setDeclText] at hd
  exact hd.trans (List.append_nil _)

/-- A relation becomes the set of all its elements. -/
theorem SRText.relationStr2SetStr_eq (t : SRText) (h : t.decl.outs.isSome) :
    relationStr2SetStr (.ofList t.text) t.decl.inArity t.decl.outArity =
      .ofList (joined (arrowed t.symVars) (setDecl (t.decl.ins.tupVars ++ t.decl.outVars)) (t.constraints.getD [])) := by
  unfold relationStr2SetStr
  simp only [t.getPartsFromStr_eq, String.toList_ofList, t.tupVarsExtract_cutDecl h, foldl_joinElem]
  exact getFullStrFromParts_eq _ _ _

/-- A set becomes the relation between its first and its other elements. -/
theorem setStr2RelationStr_joined {symVars c : List Char} {ins outs : List (List Char)} (hs : '\x7b' ∉ symVars)
    (hc : '\x7d' ∉ c) (helem : ∀ x ∈ ins ++ outs, IsElement x) (htrim : ∀ x ∈ ins ++ outs, trim x = x) :
    setStr2RelationStr (.ofList (joined symVars (setDecl (ins ++ outs)) c)) ins.length outs.length =
      .ofList (joined (arrowed symVars) (relationDecl ins outs) c) := by
  have hcolon : ':' ∉ setDecl (ins ++ outs) := not_mem_setDecl (by decide) fun x hx => (helem x hx).not_mem (by decide)
  have hiters : tupVarsExtract (setDecl (ins ++ outs)) (ins.length + outs.length) 0 = ins ++ outs := by
    rw [← List.length_append, tupVarsExtract_setDecl helem]
    exact List.map_congr_left htrim |>.trans (List.map_id _)
  unfold setStr2RelationStr
  simp only [getPartsFromStr_joined hs hcolon hc, String.toList_ofList, hiters, foldl_splitElem]
  exact getFullStrFromParts_eq _ _ _

/-- The elements of a tuple are elements once they are trimmed, and trimming changes them no further. -/
theorem TupleText.Written.tupVars {u : TupleText} (h : u.Written) : ∀ x ∈ u.tupVars, IsElement x ∧ trim x = x := by
  intro x hx
  obtain ⟨e, he, rfl⟩ := List.mem_map.1 hx
  exact ⟨(h.1 e he).trim, trim_trim e⟩

theorem DeclText.Written.outVars {d : DeclText} (h : d.Written) : ∀ x ∈ d.outVars, IsElement x ∧ trim x = x := by
  intro x hx
  unfold DeclText.outVars at hx
  cases ho : d.outs with
  | none => rw [ho] at hx; cases hx
  | some o => rw [ho] at hx; exact (h.outs o ho).tupVars x hx

theorem not_mem_relationDecl {c : Char} (hc : c ∉ "[],-> ".toList) {ins outs : List (List Char)} (hi : ∀ x ∈ ins, c ∉ x)
    (ho : ∀ x ∈ outs, c ∉ x) : c ∉ relationDecl ins outs := by
  simp only [String.reduceToList, List.mem_cons, not_or] at hc
  obtain ⟨h₁, h₂, h₃, h₄, h₅, h₆, -⟩ := hc
  unfold relationDecl
  split
  · exact not_mem_setDecl (by simpa using ⟨h₁, h₂, h₃⟩) hi
  · have hins : c ∉ commaJoined ins := not_mem_intercalate h₃ hi
    have houts : c ∉ commaJoined outs := not_mem_intercalate h₃ ho
    simp [h₁, h₂, h₄, h₅, h₆, hins, houts]

namespace SRText

variable {t : SRText} {params : List (List Char)}

/-- A relation taken to a set and back reads as itself just when nothing stands before its brace and it has outputs. -/
theorem Written.setStr2RelationStr_iff (h : t.Written params) (hrel : t.decl.outs.isSome) :
    ReadsAs (setStr2RelationStr (relationStr2SetStr (.ofList t.text) t.decl.inArity t.decl.outArity)
        t.decl.inArity t.decl.outArity) (t.reading params) ↔
      t.symVars = [] ∧ t.decl.outVars ≠ [] := by
  have helem : ∀ x ∈ t.decl.ins.tupVars ++ t.decl.outVars, IsElement x ∧ trim x = x := by
    intro x hx
    rcases List.mem_append.1 hx with hx | hx
    · exact h.decl.ins.tupVars x hx
    · exact h.decl.outVars x hx
  have hc : '\x7d' ∉ t.constraints.getD [] := fun hmem => t.noClosing (List.mem_append_right _ hmem)
  have hin : t.decl.inArity = t.decl.ins.tupVars.length := (List.length_map _).symm
  have hout : t.decl.outArity = t.decl.outVars.length := by
    obtain ⟨o, ho⟩ := Option.isSome_iff_exists.1 hrel
    simp [DeclText.outArity, DeclText.outVars, ho, TupleText.arity, TupleText.tupVars]
  rw [t.relationStr2SetStr_eq hrel, hin, hout, setStr2RelationStr_joined (not_mem_arrowed t.noOpening) hc
    (fun x hx => (helem x hx).1) fun x hx => (helem x hx).2]
  have hins := fun x hx => (helem x (List.mem_append_left _ hx))
  have houts := fun x hx => (helem x (List.mem_append_right _ hx))
  have hcolon : ':' ∉ relationDecl t.decl.ins.tupVars t.decl.outVars :=
    not_mem_relationDecl (by decide) (fun x hx => (hins x hx).1.not_mem (by decide))
      fun x hx => (houts x hx).1.not_mem (by decide)
  constructor
  · intro hr
    obtain ⟨hcount, hbrackets⟩ := hr.counts (not_mem_arrowed (not_mem_arrowed t.noOpening)) hcolon
    refine ⟨by_contra fun hne => ?_, fun hnone => ?_⟩
    · have hbefore := h.symVars.count_eq
      have hgt := count_arrowed_gt hne
      have hgt' := count_arrowed_gt fun hnil => hne (arrowed_eq_nil.1 hnil)
      have hbracket := count_arrowed_bracket t.symVars
      have hbracket' := count_arrowed_bracket (arrowed t.symVars)
      omega
    · have hone := hbrackets '[' (.inl rfl)
      have hset := (written_setDeclText fun x hx => (hins x hx).1).count_text (c := '[') (.inl rfl)
      rw [hnone, relationDecl, if_pos rfl, ← text_setDeclText fun x hx => (hins x hx).1, hset] at hone
      simp [setDeclText, reading, hrel] at hone
  · rintro ⟨hsym, hne⟩
    obtain rfl : params = [] := (hsym ▸ h.symVars).eq_nil
    have harrowed : arrowed (arrowed t.symVars) = [] := arrowed_eq_nil.2 (arrowed_eq_nil.2 hsym)
    have hclosing : '\x7d' ∉ relationDecl t.decl.ins.tupVars t.decl.outVars :=
      not_mem_relationDecl (by decide) (fun x hx => (hins x hx).1.not_mem (by decide))
        fun x hx => (houts x hx).1.not_mem (by decide)
    have hread := (written_relationDeclText (fun x hx => (hins x hx).1) fun x hx => (houts x hx).1).readsAs
      (c := t.constraints.getD []) (by rw [text_relationDeclText _ _ hne]; exact hcolon)
      (by rw [text_relationDeclText _ _ hne, List.mem_append, not_or]; exact ⟨hclosing, hc⟩)
    rw [text_relationDeclText _ _ hne] at hread
    have hmap : ∀ {elems : List (List Char)}, (∀ x ∈ elems, IsElement x ∧ trim x = x) → elems.map trim = elems :=
      fun h => (List.map_congr_left fun x hx => (h x hx).2).trans (List.map_id _)
    have hreading : t.reading [] =
        ⟨[], t.decl.ins.tupVars.map trim, some (t.decl.outVars.map trim), trim (t.constraints.getD [])⟩ := by
      obtain ⟨o, ho⟩ := Option.isSome_iff_exists.1 hrel
      rw [hmap hins, hmap houts, reading, ho]
      simp [DeclText.outVars, ho]
    rw [harrowed, hreading]
    exact hread

theorem outVars_ne_nil_iff (hrel : t.decl.outs.isSome) : t.decl.outVars ≠ [] ↔ t.decl.IsSetOrRelation := by
  obtain ⟨o, ho⟩ := Option.isSome_iff_exists.1 hrel
  simp [DeclText.outVars, DeclText.IsSetOrRelation, ho, TupleText.tupVars]

/-- **Texts put together again.** The parts of a text put together read as the text, and a relation taken to a set and back
reads as itself, just when nothing stands before the brace, the declaration keeps its brackets and a relation has outputs. -/
theorem Written.reads_iff (h : t.Written params) :
    (ReadsAs (getFullStrFromParts (getPartsFromStr (.ofList t.text))) (t.reading params) ∧
      (t.decl.outs.isSome →
        ReadsAs (setStr2RelationStr (relationStr2SetStr (.ofList t.text) t.decl.inArity t.decl.outArity)
          t.decl.inArity t.decl.outArity) (t.reading params))) ↔
      t.symVars = [] ∧ t.KeepsBrackets ∧ t.decl.IsSetOrRelation := by
  rw [h.getFullStrFromParts_iff]
  by_cases hrel : t.decl.outs.isSome
  · rw [h.setStr2RelationStr_iff hrel, outVars_ne_nil_iff hrel]
    constructor
    · rintro ⟨⟨hsym, hkeeps⟩, himp⟩
      exact ⟨hsym, hkeeps, (himp hrel).2⟩
    · rintro ⟨hsym, hkeeps, hout⟩
      exact ⟨⟨hsym, hkeeps⟩, fun _ => ⟨hsym, hout⟩⟩
  · have hset : t.decl.IsSetOrRelation := fun o ho => absurd (Option.isSome_iff_exists.2 ⟨o, ho⟩) hrel
    simp [hrel, hset]

end SRText

section Witness

/-- The declaration `[i] -> [j]`. -/
private def pairDecl : DeclText where
  before := []
  ins := .of "i".toList [] (by decide)
  outs := some (" -> ".toList, .of "j".toList [] (by decide))
  after := []
  noBracket := by decide

private theorem written_pairDecl : pairDecl.Written where
  before := blank_nil
  ins := ⟨by simp [pairDecl, TupleText.of, IsElement, trim, isSpace], fun h => by cases h⟩
  arrow := fun o ho => by
    obtain rfl := Option.some.inj ho
    exact ⟨[' '], [' '], by simp [Blank, isSpace], by simp [Blank, isSpace], rfl⟩
  outs := fun o ho => by
    obtain rfl := Option.some.inj ho
    exact ⟨by simp [TupleText.of, IsElement, trim, isSpace], fun h => by cases h⟩
  after := blank_nil

/-- The text `\x7b[i] -> [j]: i = n\x7d` behind what declares its parameters. -/
private def pairText (symVars : List Char) (h : '\x7b' ∉ symVars) : SRText where
  symVars := symVars
  decl := pairDecl
  constraints := some " i = n".toList
  rest := []
  noOpening := h
  noColon := by decide
  noClosing := by decide
  blank := blank_nil

theorem SRText.Written.reads_iff_pair :
    ReadsAs (getFullStrFromParts (getPartsFromStr "\x7b[i] -> [j]: i = n\x7d"))
      ⟨[], ["i".toList], some ["j".toList], "i = n".toList⟩ := by
  have hw : (pairText [] (by decide)).Written [] := ⟨.none blank_nil, written_pairDecl⟩
  have h := (hw.reads_iff.2 ⟨rfl, by rintro ⟨⟩, by decide⟩).1
  exact h

/-- A text with parameters reads as a relation, and put together again it has two arrows before its brace. -/
theorem SRText.rejoined_not_readsAs :
    ReadsAs "[n] -> \x7b[i] -> [j]: i = n\x7d" ⟨["n".toList], ["i".toList], some ["j".toList], "i = n".toList⟩ ∧
      getFullStrFromParts (getPartsFromStr "[n] -> \x7b[i] -> [j]: i = n\x7d") = "[n] ->  -> \x7b[i] -> [j]: i = n\x7d" ∧
      ∀ r, ¬ ReadsAs "[n] ->  -> \x7b[i] -> [j]: i = n\x7d" r := by
  refine ⟨⟨pairText "[n] -> ".toList (by decide), ["n".toList], ⟨?_, written_pairDecl⟩, rfl, rfl⟩, rfl, fun r h => ?_⟩
  · have hblank : Blank [' '] := by simp [Blank, isSpace]
    have hparam : ∀ x ∈ [['n']], IsParam x := fun x hx => by
      rw [List.mem_singleton.1 hx]
      exact ⟨fun c hc => .inl (by rw [List.mem_singleton.1 hc]; rfl), by decide⟩
    exact .some blank_nil hparam hblank hblank
  · have hjoined : ReadsAs (.ofList (joined "[n] ->  -> ".toList "[i] -> [j]".toList " i = n".toList)) r := h
    have hcount := (hjoined.counts (by decide) (by decide)).1
    revert hcount
    decide

end Witness

end IEGen
