import IEGen.Lib.Occurrences
import IEGen.PrintedBodies

/-!
# Printing with any name for the variable

The text of a constraint over one variable has the name of the variable at the same places whatever the name is, and there it
is a word of its own: what stands next to it is a blank, a bracket, a comma or a sign (`NameMarks`). For the sides of a
constraint this is so where they have a term at most, since `getString` puts nothing between two (`Exp.printsName_getString`).
-/

namespace IEGen

open Outcome (bind_eq_ok)
open Occurrences

/-! ## Printing with any name -/

/-- What is printed with any name for the variable has the name at the same marks, apart from other names and braces. -/
structure NameMarks (m : List (Option Char)) (text : String → Except Failure String) : Prop where
  isolated : Isolated isIdentChar false m
  unclosed : some '\x7d' ∉ m
  text : ∀ z, text z = .ok (.ofList (fill z.toList m))

/-- What is printed has the name in the same places whatever it is. -/
def PrintsName (text : String → Except Failure String) : Prop := ∃ m, NameMarks m text

/-- And it may follow a name. -/
def PrintsBehind (text : String → Except Failure String) : Prop := ∃ m, NameMarks m text ∧ Opens isIdentChar m

/-- A text without closing braces that ends outside of names. -/
structure EndsApart (s : String) : Prop where
  ends : s.toList.getLast?.all (fun c => !isIdentChar c) = true
  unclosed : '\x7d' ∉ s.toList

/-- And it may follow a name. -/
structure StandsApart (s : String) : Prop extends EndsApart s where
  opens : s.toList.head?.all (fun c => !isIdentChar c) = true

theorem forall_of_all {o : Option Char} (h : o.all (fun c => !isIdentChar c) = true) : ∀ c ∈ o, isIdentChar c = false := by
  rintro c rfl
  simpa using h

theorem marks_of_text {s : String} (h : '\x7d' ∉ s.toList) : NameMarks (s.toList.map some) fun _ => .ok s :=
  ⟨isolated_map_some _ _, by simpa using h, fun z => by rw [fill_map_some, String.ofList_toList]⟩

theorem opens_map_some {a : List Char} (h : a.head?.all (fun c => !isIdentChar c) = true) :
    Opens isIdentChar (a.map some) := by
  intro o ho
  cases a with
  | nil => cases ho
  | cons c a =>
    cases ho
    exact forall_of_all h c rfl

namespace PrintsName

theorem const {s : String} (h : '\x7d' ∉ s.toList) : PrintsName fun _ => .ok s := ⟨_, marks_of_text h⟩

theorem name {s : String} (h : EndsApart s) : PrintsName fun z => .ok (s ++ z) := by
  have hlast : Isolated isIdentChar false [none] := ⟨rfl, by simp, trivial⟩
  refine ⟨s.toList.map some ++ [none], .behind (forall_of_all h.ends) (fun _ => rfl) hlast, ?_, fun z => ?_⟩
  · simpa using h.unclosed
  · rw [fill_append, fill_map_some, fill_cons_none, fill_nil, List.append_nil, String.ofList_append,
      String.ofList_toList, String.ofList_toList]

/-- Around what is printed. -/
theorem between {f : String → Except Failure String} (s s' : String) (hf : PrintsName f) (hs : EndsApart s)
    (hs' : '\x7d' ∉ s'.toList) (ho : s'.toList.head?.all (fun c => !isIdentChar c) = true) :
    PrintsName (fun z => do let t ← f z; .ok (s ++ t ++ s')) := by
  obtain ⟨m, hm⟩ := hf
  have hrest := hm.isolated.append (opens_map_some ho) (isolated_map_some s'.toList false)
  refine ⟨s.toList.map some ++ (m ++ s'.toList.map some),
    Isolated.behind (forall_of_all hs.ends) (fun _ => rfl) hrest, ?_, fun z => ?_⟩
  · simpa [hm.unclosed] using ⟨hs.unclosed, hs'⟩
  · rw [hm.text z, fill_append, fill_append, fill_map_some, fill_map_some]
    show Except.ok _ = _
    rw [String.ofList_append, String.ofList_append, String.ofList_toList, String.ofList_toList, String.append_assoc]

/-- One after the other. -/
theorem append {f g : String → Except Failure String} (hf : PrintsName f) (hg : PrintsBehind g) :
    PrintsName (fun z => do let s ← f z; let s' ← g z; .ok (s ++ s')) := by
  obtain ⟨m, hm⟩ := hf
  obtain ⟨m', hm', ho⟩ := hg
  refine ⟨m ++ m', hm.isolated.append ho hm'.isolated, ?_, fun z => ?_⟩
  · rw [List.mem_append, not_or]
    exact ⟨hm.unclosed, hm'.unclosed⟩
  · rw [hm.text z, hm'.text z, fill_append, String.ofList_append]
    rfl

end PrintsName

/-- A text in front of two others. -/
theorem bind_append (p : String) (x y : Except Failure String) :
    (do let t ← (do let s ← x; let s' ← y; .ok (s ++ s')); .ok (p ++ t)) = (do let s ← x; let s' ← y; .ok (p ++ s ++ s')) := by
  simp only [bind_assoc, String.append_assoc]
  rfl

namespace PrintsBehind

theorem const {s : String} (h : '\x7d' ∉ s.toList) (ho : s.toList.head?.all (fun c => !isIdentChar c) = true) :
    PrintsBehind fun _ => .ok s := ⟨_, marks_of_text h, opens_map_some ho⟩

/-- Behind a text that stands apart from the name in front of it. -/
theorem separated {f : String → Except Failure String} {s : String} (hs : StandsApart s) (hne : s.toList ≠ [])
    (hf : PrintsName f) : PrintsBehind (fun z => do let t ← f z; .ok (s ++ t)) := by
  obtain ⟨m, hm⟩ := hf
  refine ⟨s.toList.map some ++ m, ⟨Isolated.behind (forall_of_all hs.ends) (fun _ => rfl) hm.isolated, ?_, fun z => ?_⟩, ?_⟩
  · simpa [hm.unclosed] using hs.unclosed
  · rw [hm.text z, fill_append, fill_map_some, String.ofList_append, String.ofList_toList]
    rfl
  · obtain ⟨c, r, hc⟩ := List.exists_cons_of_ne_nil hne
    intro o h
    rw [hc] at h
    cases h
    exact forall_of_all hs.opens c (by rw [hc]; rfl)

end PrintsBehind

/-! ### Terms -/

theorem unclosed_of_isIdent {s : String} (h : isIdent s = true) : '\x7d' ∉ s.toList := by
  obtain ⟨d, ds, hs, -, -, hd, hds⟩ := exists_of_isIdent h
  intro hmem
  rw [hs] at hmem
  have hchar : isIdentChar '\x7d' = true := (List.mem_cons.1 hmem).elim (fun h => h ▸ hd) (hds _)
  exact absurd hchar (by decide)

theorem unclosed_toString (n : Nat) : '\x7d' ∉ (toString n).toList := fun h =>
  absurd (Words.isDigit_of_mem_digits h) (by decide)

theorem unclosed_toString_int (n : Int) : '\x7d' ∉ (toString n).toList := by
  rw [toString_signed, String.toList_append, List.mem_append, not_or]
  refine ⟨?_, unclosed_toString _⟩
  split <;> decide

theorem endsApart_coeffToStream (c : Int) (absValue : Bool) : EndsApart (coeffToStream c absValue) := by
  have hblank : ∀ {s : String}, '\x7d' ∉ s.toList → EndsApart (s ++ " ") := by
    intro s hs
    refine ⟨?_, by simpa using hs⟩
    rw [String.toList_append, List.getLast?_append_of_ne_nil _ (by decide)]
    rfl
  unfold coeffToStream
  split_ifs
  · exact ⟨by simp, by simp⟩
  · exact hblank (unclosed_toString _)
  · exact ⟨by simp, by simp⟩
  · exact ⟨by decide, by decide⟩
  · exact hblank (unclosed_toString_int c)

theorem unclosed_indexToString (i : Option Nat) : '\x7d' ∉ (indexToString i).toList := by
  cases i with
  | none => simp [indexToString]
  | some n => simpa [indexToString] using unclosed_toString n

/-- The declaration of one variable. -/
def oneVar (k : Int) (name : String) : TupleDecl := ⟨[⟨false, k, name⟩]⟩

section OneVar

variable {k : Int} {x : String}

mutual
theorem Term.printsName : ∀ {t : Term}, t.Scanned (oneVar k x) → ∀ absValue : Bool,
    PrintsName fun z => t.prettyPrintString (oneVar k z) absValue
  | .tupleVar c l, ht, absValue => by
    obtain rfl : l = 0 := Nat.lt_one_iff.1 ht.1
    exact PrintsName.name (endsApart_coeffToStream c absValue)
  | .symConst c s, ht, absValue => by
    refine PrintsName.const ?_
    rw [String.toList_append, List.mem_append, not_or]
    exact ⟨(endsApart_coeffToStream c absValue).unclosed, unclosed_of_isIdent ht⟩
  | .ufCall c f args i, ht, absValue => by
    have hargs := printsName_args ht.2
    have hopens : EndsApart (coeffToStream c absValue ++ f ++ "(") := by
      refine ⟨?_, ?_⟩
      · rw [String.toList_append, List.getLast?_append_of_ne_nil _ (by decide)]
        rfl
      · simpa [(endsApart_coeffToStream c absValue).unclosed] using unclosed_of_isIdent ht.1
    have hall := hargs.between _ (")" ++ indexToString i) hopens
      (by simpa using unclosed_indexToString i) (by simp; decide)
    refine cast (congrArg _ (funext fun z => ?_)) hall
    rw [Term.prettyPrintString]
    refine congrArg _ (funext fun s => ?_)
    simp only [String.append_assoc]
  | .constVal c, ht, absValue => by
    refine PrintsName.const ?_
    split
    · exact unclosed_toString _
    · exact unclosed_toString_int c
  | .tupleExp c es, ht, absValue =>
    (printsName_args ht).between "( " " )" ⟨by decide, by decide⟩ (by decide) (by decide)

theorem Exp.printsName : ∀ {e : Exp}, e.Scanned (oneVar k x) → PrintsName fun z => e.prettyPrintString (oneVar k z)
  | .mk _ [], _ => PrintsName.const (by decide)
  | .mk _ (t :: ts), he => (Term.printsName he.1 false).append (printsBehind_terms he.2)

theorem printsBehind_terms : ∀ {ts : List Term}, termsScanned (oneVar k x) ts →
    PrintsBehind fun z => termsPrettyPrint (oneVar k z) ts
  | [], _ => PrintsBehind.const (by decide) (by decide)
  | t :: ts, hts => by
    have hsign : StandsApart (signToString t.coefficient) := by
      unfold signToString
      split <;> exact ⟨⟨by decide, by decide⟩, by decide⟩
    have hne : (signToString t.coefficient).toList ≠ [] := by
      unfold signToString
      split <;> decide
    have h := PrintsBehind.separated hsign hne ((Term.printsName hts.1 true).append (printsBehind_terms hts.2))
    exact cast (congrArg _ (funext fun z => bind_append _ _ _)) h

theorem printsName_args : ∀ {es : List Exp}, argsScanned (oneVar k x) es →
    PrintsName fun z => argsToStreamPrettyPrint (oneVar k z) es
  | [], _ => PrintsName.const (by decide)
  | e :: es, hes => (Exp.printsName hes.1).append (printsBehind_restArgs hes.2)

theorem printsBehind_restArgs : ∀ {es : List Exp}, argsScanned (oneVar k x) es →
    PrintsBehind fun z => restArgsPrettyPrint (oneVar k z) es
  | [], _ => PrintsBehind.const (by decide) (by decide)
  | e :: es, hes => by
    have h := PrintsBehind.separated (s := ", ") ⟨⟨by decide, by decide⟩, by decide⟩ (by decide)
      ((Exp.printsName hes.1).append (printsBehind_restArgs hes.2))
    exact cast (congrArg _ (funext fun z => bind_append _ _ _)) h
end

/-! ### Constraints -/

/-- What is printed of a side with a term at most, and something behind the term. -/
theorem PrintsName.side {ts : List Term} (hlen : ts.length ≤ 1) (hts : ∀ t ∈ ts, t.Scanned (oneVar k x))
    (text : List String → String) (hnil : '\x7d' ∉ (text []).toList) (hone : ∀ s, text [s] = s ++ text [""])
    (hrest : '\x7d' ∉ (text [""]).toList) (ho : (text [""]).toList.head?.all (fun c => !isIdentChar c) = true) :
    PrintsName (fun z => do let ss ← ts.mapM (Term.prettyPrintString (oneVar k z) true); .ok (text ss)) := by
  rcases ts with - | ⟨t, - | ⟨t', ts⟩⟩
  · exact PrintsName.const hnil
  · have h := (Term.printsName (hts t List.mem_cons_self) true).append (PrintsBehind.const hrest ho)
    refine cast (congrArg _ (funext fun z => ?_)) h
    rw [List.mapM_cons, List.mapM_nil]
    simp only [bind_assoc]
    refine congrArg _ (funext fun s => ?_)
    exact congrArg Except.ok (hone s).symm
  · exact absurd hlen (by simp)

section Sides

variable (K : ExpType) (c : Option Int)

end Sides

end OneVar

end IEGen
