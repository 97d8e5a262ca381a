import IEGen.PrintedTrees
import IEGen.Written

/-!
# Reading printed bodies back

A declaration is printed as one tuple, or as two with an arrow between them where `aritySplit` is a place between the first and
the last (`elemsText_split`). With its constraints it is read as a body exactly where these are printed right and no constant of
the declaration is negative (`Conjunction.prints_setBody`, `Conjunction.prints_relBody`), and the bodies as a union
(`prints_union`).
-/

namespace IEGen

/-! ## Declarations -/

/-- The text of an element of a declaration. -/
def TupleElem.text (e : TupleElem) : String := if e.isConst then toString e.constVal else e.varString

/-- An element as it is read; a negative constant is none. -/
def TupleElem.tree (e : TupleElem) : Option TupleElemTree :=
  if e.isConst then (if 0 ≤ e.constVal then some (.const e.constVal.natAbs) else none)
  else (ident? e.varString).map .var

/-- The elements behind `j` others, with what is printed in front of each. -/
def elemsText (aritySplit : Nat) : Nat → List String → String
  | _, [] => ""
  | j, s :: ss => (if j = 0 then "" else if aritySplit = j then "] -> [" else ", ") ++ (s ++ elemsText aritySplit (j + 1) ss)

theorem join_range' (aritySplit : Nat) (text : Nat → String) (n : Nat) : ∀ j : Nat,
    String.join ((List.range' j n).map fun i => (if i = 0 then "" else if aritySplit = i then "] -> [" else ", ") ++ text i) =
      elemsText aritySplit j ((List.range' j n).map text) := by
  induction n with
  | zero =>
    intro j
    rw [List.range'_zero, List.map_nil, List.map_nil, String.join_nil]
    rfl
  | succ n ih =>
    intro j
    rw [List.range'_succ, List.map_cons, List.map_cons, String.join_cons, ih, elemsText, String.append_assoc]

theorem elemToString_range (d : TupleDecl) :
    (List.range d.size).map (fun i => d.elemToString i false) = d.elems.map TupleElem.text := by
  refine List.ext_getElem (by simp [TupleDecl.size]) fun i hi hi' => ?_
  have hlt : i < d.elems.length := by simpa using hi'
  simp only [List.getElem_map, List.getElem_range, TupleDecl.elemToString, TupleDecl.elemIsConst, TupleDecl.elemConstVal,
    TupleDecl.elemVarString, TupleDecl.elem, List.getD_eq_getElem _ _ hlt, TupleElem.text]
  rfl

theorem toString_eq (d : TupleDecl) (aritySplit : Nat) : d.toString aritySplit =
    if d.elems = [] then "" else "[" ++ (elemsText aritySplit 0 (d.elems.map TupleElem.text) ++ "]") := by
  have hsize : d.size = 0 ↔ d.elems = [] := List.length_eq_zero_iff
  unfold TupleDecl.toString
  simp only [hsize]
  split
  · rfl
  · rw [← elemToString_range, List.range_eq_range', join_range', String.append_assoc]

/-- Where no element is the first output. -/
theorem elemsText_plain {aritySplit : Nat} : ∀ {ss : List String} {j : Nat}, 0 < j →
    (∀ i, j ≤ i → i < j + ss.length → i ≠ aritySplit) →
    elemsText aritySplit j ss = if ss = [] then "" else ", " ++ joinWith ", " ss
  | [], _, _, _ => rfl
  | s :: ss, j, hj, h => by
    rw [elemsText, if_neg (by omega), if_neg (h j le_rfl (by simp)).symm, if_neg (by simp),
      elemsText_plain (Nat.succ_pos j) fun i hi hlt => h i (by omega) (by rw [List.length_cons]; omega)]
    cases ss <;> simp [joinWith]

/-- The elements of a tuple that is not split. -/
theorem elemsText_unsplit {aritySplit : Nat} {ss : List String} (h : aritySplit = 0 ∨ ss.length ≤ aritySplit) :
    elemsText aritySplit 0 ss = joinWith ", " ss := by
  cases ss with
  | nil => rfl
  | cons s ss =>
    rw [elemsText, if_pos rfl, String.empty_append, elemsText_plain Nat.zero_lt_one fun i hi hlt => by
      rw [List.length_cons] at h
      omega]
    cases ss <;> simp [joinWith]

theorem elemsText_append (aritySplit : Nat) : ∀ (ss ts : List String) (j : Nat),
    elemsText aritySplit j (ss ++ ts) = elemsText aritySplit j ss ++ elemsText aritySplit (j + ss.length) ts
  | [], ts, j => by rw [List.nil_append, elemsText, String.empty_append, List.length_nil, Nat.add_zero]
  | s :: ss, ts, j => by
    rw [List.cons_append, elemsText, elemsText_append aritySplit ss ts (j + 1), elemsText, List.length_cons]
    simp only [String.append_assoc, Nat.add_assoc, Nat.add_comm 1]

/-- The elements of a tuple that is split. -/
theorem elemsText_split {aritySplit : Nat} {ss : List String} (h₀ : 0 < aritySplit) (h : aritySplit < ss.length) :
    elemsText aritySplit 0 ss =
      joinWith ", " (ss.take aritySplit) ++ ("] -> [" ++ joinWith ", " (ss.drop aritySplit)) := by
  have hlen : (ss.take aritySplit).length = aritySplit := List.length_take_of_le h.le
  have hins : elemsText aritySplit 0 (ss.take aritySplit) = joinWith ", " (ss.take aritySplit) :=
    elemsText_unsplit (.inr hlen.le)
  have houts : elemsText aritySplit aritySplit (ss.drop aritySplit) = "] -> [" ++ joinWith ", " (ss.drop aritySplit) := by
    cases hdrop : ss.drop aritySplit with
    | nil => exact absurd (List.drop_eq_nil_iff.1 hdrop) (by omega)
    | cons s ts =>
      rw [elemsText, if_neg (by omega), if_pos rfl, elemsText_plain (Nat.succ_pos _) fun i hi _ => by omega]
      cases ts <;> simp [joinWith]
  conv_lhs => rw [← List.take_append_drop aritySplit ss, elemsText_append, hlen, Nat.zero_add, hins, houts]

/-! ### Their lexemes -/

theorem reads_elems {es : List TupleElem} {ts : List TupleElemTree} (h : es.mapM TupleElem.tree = some ts) :
    ListReads True (es.map TupleElem.text) (ts.map fun t => [t.lexeme]) := by
  refine ⟨by rw [List.length_map, List.length_map, (Outcome.forall₂_of_mapM_some h).length_eq], .inl ⟨trivial, ?_⟩⟩
  rw [List.forall₂_map_left_iff, List.forall₂_map_right_iff]
  refine (Outcome.forall₂_of_mapM_some h).imp fun e t het => ?_
  unfold TupleElem.tree at het
  unfold TupleElem.text
  split_ifs at het ⊢ with hconst hpos
  · cases het
    obtain ⟨n, hn⟩ := Int.eq_ofNat_of_zero_le hpos
    rw [hn]
    exact scans_digits n
  · obtain ⟨name, hname, rfl⟩ := Option.map_eq_some_iff.1 het
    unfold ident? at hname
    split_ifs at hname with hid
    cases hname
    exact scans_ident hid

/-- The brackets around the elements. -/
theorem reads_brackets {s : String} {ls : List (List Char)} (h : TextReads True s ls) :
    TextReads True ("[" ++ (s ++ "]")) (['['] :: (ls ++ [[']']])) :=
  h.between (t := "[") (q := "]") separates_opensIndex.leads separates_closesIndex

/-- A tuple that is not split. -/
theorem reads_tuple {d : TupleDecl} {aritySplit : Nat} {ts : List TupleElemTree} (h : d.elems.mapM TupleElem.tree = some ts)
    (hk : aritySplit = 0 ∨ d.size ≤ aritySplit) : TextReads True (d.toString aritySplit) (tupleLexemes ts) := by
  have hreads := reads_elems h
  have hlen := (Outcome.forall₂_of_mapM_some h).length_eq
  rw [toString_eq, elemsText_unsplit (by rw [List.length_map]; exact hk)]
  unfold tupleLexemes
  cases hd : d.elems with
  | nil =>
    rw [hd] at hlen
    obtain rfl := List.length_eq_zero_iff.1 hlen.symm
    exact Lexer.leads_nil.scans.reads
  | cons e es =>
    cases ts with
    | nil => rw [hd] at hlen; cases hlen
    | cons t ts =>
      rw [if_neg (List.cons_ne_nil _ _), List.isEmpty_cons, if_neg Bool.false_ne_true, ← hd]
      exact reads_brackets (hreads.joinWith separates_comma)

/-- A tuple that is split in two. -/
theorem reads_splitTuple {d : TupleDecl} {aritySplit : Nat} {ins outs : List TupleElemTree}
    (hins : (d.elems.take aritySplit).mapM TupleElem.tree = some ins)
    (houts : (d.elems.drop aritySplit).mapM TupleElem.tree = some outs) :
    TextReads (0 < aritySplit ∧ aritySplit < d.size) (d.toString aritySplit)
      (tupleLexemes ins ++ "->".toList :: tupleLexemes outs) := by
  have hinlen := (Outcome.forall₂_of_mapM_some hins).length_eq
  have houtlen := (Outcome.forall₂_of_mapM_some houts).length_eq
  rw [List.length_take] at hinlen
  rw [List.length_drop] at houtlen
  have hsize : d.elems.length = d.size := rfl
  have hall : d.elems.mapM TupleElem.tree = some (ins ++ outs) := by
    rw [← List.take_append_drop aritySplit d.elems, List.mapM_append, hins, houts]
    rfl
  by_cases hk : 0 < aritySplit ∧ aritySplit < d.size
  · have hin := (reads_elems hins).joinWith separates_comma
    have hout := (reads_elems houts).joinWith separates_comma
    have hne : d.elems ≠ [] := List.ne_nil_of_length_pos (by omega)
    have hine : ins.isEmpty = false := by
      rw [List.isEmpty_eq_false_iff]
      exact List.ne_nil_of_length_pos (by omega)
    have houte : outs.isEmpty = false := by
      rw [List.isEmpty_eq_false_iff]
      exact List.ne_nil_of_length_pos (by omega)
    rw [toString_eq, if_neg hne, elemsText_split hk.1 (by rw [List.length_map]; exact hk.2), ← List.map_take, ← List.map_drop]
    have hreads := reads_brackets ((hin.append separates_arrow hout).congr (and_self_iff))
    have hlex : tupleLexemes ins ++ "->".toList :: tupleLexemes outs =
        ['['] :: (separated [','] (ins.map fun t => [t.lexeme]) ++
          ([[']'], "->".toList, ['[']] ++ separated [','] (outs.map fun t => [t.lexeme])) ++ [[']']]) := by
      simp [tupleLexemes, hine, houte]
    rw [hlex]
    exact hreads.congr (by simp [hk])
  · have hplain : aritySplit = 0 ∨ d.size ≤ aritySplit := by omega
    have hreads := reads_tuple hall hplain
    have hlex : (tupleLexemes ins ++ "->".toList :: tupleLexemes outs).flatten.length =
        (tupleLexemes (ins ++ outs)).flatten.length + 2 := by
      have harrow : "->".toList.length = 2 := rfl
      rw [List.flatten_append, List.flatten_cons, List.length_append, List.length_append, harrow]
      rcases hplain with h | h
      · obtain rfl : ins = [] := List.length_eq_zero_iff.1 (by omega)
        rw [List.nil_append, tupleLexemes, List.isEmpty_nil, if_pos rfl, List.flatten_nil, List.length_nil]
        omega
      · obtain rfl : outs = [] := List.length_eq_zero_iff.1 (by omega)
        have hnil : (tupleLexemes []).flatten.length = 0 := rfl
        rw [List.append_nil, hnil]
    exact hreads.short hk id fun hle => by omega

/-! ## Bodies -/

/-- The body that a conjunction of a set is read as. -/
def Conjunction.setBody (c : Conjunction) : Option SetBody := do
  let tuple ← c.tupleDecl.elems.mapM TupleElem.tree
  let constraints ← c.constraints.mapM (Exp.constraintTree c.tupleDecl)
  some ⟨tuple, constraints⟩

/-- The body that a conjunction of a relation is read as. -/
def Conjunction.relBody (inArity : Nat) (c : Conjunction) : Option RelBody := do
  let inTuple ← (c.tupleDecl.elems.take inArity).mapM TupleElem.tree
  let outTuple ← (c.tupleDecl.elems.drop inArity).mapM TupleElem.tree
  let constraints ← c.constraints.mapM (Exp.constraintTree c.tupleDecl)
  some ⟨inTuple, outTuple, constraints⟩

/-- What stands in the declaration can be read: no constant is negative. -/
def TupleDecl.PrintsRight (d : TupleDecl) : Prop := ∀ e ∈ d.elems, e.isConst = true → 0 ≤ e.constVal

/-- The declaration and the constraints are printed right. -/
structure Conjunction.PrintsRight (c : Conjunction) : Prop where
  tupleDecl : c.tupleDecl.PrintsRight
  constraints : ∀ e ∈ c.constraints, e.ConstraintPrintsRight c.tupleDecl

/-- All names are identifiers, and the variables have places. -/
structure Conjunction.Legible (c : Conjunction) : Prop where
  names : ∀ e ∈ c.tupleDecl.elems, e.isConst = false → isIdent e.varString = true
  scanned : c.Scanned

theorem TupleElem.exists_tree {e : TupleElem} (hn : e.isConst = false → isIdent e.varString = true)
    (hc : e.isConst = true → 0 ≤ e.constVal) : ∃ t, e.tree = some t := by
  unfold TupleElem.tree
  cases h : e.isConst with
  | true => exact ⟨_, by rw [if_pos rfl, if_pos (hc h)]⟩
  | false => exact ⟨_, by rw [if_neg Bool.false_ne_true, ident?_eq (hn h), Option.map_some]⟩

theorem TupleElem.nonneg_of_tree {e : TupleElem} {t : TupleElemTree} (h : e.tree = some t) (hc : e.isConst = true) :
    0 ≤ e.constVal := by
  unfold TupleElem.tree at h
  rw [if_pos hc] at h
  split_ifs at h with hpos
  exact hpos

/-- What is between the braces. -/
theorem reads_body {P Q : Prop} {tuple constraints : String} {tl cl : List (List Char)} (ht : TextReads P tuple tl)
    (hc : TextReads Q constraints cl) : TextReads (P ∧ Q) ("\x7b " ++ (tuple ++ (" : " ++ (constraints ++ " \x7d"))))
      (['\x7b'] :: (tl ++ [':'] :: (cl ++ [['\x7d']]))) := by
  have hopens : scanner.Leads "\x7b ".toList [['\x7b']] := fun _ => rfl
  have hcloses : scanner.Separates isIdentChar " \x7d".toList [['\x7d']] :=
    separates_of (fun r => lex_symbol (c := '\x7d') rfl (fun _ => rfl) r) rfl
  have hall := (ht.append separates_colon hc).between (t := "\x7b ") (q := " \x7d") hopens hcloses
  have htext : "\x7b " ++ (tuple ++ (" : " ++ (constraints ++ " \x7d"))) =
      "\x7b " ++ (tuple ++ (" : " ++ constraints) ++ " \x7d") := by simp only [String.append_assoc]
  have hlex : ['\x7b'] :: (tl ++ [':'] :: (cl ++ [['\x7d']])) =
      [['\x7b']] ++ (tl ++ ([[':']] ++ cl) ++ [['\x7d']]) := by simp
  rw [htext, hlex]
  exact hall

namespace Conjunction

variable {c : Conjunction}

theorem prints_constraints (hn : c.Legible) :
    Prints (∀ e ∈ c.constraints, e.ConstraintPrintsRight c.tupleDecl) (fun texts ks =>
        TextReads (∀ e ∈ c.constraints, e.ConstraintPrintsRight c.tupleDecl) (joinWith " && " texts)
          (separated "&&".toList (ks.map ConstraintTree.lexemes)))
      (c.constraints.mapM (Exp.getString c.tupleDecl)) (c.constraints.mapM (Exp.constraintTree c.tupleDecl)) := by
  have h := Prints.mapM fun e (he : e ∈ c.constraints) => Exp.prints_constraint (hn.scanned e he)
  exact ⟨h.ok, fun texts ks htexts hks => (h.reads texts ks htexts hks).2.joinWith separates_and⟩

/-- The declaration is read where no constant is negative. -/
theorem exists_elems (hn : c.Legible) (hd : c.tupleDecl.PrintsRight) {es : List TupleElem} (hes : ∀ e ∈ es, e ∈ c.tupleDecl.elems) :
    ∃ ts, es.mapM TupleElem.tree = some ts := by
  cases h : es.mapM TupleElem.tree with
  | some ts => exact ⟨ts, rfl⟩
  | none =>
    obtain ⟨e, he, hnone⟩ := Outcome.exists_of_mapM_none h
    obtain ⟨t, ht⟩ := TupleElem.exists_tree (hn.names e (hes e he)) (hd e (hes e he))
    rw [ht] at hnone
    cases hnone

theorem nonneg_of_elems {es : List TupleElem} {ts : List TupleElemTree} (h : es.mapM TupleElem.tree = some ts) :
    ∀ e ∈ es, e.isConst = true → 0 ≤ e.constVal := by
  intro e he
  obtain ⟨i, hi, rfl⟩ := List.getElem_of_mem he
  have hget := (List.forall₂_iff_get.1 (Outcome.forall₂_of_mapM_some h)).2 i hi
    ((Outcome.forall₂_of_mapM_some h).length_eq ▸ hi)
  exact fun hc => TupleElem.nonneg_of_tree hget hc

/-- A conjunction of a set. -/
theorem prints_setBody (hn : c.Legible) :
    Prints c.PrintsRight (fun s b => TextReads c.PrintsRight s (SetBody.lexemes b)) (c.getString 0) c.setBody := by
  have hcons := prints_constraints hn
  refine ⟨fun hP => ?_, fun s b hs hb => ?_⟩
  · obtain ⟨tuple, htuple⟩ := exists_elems hn hP.tupleDecl fun e he => he
    obtain ⟨texts, ks, htexts, hks⟩ := hcons.ok hP.constraints
    refine ⟨_, ⟨tuple, ks⟩, Outcome.bind_eq_ok.2 ⟨texts, htexts, rfl⟩, ?_⟩
    rw [setBody, htuple, hks]
    rfl
  · obtain ⟨texts, htexts, hs⟩ := Outcome.bind_eq_ok.1 hs
    obtain ⟨tuple, htuple, hb⟩ := Option.bind_eq_some_iff.1 hb
    obtain ⟨ks, hks, hb⟩ := Option.bind_eq_some_iff.1 hb
    cases hs
    cases hb
    exact (reads_body (reads_tuple htuple (.inl rfl)) (hcons.reads texts ks htexts hks)).congr
      ⟨fun h => ⟨nonneg_of_elems htuple, h.2⟩, fun h => ⟨trivial, h.constraints⟩⟩

/-- A conjunction of a relation. -/
theorem prints_relBody (hn : c.Legible) (inArity : Nat) :
    Prints ((0 < inArity ∧ inArity < c.arity) ∧ c.PrintsRight)
      (fun s b => TextReads ((0 < inArity ∧ inArity < c.arity) ∧ c.PrintsRight) s (RelBody.lexemes b))
      (c.getString inArity) (c.relBody inArity) := by
  have hcons := prints_constraints hn
  refine ⟨fun hP => ?_, fun s b hs hb => ?_⟩
  · obtain ⟨ins, hins⟩ := exists_elems hn hP.2.tupleDecl fun e he => List.mem_of_mem_take he
    obtain ⟨outs, houts⟩ := exists_elems hn hP.2.tupleDecl fun e he => List.mem_of_mem_drop he
    obtain ⟨texts, ks, htexts, hks⟩ := hcons.ok hP.2.constraints
    refine ⟨_, ⟨ins, outs, ks⟩, Outcome.bind_eq_ok.2 ⟨texts, htexts, rfl⟩, ?_⟩
    rw [relBody, hins, houts, hks]
    rfl
  · obtain ⟨texts, htexts, hs⟩ := Outcome.bind_eq_ok.1 hs
    obtain ⟨ins, hins, hb⟩ := Option.bind_eq_some_iff.1 hb
    obtain ⟨outs, houts, hb⟩ := Option.bind_eq_some_iff.1 hb
    obtain ⟨ks, hks, hb⟩ := Option.bind_eq_some_iff.1 hb
    cases hs
    cases hb
    have hdecl : c.tupleDecl.PrintsRight := by
      intro e he
      rw [← List.take_append_drop inArity c.tupleDecl.elems] at he
      exact (List.mem_append.1 he).elim (nonneg_of_elems hins e) (nonneg_of_elems houts e)
    exact (reads_body (reads_splitTuple hins houts) (hcons.reads texts ks htexts hks)).congr
      ⟨fun h => ⟨h.1, hdecl, h.2⟩, fun h => ⟨h.1, h.2.constraints⟩⟩

end Conjunction

/-- The texts of all conjunctions. -/
theorem prints_union {β : Type} {aritySplit : Nat} {cs : List Conjunction} {P : Conjunction → Prop}
    {body : Conjunction → Option β} {lexemes : β → List (List Char)}
    (h : ∀ c ∈ cs, Prints (P c) (fun s b => TextReads (P c) s (lexemes b)) (c.getString aritySplit) (body c)) :
    Prints (∀ c ∈ cs, P c) (fun s bs => TextReads (∀ c ∈ cs, P c) s (unionLexemes (bs.map lexemes)))
      (unionString aritySplit cs) (cs.mapM body) := by
  have hall := Prints.mapM h
  refine ⟨fun hP => ?_, fun s bs hs hbs => ?_⟩
  · obtain ⟨texts, bs, htexts, hbs⟩ := hall.ok hP
    exact ⟨_, bs, Outcome.map_eq_ok.2 ⟨texts, htexts, rfl⟩, hbs⟩
  · obtain ⟨texts, htexts, rfl⟩ := Outcome.map_eq_ok.1 hs
    exact (hall.reads texts bs htexts hbs).2.joinWith separates_union

end IEGen
