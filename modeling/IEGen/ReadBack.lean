import IEGen.PrintedMeaning

/-!
# Reading a printed set back

The string of a set or a relation is read with the actions of the parser, and the object that is parsed is copied, as the
constructors do. Where the calls that are collapsed on the way keep their values (`ReadsSafely`), the conjunction of each
body has the tuples of the body, and copying keeps all tuples unless a conjunction without constraints gives way
(`copied_foldl_denote_iff`). `getString_readsBack_iff` puts this together with what is printed and what it means.
-/

namespace IEGen

open SortedList (Sorted)

/-! ## Reading bodies -/

section Read

variable {env : Environment} {I : Interp} {d : TupleDecl} {n : Nat} {ks : List ConstraintTree}

mutual
theorem ExpTree.plain_of_usedAs {cod : String → Nat} : ∀ {e : ExpTree} {v : Bool}, e.UsedAs cod v → e.plain = true
  | .int _, _, _ | .id _, _, _ => rfl
  | .func _ args none, _, h | .func _ args (some _), _, h => show args.plain = true from ExpTrees.plain_of_used h.2
  | .paren (.one e), _, h => ExpTree.plain_of_usedAs (e := e) h
  | .paren (.cons _ _), _, h => absurd h not_false
  | .unop e, _, h => ExpTree.plain_of_usedAs (e := e) h
  | .intMult _ e, _, h => ExpTree.plain_of_usedAs (e := e) h
  | .plus e e', _, h => Bool.and_eq_true_iff.2 ⟨ExpTree.plain_of_usedAs (e := e) h.1, ExpTree.plain_of_usedAs (e := e') h.2⟩
  | .dash e e', _, h => Bool.and_eq_true_iff.2 ⟨ExpTree.plain_of_usedAs (e := e) h.1, ExpTree.plain_of_usedAs (e := e') h.2⟩

theorem ExpTrees.plain_of_used {cod : String → Nat} : ∀ {list : ExpTrees}, list.Used cod → list.plain = true
  | .one e, ⟨_, h⟩ => ExpTree.plain_of_usedAs (e := e) h
  | .cons e _, ⟨⟨_, h⟩, hs⟩ =>
    Bool.and_eq_true_iff.2 ⟨ExpTree.plain_of_usedAs (e := e) h, ExpTrees.plain_of_used hs⟩
end

/-- A constraint whose expressions are used in one way has no tuple of expressions. -/
theorem ConstraintTree.Used.plain {cod : String → Nat} {k : ConstraintTree} (h : k.Used cod) : k.plain = true := by
  have hall : ∀ e ∈ k.exps, ∃ v, e.UsedAs cod v := by
    intro e he
    cases k with
    | eq e₁ e₂ =>
      obtain ⟨v, h₁, h₂⟩ := h
      rcases List.mem_pair.1 he with rfl | rfl
      · exact ⟨v, h₁⟩
      · exact ⟨v, h₂⟩
    | lt e₁ e₂ | lte e₁ e₂ | gt e₁ e₂ | gte e₁ e₂ =>
      rcases List.mem_pair.1 he with rfl | rfl
      · exact ⟨false, h.1⟩
      · exact ⟨false, h.2⟩
    | rangeLteLt e₁ e₂ e₃ | rangeLtLte e₁ e₂ e₃ | rangeLteLte e₁ e₂ e₃ | rangeLtLt e₁ e₂ e₃ =>
      rcases List.mem_cons.1 he with rfl | he
      · exact ⟨false, h.1⟩
      · rcases List.mem_pair.1 he with rfl | rfl
        · exact ⟨false, h.2.1⟩
        · exact ⟨false, h.2.2⟩
  exact List.all_eq_true.2 fun e he => ExpTree.plain_of_usedAs (hall e he).choose_spec

/-- What is cleaned up while a body is read and copied: what is built of it at first, and then its conjunction. -/
inductive CleanedForBody (env : Environment) (d : TupleDecl) (n : Nat) (ks : List ConstraintTree) : Conjunction → Prop
  | written : CleanedForBody env d n ks (writtenBody d n ks).resolved
  | built {c : Conjunction} : buildBody env d n ks = .ok c → CleanedForBody env d n ks c

/-- A body is read and copied without a failure, and the calls that are collapsed on the way keep their values: each has
that of the argument that replaces it, or the interpretation agrees with the recorded inverses and all may be replaced. -/
structure ReadsSafely (env : Environment) (I : Interp) (d : TupleDecl) (n : Nat) (ks : List ConstraintTree) : Prop where
  decides : ∀ c, CleanedForBody env d n ks c → c.AllCalls fun f _ as => Decides env f as
  keeps : (∀ c, CleanedForBody env d n ks c → ∀ τ, c.CollapseKeeps env I τ) ∨
    (I.Consistent env ∧ ∀ c, CleanedForBody env d n ks c → c.CollapsesRight env I.dom I.cod)

/-- The conjunction of a body has the tuples that satisfy the body, and keeps them when it is cleaned up again. -/
theorem ReadsSafely.build (h : ReadsSafely env I d n ks) (hu : ∀ k ∈ ks, k.Used I.cod) : ∃ c, buildBody env d n ks = .ok c ∧
    c.CleansRight env I ∧ c.denote I = {t | Satisfies I d.places ks t} := by
  obtain ⟨hw, hden⟩ : (writtenBody d n ks).resolved.WellUsed I.cod ∧ _ := resolved_denote hu
  obtain ⟨c, hc⟩ := Conjunction.exists_cleanUp (h.decides _ .written)
  have hbuild : buildBody env d n ks = .ok c := (buildBody_eq env d n ks).trans hc
  have hread : c.readable = true := readable_of_built (built_cleanUp hw.readable hc)
  obtain ⟨c', hc'⟩ := Conjunction.exists_cleanUp (h.decides c (.built hbuild))
  have hdecl : c.tupleDecl = (writtenBody d n ks).resolved.tupleDecl := (cleanUp_fields hc).1
  have hdecl' : c'.tupleDecl = c.tupleDecl := (cleanUp_fields hc').1
  have hholds : ∀ τ, (c.Holds I τ ↔ (writtenBody d n ks).resolved.Holds I τ) ∧ (c'.Holds I τ ↔ c.Holds I τ) := by
    intro τ
    rcases h.keeps with hk | ⟨hI, hk⟩
    · obtain ⟨hholds, hfits⟩ := Conjunction.cleanUp_keeps (P := AnyCall) (fun _ _ _ _ _ _ => trivial) hw.readable hw.fits
        (hk _ .written τ) hc
      exact ⟨hholds, (Conjunction.cleanUp_keeps (P := AnyCall) (fun _ _ _ _ _ _ => trivial) hread hfits
        (hk c (.built hbuild) τ) hc').1⟩
    · have hwritten := hk _ .written
      have hbuilt := hk c (.built hbuild)
      exact ⟨Conjunction.holds_cleanUp hw.readable hc hI hwritten.1 hwritten.2,
        Conjunction.holds_cleanUp hread hc' hI hbuilt.1 hbuilt.2⟩
  refine ⟨c, hbuild, ⟨hread, c', hc', Set.ext fun t => ?_⟩, hden ▸ Set.ext fun t => ?_⟩
  · exact and_congr (by rw [hdecl']) (hholds (valuation t)).2
  · exact and_congr (by rw [hdecl]) (hholds (valuation t)).1

/-- The case of a body that the clean-up leaves as it is. -/
theorem ReadsSafely.of_clean {c : Conjunction} (hw : (writtenBody d n ks).resolved = c) (hb : buildBody env d n ks = .ok c)
    (hd : c.AllCalls fun f _ as => Decides env f as) (hk : ∀ τ, c.CollapseKeeps env I τ) : ReadsSafely env I d n ks := by
  have heq : ∀ c', CleanedForBody env d n ks c' → c' = c := by
    rintro c' (_ | hc')
    · exact hw
    · exact Except.ok.inj (hc'.symm.trans hb)
  exact ⟨fun c' hc' => heq c' hc' ▸ hd, .inl fun c' hc' => heq c' hc' ▸ hk⟩

end Read

/-! ## Adding and copying conjunctions -/

/-- No tuple is lost with a conjunction that gives way: while the conjunctions are added, and again while the union is
copied. -/
def LosesNothingRead (I : Interp) (cs : List Conjunction) : Prop :=
  LosesNothingIn I cs ∧ LosesNothingIn I (cs.foldl addConjunction [])

/-- The copy of a union has the tuples of the conjunctions that are added iff none of these is lost. -/
theorem copied_foldl_denote_iff {env : Environment} {I : Interp} {cs : List Conjunction}
    (hcs : ∀ c ∈ cs, c.CleansRight env I) : ∃ ds, copyConjunctions env (cs.foldl addConjunction []) = .ok ds ∧
      (denoteUnion I ds = denoteUnion I cs ↔ LosesNothingRead I cs) := by
  have hadd : ∀ c ∈ cs.foldl addConjunction [], c.CleansRight env I := fun c hc =>
    hcs c ((mem_foldl_addConjunction hc).resolve_left List.not_mem_nil)
  obtain ⟨ds, hds, -, hden⟩ := copyConjunctions_kept hadd
  refine ⟨ds, hds, ?_⟩
  have hadded : denoteUnion I (cs.foldl addConjunction []) = denoteUnion I (kept Conjunction.hasConstraints cs) :=
    Set.ext fun t => mem_denoteUnion_foldl fun c hc => (hcs c hc).readable
  have hsub : ∀ l : List Conjunction, denoteUnion I (kept Conjunction.hasConstraints l) ⊆ denoteUnion I l := by
    rintro l t ⟨c, hc, ht⟩
    exact ⟨c, mem_of_mem_kept hc, ht⟩
  rw [LosesNothingRead, ← kept_denote_iff, ← kept_denote_iff, hadded, hden]
  constructor
  · intro h
    have hkept : denoteUnion I (kept Conjunction.hasConstraints cs) = denoteUnion I cs := by
      refine (hsub cs).antisymm ?_
      rw [← h, ← hadded]
      exact hsub (cs.foldl addConjunction [])
    exact ⟨hkept, h.trans hkept.symm⟩
  · rintro ⟨h, h'⟩
    exact h'.trans h

/-! ## Sets and relations -/

/-- The string of a set is read as one body for each of its conjunctions, with all terms of each constraint. What is built
of each body is read for its conjunction, and the set that is read has the tuples of the printed one. -/
def Set.ReadsBack (env : Environment) (I : Interp) (s : Set) : Prop :=
  ∃ text first rest s', s.getString = .ok text ∧
    s.conjunctions.mapM Conjunction.setBody = some (first :: rest) ∧ ReadsAsSet text (first :: rest) ∧
  List.Forall₂ (fun c b => ∃ c', SetBody.build env b = .ok c' ∧ c.ReadFor I c') s.conjunctions (first :: rest) ∧
  (SetText.omega first rest).read env = .ok s' ∧ s'.denote I = s.denote I

/-- The string of a relation is read as one body for each of its conjunctions, with all terms of each constraint. What is
built of each body is read for its conjunction, and the relation that is read has the inputs and the tuples of the printed
one. -/
def Relation.ReadsBack (env : Environment) (I : Interp) (r : Relation) : Prop :=
  ∃ text first rest r', r.getString = .ok text ∧
    r.conjunctions.mapM (Conjunction.relBody r.inArity) = some (first :: rest) ∧ ReadsAsRelation text (first :: rest) ∧
  List.Forall₂ (fun c b => ∃ c', relSingleConjunct env b = .ok c' ∧ c.ReadFor I c') r.conjunctions (first :: rest) ∧
  (RelText.omega first rest).read env = .ok r' ∧ r'.inArity = r.inArity ∧ r'.denote I = r.denote I

/-- A conjunction that can be printed and read in an interpretation: as the library builds it, with identifiers for names,
and with terms that are used in one way. -/
structure Conjunction.Readable (cod : String → Nat) (c : Conjunction) : Prop where
  built : c.Built
  legible : c.Legible
  used : c.UsedRight cod

section ReadsBack

variable {env : Environment} {I : Interp}

/-- A conjunction is built of the trees of another one, and read for it exactly where the names are kept. -/
theorem Conjunction.Readable.build_trees {c : Conjunction} (hc : c.Readable I.cod) {ks : List ConstraintTree}
    (hks : c.constraints.mapM (Exp.constraintTree c.tupleDecl) = some ks) {d : TupleDecl} (hd : d.SameConstants c.tupleDecl)
    {n : Nat} (h : ReadsSafely env I d n ks) : (∀ k ∈ ks, k.plain = true) ∧ (∀ k ∈ ks, k.Grouped) ∧
      ∃ c', buildBody env d n ks = .ok c' ∧ c'.CleansRight env I ∧ (c.ReadFor I c' ↔ c.NamesKept I d) := by
  have hused := Conjunction.used_trees hc.built hc.used hks
  have hplain : ∀ k ∈ ks, k.plain = true := fun k hk => (hused k hk).plain
  obtain ⟨c', hc', hclean, hden⟩ := h.build hused
  obtain ⟨rfl, -⟩ := buildBody_fields hc'
  refine ⟨hplain, fun k hk => ?_, c', hc', hclean, ?_⟩
  · obtain ⟨e, -, he⟩ := Outcome.exists_of_mem_forall₂ (Outcome.forall₂_of_mapM_some hks) hk
    exact Exp.grouped_constraintTree he
  · exact Conjunction.readFor_iff hc.built hc.legible.scanned hc.used hks hd hden

/-- What a conjunction of a set is read as. -/
theorem reads_setBody {c : Conjunction} (hc : c.Readable I.cod) {b : SetBody} (hb : c.setBody = some b)
    (h : ReadsSafely env I (tupleDecl b.tuple) 0 b.constraints) : b.Accepted env ∧ (∀ k ∈ b.constraints, k.Grouped) ∧
      (b.conjunction env).CleansRight env I ∧ (c.ReadFor I (b.conjunction env) ↔ c.NamesKept I (tupleDecl b.tuple)) := by
  obtain ⟨tuple, htuple, hb⟩ := Option.bind_eq_some_iff.1 hb
  obtain ⟨ks, hks, hb⟩ := Option.bind_eq_some_iff.1 hb
  cases hb
  obtain ⟨hplain, hgrouped, c', hc', hclean, hread⟩ := hc.build_trees hks (.of_tree htuple) h
  have hacc : (SetBody.mk tuple ks).Accepted env := ⟨hplain, c', hc'⟩
  obtain rfl : (SetBody.mk tuple ks).conjunction env = c' := Except.ok.inj (hacc.build.symm.trans hc')
  exact ⟨hacc, hgrouped, hclean, hread⟩

/-- What a conjunction of a relation is read as. -/
theorem reads_relBody {c : Conjunction} (hc : c.Readable I.cod) {inArity : Nat} {b : RelBody}
    (hb : c.relBody inArity = some b) (h : ReadsSafely env I b.decl (tupleDecl b.inTuple).size b.constraints) :
    b.Accepted env ∧ (∀ k ∈ b.constraints, k.Grouped) ∧ (b.conjunction env).CleansRight env I ∧
      (c.ReadFor I (b.conjunction env) ↔ c.NamesKept I b.decl) := by
  obtain ⟨ins, hins, hb⟩ := Option.bind_eq_some_iff.1 hb
  obtain ⟨outs, houts, hb⟩ := Option.bind_eq_some_iff.1 hb
  obtain ⟨ks, hks, hb⟩ := Option.bind_eq_some_iff.1 hb
  cases hb
  have hd : (RelBody.mk ins outs ks).decl.SameConstants c.tupleDecl := by
    have hsplit : TupleDecl.mk (c.tupleDecl.elems.take inArity ++ c.tupleDecl.elems.drop inArity) = c.tupleDecl := by
      rw [List.take_append_drop]
    rw [← hsplit]
    exact .concat (.of_tree hins) (.of_tree houts)
  obtain ⟨hplain, hgrouped, c', hc', hclean, hread⟩ := hc.build_trees hks hd h
  have hacc : (RelBody.mk ins outs ks).Accepted env := ⟨hplain, c', hc'⟩
  obtain rfl : (RelBody.mk ins outs ks).conjunction env = c' := Except.ok.inj (hacc.build.symm.trans hc')
  exact ⟨hacc, hgrouped, hclean, hread⟩

theorem forall₂_iff_of_mapM {α β : Type} {f : α → Option β} {R : α → β → Prop} {l : List α} {r : List β}
    (h : l.mapM f = some r) : List.Forall₂ R l r ↔ ∀ a ∈ l, ∀ b, f a = some b → R a b := by
  induction l generalizing r with
  | nil =>
    cases h
    simp
  | cons a l ih =>
    rw [List.mapM_cons] at h
    obtain ⟨b, hb, h⟩ := Option.bind_eq_some_iff.1 h
    obtain ⟨bs, hbs, h⟩ := Option.bind_eq_some_iff.1 h
    cases h
    rw [List.forall₂_cons, List.forall_mem_cons, ih hbs]
    simp only [hb, Option.some.injEq, forall_eq']

/-- Conjunctions that are read for others have the tuples of these together. -/
theorem denoteUnion_of_readFor {cs ds : List Conjunction} (h : List.Forall₂ (fun c d => c.ReadFor I d) cs ds) :
    denoteUnion I ds = denoteUnion I cs := by
  ext t
  constructor
  · rintro ⟨d, hd, ht⟩
    obtain ⟨c, hc, hcd⟩ := Outcome.exists_of_mem_forall₂ h hd
    exact ⟨c, hc, hcd.tuples ▸ ht⟩
  · rintro ⟨c, hc, ht⟩
    obtain ⟨d, hd, hcd⟩ := Outcome.exists_of_mem_forall₂ h.flip hc
    exact ⟨d, hd, hcd.tuples ▸ ht⟩

/-- The scanner finds the bodies in the text exactly where all conjunctions are printed right. -/
theorem lex_union_iff {β : Type} {l : List Conjunction} {n : Nat} {P : Conjunction → Prop} {body : Conjunction → Option β}
    {lexemes : β → List (List Char)} (htidy : ∀ b, Tidy (lexemes b).flatten)
    (h : ∀ c ∈ l, Prints (P c) (fun s b => TextReads (P c) s (lexemes b)) (c.getString n) (body c)) {text : String}
    {bodies : List β} (htext : unionString n l = .ok text) (hb : l.mapM body = some bodies) :
    scanner.lex text.toList = unionLexemes (bodies.map lexemes) ↔ ∀ c ∈ l, P c := by
  refine ((prints_union h).reads text bodies htext hb).iff (tidy_union fun ls hls => ?_)
  obtain ⟨b, -, rfl⟩ := List.mem_map.1 hls
  exact htidy b

/-- The string of a union is read as bodies whose conjunctions are read for its own, and the copy of the union of these has
its tuples, where there is a conjunction, they are printed right, their names are kept and no tuple is lost. -/
theorem readsBack_iff {β : Type} {l : List Conjunction} {n : Nat} {P : Conjunction → Prop} {body : Conjunction → Option β}
    {lexemes : β → List (List Char)} (build : β → Except Failure Conjunction) {conj : β → Conjunction}
    {decl : β → TupleDecl} (htidy : ∀ b, Tidy (lexemes b).flatten)
    (h : ∀ c ∈ l, Prints (P c) (fun s b => TextReads (P c) s (lexemes b)) (c.getString n) (body c))
    (hread : ∀ c ∈ l, ∀ b, body c = some b → build b = .ok (conj b) ∧ (conj b).CleansRight env I ∧
      (c.ReadFor I (conj b) ↔ c.NamesKept I (decl b))) :
    (∃ text first rest ds, unionString n l = .ok text ∧ l.mapM body = some (first :: rest) ∧
      scanner.lex text.toList = unionLexemes ((first :: rest).map lexemes) ∧
      List.Forall₂ (fun c b => ∃ c', build b = .ok c' ∧ c.ReadFor I c') l (first :: rest) ∧
      copyConjunctions env (((first :: rest).map conj).foldl addConjunction []) = .ok ds ∧
      denoteUnion I ds = denoteUnion I l) ↔
    l ≠ [] ∧ (∀ c ∈ l, P c ∧ ∀ b, body c = some b → c.NamesKept I (decl b)) ∧
      ∀ bodies, l.mapM body = some bodies → LosesNothingRead I (bodies.map conj) := by
  have hbuilt : ∀ {c b}, c ∈ l → body c = some b → ((∃ c', build b = .ok c' ∧ c.ReadFor I c') ↔ c.ReadFor I (conj b)) := by
    intro c b hc hcb
    rw [(hread c hc b hcb).1]
    exact ⟨fun ⟨c', h, hfor⟩ => Except.ok.inj h ▸ hfor, fun h => ⟨_, rfl, h⟩⟩
  have hnames : ∀ {bodies}, l.mapM body = some bodies →
      (List.Forall₂ (fun c b => ∃ c', build b = .ok c' ∧ c.ReadFor I c') l bodies ↔
        ∀ c ∈ l, ∀ b, body c = some b → c.NamesKept I (decl b)) := by
    intro bodies hb
    rw [forall₂_iff_of_mapM hb]
    exact forall₂_congr fun c hc => forall₂_congr fun b hcb => (hbuilt hc hcb).trans (hread c hc b hcb).2.2
  have hcopy : ∀ {bodies}, l.mapM body = some bodies →
      List.Forall₂ (fun c b => ∃ c', build b = .ok c' ∧ c.ReadFor I c') l bodies →
      ∃ ds, copyConjunctions env ((bodies.map conj).foldl addConjunction []) = .ok ds ∧
        (denoteUnion I ds = denoteUnion I l ↔ LosesNothingRead I (bodies.map conj)) := by
    intro bodies hb hall
    have hclean : ∀ d ∈ bodies.map conj, d.CleansRight env I := by
      refine List.forall_mem_map.2 fun b hmem => ?_
      obtain ⟨c, hc, hcb⟩ := Outcome.exists_of_mem_forall₂ (Outcome.forall₂_of_mapM_some hb) hmem
      exact (hread c hc b hcb).2.1
    obtain ⟨ds, hds, hiff⟩ := copied_foldl_denote_iff hclean
    have hfor : List.Forall₂ (fun c b => c.ReadFor I (conj b)) l bodies :=
      (forall₂_iff_of_mapM hb).2 fun c hc b hcb => (hbuilt hc hcb).1 ((forall₂_iff_of_mapM hb).1 hall c hc b hcb)
    rw [denoteUnion_of_readFor (List.forall₂_map_right_iff.2 hfor)] at hiff
    exact ⟨ds, hds, hiff⟩
  constructor
  · rintro ⟨text, first, rest, ds, htext, hb, hscan, hall, hds, hden⟩
    refine ⟨?_, fun c hc => ⟨(lex_union_iff htidy h htext hb).1 hscan c hc, (hnames hb).1 hall c hc⟩, fun bodies hb' => ?_⟩
    · rintro rfl
      cases hb
    · obtain rfl : first :: rest = bodies := Option.some.inj (hb.symm.trans hb')
      obtain ⟨ds', hds', hiff⟩ := hcopy hb hall
      obtain rfl : ds = ds' := Except.ok.inj (hds.symm.trans hds')
      exact hiff.1 hden
  · rintro ⟨hne, hright, hkeeps⟩
    obtain ⟨text, bodies, htext, hb⟩ := (prints_union h).ok fun c hc => (hright c hc).1
    have hall := (hnames hb).2 fun c hc => (hright c hc).2
    obtain ⟨ds, hds, hiff⟩ := hcopy hb hall
    cases bodies with
    | nil => exact absurd (List.length_eq_zero_iff.1 (Outcome.forall₂_of_mapM_some hb).length_eq) hne
    | cons first rest =>
      exact ⟨text, first, rest, ds, htext, hb, (lex_union_iff htidy h htext hb).2 fun c hc => (hright c hc).1, hall, hds,
        hiff.2 (hkeeps _ hb)⟩

/-- The set that is read of bodies that are accepted. -/
theorem read_omegaSet {first : SetBody} {rest : List SetBody} (h : ∀ b ∈ first :: rest, b.Accepted env) {s : Set} :
    (SetText.omega first rest).read env = .ok s ↔ ∃ ds, copyConjunctions env
      (((first :: rest).map (SetBody.conjunction env)).foldl addConjunction []) = .ok ds ∧
        s = ⟨(first.conjunction env).arity, ds⟩ := by
  unfold SetText.read SetText.parse
  simp only [omegaSet_eq h, Outcome.bind_eq_ok, Except.ok.injEq, exists_eq_left', Set.copy, omegaOrder, eq_comm (a := s)]

/-- The relation that is read of bodies that are accepted, with as many inputs each. -/
theorem read_omegaRelation {first : RelBody} {rest : List RelBody} {m : Nat} (h : ∀ b ∈ first :: rest, b.Accepted env)
    (hm : ∀ b ∈ first :: rest, b.inTuple.length = m) {r : Relation} : (RelText.omega first rest).read env = .ok r ↔
      ∃ ds, copyConjunctions env (((first :: rest).map (RelBody.conjunction env)).foldl addConjunction []) = .ok ds ∧
        r = ⟨m, (first.conjunction env).arity - m, ds⟩ := by
  have hin : ∀ c ∈ (first :: rest).map (RelBody.conjunction env), c.inArity = m := by
    intro c hc
    obtain ⟨b, hb, rfl⟩ := List.mem_map.1 hc
    exact (buildBody_fields (h b hb).build).2.trans ((size_tupleDecl _).trans (hm b hb))
  have hadded : ∀ c ∈ ((first :: rest).map (RelBody.conjunction env)).foldl addConjunction [], c.inArity = m :=
    fun c hc => hin c ((mem_foldl_addConjunction hc).resolve_left List.not_mem_nil)
  have hparse : omegaRelation env first rest = .ok ⟨m, (first.conjunction env).arity - m,
      ((first :: rest).map (RelBody.conjunction env)).foldl addConjunction []⟩ := by
    obtain ⟨hf, hr⟩ := List.forall_mem_cons.1 h
    unfold omegaRelation
    rw [hf.build, Outcome.mapM_eq_map fun b hb => (hr b hb).build]
    exact relationOf_eq hin rfl
  unfold RelText.read RelText.parse
  simp only [hparse, Outcome.bind_eq_ok, Except.ok.injEq, exists_eq_left', Relation.copy,
    Relation.foldlM_addConjunction hadded, copyConjunctions, eq_comm (a := r)]

end ReadsBack

/-- The string that `getString` builds reads back exactly where there is a conjunction, no side of a constraint lacks its
sum or its zero, no term lacks a part, the declaration of a relation is split, the names stand for the same in the
declaration that the parser builds, and no tuple is lost with a conjunction that gives way. -/
theorem getString_readsBack_iff (env : Environment) (I : Interp) (s : Set) (r : Relation)
    (hs : ∀ c ∈ s.conjunctions, c.Readable I.cod) (hr : ∀ c ∈ r.conjunctions, c.Readable I.cod)
    (hsafe : ∀ c ∈ s.conjunctions, ∀ b, c.setBody = some b → ReadsSafely env I (tupleDecl b.tuple) 0 b.constraints)
    (hrsafe : ∀ c ∈ r.conjunctions, ∀ b, c.relBody r.inArity = some b →
      ReadsSafely env I b.decl (tupleDecl b.inTuple).size b.constraints) :
    (s.ReadsBack env I ↔ s.conjunctions ≠ [] ∧
      (∀ c ∈ s.conjunctions, c.PrintsRight ∧ ∀ b, c.setBody = some b → c.NamesKept I (tupleDecl b.tuple)) ∧
        ∀ bodies, s.conjunctions.mapM Conjunction.setBody = some bodies →
          LosesNothingRead I (bodies.map (SetBody.conjunction env))) ∧
    (r.ReadsBack env I ↔ r.conjunctions ≠ [] ∧
      (∀ c ∈ r.conjunctions, ((0 < r.inArity ∧ r.inArity < c.arity) ∧ c.PrintsRight) ∧
        ∀ b, c.relBody r.inArity = some b → c.NamesKept I b.decl) ∧
        ∀ bodies, r.conjunctions.mapM (Conjunction.relBody r.inArity) = some bodies →
          LosesNothingRead I (bodies.map (RelBody.conjunction env))) := by
  constructor
  · have hread := fun c hc b hb => reads_setBody (hs c hc) hb (hsafe c hc b hb)
    have hof : ∀ {bodies}, s.conjunctions.mapM Conjunction.setBody = some bodies → ∀ b ∈ bodies,
        b.Accepted env ∧ ∀ k ∈ b.constraints, k.Grouped := by
      intro bodies hb b hmem
      obtain ⟨c, hc, hcb⟩ := Outcome.exists_of_mem_forall₂ (Outcome.forall₂_of_mapM_some hb) hmem
      exact ⟨(hread c hc b hcb).1, (hread c hc b hcb).2.1⟩
    rw [← readsBack_iff (SetBody.build env) SetBody.tidy (fun c hc => Conjunction.prints_setBody (hs c hc).legible)
      fun c hc b hb => ⟨(hread c hc b hb).1.build, (hread c hc b hb).2.2⟩]
    unfold Set.ReadsBack
    refine exists₃_congr fun text first rest => ⟨?_, ?_⟩
    · rintro ⟨s', htext, hb, hreads, hall, hs', hden⟩
      have hne : s.conjunctions ≠ [] := fun h => by rw [h] at hb; cases hb
      obtain ⟨ds, hds, rfl⟩ := (read_omegaSet fun b hmem => (hof hb b hmem).1).1 hs'
      rw [Set.getString_eq hne fun c hc => (hs c hc).built.wellTyped] at htext
      exact ⟨ds, htext, hb, hreads.lexemes, hall, hds, hden⟩
    · rintro ⟨ds, htext, hb, hlex, hall, hds, hden⟩
      have hne : s.conjunctions ≠ [] := fun h => by rw [h] at hb; cases hb
      rw [← Set.getString_eq hne fun c hc => (hs c hc).built.wellTyped] at htext
      exact ⟨_, htext, hb, ⟨List.cons_ne_nil _ _, hlex, fun b hmem => (hof hb b hmem).2⟩, hall,
        (read_omegaSet fun b hmem => (hof hb b hmem).1).2 ⟨ds, hds, rfl⟩, hden⟩
  · have hread := fun c hc b hb => reads_relBody (hr c hc) hb (hrsafe c hc b hb)
    have hprints := fun c hc => Conjunction.prints_relBody (hr c hc).legible r.inArity
    have hof : ∀ {bodies}, r.conjunctions.mapM (Conjunction.relBody r.inArity) = some bodies → ∀ b ∈ bodies,
        b.Accepted env ∧ ∀ k ∈ b.constraints, k.Grouped := by
      intro bodies hb b hmem
      obtain ⟨c, hc, hcb⟩ := Outcome.exists_of_mem_forall₂ (Outcome.forall₂_of_mapM_some hb) hmem
      exact ⟨(hread c hc b hcb).1, (hread c hc b hcb).2.1⟩
    rw [← readsBack_iff (relSingleConjunct env) RelBody.tidy
      hprints fun c hc b hb => ⟨(hread c hc b hb).1.build, (hread c hc b hb).2.2⟩]
    have hin : ∀ {text bodies}, unionString r.inArity r.conjunctions = .ok text →
        r.conjunctions.mapM (Conjunction.relBody r.inArity) = some bodies →
        scanner.lex text.toList = unionLexemes (bodies.map RelBody.lexemes) →
          ∀ b ∈ bodies, b.inTuple.length = r.inArity := by
      intro text bodies htext hb hlex b hmem
      obtain ⟨c, hc, hcb⟩ := Outcome.exists_of_mem_forall₂ (Outcome.forall₂_of_mapM_some hb) hmem
      obtain ⟨ins, hins, hcb⟩ := Option.bind_eq_some_iff.1 hcb
      obtain ⟨outs, -, hcb⟩ := Option.bind_eq_some_iff.1 hcb
      obtain ⟨ks, -, hcb⟩ := Option.bind_eq_some_iff.1 hcb
      cases hcb
      have harity : r.inArity < c.arity := ((lex_union_iff RelBody.tidy hprints htext hb).1 hlex c hc).1.2
      rw [← (Outcome.forall₂_of_mapM_some hins).length_eq]
      exact List.length_take_of_le harity.le
    unfold Relation.ReadsBack
    refine exists₃_congr fun text first rest => ⟨?_, ?_⟩
    · rintro ⟨r', htext, hb, hreads, hall, hr', -, hden⟩
      have hne : r.conjunctions ≠ [] := fun h => by rw [h] at hb; cases hb
      rw [Relation.getString_eq hne fun c hc => (hr c hc).built.wellTyped] at htext
      obtain ⟨ds, hds, rfl⟩ := (read_omegaRelation (fun b hmem => (hof hb b hmem).1) (hin htext hb hreads.lexemes)).1 hr'
      exact ⟨ds, htext, hb, hreads.lexemes, hall, hds, hden⟩
    · rintro ⟨ds, htext, hb, hlex, hall, hds, hden⟩
      have hne : r.conjunctions ≠ [] := fun h => by rw [h] at hb; cases hb
      have hlen := hin htext hb hlex
      rw [← Relation.getString_eq hne fun c hc => (hr c hc).built.wellTyped] at htext
      exact ⟨_, htext, hb, ⟨List.cons_ne_nil _ _, hlex, fun b hmem => (hof hb b hmem).2⟩, hall,
        (read_omegaRelation (fun b hmem => (hof hb b hmem).1) hlen).2 ⟨ds, hds, rfl⟩, rfl, hden⟩

/-- `{ [i, j, k] : i + j <= k }` -/
def sumBelow : Set :=
  ⟨3, [⟨[], [.mk .inequality [.tupleVar (-1) 0, .tupleVar (-1) 1, .tupleVar 1 2]],
    ⟨[⟨false, 0, "i"⟩, ⟨false, 0, "j"⟩, ⟨false, 0, "k"⟩]⟩, 0⟩]⟩

/-- `{ [j] -> [tv0] : j - tv0 = 0 }`, as it is left by the inverse of `{ [tv0] -> [j] : j = tv0 }`. -/
def defaultOutput : Relation :=
  ⟨1, 1, [⟨[.mk .equality [.tupleVar 1 0, .tupleVar (-1) 1]], [], ⟨[⟨false, 0, "j"⟩, ⟨false, 0, "tv0"⟩]⟩, 1⟩]⟩

/-- `{ [j] }` in union with `{ [i] : i - n = 0 }` -/
def wholeOrSymbol : Set := ⟨1, wholeSet.conjunctions ++ symbolSet.conjunctions⟩

/-- The sum is printed as one name. An output with the default name of its place is renamed while it is read, and its name
in the constraint becomes a symbolic constant. Of a union, what is read first gives way when it has no constraint. -/
theorem getString_dropsPlus :
    (sumBelow.getString = .ok "\x7b [i, j, k] : ji <= k \x7d" ∧ ∀ env I, ¬ sumBelow.ReadsBack env I) ∧
    (defaultOutput.getString = .ok "\x7b [j] -> [tv0] : tv0 = j \x7d" ∧ ∀ env I, ¬ defaultOutput.ReadsBack env I) ∧
    wholeOrSymbol.getString = .ok "\x7b [j] :  \x7d union \x7b [i] : n = i \x7d" ∧
      ∀ env I, ¬ wholeOrSymbol.ReadsBack env I := by
  have htext : sumBelow.getString = .ok "\x7b [i, j, k] : ji <= k \x7d" := rfl
  refine ⟨⟨htext, ?_⟩, ⟨rfl, ?_⟩, rfl, ?_⟩
  · rintro env I ⟨text, first, rest, s', hs, hb, hreads, -⟩
    obtain rfl : "\x7b [i, j, k] : ji <= k \x7d" = text := Except.ok.inj (htext.symm.trans hs)
    have hlex := hreads.lexemes
    have hbodies : sumBelow.conjunctions.mapM Conjunction.setBody = some [⟨[.var ⟨"i", by decide⟩, .var ⟨"j", by decide⟩,
        .var ⟨"k", by decide⟩], [.lte (.plus (.id ⟨"j", by decide⟩) (.id ⟨"i", by decide⟩)) (.id ⟨"k", by decide⟩)]⟩] := rfl
    rw [hbodies] at hb
    cases hb
    revert hlex
    decide
  · rintro env I ⟨text, first, rest, r', -, hb, -, hall, -⟩
    have hbodies : defaultOutput.conjunctions.mapM (Conjunction.relBody 1) = some [⟨[.var ⟨"j", by decide⟩],
        [.var ⟨"tv0", by decide⟩], [.eq (.id ⟨"tv0", by decide⟩) (.id ⟨"j", by decide⟩)]⟩] := rfl
    obtain ⟨rfl, rfl⟩ := List.cons.inj (Option.some.inj (hbodies.symm.trans hb))
    obtain ⟨c', hc', hfor⟩ := (List.forall₂_cons.1 hall).1
    obtain ⟨hdecl, -⟩ := buildBody_fields hc'
    have hname : c'.tupleDecl.elemVarString 1 = "tv0" := (hfor.vars _ (List.mem_singleton.2 rfl)).2.1
    rw [hdecl] at hname
    revert hname
    decide
  · rintro env I ⟨text, first, rest, s', -, hb, -, -, hs', hden⟩
    have hbodies : wholeOrSymbol.conjunctions.mapM Conjunction.setBody = some [⟨[.var ⟨"j", by decide⟩], []⟩,
        ⟨[.var ⟨"i", by decide⟩], [.eq (.id ⟨"n", by decide⟩) (.id ⟨"i", by decide⟩)]⟩] := rfl
    obtain ⟨rfl, rfl⟩ := List.cons.inj (Option.some.inj (hbodies.symm.trans hb))
    obtain rfl : symbolSet = s' := Except.ok.inj hs'
    have hmem : [I.sym "n" + 1] ∈ symbolSet.denote I := by
      rw [hden]
      refine ⟨_, List.mem_cons_self, (mem_denote_of_unconstrained rfl).2 ⟨rfl, fun i hi hc => ?_⟩⟩
      obtain rfl : i = 0 := Nat.lt_one_iff.1 hi
      cases hc
    obtain ⟨c, hc, -, heq, -⟩ := hmem
    obtain rfl : c = symbolConj := by simpa [symbolSet] using hc
    have h := heq _ (List.mem_singleton.2 rfl) 0
    simp [Exp.val, Term.val, valuation] at h

/-- `[i] : 0 <= i && i < n` -/
def belowConj : Conjunction :=
  ⟨[], [.mk .inequality [.tupleVar 1 0], .mk .inequality [.tupleVar (-1) 0, .symConst 1 "n", .constVal (-1)]],
    ⟨[⟨false, 0, "i"⟩]⟩, 0⟩

/-- `{ [i] : 0 <= i && i < n } union { [i] : i = n }` -/
def iterations : Set := ⟨1, [belowConj, symbolConj]⟩

/-- `[i] -> [j] : j = f(i)` -/
def callConj : Conjunction :=
  ⟨[.mk .equality [.tupleVar 1 1, .ufCall (-1) "f" [.mk .expression [.tupleVar 1 0]] none]], [],
    ⟨[⟨false, 0, "i"⟩, ⟨false, 0, "j"⟩]⟩, 1⟩

/-- `{ [i] -> [j] : j = f(i) }` -/
def callImage : Relation := ⟨1, 1, [callConj]⟩

theorem readable_belowConj : belowConj.Readable identityInterp.cod := by
  refine ⟨⟨fun _ h => absurd h List.not_mem_nil, fun e he => ?_, .nil, by unfold Sorted; decide⟩,
    ⟨fun e he => ?_, fun e he => ?_⟩, ⟨fun _ h => absurd h List.not_mem_nil, fun e he => ?_⟩⟩
  · simp only [belowConj, List.mem_cons, List.not_mem_nil, or_false] at he
    rcases he with rfl | rfl
    · exact ⟨rfl, rfl, ⟨rfl, by unfold Sorted; decide, ⟨by decide, trivial⟩, trivial⟩, by decide⟩
    · exact ⟨rfl, rfl, ⟨rfl, by unfold Sorted; decide, ⟨by decide, trivial⟩, ⟨by decide, trivial⟩, ⟨by decide, trivial⟩,
        trivial⟩, by decide⟩
  · obtain rfl := List.mem_singleton.1 he
    exact fun _ => rfl
  · simp only [Conjunction.constraints, belowConj, List.nil_append, List.mem_cons, List.not_mem_nil, or_false] at he
    rcases he with rfl | rfl
    · exact ⟨⟨by decide, fun _ => rfl⟩, trivial⟩
    · exact ⟨⟨by decide, fun _ => rfl⟩, rfl, trivial, trivial⟩
  · refine ⟨false, rfl, fun t ht => ?_⟩
    simp only [belowConj, List.mem_cons, List.not_mem_nil, or_false] at he
    rcases he with rfl | rfl <;> simp only [Exp.terms_mk, List.mem_cons, List.not_mem_nil, or_false] at ht
    · obtain rfl := ht
      exact ⟨rfl, trivial⟩
    · rcases ht with rfl | rfl | rfl <;> exact ⟨rfl, trivial⟩

theorem readable_symbolConj : symbolConj.Readable identityInterp.cod := by
  refine ⟨⟨fun e he => ?_, fun _ h => absurd h List.not_mem_nil, List.pairwise_singleton _ _, .nil⟩,
    ⟨fun e he => ?_, fun e he => ?_⟩, ⟨fun e he => ?_, fun _ h => absurd h List.not_mem_nil⟩⟩
  · obtain rfl := List.mem_singleton.1 he
    exact ⟨⟨rfl, rfl, ⟨rfl, by unfold Sorted; decide, ⟨by decide, trivial⟩, ⟨by decide, trivial⟩, trivial⟩, by decide⟩, rfl⟩
  · obtain rfl := List.mem_singleton.1 he
    exact fun _ => rfl
  · obtain rfl := List.mem_singleton.1 he
    exact ⟨⟨by decide, fun _ => rfl⟩, rfl, trivial⟩
  · obtain rfl := List.mem_singleton.1 he
    refine ⟨false, trivial, fun t ht => ?_⟩
    simp only [Exp.terms_mk, List.mem_cons, List.not_mem_nil, or_false] at ht
    rcases ht with rfl | rfl <;> exact ⟨rfl, trivial⟩

theorem readable_callConj : callConj.Readable identityInterp.cod := by
  refine ⟨⟨fun e he => ?_, fun _ h => absurd h List.not_mem_nil, List.pairwise_singleton _ _, .nil⟩,
    ⟨fun e he => ?_, fun e he => ?_⟩, ⟨fun e he => ?_, fun _ h => absurd h List.not_mem_nil⟩⟩
  · obtain rfl := List.mem_singleton.1 he
    have harg : (Exp.mk .expression [.tupleVar 1 0]).Canonical :=
      ⟨rfl, List.pairwise_singleton _ _, ⟨by decide, trivial⟩, trivial⟩
    exact ⟨⟨rfl, rfl, ⟨rfl, by unfold Sorted; decide, ⟨by decide, trivial⟩, ⟨by decide, harg, trivial⟩, trivial⟩,
      by decide⟩, rfl⟩
  · simp only [callConj, List.mem_cons, List.not_mem_nil, or_false] at he
    rcases he with rfl | rfl <;> exact fun _ => rfl
  · obtain rfl := List.mem_singleton.1 he
    exact ⟨⟨by decide, fun _ => rfl⟩, ⟨rfl, ⟨⟨by decide, fun _ => rfl⟩, trivial⟩, trivial⟩, trivial⟩
  · obtain rfl := List.mem_singleton.1 he
    refine ⟨false, trivial, fun t ht => ?_⟩
    simp only [Exp.terms_mk, List.mem_cons, List.not_mem_nil, or_false] at ht
    rcases ht with rfl | rfl
    · exact ⟨rfl, trivial⟩
    · exact ⟨⟨fun _ => rfl, fun _ => rfl⟩, trivial, ⟨false, trivial, ⟨rfl, trivial⟩, trivial⟩, trivial⟩

theorem printsRight_belowConj : belowConj.PrintsRight := by
  refine ⟨fun e he => ?_, fun e he => ?_⟩
  · obtain rfl := List.mem_singleton.1 he
    exact fun h => by cases h
  · simp only [Conjunction.constraints, belowConj, List.nil_append, List.mem_cons, List.not_mem_nil, or_false] at he
    rcases he with rfl | rfl
    · refine ⟨⟨fun _ h => absurd h List.not_mem_nil, fun t ht => ?_⟩, Nat.zero_le 1, le_refl 1⟩
      rw [List.mem_singleton.1 ht]
      rfl
    · refine ⟨⟨fun t ht => ?_, fun t ht => ?_⟩, le_refl 1, rfl⟩
      · rw [List.mem_singleton.1 ht]
        rfl
      · rw [List.mem_singleton.1 ht]
        trivial

theorem printsRight_symbolConj : symbolConj.PrintsRight := by
  refine ⟨fun e he => ?_, fun e he => ?_⟩
  · obtain rfl := List.mem_singleton.1 he
    exact fun h => by cases h
  · obtain rfl := List.mem_singleton.1 he
    refine ⟨⟨fun t ht => ?_, fun t ht => ?_⟩, le_refl 1, le_refl 1⟩
    · rw [List.mem_singleton.1 ht]
      trivial
    · rw [List.mem_singleton.1 ht]
      rfl

theorem printsRight_callConj : callConj.PrintsRight := by
  refine ⟨fun e he => ?_, fun e he => ?_⟩
  · simp only [callConj, List.mem_cons, List.not_mem_nil, or_false] at he
    rcases he with rfl | rfl <;> exact fun h => by cases h
  · obtain rfl := List.mem_singleton.1 he
    refine ⟨⟨fun t ht => ?_, fun t ht => ?_⟩, le_refl 1, le_refl 1⟩
    · rw [List.mem_singleton.1 ht]
      exact ⟨by decide, ⟨⟨trivial, rfl⟩, trivial⟩, trivial⟩
    · rw [List.mem_singleton.1 ht]
      rfl

/-- Where no name is declared twice, equal names stand at one place. -/
theorem valuation_eq_of_names {d : TupleDecl}
    (hd : ∀ i < d.size, ∀ l < d.size, d.elemVarString l = d.elemVarString i → l = i) (t : List Int) :
    ∀ i < d.size, ∀ l < d.size, d.elemIsConst i = false → d.elemIsConst l = false →
      d.elemVarString l = d.elemVarString i → valuation t l = valuation t i :=
  fun i hi l hl _ _ hname => congrArg _ (hd i hi l hl hname)

theorem namesKept_belowConj {I : Interp} : belowConj.NamesKept I belowConj.tupleDecl := by
  refine ⟨fun s hs => ?_, fun e he => ?_, fun t _ => valuation_eq_of_names (by decide) t⟩
  · obtain ⟨e, he, h⟩ := hs
    simp only [belowConj, List.nil_append, List.mem_cons, List.not_mem_nil, or_false] at he
    rcases he with rfl | rfl
    · rcases h with h | h <;> cases h
    · rcases h with h | h | h | h
      · cases h
      · rw [← show "n" = s from h]
        simp [belowConj, TupleDecl.places, TupleElem.place]
      · cases h
      · cases h
  · simp only [belowConj, List.nil_append, List.mem_cons, List.not_mem_nil, or_false] at he
    rcases he with rfl | rfl
    · exact ⟨rfl, trivial⟩
    · exact ⟨rfl, trivial, trivial, trivial⟩

theorem namesKept_symbolConj {I : Interp} : symbolConj.NamesKept I symbolConj.tupleDecl := by
  refine ⟨fun s hs => ?_, fun e he => ?_, fun t _ => valuation_eq_of_names (by decide) t⟩
  · obtain ⟨e, he, h⟩ := hs
    obtain rfl := List.mem_singleton.1 he
    rcases h with h | h | h
    · cases h
    · rw [← show "n" = s from h]
      simp [symbolConj, TupleDecl.places, TupleElem.place]
    · cases h
  · obtain rfl := List.mem_singleton.1 he
    exact ⟨rfl, trivial, trivial⟩

theorem namesKept_callConj {I : Interp} : callConj.NamesKept I callConj.tupleDecl := by
  refine ⟨fun s hs => ?_, fun e he => ?_, fun t _ => valuation_eq_of_names (by decide) t⟩
  · obtain ⟨e, he, h⟩ := hs
    obtain rfl := List.mem_singleton.1 he
    rcases h with h | (h | h) | h
    · cases h
    · rcases h with h | h <;> cases h
    · cases h
    · cases h
  · obtain rfl := List.mem_singleton.1 he
    exact ⟨rfl, ⟨⟨rfl, trivial⟩, trivial⟩, trivial⟩

/-- The function `f` has a recorded inverse, and no call of it collapses. -/
theorem getString_readsBack_iff_iterations :
    iterations.ReadsBack inverseEnv identityInterp ∧ callImage.ReadsBack inverseEnv identityInterp := by
  have hs : ∀ c ∈ iterations.conjunctions, c.Readable identityInterp.cod := by
    intro c hc
    rcases List.mem_pair.1 hc with rfl | rfl
    · exact readable_belowConj
    · exact readable_symbolConj
  have hr : ∀ c ∈ callImage.conjunctions, c.Readable identityInterp.cod := by
    intro c hc
    obtain rfl := List.mem_singleton.1 hc
    exact readable_callConj
  have hsafe : ∀ c ∈ iterations.conjunctions, ∀ b, c.setBody = some b →
      ReadsSafely inverseEnv identityInterp (tupleDecl b.tuple) 0 b.constraints := by
    intro c hc b hb
    rcases List.mem_pair.1 hc with rfl | rfl
    · obtain rfl := Option.some.inj hb
      refine .of_clean (c := belowConj) rfl rfl (fun e he => ?_) fun τ e he => ?_
      all_goals
        simp only [belowConj, List.nil_append, List.mem_cons, List.not_mem_nil, or_false] at he
        rcases he with rfl | rfl
      · exact ⟨trivial, trivial⟩
      · exact ⟨trivial, trivial, trivial, trivial⟩
      · exact ⟨trivial, trivial⟩
      · exact ⟨trivial, trivial, trivial, trivial⟩
    · obtain rfl := Option.some.inj hb
      refine .of_clean (c := symbolConj) rfl rfl (fun e he => ?_) fun τ e he => ?_
      all_goals
        obtain rfl := List.mem_singleton.1 he
        exact ⟨trivial, trivial, trivial⟩
  have hrsafe : ∀ c ∈ callImage.conjunctions, ∀ b, c.relBody callImage.inArity = some b →
      ReadsSafely inverseEnv identityInterp b.decl (tupleDecl b.inTuple).size b.constraints := by
    intro c hc b hb
    obtain rfl := List.mem_singleton.1 hc
    obtain rfl := Option.some.inj hb
    refine .of_clean (c := callConj) rfl rfl (fun e he => ?_) fun τ e he => ?_
    · obtain rfl := List.mem_singleton.1 he
      exact ⟨trivial, ⟨⟨List.cons_ne_nil _ _, false, rfl⟩, ⟨trivial, trivial⟩, trivial⟩, trivial⟩
    · obtain rfl := List.mem_singleton.1 he
      refine ⟨trivial, ⟨⟨⟨trivial, trivial⟩, trivial⟩, fun h => ?_⟩, trivial⟩
      cases h
  obtain ⟨h, h'⟩ := getString_readsBack_iff inverseEnv identityInterp iterations callImage hs hr hsafe hrsafe
  refine ⟨h.2 ⟨List.cons_ne_nil _ _, fun c hc => ?_, fun bodies hb => ?_⟩,
    h'.2 ⟨List.cons_ne_nil _ _, fun c hc => ?_, fun bodies hb => ?_⟩⟩
  · rcases List.mem_pair.1 hc with rfl | rfl
    · refine ⟨printsRight_belowConj, fun b hb => ?_⟩
      obtain rfl := Option.some.inj hb
      exact namesKept_belowConj
    · refine ⟨printsRight_symbolConj, fun b hb => ?_⟩
      obtain rfl := Option.some.inj hb
      exact namesKept_symbolConj
  · obtain rfl := Option.some.inj hb
    exact ⟨fun c hc => absurd hc List.not_mem_nil, fun c hc => absurd hc List.not_mem_nil⟩
  · obtain rfl := List.mem_singleton.1 hc
    refine ⟨⟨by decide, printsRight_callConj⟩, fun b hb => ?_⟩
    obtain rfl := Option.some.inj hb
    exact namesKept_callConj
  · obtain rfl := Option.some.inj hb
    exact ⟨fun c hc => absurd hc List.not_mem_nil, fun c hc => absurd hc List.not_mem_nil⟩

end IEGen
