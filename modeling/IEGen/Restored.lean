import IEGen.RoundTrip

/-!
# When replacing calls and putting them back restores a union

The conditions of `RoundTrips` are on the conjunctions alone: nothing that a copy loses, arities that `setInArity`
accepts, calls with names of their own, and no symbolic constant of such a name. Under them the conjunctions that come
back are those that a copy has (`decoded_eq_copied`); and each of them can be read off conjunctions that came back
(`roundTrips_of_restored`), since the terms of these are recorded calls and constants that the map does not know
(`Decoded`).
-/

namespace IEGen

open SortedList (Tied Sorted build)

/-! ## Unions that lose nothing when they are added again -/

theorem kept_eq_self {α : Type*} {has : α → Bool} : ∀ {cs : List α}, (∀ c ∈ cs.head?, has c = true) ∨ cs.length ≤ 1 →
    kept has cs = cs
  | [], _ | [_], _ => rfl
  | c :: d :: cs, h => by
    rcases h with h | h
    · exact if_pos (h c rfl)
    · simp at h

/-- One conjunction, or some conjunction with constraints comes before all without. -/
def Settled (cs : List Conjunction) : Prop :=
  cs.length ≤ 1 ∨ ∃ c ∈ cs, c.hasConstraints = true ∧
    ∀ d ∈ cs, d.hasConstraints = false → c.tupleDecl.lt d.tupleDecl = true

theorem head_hasConstraints {cs : List Conjunction} (h : Settled cs) (hs : cs.Pairwise (fun a b => b.lt a = false)) :
    (∀ c ∈ cs.head?, c.hasConstraints = true) ∨ cs.length ≤ 1 := by
  rcases h with h | ⟨c, hc, hk, hall⟩
  · exact .inr h
  · refine .inl fun d hd => ?_
    cases hn : d.hasConstraints with
    | true => rfl
    | false =>
      have hdecl := hall d (List.mem_of_mem_head? hd) hn
      have hlt : c.lt d = true := by rw [Conjunction.lt, if_pos hdecl]
      obtain ⟨ds, rfl⟩ := List.head?_eq_some_iff.1 hd
      rcases List.mem_cons.1 hc with rfl | hc
      · rw [hk] at hn; cases hn
      · rw [(List.pairwise_cons.1 hs).1 c hc] at hlt; cases hlt

/-- With one declaration, a conjunction without constraints comes before one with. -/
theorem tupleDecl_lt_of_not_lt {c d : Conjunction} (hc : c.hasConstraints = true) (hd : d.hasConstraints = false)
    (h : d.lt c = false) : c.tupleDecl.lt d.tupleDecl = true := by
  obtain ⟨he, hi⟩ := hasConstraints_eq_false.1 hd
  by_contra hlt
  rw [Bool.not_eq_true] at hlt
  have hpos : 0 < c.equalities.length ∨ 0 < c.inequalities.length := by
    have : 0 < c.equalities.length + c.inequalities.length := by simpa [Conjunction.hasConstraints] using hc
    omega
  simp only [Conjunction.lt, hlt, he, hi, List.length_nil] at h
  by_cases heq : 0 < c.equalities.length
  · simp [heq] at h
  · simp [heq, hpos.resolve_left heq] at h

theorem Settled.build {cs : List Conjunction} (h : Settled cs) : Settled (build Conjunction.lt cs) := by
  rcases h with h | ⟨c, hc, hk, hall⟩
  · exact .inl ((SortedList.length_build_le _ cs).trans h)
  · have hcover : ∃ c' ∈ SortedList.build Conjunction.lt cs, Tied Conjunction.lt c c' := by
      rcases SortedList.build_covers Conjunction.lt hc with h | h
      · exact ⟨c, h, strictWeak_conjunctionLt.tied_refl c⟩
      · exact h
    obtain ⟨c', hc', ht⟩ := hcover
    refine .inr ⟨c', hc', by rw [← hasConstraints_of_tied ht, hk], fun d hd hn => ?_⟩
    have hlt := hall d (SortedList.mem_of_mem_build hd) hn
    have hcong := strictWeak_elemLt.sizeLexLt.lt_congr_left (Conjunction.tied_parts ht).1 d.tupleDecl.elems
    exact hcong.symm.trans hlt

theorem settled_kept {cs : List Conjunction} (hs : cs.Pairwise (fun a b => b.lt a = false)) :
    Settled (kept Conjunction.hasConstraints cs) := by
  induction cs with
  | nil => exact .inl (by simp [kept])
  | cons c cs ih =>
    obtain ⟨hc, hcs⟩ := List.pairwise_cons.1 hs
    cases cs with
    | nil => exact .inl (by simp [kept])
    | cons d cs =>
      rw [kept]
      split_ifs with hk
      · refine .inr ⟨c, List.mem_cons_self, hk, fun u hu hn => ?_⟩
        rcases List.mem_cons.1 hu with rfl | hu
        · rw [hk] at hn; cases hn
        · exact tupleDecl_lt_of_not_lt hk hn (hc u hu)
      · exact ih hcs

theorem kept_copied {cs : List Conjunction} (hs : cs.Pairwise (fun a b => b.lt a = false)) :
    kept Conjunction.hasConstraints (copied cs) = copied cs :=
  kept_eq_self (head_hasConstraints (settled_kept hs).build
    ((sorted_copied cs).imp fun hab => strictWeak_conjunctionLt.asymm hab))

/-! ## The terms of a conjunction built anew -/

theorem forall_normalizeForEquality {P : Term → Prop} (hP : ∀ c t, P t → P (t.setCoefficient c)) {e : Exp}
    (h : ∀ t ∈ e.terms, P t) : ∀ t ∈ e.normalizeForEquality.terms, P t := by
  obtain ⟨k, -, z, hz, -⟩ := e.normalizeForEquality_spec
  intro t ht
  have hm : t ∈ (e.multiplyBy k).terms := hz ▸ List.mem_append_left _ ht
  obtain ⟨u, hu, rfl⟩ := List.mem_map.1 hm
  exact hP _ u (h u hu)

/-- What holds of the terms with any coefficient holds of the terms that are put in their place. -/
theorem forall_terms_mapTerms {φ : Term → Term} {P : Term → Prop} (hP : ∀ c t, P t → P (t.setCoefficient c))
    {c : Conjunction} (h : ∀ t ∈ c.terms, (φ t).isTupleExp = false ∧ P (φ t)) : ∀ t ∈ (c.mapTerms φ).terms, P t := by
  have hexp : ∀ e : Exp, (∀ t ∈ e.terms, t ∈ c.terms) → ∀ t ∈ (e.mapTerms φ).terms, P t := by
    intro e he
    rw [mapTerms_eq fun t ht => (h t (he t ht)).1, Exp.terms_mk]
    refine forall_foldl_addOne hP (fun u hu => ?_) (by simp)
    obtain ⟨t, ht, rfl⟩ := List.mem_map.1 hu
    exact (h t (he t ht)).2
  intro t ht
  rw [Conjunction.terms, Conjunction.mapTerms_eq φ] at ht
  obtain ⟨d, hd, ht⟩ := List.mem_flatMap.1 ht
  rcases List.mem_append.1 hd with hd | hd
  · obtain ⟨e, he, hde⟩ := List.mem_filterMap.1 (SortedList.mem_of_mem_build hd)
    rw [Exp.eq_of_mem_asEquality hde] at ht
    exact forall_normalizeForEquality hP (hexp e (mem_terms_equality he)) t ht
  · obtain ⟨e, he, hde⟩ := List.mem_filterMap.1 (SortedList.mem_of_mem_build hd)
    rw [Exp.eq_of_mem_asInequality hde] at ht
    exact hexp e (mem_terms_inequality he) t ht

/-! ## The map after a run -/

namespace UFCallMap

variable {m : UFCallMap} {ts : List Term}

/-- A term that can be recorded. -/
def Recordable (d : Option TupleDecl) (t : Term) : Prop := t.readable = true ∧ t.Canonical ∧ Named d t

@[simp] theorem tupleDecl_record (t : Term) : (m.record t).tupleDecl = m.tupleDecl := by
  unfold record
  split_ifs
  · exact tupleDecl_add _ t
  · rfl

theorem wf_record (hm : m.Wf) {t : Term} (ht : Recordable m.tupleDecl t) : (m.record t).Wf := by
  unfold record
  split_ifs with hcall
  · obtain ⟨hr, hc, hn⟩ := ht
    obtain ⟨s, hs⟩ := hn hcall
    exact wf_add hm hcall hr hc (by rw [symbolOf_eq hs, hs])
  · exact hm

theorem wf_foldl_record (hm : m.Wf) (hts : ∀ t ∈ ts, Recordable m.tupleDecl t) :
    (ts.foldl record m).Wf ∧ (ts.foldl record m).tupleDecl = m.tupleDecl := by
  induction ts generalizing m with
  | nil => exact ⟨hm, rfl⟩
  | cons t ts ih =>
    obtain ⟨ht, hts⟩ := List.forall_mem_cons.1 hts
    obtain ⟨h₁, h₂⟩ := ih (wf_record hm ht) (by rw [tupleDecl_record]; exact hts)
    exact ⟨h₁, h₂.trans (tupleDecl_record t)⟩

theorem findVar_foldl_record_of_some {s : String} {k : Term} (h : m.findVar s = some k) :
    (ts.foldl record m).findVar s = some k := by
  induction ts generalizing m with
  | nil => exact h
  | cons t ts ih =>
    refine ih ?_
    unfold record
    split_ifs
    · exact findVar_add_of_some h
    · exact h

/-- The symbol of every call that has been seen is taken. -/
theorem findVar_symbolOf_isSome {t : Term} (ht : t ∈ ts) (hcall : t.isUFCall = true) :
    ((ts.foldl record m).findVar (symbolOf m.tupleDecl t)).isSome = true := by
  induction ts generalizing m with
  | nil => cases ht
  | cons u ts ih =>
    rcases List.mem_cons.1 ht with rfl | ht
    · obtain ⟨k, hk⟩ := Option.isSome_iff_exists.1 (findVar_add_self m (symbolOf m.tupleDecl t) t)
      have hrecord : m.record t = m.add (symbolOf m.tupleDecl t) t := by rw [record, if_pos hcall]
      rw [List.foldl_cons, hrecord, findVar_foldl_record_of_some hk]
      rfl
    · rw [List.foldl_cons, ← tupleDecl_record (m := m) u]
      exact ih ht

/-- What is found has been there, or is a call that has been seen. -/
theorem findVar_foldl_record {s : String} {k : Term} (h : (ts.foldl record m).findVar s = some k) :
    m.findVar s = some k ∨ ∃ t ∈ ts, t.isUFCall = true ∧ symbolOf m.tupleDecl t = s ∧ k = t.setCoefficient 1 := by
  induction ts generalizing m with
  | nil => exact .inl h
  | cons t ts ih =>
    rcases ih h with h | ⟨u, hu, hcall, hs, hk⟩
    · unfold record at h
      split_ifs at h with hcall
      · rcases findVar_add h with h | ⟨rfl, rfl⟩
        · exact .inl h
        · exact .inr ⟨t, List.mem_cons_self, hcall, rfl, rfl⟩
      · exact .inl h
    · rw [tupleDecl_record] at hs
      exact .inr ⟨u, List.mem_cons_of_mem _ hu, hcall, hs, hk⟩

end UFCallMap

/-! ## The union on its way -/

/-- Each conjunction of either list is tied to one of the other. -/
def SameConjunctions (cs ds : List Conjunction) : Prop :=
  (∀ c ∈ cs, ∃ d ∈ ds, Tied Conjunction.lt c d) ∧ ∀ d ∈ ds, ∃ c ∈ cs, Tied Conjunction.lt d c

/-- Calls that are not one have different names, and no symbolic constant has the name of a call. -/
structure OwnNames (d : Option TupleDecl) (cs : List Conjunction) : Prop where
  named : ∀ t ∈ cs.flatMap Conjunction.terms, Named d t
  distinct : ∀ t ∈ cs.flatMap Conjunction.terms, ∀ u ∈ cs.flatMap Conjunction.terms, t.isUFCall = true →
    u.isUFCall = true → symbolOf d t = symbolOf d u → Tied Term.lt (t.setCoefficient 1) (u.setCoefficient 1)
  fresh : ∀ k s, .symConst k s ∈ cs.flatMap Conjunction.terms → ∀ t ∈ cs.flatMap Conjunction.terms,
    t.isUFCall = true → symbolOf d t ≠ s

/-- When a union comes back as it was. -/
structure RoundTrips (d : Option TupleDecl) (cs : List Conjunction) : Prop where
  restored : ∀ c ∈ replaced Conjunction.hasConstraints cs, ∃ c' ∈ kept Conjunction.hasConstraints cs, Tied Conjunction.lt c c'
  arity : ∀ c ∈ copied cs, c.inArity < c.arity
  names : OwnNames d cs

/-- The map that replacing the calls of a cleaned-up union leaves. -/
def affineMap (d : Option TupleDecl) (cs : List Conjunction) : UFCallMap :=
  ((copied cs).flatMap Conjunction.terms).foldl UFCallMap.record (.empty d)

/-- The conjunctions with symbols for calls. -/
def encoded (d : Option TupleDecl) (cs : List Conjunction) : List Conjunction :=
  build Conjunction.lt (kept Conjunction.hasConstraints ((copied cs).map (Conjunction.mapTerms (affineTerm d))))

/-- The conjunctions with calls for symbols. -/
def decoded (d : Option TupleDecl) (cs : List Conjunction) : List Conjunction :=
  build Conjunction.lt (kept Conjunction.hasConstraints
    ((encoded d cs).map (Conjunction.mapTerms (reverseTerm (affineMap d cs)))))

section Clean

variable {env : Environment} {d : Option TupleDecl} {cs : List Conjunction}

theorem Conjunction.Clean.term {c : Conjunction} (h : c.Clean env) {t : Term} (ht : t ∈ c.terms) :
    t.readable = true ∧ t.Canonical := by
  obtain ⟨e, he, ht⟩ := List.mem_flatMap.1 ht
  rcases List.mem_append.1 he with he | he
  · exact ⟨(h.equalities e he).1.terms.readable t ht, ((h.equalities e he).1.terms.canonical t ht).2⟩
  · exact ⟨(h.inequalities e he).terms.readable t ht, ((h.inequalities e he).terms.canonical t ht).2⟩

theorem Conjunction.Clean.typed {c : Conjunction} (h : c.Clean env) : c.Typed :=
  ⟨fun e he => (h.equalities e he).1.expType, fun e he => (h.inequalities e he).expType⟩

theorem term_of_mem_flatMap (hc : ∀ c ∈ cs, c.Clean env) {t : Term} (ht : t ∈ cs.flatMap Conjunction.terms) :
    t.readable = true ∧ t.Canonical := by
  obtain ⟨c, hcm, ht⟩ := List.mem_flatMap.1 ht
  exact (hc c hcm).term ht

theorem affineTerm_leaf {t : Term} (hr : t.readable = true) : IsLeaf (affineTerm d t) := by
  cases t <;> first | exact ⟨rfl, rfl⟩ | cases hr

theorem mem_copied_terms {t : Term} (ht : t ∈ (copied cs).flatMap Conjunction.terms) :
    t ∈ cs.flatMap Conjunction.terms := by
  obtain ⟨c, hc, ht⟩ := List.mem_flatMap.1 ht
  exact List.mem_flatMap.2 ⟨c, mem_of_mem_copied hc, ht⟩

theorem findVar_affineMap_isSome {t : Term} (ht : t ∈ (copied cs).flatMap Conjunction.terms) (hcall : t.isUFCall = true) :
    ((affineMap d cs).findVar (symbolOf d t)).isSome = true :=
  UFCallMap.findVar_symbolOf_isSome (m := .empty d) ht hcall

/-- Symbols of distinct calls, none of them the name of a constant, are codes. -/
theorem codes_of_names (hc : ∀ c ∈ cs, c.Clean env) (h : OwnNames d cs) :
    Codes (affineTerm d) (reverseTerm (affineMap d cs)) ((copied cs).flatMap Conjunction.terms) := by
  have hseen : ∀ {s k}, (affineMap d cs).findVar s = some k → ∃ t ∈ cs.flatMap Conjunction.terms, t.isUFCall = true ∧
      symbolOf d t = s ∧ k = t.setCoefficient 1 := by
    intro s k hk
    rcases UFCallMap.findVar_foldl_record hk with hk | ⟨t, ht, hcall, hs, hk⟩
    · cases hk
    · exact ⟨t, mem_copied_terms ht, hcall, hs, hk⟩
  refine ⟨fun c t => affineTerm_setCoefficient d c t, fun c t => reverseTerm_setCoefficient _ c t,
    fun t ht => affineTerm_leaf (term_of_mem_flatMap hc (mem_copied_terms ht)).1, fun t ht => ?_, fun t ht u hu hm => ?_⟩
  · obtain ⟨hr, hcan⟩ := term_of_mem_flatMap hc (mem_copied_terms ht)
    cases t with
    | tupleExp => cases hr
    | tupleVar | constVal => rfl
    | symConst k s =>
      simp only [affineTerm, reverseTerm]
      cases hf : (affineMap d cs).findVar s with
      | none => rfl
      | some k' =>
        obtain ⟨u, hu, hcall, hs, -⟩ := hseen hf
        exact absurd hs (h.fresh k s (mem_copied_terms ht) u hu hcall)
    | ufCall k f as i =>
      obtain ⟨k', hf⟩ := Option.isSome_iff_exists.1 (findVar_affineMap_isSome ht rfl)
      obtain ⟨u, hu, hcall, hs, rfl⟩ := hseen hf
      obtain ⟨hru, hcu⟩ := term_of_mem_flatMap hc hu
      have hkey := Term.eq_of_tied (by rw [readable_setCoefficient]; exact hru) (by rw [readable_setCoefficient]; exact hr)
        (canonical_setCoefficient hcu) (canonical_setCoefficient hcan)
        (h.distinct u hu _ (mem_copied_terms ht) hcall rfl hs)
      have hback : reverseTerm (affineMap d cs) (affineTerm d (.ufCall k f as i)) =
          (u.setCoefficient 1).setCoefficient k := by
        simp only [affineTerm, reverseTerm, hf]
      rw [hback, hkey]
      rfl
  · obtain ⟨hr, -⟩ := term_of_mem_flatMap hc (mem_copied_terms ht)
    obtain ⟨hr', -⟩ := term_of_mem_flatMap hc (mem_copied_terms hu)
    cases t <;> cases u <;>
      first | exact hm | cases hm | cases hr | cases hr' | skip
    case ufCall.ufCall k f as i k' f' as' i' =>
      have hs : symbolOf d (.ufCall k f as i) = symbolOf d (.ufCall k' f' as' i') := by
        simpa [affineTerm, Term.factorMatches] using hm
      have := (factorMatches_of_tied (h.distinct _ (mem_copied_terms ht) _ (mem_copied_terms hu) rfl rfl hs) rfl).1
      rwa [Term.factorMatches_setCoefficient_left, Term.factorMatches_setCoefficient_right] at this
    case ufCall.symConst k f as i k' s =>
      have hs : symbolOf d (.ufCall k f as i) = s := by simpa [affineTerm, Term.factorMatches] using hm
      exact absurd hs (h.fresh _ _ (mem_copied_terms hu) _ (mem_copied_terms ht) rfl)
    case symConst.ufCall k s k' f as i =>
      have hs : s = symbolOf d (.ufCall k' f as i) := by simpa [affineTerm, Term.factorMatches] using hm
      exact absurd hs.symm (h.fresh _ _ (mem_copied_terms ht) _ (mem_copied_terms hu) rfl)

/-! ## There and back -/

theorem hasConstraints_mapTerms {φ ψ : Term → Term} {c : Conjunction} (h : (c.mapTerms φ).mapTerms ψ = c) :
    (c.mapTerms φ).hasConstraints = c.hasConstraints := by
  have hnone : ∀ {χ : Term → Term} {b : Conjunction}, b.hasConstraints = false → (b.mapTerms χ).hasConstraints = false := by
    intro χ b hb
    obtain ⟨he, hi⟩ := hasConstraints_eq_false.1 hb
    rw [Conjunction.mapTerms_eq, he, hi]
    rfl
  cases hn : c.hasConstraints with
  | false => exact hnone hn
  | true =>
    cases hn' : (c.mapTerms φ).hasConstraints with
    | true => rfl
    | false =>
      have := hnone (χ := ψ) hn'
      rw [h, hn] at this
      cases this

theorem tupleDecl_mapTerms (φ : Term → Term) (c : Conjunction) : (c.mapTerms φ).tupleDecl = c.tupleDecl := by
  rw [Conjunction.mapTerms_eq]

theorem inArity_mapTerms (φ : Term → Term) (c : Conjunction) : (c.mapTerms φ).inArity = c.inArity := by
  rw [Conjunction.mapTerms_eq]

theorem arity_mapTerms (φ : Term → Term) (c : Conjunction) : (c.mapTerms φ).arity = c.arity := by
  rw [Conjunction.arity, tupleDecl_mapTerms, Conjunction.arity]

/-- A union with codes comes back as its copy, and its codes have no calls. -/
theorem decoded_eq_copied {ψ : Term → Term} (hc : ∀ c ∈ cs, c.Clean env) (hs : cs.Pairwise (fun a b => b.lt a = false))
    (h : Codes (affineTerm d) ψ ((copied cs).flatMap Conjunction.terms)) :
    build Conjunction.lt (kept Conjunction.hasConstraints ((encoded d cs).map (Conjunction.mapTerms ψ))) = copied cs ∧
      encoded d cs = build Conjunction.lt ((copied cs).map (Conjunction.mapTerms (affineTerm d))) := by
  have hclean : ∀ c ∈ copied cs, c.Clean env := fun c hm => hc c (mem_of_mem_copied hm)
  have hcodes : ∀ c ∈ copied cs, Codes (affineTerm d) ψ c.terms := fun c hm =>
    h.mono fun t ht => List.mem_flatMap.2 ⟨c, hm, ht⟩
  have hback : ∀ c ∈ copied cs, (c.mapTerms (affineTerm d)).mapTerms ψ = c := fun c hm =>
    mapTerms_mapTerms (hclean c hm) (hcodes c hm)
  have hsettled : Settled (copied cs) := (settled_kept hs).build
  have hsettled' : Settled ((copied cs).map (Conjunction.mapTerms (affineTerm d))) := by
    rcases hsettled with hl | ⟨c, hm, hk, hall⟩
    · exact .inl (by rwa [List.length_map])
    · refine .inr ⟨_, List.mem_map_of_mem hm, by rw [hasConstraints_mapTerms (hback c hm), hk], fun b hb hn => ?_⟩
      obtain ⟨c', hm', rfl⟩ := List.mem_map.1 hb
      rw [hasConstraints_mapTerms (hback c' hm')] at hn
      rw [tupleDecl_mapTerms, tupleDecl_mapTerms]
      exact hall c' hm' hn
  have henc : encoded d cs = build Conjunction.lt ((copied cs).map (Conjunction.mapTerms (affineTerm d))) := by
    unfold encoded
    rw [kept_eq_self]
    rw [List.head?_map, List.length_map]
    rcases head_hasConstraints hsettled ((sorted_copied cs).imp fun hab => strictWeak_conjunctionLt.asymm hab) with hh | hl
    · refine .inl fun b hb => ?_
      obtain ⟨c, hm, rfl⟩ := Option.mem_map.1 hb
      rw [hasConstraints_mapTerms (hback c (List.mem_of_mem_head? hm)), hh c hm]
    · exact .inr hl
  refine ⟨?_, henc⟩
  have hkept : kept Conjunction.hasConstraints ((encoded d cs).map (Conjunction.mapTerms ψ)) =
      (encoded d cs).map (Conjunction.mapTerms ψ) := by
    refine kept_eq_self ?_
    rw [List.head?_map, List.length_map, henc]
    rcases head_hasConstraints hsettled'.build
      ((SortedList.sorted_build strictWeak_conjunctionLt _).imp fun hab => strictWeak_conjunctionLt.asymm hab) with hh | hl
    · refine .inl fun b hb => ?_
      obtain ⟨a, hm, rfl⟩ := Option.mem_map.1 hb
      obtain ⟨c, hcm, rfl⟩ := List.mem_map.1 (SortedList.mem_of_mem_build (List.mem_of_mem_head? hm))
      rw [hback c hcm, ← hasConstraints_mapTerms (hback c hcm)]
      exact hh _ hm
    · exact .inr hl
  rw [hkept, henc]
  refine SortedList.build_build strictWeak_conjunctionLt (sorted_copied cs) hback fun c hm c' hm' ht => ?_
  exact (sorted_copied cs).eq_of_tied hm hm'
    (tied_of_tied_mapTerms (hclean c hm) (hclean c' hm') (hcodes c hm) (hcodes c' hm') ht)

/-! ## What comes back -/

/-- The terms that come back: calls that stand under their own names, and constants that the map does not know. -/
structure Decoded (m : UFCallMap) (t : Term) : Prop where
  readable : t.readable = true
  canonical : t.Canonical
  call : t.isUFCall = true → Named m.tupleDecl t ∧ m.findVar (symbolOf m.tupleDecl t) = some (t.setCoefficient 1)
  symbol : ∀ k s, t = .symConst k s → m.findVar s = none

theorem Decoded.setCoefficient {m : UFCallMap} {t : Term} (c : Int) (h : Decoded m t) : Decoded m (t.setCoefficient c) := by
  refine ⟨by rw [readable_setCoefficient]; exact h.readable, canonical_setCoefficient h.canonical, fun hcall => ?_,
    fun k s hk => ?_⟩
  · have hcall' : t.isUFCall = true := by cases t <;> first | rfl | cases hcall
    obtain ⟨hn, hf⟩ := h.call hcall'
    have hs : symbolOf m.tupleDecl (t.setCoefficient c) = symbolOf m.tupleDecl t := by
      rw [symbolOf, UFCallMap.symbol_setCoefficient, symbolOf]
    refine ⟨fun _ => ?_, by rw [hs, Term.setCoefficient_setCoefficient, hf]⟩
    rw [UFCallMap.symbol_setCoefficient]
    exact hn hcall'
  · cases t <;> cases hk
    exact h.symbol _ _ rfl

/-- The terms on their way: no tuples, and a constant that the map does not know is one of the union. -/
structure Encoded (m : UFCallMap) (t : Term) : Prop where
  simple : t.isTupleExp = false
  symbol : ∀ k s, t = .symConst k s → m.findVar s = none → t.readable = true

theorem Encoded.setCoefficient {m : UFCallMap} {t : Term} (c : Int) (h : Encoded m t) : Encoded m (t.setCoefficient c) := by
  refine ⟨by rw [Term.setCoefficient_isTupleExp]; exact h.simple, fun k s hk hf => ?_⟩
  rw [readable_setCoefficient]
  cases t <;> cases hk
  exact h.symbol _ _ rfl hf

theorem encoded_affineTerm {t : Term} (ht : t ∈ (copied cs).flatMap Conjunction.terms) (hr : t.readable = true) :
    Encoded (affineMap d cs) (affineTerm d t) := by
  refine ⟨(affineTerm_leaf hr).1, fun k s hk hf => ?_⟩
  cases t with
  | ufCall c f as i =>
    -- the symbol of a call is in the map
    have hseen := findVar_affineMap_isSome (d := d) ht rfl
    cases hk
    rw [hf] at hseen
    cases hseen
  | _ => exact hr

theorem decoded_reverseTerm {m : UFCallMap} (hm : m.Wf) {t : Term} (ht : Encoded m t) (hn : t.isUFCall = false) :
    (reverseTerm m t).isTupleExp = false ∧ Decoded m (reverseTerm m t) := by
  cases t with
  | tupleExp => cases ht.simple
  | ufCall => cases hn
  | tupleVar | constVal => exact ⟨rfl, rfl, trivial, fun h => Bool.noConfusion h, fun _ _ h => Term.noConfusion h⟩
  | symConst k s =>
    simp only [reverseTerm]
    cases hf : m.findVar s with
    | none =>
      refine ⟨rfl, ht.symbol k s rfl hf, trivial, fun h => Bool.noConfusion h, fun k' s' h => ?_⟩
      cases h
      exact hf
    | some c =>
      obtain ⟨hcall, hone, hrc, hcc, hsym⟩ := hm.of_findVar hf
      have hd : Decoded m c := by
        refine ⟨hrc, hcc, fun _ => ⟨fun _ => ⟨s, hsym⟩, ?_⟩, fun k' s' h => ?_⟩
        · rw [symbolOf_eq hsym, hf, ← hone, Term.setCoefficient_self]
        · rw [h] at hcall
          cases hcall
      refine ⟨?_, hd.setCoefficient k⟩
      show (c.setCoefficient k).isTupleExp = false
      rw [Term.setCoefficient_isTupleExp]
      exact isTupleExp_of_readable hrc

theorem mem_terms_of_tied {c b : Conjunction} (h : Tied Conjunction.lt c b) {t : Term} (ht : t ∈ c.terms) :
    ∃ u ∈ b.terms, Tied Term.lt t u := by
  obtain ⟨-, he, hi⟩ := Conjunction.tied_parts h
  have hall : List.Forall₂ (Tied Exp.lt) (c.equalities ++ c.inequalities) (b.equalities ++ b.inequalities) :=
    List.rel_append he hi
  obtain ⟨e, hem, ht⟩ := List.mem_flatMap.1 ht
  obtain ⟨e', hem', hee⟩ := Outcome.exists_of_mem_forall₂ hall.flip hem
  obtain ⟨u, hu, htu⟩ := Outcome.exists_of_mem_forall₂ (tied_exp.1 hee).flip ht
  exact ⟨u, List.mem_flatMap.2 ⟨e', hem', hu⟩, htu⟩

theorem wf_affineMap (hc : ∀ c ∈ cs, c.Clean env) (hn : ∀ t ∈ (copied cs).flatMap Conjunction.terms, Named d t) :
    (affineMap d cs).Wf ∧ (affineMap d cs).tupleDecl = d := by
  refine UFCallMap.wf_foldl_record (UFCallMap.wf_empty d) fun t ht => ?_
  obtain ⟨hr, hcan⟩ := term_of_mem_flatMap hc (mem_copied_terms ht)
  exact ⟨hr, hcan, hn t ht⟩

/-- The terms of a union that comes back are terms that come back. -/
theorem decoded_of_sameConjunctions (hc : ∀ c ∈ cs, c.Clean env)
    (hv : ∀ c ∈ copied cs, VisitorSuperAffineSet.Visitable d c)
    (hv' : ∀ b ∈ encoded d cs, VisitorReverseAffineSubstitution.Visitable b)
    (hsame : SameConjunctions (decoded d cs) cs) : ∀ t ∈ cs.flatMap Conjunction.terms, Decoded (affineMap d cs) t := by
  have hn : ∀ t ∈ (copied cs).flatMap Conjunction.terms, Named d t := by
    intro t ht
    obtain ⟨c, hm, ht⟩ := List.mem_flatMap.1 ht
    exact (hv c hm).2 t ht
  obtain ⟨hwf, -⟩ := wf_affineMap hc hn
  have henc : ∀ b ∈ encoded d cs, ∀ t ∈ b.terms, Encoded (affineMap d cs) t := by
    intro b hb
    obtain ⟨c, hm, rfl⟩ := List.mem_map.1 (mem_of_mem_kept (SortedList.mem_of_mem_build hb))
    refine forall_terms_mapTerms (fun c t h => h.setCoefficient c) fun t ht => ?_
    obtain ⟨hr, -⟩ := (hc c (mem_of_mem_copied hm)).term ht
    exact ⟨(affineTerm_leaf hr).1, encoded_affineTerm (List.mem_flatMap.2 ⟨c, hm, ht⟩) hr⟩
  have hdec : ∀ b ∈ decoded d cs, ∀ t ∈ b.terms, Decoded (affineMap d cs) t := by
    intro b hb
    obtain ⟨a, hm, rfl⟩ := List.mem_map.1 (mem_of_mem_kept (SortedList.mem_of_mem_build hb))
    exact forall_terms_mapTerms (fun c t h => h.setCoefficient c) fun t ht =>
      decoded_reverseTerm hwf (henc a hm t ht) ((hv' a hm).2 t ht)
  intro t ht
  obtain ⟨c, hm, ht⟩ := List.mem_flatMap.1 ht
  obtain ⟨b, hb, htied⟩ := hsame.2 c hm
  obtain ⟨u, hu, htu⟩ := mem_terms_of_tied htied ht
  have hd := hdec b hb u hu
  obtain ⟨hr, hcan⟩ := (hc c hm).term ht
  rwa [Term.eq_of_tied hr hd.readable hcan hd.canonical htu]

/-- A union that comes back meets the conditions. -/
theorem roundTrips_of_restored (hc : ∀ c ∈ cs, c.Clean env) (hs : cs.Pairwise (fun a b => b.lt a = false))
    (hv : ∀ c ∈ copied cs, VisitorSuperAffineSet.Visitable d c)
    (hv' : ∀ b ∈ encoded d cs, VisitorReverseAffineSubstitution.Visitable b)
    (hsame : SameConjunctions (decoded d cs) cs) : RoundTrips d cs := by
  have hdec := decoded_of_sameConjunctions hc hv hv' hsame
  have hn : ∀ t ∈ (copied cs).flatMap Conjunction.terms, Named d t := by
    intro t ht
    obtain ⟨c, hm, ht⟩ := List.mem_flatMap.1 ht
    exact (hv c hm).2 t ht
  obtain ⟨-, hdecl⟩ := wf_affineMap hc hn
  have hnamed : ∀ t ∈ cs.flatMap Conjunction.terms, Named d t := by
    intro t ht hcall
    exact hdecl ▸ ((hdec t ht).call hcall).1 hcall
  have hdistinct : ∀ t ∈ cs.flatMap Conjunction.terms, ∀ u ∈ cs.flatMap Conjunction.terms, t.isUFCall = true →
      u.isUFCall = true → symbolOf d t = symbolOf d u → Tied Term.lt (t.setCoefficient 1) (u.setCoefficient 1) := by
    intro t ht u hu hcall hcall' hsym
    have h₁ := ((hdec t ht).call hcall).2
    have h₂ := ((hdec u hu).call hcall').2
    rw [hdecl] at h₁ h₂
    rw [hsym, h₂, Option.some.injEq] at h₁
    rw [h₁]
    exact Term.strictWeak_lt.tied_refl _
  have hfresh : ∀ k s, .symConst k s ∈ cs.flatMap Conjunction.terms → ∀ t ∈ cs.flatMap Conjunction.terms,
      t.isUFCall = true → symbolOf d t ≠ s := by
    rintro k s hks t ht hcall rfl
    have h₁ := (hdec _ hks).symbol k _ rfl
    have h₂ := ((hdec t ht).call hcall).2
    rw [hdecl, h₁] at h₂
    cases h₂
  have hnames : OwnNames d cs := ⟨hnamed, hdistinct, hfresh⟩
  refine ⟨fun c hm => ?_, fun c hm => (hv c hm).1, hnames⟩
  -- with the names alone the copy comes back, so that its conjunctions are those of the union
  have hcs : c ∈ cs := by
    rw [← replaced_append_kept Conjunction.hasConstraints cs]
    exact List.mem_append_left _ hm
  obtain ⟨b, hb, htied⟩ := hsame.2 c hcs
  rw [decoded, (decoded_eq_copied hc hs (codes_of_names hc hnames)).1] at hb
  exact ⟨b, SortedList.mem_of_mem_build hb, htied⟩

theorem sameConjunctions_copied (h : ∀ c ∈ replaced Conjunction.hasConstraints cs,
    ∃ c' ∈ kept Conjunction.hasConstraints cs, Tied Conjunction.lt c c') : SameConjunctions (copied cs) cs := by
  have hkept : ∀ c ∈ kept Conjunction.hasConstraints cs, ∃ b ∈ copied cs, Tied Conjunction.lt c b := by
    intro c hm
    rcases SortedList.build_covers Conjunction.lt hm with hb | hb
    · exact ⟨c, hb, strictWeak_conjunctionLt.tied_refl c⟩
    · exact hb
  refine ⟨fun c hm => ⟨c, mem_of_mem_copied hm, strictWeak_conjunctionLt.tied_refl c⟩, fun c hm => ?_⟩
  rw [← replaced_append_kept Conjunction.hasConstraints cs] at hm
  rcases List.mem_append.1 hm with hm | hm
  · obtain ⟨c', hm', ht⟩ := h c hm
    obtain ⟨b, hb, ht'⟩ := hkept c' hm'
    exact ⟨b, hb, strictWeak_conjunctionLt.tied_trans ht ht'⟩
  · exact hkept c hm

/-- What comes back is the union iff the conditions hold. -/
theorem decoded_iff (hc : ∀ c ∈ cs, c.Clean env) (hs : cs.Pairwise (fun a b => b.lt a = false)) :
    ((∀ c ∈ copied cs, VisitorSuperAffineSet.Visitable d c) ∧
      (∀ b ∈ encoded d cs, VisitorReverseAffineSubstitution.Visitable b) ∧ SameConjunctions (decoded d cs) cs) ↔
      RoundTrips d cs := by
  constructor
  · rintro ⟨hv, hv', hsame⟩
    exact roundTrips_of_restored hc hs hv hv' hsame
  · intro h
    have hcodes := codes_of_names hc h.names
    obtain ⟨hdec, henc⟩ := decoded_eq_copied hc hs hcodes
    refine ⟨fun c hm => ⟨h.arity c hm, fun t ht => ?_⟩, fun b hb => ?_, ?_⟩
    · exact h.names.named t (List.mem_flatMap.2 ⟨c, mem_of_mem_copied hm, ht⟩)
    · rw [henc] at hb
      obtain ⟨c, hm, rfl⟩ := List.mem_map.1 (SortedList.mem_of_mem_build hb)
      have hcode := hcodes.mono fun t ht => List.mem_flatMap.2 ⟨c, hm, ht⟩
      refine ⟨by rw [inArity_mapTerms, arity_mapTerms]; exact h.arity c hm, fun t ht => ?_⟩
      exact (isLeaf_terms_mapTerms (hc c (mem_of_mem_copied hm)) hcode t ht).2
    · rw [decoded, hdec]
      exact sameConjunctions_copied h.restored

/-! ## Sets and relations -/

theorem build_kept_ne_nil {bs : List Conjunction} (hne : bs ≠ []) :
    build Conjunction.lt (kept Conjunction.hasConstraints bs) ≠ [] := by
  obtain ⟨c, hc⟩ := List.exists_mem_of_ne_nil _ (kept_ne_nil Conjunction.hasConstraints hne)
  rcases SortedList.build_covers Conjunction.lt hc with h | ⟨b, h, -⟩
  · exact List.ne_nil_of_mem h
  · exact List.ne_nil_of_mem h

theorem copied_ne_nil (hne : cs ≠ []) : copied cs ≠ [] := build_kept_ne_nil hne

theorem encoded_ne_nil (hne : cs ≠ []) : encoded d cs ≠ [] := build_kept_ne_nil (by simpa using copied_ne_nil hne)

theorem foldl_addConjunction_ofArity (n : Nat) (hne : cs ≠ []) : cs.foldl addConjunction (Set.ofArity n).conjunctions =
    build Conjunction.lt (kept Conjunction.hasConstraints cs) := by
  obtain ⟨c, cs, rfl⟩ := List.exists_cons_of_ne_nil hne
  rw [← foldl_addConjunction_eq_build]
  rfl

theorem accept_copied_iff (hc : ∀ c ∈ cs, c.Clean env) {v : VisitorSuperAffineSet} :
    acceptVisitor VisitorSuperAffineSet.visitor (copied cs) ⟨.empty d, .empty, 0⟩ = .ok v ↔
      (∀ c ∈ copied cs, VisitorSuperAffineSet.Visitable d c) ∧
        v = (copied cs).foldl (VisitorSuperAffineSet.visitConjunction d) ⟨.empty d, .empty, 0⟩ := by
  refine VisitorSuperAffineSet.acceptVisitor_iff (fun c hm => ?_) (UFCallMap.wf_empty d)
  have hclean := hc c (mem_of_mem_copied hm)
  refine ⟨hclean.typed, fun e he => ⟨?_, fun t ht => hclean.term (List.mem_flatMap.2 ⟨e, he, ht⟩)⟩⟩
  rcases List.mem_append.1 he with he | he
  · rw [hclean.typed.1 e he]; nofun
  · rw [hclean.typed.2 e he]; nofun

/-- The conjunctions and the map after a run over a copy. -/
theorem foldl_visit_copied (hc : ∀ c ∈ cs, c.Clean env) :
    ((copied cs).foldl (VisitorSuperAffineSet.visitConjunction d) ⟨.empty d, .empty, 0⟩).affine.conjs =
        (copied cs).map (Conjunction.mapTerms (affineTerm d)) ∧
      ((copied cs).foldl (VisitorSuperAffineSet.visitConjunction d) ⟨.empty d, .empty, 0⟩).ufcmap = affineMap d cs :=
  VisitorSuperAffineSet.foldl_visitConjunction (fun c hm => (hc c (mem_of_mem_copied hm)).typed) _

theorem Set.copy_of_clean {s : Set} (hc : ∀ c ∈ s.conjunctions, c.Clean env ∧ c.satisfiable = true) :
    s.copy env = .ok ⟨s.arity, copied s.conjunctions⟩ := by
  unfold Set.copy
  rw [copyConjunctions_of_clean hc]
  rfl

theorem Set.superAffineSet_iff {s : Set} (hc : ∀ c ∈ s.conjunctions, c.Clean env ∧ c.satisfiable = true)
    (hne : s.conjunctions ≠ []) {a : Set} {m : UFCallMap} : s.superAffineSet env (.empty d) false = .ok (a, m) ↔
      (∀ c ∈ copied s.conjunctions, VisitorSuperAffineSet.Visitable d c) ∧
        a = ⟨s.arity, encoded d s.conjunctions⟩ ∧ m = affineMap d s.conjunctions := by
  obtain ⟨hconjs, hmap⟩ := foldl_visit_copied (d := d) fun c h => (hc c h).1
  have hlen : ¬ (copied s.conjunctions).length = 0 := fun h => copied_ne_nil hne (List.length_eq_zero_iff.1 h)
  have hend : ((copied s.conjunctions).foldl (VisitorSuperAffineSet.visitConjunction d)
      ⟨.empty d, .empty, 0⟩).affine.endSet ⟨s.arity, copied s.conjunctions⟩ = ⟨s.arity, encoded d s.conjunctions⟩ := by
    rw [Builder.endSet, hconjs, foldl_addConjunction_ofArity s.arity (by simpa using copied_ne_nil hne)]
    rfl
  unfold superAffineSet
  simp only [Set.copy_of_clean hc, Outcome.bind_eq_ok, Except.ok.injEq, exists_eq_left', hlen, if_false, Bool.false_eq_true,
    accept_copied_iff fun c h => (hc c h).1, Prod.mk.injEq]
  constructor
  · rintro ⟨v, ⟨hv, rfl⟩, rfl, rfl⟩
    exact ⟨hv, hend, hmap⟩
  · rintro ⟨hv, rfl, rfl⟩
    exact ⟨_, ⟨hv, rfl⟩, hend, hmap⟩

theorem typed_encoded : ∀ b ∈ encoded d cs, b.Typed := by
  intro b hb
  obtain ⟨c, -, rfl⟩ := List.mem_map.1 (mem_of_mem_kept (SortedList.mem_of_mem_build hb))
  exact typed_mapTerms _ c

theorem conjs_foldl_visitReverse {bs : List Conjunction} (hb : ∀ b ∈ bs, b.Typed) (m : UFCallMap) :
    (bs.foldl VisitorReverseAffineSubstitution.visitConjunction ⟨m, .empty, false⟩).nonAffine.conjs =
      bs.map (Conjunction.mapTerms (reverseTerm m)) := by
  rw [(VisitorReverseAffineSubstitution.ufcmap_foldl_visitConjunction bs _).2, Builder.conjs_foldl_visitConjunction _ hb]
  rfl

theorem Set.reverseAffineSubstitution_iff {a s' : Set} (hb : ∀ b ∈ a.conjunctions, b.Typed) (hne : a.conjunctions ≠ [])
    {m : UFCallMap} : a.reverseAffineSubstitution m = .ok s' ↔
      (∀ b ∈ a.conjunctions, VisitorReverseAffineSubstitution.Visitable b) ∧ s' = ⟨a.arity, build Conjunction.lt
        (kept Conjunction.hasConstraints (a.conjunctions.map (Conjunction.mapTerms (reverseTerm m))))⟩ := by
  have hend : (a.conjunctions.foldl VisitorReverseAffineSubstitution.visitConjunction ⟨m, .empty, false⟩).nonAffine.endSet a =
      ⟨a.arity, build Conjunction.lt
        (kept Conjunction.hasConstraints (a.conjunctions.map (Conjunction.mapTerms (reverseTerm m))))⟩ := by
    rw [Builder.endSet, conjs_foldl_visitReverse hb, foldl_addConjunction_ofArity a.arity (by simpa using hne)]
    rfl
  unfold reverseAffineSubstitution
  simp only [Outcome.bind_eq_ok, Except.ok.injEq, VisitorReverseAffineSubstitution.acceptVisitor_iff hb]
  constructor
  · rintro ⟨v, ⟨hv, rfl⟩, rfl⟩
    exact ⟨hv, hend⟩
  · rintro ⟨hv, rfl⟩
    exact ⟨_, ⟨hv, rfl⟩, hend⟩

theorem wellFormed_mapTerms {bs : List Conjunction} {n : Nat} (h : ∀ b ∈ bs, b.inArity = n) (φ : Term → Term) :
    ∀ b ∈ bs.map (Conjunction.mapTerms φ), b.inArity = n := by
  intro b hb
  obtain ⟨c, hc, rfl⟩ := List.mem_map.1 hb
  rw [inArity_mapTerms]
  exact h c hc

theorem Relation.copy_of_clean {r : Relation} (hc : ∀ c ∈ r.conjunctions, c.Clean env ∧ c.satisfiable = true)
    (hw : r.wellFormed = true) : r.copy env = .ok ⟨r.inArity, r.outArity, copied r.conjunctions⟩ := by
  unfold Relation.copy
  rw [foldlM_addConjunction (wellFormed_iff.1 hw)]
  simp only [Outcome.bind_eq_ok, Except.ok.injEq, exists_eq_left']
  exact ⟨_, copyConjunctions_of_clean hc, rfl⟩

theorem Builder.endRelation_iff {b : Builder} {r s : Relation} (h : ∀ c ∈ b.conjs, c.inArity = r.inArity) :
    b.endRelation r = .ok s ↔
      s = ⟨r.inArity, r.outArity, build Conjunction.lt (kept Conjunction.hasConstraints b.conjs)⟩ := by
  have hrun := Relation.foldlM_addConjunction h []
  rw [foldl_addConjunction_eq_build] at hrun
  unfold endRelation
  simp only [Relation.ofArity, hrun, Outcome.bind_eq_ok, Except.ok.injEq, exists_eq_left']
  exact eq_comm

theorem Relation.superAffineRelation_iff {r : Relation} (hc : ∀ c ∈ r.conjunctions, c.Clean env ∧ c.satisfiable = true)
    (hw : r.wellFormed = true) (hne : r.conjunctions ≠ []) {a : Relation} {m : UFCallMap} :
    r.superAffineRelation env (.empty d) false = .ok (a, m) ↔
      (∀ c ∈ copied r.conjunctions, VisitorSuperAffineSet.Visitable d c) ∧
        a = ⟨r.inArity, r.outArity, encoded d r.conjunctions⟩ ∧ m = affineMap d r.conjunctions := by
  obtain ⟨hconjs, hmap⟩ := foldl_visit_copied (d := d) fun c h => (hc c h).1
  have hlen : ¬ r.conjunctions.length = 0 := fun h => hne (List.length_eq_zero_iff.1 h)
  have hin := wellFormed_mapTerms (fun c h => wellFormed_iff.1 hw c (mem_of_mem_copied h)) (affineTerm d)
  rw [← hconjs] at hin
  unfold superAffineRelation
  simp only [Relation.copy_of_clean hc hw, Outcome.bind_eq_ok, Except.ok.injEq, exists_eq_left', hlen, if_false,
    Bool.false_eq_true, accept_copied_iff fun c h => (hc c h).1, Prod.mk.injEq]
  constructor
  · rintro ⟨v, ⟨hv, rfl⟩, a', ha, rfl, rfl⟩
    rw [(Builder.endRelation_iff hin).1 ha, hconjs]
    exact ⟨hv, rfl, hmap⟩
  · rintro ⟨hv, rfl, rfl⟩
    refine ⟨_, ⟨hv, rfl⟩, _, (Builder.endRelation_iff hin).2 rfl, ?_, hmap⟩
    rw [hconjs]
    rfl

theorem Relation.reverseAffineSubstitution_iff {a s' : Relation} (hb : ∀ b ∈ a.conjunctions, b.Typed)
    (hw : a.wellFormed = true) {m : UFCallMap} : a.reverseAffineSubstitution m = .ok s' ↔
      (∀ b ∈ a.conjunctions, VisitorReverseAffineSubstitution.Visitable b) ∧ s' = ⟨a.inArity, a.outArity,
        build Conjunction.lt (kept Conjunction.hasConstraints
          (a.conjunctions.map (Conjunction.mapTerms (reverseTerm m))))⟩ := by
  have hconjs := conjs_foldl_visitReverse hb m
  have hin := wellFormed_mapTerms (wellFormed_iff.1 hw) (reverseTerm m)
  rw [← hconjs] at hin
  unfold reverseAffineSubstitution
  simp only [Outcome.bind_eq_ok, VisitorReverseAffineSubstitution.acceptVisitor_iff hb]
  constructor
  · rintro ⟨v, ⟨hv, rfl⟩, hs⟩
    rw [(Builder.endRelation_iff hin).1 hs, hconjs]
    exact ⟨hv, rfl⟩
  · rintro ⟨hv, rfl⟩
    refine ⟨_, ⟨hv, rfl⟩, ?_⟩
    rw [Builder.endRelation_iff hin, hconjs]

/-! ## The round trip -/

/-- Replacing the calls with an empty map and putting them back gives an equal set with the same conjunctions. -/
def Set.Restored (env : Environment) (d : Option TupleDecl) (s : Set) : Prop :=
  ∃ a m s', s.superAffineSet env (.empty d) false = .ok (a, m) ∧ a.reverseAffineSubstitution m = .ok s' ∧
    s'.eq env s = .ok true ∧ SameConjunctions s'.conjunctions s.conjunctions

/-- The same for relations. -/
def Relation.Restored (env : Environment) (d : Option TupleDecl) (r : Relation) : Prop :=
  ∃ a m r', r.superAffineRelation env (.empty d) false = .ok (a, m) ∧ a.reverseAffineSubstitution m = .ok r' ∧
    r'.eq env r = .ok true ∧ SameConjunctions r'.conjunctions r.conjunctions

/-- A copy of the copy is the copy. -/
theorem copied_copied (hs : cs.Pairwise (fun a b => b.lt a = false)) : copied (copied cs) = copied cs := by
  rw [copied, kept_copied hs]
  exact SortedList.build_eq_self strictWeak_conjunctionLt (sorted_copied cs)

theorem conjunctionsLt_irrefl (cs : List Conjunction) : conjunctionsLt cs cs = false :=
  strictWeak_conjunctionLt.sizeLexLt.irrefl cs

theorem copyConjunctions_copied (hc : ∀ c ∈ cs, c.Clean env ∧ c.satisfiable = true)
    (hs : cs.Pairwise (fun a b => b.lt a = false)) : copyConjunctions env (copied cs) = .ok (copied cs) := by
  rw [copyConjunctions_of_clean fun c h => hc c (mem_of_mem_copied h), copied_copied hs]

theorem Set.eq_copied {s : Set} (hc : ∀ c ∈ s.conjunctions, c.Clean env ∧ c.satisfiable = true)
    (hs : s.conjunctions.Pairwise (fun a b => b.lt a = false)) :
    (Set.mk s.arity (copied s.conjunctions)).eq env s = .ok true := by
  simp only [Set.eq, Set.lt, lt_irrefl, if_false, copyConjunctions_copied hc hs, copyConjunctions_of_clean hc,
    Outcome.bind_eq_ok, Except.ok.injEq, exists_eq_left', conjunctionsLt_irrefl, Bool.false_eq_true]

theorem Relation.eq_copied {r : Relation} (hc : ∀ c ∈ r.conjunctions, c.Clean env ∧ c.satisfiable = true)
    (hs : r.conjunctions.Pairwise (fun a b => b.lt a = false)) :
    (Relation.mk r.inArity r.outArity (copied r.conjunctions)).eq env r = .ok true := by
  simp only [Relation.eq, Relation.lt, lt_irrefl, if_false, copyConjunctions_copied hc hs,
    copyConjunctions_of_clean hc, Outcome.bind_eq_ok, Except.ok.injEq, exists_eq_left', conjunctionsLt_irrefl,
    Bool.false_eq_true]

/-- The set without conjunctions comes back as the set of all tuples. -/
theorem not_restored_empty {s : Set} (he : s.conjunctions = []) : ¬ s.Restored env d := by
  rintro ⟨a, m, s', ha, hs', -, hsame⟩
  have hcopy : s.copy env = .ok ⟨s.arity, []⟩ := by
    rw [Set.copy_of_clean (by simp [he]), he]
    rfl
  have hconjs : a.conjunctions = [] := by
    unfold Set.superAffineSet at ha
    simp only [hcopy, Outcome.bind_eq_ok, Except.ok.injEq, exists_eq_left', List.length_nil, if_true, Prod.mk.injEq] at ha
    rw [← ha.1]
  unfold Set.reverseAffineSubstitution at hs'
  rw [hconjs] at hs'
  cases hs'
  obtain ⟨c, hc, -⟩ := hsame.1 (.ofTupleDecl (.sDefaultTupleDecl a.arity)) List.mem_cons_self
  rw [he] at hc
  cases hc

theorem Set.roundTrip_iff {s : Set} (hc : ∀ c ∈ s.conjunctions, c.Clean env ∧ c.satisfiable = true)
    (hs : s.conjunctions.Pairwise (fun a b => b.lt a = false)) :
    s.Restored env d ↔ s.conjunctions ≠ [] ∧ RoundTrips d s.conjunctions := by
  by_cases hne : s.conjunctions = []
  · exact ⟨fun h => absurd h (not_restored_empty hne), fun h => absurd hne h.1⟩
  · have hclean := fun c h => (hc c h).1
    rw [and_iff_right hne, ← decoded_iff hclean hs]
    unfold Restored
    simp only [Set.superAffineSet_iff hc hne]
    constructor
    · rintro ⟨a, m, s', ⟨hv, rfl, rfl⟩, hs', -, hsame⟩
      obtain ⟨hv', rfl⟩ := (Set.reverseAffineSubstitution_iff typed_encoded (encoded_ne_nil hne)).1 hs'
      exact ⟨hv, hv', hsame⟩
    · rintro h
      obtain ⟨hv, hv', hsame⟩ := h
      have htrip := roundTrips_of_restored hclean hs hv hv' hsame
      have hdec := (decoded_eq_copied hclean hs (codes_of_names hclean htrip.names)).1
      have heq : (Set.mk s.arity (decoded d s.conjunctions)).eq env s = .ok true := by
        rw [decoded, hdec]
        exact Set.eq_copied hc hs
      exact ⟨_, _, ⟨s.arity, decoded d s.conjunctions⟩, ⟨hv, rfl, rfl⟩,
        (Set.reverseAffineSubstitution_iff typed_encoded (encoded_ne_nil hne)).2 ⟨hv', rfl⟩, heq, hsame⟩

theorem Relation.roundTrip_iff {r : Relation} (hc : ∀ c ∈ r.conjunctions, c.Clean env ∧ c.satisfiable = true)
    (hs : r.conjunctions.Pairwise (fun a b => b.lt a = false)) (hw : r.wellFormed = true) :
    r.Restored env d ↔ RoundTrips d r.conjunctions := by
  have hclean := fun c h => (hc c h).1
  by_cases hne : r.conjunctions = []
  · refine ⟨fun _ => ?_, fun _ => ?_⟩
    · rw [hne]
      exact ⟨by simp [replaced], by simp [copied, kept, build], by simp, by simp, by simp⟩
    · have hcopy : r.copy env = .ok ⟨r.inArity, r.outArity, []⟩ := by
        rw [Relation.copy_of_clean hc hw, hne]
        rfl
      refine ⟨⟨r.inArity, r.outArity, []⟩, .empty d, ⟨r.inArity, r.outArity, []⟩, ?_, rfl, ?_, ?_⟩
      · unfold superAffineRelation
        rw [hne, hcopy]
        rfl
      · have := Relation.eq_copied hc hs
        rwa [hne] at this
      · rw [hne]
        constructor <;> simp
  · have henc : (Relation.mk r.inArity r.outArity (encoded d r.conjunctions)).wellFormed = true := by
      refine wellFormed_iff.2 fun b hb => ?_
      exact wellFormed_mapTerms (fun c h => wellFormed_iff.1 hw c (mem_of_mem_copied h)) (affineTerm d) b
        (mem_of_mem_kept (SortedList.mem_of_mem_build hb))
    rw [← decoded_iff hclean hs]
    unfold Restored
    simp only [Relation.superAffineRelation_iff hc hw hne]
    constructor
    · rintro ⟨a, m, r', ⟨hv, rfl, rfl⟩, hr', -, hsame⟩
      obtain ⟨hv', rfl⟩ := (Relation.reverseAffineSubstitution_iff typed_encoded henc).1 hr'
      exact ⟨hv, hv', hsame⟩
    · rintro ⟨hv, hv', hsame⟩
      have htrip := roundTrips_of_restored hclean hs hv hv' hsame
      have hdec := (decoded_eq_copied hclean hs (codes_of_names hclean htrip.names)).1
      have heq : (Relation.mk r.inArity r.outArity (decoded d r.conjunctions)).eq env r = .ok true := by
        rw [decoded, hdec]
        exact Relation.eq_copied hc hs
      exact ⟨_, _, ⟨r.inArity, r.outArity, decoded d r.conjunctions⟩, ⟨hv, rfl, rfl⟩,
        (Relation.reverseAffineSubstitution_iff typed_encoded henc).2 ⟨hv', rfl⟩, heq, hsame⟩

end Clean

/-- A cleaned-up set, or relation, comes back as it was iff the conditions hold, and for sets there is a
conjunction. -/
theorem restored_iff (env : Environment) (d : Option TupleDecl) (s : Set) (r : Relation) (hs : s.readable = true)
    (hsc : s.cleanUp env = .ok s) (hr : r.readable = true) (hrc : r.cleanUp env = .ok r) (hw : r.wellFormed = true) :
    (s.Restored env d ↔ s.conjunctions ≠ [] ∧ RoundTrips d s.conjunctions) ∧
      (r.Restored env d ↔ RoundTrips d r.conjunctions) := by
  have hscs : IEGen.cleanUp env s.conjunctions = .ok s.conjunctions := by
    obtain ⟨cs, hcs, h⟩ := Outcome.bind_eq_ok.1 hsc
    rwa [show cs = s.conjunctions from congrArg Set.conjunctions (Except.ok.inj h)] at hcs
  have hrcs : IEGen.cleanUp env r.conjunctions = .ok r.conjunctions := by
    obtain ⟨cs, hcs, h⟩ := Outcome.bind_eq_ok.1 hrc
    rwa [show cs = r.conjunctions from congrArg Relation.conjunctions (Except.ok.inj h)] at hcs
  simp only [Set.readable, Relation.readable, List.all_eq_true] at hs hr
  obtain ⟨hsc, hss⟩ := clean_of_cleanUp hs hscs
  obtain ⟨hrc, hrs⟩ := clean_of_cleanUp hr hrcs
  exact ⟨Set.roundTrip_iff hsc hss, Relation.roundTrip_iff hrc hrs hw⟩

/-- No function is declared, and none has an inverse. -/
def noFunctions : Environment := ⟨[], [], []⟩

/-- `{ [i] : f(-n) - f(Mn) - 1 >= 0 }`, whose calls are both named `f_Mn_`. -/
def collidingSet : Set := ⟨1, [⟨[], [.mk .inequality [.ufCall 1 "f" [.ofTerm (.symConst (-1) "n")] none,
  .ufCall (-1) "f" [.ofTerm (.symConst 1 "Mn")] none, .constVal (-1)]], ⟨[⟨false, 0, "i"⟩]⟩, 0⟩]⟩

/-- Neither the set without tuples comes back nor a set with two calls of one name. -/
theorem not_restored : (Set.mk 1 []).cleanUp noFunctions = .ok (Set.mk 1 []) ∧
    ¬ (Set.mk 1 []).Restored noFunctions none ∧
    collidingSet.cleanUp noFunctions = .ok collidingSet ∧ ¬ collidingSet.Restored noFunctions none := by
  have hclean : collidingSet.cleanUp noFunctions = .ok collidingSet := rfl
  have hcleans : IEGen.cleanUp noFunctions collidingSet.conjunctions = .ok collidingSet.conjunctions := by rfl
  refine ⟨rfl, not_restored_empty rfl, hclean, fun h => ?_⟩
  obtain ⟨hc, hs⟩ := clean_of_cleanUp (by decide) hcleans
  have hnames := ((Set.roundTrip_iff hc hs).1 h).2.names
  have hsym : symbolOf none (.ufCall 1 "f" [.ofTerm (.symConst (-1) "n")] none) =
    symbolOf none (.ufCall (-1) "f" [.ofTerm (.symConst 1 "Mn")] none) := by decide +kernel
  have htied := hnames.distinct _ (by simp [collidingSet, Conjunction.terms]) _
    (by simp [collidingSet, Conjunction.terms]) rfl rfl hsym
  have hnot : ¬ Tied Term.lt (.ufCall 1 "f" [.ofTerm (.symConst (-1) "n")] none)
    (.ufCall 1 "f" [.ofTerm (.symConst 1 "Mn")] none) := by decide +kernel
  exact hnot htied

/-- `{ [i] : n - 2 * f(g(i))[1] = 0 }` -/
def nestedSet : Set := ⟨1, [⟨[.mk .equality [.symConst 1 "n",
  .ufCall (-2) "f" [.ofTerm (.ufCall 1 "g" [.ofTerm (.tupleVar 1 0)] none)] (some 1)]], [], ⟨[⟨false, 0, "i"⟩]⟩, 0⟩]⟩

/-- `{ [i] -> [o] : f(i) >= 0 && f(o) - f(i) = 0 }` -/
def callRelation : Relation := ⟨1, 1, [⟨[.mk .equality [.ufCall 1 "f" [.ofTerm (.tupleVar 1 0)] none,
  .ufCall (-1) "f" [.ofTerm (.tupleVar 1 1)] none]], [.mk .inequality [.ufCall 1 "f" [.ofTerm (.tupleVar 1 0)] none]],
  ⟨[⟨false, 0, "i"⟩, ⟨false, 0, "o"⟩]⟩, 1⟩]⟩

theorem restored_nested : nestedSet.Restored noFunctions none ∧ callRelation.Restored noFunctions none := by
  have hnested : ∀ t ∈ nestedSet.conjunctions.flatMap Conjunction.terms, t = .symConst 1 "n" ∨
      t = .ufCall (-2) "f" [.ofTerm (.ufCall 1 "g" [.ofTerm (.tupleVar 1 0)] none)] (some 1) := by
    simp [nestedSet, Conjunction.terms]
  have hcalls : ∀ t ∈ callRelation.conjunctions.flatMap Conjunction.terms,
      (t = .ufCall 1 "f" [.ofTerm (.tupleVar 1 0)] none) ∨ t = .ufCall (-1) "f" [.ofTerm (.tupleVar 1 1)] none := by
    simp [callRelation, Conjunction.terms]
  have hsym : symbolOf none (.ufCall 1 "f" [.ofTerm (.tupleVar 1 0)] none) ≠
      symbolOf none (.ufCall (-1) "f" [.ofTerm (.tupleVar 1 1)] none) := by decide +kernel
  obtain ⟨hs, hr⟩ := restored_iff noFunctions none nestedSet callRelation (by decide) rfl (by decide) rfl (by decide)
  refine ⟨hs.2 ⟨by decide, by simp [nestedSet, replaced], fun c hc => ?_, fun t ht hcall => ?_,
    fun t ht u hu hcall hcall' _ => ?_, fun k s hk t ht hcall => ?_⟩,
    hr.2 ⟨by simp [callRelation, replaced], fun c hc => ?_, fun t ht hcall => ?_,
    fun t ht u hu hcall hcall' h => ?_, fun k s hk t ht hcall => ?_⟩⟩
  · rw [List.mem_singleton.1 (mem_of_mem_copied hc)]
    decide
  · rcases hnested t ht with rfl | rfl
    · cases hcall
    · exact ⟨_, rfl⟩
  · rcases hnested t ht with rfl | rfl
    · cases hcall
    · rcases hnested u hu with rfl | rfl
      · cases hcall'
      · exact Term.strictWeak_lt.tied_refl _
  · rcases hnested _ hk with h | h <;> cases h
    rcases hnested t ht with rfl | rfl
    · cases hcall
    · decide +kernel
  · rw [List.mem_singleton.1 (mem_of_mem_copied hc)]
    decide
  · rcases hcalls t ht with rfl | rfl <;> exact ⟨_, rfl⟩
  · rcases hcalls t ht with rfl | rfl
    · rcases hcalls u hu with rfl | rfl
      · exact Term.strictWeak_lt.tied_refl _
      · exact absurd h hsym
    · rcases hcalls u hu with rfl | rfl
      · exact absurd h.symm hsym
      · exact Term.strictWeak_lt.tied_refl _
  · rcases hcalls _ hk with h | h <;> cases h

end IEGen
