import IEGen.Collapse

/-!
# The map between calls and symbols

A `UFCallMap` gives each call, its coefficient left out, a symbolic constant whose name is the printed call with its
brackets, signs and blanks flattened (`symUFC`). A call whose name is in the map already gets that name and is not
recorded, so that of two calls with one name only the first is found again.
-/

namespace IEGen

open SortedList (Tied)

/-- `UFCallMap`: the declaration to print with, if any, and the two maps. The symbols are the names of variable terms
with coefficient one. -/
structure UFCallMap where
  tupleDecl : Option TupleDecl
  mUFC2VarParam : List (Term × String)
  mVarParam2UFC : List (String × Term)
  deriving DecidableEq

namespace UFCallMap

/-- The maps that the two constructors start with. -/
def empty (tupleDecl : Option TupleDecl) : UFCallMap := ⟨tupleDecl, [], []⟩

/-- What `symUFC` writes for a character. -/
def symChar (c : Char) : List Char :=
  if c = ' ' ∨ c = ',' then []
  else if c = '(' ∨ c = ')' then ['_']
  else if c = '[' ∨ c = ']' then ['B']
  else if c = '+' then ['P']
  else if c = '-' then ['M']
  else [c]

/-- `UFCallMap::symUFC` -/
def symUFC (ufcName : String) : String := String.ofList (ufcName.toList.flatMap symChar)

/-- The printed call, flattened: what `insert` names a call by. -/
def symbol (tupleDecl : Option TupleDecl) (ufc : Term) : Except Failure String := do
  let symCons ← match tupleDecl with
    | some d => (ufc.setCoefficient 1).prettyPrintString d false
    | none => .ok ((ufc.setCoefficient 1).toString false false)
  .ok (symUFC symCons)

/-- `find(VarTerm*)`: the call recorded for a symbol. -/
def findVar (m : UFCallMap) (symbol : String) : Option Term := m.mVarParam2UFC.lookup symbol

/-- `insert`, with the map after it. -/
def insert (m : UFCallMap) (ufc : Term) : Except Failure (String × UFCallMap) := do
  let vt ← symbol m.tupleDecl ufc
  match m.findVar vt with
  | some _ => .ok (vt, m)
  | none =>
    let ufcterm := ufc.setCoefficient 1
    -- `std::map::insert` keeps an entry that is there
    let ufcs := if m.mUFC2VarParam.any (fun p => Tied Term.lt p.1 ufcterm) then m.mUFC2VarParam
      else m.mUFC2VarParam ++ [(ufcterm, vt)]
    .ok (vt, { m with mUFC2VarParam := ufcs, mVarParam2UFC := m.mVarParam2UFC ++ [(vt, ufcterm)] })

/-- `find(UFCallTerm*)`: the symbol of a call, which is put into the map if it is not there. -/
def findCall (m : UFCallMap) (ufc : Term) : Except Failure (String × UFCallMap) :=
  match m.mUFC2VarParam.find? (fun p => Tied Term.lt p.1 (ufc.setCoefficient 1)) with
  | some p => .ok (p.2, m)
  | none => m.insert ufc

/-! ## What a map records -/

/-- The map with a call under its symbol, unless the symbol is taken. -/
def add (m : UFCallMap) (symbol : String) (ufc : Term) : UFCallMap :=
  if (m.findVar symbol).isSome then m
  else { m with mUFC2VarParam := m.mUFC2VarParam ++ [(ufc.setCoefficient 1, symbol)]
                mVarParam2UFC := m.mVarParam2UFC ++ [(symbol, ufc.setCoefficient 1)] }

/-- The maps that `insert` and `find` build: the two maps are each other's inverses, and each call stands under its own
symbol. -/
structure Wf (m : UFCallMap) : Prop where
  swap : m.mVarParam2UFC = m.mUFC2VarParam.map Prod.swap
  call : ∀ p ∈ m.mUFC2VarParam, p.1.isUFCall = true ∧ p.1.coefficient = 1 ∧ p.1.readable = true ∧ p.1.Canonical
  symbol : ∀ p ∈ m.mUFC2VarParam, symbol m.tupleDecl p.1 = .ok p.2

theorem wf_empty (d : Option TupleDecl) : (empty d).Wf := ⟨rfl, by simp [empty], by simp [empty]⟩

variable {m : UFCallMap}

theorem symbol_setCoefficient (d : Option TupleDecl) (c : Int) (t : Term) :
    UFCallMap.symbol d (t.setCoefficient c) = UFCallMap.symbol d t := by
  simp only [UFCallMap.symbol, Term.setCoefficient_setCoefficient]

theorem mem_of_findVar {s : String} {k : Term} (h : m.findVar s = some k) : (s, k) ∈ m.mVarParam2UFC := by
  obtain ⟨l, r, hl, -⟩ := List.lookup_eq_some_iff.1 h
  rw [hl]
  exact List.mem_append_right _ List.mem_cons_self

theorem Wf.of_findVar (hm : m.Wf) {s : String} {k : Term} (h : m.findVar s = some k) :
    k.isUFCall = true ∧ k.coefficient = 1 ∧ k.readable = true ∧ k.Canonical ∧ UFCallMap.symbol m.tupleDecl k = .ok s := by
  have hmem := mem_of_findVar h
  rw [hm.swap] at hmem
  obtain ⟨p, hp, hps⟩ := List.mem_map.1 hmem
  obtain ⟨rfl, rfl⟩ := Prod.mk.inj hps
  obtain ⟨h₁, h₂, h₃, h₄⟩ := hm.call p hp
  exact ⟨h₁, h₂, h₃, h₄, hm.symbol p hp⟩

/-- A symbol that a recorded call has is found. -/
theorem Wf.findVar_isSome (hm : m.Wf) {p : Term × String} (hp : p ∈ m.mUFC2VarParam) : (m.findVar p.2).isSome = true := by
  have hmem : (p.2, p.1) ∈ m.mVarParam2UFC := by
    rw [hm.swap]
    exact List.mem_map.2 ⟨p, hp, rfl⟩
  unfold findVar
  cases h : m.mVarParam2UFC.lookup p.2 with
  | some k => rfl
  | none =>
    have := List.lookup_eq_none_iff.1 h _ hmem
    simp at this

theorem wf_add (hm : m.Wf) {s : String} {t : Term} (hcall : t.isUFCall = true) (hr : t.readable = true)
    (hc : t.Canonical) (hs : UFCallMap.symbol m.tupleDecl t = .ok s) : (m.add s t).Wf := by
  unfold add
  split_ifs
  · exact hm
  · refine ⟨by simp [hm.swap], fun p hp => ?_, fun p hp => ?_⟩
    · rcases List.mem_append.1 hp with hp | hp
      · exact hm.call p hp
      · obtain rfl := List.mem_singleton.1 hp
        refine ⟨?_, Term.coefficient_setCoefficient 1 t, by rw [readable_setCoefficient]; exact hr,
          canonical_setCoefficient hc⟩
        cases t <;> first | rfl | cases hcall
    · rcases List.mem_append.1 hp with hp | hp
      · exact hm.symbol p hp
      · obtain rfl := List.mem_singleton.1 hp
        exact (symbol_setCoefficient _ 1 t).trans hs

/-- `insert` records a call under the symbol of its text if that is free, where no key is tied with the call. -/
theorem insert_eq_ok {t : Term} {s : String} {m' : UFCallMap}
    (h : ∀ p ∈ m.mUFC2VarParam, Tied Term.lt p.1 (t.setCoefficient 1) →
      UFCallMap.symbol m.tupleDecl t = .ok p.2 ∧ (m.findVar p.2).isSome = true) :
    m.insert t = .ok (s, m') ↔ UFCallMap.symbol m.tupleDecl t = .ok s ∧ m' = m.add s t := by
  unfold insert
  rw [Outcome.bind_eq_ok]
  have hinsert : ∀ v, UFCallMap.symbol m.tupleDecl t = .ok v → ((match m.findVar v with
      | some _ => .ok (v, m)
      | none => .ok (v, { m with
          mUFC2VarParam := if m.mUFC2VarParam.any (fun p => Tied Term.lt p.1 (t.setCoefficient 1)) then m.mUFC2VarParam
            else m.mUFC2VarParam ++ [(t.setCoefficient 1, v)]
          mVarParam2UFC := m.mVarParam2UFC ++ [(v, t.setCoefficient 1)] }) : Except Failure _)) = .ok (v, m.add v t) := by
    intro v hv
    unfold add
    cases hf : m.findVar v with
    | some k => simp
    | none =>
      -- a key tied with the call would stand under its symbol
      have hnot : m.mUFC2VarParam.any (fun p => Tied Term.lt p.1 (t.setCoefficient 1)) = false := by
        rw [List.any_eq_false]
        intro p hp ht
        obtain ⟨hsym, hfound⟩ := h p hp (by simpa using ht)
        rw [hv, Except.ok.injEq] at hsym
        rw [← hsym, hf] at hfound
        cases hfound
      simp [hnot]
  constructor
  · rintro ⟨v, hv, hrun⟩
    rw [hinsert v hv] at hrun
    cases hrun
    exact ⟨hv, rfl⟩
  · rintro ⟨hs, rfl⟩
    exact ⟨s, hs, hinsert s hs⟩

/-- So does `find`. -/
theorem findCall_eq_ok_of_keys {t : Term} {s : String} {m' : UFCallMap}
    (h : ∀ p ∈ m.mUFC2VarParam, Tied Term.lt p.1 (t.setCoefficient 1) →
      UFCallMap.symbol m.tupleDecl t = .ok p.2 ∧ (m.findVar p.2).isSome = true) :
    m.findCall t = .ok (s, m') ↔ UFCallMap.symbol m.tupleDecl t = .ok s ∧ m' = m.add s t := by
  unfold findCall
  split
  · next p hp =>
    obtain ⟨hsym, hfound⟩ := h p (List.mem_of_find?_eq_some hp) (by simpa using List.find?_some hp)
    have hadd : m.add p.2 t = m := by
      rw [add, if_pos hfound]
    rw [hsym]
    constructor
    · intro h
      cases h
      exact ⟨rfl, hadd.symm⟩
    · rintro ⟨h, rfl⟩
      cases h
      rw [hadd]
  · exact insert_eq_ok h

/-- `find` gives a call the symbol of its text, and records it under the symbol if that is free. -/
theorem findCall_eq_ok (hm : m.Wf) {t : Term} (hr : t.readable = true) (hc : t.Canonical) {s : String} {m' : UFCallMap} :
    m.findCall t = .ok (s, m') ↔ UFCallMap.symbol m.tupleDecl t = .ok s ∧ m' = m.add s t := by
  refine findCall_eq_ok_of_keys fun p hp ht => ⟨?_, hm.findVar_isSome hp⟩
  obtain ⟨-, -, hkr, hkc⟩ := hm.call p hp
  have hkey := Term.eq_of_tied hkr (by rw [readable_setCoefficient]; exact hr) hkc (canonical_setCoefficient hc) ht
  have hsym := hm.symbol p hp
  rwa [hkey, symbol_setCoefficient] at hsym

@[simp] theorem tupleDecl_add (s : String) (t : Term) : (m.add s t).tupleDecl = m.tupleDecl := by
  unfold add
  split_ifs <;> rfl

theorem findVar_add_of_some {s s' : String} {t k : Term} (h : m.findVar s = some k) : (m.add s' t).findVar s = some k := by
  unfold add
  split_ifs with h'
  · exact h
  · unfold findVar at h ⊢
    rw [List.lookup_append, h]
    rfl

/-- The symbol of a call that has been looked for is taken. -/
theorem findVar_add_self (m : UFCallMap) (s : String) (t : Term) : ((m.add s t).findVar s).isSome = true := by
  unfold add
  split_ifs with h
  · exact h
  · unfold findVar at h ⊢
    rw [List.lookup_append]
    simp only [Bool.not_eq_true, Option.isSome_eq_false_iff, Option.isNone_iff_eq_none] at h
    simp [h]

theorem findVar_add {s s' : String} {t k : Term} (h : (m.add s t).findVar s' = some k) :
    m.findVar s' = some k ∨ s' = s ∧ k = t.setCoefficient 1 := by
  unfold add at h
  split_ifs at h with h'
  · exact .inl h
  · unfold findVar at h ⊢
    rw [List.lookup_append] at h
    cases hl : m.mVarParam2UFC.lookup s' with
    | some k' =>
      rw [hl] at h
      exact .inl h
    | none =>
      rw [hl] at h
      by_cases hs : s' = s
      · subst hs
        simp at h
        exact .inr ⟨rfl, h.symm⟩
      · have : (s' == s) = false := by simpa using hs
        simp [List.lookup_cons, this] at h

end UFCallMap

end IEGen
