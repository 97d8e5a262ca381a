import IEGen.UFCallMap

/-!
# Runs of a map between calls and symbols

Starting from an empty `UFCallMap`, calls are inserted and looked for, and symbols are looked for. Whatever the order, the
two maps are each other's inverses and no symbol is given twice (`kept_run`). `symUFC` gives some calls one symbol
(`f(1, 2)` and `f(12)`): the second of them is handed the symbol of the first and is not recorded, so a run answers for
every call it was handed iff no two of them have one symbol (`answers_iff`).
-/

namespace IEGen

open SortedList (Tied)

namespace UFCallMap

/-! ## Runs -/

/-- A call of a member function. -/
inductive Op where
  | insert (ufc : Term)
  | findCall (ufc : Term)
  | findVar (symbol : String)

/-- The function call that is handed over. -/
def Op.handed : Op → List Term
  | .insert t | .findCall t => [t]
  | .findVar _ => []

/-- The map after `insert` or `find`, which change nothing before they throw. -/
def after (m : UFCallMap) : Except Failure (String × UFCallMap) → UFCallMap
  | .ok (_, m') => m'
  | .error _ => m

def step (m : UFCallMap) : Op → UFCallMap
  | .insert t => m.after (m.insert t)
  | .findCall t => m.after (m.findCall t)
  | .findVar _ => m

/-- The map after a sequence of calls, at first empty. -/
def run (d : Option TupleDecl) (ops : List Op) : UFCallMap := ops.foldl step (empty d)

/-- The function calls that were handed over. -/
def handed (ops : List Op) : List Term := ops.flatMap Op.handed

theorem run_append (d : Option TupleDecl) (ops : List Op) (op : Op) : run d (ops ++ [op]) = (run d ops).step op := by
  rw [run, List.foldl_append]
  rfl

theorem handed_append (ops : List Op) (op : Op) : handed (ops ++ [op]) = handed ops ++ op.handed := by
  simp [handed]

/-! ## What a run keeps -/

/-- A call with names, whose arguments are as expressions are kept: without zeros, and with coefficient one for nested
tuples, which do not print it. -/
structure Presentable (t : Term) : Prop where
  call : t.isUFCall = true
  legible : t.legible = true
  proper : t.Proper

variable {m : UFCallMap} {t u : Term}

theorem Presentable.setCoefficient (h : Presentable t) (c : Int) : Presentable (t.setCoefficient c) := by
  cases t with
  | ufCall => exact ⟨rfl, h.legible, h.proper⟩
  | _ => cases h.call

/-- The calls are one, the coefficients left out. -/
def SameCall (t u : Term) : Prop := t.setCoefficient 1 = u.setCoefficient 1

/-- The state after calls that handed over `ts`: each entry is one of them under its own symbol, no symbol stands twice,
and the symbol of each is taken. -/
structure Kept (d : Option TupleDecl) (ts : List Term) (m : UFCallMap) : Prop where
  decl : m.tupleDecl = d
  swap : m.mVarParam2UFC = m.mUFC2VarParam.map Prod.swap
  entry : ∀ p ∈ m.mUFC2VarParam, ∃ t ∈ ts, p.1 = t.setCoefficient 1 ∧ symbol d t = .ok p.2
  nodup : (m.mUFC2VarParam.map Prod.snd).Nodup
  taken : ∀ t ∈ ts, ∀ s, symbol d t = .ok s → ∃ k, (k, s) ∈ m.mUFC2VarParam

theorem kept_empty (d : Option TupleDecl) : Kept d [] (empty d) :=
  ⟨rfl, rfl, by simp [empty], by simp [empty], by simp⟩

namespace Kept

variable {d : Option TupleDecl} {ts : List Term}

/-- What stands under a symbol is found. -/
theorem findVar_eq_some_iff (h : Kept d ts m) {s : String} {k : Term} :
    m.findVar s = some k ↔ (k, s) ∈ m.mUFC2VarParam := by
  constructor
  · intro hf
    have hmem := mem_of_findVar hf
    rw [h.swap] at hmem
    obtain ⟨p, hp, hps⟩ := List.mem_map.1 hmem
    obtain ⟨rfl, rfl⟩ := Prod.mk.inj hps
    exact hp
  · intro hmem
    have hfirst : (m.mVarParam2UFC.map Prod.fst).Nodup := by
      rw [h.swap, List.map_map]
      exact h.nodup
    have hswap : (s, k) ∈ m.mVarParam2UFC := by
      rw [h.swap]
      exact List.mem_map.2 ⟨(k, s), hmem, rfl⟩
    cases hf : m.findVar s with
    | none => exact absurd (List.lookup_eq_none_iff.1 hf _ hswap) (by simp)
    | some k' =>
      -- the two entries have one symbol
      have hpair := List.inj_on_of_nodup_map hfirst (mem_of_findVar hf) hswap rfl
      rw [(Prod.mk.inj hpair).2]

theorem findVar_eq_none_iff (h : Kept d ts m) {s : String} : m.findVar s = none ↔ ∀ k, (k, s) ∉ m.mUFC2VarParam := by
  rw [Option.eq_none_iff_forall_ne_some]
  exact forall_congr' fun k => not_congr h.findVar_eq_some_iff

/-- The key that is tied with a call is the call, and stands under its symbol. -/
theorem key (h : Kept d ts m) (hts : ∀ t ∈ ts, Presentable t) (ht : Presentable t) {p : Term × String}
    (hp : p ∈ m.mUFC2VarParam) (htied : Tied Term.lt p.1 (t.setCoefficient 1)) :
    p.1 = t.setCoefficient 1 ∧ symbol d t = .ok p.2 := by
  obtain ⟨u, hu, hkey, hsym⟩ := h.entry p hp
  have hpu := (hts u hu).setCoefficient 1
  have hpt := ht.setCoefficient 1
  rw [hkey] at htied ⊢
  have heq := Term.eq_of_tied_calls hpu.call hpu.legible hpt.legible hpu.proper hpt.proper htied
  rw [← symbol_setCoefficient d 1 u, heq, symbol_setCoefficient] at hsym
  exact ⟨heq, hsym⟩

/-- `insert` and `find` give a call its symbol, and record it if the symbol is free. -/
theorem insert_findCall (h : Kept d ts m) (hts : ∀ t ∈ ts, Presentable t) (ht : Presentable t) {s : String}
    {m' : UFCallMap} : (m.insert t = .ok (s, m') ↔ symbol d t = .ok s ∧ m' = m.add s t) ∧
      (m.findCall t = .ok (s, m') ↔ symbol d t = .ok s ∧ m' = m.add s t) := by
  have hkeys : ∀ p ∈ m.mUFC2VarParam, Tied Term.lt p.1 (t.setCoefficient 1) →
      UFCallMap.symbol m.tupleDecl t = .ok p.2 ∧ (m.findVar p.2).isSome = true := by
    intro p hp htied
    rw [h.decl]
    refine ⟨(h.key hts ht hp htied).2, ?_⟩
    rw [(h.findVar_eq_some_iff (s := p.2) (k := p.1)).2 hp]
    rfl
  rw [← h.decl]
  exact ⟨insert_eq_ok hkeys, findCall_eq_ok_of_keys hkeys⟩

theorem add (h : Kept d ts m) {s : String} (hs : symbol d t = .ok s) : Kept d (ts ++ [t]) (m.add s t) := by
  have hmono : ∀ p, p ∈ m.mUFC2VarParam → ∃ t' ∈ ts ++ [t], p.1 = t'.setCoefficient 1 ∧ symbol d t' = .ok p.2 := by
    intro p hp
    obtain ⟨u, hu, hrest⟩ := h.entry p hp
    exact ⟨u, List.mem_append_left _ hu, hrest⟩
  unfold UFCallMap.add
  split_ifs with hfound
  · refine ⟨h.decl, h.swap, hmono, h.nodup, fun u hu s' hs' => ?_⟩
    rcases List.mem_append.1 hu with hu | hu
    · exact h.taken u hu s' hs'
    · obtain rfl := List.mem_singleton.1 hu
      obtain rfl := Except.ok.inj (hs.symm.trans hs')
      obtain ⟨k, hk⟩ := Option.isSome_iff_exists.1 hfound
      exact ⟨k, h.findVar_eq_some_iff.1 hk⟩
  · rw [Bool.not_eq_true, Option.isSome_eq_false_iff, Option.isNone_iff_eq_none, h.findVar_eq_none_iff] at hfound
    refine ⟨h.decl, by simp [h.swap], fun p hp => ?_, ?_, fun u hu s' hs' => ?_⟩
    · rcases List.mem_append.1 hp with hp | hp
      · exact hmono p hp
      · obtain rfl := List.mem_singleton.1 hp
        exact ⟨t, List.mem_append_right _ (List.mem_singleton.2 rfl), rfl, hs⟩
    · rw [List.map_append, List.nodup_append]
      refine ⟨h.nodup, by simp, fun v hv w hw hvw => ?_⟩
      obtain ⟨p, hp, rfl⟩ := List.mem_map.1 hv
      obtain rfl : w = s := by simpa using hw
      exact hfound p.1 (hvw ▸ hp)
    · rcases List.mem_append.1 hu with hu | hu
      · obtain ⟨k, hk⟩ := h.taken u hu s' hs'
        exact ⟨k, List.mem_append_left _ hk⟩
      · obtain rfl := List.mem_singleton.1 hu
        obtain rfl := Except.ok.inj (hs.symm.trans hs')
        exact ⟨_, List.mem_append_right _ (List.mem_singleton.2 rfl)⟩

/-- A call that has no text changes nothing. -/
theorem of_error (h : Kept d ts m) (ht : ∀ s, symbol d t ≠ .ok s) : Kept d (ts ++ [t]) m := by
  refine ⟨h.decl, h.swap, fun p hp => ?_, h.nodup, fun u hu s hs => ?_⟩
  · obtain ⟨u, hu, hrest⟩ := h.entry p hp
    exact ⟨u, List.mem_append_left _ hu, hrest⟩
  · rcases List.mem_append.1 hu with hu | hu
    · exact h.taken u hu s hs
    · obtain rfl := List.mem_singleton.1 hu
      exact absurd hs (ht s)

/-- The map after a function that gives a call its symbol and records it. -/
theorem after (h : Kept d ts m) {r : Except Failure (String × UFCallMap)}
    (hr : ∀ s m', r = .ok (s, m') ↔ symbol d t = .ok s ∧ m' = m.add s t) : Kept d (ts ++ [t]) (m.after r) := by
  cases r with
  | ok p =>
    obtain ⟨hs, hm⟩ := (hr p.1 p.2).1 rfl
    show Kept d (ts ++ [t]) p.2
    rw [hm]
    exact h.add hs
  | error e =>
    refine h.of_error fun s hs => ?_
    cases (hr s _).2 ⟨hs, rfl⟩

theorem step (h : Kept d ts m) (hts : ∀ t ∈ ts, Presentable t) {op : Op} (hop : ∀ t ∈ op.handed, Presentable t) :
    Kept d (ts ++ op.handed) (m.step op) := by
  cases op with
  | insert t => exact h.after fun s m' => (h.insert_findCall hts (hop t (List.mem_singleton.2 rfl))).1
  | findCall t => exact h.after fun s m' => (h.insert_findCall hts (hop t (List.mem_singleton.2 rfl))).2
  | findVar s =>
    rw [Op.handed, List.append_nil]
    exact h

end Kept

theorem kept_run {d : Option TupleDecl} {ops : List Op} (h : ∀ t ∈ handed ops, Presentable t) :
    Kept d (handed ops) (run d ops) := by
  induction ops using List.reverseRecOn with
  | nil => exact kept_empty d
  | append_singleton ops op ih =>
    rw [handed_append] at h ⊢
    rw [run_append]
    have hops : ∀ t ∈ handed ops, Presentable t := fun t ht => h t (List.mem_append_left _ ht)
    exact (ih hops).step hops fun t ht => h t (List.mem_append_right _ ht)

/-! ## What the map answers -/

/-- What is asked of the map after a run. -/
structure Answers (d : Option TupleDecl) (ops : List Op) : Prop where
  /-- the maps are each other's inverses -/
  inverse : ∀ t s, (t, s) ∈ (run d ops).mUFC2VarParam ↔ (s, t) ∈ (run d ops).mVarParam2UFC
  /-- keys that are tied, and symbols that are equal, belong to one entry -/
  functional : ∀ p ∈ (run d ops).mUFC2VarParam, ∀ q ∈ (run d ops).mUFC2VarParam,
    Tied Term.lt p.1 q.1 ∨ p.2 = q.2 → p = q
  /-- different calls have different symbols -/
  distinct : ∀ t ∈ handed ops, ∀ u ∈ handed ops, ∀ s m m', (run d ops).findCall t = .ok (s, m) →
    (run d ops).findCall u = .ok (s, m') → SameCall t u
  /-- a call stands in both maps with coefficient one, and looking for it or for its symbol finds it -/
  found : ∀ t ∈ handed ops, ∀ s, symbol d t = .ok s → (t.setCoefficient 1, s) ∈ (run d ops).mUFC2VarParam ∧
    (s, t.setCoefficient 1) ∈ (run d ops).mVarParam2UFC ∧ (run d ops).findCall t = .ok (s, run d ops) ∧
    (run d ops).findVar s = some (t.setCoefficient 1)
  /-- inserting a call again, with any coefficient, changes nothing -/
  again : ∀ t ∈ handed ops, ∀ s, symbol d t = .ok s → ∀ c, (run d ops).insert (t.setCoefficient c) = .ok (s, run d ops)
  /-- looking for a symbol that is not there changes nothing -/
  unknown : ∀ s, (run d ops).findVar s = none → (run d ops).step (.findVar s) = run d ops

/-- No two different calls have one symbol. -/
def OwnSymbols (d : Option TupleDecl) (ts : List Term) : Prop :=
  ∀ t ∈ ts, ∀ u ∈ ts, ∀ s, symbol d t = .ok s → symbol d u = .ok s → SameCall t u

section Answers

variable {d : Option TupleDecl} {ops : List Op}

/-- A call whose symbol is taken is not recorded again. -/
theorem Kept.add_eq_self {ts : List Term} (h : Kept d ts m) (ht : t ∈ ts) {s : String} (hs : symbol d t = .ok s) (u : Term) :
    m.add s u = m := by
  obtain ⟨k, hk⟩ := h.taken t ht s hs
  rw [UFCallMap.add, if_pos (by rw [h.findVar_eq_some_iff.2 hk]; rfl)]

/-- In a run of calls with symbols of their own, what stands under the symbol of a call is the call. -/
theorem Kept.mem_of_ownSymbols {ts : List Term} (h : Kept d ts m) (hown : OwnSymbols d ts) (ht : t ∈ ts) {s : String}
    (hs : symbol d t = .ok s) : (t.setCoefficient 1, s) ∈ m.mUFC2VarParam := by
  obtain ⟨k, hk⟩ := h.taken t ht s hs
  obtain ⟨u, hu, rfl, hsym⟩ := h.entry (k, s) hk
  rwa [hown t ht u hu s hs hsym]

theorem answers_of_ownSymbols (h : ∀ t ∈ handed ops, Presentable t) (hown : OwnSymbols d (handed ops)) :
    Answers d ops := by
  have hk := kept_run (d := d) h
  have hfind : ∀ t ∈ handed ops, ∀ s, symbol d t = .ok s → (run d ops).findCall t = .ok (s, run d ops) := by
    intro t ht s hs
    exact (hk.insert_findCall h (h t ht)).2.2 ⟨hs, (hk.add_eq_self ht hs t).symm⟩
  have hinv : ∀ t s, (t, s) ∈ (run d ops).mUFC2VarParam ↔ (s, t) ∈ (run d ops).mVarParam2UFC := by
    intro t s
    rw [hk.swap, List.mem_map]
    constructor
    · exact fun hp => ⟨(t, s), hp, rfl⟩
    · rintro ⟨p, hp, hps⟩
      obtain ⟨rfl, rfl⟩ := Prod.mk.inj hps
      exact hp
  refine ⟨hinv, fun p hp q hq hpq => ?_, fun t ht u hu s m m' hft hfu => ?_, fun t ht s hs => ?_,
    fun t ht s hs c => ?_, fun s _ => rfl⟩
  · have hsymbols : p.2 = q.2 → p = q := List.inj_on_of_nodup_map hk.nodup hp hq
    rcases hpq with htied | heq
    · -- tied keys are one call, with one symbol
      obtain ⟨u, hu, hkey, hsym⟩ := hk.entry q hq
      rw [hkey] at htied
      have hpsym := (hk.key h (h u hu) hp htied).2
      exact hsymbols (Except.ok.inj (hpsym.symm.trans hsym))
    · exact hsymbols heq
  · exact hown t ht u hu s ((hk.insert_findCall h (h t ht)).2.1 hft).1 ((hk.insert_findCall h (h u hu)).2.1 hfu).1
  · have hmem := hk.mem_of_ownSymbols hown ht hs
    exact ⟨hmem, (hinv _ _).1 hmem, hfind t ht s hs, hk.findVar_eq_some_iff.2 hmem⟩
  · refine (hk.insert_findCall h ((h t ht).setCoefficient c)).1.2 ⟨?_, (hk.add_eq_self ht hs _).symm⟩
    rw [symbol_setCoefficient, hs]

theorem ownSymbols_of_answers (hans : Answers d ops) : OwnSymbols d (handed ops) := by
  intro t ht u hu s hst hsu
  exact hans.distinct t ht u hu s _ _ (hans.found t ht s hst).2.2.1 (hans.found u hu s hsu).2.2.1

end Answers

/-- The map answers for all that was handed over, after each step of a run, iff no two different calls of the run have
one symbol. -/
theorem answers_iff (d : Option TupleDecl) (ops : List Op) (h : ∀ t ∈ handed ops, Presentable t) :
    (∀ before, before <+: ops → Answers d before) ↔ OwnSymbols d (handed ops) := by
  constructor
  · exact fun hans => ownSymbols_of_answers (hans ops (List.prefix_refl ops))
  · rintro hown before ⟨rest, rfl⟩
    have hmem : ∀ t ∈ handed before, t ∈ handed (before ++ rest) := by
      intro t ht
      rw [handed, List.flatMap_append]
      exact List.mem_append_left _ ht
    exact answers_of_ownSymbols (fun t ht => h t (hmem t ht)) fun t ht u hu => hown t (hmem t ht) u (hmem u hu)

/-- `k f(ns)`, a call of numbers. -/
def callOf (k : Int) (ns : List Int) : Term := .ufCall k "f" (ns.map fun n => .mk .expression [.constVal n]) none

theorem presentable_callOf {k : Int} {ns : List Int} (h : ∀ n ∈ ns, n ≠ 0) : Presentable (callOf k ns) := by
  refine ⟨rfl, ?_, ?_⟩
  · induction ns with
    | nil => rfl
    | cons n ns ih => exact ih fun m hm => h m (List.mem_cons_of_mem _ hm)
  · induction ns with
    | nil => trivial
    | cons n ns ih =>
      obtain ⟨hn, hns⟩ := List.forall_mem_cons.1 h
      exact ⟨⟨rfl, ⟨hn, trivial⟩, trivial⟩, ih hns⟩

/-- `f(1, 2)` and `f(12)` have one symbol, so the second is not recorded and its symbol finds the first. -/
theorem answers_fails : (∀ t ∈ handed [.findCall (callOf 1 [1, 2]), .findCall (callOf 1 [12])], Presentable t) ∧
    ¬ Answers none [.findCall (callOf 1 [1, 2]), .findCall (callOf 1 [12])] := by
  refine ⟨fun t ht => ?_, fun hans => ?_⟩
  · obtain rfl | rfl : t = callOf 1 [1, 2] ∨ t = callOf 1 [12] := by simpa [handed, Op.handed] using ht
    · exact presentable_callOf (by decide)
    · exact presentable_callOf (by decide)
  · have hfound := (hans.found (callOf 1 [12]) (by simp [handed, Op.handed]) "f_12_" (by decide)).2.2.2
    have hfirst : (run none [.findCall (callOf 1 [1, 2]), .findCall (callOf 1 [12])]).findVar "f_12_" =
        some (callOf 1 [1, 2]) := rfl
    rw [hfirst] at hfound
    simp [callOf, Term.setCoefficient] at hfound

theorem answers_twice : Answers none [.findCall (callOf (-2) [1, 2]), .insert (callOf 3 [1, 2]), .findVar "g_1_"] := by
  refine (answers_iff none _ fun t ht => ?_).2 (fun t ht u hu s hst hsu => ?_) _ (List.prefix_refl _)
  · obtain rfl | rfl : t = callOf (-2) [1, 2] ∨ t = callOf 3 [1, 2] := by simpa [handed, Op.handed] using ht
    · exact presentable_callOf (by decide)
    · exact presentable_callOf (by decide)
  · have hone : ∀ v ∈ handed [.findCall (callOf (-2) [1, 2]), .insert (callOf 3 [1, 2]), .findVar "g_1_"],
        v.setCoefficient 1 = callOf 1 [1, 2] := by
      intro v hv
      obtain rfl | rfl : v = callOf (-2) [1, 2] ∨ v = callOf 3 [1, 2] := by simpa [handed, Op.handed] using hv
      · rfl
      · rfl
    exact (hone t ht).trans (hone u hu).symm

end UFCallMap

end IEGen
