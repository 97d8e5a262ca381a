import IEGen.Group

/-!
# What gathering equalities keeps

The table of `groupIndexedUFCalls` has one place for each component of a call: of several equalities about it the last is
kept. The components above those of the function are dropped when the others are complete, and when the first component
is there but others are not, what is put back has been deleted.

* `Gathering.says_iff`: the table says what the equalities that are kept say.
* `groupIndexedUFCalls_denotes`: the tuples are the same iff no call is half complete and what the table lost follows.
-/

namespace IEGen

open SortedList (Tied)
open Outcome (bind_eq_ok)

/-! ## The conjunction before and after -/

/-- The equality is about the index of the call. -/
def Exp.inSlot (u : NonIndexed) (k : Nat) (e : Exp) : Bool :=
  e.hasIndexedUFCall && match e.cloneIndexedUFCallTerm with
    | .ok (.ufCall _ funcName args (some tupleIndex)) => decide (Tied NonIndexed.lt ⟨funcName, args⟩ u) && tupleIndex == k
    | _ => false

namespace Conjunction

/-- The last equality about the index of the call. -/
def lastIn (c : Conjunction) (u : NonIndexed) (k : Nat) : Option Exp := c.equalities.reverse.find? (Exp.inSlot u k)

/-- There is an equality about each component of the call. -/
def Complete (env : Environment) (c : Conjunction) (u : NonIndexed) : Prop :=
  ∀ k < env.rangeArity u.funcName, ∃ e, c.lastIn u k = some e

/-- There is an equality about the first component of the call, but not about each. -/
def HalfComplete (env : Environment) (c : Conjunction) (u : NonIndexed) : Prop :=
  ¬ c.Complete env u ∧ ∃ e, c.lastIn u 0 = some e

/-- The equality has no indexed call first, or it is the last about its component and not about one too many. -/
def Kept (env : Environment) (c : Conjunction) (e : Exp) : Prop :=
  e ∈ c.equalities ∧ (e.hasIndexedUFCall = false ∨
    ∃ u k, c.lastIn u k = some e ∧ (c.Complete env u → k < env.rangeArity u.funcName))

/-- Each equality that is gathered has one indexed call, with coefficient one or minus one, of a function whose range can
be asked for. -/
def Gatherable (env : Environment) (c : Conjunction) : Prop :=
  ∀ e ∈ c.equalities, e.hasIndexedUFCall = true → ∃ u k, e.Gathers u k ∧ ∃ n, env.queryRangeArity u.funcName = .ok n

/-- No call is half complete, and the equalities that are not kept follow from the other constraints. -/
structure GroupsRight (env : Environment) (c : Conjunction) : Prop where
  whole : ∀ u, ¬ c.HalfComplete env u
  kept : ∀ I : Interp, I.cod = env.rangeArity → ∀ t, c.tupleDecl.Admits t → (∀ e, c.Kept env e → e.HoldsEq I (valuation t)) →
    (∀ e ∈ c.inequalities, e.HoldsGe I (valuation t)) → ∀ e ∈ c.equalities, e.HoldsEq I (valuation t)

end Conjunction

section Tied

variable {env : Environment} {c : Conjunction} {u v : NonIndexed}

theorem NonIndexed.says_of_tied {I : Interp} {τ : Nat → Int} {k : Nat} {x : Exp} (h : Tied NonIndexed.lt u v)
    (hu : argsLegible u.args = true) (hv : argsLegible v.args = true) : u.Says I τ k x ↔ v.Says I τ k x := by
  obtain ⟨hname, -, hargs, -⟩ := tied_ufCall h
  rw [Says, Says, hname, argsVal_of_toString_eq hu hv hargs]

theorem Exp.inSlot_of_tied (h : Tied NonIndexed.lt u v) (k : Nat) : Exp.inSlot u k = Exp.inSlot v k := by
  have hiff : ∀ w, Tied NonIndexed.lt w u ↔ Tied NonIndexed.lt w v := fun w =>
    ⟨fun hw => strictWeak_nonIndexedLt.tied_trans hw h, fun hw => strictWeak_nonIndexedLt.tied_trans hw h.symm⟩
  funext e
  simp only [inSlot, hiff]

theorem Conjunction.complete_of_tied (h : Tied NonIndexed.lt u v) : c.Complete env u ↔ c.Complete env v := by
  obtain ⟨hname, -, -, -⟩ := tied_ufCall h
  simp only [Complete, lastIn, Exp.inSlot_of_tied h, hname]

theorem Conjunction.halfComplete_of_tied (h : Tied NonIndexed.lt u v) (hu : c.HalfComplete env u) : c.HalfComplete env v := by
  rw [HalfComplete, complete_of_tied h, lastIn, Exp.inSlot_of_tied h] at hu
  exact hu

theorem Exp.inSlot_eq {e : Exp} {g : Gathered} (h : e.hasIndexedUFCall = true) (hg : e.gathered env = .ok g) (u : NonIndexed) (k : Nat) :
    e.inSlot u k = g.inSlot u k := by
  obtain ⟨-, d, -, ht⟩ := gathers_of_gathered h hg
  rw [inSlot, h, ht]
  rfl

end Tied

/-! ## The conjunction that is returned -/

theorem Environment.rangeArity_of_query {env : Environment} {f : String} {n : Nat} (h : env.queryRangeArity f = .ok n) :
    env.rangeArity f = n := by
  rw [queryRangeArity, bind_eq_ok] at h
  obtain ⟨r, hr, h⟩ := h
  cases h
  rw [queryRange] at hr
  split at hr
  · next u hu =>
    rw [Set.copy, bind_eq_ok] at hr
    obtain ⟨cs, -, hr⟩ := hr
    cases hr
    rw [rangeArity, hu]
    rfl
  · cases hr

/-- The table that was filled from the equalities of a conjunction. -/
structure Gathering (env : Environment) (c : Conjunction) (gs : List Gathered) (table : CallTable) : Prop where
  gathered : List.Forall₂ (fun e g => (e.hasIndexedUFCall = true ∧ e ∈ c.equalities) ∧ e.gathered env = .ok g)
    (c.equalities.filter Exp.hasIndexedUFCall) gs
  table : table.Of gs

namespace Gathering

variable {env : Environment} {c : Conjunction} {gs : List Gathered} {table : CallTable} {u : NonIndexed} {k : Nat}

theorem of_mapM (h : (c.equalities.filter Exp.hasIndexedUFCall).mapM (Exp.gathered env) = .ok gs) :
    Gathering env c gs (gs.foldl store []) :=
  ⟨Outcome.forall₂_imp_mem (Outcome.forall₂_of_mapM h) fun _ _ he hg => ⟨(List.mem_filter.1 he).symm, hg⟩, slot_table gs⟩

/-- The last equality about an index, and what was found last for it. -/
theorem lastIn_iff (h : Gathering env c gs table) (u : NonIndexed) (k : Nat) :
    (∀ e, c.lastIn u k = some e → ∃ g, gs.reverse.find? (Gathered.inSlot u k) = some g ∧
      (e.hasIndexedUFCall = true ∧ e ∈ c.equalities) ∧ e.gathered env = .ok g) ∧
    ∀ g, gs.reverse.find? (Gathered.inSlot u k) = some g → ∃ e, c.lastIn u k = some e ∧
      (e.hasIndexedUFCall = true ∧ e ∈ c.equalities) ∧ e.gathered env = .ok g := by
  have hlast : c.lastIn u k = (c.equalities.filter Exp.hasIndexedUFCall).reverse.find? (Exp.inSlot u k) := by
    have hand : (fun e => decide (e.hasIndexedUFCall = true ∧ Exp.inSlot u k e = true)) = Exp.inSlot u k := by
      funext e
      unfold Exp.inSlot
      cases e.hasIndexedUFCall <;> simp
    rw [← List.filter_reverse, List.find?_filter, hand, Conjunction.lastIn]
  rw [hlast]
  exact Outcome.find?_of_forall₂ (List.forall₂_reverse_iff.2 h.gathered) fun e g heg => Exp.inSlot_eq heg.1.1 heg.2 u k

theorem exists_lastIn (h : Gathering env c gs table) : (∃ e, c.lastIn u k = some e) ↔ ∃ x, table.slot u k = some x := by
  obtain ⟨h₁, h₂⟩ := h.lastIn_iff u k
  rw [h.table.slot]
  constructor
  · rintro ⟨e, he⟩
    obtain ⟨g, hg, -⟩ := h₁ e he
    exact ⟨g.retExp, by rw [hg]; rfl⟩
  · rintro ⟨x, hx⟩
    obtain ⟨g, hg, -⟩ := Option.map_eq_some_iff.1 hx
    obtain ⟨e, he, -⟩ := h₂ g hg
    exact ⟨e, he⟩

theorem find_entry (h : Gathering env c gs table) {p : NonIndexed × List (Nat × Exp)} (hp : p ∈ table) (k : Nat) :
    SortedMap.find (fun i j => i < j) k p.2 = table.slot p.1 k := by
  rw [CallTable.slot, SortedMap.find_of_mem strictWeak_nonIndexedLt h.table.ordered hp]
  rfl

/-- An entry of the table is filled as far as there are equalities about its call. -/
theorem filled_iff (h : Gathering env c gs table) {p : NonIndexed × List (Nat × Exp)} (hp : p ∈ table) :
    Filled (env.rangeArity p.1.funcName) p.2 ↔ c.Complete env p.1 := by
  simp only [Filled, Conjunction.Complete, h.exists_lastIn, h.find_entry hp]

theorem halfFilled_iff (h : Gathering env c gs table) :
    (∃ p ∈ table, HalfFilled (env.rangeArity p.1.funcName) p.2) ↔ ∃ u, c.HalfComplete env u := by
  have hentry : ∀ p ∈ table, (HalfFilled (env.rangeArity p.1.funcName) p.2 ↔ c.HalfComplete env p.1) := by
    intro p hp
    rw [HalfFilled, Conjunction.HalfComplete, h.filled_iff hp, h.exists_lastIn, h.find_entry hp]
  constructor
  · rintro ⟨p, hp, hhalf⟩
    exact ⟨p.1, (hentry p hp).1 hhalf⟩
  · rintro ⟨u, hhalf⟩
    obtain ⟨x, hx⟩ := h.exists_lastIn.1 hhalf.2
    obtain ⟨m, hm, -⟩ := Option.bind_eq_some_iff.1 hx
    obtain ⟨v, ht, hv⟩ := SortedMap.mem_of_find hm
    exact ⟨(v, m), hv, (hentry _ hv).2 (Conjunction.halfComplete_of_tied ht.symm hhalf)⟩

section Right

variable (hlegible : ∀ e ∈ c.equalities, e.callsLegible = true)
  (hright : ∀ e ∈ c.equalities, e.hasIndexedUFCall = true → e.GathersRight env.rangeArity)
include hlegible hright

theorem soundFor {e : Exp} {g : Gathered} (he : e.hasIndexedUFCall = true ∧ e ∈ c.equalities) (hg : e.gathered env = .ok g) :
    g.SoundFor env.rangeArity e := Exp.gathered_soundFor he.1 hg (hlegible e he.2) (hright e he.2 he.1)

/-- What stands in the table for an index of a call was found in the last equality about it. -/
theorem exists_of_mem (h : Gathering env c gs table) {p : NonIndexed × List (Nat × Exp)} (hp : p ∈ table) {q : Nat × Exp}
    (hq : q ∈ p.2) : ∃ (e : Exp) (g : Gathered), c.lastIn p.1 q.1 = some e ∧ e ∈ c.equalities ∧ g.SoundFor env.rangeArity e ∧
      Tied NonIndexed.lt g.ufcall p.1 ∧ g.tupleIndex = q.1 ∧ g.retExp = q.2 := by
  have hslot := (mem_iff_find (h.table.inner p hp)).1 hq
  rw [h.find_entry hp, h.table.slot] at hslot
  obtain ⟨g, hg, hret⟩ := Option.map_eq_some_iff.1 hslot
  obtain ⟨e, he, hmem, hge⟩ := (h.lastIn_iff p.1 q.1).2 g hg
  obtain ⟨ht, hk⟩ := Gathered.inSlot_iff.1 (List.find?_some hg)
  exact ⟨e, g, he, hmem.2, soundFor hlegible hright hmem hge, ht, hk, hret⟩

theorem soundEntry (h : Gathering env c gs table) {p : NonIndexed × List (Nat × Exp)} (hp : p ∈ table) :
    SoundEntry env.rangeArity p := by
  have hq := fun q hq => h.exists_of_mem hlegible hright hp (q := q) hq
  refine ⟨?_, h.table.inner p hp, fun q hmem => ?_, fun q hmem => ?_⟩
  · obtain ⟨g, hg, hkey⟩ := h.table.key p hp
    obtain ⟨e, -, he, hge⟩ := Outcome.exists_of_mem_forall₂ h.gathered hg
    rw [← hkey]
    exact (soundFor hlegible hright he hge).args
  · obtain ⟨e, g, -, -, hfrom, -, -, hret⟩ := hq q hmem
    rw [← hret]
    exact hfrom.legible
  · obtain ⟨e, g, -, -, hfrom, -, -, hret⟩ := hq q hmem
    rw [← hret]
    exact hfrom.integer

/-- The equalities that are kept say what the table says. -/
theorem says_iff (h : Gathering env c gs table) {I : Interp} (hI : I.cod = env.rangeArity) (τ : Nat → Int) :
    (∀ e, c.Kept env e → e.HoldsEq I τ) ↔ (∀ e ∈ c.equalities.filter (fun e => !e.hasIndexedUFCall), e.HoldsEq I τ) ∧
      ∀ p ∈ table, EntrySays env.rangeArity p I τ := by
  constructor
  · intro hkept
    refine ⟨fun e he => ?_, fun p hp q hq hbound => ?_⟩
    · obtain ⟨hmem, hno⟩ := List.mem_filter.1 he
      exact hkept e ⟨hmem, .inl (by simpa using hno)⟩
    · obtain ⟨e, g, hlast, hmem, hsound, ht, hk, hret⟩ := h.exists_of_mem hlegible hright hp hq
      rw [h.filled_iff hp] at hbound
      have hsays := (hsound.holds I hI τ).1 (hkept e ⟨hmem, .inr ⟨p.1, q.1, hlast, hbound⟩⟩)
      rw [hk, hret] at hsays
      exact (NonIndexed.says_of_tied ht hsound.args (h.soundEntry hlegible hright hp).args).1 hsays
  · rintro ⟨hrest, htable⟩ e ⟨hmem, hkept⟩
    rcases hkept with hno | ⟨u, k, hlast, hbound⟩
    · exact hrest e (List.mem_filter.2 ⟨hmem, by simpa using hno⟩)
    · obtain ⟨g, hg, he, hge⟩ := (h.lastIn_iff u k).1 e hlast
      have hsound := soundFor hlegible hright he hge
      obtain ⟨ht, hk⟩ := Gathered.inSlot_iff.1 (List.find?_some hg)
      have hslot : table.slot u k = some g.retExp := by rw [h.table.slot, hg, Option.map_some]
      obtain ⟨m, hm, hx⟩ := Option.bind_eq_some_iff.1 hslot
      obtain ⟨v, htv, hv⟩ := SortedMap.mem_of_find hm
      obtain ⟨hname, -, -, -⟩ := tied_ufCall htv
      have hin : (k, g.retExp) ∈ m := (mem_iff_find (h.table.inner _ hv)).2 hx
      have hsays := htable (v, m) hv (k, g.retExp) hin fun hf => by
        rw [h.filled_iff hv] at hf
        have hlt := hbound ((Conjunction.complete_of_tied htv).1 hf)
        rwa [← hname] at hlt
      rw [hsound.holds I hI τ, hk]
      refine (NonIndexed.says_of_tied ?_ hsound.args (h.soundEntry hlegible hright hv).args).2 hsays
      exact strictWeak_nonIndexedLt.tied_trans ht htv.symm

end Right

end Gathering

section Denotes

variable {env : Environment} {c c' : Conjunction} {dangling : Bool}

theorem exists_foldlM_regroup : ∀ {table : CallTable} (acc : Conjunction × Bool),
    (∃ r, table.foldlM (regroup env) acc = .ok r) ↔ ∀ p ∈ table, ∃ n, env.queryRangeArity p.1.funcName = .ok n
  | [], acc => ⟨fun _ _ h => (by cases h), fun _ => ⟨acc, rfl⟩⟩
  | p :: table, acc => by
    rw [List.foldlM_cons, List.forall_mem_cons]
    constructor
    · rintro ⟨r, hr⟩
      obtain ⟨acc', h, hr⟩ := bind_eq_ok.1 hr
      rw [regroup, bind_eq_ok] at h
      obtain ⟨n, hn, -⟩ := h
      exact ⟨⟨n, hn⟩, (exists_foldlM_regroup acc').1 ⟨r, hr⟩⟩
    · rintro ⟨⟨n, hn⟩, htable⟩
      obtain ⟨acc', h⟩ : ∃ acc', regroup env acc p = .ok acc' := by
        simp only [regroup, hn, bind, Except.bind]
        split
        · exact ⟨_, rfl⟩
        · exact ⟨_, rfl⟩
      obtain ⟨r, hr⟩ := (exists_foldlM_regroup acc').2 htable
      exact ⟨r, bind_eq_ok.2 ⟨acc', h, hr⟩⟩

namespace Gathering

variable {gs : List Gathered} {table : CallTable}

/-- Every call that was gathered is in the table. -/
theorem exists_entry (h : Gathering env c gs table) {g : Gathered} (hg : g ∈ gs) : ∃ p ∈ table, Tied NonIndexed.lt p.1 g.ufcall := by
  have hin : ∃ x ∈ gs.reverse, x.inSlot g.ufcall g.tupleIndex = true :=
    ⟨g, List.mem_reverse.2 hg, Gathered.inSlot_iff.2 ⟨strictWeak_nonIndexedLt.tied_refl _, rfl⟩⟩
  obtain ⟨g', hg'⟩ := Option.isSome_iff_exists.1 (List.find?_isSome.2 hin)
  have hslot : table.slot g.ufcall g.tupleIndex = some g'.retExp := by rw [h.table.slot, hg', Option.map_some]
  obtain ⟨m, hm, -⟩ := Option.bind_eq_some_iff.1 hslot
  obtain ⟨v, ht, hv⟩ := SortedMap.mem_of_find hm
  exact ⟨(v, m), hv, ht⟩

end Gathering

namespace Conjunction

/-- The function returns where each equality that it gathers can be gathered. -/
theorem exists_groupIndexedUFCalls : (∃ r, c.groupIndexedUFCalls env = .ok r) ↔ c.Gatherable env := by
  constructor
  · rintro ⟨r, h⟩ e he hi
    rw [groupIndexedUFCalls, bind_eq_ok] at h
    obtain ⟨gs, hgs, h⟩ := h
    have hgather := Gathering.of_mapM hgs
    obtain ⟨g, hg, -, hge⟩ := Outcome.exists_of_mem_forall₂ hgather.gathered.flip (List.mem_filter.2 ⟨he, hi⟩)
    obtain ⟨p, hp, ht⟩ := hgather.exists_entry hg
    obtain ⟨n, hn⟩ := (exists_foldlM_regroup _).1 ⟨r, h⟩ p hp
    rw [(tied_ufCall ht).1] at hn
    exact ⟨g.ufcall, g.tupleIndex, Exp.gathers_of_gathered hi hge, n, hn⟩
  · intro h
    obtain ⟨gs, hgs⟩ : ∃ gs, (c.equalities.filter Exp.hasIndexedUFCall).mapM (Exp.gathered env) = .ok gs := by
      refine Outcome.exists_mapM fun e he => ?_
      obtain ⟨hmem, hi⟩ := List.mem_filter.1 he
      obtain ⟨u, k, ⟨-, d, hd, ht⟩, -⟩ := h e hmem hi
      obtain ⟨x, -, hx⟩ := Exp.gathered_eq env hd hi ht
      exact ⟨_, hx⟩
    have hgather := Gathering.of_mapM hgs
    have hqueried : ∀ p ∈ gs.foldl store [], ∃ n, env.queryRangeArity p.1.funcName = .ok n := by
      intro p hp
      obtain ⟨g, hg, hkey⟩ := hgather.table.key p hp
      obtain ⟨e, -, he, hge⟩ := Outcome.exists_of_mem_forall₂ hgather.gathered hg
      obtain ⟨u, k, ⟨-, d, hd, ht⟩, n, hn⟩ := h e he.2 he.1
      obtain ⟨x, -, hx⟩ := Exp.gathered_eq env hd he.1 ht
      rw [hge] at hx
      rw [← hkey, congrArg Gathered.ufcall (Except.ok.inj hx)]
      exact ⟨n, hn⟩
    obtain ⟨r, hr⟩ := (exists_foldlM_regroup _).2 hqueried
    exact ⟨r, bind_eq_ok.2 ⟨gs, hgs, hr⟩⟩

/-- The tuples of the conjunction that is returned: those that meet the equalities that are kept. -/
theorem groupIndexedUFCalls_spec (hlegible : ∀ e ∈ c.equalities, e.callsLegible = true)
    (hright : ∀ e ∈ c.equalities, e.hasIndexedUFCall = true → e.GathersRight env.rangeArity)
    (h : c.groupIndexedUFCalls env = .ok (c', dangling)) : (dangling = true ↔ ∃ u, c.HalfComplete env u) ∧
      (dangling = false → ∀ I : Interp, I.cod = env.rangeArity → ∀ t, t ∈ c'.denote I ↔ c.tupleDecl.Admits t ∧
        (∀ e, c.Kept env e → e.HoldsEq I (valuation t)) ∧ ∀ e ∈ c.inequalities, e.HoldsGe I (valuation t)) := by
  rw [groupIndexedUFCalls, bind_eq_ok] at h
  obtain ⟨gs, hgs, h⟩ := h
  have hgather := Gathering.of_mapM hgs
  have hrest : ∀ e ∈ c.equalities.filter (fun e => !e.hasIndexedUFCall), e.callsLegible = true :=
    fun e he => hlegible e (List.mem_filter.1 he).1
  obtain ⟨hflag, hadds⟩ := foldlM_regroup_spec (fun p hp => hgather.soundEntry hlegible hright hp)
    (fun p _ n hn => Environment.rangeArity_of_query hn) hrest h
  refine ⟨?_, fun hfalse I hI t => ?_⟩
  · rw [hflag, hgather.halfFilled_iff]
    exact or_iff_right Bool.false_ne_true
  · have hadds := hadds hfalse
    rw [hgather.says_iff hlegible hright hI, ← hadds.holds I hI]
    show c'.tupleDecl.Admits t ∧ c'.Holds I (valuation t) ↔ _
    rw [Holds, hadds.tupleDecl, hadds.inequalities]

/-- When `groupIndexedUFCalls` returns, the conjunction has the tuples that it had, and no pointer to a deleted
expression, iff no call is half complete and the equalities that the table lost follow from the others. -/
theorem groupIndexedUFCalls_denotes (env : Environment) (c : Conjunction) (hlegible : ∀ e ∈ c.equalities, e.callsLegible = true)
    (hright : ∀ e ∈ c.equalities, e.hasIndexedUFCall = true → e.GathersRight env.rangeArity) :
    (∀ c' dangling, c.groupIndexedUFCalls env = .ok (c', dangling) →
      dangling = false ∧ ∀ I : Interp, I.cod = env.rangeArity → c'.denote I = c.denote I) ↔
    (c.Gatherable env → c.GroupsRight env) := by
  constructor
  · intro h hgather
    obtain ⟨⟨c', dangling⟩, hr⟩ := exists_groupIndexedUFCalls.2 hgather
    obtain ⟨hflag, hmem⟩ := groupIndexedUFCalls_spec hlegible hright hr
    obtain ⟨hfalse, hsame⟩ := h c' dangling hr
    refine ⟨fun u hu => ?_, fun I hI t hadmits hkept hineqs => ?_⟩
    · rw [hflag.2 ⟨u, hu⟩] at hfalse
      cases hfalse
    · have ht := (hmem hfalse I hI t).2 ⟨hadmits, hkept, hineqs⟩
      rw [hsame I hI] at ht
      exact ht.2.1
  · intro h c' dangling hr
    obtain ⟨hwhole, hkept⟩ := h (exists_groupIndexedUFCalls.1 ⟨_, hr⟩)
    obtain ⟨hflag, hmem⟩ := groupIndexedUFCalls_spec hlegible hright hr
    have hfalse : dangling = false := Bool.eq_false_iff.2 fun htrue => by
      obtain ⟨u, hu⟩ := hflag.1 htrue
      exact hwhole u hu
    refine ⟨hfalse, fun I hI => Set.ext fun t => ?_⟩
    rw [hmem hfalse I hI]
    constructor
    · rintro ⟨hadmits, heqs, hineqs⟩
      exact ⟨hadmits, hkept I hI t hadmits heqs hineqs, hineqs⟩
    · rintro ⟨hadmits, heqs, hineqs⟩
      exact ⟨hadmits, fun e he => heqs e he.1, hineqs⟩

end Conjunction

end Denotes

/-! ## Components said twice, and too few components -/

/-- A function of one integer with `n` components. -/
def groupEnv (n : Nat) : Environment :=
  ⟨[("f", ⟨"f", ⟨1, [.ofTupleDecl (.sDefaultTupleDecl 1)]⟩, ⟨n, [.ofTupleDecl (.sDefaultTupleDecl n)]⟩, false, .none⟩)], [], []⟩

/-- `__tv<j> = f(x)[k]` -/
def componentEq (j k : Nat) : Exp := .mk .equality [.tupleVar 1 j, .ufCall (-1) "f" [.ofTerm (.symConst 1 "x")] (some k)]

/-- `{ [i, j] : i = f(x)[0] && j = f(x)[0] }` -/
def repeatedConj : Conjunction := ⟨[componentEq 0 0, componentEq 1 0], [], .sDefaultTupleDecl 2, 0⟩

/-- `{ [i] : i = f(x)[0] }` -/
def halfConj : Conjunction := ⟨[componentEq 0 0], [], .sDefaultTupleDecl 1, 0⟩

/-- The first of two equalities about one component is lost; and a call with its first component only is left with
pointers to deleted expressions. -/
theorem Conjunction.groupIndexedUFCalls_loses :
    (∃ c', repeatedConj.groupIndexedUFCalls (groupEnv 1) = .ok (c', false) ∧
      ∃ I : Interp, I.cod = (groupEnv 1).rangeArity ∧ c'.denote I ≠ repeatedConj.denote I) ∧
    ∃ c', halfConj.groupIndexedUFCalls (groupEnv 2) = .ok (c', true) := by
  refine ⟨⟨_, rfl, ⟨fun _ => 0, fun _ _ => [0], fun _ => 1, (groupEnv 1).rangeArity⟩, rfl, fun h => ?_⟩, _, rfl⟩
  have hin : [1, 0] ∈ Conjunction.denote ⟨fun _ => 0, fun _ _ => [0], fun _ => 1, (groupEnv 1).rangeArity⟩
      ⟨[.mk .equality [.ufCall 1 "f" [.ofTerm (.symConst 1 "x")] none, .tupleExp (-1) [.mk .equality [.tupleVar 1 1]]]], [],
        .sDefaultTupleDecl 2, 0⟩ := by
    refine ⟨⟨rfl, fun i hi hc => ?_⟩, fun e he k => ?_, fun e he => (by cases he)⟩
    · have hi : i = 0 ∨ i = 1 := by
        have : i < 2 := hi
        omega
      rcases hi with rfl | rfl <;> cases hc
    · obtain rfl := List.mem_singleton.1 he
      cases k with
      | zero => rfl
      | succ k => simp [Exp.val, Term.val, Interp.callVal, argsVal, scalar]
  have hout := ((Set.ext_iff.1 h _).1 hin).2.1 (componentEq 0 0) List.mem_cons_self 0
  cases hout

/-- `{ [i, j] : i = f(x)[0] && j = f(x)[1] }` -/
def wholeConj : Conjunction := ⟨[componentEq 0 0, componentEq 1 1], [], .sDefaultTupleDecl 2, 0⟩

/-- Here each component has one equality. -/
theorem Conjunction.groupIndexedUFCalls_denotes_pair : ∃ c', wholeConj.groupIndexedUFCalls (groupEnv 2) = .ok (c', false) ∧
    ∀ I : Interp, I.cod = (groupEnv 2).rangeArity → c'.denote I = wholeConj.denote I := by
  have hmem : ∀ e ∈ wholeConj.equalities, e = componentEq 0 0 ∨ e = componentEq 1 1 := by
    intro e he
    rcases List.mem_cons.1 he with rfl | he
    · exact .inl rfl
    · exact .inr (List.mem_singleton.1 he)
  have hlegible : ∀ e ∈ wholeConj.equalities, e.callsLegible = true := by
    intro e he
    rcases hmem e he with rfl | rfl
    · rfl
    · rfl
  have hcomponent : ∀ j k, (componentEq j k).GathersRight (groupEnv 2).rangeArity := by
    refine fun j k => ⟨?_, ?_⟩
    · intro t ht
      rcases List.mem_cons.1 ht with rfl | ht
      · exact le_refl 1
      · obtain rfl := List.mem_singleton.1 ht
        exact le_refl 1
    · rintro ⟨f, as⟩ i c h p hp
      change Except.ok (Term.ufCall (-1) "f" [.ofTerm (.symConst 1 "x")] (some k)) = _ at h
      cases h
      obtain ⟨t, v⟩ := p
      obtain ⟨ht, hv, hmatch⟩ := mem_termsMerged_call hp
      obtain rfl : t = .ufCall 1 "f" [.ofTerm (.symConst 1 "x")] (some k) := ht
      rcases List.mem_cons.1 hv with rfl | hv
      · cases hmatch
      · obtain rfl := List.mem_singleton.1 hv
        exact ⟨rfl, rfl, .inl rfl⟩
  have hright : ∀ e ∈ wholeConj.equalities, e.hasIndexedUFCall = true → e.GathersRight (groupEnv 2).rangeArity := by
    intro e he _
    rcases hmem e he with rfl | rfl
    · exact hcomponent 0 0
    · exact hcomponent 1 1
  have hcomplete : wholeConj.Complete (groupEnv 2) ⟨"f", [.ofTerm (.symConst 1 "x")]⟩ := by
    intro k hk
    rcases k with _ | _ | k
    · exact ⟨_, rfl⟩
    · exact ⟨_, rfl⟩
    · exact absurd hk (by simp [groupEnv, Environment.rangeArity])
  have hgroups : wholeConj.GroupsRight (groupEnv 2) := by
    refine ⟨fun u hu => hu.1 ?_, fun I _ t _ h _ e he => h e ⟨he, .inr ⟨⟨"f", [.ofTerm (.symConst 1 "x")]⟩, ?_⟩⟩⟩
    · obtain ⟨e, he⟩ := hu.2
      have hin := List.find?_some he
      have ht : Tied NonIndexed.lt ⟨"f", [.ofTerm (.symConst 1 "x")]⟩ u := by
        rcases hmem e (List.mem_reverse.1 (List.mem_of_find?_eq_some he)) with rfl | rfl
        · exact (Gathered.inSlot_iff (g := ⟨⟨"f", [.ofTerm (.symConst 1 "x")]⟩, 0, .ofTerm (.constVal 0)⟩)).1 hin |>.1
        · cases ((Gathered.inSlot_iff (g := ⟨⟨"f", [.ofTerm (.symConst 1 "x")]⟩, 1, .ofTerm (.constVal 0)⟩)).1 hin).2
      exact (complete_of_tied ht).1 hcomplete
    · rcases hmem e he with rfl | rfl
      · exact ⟨0, rfl, fun _ => by decide⟩
      · exact ⟨1, rfl, fun _ => by decide⟩
  refine ⟨_, rfl, ?_⟩
  exact ((groupIndexedUFCalls_denotes (groupEnv 2) wholeConj hlegible hright).2 fun _ => hgroups) _ _ rfl |>.2

end IEGen
