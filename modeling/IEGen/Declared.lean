import IEGen.Appended

/-!
# What the environment answers

`Declarations` is what a sequence of calls declares, with `setCurrEnv` starting anew. In a run of calls that all return
the environment holds these declarations and the queries answer them, as long as no rules are there when an environment
starts anew, since `reset` leaves them, and copying changes no declared set (`Environment.Settles`).
-/

namespace IEGen

/-! ## What the queries answer -/

/-- What a sequence of calls declares: functions with the inverses of the bijective ones, and rules. -/
structure Declarations where
  funcs : List UninterpFunc
  inverses : List (String × String)
  rules : List UniQuantRule

/-- The function declared as the inverse of a bijective one. -/
def UninterpFunc.inverse (f : UninterpFunc) : UninterpFunc := ⟨f.invName, f.range, f.domain, true, .none⟩

/-- A function with its inverse, when it is bijective. -/
def UninterpFunc.withInverse (f : UninterpFunc) : List UninterpFunc := if f.isBijective then [f, f.inverse] else [f]

/-- The text of one side of a rule. -/
def sideText (side : String) : String := "\x7b" ++ "[e1,e2]" ++ " : " ++ side ++ " \x7d"

section Declare

variable (parse_set : ParseSet)

/-- The rule that two texts say. -/
def ruleOf (funcInverse : String → String) (sides : String × String) : Except Failure UniQuantRule := do
  .ok ⟨.monotonicity, ← parse_set funcInverse (sideText sides.1), ← parse_set funcInverse (sideText sides.2)⟩

def Declarations.declare (D : Declarations) (f : UninterpFunc) : Except Failure Declarations := do
  let rules ← f.rules.mapM (ruleOf parse_set fun k => ((D.inverses ++ f.inversePairs).lookup k).getD "")
  .ok ⟨D.funcs ++ f.withInverse, D.inverses ++ f.inversePairs, D.rules ++ rules⟩

/-- What is declared after one more call: `setCurrEnv` starts anew. -/
def Declarations.after (D : Declarations) : EnvCall → Except Failure Declarations
  | .setEmpty => .ok ⟨[], [], []⟩
  | .setCurrEnv f => Declarations.declare parse_set ⟨[], [], []⟩ f
  | .appendCurrEnv f => D.declare parse_set f
  | .addUniQuantRule uqRule => .ok { D with rules := D.rules ++ [uqRule] }

def declared (calls : List EnvCall) : Except Failure Declarations :=
  calls.foldlM (Declarations.after parse_set) ⟨[], [], []⟩

end Declare

/-- The queries answer what is declared, and nothing else. -/
structure Environment.Answers (env : Environment) (D : Declarations) : Prop where
  sets : ∀ f ∈ D.funcs, env.queryDomain f.name = .ok f.domain ∧ env.queryRange f.name = .ok f.range
  monoType : ∀ f ∈ D.funcs, env.queryMonoTypeEnv f.name = f.monoType
  undeclared : ∀ name, (∀ f ∈ D.funcs, f.name ≠ name) → env.queryMonoTypeEnv name = .none ∧
    (∃ e, env.queryDomain name = .error e) ∧ ∃ e, env.queryRange name = .error e
  inverse : ∀ name, env.funcInverse name = (D.inverses.lookup name).getD ""
  rules : env.uniQuantRules = D.rules

/-- A copy, with these inverses, is the set. -/
def FixedBy (inverses : List (String × String)) (s : Set) : Prop := s.copy ⟨[], inverses, []⟩ = .ok s

/-- Copying changes none of the sets that are declared, those of a new function and the sides of its rules included. -/
structure Environment.Settles (parse_set : ParseSet) (env : Environment) (f : UninterpFunc) : Prop where
  declared : ∀ p ∈ env.uninterpFuncMap, FixedBy (env.inserted f).inverseMap p.2.domain ∧
    FixedBy (env.inserted f).inverseMap p.2.range
  own : FixedBy (env.inserted f).inverseMap f.domain ∧ FixedBy (env.inserted f).inverseMap f.range
  inverse : f.isBijective = true → FixedBy env.inverseMap f.domain ∧ FixedBy env.inverseMap f.range
  sides : ∀ sides ∈ f.rules, ∀ side, side = sides.1 ∨ side = sides.2 → ∀ s,
    parse_set (env.inserted f).funcInverse (sideText side) = .ok s → FixedBy (env.inserted f).inverseMap s

/-- The condition of `Settles` for the calls that declare a function; and no rules where an environment starts anew. -/
def EnvCall.Settles (parse_set : ParseSet) (env : Environment) : EnvCall → Prop
  | .setEmpty => env.uniQuantRules = []
  | .setCurrEnv f => env.uniQuantRules = [] ∧ env.reset.Settles parse_set f
  | .appendCurrEnv f => env.Settles parse_set f
  | .addUniQuantRule _ => True

section Answers

variable {parse_set : ParseSet} {env env' : Environment} {f : UninterpFunc} {D : Declarations}

/-- The environment with just these declarations, all of whose sets copying leaves as they are. -/
structure Environment.Holds (env : Environment) (D : Declarations) : Prop where
  map : env.uninterpFuncMap = D.funcs.map UninterpFunc.entry
  inverseMap : env.inverseMap = D.inverses
  rules : env.uniQuantRules = D.rules
  nodup : env.names.Nodup
  keys : ∀ k, k ∉ env.names → env.inverseMap.lookup k = none
  fixed : ∀ f ∈ D.funcs, FixedBy D.inverses f.domain ∧ FixedBy D.inverses f.range

theorem FixedBy.copy {inverses : List (String × String)} {s : Set} (h : FixedBy inverses s)
    (he : env.inverseMap = inverses) : s.copy env = .ok s := by
  have hcopy : s.copy env = s.copy ⟨[], inverses, []⟩ := by
    refine Set.copy_congr (fun k => ?_) s
    unfold Environment.funcInverse
    rw [he]
  rw [hcopy]
  exact h

theorem Environment.insertAll_eq_append : ∀ {ps m : List (String × String)}, (∀ p ∈ ps, m.lookup p.1 = none) →
    (ps.map Prod.fst).Nodup → insertAll m ps = m ++ ps
  | [], m, _, _ => by simp [insertAll]
  | (k, v) :: rest, m, hm, hn => by
    obtain ⟨hk, hn⟩ := List.nodup_cons.1 hn
    have hnone : m.lookup k = none := hm (k, v) List.mem_cons_self
    unfold insertAll
    rw [hnone, insertAll_eq_append (fun p hp => ?_) hn]
    · simp
    · have hne : (p.1 == k) = false := by
        refine beq_eq_false_iff_ne.2 fun h => hk ?_
        exact List.mem_map.2 ⟨p, hp, h⟩
      simp [List.lookup_append, List.lookup_cons, hne, hm p (List.mem_cons_of_mem _ hp)]

theorem lookup_of_mem : ∀ {l : List (String × UninterpFunc)}, (l.map Prod.fst).Nodup → ∀ {p}, p ∈ l →
    l.lookup p.1 = some p.2
  | [], _, p, h => by cases h
  | (k, v) :: l, hn, p, h => by
    obtain ⟨hk, hn⟩ := List.nodup_cons.1 hn
    rcases List.mem_cons.1 h with rfl | h
    · simp
    · have hne : (p.1 == k) = false := by
        refine beq_eq_false_iff_ne.2 fun heq => hk ?_
        exact List.mem_map.2 ⟨p, h, heq⟩
      rw [List.lookup_cons, hne, lookup_of_mem hn h]

theorem Environment.Holds.answers (h : env.Holds D) : env.Answers D := by
  have hlookup : ∀ f ∈ D.funcs, env.uninterpFuncMap.lookup f.name = some f := by
    intro f hf
    have hmem : f.entry ∈ env.uninterpFuncMap := by
      rw [h.map]
      exact List.mem_map_of_mem hf
    exact lookup_of_mem h.nodup hmem
  refine ⟨fun f hf => ?_, fun f hf => ?_, fun name hname => ?_, fun name => ?_, h.rules⟩
  · unfold queryDomain queryRange
    rw [hlookup f hf]
    exact ⟨(h.fixed f hf).1.copy h.inverseMap, (h.fixed f hf).2.copy h.inverseMap⟩
  · unfold queryMonoTypeEnv
    rw [hlookup f hf]
    rfl
  · have hnone : env.uninterpFuncMap.lookup name = none := by
      refine Option.not_isSome_iff_eq_none.1 fun hsome => ?_
      rw [lookup_isSome, names, h.map, List.map_map] at hsome
      obtain ⟨f, hf, hn⟩ := List.mem_map.1 hsome
      exact hname f hf hn
    unfold queryMonoTypeEnv queryDomain queryRange
    rw [hnone]
    exact ⟨rfl, ⟨_, rfl⟩, _, rfl⟩
  · unfold funcInverse
    rw [h.inverseMap]

theorem UninterpFunc.copy_of_fixed {g : UninterpFunc} {inverses : List (String × String)}
    (hd : FixedBy inverses g.domain) (hr : FixedBy inverses g.range) (he : env.inverseMap = inverses) :
    g.copy env = .ok g :=
  copy_eq_ok.2 ⟨g.domain, g.range, hd.copy he, hr.copy he, rfl⟩

theorem nodup_inversePairs (f : UninterpFunc) : (f.inversePairs.map Prod.fst).Nodup := by
  unfold UninterpFunc.inversePairs
  split_ifs
  · simp [f.name_ne_invName]
  · simp

/-- The constructor makes the function and its inverse as they are declared, when copying changes neither set. -/
theorem MadeOf.eq_withInverse {gs : List UninterpFunc} (h : MadeOf env f gs)
    (hf : f.isBijective = true → FixedBy env.inverseMap f.domain ∧ FixedBy env.inverseMap f.range) :
    gs = f.withInverse := by
  unfold UninterpFunc.withInverse
  cases h with
  | alone hb => rw [hb]; rfl
  | withInverse hb hd hr =>
    obtain ⟨hfd, hfr⟩ := hf hb
    rw [(hfr.copy rfl)] at hd
    rw [(hfd.copy rfl)] at hr
    cases hd
    cases hr
    rw [if_pos hb]
    rfl

theorem mem_inversePairs {p : String × String} (h : p ∈ f.inversePairs) : ∃ g ∈ f.withInverse, g.name = p.1 := by
  unfold UninterpFunc.inversePairs at h
  unfold UninterpFunc.withInverse
  split_ifs at h ⊢ with hb
  · rcases List.mem_cons.1 h with rfl | h
    · exact ⟨f, List.mem_cons_self, rfl⟩
    · rw [List.mem_singleton.1 h]
      exact ⟨f.inverse, List.mem_cons_of_mem _ List.mem_cons_self, rfl⟩
  · cases h

/-- Each rule is what its two texts say, when copying does not change what they say. -/
theorem ruleOf_of_made {sides : String × String} {rule : UniQuantRule} {inverses : List (String × String)}
    (he : env.inverseMap = inverses)
    (hs : ∀ side, side = sides.1 ∨ side = sides.2 → ∀ s, parse_set env.funcInverse (sideText side) = .ok s →
      FixedBy inverses s)
    (h : UniQuantRule.monotonicity parse_set "[e1,e2]" sides.1 sides.2 env = .ok rule) :
    ruleOf parse_set env.funcInverse sides = .ok rule := by
  unfold UniQuantRule.monotonicity Set.ofString at h
  simp only [Outcome.bind_eq_ok] at h
  obtain ⟨l', ⟨l, hl, hcl⟩, r', ⟨r, hr, hcr⟩, hrule⟩ := h
  rw [(hs _ (.inl rfl) l hl).copy he] at hcl
  rw [(hs _ (.inr rfl) r hr).copy he] at hcr
  cases hcl
  cases hcr
  unfold ruleOf
  simp only [Outcome.bind_eq_ok]
  exact ⟨_, hl, _, hr, hrule⟩

/-- Declaring a function makes the environment hold the function as well. -/
theorem Environment.Holds.declare (h : env.Holds D) (hs : env.Settles parse_set f)
    (hrun : appendCurrEnv parse_set f env = .ok () env') : ∃ D', D.declare parse_set f = .ok D' ∧ env'.Holds D' := by
  obtain ⟨gs, hs', rules, hmade, hall, hrules, rfl, hfresh, hnodup⟩ := appendCurrEnv_ok hrun
  obtain rfl := hmade.eq_withInverse hs.inverse
  have hins : (env.inserted f).inverseMap = D.inverses ++ f.inversePairs := by
    rw [← h.inverseMap]
    refine insertAll_eq_append (fun p hp => h.keys p.1 ?_) (nodup_inversePairs f)
    obtain ⟨g, hg, hn⟩ := mem_inversePairs hp
    exact hn ▸ hfresh g hg
  have hfixed : ∀ g ∈ f.withInverse, FixedBy (env.inserted f).inverseMap g.domain ∧
      FixedBy (env.inserted f).inverseMap g.range := by
    intro g hg
    unfold UninterpFunc.withInverse at hg
    split_ifs at hg with hb
    · rcases List.mem_cons.1 hg with rfl | hg
      · exact hs.own
      · rw [List.mem_singleton.1 hg]
        exact ⟨hs.own.2, hs.own.1⟩
    · rw [List.mem_singleton.1 hg]
      exact hs.own
  have hcopies : f.withInverse = hs' := by
    refine List.forall₂_eq_eq_eq ▸ Outcome.forall₂_imp_mem hall fun g g' hg hc => ?_
    rw [UninterpFunc.copy_of_fixed (hfixed g hg).1 (hfixed g hg).2 rfl] at hc
    exact Except.ok.inj hc
  subst hcopies
  have hlookup : (env.inserted f).funcInverse = fun k => ((D.inverses ++ f.inversePairs).lookup k).getD "" := by
    funext k
    rw [funcInverse, hins]
  have hmap : f.rules.mapM (ruleOf parse_set fun k => ((D.inverses ++ f.inversePairs).lookup k).getD "") = .ok rules := by
    rw [← hlookup]
    refine Outcome.mapM_of_forall₂ (Outcome.forall₂_imp_mem hrules fun sides rule hmem hr => ?_)
    exact ruleOf_of_made rfl (hs.sides sides hmem) hr
  refine ⟨⟨D.funcs ++ f.withInverse, D.inverses ++ f.inversePairs, D.rules ++ rules⟩, ?_, ?_, hins, ?_,
    hnodup h.nodup, fun k hk => ?_, fun g hg => ?_⟩
  · unfold Declarations.declare
    rw [hmap]
    rfl
  · show env.uninterpFuncMap ++ f.withInverse.map UninterpFunc.entry = _
    rw [h.map, List.map_append]
  · show env.uniQuantRules ++ rules = _
    rw [h.rules]
  · have hnames : ((env.inserted f).withFuncs f.withInverse).names = env.names ++ f.withInverse.map UninterpFunc.name :=
      names_withFuncs _ _
    have hk' : k ∉ env.names ++ f.withInverse.map UninterpFunc.name := hnames ▸ hk
    rw [List.mem_append, not_or] at hk'
    show (insertAll env.inverseMap f.inversePairs).lookup k = none
    rw [lookup_insertAll, h.keys k hk'.1, Option.none_or, List.lookup_eq_none_iff]
    intro p hp
    obtain ⟨g, hg, hn⟩ := mem_inversePairs hp
    refine bne_iff_ne.2 fun heq => hk'.2 ?_
    exact List.mem_map.2 ⟨g, hg, hn.trans heq.symm⟩
  · rw [← hins]
    rcases List.mem_append.1 hg with hg | hg
    · refine hs.declared g.entry ?_
      rw [h.map]
      exact List.mem_map_of_mem hg
    · exact hfixed g hg

theorem holds_empty : (Environment.mk [] [] []).Holds ⟨[], [], []⟩ :=
  ⟨rfl, rfl, rfl, .nil, fun _ _ => rfl, fun _ h => by cases h⟩

end Answers

/-- In a run without a throw in which no rules are there when an environment starts anew and copying changes no declared
set, the queries answer exactly what the calls declare. -/
theorem queries_answer (parse_set : ParseSet) (calls : List EnvCall) (env : Environment)
    (h : EnvRun parse_set (EnvCall.Settles parse_set) calls env) :
    ∃ D, declared parse_set calls = .ok D ∧ env.Answers D := by
  suffices hholds : ∃ D, declared parse_set calls = .ok D ∧ env.Holds D by
    obtain ⟨D, hD, hh⟩ := hholds
    exact ⟨D, hD, hh.answers⟩
  induction h with
  | start => exact ⟨_, rfl, holds_empty⟩
  | @step calls call env env' _ hp hrun ih =>
    obtain ⟨D, hD, hh⟩ := ih
    suffices hstep : ∃ D', D.after parse_set call = .ok D' ∧ env'.Holds D' by
      obtain ⟨D', hD', hh'⟩ := hstep
      refine ⟨D', ?_, hh'⟩
      unfold declared at hD ⊢
      rw [List.foldlM_append, Outcome.bind_eq_ok]
      refine ⟨D, hD, ?_⟩
      rw [List.foldlM_cons, hD']
      rfl
    cases call with
    | setEmpty =>
      cases hrun
      refine ⟨⟨[], [], []⟩, rfl, ?_⟩
      unfold Environment.reset
      rw [hp]
      exact holds_empty
    | setCurrEnv f =>
      obtain ⟨_, _, hmod, hrun⟩ := Outcome.step_bind_eq_ok.1 hrun
      cases hmod
      obtain ⟨hnone, hs⟩ := hp
      have hempty : env.reset.Holds ⟨[], [], []⟩ := by
        unfold Environment.reset
        rw [hnone]
        exact holds_empty
      exact hempty.declare hs hrun
    | appendCurrEnv f => exact hh.declare hp hrun
    | addUniQuantRule rule =>
      cases hrun
      refine ⟨_, rfl, hh.map, hh.inverseMap, ?_, hh.nodup, hh.keys, hh.fixed⟩
      show env.uniQuantRules ++ [rule] = D.rules ++ [rule]
      rw [hh.rules]

/-- The set of pairs with one inequality. -/
def pairSet (e : List Term) : Set := ⟨2, [⟨[], [.mk .inequality e], ⟨[⟨false, 0, "e1"⟩, ⟨false, 0, "e2"⟩]⟩, 0⟩]⟩

/-- What the parser makes of the texts for a nondecreasing function `f`. -/
def parseSides : ParseSet := fun _ text =>
  if text = "\x7b[e1,e2] : e1 < e2 \x7d" then .ok (pairSet [.tupleVar (-1) 0, .tupleVar 1 1, .constVal (-1)])
  else if text = "\x7b[e1,e2] : f(e1) <= f(e2) \x7d" then
    .ok (pairSet [.ufCall (-1) "f" [.ofTerm (.tupleVar 1 0)] none, .ufCall 1 "f" [.ofTerm (.tupleVar 1 1)] none])
  else .error (.parseException "")

/-- The rule of a nondecreasing function is still there after `setCurrEnv()`. -/
theorem rules_stay : ∃ env, EnvRun parseSides (fun _ _ => True)
    [.appendCurrEnv ⟨"f", intSet, intSet, false, .nondecreasing⟩, .setEmpty] env ∧
      declared parseSides [.appendCurrEnv ⟨"f", intSet, intSet, false, .nondecreasing⟩, .setEmpty] = .ok ⟨[], [], []⟩ ∧
        env.uniQuantRules.length = 1 := by
  exact ⟨_, .step (.step .start trivial rfl) trivial rfl, rfl, rfl⟩

theorem queries_answer_nondecreasing : ∃ D, declared parseSides
    [.setEmpty, .appendCurrEnv ⟨"f", intSet, intSet, false, .nondecreasing⟩] = .ok D ∧ D.rules.length = 1 ∧
      ∃ env : Environment, env.Answers D := by
  have hs : (Environment.mk [] [] []).Settles parseSides ⟨"f", intSet, intSet, false, .nondecreasing⟩ := by
    refine ⟨fun p hp => (by cases hp), ⟨rfl, rfl⟩, fun h => (by cases h), fun sides hmem side hside s h => ?_⟩
    obtain rfl := List.mem_singleton.1 hmem
    rcases hside with rfl | rfl
    · cases h
      rfl
    · cases h
      rfl
  obtain ⟨D, hD, h⟩ := queries_answer parseSides
    [.setEmpty, .appendCurrEnv ⟨"f", intSet, intSet, false, .nondecreasing⟩] _
    (.step (.step .start rfl rfl) hs rfl)
  refine ⟨D, hD, ?_, _, h⟩
  cases hD
  rfl

end IEGen
