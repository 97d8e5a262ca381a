import IEGen.CurrEnv
import IEGen.Algebra

/-!
# What `appendCurrEnv` does

A copy of a set looks at the inverses alone (`Set.copy_congr`), so the functions and the rules that are added meanwhile
do not matter to it. With that the steps of `appendCurrEnv` are read off: the inverses go in first, then the functions
as copies, then the rules (`appendCurrEnv_ok`); a throw leaves what went in before it (`appendCurrEnv_error`).

* After a throw the queries answer as before iff nothing went in: `Undisturbed`.
-/

namespace IEGen

/-! ## What a copy looks at -/

section Frame

variable {env env' : Environment}

mutual
theorem Term.collapse_congr (h : ∀ f, env.funcInverse f = env'.funcInverse f) : ∀ t : Term,
    t.collapseNestedInvertibleFunctions env = t.collapseNestedInvertibleFunctions env'
  | .ufCall c f as i => by
    unfold Term.collapseNestedInvertibleFunctions
    rw [h f, argsCollapse_congr h as]
    congr 1
    funext b
    cases b with
    | false => rfl
    | true =>
      simp only [if_true]
      split
      · next k c' g saved rest j ts es =>
        rw [Exp.collapse_congr h saved]
      · rfl
  | .tupleVar .. | .symConst .. | .constVal _ | .tupleExp .. => rfl

theorem Exp.collapse_congr (h : ∀ f, env.funcInverse f = env'.funcInverse f) : ∀ e : Exp,
    e.collapseNestedInvertibleFunctions env = e.collapseNestedInvertibleFunctions env'
  | .mk _ ts => termsCollapse_congr h ts _

theorem argsCollapse_congr (h : ∀ f, env.funcInverse f = env'.funcInverse f) : ∀ es : List Exp,
    argsCollapse env es = argsCollapse env' es
  | [] => rfl
  | e :: es => by
    unfold argsCollapse
    rw [Exp.collapse_congr h e, argsCollapse_congr h es]

theorem termsCollapse_congr (h : ∀ f, env.funcInverse f = env'.funcInverse f) : ∀ (ts : List Term) (acc : Exp),
    termsCollapse env ts acc = termsCollapse env' ts acc
  | [], _ => rfl
  | t :: ts, acc => by
    unfold termsCollapse
    rw [Term.collapse_congr h t]
    exact congrArg _ (funext fun e => termsCollapse_congr h ts _)
end

theorem Conjunction.cleanUp_congr (h : ∀ f, env.funcInverse f = env'.funcInverse f) (c : Conjunction) :
    c.cleanUp env = c.cleanUp env' := by
  unfold Conjunction.cleanUp
  simp only [Exp.collapse_congr h]

/-- A copy looks at the inverses only. -/
theorem Set.copy_congr (h : ∀ f, env.funcInverse f = env'.funcInverse f) (s : Set) : s.copy env = s.copy env' := by
  unfold Set.copy copyConjunctions IEGen.cleanUp
  simp only [funext (Conjunction.cleanUp_congr h)]

end Frame
/-! ## What a call does -/

section Steps

variable {parse_set : ParseSet}

namespace UninterpFunc

/-- The names of a bijective function and its inverse, each with the other. -/
def inversePairs (f : UninterpFunc) : List (String × String) :=
  if f.isBijective then [(f.name, f.invName), (f.invName, f.name)] else []

/-- The entry of a function in the map of the declared functions. -/
def entry (f : UninterpFunc) : String × UninterpFunc := (f.name, f)

theorem copy_eq_ok {f g : UninterpFunc} {env : Environment} : f.copy env = .ok g ↔
    ∃ domain range, f.domain.copy env = .ok domain ∧ f.range.copy env = .ok range ∧
      g = { f with domain := domain, range := range } := by
  unfold copy
  simp only [Outcome.bind_eq_ok, Except.ok.injEq]
  constructor
  · rintro ⟨d, hd, r, hr, rfl⟩
    exact ⟨d, r, hd, hr, rfl⟩
  · rintro ⟨d, r, hd, hr, rfl⟩
    exact ⟨d, hd, r, hr, rfl⟩

theorem copy_congr {env env' : Environment} (h : ∀ f, env.funcInverse f = env'.funcInverse f) (f : UninterpFunc) :
    f.copy env = f.copy env' := by
  unfold copy
  rw [Set.copy_congr h f.domain, Set.copy_congr h f.range]

end UninterpFunc

/-- The environment in which `append` copies the new functions: their inverses are in already. -/
def Environment.inserted (env : Environment) (f : UninterpFunc) : Environment :=
  { env with inverseMap := insertAll env.inverseMap f.inversePairs }

/-- The functions that the constructor declares for one. -/
inductive MadeOf (env : Environment) (f : UninterpFunc) : List UninterpFunc → Prop
  | alone (h : f.isBijective = false) : MadeOf env f [f]
  | withInverse {domain range : Set} (h : f.isBijective = true) (hd : f.range.copy env = .ok domain)
      (hr : f.domain.copy env = .ok range) : MadeOf env f [f, ⟨f.invName, domain, range, true, .none⟩]

theorem inCurrEnv_eq_ok {α : Type} {make : Environment → Except Failure α} {env env' : Environment} {a : α} :
    inCurrEnv make env = .ok a env' ↔ make env = .ok a ∧ env' = env := by
  unfold inCurrEnv
  cases make env with
  | ok b => simp [eq_comm]
  | error e => simp

theorem inCurrEnv_eq_error {α : Type} {make : Environment → Except Failure α} {env env' : Environment} {e : Failure} :
    inCurrEnv make env = .error e env' ↔ make env = .error e ∧ env' = env := by
  unfold inCurrEnv
  cases make env with
  | ok b => simp
  | error e => simp [eq_comm]

theorem Environment.ofUninterpFunc_ok {f : UninterpFunc} {env env' other : Environment}
    (h : ofUninterpFunc f env = .ok other env') : env' = env ∧ other.inverseMap = f.inversePairs ∧
      ∃ gs, MadeOf env f gs ∧ other.uninterpFuncMap = gs.map UninterpFunc.entry := by
  unfold ofUninterpFunc at h
  unfold UninterpFunc.inversePairs
  by_cases hb : f.isBijective = true
  · rw [if_pos hb] at h ⊢
    simp only [Outcome.step_bind_eq_ok, inCurrEnv_eq_ok] at h
    obtain ⟨domain, _, ⟨hd, rfl⟩, range, _, ⟨hr, rfl⟩, h⟩ := h
    cases h
    exact ⟨rfl, rfl, _, .withInverse hb hd hr, rfl⟩
  · rw [if_neg hb] at h ⊢
    cases h
    exact ⟨rfl, rfl, _, .alone (Bool.eq_false_iff.2 hb), rfl⟩

theorem Environment.ofUninterpFunc_error {f : UninterpFunc} {env env' : Environment} {e : Failure}
    (h : ofUninterpFunc f env = .error e env') :
    env' = env ∧ f.isBijective = true ∧ ((∃ e, f.range.copy env = .error e) ∨ ∃ e, f.domain.copy env = .error e) := by
  unfold ofUninterpFunc at h
  by_cases hb : f.isBijective = true
  · rw [if_pos hb] at h
    simp only [Outcome.step_bind_eq_error, inCurrEnv_eq_ok, inCurrEnv_eq_error] at h
    rcases h with ⟨he, rfl⟩ | ⟨domain, _, ⟨-, rfl⟩, ⟨he, rfl⟩ | ⟨range, _, -, h⟩⟩
    · exact ⟨rfl, hb, .inl ⟨e, he⟩⟩
    · exact ⟨rfl, hb, .inr ⟨e, he⟩⟩
    · cases h
  · rw [if_neg hb] at h
    cases h

/-- The environment with more functions. -/
def Environment.withFuncs (env : Environment) (gs : List UninterpFunc) : Environment :=
  { env with uninterpFuncMap := env.uninterpFuncMap ++ gs.map UninterpFunc.entry }

/-- The environment with more rules. -/
def Environment.withRules (env : Environment) (rules : List UniQuantRule) : Environment :=
  { env with uniQuantRules := env.uniQuantRules ++ rules }

theorem UninterpFunc.copy_withFuncs (f : UninterpFunc) (env : Environment) (gs : List UninterpFunc) :
    f.copy (env.withFuncs gs) = f.copy env := by
  have h : ∀ k, (env.withFuncs gs).funcInverse k = env.funcInverse k := fun _ => rfl
  exact copy_congr h f

/-- The names of the declared functions. -/
def Environment.names (env : Environment) : List String := env.uninterpFuncMap.map Prod.fst

theorem Environment.lookup_isSome {env : Environment} {name : String} :
    (env.uninterpFuncMap.lookup name).isSome = true ↔ name ∈ env.names := by
  rw [List.lookup_isSome_iff]
  unfold names
  simp

/-- One turn of the loop of `append`. -/
theorem Environment.appendFuncs_cons (g : UninterpFunc) (gs : List UninterpFunc) (env : Environment) :
    appendFuncs ((g :: gs).map UninterpFunc.entry) env =
      if (env.uninterpFuncMap.lookup g.name).isSome then
        .error (.assertException "Environment::append: attempting to append duplicate UFs.") env
      else match g.copy env with
        | .ok g' => appendFuncs (gs.map UninterpFunc.entry) (env.withFuncs [g'])
        | .error e => .error e env := by
  rw [List.map_cons, show g.entry = (g.name, g) from rfl, appendFuncs.eq_2, Outcome.get_bind]
  by_cases hin : (env.uninterpFuncMap.lookup g.name).isSome = true
  · rw [if_pos hin, if_pos hin]
    rfl
  · rw [if_neg hin, if_neg hin]
    simp only [bind, EStateM.bind, inCurrEnv]
    cases hc : g.copy env with
    | error e => rfl
    | ok g' =>
      have hname : g'.name = g.name := by
        obtain ⟨_, _, _, _, rfl⟩ := UninterpFunc.copy_eq_ok.1 hc
        rfl
      have hadd : env.withFuncs [g'] = { env with uninterpFuncMap := env.uninterpFuncMap ++ [(g.name, g')] } := by
        simp [withFuncs, UninterpFunc.entry, hname]
      exact (congrArg (appendFuncs (gs.map UninterpFunc.entry)) hadd).symm

theorem Environment.names_withFuncs (env : Environment) (gs : List UninterpFunc) :
    (env.withFuncs gs).names = env.names ++ gs.map UninterpFunc.name := by
  simp [names, withFuncs, UninterpFunc.entry, Function.comp_def]

theorem Environment.withFuncs_withFuncs (env : Environment) (gs hs : List UninterpFunc) :
    (env.withFuncs gs).withFuncs hs = env.withFuncs (gs ++ hs) := by
  simp [withFuncs]

/-- The loop of `append` ends well when no name is there before, and copies each function. -/
theorem Environment.appendFuncs_ok : ∀ {gs : List UninterpFunc} {env env' : Environment},
    appendFuncs (gs.map UninterpFunc.entry) env = .ok () env' → ∃ hs,
      List.Forall₂ (fun g h => g.copy env = .ok h) gs hs ∧ env' = env.withFuncs hs ∧
        (∀ g ∈ gs, g.name ∉ env.names) ∧ (env.names.Nodup → env'.names.Nodup)
  | [], env, env', h => by
    cases h
    exact ⟨[], .nil, by simp [withFuncs], by simp, id⟩
  | g :: gs, env, env', h => by
    rw [appendFuncs_cons] at h
    by_cases hin : (env.uninterpFuncMap.lookup g.name).isSome = true
    · rw [if_pos hin] at h
      cases h
    · rw [if_neg hin] at h
      cases hc : g.copy env with
      | error e => rw [hc] at h; cases h
      | ok g' =>
        rw [hc] at h
        obtain ⟨hs, hall, rfl, hfresh, hnodup⟩ := appendFuncs_ok h
        have hname : g'.name = g.name := by
          obtain ⟨_, _, _, _, rfl⟩ := UninterpFunc.copy_eq_ok.1 hc
          rfl
        rw [lookup_isSome] at hin
        refine ⟨g' :: hs, .cons hc (hall.imp fun u v huv => ?_), withFuncs_withFuncs env [g'] hs, fun u hu => ?_,
          fun hn => hnodup ?_⟩
        · rw [UninterpFunc.copy_withFuncs] at huv
          exact huv
        · rcases List.mem_cons.1 hu with rfl | hu
          · exact hin
          · intro hmem
            refine hfresh u hu ?_
            rw [names_withFuncs]
            exact List.mem_append_left _ hmem
        · rw [names_withFuncs, List.nodup_append]
          simp only [List.map_cons, List.map_nil, List.mem_singleton, hname]
          exact ⟨hn, List.nodup_singleton _, fun a ha b hb hab => hin (hb ▸ hab ▸ ha)⟩

/-- A throw of the loop leaves the functions that were copied before. -/
theorem Environment.appendFuncs_error : ∀ {gs : List UninterpFunc} {env env' : Environment} {e : Failure},
    appendFuncs (gs.map UninterpFunc.entry) env = .error e env' → ∃ hs, env' = env.withFuncs hs ∧
      ∀ g ∈ gs.head?, (hs = [] ↔ g.name ∈ env.names ∨ ∃ e, g.copy env = .error e) ∧ (hs ≠ [] → g.name ∈ env'.names)
  | [], env, env', e, h => by cases h
  | g :: gs, env, env', e, h => by
    rw [appendFuncs_cons] at h
    by_cases hin : (env.uninterpFuncMap.lookup g.name).isSome = true
    · rw [if_pos hin] at h
      cases h
      exact ⟨[], by simp [withFuncs], by simp [lookup_isSome.1 hin]⟩
    · rw [if_neg hin] at h
      cases hc : g.copy env with
      | error e' =>
        rw [hc] at h
        cases h
        exact ⟨[], by simp [withFuncs], by simp [hc]⟩
      | ok g' =>
        rw [hc] at h
        obtain ⟨hs, rfl, -⟩ := appendFuncs_error h
        have hname : g'.name = g.name := by
          obtain ⟨_, _, _, _, rfl⟩ := UninterpFunc.copy_eq_ok.1 hc
          rfl
        rw [lookup_isSome] at hin
        refine ⟨g' :: hs, withFuncs_withFuncs env [g'] hs, fun u hu => ?_⟩
        obtain rfl : g = u := by simpa using hu
        refine ⟨by simp [hin, hc], fun _ => ?_⟩
        rw [names_withFuncs, names_withFuncs]
        simp [hname]

theorem addMonotonicityRules_cons (sides : String × String) (rest : List (String × String)) (env : Environment) :
    addMonotonicityRules parse_set (sides :: rest) env =
      match UniQuantRule.monotonicity parse_set "[e1,e2]" sides.1 sides.2 env with
      | .ok rule => addMonotonicityRules parse_set rest (env.withRules [rule])
      | .error e => .error e env := by
  obtain ⟨l, r⟩ := sides
  rw [addMonotonicityRules.eq_2]
  simp only [bind, EStateM.bind, inCurrEnv]
  cases UniQuantRule.monotonicity parse_set "[e1,e2]" l r env with
  | error e => rfl
  | ok rule => rfl

theorem UniQuantRule.monotonicity_withRules (t l r : String) (env : Environment) (rules : List UniQuantRule) :
    monotonicity parse_set t l r (env.withRules rules) = monotonicity parse_set t l r env := by
  have hcopy : ∀ s : Set, s.copy (env.withRules rules) = s.copy env := Set.copy_congr fun _ => rfl
  have hinv : (env.withRules rules).funcInverse = env.funcInverse := rfl
  unfold monotonicity Set.ofString
  simp only [hcopy, hinv]

theorem UniQuantRule.monotonicity_withFuncs (t l r : String) (env : Environment) (gs : List UninterpFunc) :
    monotonicity parse_set t l r (env.withFuncs gs) = monotonicity parse_set t l r env := by
  have hcopy : ∀ s : Set, s.copy (env.withFuncs gs) = s.copy env := Set.copy_congr fun _ => rfl
  have hinv : (env.withFuncs gs).funcInverse = env.funcInverse := rfl
  unfold monotonicity Set.ofString
  simp only [hcopy, hinv]

theorem addMonotonicityRules_ok : ∀ {sides : List (String × String)} {env env' : Environment},
    addMonotonicityRules parse_set sides env = .ok () env' → ∃ rules,
      List.Forall₂ (fun s r => UniQuantRule.monotonicity parse_set "[e1,e2]" s.1 s.2 env = .ok r) sides rules ∧
        env' = env.withRules rules
  | [], env, env', h => by
    cases h
    exact ⟨[], .nil, by simp [Environment.withRules]⟩
  | s :: sides, env, env', h => by
    rw [addMonotonicityRules_cons] at h
    cases hr : UniQuantRule.monotonicity parse_set "[e1,e2]" s.1 s.2 env with
    | error e => rw [hr] at h; cases h
    | ok rule =>
      rw [hr] at h
      obtain ⟨rules, hall, rfl⟩ := addMonotonicityRules_ok h
      refine ⟨rule :: rules, .cons hr (hall.imp fun u v huv => ?_), by simp [Environment.withRules]⟩
      rw [UniQuantRule.monotonicity_withRules] at huv
      exact huv

theorem addMonotonicityRules_error : ∀ {sides : List (String × String)} {env env' : Environment} {e : Failure},
    addMonotonicityRules parse_set sides env = .error e env' → ∃ rules, env' = env.withRules rules
  | [], env, env', e, h => by cases h
  | s :: sides, env, env', e, h => by
    rw [addMonotonicityRules_cons] at h
    cases hr : UniQuantRule.monotonicity parse_set "[e1,e2]" s.1 s.2 env with
    | error e' =>
      rw [hr] at h
      cases h
      exact ⟨[], by simp [Environment.withRules]⟩
    | ok rule =>
      rw [hr] at h
      obtain ⟨rules, rfl⟩ := addMonotonicityRules_error h
      exact ⟨rule :: rules, by simp [Environment.withRules]⟩

/-- What `appendCurrEnv` has done when it returns. -/
theorem appendCurrEnv_ok {f : UninterpFunc} {env env' : Environment} (h : appendCurrEnv parse_set f env = .ok () env') :
    ∃ gs hs rules, MadeOf env f gs ∧ List.Forall₂ (fun g h => g.copy (env.inserted f) = .ok h) gs hs ∧
      List.Forall₂ (fun s r => UniQuantRule.monotonicity parse_set "[e1,e2]" s.1 s.2 (env.inserted f) = .ok r) f.rules rules ∧
      env' = ((env.inserted f).withFuncs hs).withRules rules ∧ (∀ g ∈ gs, g.name ∉ env.names) ∧
      (env.names.Nodup → env'.names.Nodup) := by
  unfold appendCurrEnv Environment.append at h
  simp only [Outcome.step_bind_eq_ok] at h
  obtain ⟨other, _, hmake, _, env₁, ⟨_, _, hmod, hloop⟩, hrules⟩ := h
  obtain ⟨rfl, hinv, gs, hgs, hmap⟩ := Environment.ofUninterpFunc_ok hmake
  cases hmod
  rw [hmap, hinv] at hloop
  obtain ⟨hs, hall, rfl, hfresh, hnodup⟩ := Environment.appendFuncs_ok hloop
  obtain ⟨rules, hmade, rfl⟩ := addMonotonicityRules_ok hrules
  refine ⟨gs, hs, rules, hgs, hall, hmade.imp fun s r hr => ?_, rfl, hfresh, hnodup⟩
  rw [UniQuantRule.monotonicity_withFuncs] at hr
  exact hr

/-- A set that the constructor copies for the inverse cannot be copied. -/
def UninterpFunc.InverseFails (f : UninterpFunc) (env : Environment) : Prop :=
  f.isBijective = true ∧ ((∃ e, f.range.copy env = .error e) ∨ ∃ e, f.domain.copy env = .error e)

theorem MadeOf.not_inverseFails {f : UninterpFunc} {env : Environment} {gs : List UninterpFunc} (h : MadeOf env f gs) :
    ¬ f.InverseFails env := by
  rintro ⟨hb, hf⟩
  cases h with
  | alone h => rw [hb] at h; cases h
  | withInverse _ hd hr =>
    rcases hf with ⟨e, he⟩ | ⟨e, he⟩
    · rw [hd] at he; cases he
    · rw [hr] at he; cases he

theorem MadeOf.eq_cons {f : UninterpFunc} {env : Environment} {gs : List UninterpFunc} (h : MadeOf env f gs) :
    ∃ rest, gs = f :: rest := by
  cases h with
  | alone => exact ⟨[], rfl⟩
  | withInverse => exact ⟨_, rfl⟩

/-- What `appendCurrEnv` has done when it throws: nothing, the inverses, or the function as well. -/
theorem appendCurrEnv_error {f : UninterpFunc} {env env' : Environment} {e : Failure}
    (h : appendCurrEnv parse_set f env = .error e env') :
    (env' = env ∧ f.InverseFails env) ∨
    (¬ f.InverseFails env ∧ ((env' = env.inserted f ∧ (f.name ∈ env.names ∨ ∃ e, f.copy (env.inserted f) = .error e)) ∨
      ((f.name ∉ env.names ∧ ¬ ∃ e, f.copy (env.inserted f) = .error e) ∧ f.name ∈ env'.names))) := by
  unfold appendCurrEnv Environment.append at h
  simp only [Outcome.step_bind_eq_error, Outcome.step_bind_eq_ok] at h
  rcases h with h | ⟨other, _, hmake, h⟩
  · exact .inl (Environment.ofUninterpFunc_error h)
  · obtain ⟨rfl, hinv, gs, hgs, hmap⟩ := Environment.ofUninterpFunc_ok hmake
    obtain ⟨rest, rfl⟩ := hgs.eq_cons
    refine .inr ⟨hgs.not_inverseFails, ?_⟩
    rcases h with (h | ⟨_, _, hmod, h⟩) | ⟨_, env₁, ⟨_, _, hmod, hloop⟩, h⟩
    · cases h
    · cases hmod
      rw [hmap, hinv] at h
      obtain ⟨hs, rfl, hhead⟩ := Environment.appendFuncs_error h
      obtain ⟨hnil, hmem⟩ := hhead f rfl
      by_cases hempty : hs = []
      · subst hempty
        refine .inl ⟨?_, hnil.1 rfl⟩
        simp [Environment.withFuncs, Environment.inserted]
      · refine .inr ⟨?_, hmem hempty⟩
        rw [← not_or]
        exact fun hor => hempty (hnil.2 hor)
    · cases hmod
      rw [hmap, hinv] at hloop
      obtain ⟨hs, hall, rfl, hfresh, -⟩ := Environment.appendFuncs_ok hloop
      obtain ⟨rules, rfl⟩ := addMonotonicityRules_error h
      obtain ⟨f', hs, hc, -, rfl⟩ := List.forall₂_cons_left_iff.1 hall
      have hname : f'.name = f.name := by
        obtain ⟨_, _, _, _, rfl⟩ := UninterpFunc.copy_eq_ok.1 hc
        rfl
      refine .inr ⟨⟨hfresh f List.mem_cons_self, ?_⟩, ?_⟩
      · rintro ⟨e, he⟩
        exact absurd (he.symm.trans hc) (by simp)
      · show f.name ∈ (Environment.withFuncs _ (f' :: hs)).names
        rw [Environment.names_withFuncs]
        simp [hname]

/-! ## The inverses -/

theorem UninterpFunc.name_ne_invName (f : UninterpFunc) : f.name ≠ f.invName := by
  intro h
  have hlen := congrArg String.length h
  simp [invName] at hlen

theorem Environment.lookup_insertAll (k : String) : ∀ (ps m : List (String × String)),
    (insertAll m ps).lookup k = (m.lookup k).or (ps.lookup k)
  | [], m => by simp [insertAll]
  | (key, value) :: rest, m => by
    unfold insertAll
    rw [lookup_insertAll k rest]
    by_cases hk : key = k
    · subst hk
      cases hm : m.lookup key with
      | some v => simp [hm]
      | none => simp [hm, List.lookup_append]
    · have hne : (k == key) = false := by simpa using Ne.symm hk
      split_ifs
      · rw [List.lookup_cons, hne]
      · rw [List.lookup_append, List.lookup_cons, List.lookup_cons, hne, List.lookup_nil, Option.or_none]

theorem Environment.funcInverse_inserted (env : Environment) (f : UninterpFunc) (k : String) :
    (env.inserted f).funcInverse k = ((env.inverseMap.lookup k).or (f.inversePairs.lookup k)).getD "" := by
  unfold inserted funcInverse
  rw [lookup_insertAll]

end Steps

/-! ## A throw of `appendCurrEnv` -/

/-- The environments answer every query alike. -/
structure Environment.SameAnswers (env env' : Environment) : Prop where
  declared : ∀ name, name ∈ env'.names ↔ name ∈ env.names
  domain : ∀ name, env'.queryDomain name = env.queryDomain name
  range : ∀ name, env'.queryRange name = env.queryRange name
  inverse : ∀ name, env'.funcInverse name = env.funcInverse name
  monoType : ∀ name, env'.queryMonoTypeEnv name = env.queryMonoTypeEnv name
  rules : env'.uniQuantRules = env.uniQuantRules

/-- A declaration that throws changes nothing: before anything is done, or when the function is there already and so
are the inverses, if it is bijective. -/
def Environment.Undisturbed (env : Environment) (f : UninterpFunc) : Prop :=
  f.InverseFails env ∨ ((f.name ∈ env.names ∨ ∃ e, f.copy (env.inserted f) = .error e) ∧
    ∀ p ∈ f.inversePairs, (env.inverseMap.lookup p.1).isSome = true ∨ p.2 = "")

theorem Environment.funcInverse_inserted_eq_iff {env : Environment} {f : UninterpFunc} :
    (∀ k, (env.inserted f).funcInverse k = env.funcInverse k) ↔
      ∀ p ∈ f.inversePairs, (env.inverseMap.lookup p.1).isSome = true ∨ p.2 = "" := by
  have hne := f.name_ne_invName
  constructor
  · intro h p hp
    have hk := h p.1
    rw [funcInverse_inserted] at hk
    have hl : f.inversePairs.lookup p.1 = some p.2 := by
      unfold UninterpFunc.inversePairs at hp ⊢
      split_ifs at hp ⊢
      · rcases List.mem_cons.1 hp with rfl | hp
        · simp
        · obtain rfl := List.mem_singleton.1 hp
          have hb : (f.invName == f.name) = false := by simpa using hne.symm
          simp [List.lookup_cons, hb]
      · cases hp
    cases hm : env.inverseMap.lookup p.1 with
    | some v => exact .inl rfl
    | none =>
      rw [hm, hl] at hk
      unfold funcInverse at hk
      rw [hm] at hk
      exact .inr hk
  · intro h k
    rw [funcInverse_inserted]
    unfold funcInverse
    cases hm : env.inverseMap.lookup k with
    | some v => rfl
    | none =>
      cases hl : f.inversePairs.lookup k with
      | none => rfl
      | some v =>
        have hmem : (k, v) ∈ f.inversePairs := by
          obtain ⟨l₁, l₂, heq, -⟩ := List.lookup_eq_some_iff.1 hl
          simp [heq]
        rcases h _ hmem with h | h
        · rw [hm] at h; cases h
        · exact h

theorem Environment.query_congr {env env' : Environment} (hm : env'.uninterpFuncMap = env.uninterpFuncMap)
    (hi : ∀ k, env'.funcInverse k = env.funcInverse k) (name : String) :
    env'.queryDomain name = env.queryDomain name ∧ env'.queryRange name = env.queryRange name := by
  unfold queryDomain queryRange
  rw [hm]
  cases env.uninterpFuncMap.lookup name with
  | none => exact ⟨rfl, rfl⟩
  | some f => exact ⟨Set.copy_congr hi f.domain, Set.copy_congr hi f.range⟩

/-- The answers after a throw are those from before iff the declaration leaves the environment undisturbed. -/
theorem appendCurrEnv_throws (parse_set : ParseSet) (env env' : Environment) (f : UninterpFunc)
    (e : Failure) (h : appendCurrEnv parse_set f env = .error e env') :
    Environment.SameAnswers env env' ↔ env.Undisturbed f := by
  rcases appendCurrEnv_error h with ⟨rfl, hfail⟩ | ⟨hfail, h | ⟨⟨hnew, hcopy⟩, hin⟩⟩
  · exact ⟨fun _ => .inl hfail, fun _ => ⟨fun _ => .rfl, fun _ => rfl, fun _ => rfl, fun _ => rfl, fun _ => rfl, rfl⟩⟩
  · obtain ⟨rfl, hwhy⟩ := h
    constructor
    · intro hsame
      exact .inr ⟨hwhy, Environment.funcInverse_inserted_eq_iff.1 hsame.inverse⟩
    · rintro (hf | ⟨-, hinv⟩)
      · exact absurd hf hfail
      · have heq := Environment.funcInverse_inserted_eq_iff.2 hinv
        have hmap : (env.inserted f).uninterpFuncMap = env.uninterpFuncMap := rfl
        have hquery := Environment.query_congr hmap heq
        exact ⟨fun _ => .rfl, fun name => (hquery name).1, fun name => (hquery name).2, heq, fun _ => rfl, rfl⟩
  · constructor
    · intro hsame
      exact absurd ((hsame.declared f.name).1 hin) hnew
    · rintro (hf | ⟨hin' | he, -⟩)
      · exact absurd hf hfail
      · exact absurd hin' hnew
      · exact absurd he hcopy

/-! ## Runs -/

/-- The environment after a sequence of calls none of which throws, each with a condition on the state before it. -/
inductive EnvRun (parse_set : ParseSet) (P : Environment → EnvCall → Prop) :
    List EnvCall → Environment → Prop
  | start : EnvRun parse_set P [] ⟨[], [], []⟩
  | step {calls : List EnvCall} {call : EnvCall} {env env' : Environment} (h : EnvRun parse_set P calls env)
      (hp : P env call) (hrun : call.run parse_set env = .ok () env') : EnvRun parse_set P (calls ++ [call]) env'

/-- `{ [i] }` -/
def intSet : Set := ⟨1, [.ofTupleDecl ⟨[⟨false, 0, "i"⟩]⟩]⟩

/-- No text is parsed. -/
def noText : ParseSet := fun _ _ => .error (.parseException "")

/-- When `f_inv` is declared already, `f` stays declared after the throw, as the inverse of `f_inv`. -/
theorem throw_disturbs : ∃ env env' e,
    EnvRun noText (fun _ _ => True) [.appendCurrEnv ⟨"f_inv", intSet, intSet, false, .none⟩] env ∧
      appendCurrEnv noText ⟨"f", intSet, intSet, true, .none⟩ env = .error e env' ∧ ¬ Environment.SameAnswers env env' ∧
      "f" ∉ env.names ∧ "f" ∈ env'.names ∧ env'.funcInverse "f_inv" = "f" := by
  refine ⟨_, _, _, .step .start trivial rfl, rfl, fun h => ?_, by decide, by decide, rfl⟩
  exact absurd ((h.declared "f").1 (by decide)) (by decide)

theorem throw_keeps_duplicate : Environment.SameAnswers ⟨[("f", ⟨"f", intSet, intSet, false, .none⟩)], [], []⟩
    ⟨[("f", ⟨"f", intSet, intSet, false, .none⟩)], [], []⟩ := by
  refine (appendCurrEnv_throws noText _ _ ⟨"f", intSet, intSet, false, .none⟩ _ rfl).2 (.inr ⟨.inl (by decide), ?_⟩)
  intro p hp
  cases hp

end IEGen
