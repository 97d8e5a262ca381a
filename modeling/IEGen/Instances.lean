import Mathlib.Data.Finset.Lattice.Lemmas
import Mathlib.Data.Finset.Dedup
import IEGen.CurrEnv
import IEGen.SuperAffine
import IEGen.Parts

/-!
# Instances of rules

`ruleInstantiation` goes over the rules of the environment and replaces their two variables by every ordered pair of
expressions. Which rules it takes is read off an array at the number of the type of the rule. It ends well where the array has
an entry for every type there is and nothing is thrown, and has then put together what `instantiate` returns for the selected
rules at the pairs (`ruleInstantiation_eq_ok_iff`).
-/

namespace IEGen

open Outcome (bind_eq_ok)

/-! ## Types of rules -/

/-- The type that the constructor of `UniQuantRule` finds for a text. -/
def uniQuantRuleTypeOf (type : String) : UniQuantRuleType :=
  if type = "Monotonicity" then .monotonicity
  else if type = "CoMonotonicity" then .coMonotonicity
  else if type = "Triangularity" then .triangularity
  else if type = "FuncConsistency" then .funcConsistency
  else .theOthers

/-- The number of a type in the enumeration. -/
def UniQuantRuleType.toNat : UniQuantRuleType → Nat
  | .monotonicity => 0
  | .coMonotonicity => 1
  | .triangularity => 2
  | .domainRange => 3
  | .funcConsistency => 4
  | .theOthers => 5

/-- `UniQuantRule(string, string, string, string)` -/
def UniQuantRule.ofStrings (parse_set : ParseSet) (type tupleDecl leftSide rightSide : String) (env : Environment) :
    Except Failure UniQuantRule := do
  .ok ⟨uniQuantRuleTypeOf type, ← Set.ofString parse_set ("\x7b" ++ tupleDecl ++ " : " ++ leftSide ++ " \x7d") env,
    ← Set.ofString parse_set ("\x7b" ++ tupleDecl ++ " : " ++ rightSide ++ " \x7d") env⟩

/-- The rules of a monotonic function are those with the type `Monotonicity`. -/
theorem UniQuantRule.ofStrings_monotonicity (parse_set : ParseSet) (tupleDecl leftSide rightSide : String) :
    UniQuantRule.ofStrings parse_set "Monotonicity" tupleDecl leftSide rightSide =
      UniQuantRule.monotonicity parse_set tupleDecl leftSide rightSide := rfl

/-! ## One instance -/

/-- `Set::substituteInConstraints` -/
def Set.substituteInConstraints (env : Environment) (m : SubMap) (s : Set) : Except Failure Set := do
  .ok { s with conjunctions := ← s.conjunctions.mapM (Conjunction.substituteInConstraints env m) }

/-- The constraints of a printed side, with `true` and `false` in words. -/
def sideToIsl (constraints : String) : String :=
  let constraints := String.ofList (trim constraints.toList)
  if constraints = "" then "true"
  else if constraints = "FALSE" then "false"
  else constraints

/-- `instantiate`, with the map after it. -/
def instantiate (env : Environment) (uqRule : UniQuantRule) (x1 x2 : Exp) (ufcmap : UFCallMap) (origTupleDecl : TupleDecl) :
    Except Failure ((String × String) × UFCallMap) := do
  let subMap : SubMap := [(.tupleVar 1 0, some x1), (.tupleVar 1 1, some x2)]
  let leftSideOfTheRule ← uqRule.leftSide.copy env
  let rightSideOfTheRule ← uqRule.rightSide.copy env
  let leftSideOfTheRule ← leftSideOfTheRule.substituteInConstraints env subMap
  let rightSideOfTheRule ← rightSideOfTheRule.substituteInConstraints env subMap
  let leftSideOfTheRule ← leftSideOfTheRule.setTupleDecl origTupleDecl
  let rightSideOfTheRule ← rightSideOfTheRule.setTupleDecl origTupleDecl
  let (supAffLeft, ufcmap) ← leftSideOfTheRule.superAffineSet env ufcmap false
  let (supAffRight, ufcmap) ← rightSideOfTheRule.superAffineSet env ufcmap false
  let subLeftSideParts := getPartsFromStr (← supAffLeft.prettyPrintString env)
  let subRightSideParts := getPartsFromStr (← supAffRight.prettyPrintString env)
  .ok ((sideToIsl subLeftSideParts.constraints, sideToIsl subRightSideParts.constraints), ufcmap)

/-! ## All instances -/

/-- How `ruleInstantiation` ends without a result: an access outside of the array, or an exception. -/
inductive InstantiationFault where
  | outOfBounds (index : Nat)
  | thrown (failure : Failure)
  deriving DecidableEq

/-- The set of the instantiations so far, and the map. -/
abbrev Instantiated := Finset (String × String) × UFCallMap

section RuleInstantiation

variable (env : Environment) (instExps : List Exp) (origTupleDecl : TupleDecl)

/-- The instance at one pair is put into the set. -/
def insertInstance (uqRule : UniQuantRule) (st : Instantiated) (x1 x2 : Exp) : Except InstantiationFault Instantiated :=
  match instantiate env uqRule x1 x2 st.2 origTupleDecl with
  | .ok (instantiation, ufcmap) => .ok (insert instantiation st.1, ufcmap)
  | .error failure => .error (.thrown failure)

/-- The loops over the expressions. -/
def instantiateAtPairs (uqRule : UniQuantRule) (st : Instantiated) : Except InstantiationFault Instantiated :=
  instExps.foldlM (fun st x1 => instExps.foldlM (fun st x2 => insertInstance env origTupleDecl uqRule st x1 x2) st) st

/-- The array that stands for no selection. -/
def defaultUseRule : List Bool := List.replicate UniQuantRuleType.theOthers.toNat true

/-- One rule: its type is looked up in the array. -/
def instantiateRule (useRule : List Bool) (st : Instantiated) (uqRule : UniQuantRule) :
    Except InstantiationFault Instantiated :=
  match useRule[uqRule.type.toNat]? with
  | none => .error (.outOfBounds uqRule.type.toNat)
  | some false => .ok st
  | some true => instantiateAtPairs env instExps origTupleDecl uqRule st

/-- `ruleInstantiation`, with the map after it; a null pointer for `useRule` is `none`. -/
def ruleInstantiation (useRule : Option (List Bool)) (ufcmap : UFCallMap) : Except InstantiationFault Instantiated :=
  env.uniQuantRules.foldlM (instantiateRule env instExps origTupleDecl (useRule.getD defaultUseRule)) (∅, ufcmap)

end RuleInstantiation

/-! ## Rules at pairs -/

/-- The rules that are selected: all of them if no selection is given, else those whose type has its flag set. -/
def selectedRules (rules : List UniQuantRule) : Option (List Bool) → List UniQuantRule
  | none => rules
  | some useRule => rules.filter (fun r => useRule.getD r.type.toNat false)

/-- Every selected rule with every ordered pair of expressions. -/
def rulesAtPairs (rules : List UniQuantRule) (instExps : List Exp) (useRule : Option (List Bool)) :
    List (UniQuantRule × Exp × Exp) :=
  (selectedRules rules useRule).flatMap fun r => instExps.flatMap fun x1 => instExps.map fun x2 => (r, x1, x2)

section Instances

variable (env : Environment) (origTupleDecl : TupleDecl)

/-- What `instantiate` returns for rules at pairs, one after the other. -/
def instances : List (UniQuantRule × Exp × Exp) → UFCallMap → Except Failure (List (String × String) × UFCallMap)
  | [], ufcmap => .ok ([], ufcmap)
  | (uqRule, x1, x2) :: rest, ufcmap => do
    let (instantiation, ufcmap) ← instantiate env uqRule x1 x2 ufcmap origTupleDecl
    let (instantiations, ufcmap) ← instances rest ufcmap
    .ok (instantiation :: instantiations, ufcmap)

/-- The number of entries of the array that is indexed. -/
def useRuleSize (useRule : Option (List Bool)) : Nat := (useRule.getD defaultUseRule).length

end Instances

section Right

variable {env : Environment} {instExps : List Exp} {origTupleDecl : TupleDecl}

/-- The instances put into the set one after the other. -/
def insertInstances (env : Environment) (origTupleDecl : TupleDecl) (ts : List (UniQuantRule × Exp × Exp))
    (st : Instantiated) : Except InstantiationFault Instantiated :=
  ts.foldlM (fun st t => insertInstance env origTupleDecl t.1 st t.2.1 t.2.2) st

theorem instantiateAtPairs_eq (uqRule : UniQuantRule) (st : Instantiated) :
    instantiateAtPairs env instExps origTupleDecl uqRule st = insertInstances env origTupleDecl
      (instExps.flatMap fun x1 => instExps.map fun x2 => (uqRule, x1, x2)) st := by
  unfold instantiateAtPairs insertInstances
  have hpairs : ∀ es : List Exp, ∀ st : Instantiated,
      es.foldlM (fun st x1 => instExps.foldlM (fun st x2 => insertInstance env origTupleDecl uqRule st x1 x2) st) st =
        (es.flatMap fun x1 => instExps.map fun x2 => (uqRule, x1, x2)).foldlM
          (fun st t => insertInstance env origTupleDecl t.1 st t.2.1 t.2.2) st := by
    intro es
    induction es with
    | nil => exact fun _ => rfl
    | cons x1 es ih =>
      intro st
      rw [List.foldlM_cons, List.flatMap_cons, List.foldlM_append, List.foldlM_map]
      exact congrArg _ (funext ih)
  exact hpairs instExps st

theorem insertInstances_append (ts us : List (UniQuantRule × Exp × Exp)) (st : Instantiated) :
    insertInstances env origTupleDecl (ts ++ us) st =
      (insertInstances env origTupleDecl ts st).bind (insertInstances env origTupleDecl us) := List.foldlM_append

/-- The set after the insertions has what it had and the instances, and the map is that of the instances. -/
theorem insertInstances_eq_ok_iff : ∀ {ts : List (UniQuantRule × Exp × Exp)} {st st' : Instantiated},
    insertInstances env origTupleDecl ts st = .ok st' ↔ ∃ instantiations,
      instances env origTupleDecl ts st.2 = .ok (instantiations, st'.2) ∧ st'.1 = st.1 ∪ instantiations.toFinset
  | [], st, st' => by
    constructor
    · intro h
      cases h
      exact ⟨[], rfl, by simp⟩
    · rintro ⟨instantiations, h, hset⟩
      obtain ⟨rfl, hmap⟩ := Prod.mk.inj (Except.ok.inj h)
      have heq : st' = st := Prod.ext (by simpa using hset) hmap.symm
      rw [heq]
      rfl
  | (uqRule, x1, x2) :: ts, st, st' => by
    have hstep : insertInstances env origTupleDecl ((uqRule, x1, x2) :: ts) st =
        insertInstance env origTupleDecl uqRule st x1 x2 >>= insertInstances env origTupleDecl ts := List.foldlM_cons
    rw [hstep, bind_eq_ok]
    unfold insertInstance instances
    cases hinst : instantiate env uqRule x1 x2 st.2 origTupleDecl with
    | error e =>
      constructor
      · rintro ⟨_, h, -⟩
        cases h
      · rintro ⟨_, h, -⟩
        cases h
    | ok p =>
      obtain ⟨instantiation, ufcmap⟩ := p
      simp only [Except.ok.injEq, exists_eq_left', bind_eq_ok, insertInstances_eq_ok_iff]
      constructor
      · rintro ⟨instantiations, h, hset⟩
        refine ⟨instantiation :: instantiations, ⟨_, h, rfl⟩, ?_⟩
        rw [hset, List.toFinset_cons, Finset.insert_union, Finset.union_insert]
      · rintro ⟨_, ⟨⟨instantiations, ufcmap'⟩, h, hcons⟩, hset⟩
        obtain ⟨rfl, rfl⟩ := Prod.mk.inj hcons
        refine ⟨instantiations, h, ?_⟩
        rw [hset, List.toFinset_cons, Finset.insert_union, Finset.union_insert]

/-- The fold over the rules ends well just when every type has an entry and every instance can be made. -/
theorem foldlM_instantiateRule_eq_ok_iff {useRule : List Bool} {st' : Instantiated} : ∀ {rules : List UniQuantRule}
    {st : Instantiated}, rules.foldlM (instantiateRule env instExps origTupleDecl useRule) st = .ok st' ↔
      (∀ r ∈ rules, r.type.toNat < useRule.length) ∧
        insertInstances env origTupleDecl (rulesAtPairs rules instExps (some useRule)) st = .ok st'
  | [], st => by simp [rulesAtPairs, selectedRules, insertInstances]
  | r :: rules, st => by
    rw [List.foldlM_cons, bind_eq_ok, List.forall_mem_cons]
    simp only [foldlM_instantiateRule_eq_ok_iff]
    unfold instantiateRule
    cases hflag : useRule[r.type.toNat]? with
    | none =>
      have hlen : ¬ r.type.toNat < useRule.length := by
        rw [List.getElem?_eq_none_iff] at hflag
        omega
      constructor
      · rintro ⟨_, h, -⟩
        cases h
      · rintro ⟨⟨h, -⟩, -⟩
        exact absurd h hlen
    | some flag =>
      have hlen : r.type.toNat < useRule.length := (List.getElem?_eq_some_iff.1 hflag).1
      have hget : useRule.getD r.type.toNat false = flag := by rw [List.getD_eq_getElem?_getD, hflag, Option.getD_some]
      cases flag with
      | false =>
        have hdrop : rulesAtPairs (r :: rules) instExps (some useRule) = rulesAtPairs rules instExps (some useRule) := by
          simp only [rulesAtPairs, selectedRules, List.filter_cons, hget, Bool.false_eq_true, if_false]
        rw [hdrop]
        simp only [Except.ok.injEq, exists_eq_left', hlen, true_and]
      | true =>
        have hkeep : rulesAtPairs (r :: rules) instExps (some useRule) =
            (instExps.flatMap fun x1 => instExps.map fun x2 => (r, x1, x2)) ++
              rulesAtPairs rules instExps (some useRule) := by
          simp only [rulesAtPairs, selectedRules, List.filter_cons, hget, if_true, List.flatMap_cons]
        have happend : ∀ x : Except InstantiationFault Instantiated,
            x.bind (insertInstances env origTupleDecl (rulesAtPairs rules instExps (some useRule))) = .ok st' ↔
              ∃ st'', x = .ok st'' ∧ insertInstances env origTupleDecl (rulesAtPairs rules instExps (some useRule)) st'' =
                .ok st' := fun x => bind_eq_ok
        rw [hkeep, insertInstances_append, happend]
        simp only [instantiateAtPairs_eq, hlen, true_and]
        constructor
        · rintro ⟨st'', h, hrest, h'⟩
          exact ⟨hrest, st'', h, h'⟩
        · rintro ⟨hrest, st'', h, h'⟩
          exact ⟨st'', h, hrest, h'⟩

/-- No selection is the array of the default, when that has an entry for every type there is. -/
theorem selectedRules_default {rules : List UniQuantRule} (h : ∀ r ∈ rules, r.type.toNat < defaultUseRule.length) :
    selectedRules rules (some defaultUseRule) = rules := by
  refine List.filter_eq_self.2 fun r hr => ?_
  have hlt := h r hr
  rw [List.getD_eq_getElem?_getD, List.getElem?_eq_getElem hlt, Option.getD_some]
  exact List.getElem_replicate _

theorem ruleInstantiation_eq_ok_iff {useRule : Option (List Bool)} {ufcmap : UFCallMap} {st' : Instantiated} :
    ruleInstantiation env instExps origTupleDecl useRule ufcmap = .ok st' ↔
      (∀ r ∈ env.uniQuantRules, r.type.toNat < useRuleSize useRule) ∧
        insertInstances env origTupleDecl (rulesAtPairs env.uniQuantRules instExps useRule) (∅, ufcmap) = .ok st' := by
  unfold ruleInstantiation useRuleSize
  rw [foldlM_instantiateRule_eq_ok_iff]
  cases useRule with
  | some useRule => rfl
  | none =>
    refine and_congr_right fun h => ?_
    rw [rulesAtPairs, Option.getD_none, selectedRules_default h]
    rfl

end Right

end IEGen
