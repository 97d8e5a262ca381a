import IEGen.Bound

/-!
# The current environment

`currentEnv` is changed in place: what a call has done before it throws stays done. `setCurrEnv` and `appendCurrEnv`
declare functions, with an inverse for each bijective one and rules for each monotonic one; `addUniQuantRule` adds a
rule. The queries give copies of the declared sets.

Copying a set cleans it up in the environment of that moment. The text of a rule goes through the parser of sets, which
is a parameter here.
-/

namespace IEGen

/-- Steps on `currentEnv`. -/
abbrev OnCurrEnv := EStateM Failure Environment

/-- What is made in the current environment without changing it. -/
def inCurrEnv {α : Type} (make : Environment → Except Failure α) : OnCurrEnv α := fun env =>
  match make env with
  | .ok a => .ok a env
  | .error e => .error e env

namespace UninterpFunc

/-- `UninterpFunc(const UninterpFunc&)`, which copies the two sets. -/
def copy (f : UninterpFunc) (env : Environment) : Except Failure UninterpFunc := do
  .ok { f with domain := ← f.domain.copy env, range := ← f.range.copy env }

/-- `inv_name` -/
def invName (f : UninterpFunc) : String := f.name ++ "_inv"

end UninterpFunc

/-! ## Declaring functions -/

namespace Environment

/-- `std::map::insert` of a range, which leaves the keys that are there as they are. -/
def insertAll (m : List (String × String)) : List (String × String) → List (String × String)
  | [] => m
  | (key, value) :: rest => insertAll (if (m.lookup key).isSome then m else m ++ [(key, value)]) rest

/-- `Environment(UninterpFunc*)`: the function and, when it is bijective, its inverse. -/
def ofUninterpFunc (symfunc : UninterpFunc) : OnCurrEnv Environment := do
  if symfunc.isBijective then
    let domain ← inCurrEnv (fun env => symfunc.range.copy env)
    let range ← inCurrEnv (fun env => symfunc.domain.copy env)
    -- the map holds `symfunc` alone, whose name is shorter than that of the inverse
    pure ⟨[(symfunc.name, symfunc), (symfunc.invName, ⟨symfunc.invName, domain, range, true, .none⟩)],
      [(symfunc.name, symfunc.invName), (symfunc.invName, symfunc.name)], []⟩
  else pure ⟨[(symfunc.name, symfunc)], [], []⟩

/-- The loop of `append` over the functions, in the order of their names. -/
def appendFuncs : List (String × UninterpFunc) → OnCurrEnv Unit
  | [] => pure ()
  | (name, f) :: rest => do
    if ((← get).uninterpFuncMap.lookup name).isSome then
      throw (.assertException "Environment::append: attempting to append duplicate UFs.")
    else
      let g ← inCurrEnv f.copy
      modify (fun env => { env with uninterpFuncMap := env.uninterpFuncMap ++ [(name, g)] })
      appendFuncs rest

/-- `Environment::append` -/
def append (other : Environment) : OnCurrEnv Unit := do
  modify (fun env => { env with inverseMap := insertAll env.inverseMap other.inverseMap })
  appendFuncs other.uninterpFuncMap

/-- `Environment::reset`, which leaves the rules. -/
def reset (env : Environment) : Environment := { env with uninterpFuncMap := [], inverseMap := [] }

end Environment

/-! ## Rules -/

/-- `parser::parse_set`, which cleans up the conjunctions and so looks at the inverses of the current environment. -/
abbrev ParseSet := (String → String) → String → Except Failure Set

/-- `Set(std::string)` -/
def Set.ofString (parse_set : ParseSet) (str : String) (env : Environment) : Except Failure Set := do
  (← parse_set env.funcInverse str).copy env

/-- `UniQuantRule(string, string, string, string)` with the type `Monotonicity` -/
def UniQuantRule.monotonicity (parse_set : ParseSet) (tupleDecl leftSide rightSide : String)
    (env : Environment) : Except Failure UniQuantRule := do
  .ok ⟨.monotonicity, ← Set.ofString parse_set ("\x7b" ++ tupleDecl ++ " : " ++ leftSide ++ " \x7d") env,
    ← Set.ofString parse_set ("\x7b" ++ tupleDecl ++ " : " ++ rightSide ++ " \x7d") env⟩

/-- `addUniQuantRule` -/
def addUniQuantRule (uqRule : UniQuantRule) : OnCurrEnv Unit :=
  modify (fun env => { env with uniQuantRules := env.uniQuantRules ++ [uqRule] })

/-- The sides of the rules of a monotonic function, with `e1` and `e2` for all integers. -/
def monotonicityRules (funcName : String) : MonotonicType → List (String × String)
  | .increasing => [("e1 < e2", funcName ++ "(e1) < " ++ funcName ++ "(e2)"),
      (funcName ++ "(e1) < " ++ funcName ++ "(e2)", "e1 < e2")]
  | .nondecreasing => [("e1 < e2", funcName ++ "(e1) <= " ++ funcName ++ "(e2)")]
  | .decreasing => [("e1 < e2", funcName ++ "(e1) > " ++ funcName ++ "(e2)"),
      (funcName ++ "(e1) < " ++ funcName ++ "(e2)", "e1 > e2")]
  | .nonincreasing => [("e1 < e2", funcName ++ "(e1) >= " ++ funcName ++ "(e2)")]
  | .none => []

/-- The rules that `appendCurrEnv` adds for a function with one argument and one result. -/
def UninterpFunc.rules (f : UninterpFunc) : List (String × String) :=
  if f.domain.arity = 1 ∧ f.range.arity = 1 then monotonicityRules f.name f.monoType else []

/-- The rules made and added one after the other. -/
def addMonotonicityRules (parse_set : ParseSet) : List (String × String) → OnCurrEnv Unit
  | [] => pure ()
  | (leftSide, rightSide) :: rest => do
    let uqRule ← inCurrEnv (UniQuantRule.monotonicity parse_set "[e1,e2]" leftSide rightSide)
    addUniQuantRule uqRule
    addMonotonicityRules parse_set rest

/-! ## The calls -/

/-- `appendCurrEnv` -/
def appendCurrEnv (parse_set : ParseSet) (f : UninterpFunc) : OnCurrEnv Unit := do
  let env ← Environment.ofUninterpFunc f
  Environment.append env
  addMonotonicityRules parse_set f.rules

/-- A call that changes the environment. -/
inductive EnvCall where
  /-- `setCurrEnv()` -/
  | setEmpty
  /-- `setCurrEnv` with a function -/
  | setCurrEnv (f : UninterpFunc)
  | appendCurrEnv (f : UninterpFunc)
  | addUniQuantRule (uqRule : UniQuantRule)

def EnvCall.run (parse_set : ParseSet) : EnvCall → OnCurrEnv Unit
  | .setEmpty => modify Environment.reset
  | .setCurrEnv f => do
    modify Environment.reset
    IEGen.appendCurrEnv parse_set f
  | .appendCurrEnv f => IEGen.appendCurrEnv parse_set f
  | .addUniQuantRule uqRule => IEGen.addUniQuantRule uqRule

/-! ## The queries -/

namespace Environment

/-- `queryMonoTypeEnv` -/
def queryMonoTypeEnv (env : Environment) (funcName : String) : MonotonicType :=
  ((env.uninterpFuncMap.lookup funcName).map (·.monoType)).getD .none

end Environment

end IEGen
