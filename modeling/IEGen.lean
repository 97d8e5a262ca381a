import IEGen.Lib.SortedList
import IEGen.Lib.WeakOrder
import IEGen.Lib.Outcome
import IEGen.Lib.Words
import IEGen.Syntax
import IEGen.Print
import IEGen.Order
import IEGen.Arith
import IEGen.Eval
import IEGen.Reading
import IEGen.Conjunction
import IEGen.Algebra
import IEGen.CleanUp
import IEGen.Canonical
import IEGen.Collapse
import IEGen.CleanedUp
import IEGen.Visitor
import IEGen.Substitute
import IEGen.Bound
import IEGen.UFCallMap
import IEGen.SuperAffine
import IEGen.RoundTrip
import IEGen.Restored
import IEGen.Values
import IEGen.Calls
import IEGen.Copied
import IEGen.Copies
import IEGen.Objects
import IEGen.Substituted
import IEGen.Bounded
import IEGen.CurrEnv
import IEGen.Appended
import IEGen.InverseMap
import IEGen.Declared
import IEGen.Grammar
import IEGen.Named
import IEGen.Written
import IEGen.Notations
import IEGen.Unnamed
import IEGen.Weights
import IEGen.Renamed
import IEGen.Texts
import IEGen.Remap
import IEGen.Inverse
import IEGen.Restrict
import IEGen.Merging
import IEGen.Simultaneous
import IEGen.Solve
import IEGen.Inverses
import IEGen.Solved
import IEGen.Functions
import IEGen.Nested
import IEGen.Settled
import IEGen.Fixed
import IEGen.Lib.SortedMap
import IEGen.Group
import IEGen.Grouped
import IEGen.Arguments
import IEGen.Indexed
import IEGen.Parts
import IEGen.Saturation
import IEGen.Instances
import IEGen.Lib.Extension
import IEGen.Monotonic
import IEGen.Removed
import IEGen.Walk
import IEGen.Expensive
import IEGen.DomainRange
import IEGen.Redeclared
import IEGen.Inside
import IEGen.Predicates
import IEGen.ISLString
import IEGen.Lib.SExpr
import IEGen.Formula
import IEGen.Z3Form
import IEGen.Asserted
import IEGen.Tuples
import IEGen.Rejoined
import IEGen.Complexity
import IEGen.GetString
import IEGen.Lib.Occurrences
import IEGen.DomainRule
import IEGen.Scanner
import IEGen.PrintedTrees
import IEGen.PrintedBodies
import IEGen.NameMarks
import IEGen.YieldedRule
import IEGen.PrintedMeaning
import IEGen.ReadBack
import IEGen.ConstraintLists
import IEGen.TermLists
import IEGen.Interrupted
import IEGen.Statements
import IEGen.SymbolMaps
import IEGen.Lib.FreshNames
import IEGen.UniqueNames
import IEGen.Compose
import IEGen.Eliminated
import IEGen.Composed
import IEGen.Apply
import IEGen.Lib.Forest
import IEGen.UnionFind
import IEGen.LinearReading
import IEGen.AffineMeaning
import IEGen.ComposedUnions
import IEGen.InverseUnions
import IEGen.Projection
import IEGen.PartialParallel
import IEGen.Implied
import IEGen.RuleInstances
import IEGen.Detected
import IEGen.Relationship
