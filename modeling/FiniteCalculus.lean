import FiniteCalculus.Assertion.NearLists
import FiniteCalculus.Assertion.SlowGate
import FiniteCalculus.Catalogue
import FiniteCalculus.Decimal.Places
import FiniteCalculus.Expression.Memory
import FiniteCalculus.Operator.Notice
import FiniteCalculus.Proofs.Calculus.FundamentalTheorem
import FiniteCalculus.Proofs.Calculus.HigherDifferences
import FiniteCalculus.Proofs.Calculus.IntegerTrees
import FiniteCalculus.Proofs.Calculus.Sums
import FiniteCalculus.Proofs.Calculus.Tables
import FiniteCalculus.Proofs.Difference.Restoration
import FiniteCalculus.Proofs.Difference.Samples
import FiniteCalculus.Proofs.Difference.Variants
import FiniteCalculus.Proofs.Discrete.BellTriangle
import FiniteCalculus.Proofs.Discrete.Bernoulli
import FiniteCalculus.Proofs.Discrete.Binomials
import FiniteCalculus.Proofs.Discrete.Descents
import FiniteCalculus.Proofs.Discrete.Divisors
import FiniteCalculus.Proofs.Discrete.Exact
import FiniteCalculus.Proofs.Discrete.Partitions
import FiniteCalculus.Proofs.Discrete.PowerDifferences
import FiniteCalculus.Proofs.Discrete.Rational
import FiniteCalculus.Proofs.Discrete.Recursions
import FiniteCalculus.Proofs.Discrete.RoundedDivisors
import FiniteCalculus.Proofs.Discrete.Tallies
import FiniteCalculus.Proofs.Discrete.TooLarge
import FiniteCalculus.Proofs.Discrete.UndefinedBinomials
import FiniteCalculus.Proofs.Discrete.Worpitzky
import FiniteCalculus.Proofs.Double.Canonical
import FiniteCalculus.Proofs.Double.Exact
import FiniteCalculus.Proofs.Double.Magnitudes
import FiniteCalculus.Proofs.Double.Nearest
import FiniteCalculus.Proofs.Double.Order
import FiniteCalculus.Proofs.Double.Products
import FiniteCalculus.Proofs.Double.ReadBack
import FiniteCalculus.Proofs.Double.RunningProducts
import FiniteCalculus.Proofs.Double.ShortIntegers
import FiniteCalculus.Proofs.Double.Sums
import FiniteCalculus.Proofs.Double.Unrounded
import FiniteCalculus.Proofs.Double.Whole
import FiniteCalculus.Proofs.Elementary.AreaFunctions
import FiniteCalculus.Proofs.Elementary.Continuants
import FiniteCalculus.Proofs.Evaluation.Changes
import FiniteCalculus.Proofs.Evaluation.Compositional
import FiniteCalculus.Proofs.Evaluation.Dependence
import FiniteCalculus.Proofs.Evaluation.Runs
import FiniteCalculus.Proofs.Evaluation.TwoRuns
import FiniteCalculus.Proofs.Evaluator.Memory
import FiniteCalculus.Proofs.Evaluator.Mirrors
import FiniteCalculus.Proofs.Expression.AbsentValues
import FiniteCalculus.Proofs.Expression.Assigned
import FiniteCalculus.Proofs.Expression.Calculation
import FiniteCalculus.Proofs.Expression.FreeArguments
import FiniteCalculus.Proofs.Expression.Meaning
import FiniteCalculus.Proofs.Expression.Occurrences
import FiniteCalculus.Proofs.Expression.Texts
import FiniteCalculus.Proofs.Expression.Undefined
import FiniteCalculus.Proofs.Function.Undefined
import FiniteCalculus.Proofs.Graph.Edits
import FiniteCalculus.Proofs.Graph.Keys
import FiniteCalculus.Proofs.Graph.Listing
import FiniteCalculus.Proofs.Graph.Replacement
import FiniteCalculus.Proofs.Graph.Trees
import FiniteCalculus.Proofs.Graph.Walks
import FiniteCalculus.Proofs.Iteration.Doubles
import FiniteCalculus.Proofs.Iteration.Ending
import FiniteCalculus.Proofs.Iteration.Indices
import FiniteCalculus.Proofs.Iteration.Integers
import FiniteCalculus.Proofs.Iteration.Lockstep
import FiniteCalculus.Proofs.Rounding.Arguments
import FiniteCalculus.Proofs.Session.Basic
import FiniteCalculus.Proofs.Session.Edits
import FiniteCalculus.Proofs.Session.Inspection
import FiniteCalculus.Proofs.Session.Replacement
import FiniteCalculus.Proofs.Session.Snapshots
import FiniteCalculus.Proofs.Session.Views
import FiniteCalculus.Proofs.Session.Walks
import FiniteCalculus.Proofs.Value.Reals
import FiniteCalculus.Proofs.Value.Undefined
import FiniteCalculus.Value.Literal
import FiniteCalculus.Value.Text
import FiniteCalculus.Workspace
import FiniteCalculus.Proofs.Decimal.Places
import FiniteCalculus.Proofs.Assertion.Bounds
import FiniteCalculus.Proofs.Assertion.NearLists
