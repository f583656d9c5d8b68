import StochasticGames.Analysis.Compact
import StochasticGames.Analysis.Config
import StochasticGames.Analysis.Equilibrium
import StochasticGames.Analysis.Form
import StochasticGames.Analysis.Iteration
import StochasticGames.Analysis.Operator
import StochasticGames.Analysis.Qualitative
import StochasticGames.Analysis.Query
import StochasticGames.Analysis.Reachability
import StochasticGames.Analysis.Strategy
import StochasticGames.Arena.BlockSet
import StochasticGames.Arena.Commands
import StochasticGames.Arena.Compact
import StochasticGames.Arena.Direction
import StochasticGames.Arena.Exploration
import StochasticGames.Arena.Form
import StochasticGames.Arena.Game
import StochasticGames.Arena.GameError
import StochasticGames.Arena.Mdp
import StochasticGames.Arena.Players
import StochasticGames.Arena.Row
import StochasticGames.Arena.StateSet
import StochasticGames.Arena.Step
import StochasticGames.Arena.Turn
import StochasticGames.Ascending
import StochasticGames.Numeric.Binary64
import StochasticGames.Numeric.Decimal
import StochasticGames.Numeric.Scalar
import StochasticGames.Numeric.Shortest
import StochasticGames.Proofs.AscendingMaps
import StochasticGames.Proofs.Assignments
import StochasticGames.Proofs.Attractors
import StochasticGames.Proofs.Bellman
import StochasticGames.Proofs.BlockSets
import StochasticGames.Proofs.BoundedGames
import StochasticGames.Proofs.BreadthFirst
import StochasticGames.Proofs.Buckets
import StochasticGames.Proofs.Building
import StochasticGames.Proofs.ChainRewards
import StochasticGames.Proofs.Chains
import StochasticGames.Proofs.Changes
import StochasticGames.Proofs.CheckedGames
import StochasticGames.Proofs.CommutingProducts
import StochasticGames.Proofs.Configurations
import StochasticGames.Proofs.Convergence
import StochasticGames.Proofs.Deviations
import StochasticGames.Proofs.Discovery
import StochasticGames.Proofs.DistributionWeights
import StochasticGames.Proofs.Domains
import StochasticGames.Proofs.Dominance
import StochasticGames.Proofs.Doubles
import StochasticGames.Proofs.Enlarging
import StochasticGames.Proofs.Equilibria
import StochasticGames.Proofs.ExactArithmetic
import StochasticGames.Proofs.Expectation
import StochasticGames.Proofs.ExploredEdges
import StochasticGames.Proofs.ExploredGames
import StochasticGames.Proofs.ExploredRows
import StochasticGames.Proofs.Extended
import StochasticGames.Proofs.ExtendedReals
import StochasticGames.Proofs.FairMixtures
import StochasticGames.Proofs.FirstOccurrences
import StochasticGames.Proofs.InfiniteRewards
import StochasticGames.Proofs.IntegerExpressions
import StochasticGames.Proofs.JointLimits
import StochasticGames.Proofs.JointPasses
import StochasticGames.Proofs.LeastRewards
import StochasticGames.Proofs.Methods
import StochasticGames.Proofs.Mixtures
import StochasticGames.Proofs.OperatorSettings
import StochasticGames.Proofs.OutcomeTargets
import StochasticGames.Proofs.ParetoPlays
import StochasticGames.Proofs.PassInvariants
import StochasticGames.Proofs.Passes
import StochasticGames.Proofs.PlainTargets
import StochasticGames.Proofs.PlayerMaps
import StochasticGames.Proofs.Plays
import StochasticGames.Proofs.PositiveDoubles
import StochasticGames.Proofs.QualitativePasses
import StochasticGames.Proofs.Queries
import StochasticGames.Proofs.Rationality
import StochasticGames.Proofs.RealGames
import StochasticGames.Proofs.Refusals
import StochasticGames.Proofs.RenumberedAnalyses
import StochasticGames.Proofs.Renumberings
import StochasticGames.Proofs.Reports
import StochasticGames.Proofs.Rewards
import StochasticGames.Proofs.Rounds
import StochasticGames.Proofs.RowWrites
import StochasticGames.Proofs.Selections
import StochasticGames.Proofs.SelfLoops
import StochasticGames.Proofs.SetAlgebra
import StochasticGames.Proofs.Settling
import StochasticGames.Proofs.SettlingLayers
import StochasticGames.Proofs.SoleCoalitions
import StochasticGames.Proofs.SolveReports
import StochasticGames.Proofs.StateLimits
import StochasticGames.Proofs.StateSets
import StochasticGames.Proofs.Strategies
import StochasticGames.Proofs.StuckAssignments
import StochasticGames.Proofs.SynchronousProducts
import StochasticGames.Proofs.Tolerance
import StochasticGames.Proofs.Values
import StochasticGames.Proofs.VariableReads
import StochasticGames.Proofs.WellTyped
import StochasticGames.Proofs.Winning
import StochasticGames.Text.Blank
import StochasticGames.Text.Form
import StochasticGames.Text.Json
import StochasticGames.Text.Part
import StochasticGames.Transition.Choice
import StochasticGames.Transition.ChoiceError
import StochasticGames.Transition.Compact
import StochasticGames.Transition.Distribution
import StochasticGames.Transition.ProbabilityError
import StochasticGames.Transition.Product
import StochasticGames.Transition.Sampling
import StochasticGames.Transition.Target
import StochasticGames.Transition.Update
import StochasticGames.Transition.Weight
import StochasticGames.Valuation.Compact
import StochasticGames.Valuation.Eval
import StochasticGames.Valuation.Expr
import StochasticGames.Valuation.Form
import StochasticGames.Valuation.State
import StochasticGames.Valuation.Value
import StochasticGames.Valuation.Variable
