import Optimum.AugmentedLagrangian
import Optimum.Bracket
import Optimum.Decimal.Layout
import Optimum.Decimal.Shortest
import Optimum.Descent
import Optimum.Dialogue
import Optimum.Difference
import Optimum.Failure
import Optimum.InverseHessian
import Optimum.Lagrangian
import Optimum.LineSearch
import Optimum.Matrix
import Optimum.Methods
import Optimum.Options
import Optimum.Penalty
import Optimum.Problem
import Optimum.Report
import Optimum.Scalar
import Optimum.Scalar.Binary64
import Optimum.Scaling
import Optimum.Vector
import Optimum.Proofs.Outcomes
import Optimum.Proofs.LineSearch.Paths
import Optimum.Proofs.Descent.Paths
import Optimum.Proofs.Scalar.Exact
import Optimum.Proofs.Vector.Exact
import Optimum.Proofs.Bracket.Passes
import Optimum.Proofs.Bracket.Interior
import Optimum.Proofs.Descent.Methods
import Optimum.Proofs.Descent.Calls
import Optimum.Proofs.Descent.Course
import Optimum.Proofs.Descent.Counters
import Optimum.Proofs.Descent.Budget
import Optimum.Proofs.Descent.Decrease
import Optimum.Proofs.Descent.PositiveDefinite
import Optimum.Proofs.Lagrangian.Optimality
import Optimum.Proofs.Descent.NonFinite
import Optimum.Proofs.Lagrangian.Failures
import Optimum.Proofs.Penalty
import Optimum.Proofs.Scalar.Order
import Optimum.Proofs.Lagrangian.Paths
import Optimum.Proofs.Loop
import Optimum.Proofs.Truncation
import Optimum.Proofs.Descent.Locality
import Optimum.Proofs.Lagrangian.Locality
import Optimum.Proofs.Mirror
import Optimum.Proofs.Bracket.Units
import Optimum.Proofs.Descent.Success
import Optimum.Proofs.Descent.Units
import Optimum.Proofs.Lagrangian.Multipliers
import Optimum.Proofs.Lagrangian.Outcome
import Optimum.Proofs.Lagrangian.InStep
import Optimum.Proofs.Omission
import Optimum.Proofs.Lagrangian.Slack
import Optimum.Proofs.Descent.Degenerate
import Optimum.Proofs.Frame
import Optimum.Proofs.Descent.Frames
import Optimum.Proofs.Lagrangian.Frames
import Optimum.Proofs.Bracket.Separation
import Optimum.Proofs.Bracket.Unimodal
import Optimum.Proofs.Bracket.Ranking
import Optimum.Proofs.Bracket.Parabola
import Optimum.Proofs.Descent.Failures
import Optimum.Proofs.Sizes
import Optimum.Proofs.Descent.Conjugate
import Optimum.Proofs.Log
import Optimum.Proofs.Descent.Log
import Optimum.Proofs.Lagrangian.Log
import Optimum.Proofs.Bracket.Best
import Optimum.Proofs.LineSearch.Best
import Optimum.Proofs.InverseHessian.Termination
import Optimum.Proofs.Lagrangian.Session
import Optimum.Proofs.Difference.Quadratics
import Optimum.Proofs.Penalty.Exterior
import Optimum.Proofs.Lagrangian.FirstIteration
