import CertifiedZeros.Certificate.Text
import CertifiedZeros.Problem
import CertifiedZeros.VectorField.ForwardDifference
import CertifiedZeros.Proofs.Interval.Enclosure
import CertifiedZeros.Proofs.VectorField.Taylor
import CertifiedZeros.Proofs.VectorField.Curvature
import CertifiedZeros.Proofs.Bounds.Enclosure
import CertifiedZeros.Proofs.Certificate.Soundness
import CertifiedZeros.Proofs.Certificate.NotANumber
import CertifiedZeros.Proofs.Grid
import CertifiedZeros.Proofs.Loop
import CertifiedZeros.Proofs.LU.Elimination
import CertifiedZeros.Proofs.LU.Substitution
import CertifiedZeros.Proofs.LU.Factorization
import CertifiedZeros.Proofs.Problem.Contracts
import CertifiedZeros.Proofs.Problem.Totality
import CertifiedZeros.Proofs.Bounds.Rounding
import CertifiedZeros.Proofs.Binary64.Reflection
import CertifiedZeros.Proofs.Interval.Reflection
import CertifiedZeros.Proofs.Bounds.Reflection
import CertifiedZeros.Proofs.LU.Reflection
import CertifiedZeros.Proofs.LU.Replay
import CertifiedZeros.Proofs.LU.Multipliers
import CertifiedZeros.Proofs.Certificate.Agreement
import CertifiedZeros.Proofs.Problem.Reflection
import CertifiedZeros.Proofs.Binary64.SquareRoot
import CertifiedZeros.Proofs.Interval.Monotone
import CertifiedZeros.Proofs.Binary64.RelativeError
import CertifiedZeros.Proofs.Certificate.Roots
import CertifiedZeros.Proofs.Certificate.UpperEnds
import CertifiedZeros.Proofs.Certificate.Verdict
import CertifiedZeros.Proofs.Certificate.BetterBounds
import CertifiedZeros.Proofs.Certificate.Radius
import CertifiedZeros.Proofs.Interval.RelativeError
import CertifiedZeros.Proofs.Certificate.PolynomialAccuracy
import CertifiedZeros.Proofs.Certificate.Midpoint
import CertifiedZeros.Proofs.Certificate.Coherence
import CertifiedZeros.Proofs.Certificate.RootOrder
import CertifiedZeros.Proofs.Newton.Trajectory
import CertifiedZeros.Proofs.Newton.Finiteness
import CertifiedZeros.Proofs.Newton.Residual
import CertifiedZeros.Proofs.VectorField.CosineAlgebra
import CertifiedZeros.Proofs.VectorField.ForwardDifference
import CertifiedZeros.Proofs.InducedNorm
import CertifiedZeros.Proofs.LU.Scaling
import CertifiedZeros.Proofs.Interval.Tightness
import CertifiedZeros.Proofs.Interval.PowerAgreement
import CertifiedZeros.Proofs.Bounds.ResidualGrowth
import CertifiedZeros.Proofs.Interval.Midpoint
import CertifiedZeros.Proofs.EntrywiseNorm
import CertifiedZeros.Proofs.MatrixLayout
import CertifiedZeros.Proofs.Decimal.Shortest
import CertifiedZeros.Proofs.Decimal.Notation
import CertifiedZeros.Proofs.Certificate.Text
