import MaxPlus.Weight.Exact
import MaxPlus.Matrix.Cramer
import MaxPlus.Proofs.Permutation.Exchange
import MaxPlus.Proofs.Permutation.Enumeration
import MaxPlus.Proofs.Grid.Permanent
import MaxPlus.Proofs.Matrix.Soundness
import MaxPlus.Proofs.Matrix.Maximality
import MaxPlus.Proofs.Weight.Canonical
import MaxPlus.Proofs.Weight.Units
import MaxPlus.Proofs.Element.Units
import MaxPlus.Proofs.Grid.Reduction
import MaxPlus.Proofs.Grid.Transpose
import MaxPlus.Proofs.Matrix.Adjoint
import MaxPlus.Proofs.Matrix.Permanent
import MaxPlus.Proofs.Matrix.Cramer
import MaxPlus.Proofs.Matrix.Reachable
import MaxPlus.Proofs.Matrix.Simulation
import MaxPlus.Proofs.Matrix.Marks
import MaxPlus.Proofs.Matrix.RoundTrip
import MaxPlus.Proofs.Matrix.Multiplicative
import MaxPlus.Proofs.Matrix.Surpassing
import MaxPlus.Proofs.Matrix.Algebra
import MaxPlus.Proofs.Matrix.Rearrangement
import MaxPlus.Proofs.Matrix.Transpose
import MaxPlus.Proofs.Matrix.Homogeneity
import MaxPlus.Proofs.Grid.Layout
import MaxPlus.Proofs.Matrix.Ordered
import MaxPlus.Proofs.Element.Power
import MaxPlus.Proofs.Element.Maximum
import MaxPlus.Proofs.Matrix.Solvability
import MaxPlus.Proofs.Matrix.Minors
import MaxPlus.Proofs.Matrix.GhostOrder
import MaxPlus.Proofs.Matrix.Range
import MaxPlus.Proofs.Matrix.Rows
import MaxPlus.Proofs.Matrix.Built
import MaxPlus.Proofs.Matrix.Schedule
import MaxPlus.Proofs.Permutation.Calls
