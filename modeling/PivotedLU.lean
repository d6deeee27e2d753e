import PivotedLU.Binary.Bits
import PivotedLU.Elimination.Log
import PivotedLU.Json.Decode
import PivotedLU.Proofs.Binary.Laws
import PivotedLU.Proofs.Binary.Order
import PivotedLU.Proofs.Binary.Pivoting
import PivotedLU.Proofs.Binary.Singular
import PivotedLU.Proofs.Elimination.Order
import PivotedLU.Proofs.Elimination.Pivots
import PivotedLU.Proofs.Exact.Breakdown
import PivotedLU.Proofs.Exact.Counter
import PivotedLU.Proofs.Exact.Inverse
import PivotedLU.Proofs.Json.Parts
import PivotedLU.Proofs.RowOrder.History
import PivotedLU.Proofs.Stored.Access
import PivotedLU.Proofs.Stored.Elimination
import PivotedLU.Proofs.Stored.Factorization
import PivotedLU.Proofs.Stored.Matrix
import PivotedLU.Proofs.Stored.Obtained
import PivotedLU.Proofs.Stored.Order
import PivotedLU.Proofs.Stored.Substitution
import PivotedLU.Proofs.Substitution.Divisors
import PivotedLU.Workspace.Run
import PivotedLU.Proofs.Elimination.Tolerance
import PivotedLU.Proofs.Elimination.Rearranged
import PivotedLU.Proofs.Binary.RowIndependence
import PivotedLU.Proofs.Json.RoundTrip
import PivotedLU.Proofs.Elimination.Trace
import PivotedLU.Proofs.Elimination.LeadingColumns
import PivotedLU.Proofs.Exact.Dominance
import PivotedLU.Proofs.Exact.Growth
import PivotedLU.Proofs.Elimination.Breakdown
import PivotedLU.Proofs.RowOrder.FlatLayout
import PivotedLU.Proofs.Elimination.PermutationMatrix
import PivotedLU.Proofs.Binary.FixedPoints
import PivotedLU.Proofs.Product.ZeroTerms
import PivotedLU.Proofs.Product.Triangles
import PivotedLU.Proofs.Stored.Overwrite
import PivotedLU.Proofs.Product.Ordered
import PivotedLU.Proofs.Substitution.RightHandSide
import PivotedLU.Proofs.Product.OrderMatrix
import PivotedLU.Proofs.Exact.Scaling
import PivotedLU.Proofs.Product.LargestDifference
import PivotedLU.Proofs.Binary.Conversion
import PivotedLU.Proofs.Binary.Settings
import PivotedLU.Proofs.Elimination.PivotChoice
import PivotedLU.Proofs.Stored.RowMajor
import PivotedLU.Proofs.Workspace.Session
import PivotedLU.Proofs.Decimal.Shortest
import PivotedLU.Proofs.Binary.RoundingInterval
import PivotedLU.Proofs.Binary.Shortest
import PivotedLU.Proofs.Decimal.Layout
import PivotedLU.Proofs.Binary.Text
import PivotedLU.Proofs.Elimination.LogText
