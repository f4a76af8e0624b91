import NumericContract.Main
import NumericContract.Proofs.Decimal.Integer
import NumericContract.Proofs.Rounding
import NumericContract.Proofs.Decimal.Nearest
import NumericContract.Proofs.Decimal.Operations
import NumericContract.Proofs.Decimal.Root
import NumericContract.Proofs.Decimal.Multiple
import NumericContract.Proofs.PayoutRange
import NumericContract.Proofs.PayoutRange.Runs
import NumericContract.Proofs.Staircase.Structure
import NumericContract.Proofs.Staircase.Walk
import NumericContract.Proofs.Staircase.Following
import NumericContract.Proofs.Curve.Scale
import NumericContract.Proofs.Curve.Line
import NumericContract.Proofs.Curve.Rectangular
import NumericContract.Proofs.Curve.RectangularInverse
import NumericContract.Proofs.Curve.RightOfPole
import NumericContract.Proofs.Curve.NextToPole
import NumericContract.Proofs.Curve.RectangularSpan
import NumericContract.Proofs.Piecewise
import NumericContract.Proofs.Digits
import NumericContract.Proofs.Digits.Order
import NumericContract.Proofs.PrefixCover
import NumericContract.Proofs.PrefixCover.Partition
import NumericContract.Proofs.PrefixCover.Minimal
import NumericContract.Proofs.PrefixCover.Size
import NumericContract.Proofs.CetGroup
import NumericContract.Proofs.Staircase.Segments
import NumericContract.Proofs.Staircase.Refusal
import NumericContract.Proofs.Curve.Straying
import NumericContract.Proofs.Curve.Uninvertible
import NumericContract.Proofs.Descriptor.CurvePiece
import NumericContract.Proofs.Decimal.Monotone
import NumericContract.Proofs.Curve.Totality
import NumericContract.Proofs.Curve.Regular
import NumericContract.Proofs.Curve.FirstDefined
import NumericContract.Proofs.Curve.RoundTrip
import NumericContract.Proofs.Descriptor.Contract
import NumericContract.Proofs.Piecewise.Refusal
import NumericContract.Proofs.Decimal.Grid
import NumericContract.Proofs.Decimal.RoundToMultiple
import NumericContract.Proofs.Curve.Size
import NumericContract.Proofs.Coefficient.Encoding
import NumericContract.Proofs.Text
import NumericContract.Proofs.Decimal.Text
import NumericContract.Proofs.Decimal.Binary
import NumericContract.Proofs.Descriptor.Reading
import NumericContract.Proofs.Descriptor.NormalForm
import NumericContract.Proofs.Curve.Crossing
