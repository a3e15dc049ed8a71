import CrossFloat.Complex
import CrossFloat.Encoding
import CrossFloat.Integer
import CrossFloat.Order
import CrossFloat.Text.Description
import CrossFloat.Text.Hexadecimal
import CrossFloat.Proofs.Checked.Request
import CrossFloat.Proofs.Complex.Limit
import CrossFloat.Proofs.Encoding.Interchange
import CrossFloat.Proofs.Membership
import CrossFloat.Proofs.Nonzero.Cancellation
import CrossFloat.Proofs.Order.Conversion
import CrossFloat.Proofs.Order.Difference
import CrossFloat.Proofs.Order.Encoding
import CrossFloat.Proofs.Override
import CrossFloat.Proofs.Rounding.Idempotent
import CrossFloat.Proofs.Accumulation
import CrossFloat.Proofs.Rounding.Widening
import CrossFloat.Proofs.Rounding.Nearest
import CrossFloat.Proofs.Rounding.Twice
import CrossFloat.Proofs.Arithmetic.Folding
import CrossFloat.Proofs.Encoding.Decoding
import CrossFloat.Proofs.Encoding.Saturation
import CrossFloat.Proofs.Rounding.Real
import CrossFloat.Proofs.Integer.Arithmetic
import CrossFloat.Proofs.Arithmetic.Negation
import CrossFloat.Proofs.Arithmetic.Commutation
import CrossFloat.Proofs.Complex.Textbook
import CrossFloat.Proofs.Complex.RealLine
import CrossFloat.Proofs.Arithmetic.Exceptions
import CrossFloat.Proofs.Extremes
import CrossFloat.Proofs.Text.Hexadecimal
import CrossFloat.Proofs.Complex.Exceptions
import CrossFloat.Proofs.Limb.Jamming
import CrossFloat.Proofs.Limb.Modular
import CrossFloat.Proofs.Rounding.Literal
