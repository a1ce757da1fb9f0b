import ApiShape.Codec.Decode
import ApiShape.Codec.Encode
import ApiShape.Json.Reader
import ApiShape.Json.Writer
import ApiShape.Proofs.Absorb.Reach
import ApiShape.Proofs.Commute.Absorb
import ApiShape.Proofs.Instance.Absorb
import ApiShape.Proofs.Keys.Operations
import ApiShape.Proofs.Reduced.Absorb
import ApiShape.Proofs.Schema.Identity
import ApiShape.Proofs.WellFormed.Absorb
import ApiShape.Proofs.Hoisted.Absorb
import ApiShape.Proofs.Hoisted.Operations
import ApiShape.Proofs.Hoisted.Fields
import ApiShape.Proofs.Absorb.Metadata
import ApiShape.Proofs.Accumulate.Cookies
import ApiShape.Proofs.Accumulate.Groups
import ApiShape.Proofs.Accumulate.Catalogue
import ApiShape.Proofs.Accumulate.Cap
import ApiShape.Proofs.Evidence.Order
import ApiShape.Proofs.Thresholds
import ApiShape.Proofs.Erase.Operations
import ApiShape.Proofs.Codec.Trees
import ApiShape.Proofs.Examples
import ApiShape.Proofs.Absorb.Checked
import ApiShape.Proofs.Absorb.Termination
import ApiShape.Proofs.Postorder
import ApiShape.Proofs.History
import ApiShape.Proofs.Collected
import ApiShape.Proofs.Numeric.Scaling
import ApiShape.Proofs.Conversion
