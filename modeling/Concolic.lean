import Concolic.Main
import Concolic.Proofs.Codec.Canonical
import Concolic.Proofs.Codec.Stability
import Concolic.Proofs.Expr.Consistency
import Concolic.Proofs.Expr.Dependence
import Concolic.Proofs.Expr.Reassembly
import Concolic.Proofs.Expr.Unambiguous
import Concolic.Proofs.Machine.Consistency
import Concolic.Proofs.Machine.Flow
import Concolic.Proofs.Machine.Inputs
import Concolic.Proofs.Machine.Journal
import Concolic.Proofs.Machine.Lifting
import Concolic.Proofs.Machine.Notices
import Concolic.Proofs.Machine.Returns
import Concolic.Proofs.Machine.Separation
import Concolic.Proofs.Machine.Skeleton
import Concolic.Proofs.Memory.ByteMap
import Concolic.Proofs.Memory.Carving
import Concolic.Proofs.Memory.Copy
import Concolic.Proofs.Memory.Frame
import Concolic.Proofs.Operator.Exact
import Concolic.Proofs.Session.Inputs
import Concolic.Proofs.Smt.Built
import Concolic.Proofs.Smt.Cells
import Concolic.Proofs.Smt.Requests
import Concolic.Proofs.Smt.Truth
import Concolic.Proofs.Straight.Prediction
