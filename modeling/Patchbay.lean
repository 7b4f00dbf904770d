import Patchbay.Main
import Patchbay.Proofs.Chain.Refold
import Patchbay.Proofs.Chain.Run
import Patchbay.Proofs.Chain.Product
import Patchbay.Proofs.Chain.Split
import Patchbay.Proofs.Compile
import Patchbay.Proofs.Wiring.Drawing
import Patchbay.Proofs.Patch.Rearranged
import Patchbay.Proofs.Patch.Beside
import Patchbay.Proofs.Patch.Stranded
import Patchbay.Proofs.Patch.Accounted
import Patchbay.Proofs.Patch.Unmerged
import Patchbay.Proofs.Patch.Repeats
import Patchbay.Proofs.Patch.Undeclared
import Patchbay.Proofs.Patch.Unused
import Patchbay.Proofs.Patch.Order
import Patchbay.Proofs.Patch.Values
import Patchbay.Proofs.Patch.NormalForm
import Patchbay.Proofs.Patch.Finite
import Patchbay.Proofs.Pattern
import Patchbay.Proofs.Report
import Patchbay.Proofs.Calendar.Timestamp
import Patchbay.Proofs.Config.Document
import Patchbay.Proofs.Document
import Patchbay.Proofs.Wiring.Encoding
