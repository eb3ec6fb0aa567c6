import Stowage.Array.Flatten
import Stowage.Descriptor.Reader
import Stowage.Fault.Message
import Stowage.Proofs.Arena.Refinement
import Stowage.Proofs.Array.Completion
import Stowage.Proofs.Array.Discovery
import Stowage.Proofs.Array.MixedRows
import Stowage.Proofs.Array.Overwriting
import Stowage.Proofs.Array.Reshaping
import Stowage.Proofs.Array.TypedRows
import Stowage.Proofs.Array.Unshared
import Stowage.Proofs.Descriptor.Accounting
import Stowage.Proofs.Descriptor.Naming
import Stowage.Proofs.Descriptor.Regularity
import Stowage.Proofs.Descriptor.SyntaxFaults
import Stowage.Proofs.Descriptor.Transparency
import Stowage.Proofs.Heap.Containment
import Stowage.Proofs.Packing.Positions
import Stowage.Proofs.Packing.Refusals
import Stowage.Proofs.Record.Disjointness
import Stowage.Proofs.Registry.Numbering
import Stowage.Proofs.Store.Balance
import Stowage.Proofs.Store.Constants
import Stowage.Proofs.Store.Fetching
import Stowage.Proofs.Store.Intact
import Stowage.Proofs.Store.MissingItems
import Stowage.Proofs.Store.Packers
import Stowage.Proofs.Store.Reclaiming
import Stowage.Proofs.Store.References
import Stowage.Proofs.Store.Releasing
import Stowage.Proofs.Store.Stranding
import Stowage.Proofs.Store.Tolerance
import Stowage.Proofs.Store.Truncation
import Stowage.Proofs.Store.Unstorable
import Stowage.Store.Transfer
