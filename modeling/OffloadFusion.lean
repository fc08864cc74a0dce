import OffloadFusion.Graph.Listing
import OffloadFusion.Proofs.Passes
import OffloadFusion.Proofs.Reached
import OffloadFusion.Proofs.Anchoring
import OffloadFusion.Proofs.Leftovers
import OffloadFusion.Proofs.Termination
import OffloadFusion.Proofs.Wrapping
import OffloadFusion.Proofs.Layouts
import OffloadFusion.Proofs.Preserving
import OffloadFusion.Proofs.Sharing
import OffloadFusion.Proofs.Moving
import OffloadFusion.Proofs.Boundaries
import OffloadFusion.Proofs.Answers
import OffloadFusion.Proofs.Refusals
import OffloadFusion.Proofs.Stopping
import OffloadFusion.Proofs.Callers
import OffloadFusion.Proofs.Edges
import OffloadFusion.Proofs.Copies
import OffloadFusion.Proofs.Atomicity
import OffloadFusion.Proofs.Rederiving
import OffloadFusion.Proofs.Correspondence
import OffloadFusion.Proofs.Splitting
import OffloadFusion.Proofs.Modes
import OffloadFusion.Proofs.Merging
import OffloadFusion.Proofs.Reducing
import OffloadFusion.Proofs.Retracing
import OffloadFusion.Proofs.Deferring
import OffloadFusion.Proofs.Capturing
import OffloadFusion.Proofs.DeadCone
import OffloadFusion.Proofs.Nesting
import OffloadFusion.Proofs.Contiguity
import OffloadFusion.Proofs.Searching
import OffloadFusion.Proofs.Broadcasting
import OffloadFusion.Proofs.Unsqueezing
import OffloadFusion.Proofs.InRange
import OffloadFusion.Proofs.Restoring
