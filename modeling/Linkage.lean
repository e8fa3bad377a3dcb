import Linkage.Main
import Linkage.Types.Assignable
import Linkage.Proofs.Assignability
import Linkage.Proofs.Accepted
import Linkage.Proofs.Repetition
import Linkage.Proofs.Relinking
import Linkage.Proofs.LinkedImage
import Linkage.Proofs.Sharing
import Linkage.Proofs.Contexts
import Linkage.Proofs.ReadLimits
import Linkage.Proofs.Reading
import Linkage.Proofs.SafeUnits
import Linkage.Proofs.Fallback
import Linkage.Proofs.Reencoding
import Linkage.Proofs.CanonicalBytes
import Linkage.Proofs.Enumeration
import Linkage.Proofs.Constants
import Linkage.Proofs.Finding
import Linkage.Proofs.DepthFirst
import Linkage.Proofs.Kept
import Linkage.Proofs.Filing
import Linkage.Proofs.Commands
import Linkage.Proofs.Relocation
import Linkage.Proofs.Workspaces
import Linkage.Proofs.Isolation
import Linkage.Proofs.Prepending
import Linkage.Proofs.Joins
import Linkage.Proofs.ClassTables
import Linkage.Proofs.Positions
import Linkage.Proofs.Interning
import Linkage.Proofs.Preorder
import Linkage.Proofs.TypeTexts
import Linkage.Proofs.NearestManifest
import Linkage.Proofs.Outputs
