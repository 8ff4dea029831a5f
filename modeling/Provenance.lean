import Provenance.Artifact.Transfer
import Provenance.Session.Operation
import Provenance.World.Model
import Provenance.Proofs.Actions
import Provenance.Proofs.Moves
import Provenance.Proofs.Adding
import Provenance.Proofs.Runs
import Provenance.Proofs.Confirming
import Provenance.Proofs.Derivation
import Provenance.Proofs.Sealing
import Provenance.Proofs.Replaying
import Provenance.Proofs.RoundTrip
import Provenance.Proofs.Framing
import Provenance.Proofs.ArtifactRoundTrip
import Provenance.Proofs.Streaming
import Provenance.Proofs.Truncation
import Provenance.Proofs.Rejection
import Provenance.Proofs.Drift
import Provenance.Proofs.Building
import Provenance.Proofs.Answers
import Provenance.Proofs.Growth
import Provenance.Proofs.Stability
import Provenance.Proofs.Speculation
import Provenance.Proofs.Correspondence
import Provenance.Proofs.Recording
import Provenance.Proofs.Shapes
import Provenance.Proofs.Owners
import Provenance.Proofs.Reading
import Provenance.Proofs.Checked
import Provenance.Proofs.Anchoring
import Provenance.Proofs.Bounds
import Provenance.Proofs.Issuing
import Provenance.Proofs.Phases
import Provenance.Proofs.Regions
import Provenance.Proofs.Repeating
import Provenance.Proofs.Renaming
import Provenance.Proofs.Mirroring
import Provenance.Proofs.Handles
import Provenance.Proofs.Hardening
import Provenance.Proofs.Strictness
import Provenance.Proofs.Guards
import Provenance.Proofs.Links
import Provenance.Proofs.Naming
import Provenance.Proofs.Ambiguity
import Provenance.Proofs.Refusing
import Provenance.Proofs.Reporting
import Provenance.Proofs.Lateness
import Provenance.Proofs.Retrying
import Provenance.Proofs.Binding
import Provenance.Proofs.Lossless
import Provenance.Proofs.Unrolling
import Provenance.Proofs.Subtyping
import Provenance.Proofs.Verdicts
import Provenance.Proofs.Ancestry
import Provenance.Proofs.Unanimity
import Provenance.Proofs.Overriding
import Provenance.Proofs.Dispatching
import Provenance.Proofs.Inheriting
import Provenance.Proofs.Fingerprints
import Provenance.Proofs.Resolving
import Provenance.Proofs.Coherence
import Provenance.Proofs.Shortest
import Provenance.Proofs.Grouping
import Provenance.Proofs.Wrapping
import Provenance.Proofs.Shifting
import Provenance.Proofs.Bytewise
import Provenance.Proofs.Precedence
import Provenance.Proofs.Deduplicating
