import Flowchart.Codec.Syntax
import Flowchart.Main
import Flowchart.Proofs.Scoping
import Flowchart.Proofs.Commentary
import Flowchart.Proofs.Persistence
import Flowchart.Proofs.Alignment
import Flowchart.Proofs.Isolation
import Flowchart.Proofs.Levels
import Flowchart.Proofs.Identity
import Flowchart.Proofs.TypeSpelling
import Flowchart.Proofs.Totality
import Flowchart.Proofs.Templating
import Flowchart.Proofs.Reordering
import Flowchart.Proofs.Framing
import Flowchart.Proofs.Assigning
import Flowchart.Proofs.Parentheses
import Flowchart.Proofs.Classification
import Flowchart.Proofs.Terminating
import Flowchart.Proofs.Partition
import Flowchart.Proofs.Offsets
import Flowchart.Proofs.Importing
import Flowchart.Proofs.Renaming
