import DiagramSearch.Catalog.Model
import DiagramSearch.Completions
import DiagramSearch.Diagram.Drawing
import DiagramSearch.Search.BranchAndBound
import DiagramSearch.Search.OneDiagram
import DiagramSearch.Value.Extended
import DiagramSearch.Proofs.ExactValues
import DiagramSearch.Proofs.Trails
import DiagramSearch.Proofs.Linkage
import DiagramSearch.Proofs.Expanding
import DiagramSearch.Proofs.Climbing
import DiagramSearch.Proofs.Selecting
import DiagramSearch.Proofs.Settling
import DiagramSearch.Proofs.Merging
import DiagramSearch.Proofs.Completing
import DiagramSearch.Proofs.Weaving
import DiagramSearch.Proofs.Growing
import DiagramSearch.Proofs.Spreading
import DiagramSearch.Proofs.Tails
import DiagramSearch.Proofs.Cutting
import DiagramSearch.Proofs.Sweeping
import DiagramSearch.Proofs.Descending
import DiagramSearch.Proofs.Resolving
import DiagramSearch.Proofs.Ranking
import DiagramSearch.Proofs.Evaluating
import DiagramSearch.Proofs.Compiling
import DiagramSearch.Proofs.Threads
import DiagramSearch.Proofs.Covering
import DiagramSearch.Proofs.Advancing
import DiagramSearch.Proofs.Queueing
import DiagramSearch.Proofs.Exploring
import DiagramSearch.Proofs.Searching
import DiagramSearch.Proofs.Answering
import DiagramSearch.Proofs.Dominating
import DiagramSearch.Proofs.Optimality
import DiagramSearch.Proofs.Rounds
import DiagramSearch.Proofs.Intercepting
import DiagramSearch.Proofs.Vouching
import DiagramSearch.Proofs.Remembering
import DiagramSearch.Proofs.Ancestry
import DiagramSearch.Proofs.Inheriting
import DiagramSearch.Proofs.Outlasting
import DiagramSearch.Proofs.Telling
import DiagramSearch.Proofs.Journaling
import DiagramSearch.Proofs.Announcing
import DiagramSearch.Proofs.Accounting
import DiagramSearch.Proofs.Laddering
import DiagramSearch.Proofs.Terminating
import DiagramSearch.Proofs.Framing
import DiagramSearch.Proofs.Concluding
import DiagramSearch.Proofs.Reordering
import DiagramSearch.Proofs.Roaming
import DiagramSearch.Proofs.Stacking
import DiagramSearch.Proofs.Moves
import DiagramSearch.Proofs.Tallying
import DiagramSearch.Proofs.Distilling
import DiagramSearch.Proofs.Retiring
import DiagramSearch.Proofs.Gaining
import DiagramSearch.Proofs.Sequencing
import DiagramSearch.Proofs.Replaying
import DiagramSearch.Proofs.Overlooking
import DiagramSearch.Proofs.Pairing
import DiagramSearch.Proofs.Shadowing
import DiagramSearch.Proofs.Matching
import DiagramSearch.Proofs.Restarting
import DiagramSearch.Proofs.Mirroring
import DiagramSearch.Proofs.Watching
import DiagramSearch.Proofs.Absolving
import DiagramSearch.Proofs.Presenting
import DiagramSearch.Proofs.Filtering
import DiagramSearch.Proofs.Repeating
import DiagramSearch.Proofs.Rebounding
import DiagramSearch.Proofs.Exposing
import DiagramSearch.Proofs.Certifying
import DiagramSearch.Proofs.Fusing
import DiagramSearch.Proofs.Complying
import DiagramSearch.Proofs.Arranging
import DiagramSearch.Proofs.Tightening
import DiagramSearch.Proofs.Clustering
import DiagramSearch.Proofs.Transitions
import DiagramSearch.Proofs.Redirecting
import DiagramSearch.Proofs.Measuring
