import BoundaryHeap.Arena.Lemmas
import BoundaryHeap.Arena.Lifecycle
import BoundaryHeap.BlockMap
import BoundaryHeap.Heap.Run
import BoundaryHeap.Heap.Sound
import BoundaryHeap.Main
import BoundaryHeap.Proofs.Acceptance
import BoundaryHeap.Proofs.Accounting
import BoundaryHeap.Proofs.Audits
import BoundaryHeap.Proofs.BlockWalks
import BoundaryHeap.Proofs.CleanReports
import BoundaryHeap.Proofs.Creation
import BoundaryHeap.Proofs.Draws
import BoundaryHeap.Proofs.Edits
import BoundaryHeap.Proofs.Entries
import BoundaryHeap.Proofs.Findings
import BoundaryHeap.Proofs.Fragments
import BoundaryHeap.Proofs.Freeing
import BoundaryHeap.Proofs.Grants
import BoundaryHeap.Proofs.Growth
import BoundaryHeap.Proofs.Holes
import BoundaryHeap.Proofs.Isolation
import BoundaryHeap.Proofs.Ledgers
import BoundaryHeap.Proofs.Maps
import BoundaryHeap.Proofs.Merging
import BoundaryHeap.Proofs.Moves
import BoundaryHeap.Proofs.NewHeaps
import BoundaryHeap.Proofs.Noninterference
import BoundaryHeap.Proofs.Overlaps
import BoundaryHeap.Proofs.Placing
import BoundaryHeap.Proofs.Refinement
import BoundaryHeap.Proofs.Releases
import BoundaryHeap.Proofs.Replays
import BoundaryHeap.Proofs.Represents
import BoundaryHeap.Proofs.Requests
import BoundaryHeap.Proofs.RingLists
import BoundaryHeap.Proofs.RingWalks
import BoundaryHeap.Proofs.Rings
import BoundaryHeap.Proofs.RoundTrips
import BoundaryHeap.Proofs.Rounding
import BoundaryHeap.Proofs.Rows
import BoundaryHeap.Proofs.Runs
import BoundaryHeap.Proofs.Safety
import BoundaryHeap.Proofs.Steps
import BoundaryHeap.Proofs.TagReads
import BoundaryHeap.Proofs.Tilings
import BoundaryHeap.Proofs.Views
import BoundaryHeap.Workload.Replay
