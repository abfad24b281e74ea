import CountedMachine.Main
import CountedMachine.Machine.Host
import CountedMachine.Proofs.Generation.Compile
import CountedMachine.Proofs.Heap.Histories
import CountedMachine.Proofs.Ownership.Acceptance
import CountedMachine.Proofs.Generation.Scoping
import CountedMachine.Proofs.Machine.Suspension
import CountedMachine.Proofs.Generation.Closed
import CountedMachine.Proofs.Machine.TailCalls
import CountedMachine.Proofs.Code.Untraced
import CountedMachine.Proofs.Heap.Untraced
import CountedMachine.Proofs.Machine.Replies
import CountedMachine.Proofs.Generation.Untraced
import CountedMachine.Proofs.Expr.RoundTrip
import CountedMachine.Proofs.Heap.Watching
import CountedMachine.Proofs.Heap.Exactness
import CountedMachine.Proofs.Generation.Tidied
import CountedMachine.Proofs.Heap.Blurred
import CountedMachine.Proofs.Heap.Estimates
import CountedMachine.Proofs.Heap.SameButEstimates
import CountedMachine.Proofs.Machine.Custody
import CountedMachine.Proofs.Machine.IdleLoads.Relation
import CountedMachine.Proofs.Machine.IdleLoads.Hosts
import CountedMachine.Proofs.Listing.Sequences
import CountedMachine.Proofs.Ownership.Lives
import CountedMachine.Proofs.Machine.Assembled
import CountedMachine.Proofs.Generation.Pool
import CountedMachine.Proofs.Heap.Equality
import CountedMachine.Proofs.Machine.FrameLimits
import CountedMachine.Proofs.Machine.Folding
import CountedMachine.Proofs.Generation.Recursion
import CountedMachine.Proofs.Heap.Arena
import CountedMachine.Proofs.Ownership.Search
import CountedMachine.Proofs.Machine.Lockstep
import CountedMachine.Proofs.Matching.Lowering
import CountedMachine.Proofs.Machine.Leaks
import CountedMachine.Proofs.Heap.Paired
import CountedMachine.Proofs.Machine.Turns.Relation
import CountedMachine.Proofs.Machine.Turns.Instructions
import CountedMachine.Proofs.Machine.Turns.Calls
import CountedMachine.Proofs.Machine.Interleaving
