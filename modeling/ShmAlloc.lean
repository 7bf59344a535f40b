import ShmAlloc.Lib.ByteMem
import ShmAlloc.Lib.Trace
import ShmAlloc.Layout
import ShmAlloc.Api
import ShmAlloc.Guarantees.Failure
import ShmAlloc.Guarantees.Heap
import ShmAlloc.Guarantees.Isolation
import ShmAlloc.Guarantees.Content
import ShmAlloc.Guarantees.Stale
import ShmAlloc.Guarantees.Placement
import ShmAlloc.Guarantees.Sizes
import ShmAlloc.Guarantees.Capability
import ShmAlloc.Guarantees.Temporal
import ShmAlloc.Guarantees.Revocation
import ShmAlloc.Guarantees.Sealing
import ShmAlloc.Guarantees.Offsets
import ShmAlloc.Guarantees.DeadOffset
import ShmAlloc.Guarantees.Naming
import ShmAlloc.Guarantees.Make
import ShmAlloc.Guarantees.Open
import ShmAlloc.Guarantees.Creation
import ShmAlloc.Guarantees.CacheLines
import ShmAlloc.Guarantees.Iteration
import ShmAlloc.Guarantees.Publication
import ShmAlloc.Guarantees.Persistence
import ShmAlloc.Guarantees.Fingerprint
import ShmAlloc.Guarantees.Release
import ShmAlloc.Guarantees.Crash
import ShmAlloc.Guarantees.Returning
import ShmAlloc.Guarantees.Readers
import ShmAlloc.Guarantees.Room
import ShmAlloc.Guarantees.Concurrency
import ShmAlloc.Guarantees.Refinement
import ShmAlloc.Guarantees.Linearizability
import ShmAlloc.Guarantees.Attachment
import ShmAlloc.Guarantees.History
import ShmAlloc.Guarantees.Handles
