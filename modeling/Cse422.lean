import Cse422.Core.Lts
import Cse422.Core.Interleave
import Cse422.Paging.Module
import Cse422.Paging.Spec
import Cse422.Paging.Invariant
import Cse422.Paging.Accounting
import Cse422.Paging.Isolation
import Cse422.Paging.Prepage
import Cse422.Paging.MmapFailure
import Cse422.Paging.Residue
import Cse422.Paging.Demand
import Cse422.Paging.Unload
import Cse422.Paging.Closers
import Cse422.Paging.CloseRace
import Cse422.Paging.Handlers
import Cse422.Paging.FaultRace
import Cse422.Core.Kthread
import Cse422.Timer.Module
import Cse422.Timer.LostWake
import Cse422.Core.Words
import Cse422.Handover.Programs
import Cse422.Handover.Delivery
import Cse422.Handover.Restart
import Cse422.Handover.Startup
import Cse422.Records.Programs
import Cse422.Records.RoundTrip
import Cse422.Core.Fifo
import Cse422.Signals.Programs
import Cse422.Signals.Counting
import Cse422.Signals.Outcome
import Cse422.Server.Main
import Cse422.Server.Stale
import Cse422.Server.Network
import Cse422.Core.Nest
import Cse422.KernelMemory.Order
import Cse422.KernelMemory.Module
import Cse422.KernelMemory.Ownership
import Cse422.KernelMemory.Sizes
import Cse422.KernelMemory.Pattern
import Cse422.Paging.FaultOutcome
import Cse422.Timer.Creation
import Cse422.Core.Framing
import Cse422.Records.Decoding
import Cse422.Records.Concurrent
import Cse422.Records.Stream
import Cse422.Records.Buffer
import Cse422.Core.Files
import Cse422.Records.Writers
import Cse422.Sort.Program
import Cse422.Sort.Bounds
import Cse422.Core.Segments
import Cse422.Sort.Recursion
import Cse422.Sort.Exchange
import Cse422.Sort.Correct
import Cse422.Sort.Fractions
import Cse422.Core.Loops
import Cse422.DenseMm.Programs
import Cse422.DenseMm.Allocation
import Cse422.DenseMm.Parallel
import Cse422.DenseMm.Timed
import Cse422.DenseMm.Statistics
import Cse422.CoreThread.Module
import Cse422.CoreThread.Creation
import Cse422.CoreThread.Counting
import Cse422.Core.Ancestry
import Cse422.Kobject.Kstrtoint
import Cse422.FamilyReader.Module
import Cse422.FamilyReader.Walk
import Cse422.FamilyReader.References
import Cse422.Records.Header
import Cse422.Signals.Print500000
import Cse422.Signals.Report
import Cse422.VfsThread.Unload
import Cse422.ForkTree.Program
import Cse422.ForkTree.Complete
import Cse422.ForkTree.TearDown
import Cse422.Paging.Memory
import Cse422.Paging.OneTenant
import Cse422.ForkTree.Failures
import Cse422.Handover.Completion
import Cse422.Timer.Unload
import Cse422.Timer.Iterations
import Cse422.CoreThread.Termination
import Cse422.CoreThread.Slots
import Cse422.CoreThread.Unload
import Cse422.KernelMemory.Unload
import Cse422.Core.Bsearch
import Cse422.ArrSearch.Program
import Cse422.Kobject.Module
import Cse422.Sort.Accesses
import Cse422.Sort.Leaves
import Cse422.Paging.Process
import Cse422.Paging.Program
import Cse422.DenseMm.OnPaging
import Cse422.Server.Lifetime
import Cse422.Sort.OnPaging
