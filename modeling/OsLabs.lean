import OsLabs.Lib.Transition
import OsLabs.Lib.Ownership
import OsLabs.Lib.Namespace
import OsLabs.Ssd.Device
import OsLabs.Ssd.LogWrite
import OsLabs.Ssd.Collector
import OsLabs.Ssd.PageStore
import OsLabs.Ssd.DirectWrite
import OsLabs.Ssd.Discipline
import OsLabs.Ssd.TypeEquivalence
import OsLabs.Tsh.JobTable
import OsLabs.Tsh.Shell
import OsLabs.Tsh.Handler
import OsLabs.Tsh.Consistency
import OsLabs.Tsh.Wakeup
import OsLabs.Vsfs.FileSystem
import OsLabs.Vsfs.Storage
import OsLabs.Vsfs.Directory
import OsLabs.Ffs.FileSystem
import OsLabs.Ffs.Bitmap
import OsLabs.Ffs.Groups
import OsLabs.Ffs.Allocation
import OsLabs.Ffs.Operations
import OsLabs.Ffs.Consistency
import OsLabs.Vsfs.Entries
import OsLabs.Vsfs.Paths
import OsLabs.Vsfs.Requests
import OsLabs.Vsfs.Consistency
import OsLabs.Lfs.FileSystem
import OsLabs.Lfs.Log
import OsLabs.FileRaid.Mapping
import OsLabs.FileRaid.Layout
import OsLabs.Lib.Paging
import OsLabs.PagingPolicy.Simulator
import OsLabs.PagingPolicy.Inclusion
import OsLabs.PagingPolicy.Belady
import OsLabs.Lib.Extents
import OsLabs.FreeSpace.Allocator
import OsLabs.FreeSpace.Conservation
import OsLabs.Afs.Simulator
import OsLabs.Afs.Coherence
import OsLabs.Afs.Sessions
import OsLabs.Lib.Lines
import OsLabs.Rio.Buffer
import OsLabs.Rio.CommIo
import OsLabs.Rio.Csapp
import OsLabs.Echo.Server
import OsLabs.Echo.Integrity
import OsLabs.Lib.Loop
import OsLabs.ProcessRun.Scheduler
import OsLabs.ProcessRun.Placement
import OsLabs.ProcessRun.Completion
import OsLabs.ProcessRun.Execution
import OsLabs.Mlfq.Scheduler
import OsLabs.Mlfq.Queues
import OsLabs.Mlfq.Execution
import OsLabs.Mlfq.Runs
import OsLabs.Lfs.Directory
import OsLabs.Lfs.Operations
import OsLabs.Lfs.Agreement
import OsLabs.Tsh.JobIds
import OsLabs.Concurrent.Rwlock
import OsLabs.Concurrent.Zemaphore
import OsLabs.Concurrent.Sbuf
import OsLabs.Concurrent.ProducerConsumer
import OsLabs.Concurrent.TwoCvs.Program
import OsLabs.Concurrent.TwoCvs.Monitor
import OsLabs.Concurrent.TwoCvs.Stream
import OsLabs.Concurrent.TwoCvs.Progress
import OsLabs.Concurrent.TwoCvs.Values
import OsLabs.Concurrent.VectorAdd.Serial
import OsLabs.Concurrent.VectorAdd.GlobalOrder
import OsLabs.Concurrent.VectorAdd.AvoidHoldAndWait
import OsLabs.Concurrent.VectorAdd.Atomicity
import OsLabs.Lib.Checked
import OsLabs.Multilevel.Translate
import OsLabs.Multilevel.Tables
import OsLabs.Multilevel.Allocation
import OsLabs.CpuSchedMulti.Scheduler
import OsLabs.CpuSchedMulti.Placement
import OsLabs.CpuSchedMulti.Start
import OsLabs.CpuSchedMulti.Phases
import OsLabs.CpuSchedMulti.Runs
import OsLabs.Lib.SharedMemory
import OsLabs.X86.Machine
import OsLabs.X86.Processes
import OsLabs.X86.Switch
import OsLabs.X86.Transparency
import OsLabs.Segmentation.Protection
import OsLabs.Lib.CString
import OsLabs.Tsh.Parseline
import OsLabs.Msh.Parse
import OsLabs.Tsh.Eval
import OsLabs.Lib.ChildTree
import OsLabs.Fork.Processes
import OsLabs.Malloc.Rover
import OsLabs.Malloc.Realloc
import OsLabs.Rio.Agreement
import OsLabs.Tiny.Headers
import OsLabs.Tiny.Bounds
import OsLabs.Ffs.Progress
import OsLabs.Ffs.Windows
import OsLabs.Ffs.Atomicity
import OsLabs.Lfs.Atomicity
import OsLabs.Lfs.Frame
import OsLabs.Lfs.Sizes
import OsLabs.Fsck.Corruption
import OsLabs.Generator.Completeness
import OsLabs.Mlfq.Accounting
import OsLabs.Mlfq.Stay
import OsLabs.Datalab.Bits
import OsLabs.Matmult.Loops
import OsLabs.FileRaid.Parity
import OsLabs.FileRaid.Costs
import OsLabs.FreeSpace.Maximal
import OsLabs.FreeSpace.Driver
import OsLabs.Lfs.LinkCounts
import OsLabs.FileIntegrity.Checksum
import OsLabs.CpuSched.Fifo
import OsLabs.CpuSched.RoundRobin
import OsLabs.Lottery.Scheduler
import OsLabs.PagingPolicy.Clock
import OsLabs.ProcessRun.FileDevices
import OsLabs.Concurrent.Psum
import OsLabs.X86.Labels
import OsLabs.X86.Addresses
import OsLabs.Generator.Spacing
import OsLabs.CpuSchedMulti.Caches
import OsLabs.FileDisks.Layout
import OsLabs.FileDisks.Scheduler
import OsLabs.FileDisks.Fairness
import OsLabs.Relocation.Simulator
import OsLabs.Relocation.Bounds
import OsLabs.Pstack.Program
import OsLabs.Pstack.Refinement
import OsLabs.Lib.PagingPhases
import OsLabs.PagingPolicy.Competitive
import OsLabs.Lib.Ending
import OsLabs.Concurrent.Dining
import OsLabs.Concurrent.VectorAdd.TryWait
import OsLabs.Concurrent.VectorAdd.HoldAndWait
import OsLabs.Concurrent.VectorAdd.NoLock
import OsLabs.Rio.Pipe
import OsLabs.Lfs.Liveness
import OsLabs.Lib.LostUpdate
import OsLabs.X86.LoopingRace
import OsLabs.X86.Races
import OsLabs.Concurrent.Badcnt
import OsLabs.Concurrent.SingleCv.Monitor
import OsLabs.Concurrent.SingleCv.Deadlock
