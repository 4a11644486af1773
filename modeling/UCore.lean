import UCore.Defs
import UCore.FirstFit.Model
import UCore.FirstFit.Blocks
import UCore.FirstFit.Safety
import UCore.BestFit.Optimal
import UCore.Library.Counting
import UCore.Process.State
import UCore.Sched.Model
import UCore.Sched.Safety
import UCore.Sync.Monitor
import UCore.Sync.MonitorSafety
import UCore.Sync.Sem
import UCore.Sync.SemSafety
import UCore.Cow.Invariant
import UCore.Cow.Handlers
import UCore.Cow.Ops
import UCore.Cow.Safety
import UCore.Fork.Isolation
import UCore.Library.Family
import UCore.Process.Exit
import UCore.Process.System
import UCore.Slub.Kmalloc
import UCore.Library.Program
import UCore.Trap.Fork
import UCore.Trap.Threads
import UCore.Trap.Exceptions
import UCore.UserMem.Access
import UCore.UserMem.Deadlock
import UCore.UserMem.Exec
import UCore.UserMem.Execve
import UCore.UserMem.Sequential
import UCore.Switch.Memory
import UCore.Switch.Safety
import UCore.Library.Code
import UCore.Sfs.Accounting
import UCore.Sfs.Reach
import UCore.Sfs.Sizes
import UCore.Sfs.Bytes
import UCore.Library.Deltas
import UCore.Library.Layout
import UCore.LoadIcode.Args
import UCore.LoadIcode.Pages
import UCore.LoadIcode.Headers
import UCore.LoadIcode.Image
import UCore.LoadIcode.Model
import UCore.LoadIcode.Reads
import UCore.LoadIcode.Segment
import UCore.LoadIcode.Stack
import UCore.LoadIcode.Supply
import UCore.Mksfs.Append
import UCore.Mksfs.Contents
import UCore.Sched.Deadlines
import UCore.Sched.Fairness
import UCore.Sched.Family
import UCore.Sfs.Durable
import UCore.Sfs.Steady
import UCore.Slub.Descriptor
import UCore.Slub.Lab2
import UCore.Slub.Lifecycle
import UCore.Sync.DinnerSema
import UCore.Sync.DinnerCondvar
import UCore.Vfs.Boot
import UCore.Vfs.Devices
import UCore.Vfs.Live
import UCore.Vfs.Contents
import UCore.Vfs.Open
import UCore.Vfs.Reading
import UCore.Vfs.Position
import UCore.Vfs.Lookup
import UCore.Vfs.Listing
import UCore.Vfs.Borrow
import UCore.Vfs.Namefile
import UCore.Vfs.Paths
import UCore.Library.SkewHeap
import UCore.Library.PerfectTree
import UCore.Library.Words
import UCore.SkewHeap.Trees
import UCore.SkewHeap.Correct
import UCore.Stride.Model
import UCore.Stride.Active
import UCore.Stride.Fair
import UCore.BuddyTree.Model
import UCore.BuddyTree.Loops
import UCore.BuddyTree.Search
import UCore.BuddyTree.Safety
import UCore.BuddyTree.Place
import UCore.BuddyTree.Complete
import UCore.Library.Dyadic
import UCore.Buddy.Model
import UCore.Buddy.Blocks
import UCore.Buddy.Calls
import UCore.Buddy.Init
import UCore.Buddy.Safety
import UCore.Buddy.Edge
import UCore.Library.Cycle
import UCore.Slob.Model
import UCore.Slob.Merge
import UCore.Slob.Steps
import UCore.Slob.Safety
import UCore.Slob.Big
import UCore.Slob.Requests
import UCore.Library.Intervals
import UCore.Vmm.Model
import UCore.Vmm.Map
import UCore.Vmm.Check
import UCore.Vmm.CopyString
import UCore.Stdin.Order
import UCore.Library.Bytes
import UCore.Disk0.Model
import UCore.Disk0.Exact
import UCore.Printf.Model
import UCore.Printf.Format
import UCore.Printf.Runs
import UCore.Printf.Bounded
import UCore.Printf.Strtol
import UCore.Dtb.Model
import UCore.Dtb.Scan
import UCore.Dtb.Tree
import UCore.Dtb.Selection
import UCore.Dtb.Confined
import UCore.Dtb.Memory
import UCore.SfsBitmap.Calls
import UCore.Shell.Runs
import UCore.Shell.Session
import UCore.BuddyTree.Bounds
