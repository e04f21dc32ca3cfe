import Cs537.Lib.Run
import Cs537.Lib.BitField
import Cs537.Lib.Holdings
import Cs537.Lib.File
import Cs537.Lib.Ring
import Cs537.Lib.Bytes
import Cs537.SharedMem.Machine
import Cs537.SharedMem.Calls
import Cs537.SharedMem.Args
import Cs537.SharedMem.Paging
import Cs537.SharedMem.Layout
import Cs537.SharedMem.System
import Cs537.SharedMem.Inv
import Cs537.SharedMem.Effects
import Cs537.SharedMem.Steps
import Cs537.SharedMem.Sharing
import Cs537.SharedMem.Supply
import Cs537.SharedMem.Grow
import Cs537.SharedMem.Attach
import Cs537.SharedMem.Abandon
import Cs537.SharedMem.Checked
import Cs537.SharedMem.Inherit
import Cs537.CheckedFs.Block
import Cs537.CheckedFs.Fs
import Cs537.CheckedFs.Bitmap
import Cs537.CheckedFs.Dinodes
import Cs537.CheckedFs.Mkfs
import Cs537.CheckedFs.Icache
import Cs537.CheckedFs.Tree
import Cs537.CheckedFs.Write
import Cs537.CheckedFs.Writei
import Cs537.CheckedFs.Contents
import Cs537.CheckedFs.Agree
import Cs537.CheckedFs.Evict
import Cs537.CheckedFs.Truncate
import Cs537.CheckedFs.FileSys
import Cs537.CheckedFs.Account
import Cs537.CheckedFs.Balloc
import Cs537.CheckedFs.Stat
import Cs537.CheckedFs.Corrupt
import Cs537.Mlfq.Proc
import Cs537.Mlfq.System
import Cs537.Mlfq.Scan
import Cs537.Mlfq.Cpus
import Cs537.Mlfq.Strict
import Cs537.Mlfq.Conserve
import Cs537.Mlfq.Pinfo
import Cs537.Mlfq.Seats
import Cs537.Mlfq.Account
import Cs537.Mlfq.Slices
import Cs537.Mlfq.Whole
import Cs537.Mlfq.Starved
import Cs537.Mlfq.Tally
import Cs537.Mlfq.Rate
import Cs537.Threads.Table
import Cs537.Threads.Dirs
import Cs537.Threads.Family
import Cs537.Threads.Join
import Cs537.Threads.Sbrk
import Cs537.Server.Server
import Cs537.Varsort.Varsort
import Cs537.Lib.Strtok
import Cs537.Lib.Checked
import Cs537.Lib.Chain
import Cs537.Lib.Xor
import Cs537.Mysh.Batch
import Cs537.Mysh.Jobs
import Cs537.Lib.Memory
import Cs537.Lib.Guard
import Cs537.Fscheck.Check
import Cs537.Fscheck.Spec
import Cs537.Fscheck.Blocks
import Cs537.Fscheck.Names
import Cs537.Fscheck.Counts
import Cs537.Fscheck.Parent
import Cs537.Fscheck.Bounds
import Cs537.Stats.Clients
import Cs537.Stats.Slots
import Cs537.Lib.Ranges
import Cs537.Mkfs.Image
import Cs537.Mkfs.Blocks
import Cs537.Mkfs.Append
import Cs537.Mkfs.Inodes
import Cs537.Mkfs.Calls
import Cs537.Mkfs.Tree
import Cs537.Mkfs.Room
import Cs537.Mkfs.Main
import Cs537.Mkfs.Regions
import Cs537.Mkfs.Named
import Cs537.Mkfs.Entries
import Cs537.Mkfs.Checked
import Cs537.Mkfs.Geometry
import Cs537.Threads.Count
import Cs537.Server.Calls
import Cs537.Mysh.Records
import Cs537.Mysh.Bounds
import Cs537.Lib.Lines
import Cs537.Lib.Path
import Cs537.Request.Rio
import Cs537.Request.Headers
import Cs537.Request.Handle
import Cs537.Request.Confine
import Cs537.Request.Sizes
import Cs537.Request.Stale
import Cs537.Threads.User
import Cs537.Mlfq.Fork
import Cs537.Mlfq.Pids
import Cs537.Mlfq.Queue
import Cs537.Syscount.Kernel
import Cs537.Syscount.Family
import Cs537.Syscount.Counter
import Cs537.Files.Pipe
import Cs537.Files.System
import Cs537.Files.Held
import Cs537.Files.Inv
import Cs537.Files.Table
import Cs537.Files.Safe
import Cs537.Files.Flow
import Cs537.Lib.Links
import Cs537.Bcache.System
import Cs537.Bcache.Inv
import Cs537.Bcache.Owners
import Cs537.Bcache.Coherent
import Cs537.Bcache.Turns
import Cs537.Lib.Extents
import Cs537.Umalloc.Heap
import Cs537.Umalloc.Ring
import Cs537.Umalloc.Malloc
import Cs537.Umalloc.Safe
import Cs537.Names.System
import Cs537.Names.Entries
import Cs537.Names.Shape
import Cs537.Names.Inv
import Cs537.Names.Steps
import Cs537.Names.Nodes
import Cs537.Names.Unlink
import Cs537.Names.Safe
import Cs537.Names.Panics
import Cs537.Names.Runs
