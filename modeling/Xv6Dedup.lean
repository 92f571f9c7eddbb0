import Xv6Dedup.Kernel.Dedup
import Xv6Dedup.Kernel.File
import Xv6Dedup.Kernel.InodesProperties
import Xv6Dedup.Crash.LogAtomicity
import Xv6Dedup.Kernel.Image
import Xv6Dedup.Concurrency.CircularWait
import Xv6Dedup.Dedup.Pass
import Xv6Dedup.Dedup.Core
import Xv6Dedup.Crash.DedupCrash
import Xv6Dedup.Mkfs.Main
import Xv6Dedup.Mkfs.Laying
import Xv6Dedup.Mkfs.Appending
import Xv6Dedup.Mkfs.Building
import Xv6Dedup.Mkfs.Outcome
import Xv6Dedup.Kernel.Directory
import Xv6Dedup.Mkfs.Booting
import Xv6Dedup.Concurrency.Cursor
import Xv6Dedup.Concurrency.Counting
import Xv6Dedup.Concurrency.Deletion
import Xv6Dedup.Base.Frame
import Xv6Dedup.System.Calls
import Xv6Dedup.Kernel.Footprint
import Xv6Dedup.System.References
import Xv6Dedup.System.Lookup
import Xv6Dedup.System.Effects
import Xv6Dedup.System.Discipline
import Xv6Dedup.System.Books
import Xv6Dedup.Base.Ownership
import Xv6Dedup.Paging.Frames
import Xv6Dedup.Paging.Isolation
import Xv6Dedup.Paging.Size
import Xv6Dedup.Paging.Growth
import Xv6Dedup.Paging.Loading
import Xv6Dedup.Paging.Overrun
import Xv6Dedup.Tree.Holding
import Xv6Dedup.Tree.Effects
import Xv6Dedup.Tree.Lifetime
import Xv6Dedup.Base.Hierarchy
import Xv6Dedup.Tree.Shape
import Xv6Dedup.Tree.Structure
import Xv6Dedup.Tree.Links
import Xv6Dedup.Tree.Wrapping
import Xv6Dedup.Process.Killing
import Xv6Dedup.Process.Machine
import Xv6Dedup.Process.Scheduling
import Xv6Dedup.Process.Reaping
import Xv6Dedup.Base.Monitor
import Xv6Dedup.Base.Ring
import Xv6Dedup.Sleeping.Model
import Xv6Dedup.Sleeping.PipeFifo
import Xv6Dedup.Sleeping.Rules
import Xv6Dedup.Sleeping.Kills
import Xv6Dedup.Sleeping.Discipline
import Xv6Dedup.Sleeping.Wakeups
import Xv6Dedup.Shell.Grammar
import Xv6Dedup.Kernel.Queries
import Xv6Dedup.Mkfs.Report
import Xv6Dedup.System.FileBlocks
import Xv6Dedup.Tree.FullDirectory
import Xv6Dedup.Boot.Mp
import Xv6Dedup.Concurrency.Ide
import Xv6Dedup.Grep.Matcher
import Xv6Dedup.Kernel.Memmove
import Xv6Dedup.Paging.Copying
import Xv6Dedup.Paging.Range
