import Sbunix.Sys.PageRun
import Sbunix.Sys.Boot
import Sbunix.Sys.ExitRun
import Sbunix.Sys.WaitRun
import Sbunix.Sys.FaultVmas
import Sbunix.Sys.KernelFrame
import Sbunix.Sys.FreshSpaces
import Sbunix.Sys.Malloc
import Sbunix.Sys.ForkTables
import Sbunix.Reasoning.CopyOnWrite
import Sbunix.Sys.DirectMap
import Sbunix.Sys.OutOfMemory
import Sbunix.Sys.Residue
import Sbunix.Sys.ExecFailure
import Sbunix.Sys.CowRun
import Sbunix.Sys.Timer
import Sbunix.Sys.LineBuffer
import Sbunix.Sys.Directory
import Sbunix.Sys.Descriptors
import Sbunix.Sys.WorkingDir
import Sbunix.Libc.HeapReuse
import Sbunix.Sys.RingUpdate
import Sbunix.Sys.StackGrowth
import Sbunix.Sys.LoadVmas
import Sbunix.Sys.TarWalk
import Sbunix.Sys.Kfree
import Sbunix.Sys.ExecPassing
import Sbunix.Sys.ReadFile
import Sbunix.Sys.DescriptorBounds
import Sbunix.Libc.Printf
import Sbunix.Libc.CdResolve
import Sbunix.Sys.DiskCommand
import Sbunix.Sys.DeletePagetable
import Sbunix.Sys.WalkReads
import Sbunix.Sys.MapThrough
import Sbunix.Sys.ImageMap
import Sbunix.Sys.ListProcess
import Sbunix.Libc.Substring
import Sbunix.Libc.PrintfBuffer
import Sbunix.Sys.Clock
import Sbunix.Bin.Sleep
import Sbunix.Sys.ProcFrames
import Sbunix.Sys.KernelStack
import Sbunix.Sys.FrameRun
import Sbunix.Sys.Start
import Sbunix.Sys.Terminal
import Sbunix.Bin.Cat
import Sbunix.Bin.Sbush
import Sbunix.Bin.Ls
