import SeL4Sys.Alloc
import SeL4Sys.AllocRuns
import SeL4Sys.AllocSafe
import SeL4Sys.AllocTheorems
import SeL4Sys.BlockCount
import SeL4Sys.BlockGrow
import SeL4Sys.BlockMap
import SeL4Sys.BlockTree
import SeL4Sys.BlockUse
import SeL4Sys.BrkReturns
import SeL4Sys.BufferPages
import SeL4Sys.ByteOffsets
import SeL4Sys.CommandLine
import SeL4Sys.ContentRuns
import SeL4Sys.CreateFinds
import SeL4Sys.CreateFrame
import SeL4Sys.Descriptors
import SeL4Sys.DirAdd
import SeL4Sys.DirAtomic
import SeL4Sys.DirEdit
import SeL4Sys.DirGrow
import SeL4Sys.DirOps
import SeL4Sys.DirRuns
import SeL4Sys.DirTree
import SeL4Sys.DirWalk
import SeL4Sys.Directory
import SeL4Sys.Disk
import SeL4Sys.DiskSectors
import SeL4Sys.Elf
import SeL4Sys.EntryAdded
import SeL4Sys.Eviction
import SeL4Sys.Execve
import SeL4Sys.FaultLoop
import SeL4Sys.FaultService
import SeL4Sys.FileBlocks
import SeL4Sys.FileContent
import SeL4Sys.FileGap
import SeL4Sys.FileOps
import SeL4Sys.FileRead
import SeL4Sys.FileRuns
import SeL4Sys.FileTree
import SeL4Sys.FileWrite
import SeL4Sys.FirstTouch
import SeL4Sys.Frame
import SeL4Sys.Geometry
import SeL4Sys.GroupBound
import SeL4Sys.GroupCount
import SeL4Sys.GroupLayout
import SeL4Sys.HeapGrow
import SeL4Sys.HeapRuns
import SeL4Sys.InodeRuns
import SeL4Sys.InodeUse
import SeL4Sys.InputLine
import SeL4Sys.Keyboard
import SeL4Sys.Ladders
import SeL4Sys.Layout
import SeL4Sys.Lib.Bitmap
import SeL4Sys.Lib.Bytes
import SeL4Sys.Lib.CString
import SeL4Sys.Lib.Clock
import SeL4Sys.Lib.Fair
import SeL4Sys.Lib.IndexTree
import SeL4Sys.Lib.Interleave
import SeL4Sys.Lib.Loop
import SeL4Sys.Lib.NameTree
import SeL4Sys.Lib.Ring
import SeL4Sys.Lib.Sheet
import SeL4Sys.Lib.StringRead
import SeL4Sys.Lib.Words
import SeL4Sys.Lookup
import SeL4Sys.LookupTypes
import SeL4Sys.Mount
import SeL4Sys.MountAny
import SeL4Sys.NameStored
import SeL4Sys.Offsets
import SeL4Sys.OpenRefused
import SeL4Sys.OutOfSpace
import SeL4Sys.Ownership
import SeL4Sys.OwnershipAlloc
import SeL4Sys.OwnershipFree
import SeL4Sys.OwnershipRuns
import SeL4Sys.Packed
import SeL4Sys.PageContent
import SeL4Sys.PageDisk
import SeL4Sys.PageReplace
import SeL4Sys.PageTable
import SeL4Sys.Pagefile
import SeL4Sys.PagefileRuns
import SeL4Sys.PathBounds
import SeL4Sys.PathReads
import SeL4Sys.PathSplit
import SeL4Sys.Paths
import SeL4Sys.Projection
import SeL4Sys.Records
import SeL4Sys.Release
import SeL4Sys.RequestRegions
import SeL4Sys.Requests
import SeL4Sys.ResidentSet
import SeL4Sys.SecondChance
import SeL4Sys.Serial
import SeL4Sys.Server
import SeL4Sys.SessionStore
import SeL4Sys.Shell
import SeL4Sys.StepPlaces
import SeL4Sys.StepRegions
import SeL4Sys.Steps
import SeL4Sys.StepsRun
import SeL4Sys.SyscallBounds
import SeL4Sys.UnlinkExact
import SeL4Sys.UserBuffers
import SeL4Sys.Vga
import SeL4Sys.Victim
import SeL4Sys.Vm
import SeL4Sys.VmOk
import SeL4Sys.VmSteps
import SeL4Sys.VmSystem
import SeL4Sys.WorkerPool
import SeL4Sys.WorkerRuns
import SeL4Sys.Writev
