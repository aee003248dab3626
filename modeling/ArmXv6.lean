import ArmXv6.AddressSpace
import ArmXv6.Bio
import ArmXv6.BlockAlloc
import ArmXv6.BlockCache
import ArmXv6.BlockMap
import ArmXv6.BlockSpecs
import ArmXv6.Blocks
import ArmXv6.BootFrames
import ArmXv6.Bystanders
import ArmXv6.ByteSequences
import ArmXv6.Cache
import ArmXv6.CallRefs
import ArmXv6.Chunks
import ArmXv6.Console
import ArmXv6.Content
import ArmXv6.Copyout
import ArmXv6.CrashSafety
import ArmXv6.CreateSpecs
import ArmXv6.Descriptors
import ArmXv6.Directory
import ArmXv6.DirectoryMap
import ArmXv6.DiskImage
import ArmXv6.Dispatch
import ArmXv6.Duplication
import ArmXv6.Exec
import ArmXv6.ExecInputs
import ArmXv6.FailedCalls
import ArmXv6.FileAccess
import ArmXv6.FileData
import ArmXv6.FileRefs
import ArmXv6.ForkCopy
import ArmXv6.FrameAside
import ArmXv6.FrameBoot
import ArmXv6.FrameCalls
import ArmXv6.FrameExec
import ArmXv6.FrameFiles
import ArmXv6.FrameOwners
import ArmXv6.FrameProcs
import ArmXv6.FrameRuns
import ArmXv6.FrameWorld
import ArmXv6.Fs
import ArmXv6.FsRuns
import ArmXv6.FsSafety
import ArmXv6.Grep
import ArmXv6.GrepLines
import ArmXv6.Growproc
import ArmXv6.HeapLayout
import ArmXv6.HeapRuns
import ArmXv6.InodeRefs
import ArmXv6.InodeSpecs
import ArmXv6.Kernel
import ArmXv6.Kill
import ArmXv6.Lib.Bytes
import ArmXv6.Lib.Chain
import ArmXv6.Lib.Count
import ArmXv6.Lib.Exec
import ArmXv6.Lib.Fifo
import ArmXv6.Lib.Frames
import ArmXv6.Lib.Lines
import ArmXv6.Lib.Lockstep
import ArmXv6.Lib.Moves
import ArmXv6.Lib.Numerals
import ArmXv6.Lib.Owners
import ArmXv6.Lib.Patterns
import ArmXv6.Lib.Redo
import ArmXv6.Lib.Ring
import ArmXv6.Lib.SleepLock
import ArmXv6.Log
import ArmXv6.LongLocks
import ArmXv6.MemoryStops
import ArmXv6.Mkfs
import ArmXv6.MkfsImage
import ArmXv6.MkfsLayout
import ArmXv6.MkfsReads
import ArmXv6.MkfsTree
import ArmXv6.Mounted
import ArmXv6.Namespace
import ArmXv6.OnDisk
import ArmXv6.OpenCalls
import ArmXv6.OpenFiles
import ArmXv6.Ownership
import ArmXv6.Param
import ArmXv6.PathCalls
import ArmXv6.PathResolution
import ArmXv6.PathWalk
import ArmXv6.PipeRefs
import ArmXv6.PipeStream
import ArmXv6.Printint
import ArmXv6.Proc
import ArmXv6.ProcInvariant
import ArmXv6.ProcRefs
import ArmXv6.ProcTable
import ArmXv6.ProcessHeap
import ArmXv6.Quiet
import ArmXv6.Recovery
import ArmXv6.References
import ArmXv6.Resize
import ArmXv6.Runs
import ArmXv6.ShellGrammar
import ArmXv6.ShellParser
import ArmXv6.ShellParsing
import ArmXv6.ShellStrings
import ArmXv6.SpaceCalls
import ArmXv6.SparseRange
import ArmXv6.Spinlock
import ArmXv6.Strings
import ArmXv6.Syscall
import ArmXv6.Sysfile
import ArmXv6.SysfileSpecs
import ArmXv6.Transparency
import ArmXv6.Truncate
import ArmXv6.Umalloc
import ArmXv6.UserBuffers
import ArmXv6.Vm
import ArmXv6.Waiting
