import SysProg.Lib.Lts
import SysProg.Lib.Progress
import SysProg.Lib.AtomicObject
import SysProg.Lib.Loop
import SysProg.Lib.Bytes
import SysProg.Lib.ByteMemory
import SysProg.Lib.OrdMap
import SysProg.Lib.KMerge
import SysProg.Lib.HeapTree
import SysProg.Lib.Spans
import SysProg.Lib.Rows
import SysProg.Lib.Orbit
import SysProg.Lib.Pipeline
import SysProg.Lib.WireFormat
import SysProg.Lib.Recognizer
import SysProg.Lib.Lexer
import SysProg.Lib.LinkedCells
import SysProg.Syscalls.Wrappers
import SysProg.Syscalls.Tracer
import SysProg.Syscalls.TracerPairs
import SysProg.FileIo.MemFs
import SysProg.FileIo.Write
import SysProg.FileIo.Readdir
import SysProg.FileIo.Read
import SysProg.Sort.Streams
import SysProg.Sort.ExternalSort
import SysProg.Shell.Execute
import SysProg.Shell.Plumbing
import SysProg.Shell.Pipelines
import SysProg.Shell.Processes
import SysProg.Shell.NoDeadlock
import SysProg.Shell.Dataflow
import SysProg.Shell.Grammar
import SysProg.Shell.Scanner
import SysProg.Shell.ScannedWords
import SysProg.Shell.ScannedQuotes
import SysProg.Shell.Main
import SysProg.Shell.Actions
import SysProg.Shell.Lines
import SysProg.Shell.Structs
import SysProg.Shell.Rendering
import SysProg.Shell.ArgvBounds
import SysProg.Concurrency.SpinLock
import SysProg.Concurrency.LockFreeList
import SysProg.Concurrency.LockFreeChain
import SysProg.Concurrency.LockFreeInv
import SysProg.Concurrency.LockFreeSet
import SysProg.Concurrency.LockFreeRemoval
import SysProg.Concurrency.LockFreePrint
import SysProg.Concurrency.LockFreeProgress
import SysProg.Concurrency.HashMap
import SysProg.Concurrency.HashMapThreads
import SysProg.Concurrency.HashMapSections
import SysProg.Concurrency.HashMapLocks
import SysProg.Concurrency.HashMapSafety
import SysProg.Concurrency.LockFreeMap
import SysProg.Concurrency.LockFreeBuckets
import SysProg.Concurrency.TwoMaps
import SysProg.Memory.Config
import SysProg.Memory.Os
import SysProg.Memory.PageRows
import SysProg.Memory.BuddyAllocator
import SysProg.Memory.BuddyBitmap
import SysProg.Memory.BuddySpec
import SysProg.Memory.BuddyRuns
import SysProg.Memory.BuddyUsage
import SysProg.Memory.BuddyBlock
import SysProg.Memory.BuddyHeap
import SysProg.Memory.BuddyRealloc
import SysProg.Memory.SlotAllocator
import SysProg.Memory.SlotArena
import SysProg.Memory.SlotHeap
import SysProg.Memory.SlotRealloc
import SysProg.Memory.SlotRuns
import SysProg.Memory.DirectAllocator
import SysProg.Memory.Malloc
import SysProg.Memory.Realloc
import SysProg.Memory.ReallocRuns
import SysProg.Memory.ReallocData
import SysProg.Memory.ReallocNull
import SysProg.Memory.ReallocFailure
import SysProg.Memory.SlotReuse
import SysProg.Memory.DirectRuns
import SysProg.Memory.BuddySearch
import SysProg.Memory.BlockSearch
import SysProg.Memory.BuddyBounds
import SysProg.Memory.BlockRuns
import SysProg.Memory.BlockPages
import SysProg.Memory.SlotGrowth
import SysProg.Memory.Supply
import SysProg.Memory.Calloc
import SysProg.Sockets.Message
import SysProg.Sockets.Server
import SysProg.Sockets.Refinement
import SysProg.Sockets.Progress
import SysProg.Sockets.Counter
import SysProg.Sockets.Framing
import SysProg.Sockets.Request
import SysProg.Sockets.Connections
import SysProg.Sockets.RecvErrors
import SysProg.Sockets.Reply
