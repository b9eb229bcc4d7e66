import Libcrpm.StateProtocol
import Libcrpm.NvmRuns
import Libcrpm.HybridRuns
import Libcrpm.Registry
import Libcrpm.Instrumentation
import Libcrpm.BarrierSafety
import Libcrpm.MProtectRuns
import Libcrpm.MpiAgreement
import Libcrpm.DirtyBit
import Libcrpm.ExternalCalls
import Libcrpm.PointerFlow
import Libcrpm.LoopAggregation
import Libcrpm.Annotations
import Libcrpm.BackAllocation
import Libcrpm.StructStores
import Libcrpm.HybridMapping
import Libcrpm.EndOfCheckpoint
import Libcrpm.HybridTracking
import Libcrpm.NvmMappingRuns
import Libcrpm.MpiRuns
import Libcrpm.CleanerShutdown
import Libcrpm.UndoLog
import Libcrpm.UndoLogCapacity
import Libcrpm.ImageLayout
import Libcrpm.Displacement
import Libcrpm.AddressBuffers
import Libcrpm.RangeHooks
import Libcrpm.Memory.LinkedList
import Libcrpm.LRMalloc
import Libcrpm.LRMallocLayout
import Libcrpm.LRMallocStack
import Libcrpm.LRMallocBlocks
import Libcrpm.LRMallocClasses
import Libcrpm.LRMallocFlush
import Libcrpm.LRMallocLarge
import Libcrpm.LRMallocFill
import Libcrpm.LRMallocCalls
import Libcrpm.LRMallocRuns
import Libcrpm.LRMallocConservation
import Libcrpm.LRMallocProgress
import Libcrpm.LRMallocSizes
import Libcrpm.WriteElimination
import Libcrpm.Program.History
import Libcrpm.BitSets
import Libcrpm.PPtr
import Libcrpm.AtomicStampedPPtr
import Libcrpm.Graph.Saturation
import Libcrpm.CheckpointCalls
import Libcrpm.SuperblockStack
import Libcrpm.SuperblockStackInv
import Libcrpm.SuperblockStackRuns
import Libcrpm.LRMallocSafety
import Libcrpm.LRMallocReopen
import Libcrpm.Persistence.SharedMemory
import Libcrpm.Program.SpinLocks
import Libcrpm.FlushLists
import Libcrpm.FlushSections
import Libcrpm.UndoLogThreads
import Libcrpm.UndoLogThreadsInv
import Libcrpm.UndoLogThreadsSteps
import Libcrpm.UndoLogThreadsRuns
import Libcrpm.UndoLogThreadsCheckpoint
import Libcrpm.UndoLogSnapshots
import Libcrpm.LmcEngine
import Libcrpm.LmcEngineInv
import Libcrpm.LmcEngineSteps
import Libcrpm.LmcEngineEpoch
import Libcrpm.LmcEngineCheckpoint
import Libcrpm.LmcEngineRuns
import Libcrpm.ThreadInfo
import Libcrpm.MpiCommit
import Libcrpm.HybridMpi
import Libcrpm.HybridMpiRound
import Libcrpm.HybridMpiAgreement
import Libcrpm.HybridMpiRuns
import Libcrpm.NaturalLoops
import Libcrpm.HookPlaces
import Libcrpm.HookMoves
