import CanidaeOS.Atoi
import CanidaeOS.AwdAlloc
import CanidaeOS.AwdBytes
import CanidaeOS.AwdCommit
import CanidaeOS.AwdConsole
import CanidaeOS.AwdElf
import CanidaeOS.AwdEntered
import CanidaeOS.AwdImage
import CanidaeOS.AwdKernel
import CanidaeOS.AwdMain
import CanidaeOS.AwdMemory
import CanidaeOS.AwdMultiboot
import CanidaeOS.AwdPaging
import CanidaeOS.AwdReads
import CanidaeOS.AwdRoom
import CanidaeOS.AwdSegments
import CanidaeOS.AwdStale
import CanidaeOS.AwdTotal
import CanidaeOS.AwdWindow
import CanidaeOS.Bitset
import CanidaeOS.BitsetRuns
import CanidaeOS.Chains
import CanidaeOS.CreateThread
import CanidaeOS.Debugger
import CanidaeOS.DebuggerCommands
import CanidaeOS.DebuggerLine
import CanidaeOS.DebuggerPrompt
import CanidaeOS.FaultHandler
import CanidaeOS.HandOver
import CanidaeOS.Heap
import CanidaeOS.HeapBlocks
import CanidaeOS.HeapFrames
import CanidaeOS.HeapMarks
import CanidaeOS.Idt
import CanidaeOS.InterruptHandler
import CanidaeOS.InterruptRuns
import CanidaeOS.InterruptStubs
import CanidaeOS.Itoa
import CanidaeOS.Kernel
import CanidaeOS.Keyboard
import CanidaeOS.KeyboardDecode
import CanidaeOS.KeyboardPop
import CanidaeOS.Libc
import CanidaeOS.LinkedList
import CanidaeOS.Log
import CanidaeOS.LogText
import CanidaeOS.MapBounds
import CanidaeOS.Memory
import CanidaeOS.MemoryMap
import CanidaeOS.NewThreads
import CanidaeOS.Outcome
import CanidaeOS.PageMap
import CanidaeOS.PageWalk
import CanidaeOS.Pic8259
import CanidaeOS.Pmm
import CanidaeOS.PmmAccounting
import CanidaeOS.PmmFirstFit
import CanidaeOS.PmmRuns
import CanidaeOS.Preemption
import CanidaeOS.RadixTree
import CanidaeOS.Runs
import CanidaeOS.Scheduler
import CanidaeOS.SchedulerInvariant
import CanidaeOS.SchedulerReach
import CanidaeOS.SchedulerRotation
import CanidaeOS.SchedulerRuns
import CanidaeOS.SchedulerTasks
import CanidaeOS.Strcmp
import CanidaeOS.SwitchTask
import CanidaeOS.SwitchThread
import CanidaeOS.TaskSpaces
import CanidaeOS.Uart16550
import CanidaeOS.VgaConsole
import CanidaeOS.Vmm
import CanidaeOS.VmmChosen
import CanidaeOS.VmmCover
import CanidaeOS.VmmFrames
import CanidaeOS.VmmLoops
import CanidaeOS.VmmMap
import CanidaeOS.VmmProgress
import CanidaeOS.VmmRuns
import CanidaeOS.VmmScopes
import CanidaeOS.VmmTlb
import CanidaeOS.VmmTotal
import CanidaeOS.Vprintf
import CanidaeOS.VprintfPieces
import CanidaeOS.VprintfScan
import CanidaeOS.VprintfSigned
import CanidaeOS.X86
