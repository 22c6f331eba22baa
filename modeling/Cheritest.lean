import Cheritest.Lib.Transition
import Cheritest.Lib.CounterBarrier
import Cheritest.Lib.LoopMachine
import Cheritest.Lib.LoadLinked
import Cheritest.Lib.HandOver
import Cheritest.Lib.LevelOrder
import Cheritest.Lib.Congruential
import Cheritest.Lib.BlockCopy
import Cheritest.Lib.Deletion
import Cheritest.Lib.Text
import Cheritest.Lib.Digits
import Cheritest.Lib.Template
import Cheritest.Lib.Buffer
import Cheritest.Lib.Pattern
import Cheritest.Mips.Machine
import Cheritest.Mips.Insn
import Cheritest.Mips.Run
import Cheritest.Mips.Copy
import Cheritest.Mips.Shared
import Cheritest.Mips.Frame
import Cheritest.Mips.BranchWord
import Cheritest.Macros.TrapHandler
import Cheritest.LibS.Memcpy
import Cheritest.LibS.MemcpyRun
import Cheritest.LibS.Bzero
import Cheritest.LibS.Smemcpy
import Cheritest.LibS.MemcpyTags
import Cheritest.LibS.Corethread
import Cheritest.LibS.Barrier
import Cheritest.LibS.BarrierFrame
import Cheritest.LibS.Start
import Cheritest.Multicore.Llsc
import Cheritest.Multicore.LlscPlaces
import Cheritest.Multicore.LlscTotal
import Cheritest.Multicore.AddrSafe
import Cheritest.Tools.Sim
import Cheritest.Tools.L3tosim
import Cheritest.Tools.L3Log
import Cheritest.Tools.L3Capabilities
import Cheritest.Tools.ICache
import Cheritest.Tools.Gxemul
import Cheritest.Tools.ElfhdrDecode
import Cheritest.Dma.Program
import Cheritest.Dma.Random
import Cheritest.Dma.Structure
import Cheritest.Dma.StructureTree
import Cheritest.Dma.StructureBounds
import Cheritest.Dma.Transfers
import Cheritest.Dma.Multithread
import Cheritest.Dma.Virtualised
import Cheritest.Dma.VirtualisedSound
import Cheritest.Dma.SingleTests
import Cheritest.Dma.MultithreadTests
import Cheritest.Dma.RecordList
import Cheritest.Dma.Overwrites
import Cheritest.Dma.SwitchTest
import Cheritest.Dma.GeneratedTest
import Cheritest.CheriC.TestRuntime
import Cheritest.CheriC.EmulateBranch
import Cheritest.CheriC.Builtins
import Cheritest.CheriC.InitGlobals
import Cheritest.CheriC.MemcpyCorrect
import Cheritest.Fuzz.Shrink
import Cheritest.Fuzz.Generate
import Cheritest.Multicore.CoherenceSequential
import Cheritest.Purecap.Atomic
import Cheritest.Purecap.AtomicCalls
