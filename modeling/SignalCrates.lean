import SignalCrates.CellRefinement
import SignalCrates.ExclusiveCell
import SignalCrates.FutexExclusion
import SignalCrates.FutexHandOut
import SignalCrates.FutexLock
import SignalCrates.FutexReentrancy
import SignalCrates.FutexWake
import SignalCrates.FutexWord
import SignalCrates.InterruptStack
import SignalCrates.LockCall
import SignalCrates.PipeLock
import SignalCrates.SignalLock
import SignalCrates.TransitionSystem
import SignalCrates.PipeExclusion
import SignalCrates.PipeReentrancy
import SignalCrates.Reentrancy
import SignalCrates.OrderedMap
import SignalCrates.Mmapcatch
import SignalCrates.MmapRegistry
import SignalCrates.PageSize
import SignalCrates.SigbusHandler
import SignalCrates.MmapReports
import SignalCrates.SigbusPages
import SignalCrates.MemoryModel
import SignalCrates.PipeFences
import SignalCrates.PipeWake
import SignalCrates.Potential
import SignalCrates.FutexProgress
import SignalCrates.FutexTermination
import SignalCrates.PipeTermination
import SignalCrates.FutexOrder
import SignalCrates.PipeOrder
import SignalCrates.OnceOrder
import SignalCrates.RegistryCalls
import SignalCrates.OptimisticHandler
import SignalCrates.PipeProgress
import SignalCrates.PipeCounter
import SignalCrates.Fork
import SignalCrates.ForkCall
import SignalCrates.FutexFork
import SignalCrates.PipeFork
import SignalCrates.ForkReentrancy
import SignalCrates.PipeForkWake
import SignalCrates.SigbusReplacement
import SignalCrates.ShrinkingFile
import SignalCrates.RegisterErrors
import SignalCrates.StaticRoot
import SignalCrates.WriteAll
import SignalCrates.AbortFmt
import SignalCrates.FutexTla
import SignalCrates.PipeTla
