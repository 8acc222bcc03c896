import TlpiExercises.Transition
import TlpiExercises.PointerChain
import TlpiExercises.Malloc
import TlpiExercises.MallocHeap
import TlpiExercises.MallocRefinement
import TlpiExercises.MallocBreak
import TlpiExercises.MallocRuns
import TlpiExercises.LittleEndian
import TlpiExercises.MallocBytes
import TlpiExercises.LineCut
import TlpiExercises.ReadLine
import TlpiExercises.ReadLineBuf
import TlpiExercises.ReadLineRetry
import TlpiExercises.KeyedList
import TlpiExercises.Environ
import TlpiExercises.CText
import TlpiExercises.KvServer
import TlpiExercises.KvServerHistory
import TlpiExercises.KvServerBounds
import TlpiExercises.CyclicRange
import TlpiExercises.SeqNum
import TlpiExercises.OneTimeInit
import TlpiExercises.SignalBenchmark
import TlpiExercises.DirTree
import TlpiExercises.WatchDirectoryTree
import TlpiExercises.WatchRuns
import TlpiExercises.WatchKeepsRunning
import TlpiExercises.InotifyBuffer
import TlpiExercises.ParentForest
import TlpiExercises.ProcessTree
import TlpiExercises.ProcessTreeOrder
import TlpiExercises.ProcessList
import TlpiExercises.ProcessListFields
import TlpiExercises.ProcessTreeStatus
import TlpiExercises.ProcDirs
import TlpiExercises.ProcessListMain
import TlpiExercises.Execlp
import TlpiExercises.ExeclpSearch
import TlpiExercises.AtomicAppend
import TlpiExercises.AtomicAppendLoop
import TlpiExercises.Getopt
import TlpiExercises.AtomicAppendArgs
import TlpiExercises.PtmrSigevSignal
import TlpiExercises.ItimerspecText
import TlpiExercises.UnixSeqNum
import TlpiExercises.UdpReliability
import TlpiExercises.Tail
import TlpiExercises.TailRuns
import TlpiExercises.GetCwd
import TlpiExercises.Exits
import TlpiExercises.SparseFile
import TlpiExercises.CopyHoles
import TlpiExercises.CopyFile
import TlpiExercises.GetNum
import TlpiExercises.GetNumBases
import TlpiExercises.HoleFile
import TlpiExercises.Dup
import TlpiExercises.ScatterGather
import TlpiExercises.Chattr
import TlpiExercises.Access
import TlpiExercises.ChmodRX
import TlpiExercises.InitGroups
import TlpiExercises.FileIo
import TlpiExercises.GetCwdLinks
import TlpiExercises.ClockNanosleep
import TlpiExercises.RemoteExecution
import TlpiExercises.DirnameBasename
import TlpiExercises.MemoryPrograms
import TlpiExercises.BasenameThreads
import TlpiExercises.RacyCounter
import TlpiExercises.ThreadIncr
import TlpiExercises.SignalDelivery
import TlpiExercises.Sigaction
import TlpiExercises.SigactionNodefer
import TlpiExercises.SigactionResethand
import TlpiExercises.SocketNamespace
import TlpiExercises.ForkWhosOnFirst
import TlpiExercises.ForkSigSync
import TlpiExercises.PthreadFork
import TlpiExercises.RemoteServer
import TlpiExercises.InetSockets
import TlpiExercises.ChildStatus
import TlpiExercises.Stdio
import TlpiExercises.ErrorFunctions
import TlpiExercises.FreeAndSbrk
import TlpiExercises.WriteBytes
import TlpiExercises.ListFileUsage
import TlpiExercises.Outline
import TlpiExercises.NftwDirTree
import TlpiExercises.ListFiles
import TlpiExercises.VforkFork
