import KvStore.Machine
import KvStore.Prog
import KvStore.Service
import KvStore.KvHash
import KvStore.KvHashMap
import KvStore.KvMessage
import KvStore.KvHashSteps
import KvStore.KvIoctl
import KvStore.KvIoctlMap
import KvStore.KvIoctlLimit
import KvStore.CheckThenAct
import KvStore.KvIoctlRace
import KvStore.KvIoctlDisjoint
import KvStore.KvSnapshot
import KvStore.Daemon
import KvStore.DaemonSnapshot
import KvStore.DaemonRestart
import KvStore.KvScan
import KvStore.KvHeapLeak
import KvStore.DaemonSaveLoad
import KvStore.DaemonCrash
import KvStore.DaemonFileRace
import KvStore.DaemonCommand
import KvStore.DaemonAuth
import KvStore.DaemonFraming
import KvStore.Benchmark
import KvStore.DaemonThreads
import KvStore.DaemonScan
import KvStore.DaemonShutdown
import KvStore.DaemonRestore
import KvStore.KvAtRest
import KvStore.DaemonParse
import KvStore.DaemonWrite
import KvStore.DaemonSignals
import KvStore.Blocks
import KvStore.Hlist
import KvStore.KvMemory
import KvStore.KvLayout
import KvStore.KvCriticalSection
import KvStore.KvMemoryCalls
import KvStore.KvMemoryTable
import KvStore.KvOwnership
import KvStore.KvLocking
import KvStore.KvMemoryIoctl
import KvStore.KvLoading
import KvStore.KvMemoryStore
import KvStore.Custody
import KvStore.KvThreads
import KvStore.KvThreadsCalls
import KvStore.KvConcurrent
import KvStore.Fairness
import KvStore.KvTermination
import KvStore.KvLifetime
import KvStore.History
import KvStore.KvHistory
import KvStore.KvLinearizable
import KvStore.DaemonRegistry
import KvStore.DaemonService
import KvStore.DaemonClients
import KvStore.DaemonIsolation
import KvStore.DaemonConcurrent
import KvStore.BenchmarkBaseline
