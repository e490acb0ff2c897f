import OsPractice.Core.Interleave
import OsPractice.Core.LockClient
import OsPractice.Core.Monitor
import OsPractice.Core.Latch
import OsPractice.Core.RingBuffer
import OsPractice.Core.Heap
import OsPractice.Core.PendingList
import OsPractice.Core.Pipe
import OsPractice.Core.Bytes
import OsPractice.Core.Decimal
import OsPractice.Core.Lines
import OsPractice.Core.Fields
import OsPractice.Core.ByteStream
import OsPractice.Core.MessageQueue
import OsPractice.Core.FileTree
import OsPractice.Core.Inotify
import OsPractice.Core.Ftw
import OsPractice.Core.CString
import OsPractice.Core.DirTree
import OsPractice.Core.Database
import OsPractice.Core.OpenFiles
import OsPractice.Core.FileAttrs
import OsPractice.Core.Signals
import OsPractice.Core.History
import OsPractice.Core.ForkJoin
import OsPractice.Core.TwoLines
import OsPractice.Core.Getopt
import OsPractice.Core.Processes
import OsPractice.Core.ProcessWrites
import OsPractice.Sema.RwImpl
import OsPractice.Sema.ReaderWriter
import OsPractice.Sema.ReaderWriterNostarve
import OsPractice.Sema.ReaderWriterRefine
import OsPractice.Sema.ReaderWriterLoops
import OsPractice.Sema.ReaderWriterMain
import OsPractice.Sema.Barrier
import OsPractice.Sema.BarrierReuse
import OsPractice.Sema.BarrierMain
import OsPractice.Sema.Randezvous
import OsPractice.Sema.NsMutex
import OsPractice.Sema.NsMutexFifo
import OsPractice.Sema.NsMutexQueue
import OsPractice.Sema.NsMutexLifetime
import OsPractice.Sema.Zemaphore
import OsPractice.Concurrency.Buffer
import OsPractice.Concurrency.BufferRuns
import OsPractice.Concurrency.ApproximateCounter
import OsPractice.Concurrency.ApproximateCounterUnit
import OsPractice.Concurrency.ApproximateCounterMain
import OsPractice.Concurrency.LockCoupling
import OsPractice.Concurrency.LockCouplingInv
import OsPractice.Concurrency.LockCouplingSerial
import OsPractice.Concurrency.LockCouplingProgress
import OsPractice.Concurrency.LockCouplingPrint
import OsPractice.Concurrency.LockCouplingSnapshot
import OsPractice.Concurrency.LockCouplingMemory
import OsPractice.Concurrency.LockCouplingMain
import OsPractice.Concurrency.LockCouplingMainEnd
import OsPractice.PipesFifos.Seqnum
import OsPractice.PipesFifos.SeqnumLog
import OsPractice.PipesFifos.SeqnumUnique
import OsPractice.PipesFifos.SeqnumAbandon
import OsPractice.PipesFifos.SeqnumLaw
import OsPractice.Fbufio.Tail
import OsPractice.PipesFifos.ToUppercase
import OsPractice.SocketsUnixDomain.UsXfr
import OsPractice.SocketsUnixDomain.SlowReader
import OsPractice.PosixMqueue.MsgExchange
import OsPractice.PosixMqueue.QueueNames
import OsPractice.PosixMqueue.OutMsg
import OsPractice.Inotify.Dirwatch
import OsPractice.PosixThreads.MyBasename
import OsPractice.PosixThreads.MyBasenameTsd
import OsPractice.Dirsrefs.Getcwd
import OsPractice.Proc.Unsetenv
import OsPractice.Proc.Setenv
import OsPractice.ProcessExecution.Execlp
import OsPractice.Procid.Initgroups
import OsPractice.Procid.Getpwnam
import OsPractice.Procfs.Isdigitstr
import OsPractice.Procfs.Dtoa
import OsPractice.Procfs.Userfsact
import OsPractice.Fileio.Dups
import OsPractice.Fileio.AtomicAppend
import OsPractice.Fileio.Mytee
import OsPractice.MemApi.Vector
import OsPractice.Concurrency.Counter
import OsPractice.Concurrency.CounterCalls
import OsPractice.Concurrency.CounterMain
import OsPractice.PosixThreads.OneTimeInit
import OsPractice.PosixThreads.ThreadIncr
import OsPractice.Fbufio.TailCount
import OsPractice.Dirsrefs.Filetrend
import OsPractice.Fileattrs.ChmodaRX
import OsPractice.Fileattrs.Chattr
import OsPractice.Procfs.Useract
import OsPractice.PosixMqueue.MqNotifySig
import OsPractice.PgrpsSessions.ChgPgid
import OsPractice.PosixThreads.IndependantThrdSigmask
import OsPractice.Procpri.Nice
import OsPractice.Xattrs.Userxattrchg
import OsPractice.ProcApi.ForkPrograms
