import Gipcy.Lib.Transition
import Gipcy.Lib.CountingSemaphore
import Gipcy.Lib.Clients
import Gipcy.Linux.Types
import Gipcy.Linux.Registry
import Gipcy.Linux.Accesses
import Gipcy.Linux.Sharing
import Gipcy.Linux.Units
import Gipcy.Linux.MutexSafety
import Gipcy.Linux.EventBinary
import Gipcy.Linux.Device
import Gipcy.Linux.Ioctl
import Gipcy.Linux.Insys
import Gipcy.Linux.SharedMemory
import Gipcy.Linux.Concurrent
import Gipcy.Linux.Blocking
import Gipcy.Lib.PosixSemaphore
import Gipcy.Qnx.Dispatch
import Gipcy.Linux.Sections
import Gipcy.Linux.Calls
import Gipcy.Linux.EventApi
import Gipcy.Linux.EventReset
import Gipcy.Linux.EventSignal
import Gipcy.Lib.Budget
import Gipcy.Ports.SemaphoreCalls
import Gipcy.Linux.Naming
import Gipcy.Linux.Isolation
import Gipcy.Linux.MutexNesting
import Gipcy.Lib.KeyedStore
import Gipcy.Linux.Objects
import Gipcy.Ports.SemaphoreRegistry
import Gipcy.Linux.SharedCreate
import Gipcy.Linux.SharedDelete
import Gipcy.Lib.Lines
import Gipcy.Linux.Ini.Write
import Gipcy.Linux.Ini.Read
import Gipcy.Linux.Ini.RoundTrip
import Gipcy.Lib.SectionStore
import Gipcy.Linux.Ini.Store
import Gipcy.Linux.Ini.SectionList
import Gipcy.Lib.SystemWait
import Gipcy.Posix.Calls
import Gipcy.SystemV.Calls
import Gipcy.Ports.Timeouts
import Gipcy.Lib.OwnerlessMutex
import Gipcy.Lib.SystemVSemaphore
import Gipcy.Ports.MutexRelease
import Gipcy.SystemV.Removal
import Gipcy.SystemV.Creation
import Gipcy.SystemV.Initialised
import Gipcy.SystemV.OneSet
import Gipcy.Posix.OneSemaphore
import Gipcy.Ports.LiveHandles
import Gipcy.Qnx.Ini.Read
import Gipcy.Lib.StringList
import Gipcy.Ports.IniReaders
import Gipcy.Ports.IniAgreement
import Gipcy.Qnx.CloseUndoes
import Gipcy.Lib.EraseLoop
import Gipcy.Qnx.CloseAll
import Gipcy.Qnx.LockBalance
import Gipcy.Qnx.LockReplies
import Gipcy.Linux.SharedApi
import Gipcy.Linux.SharedDescriptor
import Gipcy.Linux.SharedMapping
import Gipcy.Linux.SharedFailure
import Gipcy.SystemV.EventKinds
import Gipcy.Posix.EventReset
import Gipcy.Linux.Ini.Rounds
import Gipcy.Linux.Ini.InSection
import Gipcy.Lib.Search
import Gipcy.Linux.Directory
import Gipcy.Windows.Directory
import Gipcy.Lib.Reversal
import Gipcy.Linux.Itoa
import Gipcy.Linux.Interlocked
import Gipcy.Linux.Ini.OneChange
import Gipcy.Linux.Ini.Loops
import Gipcy.Linux.Ini.Stores
import Gipcy.Linux.Ini.WriteBounds
import Gipcy.Linux.Ini.WholeNames
import Gipcy.Linux.Threads
import Gipcy.Ports.Deadlines
import Gipcy.Lib.Polling
import Gipcy.Linux.Pause
import Gipcy.Linux.Ini.InsideLine
import Gipcy.Linux.Lifetime
import Gipcy.SystemV.Attachments
import Gipcy.Qnx.References
import Gipcy.Windows.Objects
import Gipcy.Ports.WindowsSemaphore
import Gipcy.Linux.ThreadLife
import Gipcy.Ports.Files
import Gipcy.Linux.Ini.Runs
import Gipcy.Posix.SharedMemory
import Gipcy.Linux.Sessions
import Gipcy.Ports.SharedMemory
import Gipcy.Linux.Address
import Gipcy.Linux.Report
import Gipcy.Ports.EventConformance
import Gipcy.Ports.MutexConformance
