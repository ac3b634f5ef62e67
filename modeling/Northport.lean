import Northport.Memory.VmmFragmentation
import Northport.Tasking.WaitableRuns
import Northport.Containers.QueueMpScRuns
import Northport.Arch.X86HatMap
import Northport.Memory.PmmTrash
import Northport.Memory.PmmReingest
import Northport.Memory.ZeroPageRuns
import Northport.Memory.FileMapping
import Northport.Tasking.ProgramAttribs
import Northport.Tasking.RunLevelLock
import Northport.Interrupts.IpiOrder
import Northport.Tasking.ClockPoll
import Northport.Tasking.ClockTick
import Northport.Tasking.Dpc
import Northport.Tasking.DpcDrain
import Northport.Tasking.SchedulerRuns
import Northport.Tasking.SchedulerIdle
import Northport.Memory.SlabRuns
import Northport.Io.IoBegin
import Northport.Drivers.DriverDevices
import Northport.Drivers.ElfRelocRuns
import Northport.Drivers.ManifestScan
import Northport.Io.IntrRoutes
import Northport.Filesystem.VfsChains
import Northport.Filesystem.VfsTempFs
import Northport.Memory.AnonDetach
import Northport.Memory.VmmFit
import Northport.Memory.VmmGuard
import Northport.Containers.FwdList
import Northport.Containers.VectorRuns
import Northport.Config.DeviceTreeParse
import Northport.Config.DeviceTreeStrings
import Northport.Debug.LogBuffer
import Northport.Drivers.Virtqueue
import Northport.Memory.PmmSpan
import Northport.Filesystem.CacheEvict
import Northport.Filesystem.VfsOptions
import Northport.Syslib.Memory
import Northport.Memory.VmmRanges
