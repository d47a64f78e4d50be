import WinePpc64.Callback.Registration
import WinePpc64.Callback.StubAbi
import WinePpc64.Com.GuestBalance
import WinePpc64.Com.HostPointers
import WinePpc64.Com.HostRefs
import WinePpc64.Com.LockOrder
import WinePpc64.Cpu.Affinity
import WinePpc64.Cxx.Resumed
import WinePpc64.Cxx.Uncaught
import WinePpc64.Emu.GuestContextExact
import WinePpc64.Emu.Qpc
import WinePpc64.Emu.Simulate32
import WinePpc64.Emu.TebStackRuns
import WinePpc64.Handles.Safety
import WinePpc64.Heap.LfhSafety
import WinePpc64.Heap.Sizes
import WinePpc64.InprocSync.Lifetime
import WinePpc64.Journal.CtxDisable
import WinePpc64.Journal.DevMergeRuns
import WinePpc64.Journal.DrainBeforeDispatch
import WinePpc64.Journal.LwwInvisible
import WinePpc64.Ntsync.IndexOrder
import WinePpc64.Ntsync.Wakeup
import WinePpc64.Security.Bounds
import WinePpc64.Security.FirstMatch
import WinePpc64.Server.CancelRuns
import WinePpc64.Server.DpiScale
import WinePpc64.Server.StrEscape
import WinePpc64.Srw.Exclusion
import WinePpc64.Steam.DosPath
import WinePpc64.Steam.Lengths
import WinePpc64.Steam.Transparent
import WinePpc64.Thunk.DirectDigest
import WinePpc64.Thunk.Dispatch32
import WinePpc64.Thunk.RipCacheLookup
import WinePpc64.Unwind.KeptStacks
import WinePpc64.Unwind.SearchBound
import WinePpc64.Unwind.SearchUnwind
import WinePpc64.Virtual.VprotScan
