import PS3Native.AddressRangeVectorMerge
import PS3Native.DeferredProtectionRefinement
import PS3Native.DataHeap
import PS3Native.CellSyncQueueFifo
import PS3Native.CellSyncRwmExclusion
import PS3Native.CellSyncLFQueuePointers
import PS3Native.CellSyncMutex
import PS3Native.LfQueue
import PS3Native.FragmentControlFlow
import PS3Native.SplitRegisters
import PS3Native.BlockDependenciesRepair
import PS3Native.AddressRangeVectorContains
import PS3Native.RangedMapHistory
import PS3Native.VmHistory
import PS3Native.PageUnitRuns
import PS3Native.SharedMutexRuns
import PS3Native.EventFlagSet
import PS3Native.Lv2MutexCorrect
import PS3Native.Lv2RwlockCorrect
import PS3Native.SpuSignalCorrect
import PS3Native.StorageBlockList
import PS3Native.RsxReservationExclusion
import PS3Native.RtcTick
import PS3Native.SpuInMailboxReads
import PS3Native.SpuOutMailboxPops
import PS3Native.IsoFileEncrypted
import PS3Native.Lv2SemaCorrect
import PS3Native.P2psCorrect
import PS3Native.PkgInstall
import PS3Native.PkgReaderRuns
import PS3Native.SysFsRights
import PS3Native.TarContained
import PS3Native.VfsRetrieveInverse
import PS3Native.IsoHierarchy
import PS3Native.LzSafety
import PS3Native.PsfRoundTrip
import PS3Native.EdatHeader
import PS3Native.RestartIndex
import PS3Native.LineLoop
import PS3Native.RangeLockConflict
import PS3Native.SimpleArray
import PS3Native.LfBunch
import PS3Native.Versions
import PS3Native.Vle
import PS3Native.ConfigInt
import PS3Native.VfsTable
