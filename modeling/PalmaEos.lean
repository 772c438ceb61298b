import PalmaEos.Lib.Bytes
import PalmaEos.Lib.AddressSpace
import PalmaEos.Lib.Checked
import PalmaEos.Lib.Text
import PalmaEos.Lib.Hex
import PalmaEos.Lib.Newc
import PalmaEos.Lib.Rect
import PalmaEos.Lib.Runs
import PalmaEos.Lib.Chain
import PalmaEos.Lib.Distinct
import PalmaEos.Lib.Seqlock
import PalmaEos.Lib.Shell
import PalmaEos.Lib.ShellRules
import PalmaEos.Lib.Memo
import PalmaEos.Lib.Fields
import PalmaEos.Lib.Table
import PalmaEos.Lib.RangeWrites
import PalmaEos.Lib.Sorted
import PalmaEos.Lib.Words
import PalmaEos.Listing
import PalmaEos.FlashLogical
import PalmaEos.DeltaFlash
import PalmaEos.DeltaAgainstFull
import PalmaEos.LpUnpack
import PalmaEos.FlashUnpack
import PalmaEos.FlashRetries
import PalmaEos.Extraction
import PalmaEos.LeftoverImages
import PalmaEos.LpResize
import PalmaEos.LpResizeRebuild
import PalmaEos.LpResizeGrowth
import PalmaEos.LpResizeMain
import PalmaEos.LpResizeContent
import PalmaEos.LpResizeTidy
import PalmaEos.LpResizeCopies
import PalmaEos.LpResizeFrame
import PalmaEos.LpDump
import PalmaEos.LpReaders
import PalmaEos.ListingRoundTrip
import PalmaEos.ResizeRuns
import PalmaEos.ResizeThenFlash
import PalmaEos.DamagePage
import PalmaEos.DamageSeqlock
import PalmaEos.InitParms
import PalmaEos.SubmittedRects
import PalmaEos.FirstPublication
import PalmaEos.Shim
import PalmaEos.Recorded
import PalmaEos.Injections
import PalmaEos.ForeignObjects
import PalmaEos.EpdcPlanes
import PalmaEos.SystemProperties
import PalmaEos.ValidationPasses
import PalmaEos.UpdateMarkers
import PalmaEos.DelayedFrames
import PalmaEos.FbSignature
import PalmaEos.DamageLoss
import PalmaEos.DamageHandles
import PalmaEos.RefreshPolicy
import PalmaEos.SettlePasses
import PalmaEos.Restarts
import PalmaEos.Cpio
import PalmaEos.ArchiveWalks
import PalmaEos.CpioRoundTrip
import PalmaEos.BootPatchers
import PalmaEos.BootSections
import PalmaEos.BootCmdline
import PalmaEos.RamdiskFiles
import PalmaEos.RecoveryFiles
import PalmaEos.UnlockBootloader
import PalmaEos.UnlockScripts
import PalmaEos.UnlockRuns
import PalmaEos.PartitionIndex
import PalmaEos.DevinfoPatch
import PalmaEos.EbcTrace
import PalmaEos.EbcPtrace
import PalmaEos.BuiltinFw
import PalmaEos.TxnCodes
import PalmaEos.DeltaPlan
import PalmaEos.Entrypoint
