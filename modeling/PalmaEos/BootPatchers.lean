import PalmaEos.Lib.Checked
import PalmaEos.Cpio

/-!
# The boot image patchers

`patch-boot-overlayrc.py` drops three keys from the ramdisk of a boot image and adds a service, and
`patch-recovery-adb.py` appends overrides to the ramdisk of a recovery image. Both put the new
ramdisk where the old one was and declare its padded size in the header.

gzip is a parameter: `Gzip` has what the scripts rely on, that zeros behind a stream do not matter.
What a script prints is left out, and so are its arguments: the model starts from the bytes of the
input file.

## Main results

* `unpack32_eq_ok`, `pack32_eq_ok` — the header fields that were read and written
-/

namespace PalmaEos

/-- A gzip implementation. -/
structure Gzip where
  compress : Bytes → Bytes
  decompress : Bytes → Option Bytes
  decompress_compress : ∀ x n, decompress (compress x ++ List.replicate n 0) = some x

/-- `gzip.decompress`. -/
def Gzip.read (gzip : Gzip) (b : Bytes) : Except Fault Bytes :=
  match gzip.decompress b with
  | some x => .ok x
  | none => .error .gzip

/-- `struct.unpack_from("<I", img, o)[0]`. -/
def unpack32 (img : Bytes) (o : ℕ) : Except Fault ℕ :=
  match bufferAt img o 4 with
  | some b => .ok (leAt 4 b 0)
  | none => .error .struct

/-- `struct.pack_into("<I", out, o, v)`. -/
def pack32 (out : Bytes) (o v : ℕ) : Except Fault Bytes :=
  match packInto out o [(4, v)] with
  | some out => .ok out
  | none => .error .struct

theorem Gzip.read_eq_ok {gzip : Gzip} {b x : Bytes} :
    gzip.read b = .ok x ↔ gzip.decompress b = some x := by
  rw [Gzip.read]
  cases gzip.decompress b <;> simp

theorem unpack32_eq_ok {img : Bytes} {o v : ℕ} :
    unpack32 img o = .ok v ↔ o + 4 ≤ img.length ∧ v = leAt 4 img o := by
  rw [unpack32, bufferAt_natCast]
  split_ifs with h
  · dsimp only
    rw [leAt_window (le_refl _), Nat.add_zero, Except.ok.injEq, and_iff_right h, eq_comm]
  · exact iff_of_false nofun fun hv => h hv.1

theorem pack32_eq_ok {out r : Bytes} {o v : ℕ} :
    pack32 out o v = .ok r ↔ v < 2 ^ 32 ∧ o + 4 ≤ out.length ∧ r = splice out o (toLE 4 v) := by
  have hpacked : packInto out o [(4, v)] = some r ↔
      v < 2 ^ 32 ∧ o + 4 ≤ out.length ∧ r = splice out o (toLE 4 v) := by
    rw [packInto_eq_some]
    constructor
    · rintro ⟨bs, hbs, hlen, rfl⟩
      obtain ⟨hv, rest, hrest, rfl⟩ := pack_cons_eq_some.mp hbs
      rw [pack_nil_eq_some.mp hrest, List.append_nil, length_toLE] at *
      exact ⟨hv, hlen, rfl⟩
    · rintro ⟨hv, hlen, rfl⟩
      refine ⟨toLE 4 v, pack_cons_eq_some.mpr ⟨hv, [], rfl, (List.append_nil _).symm⟩, ?_, rfl⟩
      rwa [length_toLE]
  rw [pack32, ← hpacked]
  cases packInto out o [(4, v)] <;> simp

def ANDROID : Bytes := Text.encode "ANDROID!".toList

/-- `n` rounded up to whole pages. -/
def up (ps n : ℕ) : ℕ := (n + ps - 1) / ps * ps

/-- A section, padded to whole pages. -/
def padPages (ps : ℕ) (blob : Bytes) : Bytes :=
  blob ++ List.replicate (up ps blob.length - blob.length) 0

/-- The new ramdisk in the size that the header will declare. -/
def declare (newRd : Bytes) (rs : ℕ) : Bytes :=
  newRd ++ List.replicate (max newRd.length rs - newRd.length) 0

/-! ### `patch-boot-overlayrc.py` -/

namespace OverlayRc

def DROP : List Text :=
  ["avb/q-gsi.avbpubkey", "avb/r-gsi.avbpubkey", "avb/s-gsi.avbpubkey"].map String.toList

def RC : Text :=
  ["\nservice bootlog ", "/system/bin/sh -c ", "\"while true; do ", "/system/bin/logcat ",
    "-b all -d -v threadtime ", "> /dev/block/bootdevice/", "by-name/logdump; ",
    "/system/bin/dmesg ", "> /dev/block/bootdevice/", "by-name/rawdump; ",
    "sleep 2; done\"\n", "    class core\n", "    user root\n", "    group root log readproc\n",
    "    disabled\n", "\non post-fs-data\n", "    start bootlog\n", "\non boot\n",
    "    start bootlog\n"].flatMap String.toList

/-- The loop over the records: from `off` on, with what is kept so far. -/
def walk (cpio : Bytes) : ℕ → ℤ → Bytes → Except Fault Bytes
  | 0, _, _ => .error .running
  | fuel + 1, off, kept =>
    if off + 110 ≤ cpio.length then
      if pySlice cpio off (off + 6) ≠ Cpio.CPIO_MAGIC then .ok kept
      else match Cpio.memberAt cpio off with
        | none => .error .value
        | some m =>
          if m.name = Cpio.TRAILER then .ok kept
          else if m.name ∈ DROP then walk cpio fuel m.next kept
          else walk cpio fuel m.next (kept ++ pySlice cpio off m.next)
    else .ok kept

/-- `add`: the service and a new trailer. -/
def add : Bytes :=
  Cpio.cpioEntry "overlay.d/bootlog.rc".toList (Text.encode RC) 0o100750 ++
    Cpio.cpioEntry Cpio.TRAILER [] 0

/-- `new_cpio`. -/
def newCpio (fuel : ℕ) (cpio : Bytes) : Except Fault Bytes := do
  return (← walk cpio fuel 0 []) ++ add

/-- `main` on the bytes of the input file; the bytes of the output file. -/
def main (gzip : Gzip) (fuel : ℕ) (img : Bytes) : Except Fault Bytes :=
  if img.take 8 ≠ ANDROID then .error (.refused .notBootImage)
  else do
    let ks ← unpack32 img 8
    let rs ← unpack32 img 16
    let ps ← unpack32 img 36
    if ps = 0 then .error .zeroDivision
    else
      let ro := up ps (ps + ks)
      let cpio ← gzip.read (window img ro rs)
      let new ← newCpio fuel cpio
      let newRd := gzip.compress new
      let ss ← unpack32 img 24
      let rdtboSz ← unpack32 img 1632
      let dtbSz ← unpack32 img 1648
      if rdtboSz ≠ 0 then .error (.refused .recoveryDtbo)
      else if up ps newRd.length > up ps rs then
        .error (.refused (.ramdiskGrows (up ps newRd.length / ps) (up ps rs / ps)))
      else if max newRd.length rs ≠ (declare newRd rs).length then .error .assertion
      else
        let kOff := ps
        let rOff := kOff + up ps ks
        let sOff := rOff + up ps rs
        let dOff := sOff + up ps ss
        let kernel := window img kOff ks
        let second := window img sOff ss
        let dtb := window img dOff dtbSz
        let out := img.take ps ++ padPages ps kernel ++ padPages ps (declare newRd rs) ++
          padPages ps second ++ padPages ps dtb
        let out ← pack32 out 16 (declare newRd rs).length
        let origEnd := dOff + up ps dtbSz
        if out.length ≠ origEnd then .error (.refused (.tailMoves out.length origEnd))
        else
          let out := out ++ img.drop origEnd
          if out.length ≠ img.length then .error (.refused .sizeChanges)
          else return out

end OverlayRc

/-! ### `patch-recovery-adb.py` -/

namespace RecoveryAdb

/-- The properties that `fix_props` sets, the first two of which it adds where they are missing. -/
def props : List (Text × Text) :=
  [("ro.adb.secure".toList, "0".toList), ("ro.debuggable".toList, "1".toList),
    ("ro.secure".toList, "0".toList)]

/-- The loop over the properties on one line: the line, and the properties seen. -/
def fixLine (line : Text) : Text × List Text :=
  props.foldl (fun (line, seen) (k, v) =>
    if (k ++ ['=']).isPrefixOf line then (k ++ ['='] ++ v, k :: seen) else (line, seen)) (line, [])

/-- `fix_props`. -/
def fixProps (text : Text) : Text :=
  let lines := (Text.splitlines text).map fixLine
  let seen := lines.flatMap Prod.snd
  let missing := (props.take 2).filter fun (k, _) => k ∉ seen
  let out := lines.map Prod.fst ++ missing.map fun (k, v) => k ++ ['='] ++ v
  ['\n'].intercalate out ++ ['\n']

/-- The loop over the property files: the entries that override them. -/
def overrides (fuel : ℕ) (cpio : Bytes) : List Text → Except Fault Bytes
  | [] => .ok []
  | pf :: pfs => do
    match ← Cpio.readMember fuel cpio pf with
    | none => overrides fuel cpio pfs
    | some cur =>
      let patched := Text.encode (fixProps (Text.decode cur))
      return Cpio.cpioEntry pf patched 0o100644 ++ (← overrides fuel cpio pfs)

/-- `new_cpio`; `pub` is the public key when the file is there. -/
def newCpio (fuel : ℕ) (pub : Option Bytes) (cpio : Bytes) : Except Fault Bytes := do
  let add ← overrides fuel cpio ["default.prop".toList, "prop.default".toList]
  let add := match pub with
    | some key => add ++ Cpio.cpioEntry "adb_keys".toList key 0o100644
    | none => add
  return Cpio.stripTrailer cpio ++ (add ++ Cpio.cpioEntry Cpio.TRAILER [] 0)

/-- `main` on the bytes of the input file; the bytes of the output file. -/
def main (gzip : Gzip) (fuel : ℕ) (pub : Option Bytes) (img : Bytes) : Except Fault Bytes :=
  if img.take 8 ≠ ANDROID then .error (.refused .notBootImage)
  else do
    let ks ← unpack32 img 8
    let rs ← unpack32 img 16
    let ps ← unpack32 img 36
    let _hv ← unpack32 img 40
    if ps = 0 then .error .zeroDivision
    else
      let ko := ps
      let ro := up ps (ko + ks)
      let cpio ← gzip.read (window img ro rs)
      let new ← newCpio fuel pub cpio
      let newRd := gzip.compress new
      let origPages := (rs + ps - 1) / ps
      let newPages := (newRd.length + ps - 1) / ps
      if newPages > origPages then .error (.refused (.ramdiskGrows newPages origPages))
      else
        let newRd := declare newRd rs
        let tailSrc := ro + origPages * ps
        let out := img.take ro ++ newRd ++ List.replicate (origPages * ps - newRd.length) 0 ++
          img.drop tailSrc
        pack32 out 16 newRd.length

end RecoveryAdb

end PalmaEos
