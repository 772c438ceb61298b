import Mathlib.Data.Fin.VecNotation
import PalmaEos.BootSections
import PalmaEos.CpioRoundTrip

/-!
# The files of the new recovery ramdisk

`patch-recovery-adb.py` puts its overrides in the place of the last trailer of the ramdisk, or
behind a ramdisk that has none. The loader extracts records in order and later ones overwrite
earlier ones, so the overrides are in force. What they are made from is another matter:
`read_member` returns the first record of the wanted name, and ends at the first trailer.

`Newc.load` and `Newc.contents` are the loader's reading, and `expectedContents` is what the script
is for.

## Main results

* `loads_stripTrailer` — what `strip_trailer` leaves
* `contents_newCpio` — what each path of the new ramdisk holds
* `patchesInForce_iff` — when the new ramdisk is the old one with the properties in force patched
-/

namespace PalmaEos

open BootImage
open Newc (Rec Loads contents load readRecord)

/-! ### The purpose of the script -/

/-- `fix_props` on the content of a file. -/
def fixData (data : Bytes) : Bytes := Text.encode (RecoveryAdb.fixProps (Text.decode data))

/-- The property files, as the names stand in records. -/
def propPaths : List Bytes :=
  [Text.encode "default.prop".toList, Text.encode "prop.default".toList]

def keysPath : Bytes := Text.encode "adb_keys".toList

/-- What the paths of the new ramdisk should hold: the properties in force, patched; the key when
there is one; and everything else as it was. -/
def expectedContents (pub : Option Bytes) (files : Bytes → Option Bytes) (path : Bytes) :
    Option Bytes :=
  if propPaths.contains path then (files path).map fixData
  else if path = keysPath then pub.or (files path)
  else files path

theorem expectedContents_eq (pub : Option Bytes) (files : Bytes → Option Bytes) (path : Bytes) :
    expectedContents pub files path
      = if path ∈ propPaths then (files path).map fixData
        else if path = keysPath then pub.or (files path)
        else files path := by
  simp only [expectedContents, List.contains_iff_mem]

/-- The loader reads the new ramdisk to its end, and its paths hold what they should for a ramdisk
that held the records `rs`. -/
def PatchesInForce (pub : Option Bytes) (rs : List Rec) (new : Bytes) : Prop :=
  ∃ rs', load new = some rs' ∧
    ∀ path, contents rs' path = expectedContents pub (contents rs) path

/-- What the first record of the first archive with some name holds. -/
def firstContent (cpio path : Bytes) : Option Bytes :=
  ((Newc.first cpio).find? (·.name = path)).map Rec.data

/-- For each property file that the ramdisk has, the first record of the first archive says after
patching what the one in force says after patching; where there is no such record, the file in force
needs no patch. -/
def FirstInForce (cpio : Bytes) (rs : List Rec) : Prop :=
  ∀ path ∈ propPaths, ∀ data, contents rs path = some data →
    fixData data = ((firstContent cpio path).map fixData).getD data

/-- The ramdisk ends in a trailer record and zeros, and there is no magic between the start of that
record and the last `TRAILER!!!`. -/
def EndsInTrailer (cpio : Bytes) : Prop :=
  ∃ t r n i, (load (cpio.take t)).isSome ∧ t % 4 = 0 ∧ readRecord (cpio.drop t) = some (r, n) ∧
    r.name = Newc.TRAILER ∧ (∀ b ∈ cpio.drop (t + n), b = 0) ∧
    Cpio.rfind cpio Newc.TRAILER cpio.length = some i ∧
    ∀ j < i, t < j → j + 6 ≤ i → window cpio j 6 ≠ Newc.MAGIC

/-- `strip_trailer` takes off the last trailer of the ramdisk; or there is no `TRAILER!!!` to take
off, and the ramdisk ends at a multiple of four. -/
def CutsAtTrailer (cpio : Bytes) : Prop :=
  EndsInTrailer cpio ∨
    Cpio.rfind cpio Newc.TRAILER cpio.length = none ∧ cpio.length % 4 = 0

/-- What the script writes fits the size fields of its records. -/
def PatchesFit (pub : Option Bytes) (cpio : Bytes) : Prop :=
  (∀ path ∈ propPaths, ∀ data, firstContent cpio path = some data →
    (fixData data).length < 16 ^ 8) ∧ ∀ key, pub = some key → key.length < 16 ^ 8

/-! ### Where `strip_trailer` cuts -/

namespace Cpio

section Strip

variable {cpio sub : Bytes} {i n t : ℕ}

/-- `rfind` finds an occurrence behind which there is none. -/
theorem rfindBelow_eq_some : rfindBelow cpio sub n = some i ↔
    i < n ∧ window cpio i sub.length = sub ∧
      ∀ j, i < j → j < n → window cpio j sub.length ≠ sub := by
  induction n with
  | zero => simp [rfindBelow]
  | succ n ih =>
    rw [rfindBelow]
    split_ifs with hlast
    · rw [Option.some.injEq]
      constructor
      · rintro rfl
        exact ⟨Nat.lt_succ_self _, hlast, fun j hij hj => absurd hij (by omega)⟩
      · rintro ⟨hi, -, hno⟩
        by_contra hne
        exact hno n (by omega) (Nat.lt_succ_self _) hlast
    · rw [ih]
      constructor
      · rintro ⟨hi, hsub, hno⟩
        refine ⟨by omega, hsub, fun j hij hj => ?_⟩
        rcases Nat.lt_succ_iff_lt_or_eq.mp hj with hj | rfl
        · exact hno j hij hj
        · exact hlast
      · rintro ⟨hi, hsub, hno⟩
        have hne : i ≠ n := fun h => hlast (h ▸ hsub)
        exact ⟨by omega, hsub, fun j hij hj => hno j hij (by omega)⟩

theorem rfind_eq_some {stop : ℕ} : rfind cpio sub stop = some i ↔
    i + sub.length ≤ stop ∧ window cpio i sub.length = sub ∧
      ∀ j, i < j → j + sub.length ≤ stop → window cpio j sub.length ≠ sub := by
  rw [rfind, rfindBelow_eq_some]
  refine and_congr (by omega)
    (and_congr_right fun _ => forall_congr' fun j => imp_congr_right fun _ => ?_)
  exact imp_congr_left (by omega)

/-- The magic and the name of a trailer record. -/
theorem windows_of_trailer {r : Rec} (h : readRecord (cpio.drop t) = some (r, n))
    (hr : r.name = Newc.TRAILER) : window cpio t 6 = Newc.MAGIC ∧
      window cpio (t + 110) 10 = Newc.TRAILER ∧ t + 120 ≤ cpio.length := by
  obtain ⟨hstart, hrec, -⟩ := Newc.readRecord_eq_some.mp h
  have hname : window (cpio.drop t) 110 (Newc.field (cpio.drop t) 11 - 1) = Newc.TRAILER := by
    rw [← hr, hrec]
  have hlength := congrArg List.length hname
  rw [length_window, List.length_drop] at hlength
  have hten : (Newc.TRAILER).length = 10 := rfl
  have hmagic := hstart.2.1
  rw [window_drop, Nat.add_zero] at hmagic
  have hshort := window_shorter hname (show 10 ≤ _ by omega)
  rw [window_drop] at hshort
  exact ⟨hmagic, hshort.trans rfl, by omega⟩

/-- **What `strip_trailer` leaves**, where it takes off the last trailer or none: all records of
the ramdisk, with room behind them for more. -/
theorem loads_stripTrailer {rs : List Rec} (hload : Loads cpio rs) (hcut : CutsAtTrailer cpio) :
    Loads (stripTrailer cpio) rs ∧ (stripTrailer cpio).length % 4 = 0 := by
  rcases hcut with ⟨t, r, n, i, hsome, hmod, hread, hname, hzeros, hi, hno⟩ | ⟨hnone, hmod⟩
  · obtain ⟨hmagic, hten, hlen⟩ := windows_of_trailer hread hname
    obtain ⟨hroom, hlast, hafter⟩ := rfind_eq_some.mp hi
    have hmlen : CPIO_MAGIC.length = 6 := rfl
    have htlen : (Newc.TRAILER).length = 10 := rfl
    have hti : t + 110 ≤ i := by
      by_contra hlt
      exact hafter (t + 110) (by omega) (by omega) hten
    have hstart : rfind cpio CPIO_MAGIC i = some t := by
      refine rfind_eq_some.mpr ⟨by omega, hmagic, fun j hj hji => ?_⟩
      exact hno j (by omega) hj (by omega)
    have hstrip : stripTrailer cpio = cpio.take t := by
      rw [stripTrailer, hi]
      dsimp only
      rw [hstart]
    have htake : (cpio.take t).length % 4 = 0 := by
      rw [List.length_take_of_le (by omega)]
      exact hmod
    obtain ⟨rs', hrs'⟩ := Option.isSome_iff_exists.mp hsome
    have hbefore := Newc.load_eq_some.mp hrs'
    -- the trailer and what is behind it extract nothing
    have hbehind : Loads (cpio.drop t) [] := by
      have hrest : Loads ((cpio.drop t).drop n) [] := .padding (by rwa [List.drop_drop])
      have hone := Loads.record (fun _ hb => absurd hb List.not_mem_nil) rfl hread hrest
      rwa [Rec.onto_of_trailer hname, List.nil_append] at hone
    have hall := hbefore.append htake hbehind
    rw [List.take_append_drop, List.append_nil] at hall
    rw [hstrip, hload.unique hall]
    exact ⟨hbefore, htake⟩
  · have hstrip : stripTrailer cpio = cpio := by
      rw [stripTrailer, hnone]
    rw [hstrip]
    exact ⟨hload, hmod⟩

end Strip

/-! ### What `read_member` finds -/

/-- **In a ramdisk, `read_member` finds the first record of the first archive** that has the wanted
name. -/
theorem readMember_first {cpio : Bytes} {want : Text} {fuel : ℕ} {rs : List Rec}
    {res : Option Bytes} (off : ℕ) (h : Loads (cpio.drop off) rs) (hoff : off % 4 = 0)
    (hread : readMemberFrom cpio want fuel off = .ok res) :
    res = ((Newc.first (cpio.drop off)).find? fun r => Text.decode r.name = want).map
      Rec.data := by
  induction fuel generalizing off rs with
  | zero => cases hread
  | succ fuel ih =>
    rw [readMemberFrom] at hread
    rcases hrec : readRecord (cpio.drop off) with _ | ⟨r, n⟩
    · rw [Newc.first_of_none hrec]
      rw [if_pos (pySlice_ne_magic h hrec)] at hread
      split_ifs at hread
      all_goals exact (Except.ok.inj hread).symm
    · obtain ⟨rs', hrest, rfl⟩ := h.of_readRecord hrec
      obtain ⟨-, hmod, -⟩ := Newc.size_of_readRecord hrec
      obtain ⟨hroom, hmagic, m, hm, hname, hnext, hdata⟩ := memberAt_of_readRecord hrec hoff
      rw [if_pos (by omega), if_neg (not_not.mpr hmagic), hm] at hread
      dsimp only at hread
      rw [hname, hnext, hdata] at hread
      rw [List.drop_drop] at hrest
      rw [Newc.first_of_readRecord hrec, List.drop_drop]
      by_cases htrailer : r.name = Newc.TRAILER
      · rw [if_pos (trailer_eq_decode.mpr htrailer)] at hread
        rw [if_pos htrailer]
        exact (Except.ok.inj hread).symm
      · rw [if_neg (mt trailer_eq_decode.mp htrailer)] at hread
        rw [if_neg htrailer]
        by_cases hwant : Text.decode r.name = want
        · rw [if_pos hwant] at hread
          rw [List.find?_cons_of_pos (by simpa using hwant)]
          exact (Except.ok.inj hread).symm
        · rw [if_neg hwant] at hread
          rw [List.find?_cons_of_neg (by simpa using hwant)]
          exact ih (off + n) hrest (by omega) hread

end Cpio

/-! ### The new ramdisk -/

section NewRamdisk

variable {cpio new : Bytes} {rs : List Rec} {pub : Option Bytes} {fuel : ℕ}

/-- A member that is written when there is something to write. -/
def optional (name : Text) (data : Option Bytes) : List (Text × Bytes) := data.toList.map (name, ·)

/-- What the script appends, by name. -/
def appended (pub : Option Bytes) (cpio : Bytes) : List (Text × Bytes) :=
  optional "default.prop".toList
      ((firstContent cpio (Text.encode "default.prop".toList)).map fixData) ++
    optional "prop.default".toList
      ((firstContent cpio (Text.encode "prop.default".toList)).map fixData) ++
    optional "adb_keys".toList pub

/-- The records of some members. -/
def pairBytes (l : List (Text × Bytes)) : Bytes :=
  l.flatMap fun p => Cpio.cpioEntry p.1 p.2 0o100644

/-- What a path holds after some members. -/
def lastOf : List (Text × Bytes) → Bytes → Option Bytes
  | [], _ => none
  | p :: l, path => (lastOf l path).or (if Text.encode p.1 = path then some p.2 else none)

theorem lastOf_optional (name : Text) (data : Option Bytes) (l : List (Text × Bytes))
    (path : Bytes) : lastOf (optional name data ++ l) path
      = (lastOf l path).or (if Text.encode name = path then data else none) := by
  cases data with
  | none => simp [optional]
  | some d => rfl

/-- What the script writes for a property file. -/
theorem overrides_cons {t : Bytes} {pfs : List Text} {add : Bytes} (ht : ∀ x ∈ t, x < 0x80)
    (hload : Loads cpio rs)
    (h : RecoveryAdb.overrides fuel cpio (Text.ascii t :: pfs) = .ok add) :
    ∃ add', RecoveryAdb.overrides fuel cpio pfs = .ok add' ∧
      add = pairBytes (optional (Text.ascii t) ((firstContent cpio t).map fixData)) ++ add' := by
  rw [RecoveryAdb.overrides] at h
  obtain ⟨res, hread, h⟩ := bind_eq_ok.mp h
  have hres := Cpio.readMember_first 0 hload rfl hread
  simp only [Text.decode_eq_ascii ht, List.drop_zero] at hres
  rw [firstContent, ← hres]
  rcases res with _ | cur
  · exact ⟨add, h, rfl⟩
  · dsimp only at h
    obtain ⟨add', hadd', h⟩ := bind_eq_ok.mp h
    refine ⟨add', hadd', ?_⟩
    rw [← pure_eq_ok.mp h, pairBytes, optional]
    simp [fixData]

/-- **What the script makes of a ramdisk**: its records without the last trailer, and the patched
files and the key behind them. -/
theorem newCpio_eq (hload : Loads cpio rs)
    (hnew : RecoveryAdb.newCpio fuel pub cpio = .ok new) :
    new = Cpio.stripTrailer cpio ++
      (pairBytes (appended pub cpio) ++ Cpio.cpioEntry Cpio.TRAILER [] 0) := by
  have hdefault : Text.ascii (Text.encode "default.prop".toList) = "default.prop".toList := by
    decide
  have hprop : Text.ascii (Text.encode "prop.default".toList) = "prop.default".toList := by
    decide
  rw [RecoveryAdb.newCpio, ← hdefault, ← hprop] at hnew
  obtain ⟨add, hadd, hnew⟩ := bind_eq_ok.mp hnew
  obtain ⟨add₁, hadd₁, rfl⟩ := overrides_cons (Text.lt_of_all (by decide)) hload hadd
  obtain ⟨add₂, hadd₂, rfl⟩ := overrides_cons (Text.lt_of_all (by decide)) hload hadd₁
  obtain rfl := Except.ok.inj hadd₂
  rw [← pure_eq_ok.mp hnew, hdefault, hprop]
  rcases pub with _ | key
  · simp only [pairBytes, optional, List.append_nil, List.append_assoc, appended,
      Option.toList_none, List.map_nil, List.flatMap_append]
  · simp only [pairBytes, optional, List.append_nil, List.append_assoc, appended,
      Option.toList_some, List.map_cons, List.map_nil, List.flatMap_append, List.flatMap_cons,
      List.flatMap_nil]

/-- **The members appended are a ramdisk** that holds what was written last for each path. -/
theorem loads_appended {l : List (Text × Bytes)}
    (hl : ∀ p ∈ l, 0 ∉ Text.encode p.1 ∧ p.1 ≠ Cpio.TRAILER ∧
      (Text.encode p.1).length + 1 < 16 ^ 8 ∧ p.2.length < 16 ^ 8) :
    ∃ rs, Loads (pairBytes l ++ Cpio.cpioEntry Cpio.TRAILER [] 0) rs ∧
      ∀ path, contents rs path = lastOf l path := by
  induction l with
  | nil =>
    have hnil : Loads [] [] := .padding fun b hb => absurd hb List.not_mem_nil
    have hempty := @Cpio.loads_entries [] [] [] (fun e he => absurd he List.not_mem_nil) hnil
    rw [Cpio.archiveBytes, List.append_nil] at hempty
    exact ⟨[], hempty, fun _ => rfl⟩
  | cons p l ih =>
    rw [List.forall_mem_cons] at hl
    obtain ⟨⟨hnul, hname, hnlt, hdlt⟩, hl⟩ := hl
    obtain ⟨rs, hloads, hcontents⟩ := ih hl
    let e : Cpio.Entry := ⟨p.1, p.2, 0o100644, hnlt, hdlt, by decide⟩
    have hne : e.toRec.name ≠ Newc.TRAILER := by
      rw [show Newc.TRAILER = Text.encode Cpio.TRAILER by decide]
      exact fun h => hname (Text.encode_inj.mp h)
    have hcons := Loads.cons (Cpio.readRecord_entry e _ hnul) hloads
    rw [Rec.onto_of_ne hne] at hcons
    refine ⟨e.toRec :: rs, ?_, fun path => ?_⟩
    · rw [pairBytes, List.flatMap_cons, ← pairBytes, List.append_assoc]
      exact hcons
    · rw [← List.singleton_append, Newc.contents_append, Newc.contents_singleton, hcontents]
      rfl

/-- What the members appended hold. -/
theorem lastOf_appended (path : Bytes) : lastOf (appended pub cpio) path
    = if path ∈ propPaths then (firstContent cpio path).map fixData
      else if path = keysPath then pub else none := by
  rw [appended, List.append_assoc, lastOf_optional, lastOf_optional,
    ← List.append_nil (optional _ pub), lastOf_optional, lastOf, Option.none_or]
  by_cases hdefault : Text.encode "default.prop".toList = path
  · subst hdefault
    rw [if_neg (by decide), if_neg (by decide), if_pos rfl, if_pos (by decide), Option.none_or,
      Option.none_or]
  by_cases hprop : Text.encode "prop.default".toList = path
  · subst hprop
    rw [if_neg (by decide), if_pos rfl, if_neg hdefault, if_pos (by decide), Option.none_or,
      Option.or_none]
  · have hother : path ∉ propPaths := by
      simp only [propPaths, List.mem_cons, List.not_mem_nil, or_false, not_or]
      exact ⟨fun h => hdefault h.symm, fun h => hprop h.symm⟩
    rw [if_neg hprop, if_neg hdefault, if_neg hother, Option.or_none, Option.or_none]
    exact if_congr eq_comm rfl rfl

/-- **The paths of the new ramdisk.** Where no more than the last trailer is cut off and the sizes
fit, the loader reads the new ramdisk to its end; the property files hold the first records of the
first archive, patched, and the rest is as it should be. -/
theorem contents_newCpio (hload : Loads cpio rs) (hcut : CutsAtTrailer cpio)
    (hfit : PatchesFit pub cpio) (hnew : RecoveryAdb.newCpio fuel pub cpio = .ok new) :
    ∃ rs', load new = some rs' ∧ ∀ path, contents rs' path
      = if path ∈ propPaths
        then ((firstContent cpio path).map fixData).or (contents rs path)
        else expectedContents pub (contents rs) path := by
  have hsmall : ∀ p ∈ appended pub cpio, 0 ∉ Text.encode p.1 ∧ p.1 ≠ Cpio.TRAILER ∧
      (Text.encode p.1).length + 1 < 16 ^ 8 ∧ p.2.length < 16 ^ 8 := by
    have hnames : ∀ name ∈ ["default.prop", "prop.default", "adb_keys"].map String.toList,
        0 ∉ Text.encode name ∧ name ≠ Cpio.TRAILER ∧
          (Text.encode name).length + 1 < 16 ^ 8 := by decide
    intro p hp
    suffices h : p.1 ∈ ["default.prop", "prop.default", "adb_keys"].map String.toList ∧
        p.2.length < 16 ^ 8 by
      obtain ⟨hnul, hname, hnlt⟩ := hnames p.1 h.1
      exact ⟨hnul, hname, hnlt, h.2⟩
    simp only [appended, optional, List.mem_append, List.mem_map, Option.mem_toList] at hp
    rcases hp with (⟨d, hd, rfl⟩ | ⟨d, hd, rfl⟩) | ⟨d, hd, rfl⟩
    · obtain ⟨data, hdata, rfl⟩ := Option.map_eq_some_iff.mp hd
      exact ⟨by simp, hfit.1 _ (by decide) data hdata⟩
    · obtain ⟨data, hdata, rfl⟩ := Option.map_eq_some_iff.mp hd
      exact ⟨by simp, hfit.1 _ (by decide) data hdata⟩
    · exact ⟨by simp, hfit.2 d hd⟩
  obtain ⟨added, hadded, hcontents⟩ := loads_appended hsmall
  obtain ⟨hstrip, hmod⟩ := Cpio.loads_stripTrailer hload hcut
  refine ⟨rs ++ added, ?_, fun path => ?_⟩
  · rw [newCpio_eq hload hnew, Newc.load_eq_some]
    exact hstrip.append hmod hadded
  · rw [Newc.contents_append, hcontents, lastOf_appended, expectedContents_eq]
    split_ifs with hprop hkeys
    · rfl
    · rfl
    · rfl

/-- A path that the ramdisk has not is not in its first archive. -/
theorem firstContent_eq_none {path : Bytes} (hload : Loads cpio rs)
    (h : contents rs path = none) : firstContent cpio path = none := by
  rw [contents, Option.map_eq_none_iff, Newc.fileMap, List.getLast?_eq_none_iff,
    List.filter_eq_nil_iff] at h
  rw [firstContent, Option.map_eq_none_iff, List.find?_eq_none]
  exact fun r hr => h r (hload.first_subset hr)

/-- **When the properties in force are patched**, at the level of ramdisks. -/
theorem patchesInForce_iff_first (hload : Loads cpio rs) (hcut : CutsAtTrailer cpio)
    (hfit : PatchesFit pub cpio) (hnew : RecoveryAdb.newCpio fuel pub cpio = .ok new) :
    PatchesInForce pub rs new ↔ FirstInForce cpio rs := by
  obtain ⟨rs', hload', hcontents⟩ := contents_newCpio hload hcut hfit hnew
  constructor
  · rintro ⟨rs'', hload'', hexpected⟩ path hpath data hdata
    obtain rfl := Option.some.inj (hload'.symm.trans hload'')
    have hboth := (hcontents path).symm.trans (hexpected path)
    rw [if_pos hpath, expectedContents_eq, if_pos hpath, hdata, Option.map_some,
      Option.or_some] at hboth
    exact (Option.some.inj hboth).symm
  · intro hfirst
    refine ⟨rs', hload', fun path => ?_⟩
    rw [hcontents]
    by_cases hpath : path ∈ propPaths
    · rw [if_pos hpath, expectedContents_eq, if_pos hpath]
      rcases hdata : contents rs path with _ | data
      · rw [firstContent_eq_none hload hdata]
        rfl
      · rw [Option.map_some, hfirst path hpath data hdata, Option.or_some]
    · rw [if_neg hpath]

end NewRamdisk

/-- **When the properties in force are patched.** Let a run with exit code 0 have read the ramdisk
`cpio` and written the ramdisk `new`, which is what the bootloader finds in the output; and let the
old ramdisk be one that the loader reads, of which `strip_trailer` takes off the last trailer or
nothing, and with patches that fit. The new ramdisk holds the patched properties in force, the key,
and everything else as it was exactly when `read_member` finds what is in force, up to what patching
changes. -/
theorem patchesInForce_iff (gzip : Gzip) (fuel : ℕ) (pub : Option Bytes) (img out : Bytes)
    (h : RecoveryAdb.main gzip fuel pub img = .ok out) :
    ∃ cpio new, gzip.decompress (ramdisk img) = some cpio ∧
      RecoveryAdb.newCpio fuel pub cpio = .ok new ∧
      (1660 ≤ pageSize img → tailOffset img ≤ img.length →
        gzip.decompress (ramdisk out) = some new) ∧
      ∀ rs, load cpio = some rs → CutsAtTrailer cpio → PatchesFit pub cpio →
        (PatchesInForce pub rs new ↔ FirstInForce cpio rs) := by
  obtain ⟨-, cpio, new, hread, hnew, -⟩ := recoveryAdb_eq_ok h
  refine ⟨cpio, new, hread, hnew, fun hpage hlen => ?_, fun rs hload hcut hfit =>
    patchesInForce_iff_first (Newc.load_eq_some.mp hload) hcut hfit hnew⟩
  obtain ⟨-, -, cpio', new', hread', hnew', n, hstream⟩ := recoveryAdb_moves_nothing hpage hlen h
  obtain rfl := Option.some.inj (hread.symm.trans hread')
  obtain rfl := Except.ok.inj (hnew.symm.trans hnew')
  rw [hstream, gzip.decompress_compress]

/-! ### A property file that is overwritten -/

def firstProps : Bytes :=
  Cpio.cpioEntry "default.prop".toList (Text.encode "a=1\n".toList) 0o100644

def lastProps : Bytes :=
  Cpio.cpioEntry "default.prop".toList (Text.encode "b=2\n".toList) 0o100644

/-- `firstProps`, patched. -/
def patchedProps : Bytes :=
  Cpio.cpioEntry "default.prop".toList (Text.encode ("a=1\n".toList ++ "ro.adb.secure=0\n".toList ++
    "ro.debuggable=1\n".toList)) 0o100644

def keysEntry : Bytes := Cpio.cpioEntry "adb_keys".toList hostKey 0o100644

/-- A ramdisk with one property file. -/
def oneProp : Bytes := firstProps ++ trailerEntry

/-- A ramdisk with one property file, written twice. -/
def twoProps : Bytes := firstProps ++ lastProps ++ trailerEntry

/-- Four streams of gzip: of the two ramdisks, and of what the script makes of them. -/
def propsTable : List (Bytes × Bytes) := [
  (oneProp,
    row 38 0x1f8b08000000000002ff33303730373034400216868e2606d881211a1f973a74e00263a4a4a6 ++
    row 38 0x2596e694e81514e517303024da1a721960d88f0710ab0e1d38c11821418e9e3eae418a8a8a0c ++
    row 11 0x40000090c3f611fc000000),
  (twoProps,
    row 38 0x1f8b08000000000002ff33303730373034400216868e2606d881211a1f973a74e00263a4a4a6 ++
    row 38 0x2596e694e81514e517303024da1a72190ca0fd49b64658ecc7038855870e9c608c9020474f1f ++
    row 17 0xd7204545450620000092073c087c010000),
  (firstProps ++ patchedProps ++ keysEntry ++ trailerEntry,
    row 38 0x1f8b08000000000002ff33303730373034400216868e2606d881211a1f973a74e00263a4a4a6 ++
    row 38 0x2596e694e81514e517303024da1a72195060bf1115ec2fcad74b4c49d22b4e4d2e2d4ab53500 ++
    row 38 0xf15352934ad3d31393725229741fd1e1630963009d129f9d5a59ccc00024b1d88d0710ab0e1d ++
    row 25 0x38c11821418e9e3eae418a8a8a0c40000068ad19d018020000),
  (firstProps ++ lastProps ++ patchedProps ++ trailerEntry,
    row 38 0x1f8b08000000000002ff33303730373034400216868e2606d881211a1f973a74e00263a4a4a6 ++
    row 38 0x2596e694e81514e517303024da1a72190ca0fd49b64614d96f4405ff17e5eb25a624e915a726 ++
    row 38 0x9716a5da1a80f829a949a5e9e9894939a958c3070f20561d3a70823142821c3d7d5c83141515 ++
    row 12 0x1980000048d77b2d1c020000)]

/-- The recorded stream of a ramdisk. -/
def propsStream (x : Bytes) : Bytes := ((propsTable.find? fun e => e.1 = x).map Prod.snd).getD []

def propsGzip : Gzip := recordedGzip propsTable (by decide +kernel) (by decide +kernel)

/-- An image with a kernel and the stream of a ramdisk, of one page each. -/
def propsImage (cpio : Bytes) : Bytes :=
  ANDROID ++ toLE 4 6 ++ toLE 4 0 ++ toLE 4 (propsStream cpio).length ++ List.replicate 16 0 ++
    toLE 4 2048 ++ List.replicate 2008 0 ++ padPages 2048 (Text.encode "kernel".toList) ++
    padPages 2048 (propsStream cpio)

theorem propsImage_main :
    (∃ out, RecoveryAdb.main propsGzip 4 (some hostKey) (propsImage oneProp) = .ok out) ∧
      ∃ out, RecoveryAdb.main propsGzip 4 none (propsImage twoProps) = .ok out :=
  ⟨exists_of_isOk (by decide +kernel), exists_of_isOk (by decide +kernel)⟩

/-- What the loader and `read_member` make of the two ramdisks. -/
theorem props_load {cpio : Bytes} (h : cpio = oneProp ∨ cpio = twoProps) : ∃ rs,
    load cpio = some rs ∧
    firstContent cpio (Text.encode "default.prop".toList) = some (Text.encode "a=1\n".toList) ∧
    firstContent cpio (Text.encode "prop.default".toList) = none ∧
    contents rs (Text.encode "prop.default".toList) = none ∧
    contents rs (Text.encode "default.prop".toList)
      = some (Text.encode (if cpio = oneProp then "a=1\n".toList else "b=2\n".toList)) := by
  have hmap : ((load cpio).map fun rs => (contents rs (Text.encode "prop.default".toList),
      contents rs (Text.encode "default.prop".toList))) = some (none,
        some (Text.encode (if cpio = oneProp then "a=1\n".toList else "b=2\n".toList))) := by
    rcases h with rfl | rfl
    all_goals decide +kernel
  obtain ⟨rs, hload, heq⟩ := Option.map_eq_some_iff.mp hmap
  obtain ⟨hnone, hlast⟩ : _ ∧ _ := by simpa only [Prod.mk.injEq] using heq
  refine ⟨rs, hload, ?_, ?_, hnone, hlast⟩
  · rcases h with rfl | rfl
    all_goals decide +kernel
  · rcases h with rfl | rfl
    all_goals decide +kernel

def trailerRecord : Rec where
  header := ![0, 0, 0, 0, 1, 0, 0, 0, 0, 0, 0, 11, 0]
  name := Newc.TRAILER
  data := []

theorem cutsAtTrailer_oneProp : CutsAtTrailer oneProp :=
  Or.inl ⟨128, trailerRecord, 124, 238, by decide +kernel, rfl, by decide +kernel, rfl,
    by decide +kernel, by decide +kernel, by decide +kernel⟩

theorem cutsAtTrailer_twoProps : CutsAtTrailer twoProps :=
  Or.inl ⟨256, trailerRecord, 124, 366, by decide +kernel, rfl, by decide +kernel, rfl,
    by decide +kernel, by decide +kernel, by decide +kernel⟩

theorem patchesFit_props {cpio : Bytes} {pub : Option Bytes}
    (h : cpio = oneProp ∨ cpio = twoProps) (hpub : ∀ key, pub = some key → key.length < 16 ^ 8) :
    PatchesFit pub cpio := by
  obtain ⟨-, -, hfirst, hnone, -⟩ := props_load h
  refine ⟨fun path hpath data hdata => ?_, hpub⟩
  simp only [propPaths, List.mem_cons, List.not_mem_nil, or_false] at hpath
  rcases hpath with rfl | rfl
  · obtain rfl := Option.some.inj (hfirst.symm.trans hdata)
    decide +kernel
  · rw [hnone] at hdata
    cases hdata

/-- What is in force is patched where the file is written once. -/
theorem patchesInForce_iff_twoProps :
    (∃ out new rs, RecoveryAdb.main propsGzip 4 (some hostKey) (propsImage oneProp) = .ok out ∧
      RecoveryAdb.newCpio 4 (some hostKey) oneProp = .ok new ∧ load oneProp = some rs ∧
      PatchesInForce (some hostKey) rs new) ∧
    ∃ out new rs, RecoveryAdb.main propsGzip 4 none (propsImage twoProps) = .ok out ∧
      RecoveryAdb.newCpio 4 none twoProps = .ok new ∧ load twoProps = some rs ∧
      (PatchesInForce none rs new ↔ FirstInForce twoProps rs) := by
  constructor
  · obtain ⟨out, hout⟩ := propsImage_main.1
    obtain ⟨cpio, new, hread, hnew, -, hiff⟩ :=
      patchesInForce_iff propsGzip 4 (some hostKey) (propsImage oneProp) out hout
    obtain rfl : oneProp = cpio := Option.some.inj ((by decide +kernel :
      some oneProp = propsGzip.decompress (ramdisk (propsImage oneProp))).trans hread)
    obtain ⟨rs, hload, hfirst, -, hnone, hlast⟩ := props_load (Or.inl rfl)
    have hkey : ∀ key, some hostKey = some key → key.length < 16 ^ 8 := by
      intro key hkey
      rw [← Option.some.inj hkey]
      decide
    refine ⟨out, new, rs, hout, hnew, hload, (hiff rs hload cutsAtTrailer_oneProp
      (patchesFit_props (Or.inl rfl) hkey)).mpr fun path hpath data hdata => ?_⟩
    simp only [propPaths, List.mem_cons, List.not_mem_nil, or_false] at hpath
    rcases hpath with rfl | rfl
    · rw [hlast, if_pos rfl] at hdata
      rw [hfirst, ← Option.some.inj hdata]
      rfl
    · rw [hnone] at hdata
      cases hdata
  · obtain ⟨out, hout⟩ := propsImage_main.2
    obtain ⟨cpio, new, hread, hnew, -, hiff⟩ :=
      patchesInForce_iff propsGzip 4 none (propsImage twoProps) out hout
    obtain rfl : twoProps = cpio := Option.some.inj ((by decide +kernel :
      some twoProps = propsGzip.decompress (ramdisk (propsImage twoProps))).trans hread)
    obtain ⟨rs, hload, -⟩ := props_load (Or.inr rfl)
    exact ⟨out, new, rs, hout, hnew, hload, hiff rs hload cutsAtTrailer_twoProps
      (patchesFit_props (Or.inr rfl) fun key hkey => by cases hkey)⟩

/-- The script patches the first `default.prop`, and so undoes the second, which is in force. -/
theorem not_patchesInForce_twoProps :
    (∃ out, RecoveryAdb.main propsGzip 4 none (propsImage twoProps) = .ok out) ∧
      propsGzip.decompress (ramdisk (propsImage twoProps)) = some twoProps ∧
      ∃ new rs, RecoveryAdb.newCpio 4 none twoProps = .ok new ∧ load twoProps = some rs ∧
        ¬ PatchesInForce none rs new := by
  obtain ⟨rs, hload, hfirst, -, -, hlast⟩ := props_load (Or.inr rfl)
  obtain ⟨new, hnew⟩ := exists_of_isOk (by decide +kernel :
    (RecoveryAdb.newCpio 4 none twoProps).isOk = true)
  refine ⟨propsImage_main.2, by decide +kernel, new, rs, hnew, hload, fun hinForce => ?_⟩
  have hsame := (patchesInForce_iff_first (Newc.load_eq_some.mp hload) cutsAtTrailer_twoProps
    (patchesFit_props (Or.inr rfl) fun key hkey => by cases hkey) hnew).mp hinForce _ (by decide)
    _ hlast
  rw [hfirst, if_neg (by decide +kernel)] at hsame
  exact absurd hsame (by decide +kernel)

end PalmaEos
