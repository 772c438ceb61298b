import PalmaEos.DamagePage
import PalmaEos.Lib.Runs
import PalmaEos.Lib.Seqlock
import Mathlib.Tactic.IntervalCases

/-!
# The damage page, word by word

`DamagePage` takes publications and reads as a whole. Here both are taken apart into the loads and
stores of single words: `epdcDamageMap` initialises a zero-filled file and `publishEpdcDamage`
publishes to it, while the shim runs `attach_damage` and then `read_damage`, again and again. The
words that `attach_damage` only logs are left out.

The rectangles of a publication are worked out before its first store; its stores and the loads of
an attempt make a `Seqlock.Protocol`, and the invariant of that protocol is carried through the
runs of both processes together.

## Main results

* `storeAll_publishStores`, `eval_readLoads` — uninterrupted, they are `publishEpdcDamage` and a
  read of the page
* `handed_out_untorn` — what `read_damage` hands out is one publication
-/

namespace PalmaEos

open Seqlock

def EPDC_DAMAGE_MAGIC : UInt32 := 0x43504445
def EPDC_DAMAGE_VERSION : UInt32 := 1

/-! ### The stores of a publication -/

/-- What `publishEpdcDamage` is called with. -/
abbrev Publication := Region × Bool

/-- Store to one word of a rectangle. -/
def setRect (i : Fin 8) (f : Rect → Rect) (page : Page) : Page :=
  { page with rect := Function.update page.rect i (f (page.rect i)) }

/-- `s->rect[i] = rects[i];` -/
def storeRect (i : Fin 8) (r : Rect) : List (Page → Page) :=
  [setRect i fun q => { q with left := r.left }, setRect i fun q => { q with top := r.top },
    setRect i fun q => { q with right := r.right },
    setRect i fun q => { q with bottom := r.bottom }]

/-- What `publishEpdcDamage` stores between its two stores of the sequence number. -/
def publishStores (p : Publication) : List (Page → Page) :=
  let rects := publishedRects p.1 p.2
  (fun page => { page with count := UInt32.ofNat rects.length }) ::
    (fun page => { page with full := if p.2 ∨ rects.length = 0 then 1 else 0 }) ::
    ((List.finRange 8).zip rects).flatMap fun ir => storeRect ir.1 ir.2

/-! ### The loads of an attempt -/

/-- What `read_damage` returns when it accepts: the number of rectangles, `*full` and `out`. -/
structure DamageRead where
  n : UInt32
  full : UInt32
  out : List Rect

/-- The loop over the rectangles. -/
def rectLoads {R : Type} : List (Fin 8) → (List Rect → Loads Page R) → Loads Page R
  | [], k => k []
  | i :: is, k =>
    .load fun page => let left := (page.rect i).left
    .load fun page => let top := (page.rect i).top
    .load fun page => let right := (page.rect i).right
    .load fun page => let bottom := (page.rect i).bottom
    rectLoads is fun rs => k (⟨left, top, right, bottom⟩ :: rs)

/-- What an attempt of `read_damage` loads between its two loads of the sequence number. -/
def readLoads : Loads Page DamageRead :=
  .load fun page => let count := page.count
  .load fun page => let full := page.full
  let n := if UInt32.ofNat EPDC_DAMAGE_MAX < count then UInt32.ofNat EPDC_DAMAGE_MAX else count
  rectLoads ((List.finRange 8).take n.toNat) fun out => .done ⟨n, full, out⟩

/-- The content of a publication. -/
def publishedRead (p : Publication) : DamageRead :=
  let rects := publishedRects p.1 p.2
  ⟨UInt32.ofNat rects.length, if p.2 ∨ rects.length = 0 then 1 else 0, rects⟩

/-! ### Uninterrupted -/

theorem eval_rectLoads {R : Type} (page : Page) (is : List (Fin 8))
    (k : List Rect → Loads Page R) :
    (rectLoads is k).eval page = (k (is.map page.rect)).eval page := by
  induction is generalizing k with
  | nil => rfl
  | cons i is ih =>
    simp only [rectLoads, Loads.eval, List.map_cons]
    exact ih _

/-- **A read of a page at rest.** -/
theorem eval_readLoads (page : Page) : readLoads.eval page =
    ⟨UInt32.ofNat (min page.count.toNat EPDC_DAMAGE_MAX), page.full,
      ((List.finRange 8).take (min page.count.toNat EPDC_DAMAGE_MAX)).map page.rect⟩ := by
  have hn : (if UInt32.ofNat EPDC_DAMAGE_MAX < page.count then UInt32.ofNat EPDC_DAMAGE_MAX
      else page.count) = UInt32.ofNat (min page.count.toNat EPDC_DAMAGE_MAX) := by
    split_ifs with h
    · have hle : EPDC_DAMAGE_MAX ≤ page.count.toNat := le_of_lt (UInt32.lt_iff_toNat_lt.mp h)
      rw [min_eq_right hle]
    · have hle : page.count.toNat ≤ EPDC_DAMAGE_MAX :=
        not_lt.mp fun hlt => h (UInt32.lt_iff_toNat_lt.mpr hlt)
      rw [min_eq_left hle, UInt32.ofNat_toNat]
  have htoNat : (UInt32.ofNat (min page.count.toNat EPDC_DAMAGE_MAX)).toNat
      = min page.count.toNat EPDC_DAMAGE_MAX := by
    rw [UInt32.toNat_ofNat', Nat.mod_eq_of_lt (lt_of_le_of_lt (min_le_left _ _)
      page.count.toNat_lt)]
  simp only [readLoads, Loads.eval, hn, htoNat]
  exact eval_rectLoads _ _ _

/-- The rectangles after those of a list have been stored. -/
def updateRects (ps : List (Fin 8 × Rect)) (rect : Fin 8 → Rect) : Fin 8 → Rect :=
  ps.foldl (fun rect ir => Function.update rect ir.1 ir.2) rect

theorem storeAll_append {M : Type} (fs gs : List (M → M)) (m : M) :
    storeAll (fs ++ gs) m = storeAll gs (storeAll fs m) := List.foldl_append

theorem storeAll_storeRect (i : Fin 8) (r : Rect) (page : Page) :
    storeAll (storeRect i r) page = { page with rect := Function.update page.rect i r } := by
  simp [storeAll, storeRect, setRect]

theorem storeAll_rects (ps : List (Fin 8 × Rect)) (page : Page) :
    storeAll (ps.flatMap fun ir => storeRect ir.1 ir.2) page
      = { page with rect := updateRects ps page.rect } := by
  induction ps generalizing page with
  | nil => rfl
  | cons ir ps ih =>
    rw [List.flatMap_cons, storeAll_append, storeAll_storeRect, ih]
    rfl

theorem updateRects_of_notMem {ps : List (Fin 8 × Rect)} {i : Fin 8}
    (h : ∀ r, (i, r) ∉ ps) (rect : Fin 8 → Rect) : updateRects ps rect i = rect i := by
  induction ps generalizing rect with
  | nil => rfl
  | cons ir ps ih =>
    have hne : i ≠ ir.1 := by
      rintro rfl
      exact h ir.2 List.mem_cons_self
    rw [updateRects, List.foldl_cons]
    refine (ih (fun r hr => h r (List.mem_cons_of_mem _ hr)) _).trans ?_
    exact Function.update_of_ne hne _ _

theorem updateRects_of_mem {ps : List (Fin 8 × Rect)} (hps : (ps.map Prod.fst).Nodup) {i : Fin 8}
    {r : Rect} (h : (i, r) ∈ ps) (rect : Fin 8 → Rect) : updateRects ps rect i = r := by
  induction ps generalizing rect with
  | nil => simp at h
  | cons ir ps ih =>
    rw [List.map_cons, List.nodup_cons] at hps
    rw [updateRects, List.foldl_cons]
    rcases List.mem_cons.mp h with rfl | h
    · refine (updateRects_of_notMem (fun r' hr' => ?_) _).trans (Function.update_self _ _ _)
      exact hps.1 (List.mem_map.mpr ⟨_, hr', rfl⟩)
    · exact ih hps.2 h _

theorem updateRects_zip (rects : List Rect) (rect : Fin 8 → Rect) :
    updateRects ((List.finRange 8).zip rects) rect
      = fun i => rects[i.val]?.getD (rect i) := by
  funext i
  have hnodup : (((List.finRange 8).zip rects).map Prod.fst).Nodup := by
    rw [List.Nodup, List.pairwise_iff_getElem]
    intro k l _ _ hkl
    simp only [List.getElem_map, List.getElem_zip, List.getElem_finRange, ne_eq]
    exact ne_of_lt hkl
  by_cases hi : i.val < rects.length
  · rw [List.getElem?_eq_getElem hi, Option.getD_some]
    refine updateRects_of_mem hnodup (List.mem_iff_getElem.mpr ⟨i.val, ?_, ?_⟩) rect
    · simp [hi]
    · simp
  · rw [List.getElem?_eq_none (not_lt.mp hi), Option.getD_none]
    refine updateRects_of_notMem (fun r hr => hi ?_) rect
    obtain ⟨k, hk, hir⟩ := List.mem_iff_getElem.mp hr
    rw [List.getElem_zip, Prod.mk.injEq] at hir
    rw [List.length_zip] at hk
    rw [← hir.1]
    simp
    omega

/-- **A publication that is not interrupted** is `publishEpdcDamage`. -/
theorem storeAll_publishStores (p : Publication) (page : Page) :
    storeAll (publishStores p) page = { publishEpdcDamage page p.1 p.2 with seq := page.seq } := by
  have hrects := storeAll_rects ((List.finRange 8).zip (publishedRects p.1 p.2))
    { page with
      count := UInt32.ofNat (publishedRects p.1 p.2).length
      full := if p.2 ∨ (publishedRects p.1 p.2).length = 0 then 1 else 0 }
  rw [updateRects_zip] at hrects
  exact hrects

theorem seq_publishStores {p : Publication} {f : Page → Page} (hf : f ∈ publishStores p)
    (page : Page) : (f page).seq = page.seq := by
  simp only [publishStores, List.mem_cons, List.mem_flatMap, storeRect, List.not_mem_nil,
    or_false] at hf
  rcases hf with rfl | rfl | ⟨ir, -, rfl | rfl | rfl | rfl⟩ <;> rfl

/-- What an attempt finds on a page that a publication has left, whatever its number. -/
theorem eval_readLoads_published (p : Publication) (s s' : UInt32) (page : Page) :
    readLoads.eval { storeAll (publishStores p) { page with seq := s } with seq := s' }
      = publishedRead p := by
  have hlen := length_publishedRects_le p.1 p.2
  have hcount : (UInt32.ofNat (publishedRects p.1 p.2).length).toNat
      = (publishedRects p.1 p.2).length := by
    rw [UInt32.toNat_ofNat', Nat.mod_eq_of_lt (lt_of_le_of_lt hlen (by decide))]
  rw [eval_readLoads, storeAll_publishStores, publishedRead]
  simp only [publishEpdcDamage, hcount, min_eq_left hlen]
  refine congrArg _ (List.ext_getElem ?_ ?_)
  · simpa [EPDC_DAMAGE_MAX] using hlen
  · intro k hk hk'
    simp [List.getElem?_eq_getElem hk']

/-- The seqlock of the damage page. -/
def damageProtocol : Protocol Page Publication DamageRead where
  seq := Page.seq
  setSeq s page := { page with seq := s }
  stores := publishStores
  loads := readLoads
  content := publishedRead
  seq_setSeq := fun _ _ => rfl
  seq_stores := fun _ _ hf page => seq_publishStores hf page
  eval_publish := eval_readLoads_published

/-! ### Both processes -/

/-- The stores of the initialiser in `epdcDamageMap`. -/
inductive InitStore
  | count
  | full
  | version
  | seq
  | magic
  deriving DecidableEq

/-- The initialiser, in the order of the program. -/
def epdcDamageMap : List InitStore := [.count, .full, .version, .seq, .magic]

/-- How far the shim is. -/
inductive Link
  /-- Without `g_dmg`, and outside `attach_damage`. -/
  | detached
  /-- In `attach_damage`; the magic was right. -/
  | sawMagic
  /-- Attached, with this attempt of `read_damage` next or under way. -/
  | attached (attempt : ℕ)

/-- The mapping and both processes. -/
structure Sharing where
  magic : UInt32
  version : UInt32
  /-- The stores that the initialiser has yet to make. -/
  boot : List InitStore
  lock : Seqlock.State Page Publication DamageRead
  link : Link
  lastDmgSeq : UInt32
  /-- `*changed` of the last `read_damage` that accepted. -/
  changed : Bool

/-- A zero-filled file, SurfaceFlinger about to map it, and the shim without it. -/
def Sharing.start : Sharing where
  magic := 0
  version := 0
  boot := epdcDamageMap
  lock := ⟨⟨0, 0, 0, fun _ => ⟨0, 0, 0, 0⟩⟩, .idle, .idle⟩
  link := .detached
  lastDmgSeq := 0
  changed := true

/-- Which process takes the next step; a new publication of SurfaceFlinger's is `p`. -/
inductive Turn
  | surfaceFlinger (p : Publication)
  | composer

/-- What the trace of a run records. -/
inductive SharingNote
  | stored (w : InitStore)
  | attached
  | shared (n : Note Publication DamageRead)

def InitStore.run : InitStore → Sharing → Sharing
  | .count, s => { s with lock.mem.count := 0 }
  | .full, s => { s with lock.mem.full := 1 }
  | .version, s => { s with version := EPDC_DAMAGE_VERSION }
  | .seq, s => { s with lock.mem.seq := 2 }
  | .magic, s => { s with magic := EPDC_DAMAGE_MAGIC }

/-- The attempt after a step of attempt `k`: the first one of the next `read_damage` when the step
accepts, or when it gives up the fourth. -/
def nextAttempt (k : ℕ) (lock : Seqlock.State Page Publication DamageRead) :
    Option (Note Publication DamageRead) → ℕ
  | some (.accepted _ _) => 0
  | _ => match lock.reader with
    | .idle => if k + 1 < 4 then k + 1 else 0
    | .reading _ _ => k

/-- What `read_damage` does when it accepts: `*changed`, and `last_dmg_seq`. -/
def takeNote (s : Sharing) : Option (Note Publication DamageRead) → Sharing
  | some (.accepted seq _) => { s with changed := seq != s.lastDmgSeq, lastDmgSeq := seq }
  | _ => s

def Sharing.step (s : Sharing) : Turn → Sharing × Option SharingNote
  | .surfaceFlinger p =>
    match s.boot with
    | w :: boot => (w.run { s with boot := boot }, some (.stored w))
    | [] =>
      let (lock, n) := writeStep damageProtocol p s.lock
      ({ s with lock := lock }, n.map .shared)
  | .composer =>
    match s.link with
    | .detached =>
      ({ s with link := if s.magic ≠ EPDC_DAMAGE_MAGIC then .detached else .sawMagic }, none)
    | .sawMagic =>
      if s.version ≠ EPDC_DAMAGE_VERSION then ({ s with link := .detached }, none)
      else ({ s with link := .attached 0 }, some .attached)
    | .attached k =>
      let (lock, n) := readStep damageProtocol s.lock
      (takeNote { s with lock := lock, link := .attached (nextAttempt k lock n) } n,
        n.map .shared)

/-! ### The runs -/

/-- What the trace says about the seqlock. -/
def SharingNote.shared? : SharingNote → Option (Note Publication DamageRead)
  | .shared n => some n
  | _ => none

abbrev sharedNotes (notes : List SharingNote) : List (Note Publication DamageRead) :=
  notes.filterMap SharingNote.shared?

/-- The content that the initialiser leaves: no rectangles, and a full pass. -/
def initialRead : DamageRead := ⟨0, 1, []⟩

/-- `s` and `r` are the number and the content of publication `k` among `published`, or the initial
ones for `k = 0`. -/
def IsPublication (published : List (Publication × UInt32)) (k : ℕ) (s : UInt32) (r : DamageRead) :
    Prop :=
  k = 0 ∧ s = 2 ∧ r = initialRead ∨
    ∃ i p, k = i + 1 ∧ published[i]? = some (p, s) ∧ r = publishedRead p

section Runs

variable {notes : List SharingNote} {s : Sharing} {e : Turn}

/-- The state when `k` stores of the initialiser have been made. -/
def booting (k : ℕ) : Sharing :=
  { (epdcDamageMap.take k).foldl (fun s w => w.run s) Sharing.start with
    boot := epdcDamageMap.drop k }

/-- **The invariant of both processes**: the initialiser is under way and nobody reads, or it has
finished and the seqlock keeps its own invariant. -/
inductive SharingInv (notes : List SharingNote) : Sharing → Prop
  | boots (k : ℕ) (hk : k < 5) (hstored : ∀ w ∈ epdcDamageMap.take k, .stored w ∈ notes)
      (hshared : sharedNotes notes = []) : SharingInv notes (booting k)
  | runs (s : Sharing) (hboot : s.boot = []) (hstored : ∀ w ∈ epdcDamageMap, .stored w ∈ notes)
      (hlock : Inv damageProtocol 2 initialRead (sharedNotes notes) s.lock) : SharingInv notes s

/-- Wherever the shim has attached, the initialiser had finished. -/
def AttachedLate (notes : List SharingNote) : Prop :=
  ∀ pre post, notes = pre ++ .attached :: post → ∀ w ∈ epdcDamageMap, .stored w ∈ pre

theorem sharedNotes_append (notes notes' : List SharingNote) :
    sharedNotes (notes ++ notes') = sharedNotes notes ++ sharedNotes notes' :=
  List.filterMap_append

theorem sharedNotes_shared (n : Option (Note Publication DamageRead)) :
    sharedNotes (n.map SharingNote.shared).toList = n.toList := by
  cases n <;> rfl

/-- The initialiser makes its stores in order. -/
theorem step_booting {k : ℕ} (hk : k < 5) (p : Publication) :
    ∃ w, epdcDamageMap.take (k + 1) = epdcDamageMap.take k ++ [w] ∧
      (booting k).step (.surfaceFlinger p) = (booting (k + 1), some (.stored w)) := by
  interval_cases k
  · exact ⟨.count, rfl, rfl⟩
  · exact ⟨.full, rfl, rfl⟩
  · exact ⟨.version, rfl, rfl⟩
  · exact ⟨.seq, rfl, rfl⟩
  · exact ⟨.magic, rfl, rfl⟩

/-- The shim does not attach while the initialiser is under way. -/
theorem step_booting_composer {k : ℕ} (hk : k < 5) :
    (booting k).step .composer = (booting k, none) := by
  interval_cases k <;> rfl

theorem lock_takeNote (s : Sharing) (n : Option (Note Publication DamageRead)) :
    (takeNote s n).lock = s.lock ∧ (takeNote s n).boot = s.boot := by
  rcases n with _ | _ | _ | _ | _ <;> exact ⟨rfl, rfl⟩

/-- **Every step of either process keeps the invariant.** -/
theorem SharingInv.step (h : SharingInv notes s)
    (htimely : Timely (sharedNotes (notes ++ (s.step e).2.toList))) :
    SharingInv (notes ++ (s.step e).2.toList) (s.step e).1 := by
  cases h with
  | boots k hk hstored hshared =>
    cases e with
    | surfaceFlinger p =>
      obtain ⟨w, htake, hstep⟩ := step_booting hk p
      rw [hstep]
      have hstored' : ∀ v ∈ epdcDamageMap.take (k + 1),
          SharingNote.stored v ∈ notes ++ [.stored w] := by
        intro v hv
        rw [htake, List.mem_append, List.mem_singleton] at hv
        rcases hv with hv | rfl
        · exact List.mem_append_left _ (hstored v hv)
        · exact List.mem_append_right _ (List.mem_singleton.mpr rfl)
      have hshared' : sharedNotes (notes ++ [.stored w]) = [] := by
        rw [sharedNotes_append, hshared]
        rfl
      by_cases hlast : k + 1 < 5
      · exact .boots (k + 1) hlast hstored' hshared'
      · obtain rfl : k = 4 := by omega
        refine .runs _ rfl hstored' ?_
        rw [Option.toList_some, hshared']
        exact Inv.start rfl rfl
    | composer =>
      rw [step_booting_composer hk, Option.toList_none, List.append_nil]
      exact .boots k hk hstored hshared
  | runs s hboot hstored hlock =>
    have hstored' : ∀ w ∈ epdcDamageMap, SharingNote.stored w ∈ notes ++ (s.step e).2.toList :=
      fun w hw => List.mem_append_left _ (hstored w hw)
    cases e with
    | surfaceFlinger p =>
      refine .runs _ ?_ hstored' ?_
      · rw [Sharing.step, hboot]
      · rw [sharedNotes_append, Sharing.step, hboot]
        dsimp only
        rw [sharedNotes_shared]
        exact hlock.write p
    | composer =>
      rcases hlink : s.link with _ | _ | k
      · simp only [Sharing.step, hlink, Option.toList_none, List.append_nil]
        exact .runs _ hboot hstored hlock
      · simp only [Sharing.step, hlink] at htimely hstored' ⊢
        split_ifs with hversion
        · rw [Option.toList_none, List.append_nil]
          exact .runs _ hboot hstored hlock
        · rw [if_neg hversion] at hstored'
          refine .runs _ hboot hstored' ?_
          rw [Option.toList_some, sharedNotes_append]
          exact (List.append_nil (sharedNotes notes)).symm ▸ hlock
      · simp only [Sharing.step, hlink] at htimely hstored' ⊢
        refine .runs _ ((lock_takeNote _ _).2.trans hboot) hstored' ?_
        rw [sharedNotes_append, sharedNotes_shared] at htimely ⊢
        rw [(lock_takeNote _ _).1]
        exact hlock.read rfl htimely.of_append

/-- A step that attaches is taken after the initialiser. -/
theorem SharingInv.attached (h : SharingInv notes s) (hout : (s.step e).2 = some .attached) :
    ∀ w ∈ epdcDamageMap, .stored w ∈ notes := by
  cases h with
  | boots k hk hstored hshared =>
    cases e with
    | surfaceFlinger p =>
      obtain ⟨w, -, hstep⟩ := step_booting hk p
      rw [hstep] at hout
      cases hout
    | composer =>
      rw [step_booting_composer hk] at hout
      cases hout
  | runs s hboot hstored hlock => exact hstored

/-- What holds along every run. -/
structure SharingOk (notes : List SharingNote) (s : Sharing) : Prop where
  inv : SharingInv notes s
  late : AttachedLate notes

theorem AttachedLate.step (h : AttachedLate notes) (hinv : SharingInv notes s) :
    AttachedLate (notes ++ (s.step e).2.toList) := by
  cases hout : (s.step e).2 with
  | none =>
    rw [Option.toList_none, List.append_nil]
    exact h
  | some n =>
    intro pre post heq
    rcases post.eq_nil_or_concat with rfl | ⟨post, n', rfl⟩
    · obtain ⟨rfl, rfl⟩ := List.append_singleton_inj.mp heq
      exact hinv.attached hout
    · rw [Option.toList_some, List.concat_eq_append, ← List.cons_append, ← List.append_assoc] at heq
      exact h pre post (List.append_singleton_inj.mp heq).1

theorem SharingOk.step (h : SharingOk notes s)
    (htimely : Timely (sharedNotes (notes ++ (s.step e).2.toList))) :
    SharingOk (notes ++ (s.step e).2.toList) (s.step e).1 :=
  ⟨h.inv.step htimely, h.late.step h.inv⟩

theorem sharingOk_run (es : List Turn)
    (htimely : Timely (sharedNotes (outputs Sharing.step Sharing.start es))) :
    SharingOk (outputs Sharing.step Sharing.start es) (after Sharing.step Sharing.start es) := by
  have hshorter : ∀ l l' : List SharingNote, Timely (sharedNotes (l ++ l')) →
      Timely (sharedNotes l) := by
    intro l l' h
    rw [sharedNotes_append] at h
    exact h.of_append
  have hinit : SharingOk [] Sharing.start :=
    ⟨.boots 0 (by decide) (by simp) rfl, fun pre post heq => by simp at heq⟩
  exact run_inv (fun _ _ _ h htimely => h.step htimely) hinit
    (along_outputs (Q := fun l => Timely (sharedNotes l)) hshorter htimely)

end Runs

/-- What the seqlock accepts is a publication. -/
theorem isPublication_of_sound {pre post : List (Note Publication DamageRead)} {s : UInt32}
    {r : DamageRead} (h : Sound damageProtocol 2 initialRead (pre ++ .accepted s r :: post)) :
    IsPublication (publications (pre ++ .accepted s r :: post)) (publications pre).length s r := by
  obtain ⟨hs, hr, hstamp⟩ := h pre s r post rfl
  rw [publications_append]
  rcases (publications pre).eq_nil_or_concat with hnil | ⟨published, ⟨p, t⟩, hconcat⟩
  · refine Or.inl ⟨by rw [hnil, List.length_nil], ?_, ?_⟩
    · rw [hs, seqAt, hnil]
      rfl
    · rw [hr, newest, hnil]
      rfl
  · rw [List.concat_eq_append] at hconcat
    have hlast : (publications pre).getLast? = some (p, t) := by
      rw [hconcat, List.getLast?_concat]
    refine Or.inr ⟨published.length, p, by rw [hconcat]; simp, ?_, ?_⟩
    · rw [hconcat, hstamp p t hlast]
      simp
    · rw [hr, newest, hlast]
      rfl

/-- **A torn snapshot is never handed out.** SurfaceFlinger and the shim start on a zero-filled
file and take their steps in any order. The shim attaches only after the initialiser has stored
count, full, version and sequence number. What `read_damage` accepts is the content of one
publication, or the initial one, and it is the one that has set the number to the value read: the
newest one that has completed, and so no older than what was accepted before. -/
theorem handed_out_untorn (es : List Turn) (notes : List SharingNote)
    (hnotes : notes = outputs Sharing.step Sharing.start es)
    (htimely : Timely (sharedNotes notes)) :
    (∀ pre post, notes = pre ++ .attached :: post →
      ∀ w ∈ [InitStore.count, .full, .version, .seq], .stored w ∈ pre) ∧
    (∀ pre s r post, notes = pre ++ .shared (.accepted s r) :: post →
      IsPublication (publications (sharedNotes notes)) (publications (sharedNotes pre)).length s
        r) ∧
    ∀ pre s r mid s' r' post,
      notes = pre ++ .shared (.accepted s r) :: (mid ++ .shared (.accepted s' r') :: post) →
        (publications (sharedNotes pre)).length ≤
          (publications (sharedNotes (pre ++ .shared (.accepted s r) :: mid))).length := by
  subst hnotes
  obtain ⟨hinv, hlate⟩ := sharingOk_run es htimely
  refine ⟨fun pre post heq w hw => ?_, fun pre s r post heq => ?_,
    fun pre s r mid s' r' post _ => ?_⟩
  · refine hlate pre post heq w ?_
    revert hw
    revert w
    decide
  · have hshared : sharedNotes (pre ++ .shared (.accepted s r) :: post)
        = sharedNotes pre ++ .accepted s r :: sharedNotes post := by
      rw [sharedNotes_append]
      rfl
    rw [heq] at hinv ⊢
    generalize after Sharing.step Sharing.start es = final at hinv
    cases hinv with
    | boots k hk hstored hnone => simp [hshared] at hnone
    | runs final hboot hstored hlock =>
      rw [hshared] at hlock ⊢
      exact isPublication_of_sound hlock.sound
  · rw [sharedNotes_append, publications_append, List.length_append]
    exact Nat.le_add_right _ _

/-- Publishing one rectangle, without force. -/
def single (r : Rect) (h : r.Proper) : Publication := (⟨[r], r, by simpa, by simp⟩, false)

def corner : Publication := single ⟨0, 0, 10, 10⟩ (by decide)

def band : Publication := single ⟨0, 40, 99, 60⟩ (by decide)

/-- The shim attaches and a corner is published. While it reads that, word by word, a band is
published: its attempt is torn, finds the number odd, and is made again. -/
def tornTurns : List Turn :=
  List.replicate 5 (.surfaceFlinger corner) ++ List.replicate 2 .composer ++
    List.replicate 9 (.surfaceFlinger corner) ++
    (List.replicate 8 [Turn.composer, .surfaceFlinger band]).flatten ++
    [.composer, .surfaceFlinger band] ++ List.replicate 8 .composer

theorem handed_out_untorn_retried : ∃ pre,
    outputs Sharing.step Sharing.start tornTurns
        = pre ++ [.shared (.accepted 6 ⟨1, 0, [⟨0, 40, 99, 60⟩]⟩)] ∧
      sharedNotes pre = [.published corner 4, .started, .torn, .published band 6,
        .started] ∧
      IsPublication (publications (sharedNotes (outputs Sharing.step Sharing.start tornTurns))) 2 6
        ⟨1, 0, [⟨0, 40, 99, 60⟩]⟩ :=
  ⟨(outputs Sharing.step Sharing.start tornTurns).take 11, rfl, rfl,
    (handed_out_untorn tornTurns _ rfl (Timely.of_length (by decide +kernel))).2.1
      ((outputs Sharing.step Sharing.start tornTurns).take 11) 6 ⟨1, 0, [⟨0, 40, 99, 60⟩]⟩ [] rfl⟩

end PalmaEos
