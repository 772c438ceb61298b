import Mathlib.Data.List.DropRight
import Mathlib.Data.List.Induction
import PalmaEos.Lib.Distinct
import PalmaEos.Lib.Runs
import PalmaEos.Shim

/-!
# The recorded objects

`drmModeAtomicAddProperty` records the objects that the composer names, and every commit forgets
them. The record is not kept for each request: it is a function of the calls since the last commit,
of whatever request they were.

At an injecting commit the shim looks up each recorded object, in its cache or at the driver, and
adds the two EPDC properties to those that have both.

## Main results

* `after_pend` — what is recorded after a run
* `map_fst_recorded` — the recorded objects are the first 32 distinct ones named since the last
  commit
* `addParms_adds` — what an injecting commit adds, object by object
-/

namespace PalmaEos

/-! ### What is recorded -/

/-- The object that a call names. -/
def Event.object : Event → Option UInt32
  | .addProperty _ obj _ _ => some obj
  | _ => none

/-- The call commits a request, or validates it. -/
def Event.commits : Event → Bool
  | .commit _ _ _ => true
  | _ => false

/-- What a call makes of the recorded objects, when `fbid` is the property `FB_ID`. -/
def Event.record (fbid : UInt32) (pend : List (UInt32 × UInt32)) : Event → List (UInt32 × UInt32)
  | .addProperty _ obj prop value =>
    if fbid ≠ 0 ∧ prop = fbid then recordFb (recordObject pend obj) obj value.toUInt32
    else recordObject pend obj
  | _ => pend

/-- What is recorded of a list of calls. -/
def recorded (fbid : UInt32) (es : List Event) : List (UInt32 × UInt32) :=
  es.foldl (Event.record fbid) []

/-- The calls since the last commit. -/
def sinceCommit (es : List Event) : List Event := es.rtakeWhile fun e => ! e.commits

/-- The first 32 distinct objects that the calls name. -/
def named (es : List Event) : List UInt32 := ((es.filterMap Event.object).eraseDups).take MAX_OBJ

section Recorded

variable {libs : Libs} {s : Shim} {e : Event} {es : List Event} {fbid : UInt32}

/-- A call between commits records, and leaves `g_fbid_prop` alone. -/
theorem step_of_not_commits (h : e.commits = false) :
    (s.step libs e).1.pend = e.record s.fbidProp s.pend ∧
      (s.step libs e).1.fbidProp = s.fbidProp := by
  cases e with
  | addProperty => exact ⟨rfl, rfl⟩
  | commit => cases h
  | settle clock opens =>
    simp only [Shim.step]
    rcases settleTick_cases libs clock opens s with ⟨b, -, heq⟩ | ⟨-, heq⟩
    · rw [heq]
      exact ⟨rfl, rfl⟩
    · rw [heq]
      exact ⟨rfl, rfl⟩

/-- Every commit forgets what is recorded, whether it validates, is held back or injects. -/
theorem step_of_commits (h : e.commits = true) : (s.step libs e).1.pend = [] := by
  cases e with
  | addProperty => cases h
  | settle => cases h
  | commit req testOnly env =>
    simp only [Shim.step]
    rcases drmModeAtomicCommit_cases libs env testOnly s with
      ⟨-, heq⟩ | ⟨-, -, heq⟩ | ⟨-, -, -, heq⟩
    · rw [heq]
      rfl
    · rw [heq]
      rfl
    · obtain ⟨cache, fbid, started, running, hframe⟩ :=
        inject_frame libs env (observed env (prepare libs env s))
          (snapshot env (prepare libs env s)) (sinceInject libs env (prepare libs env s))
      rw [heq]
      dsimp only
      rw [hframe]

/-- **What is recorded after a run**: the calls since the last commit. -/
theorem after_pend (libs : Libs) (hs : s.pend = []) (es : List Event) :
    (after (Shim.step libs) s es).pend
      = recorded (after (Shim.step libs) s es).fbidProp (sinceCommit es) := by
  induction es using List.reverseRecOn with
  | nil => exact hs
  | append_singleton es e ih =>
    rw [after_append, sinceCommit, List.rtakeWhile_concat]
    change ((after (Shim.step libs) s es).step libs e).1.pend
      = recorded ((after (Shim.step libs) s es).step libs e).1.fbidProp _
    cases hcommits : e.commits with
    | true => exact step_of_commits hcommits
    | false =>
      have hstep : ∀ s' : Shim, (s'.step libs e).1.pend = e.record s'.fbidProp s'.pend ∧
          (s'.step libs e).1.fbidProp = s'.fbidProp := fun s' => step_of_not_commits hcommits
      obtain ⟨hpend, hfbid⟩ := hstep (after (Shim.step libs) s es)
      rw [hpend, hfbid, ih, if_pos (by rfl), recorded, recorded, List.foldl_append]
      rfl

theorem map_fst_recordFb (pend : List (UInt32 × UInt32)) (obj fb : UInt32) :
    (recordFb pend obj fb).map Prod.fst = pend.map Prod.fst := by
  rw [recordFb, List.map_map]
  refine List.map_congr_left fun p _ => ?_
  rw [Function.comp_apply]
  split_ifs <;> rfl

theorem map_fst_recordObject (pend : List (UInt32 × UInt32)) (obj : UInt32) :
    (recordObject pend obj).map Prod.fst =
      if obj ∈ pend.map Prod.fst then pend.map Prod.fst
      else if pend.length < MAX_OBJ then pend.map Prod.fst ++ [obj] else pend.map Prod.fst := by
  have hany : (pend.any fun p => p.1 = obj) = true ↔ obj ∈ pend.map Prod.fst := by simp
  rw [recordObject]
  by_cases hmem : obj ∈ pend.map Prod.fst
  · rw [if_pos (hany.mpr hmem), if_pos hmem]
  · rw [if_neg (mt hany.mp hmem), if_neg hmem]
    split_ifs
    · rw [List.map_append, List.map_singleton]
    · rfl

/-- **The recorded objects** are the first 32 distinct ones that the calls name. -/
theorem map_fst_recorded (fbid : UInt32) (es : List Event) :
    (recorded fbid es).map Prod.fst = named es := by
  induction es using List.reverseRecOn with
  | nil => rfl
  | append_singleton es e ih =>
    have hskip : e.object = none → named (es ++ [e]) = named es := by
      intro hobj
      rw [named, List.filterMap_append, List.filterMap_cons_none hobj, List.filterMap_nil,
        List.append_nil, named]
    rw [recorded, List.foldl_append, List.foldl_cons, List.foldl_nil, ← recorded]
    cases e with
    | commit => exact ih.trans (hskip rfl).symm
    | settle => exact ih.trans (hskip rfl).symm
    | addProperty req obj prop value =>
      have hrecord : (Event.record fbid (recorded fbid es) (.addProperty req obj prop value)).map
          Prod.fst = (recordObject (recorded fbid es) obj).map Prod.fst := by
        rw [Event.record]
        split_ifs
        · exact map_fst_recordFb _ _ _
        · rfl
      have hlen : (recorded fbid es).length = (named es).length := by
        rw [← ih, List.length_map]
      rw [hrecord, map_fst_recordObject, ih, hlen, named, named, List.filterMap_append]
      exact (take_eraseDups_concat MAX_OBJ _ obj).symm

theorem nodup_named (es : List Event) : (named es).Nodup :=
  (List.take_sublist _ _).nodup (nodup_eraseDups _)

theorem named_subset (es : List Event) : named es ⊆ es.filterMap Event.object := by
  intro obj hobj
  exact List.mem_eraseDups.mp (List.mem_of_mem_take hobj)

/-- The recorded objects of a reachable state. -/
theorem after_pend_fst (libs : Libs) (es : List Event) :
    (after (Shim.step libs) Shim.init es).pend.map Prod.fst = named (sinceCommit es) := by
  rw [after_pend libs rfl, map_fst_recorded]

end Recorded

/-! ### What the shim finds out about them -/

/-- Both EPDC properties are there. -/
def CacheEntry.HasEpdc (c : CacheEntry) : Prop := c.parmsProp ≠ 0 ∧ c.cntProp ≠ 0

instance (c : CacheEntry) : Decidable c.HasEpdc := inferInstanceAs (Decidable (_ ∧ _))

/-- The cache entry that the answers of the driver give. -/
def queried (driver : Driver) (obj : UInt32) : CacheEntry :=
  match driver obj with
  | none => ⟨obj, 0, 0⟩
  | some props => (scanProps props (⟨obj, 0, 0⟩, 0)).1

/-- The objects of a list that the cache does not have. -/
def uncached (cache : List CacheEntry) (objs : List UInt32) : List UInt32 :=
  objs.filter fun obj => obj ∉ cache.map CacheEntry.obj

/-- What the shim finds out about an object when it looks up `objs` in turn: what the cache has, or
what the driver answers, unless the cache is full by then. -/
def entryFor (libs : Libs) (driver : Driver) (cache : List CacheEntry) (objs : List UInt32)
    (obj : UInt32) : Option CacheEntry :=
  match cache.find? fun c => c.obj = obj with
  | some c => some c
  | none =>
    if MAX_OBJ ≤ cache.length + (uncached cache (objs.takeWhile (· ≠ obj))).length then none
    else if ! libs.getObjProps || ! libs.getProp then none
    else some (queried driver obj)

/-- The two properties that are added to an object. -/
def addsFor (nRect : ℤ) (obj : UInt32) (entry : Option CacheEntry) : List Add :=
  match entry with
  | none => []
  | some c =>
    if c.HasEpdc then [⟨obj, c.parmsProp, .parmsAddr⟩, ⟨obj, c.cntProp, .count nRect⟩] else []

section Found

variable {libs : Libs} {driver : Driver} {s : Shim} {obj : UInt32}

/-- The properties of a plane are scanned without regard to `g_fbid_prop`. -/
theorem scanProps_fst (props : List (Option PropRes)) (c : CacheEntry) (fbid fbid' : UInt32) :
    (scanProps props (c, fbid)).1 = (scanProps props (c, fbid')).1 := by
  induction props generalizing c fbid fbid' with
  | nil => rfl
  | cons p props ih =>
    cases p with
    | none => exact ih c fbid fbid'
    | some p =>
      rw [scanProps, scanProps]
      split_ifs
      all_goals exact ih _ _ _

theorem scanProps_obj (props : List (Option PropRes)) (c : CacheEntry) (fbid : UInt32) :
    (scanProps props (c, fbid)).1.obj = c.obj := by
  induction props generalizing c fbid with
  | nil => rfl
  | cons p props ih =>
    cases p with
    | none => exact ih c fbid
    | some p =>
      rw [scanProps]
      split_ifs
      all_goals exact ih _ _

theorem queried_obj (driver : Driver) (obj : UInt32) : (queried driver obj).obj = obj := by
  rw [queried]
  split
  · rfl
  · exact scanProps_obj _ _ _

/-- **The cases of `lookup`**: the cache has the object; or it is not asked for, because the cache
is full or libdrm cannot be asked; or the driver is asked and its answer cached. -/
theorem lookup_cases (libs : Libs) (driver : Driver) (obj : UInt32) (s : Shim) :
    (∃ c, (s.cache.find? fun c => c.obj = obj) = some c ∧
      lookup libs driver obj s = (s, some c)) ∨
    ((s.cache.find? fun c => c.obj = obj) = none ∧
      (MAX_OBJ ≤ s.cache.length ∨ (! libs.getObjProps || ! libs.getProp) = true) ∧
      lookup libs driver obj s = (s, none)) ∨
    ((s.cache.find? fun c => c.obj = obj) = none ∧ s.cache.length < MAX_OBJ ∧
      (! libs.getObjProps || ! libs.getProp) = false ∧
      ∃ fbid, lookup libs driver obj s
        = ({ s with cache := s.cache ++ [queried driver obj], fbidProp := fbid },
          some (queried driver obj))) := by
  rw [lookup]
  cases hfind : s.cache.find? fun c => c.obj = obj with
  | some c => exact Or.inl ⟨c, rfl, rfl⟩
  | none =>
    right
    dsimp only
    by_cases hfull : MAX_OBJ ≤ s.cache.length
    · rw [if_pos hfull]
      exact Or.inl ⟨rfl, Or.inl hfull, rfl⟩
    · rw [if_neg hfull]
      cases hlibs : ! libs.getObjProps || ! libs.getProp with
      | true => exact Or.inl ⟨rfl, Or.inr rfl, rfl⟩
      | false =>
        refine Or.inr ⟨rfl, Nat.lt_of_not_le hfull, rfl, ?_⟩
        cases hdriver : driver obj with
        | none =>
          have hqueried : queried driver obj = ⟨obj, 0, 0⟩ := by rw [queried, hdriver]
          rw [hqueried]
          exact ⟨s.fbidProp, rfl⟩
        | some props =>
          have hqueried : queried driver obj = (scanProps props (⟨obj, 0, 0⟩, s.fbidProp)).1 := by
            rw [queried, hdriver]
            exact scanProps_fst _ _ _ _
          rw [hqueried]
          exact ⟨(scanProps props (⟨obj, 0, 0⟩, s.fbidProp)).2, rfl⟩

theorem mem_map_obj_iff {cache : List CacheEntry} :
    obj ∈ cache.map CacheEntry.obj ↔ (cache.find? fun c => c.obj = obj) ≠ none := by
  rw [Ne, List.find?_eq_none, List.mem_map]
  push Not
  simp

/-- Looking up one object leaves what is found out about the others. -/
theorem entryFor_lookup {objs : List UInt32} {o : UInt32} (ho : o ∈ objs) (hobj : obj ∉ objs) :
    entryFor libs driver (lookup libs driver obj s).1.cache objs o
      = entryFor libs driver s.cache (obj :: objs) o := by
  have hne : obj ≠ o := fun h => hobj (h ▸ ho)
  have htake : (obj :: objs).takeWhile (· ≠ o) = obj :: objs.takeWhile (· ≠ o) :=
    List.takeWhile_cons_of_pos (by simpa using hne)
  have hnotin : obj ∉ objs.takeWhile (· ≠ o) := fun h => hobj (List.takeWhile_subset _ h)
  rw [entryFor, entryFor, htake]
  rcases lookup_cases libs driver obj s with
    ⟨c, hfind, heq⟩ | ⟨hfind, hno, heq⟩ | ⟨hfind, hroom, hlibs, fbid, heq⟩
  · have hcached : obj ∈ s.cache.map CacheEntry.obj := mem_map_obj_iff.mpr (by simp [hfind])
    have huncached : uncached s.cache (obj :: objs.takeWhile (· ≠ o))
        = uncached s.cache (objs.takeWhile (· ≠ o)) :=
      List.filter_cons_of_neg (by simpa using hcached)
    rw [heq, huncached]
  · rw [heq]
    dsimp only
    cases s.cache.find? fun c => c.obj = o with
    | some c => rfl
    | none =>
      dsimp only
      rcases hno with hfull | hlibs
      · rw [if_pos (le_trans hfull (Nat.le_add_right _ _)),
          if_pos (le_trans hfull (Nat.le_add_right _ _))]
      · rw [if_pos hlibs]
        split_ifs <;> rfl
  · have hnew : obj ∉ s.cache.map CacheEntry.obj := fun h => mem_map_obj_iff.mp h hfind
    have hfind' : ((s.cache ++ [queried driver obj]).find? fun c => c.obj = o)
        = s.cache.find? fun c => c.obj = o := by
      rw [List.find?_append, List.find?_cons_of_neg (by simpa [queried_obj] using hne)]
      exact Option.or_none
    have hcount : (s.cache ++ [queried driver obj]).length
          + (uncached (s.cache ++ [queried driver obj]) (objs.takeWhile (· ≠ o))).length
        = s.cache.length + (uncached s.cache (obj :: objs.takeWhile (· ≠ o))).length := by
      have hsame : uncached (s.cache ++ [queried driver obj]) (objs.takeWhile (· ≠ o))
          = uncached s.cache (objs.takeWhile (· ≠ o)) := by
        refine List.filter_congr fun o' ho' => ?_
        have hne' : o' ≠ obj := fun h => hnotin (h ▸ ho')
        simp [queried_obj, hne']
      have hcons : uncached s.cache (obj :: objs.takeWhile (· ≠ o))
          = obj :: uncached s.cache (objs.takeWhile (· ≠ o)) :=
        List.filter_cons_of_pos (by simpa using hnew)
      rw [hsame, hcons, List.length_append, List.length_singleton, List.length_cons]
      omega
    rw [heq]
    dsimp only
    rw [hfind', hcount]

/-- What is found out about the object looked up first. -/
theorem lookup_snd (objs : List UInt32) : (lookup libs driver obj s).2
    = entryFor libs driver s.cache (obj :: objs) obj := by
  have htake : (obj :: objs).takeWhile (· ≠ obj) = [] := List.takeWhile_cons_of_neg (by simp)
  rw [entryFor, htake]
  rcases lookup_cases libs driver obj s with
    ⟨c, hfind, heq⟩ | ⟨hfind, hno, heq⟩ | ⟨hfind, hroom, hlibs, fbid, heq⟩
  · rw [heq, hfind]
  · rw [heq, hfind]
    rcases hno with hfull | hlibs
    · exact (if_pos hfull).symm
    · dsimp only
      rw [if_pos hlibs, ite_self]
  · rw [heq, hfind]
    have hroom' : ¬ MAX_OBJ ≤ s.cache.length + (uncached s.cache []).length :=
      Nat.not_le_of_lt hroom
    dsimp only
    rw [if_neg hroom', hlibs]
    rfl

/-- The loop over the recorded objects, one object at a time. -/
theorem addParms_cons (nRect : ℤ) (obj fb : UInt32) (pend : List (UInt32 × UInt32)) (s : Shim) :
    addParms libs driver nRect ((obj, fb) :: pend) s =
      ((addParms libs driver nRect pend (lookup libs driver obj s).1).1,
        addsFor nRect obj (lookup libs driver obj s).2 ++
          (addParms libs driver nRect pend (lookup libs driver obj s).1).2) := by
  rw [addParms]
  generalize lookup libs driver obj s = r
  obtain ⟨s', _ | c⟩ := r
  · rfl
  · have hlacks : (c.parmsProp = 0 ∨ c.cntProp = 0) ↔ ¬ c.HasEpdc := by
      rw [CacheEntry.HasEpdc, not_and_or, not_not, not_not]
    dsimp only
    by_cases hepdc : c.HasEpdc
    · rw [if_neg fun h => hlacks.mp h hepdc, addsFor, if_pos hepdc]
      rfl
    · rw [if_pos (hlacks.mpr hepdc), addsFor, if_neg hepdc]
      rfl

/-- **What an injecting commit adds**, object by object. -/
theorem addParms_adds (nRect : ℤ) {pend : List (UInt32 × UInt32)}
    (hpend : (pend.map Prod.fst).Nodup) :
    (addParms libs driver nRect pend s).2 = (pend.map Prod.fst).flatMap fun obj =>
      addsFor nRect obj (entryFor libs driver s.cache (pend.map Prod.fst) obj) := by
  induction pend generalizing s with
  | nil => rfl
  | cons p pend ih =>
    obtain ⟨obj, fb⟩ := p
    rw [List.map_cons, List.nodup_cons] at hpend
    have hrest : (addParms libs driver nRect pend (lookup libs driver obj s).1).2
        = (pend.map Prod.fst).flatMap fun o => addsFor nRect o
            (entryFor libs driver s.cache (obj :: pend.map Prod.fst) o) := by
      rw [ih hpend.2]
      refine List.flatMap_congr fun o ho => ?_
      rw [entryFor_lookup ho hpend.1]
    rw [addParms_cons, lookup_snd (pend.map Prod.fst), hrest]
    rfl

end Found

end PalmaEos
