import PalmaEos.Injections

/-!
# The EPDC planes

An injecting commit adds the update parameters to every EPDC plane of its request, once, and
changes nothing else: the composer's own calls reach libdrm as they are. That holds as long as the
composer assembles one request at a time and names no more objects than the two tables of the shim
take up, `pend` for one request and the property cache for the whole run.

The cache is never corrected. It is right because it is filled from a driver that answers
consistently: each entry is what the driver answered when the object was first looked up.

## Main results

* `scanProps_planes` — what is scanned of a plane whose properties have distinct names
* `after_cache` — the cache has each object once, with the driver's answers
* `planes_driven` — the calls that reach libdrm from one commit to the next
-/

namespace PalmaEos

/-! ### What reaches libdrm -/

/-- The value of a property that reaches libdrm: the composer's own or the shim's. -/
inductive RealValue
  | own (value : UInt64)
  | shim (value : AddValue)
  deriving DecidableEq

/-- A call of `real_add` or `real_commit`. -/
inductive RealCall
  | add (req : ℕ) (obj prop : UInt32) (value : RealValue)
  | commit (req : ℕ) (testOnly : Bool)
  deriving DecidableEq

/-- The call of `real_add` for a property that the shim adds. -/
def Add.realCall (req : ℕ) (a : Add) : RealCall := .add req a.obj a.prop (.shim a.value)

/-- The calls that reach libdrm in one step. -/
def realCalls (libs : Libs) (s : Shim) : Event → List RealCall
  | .addProperty req obj prop value => [.add req obj prop (.own value)]
  | .commit req testOnly env =>
    ((drmModeAtomicCommit libs env testOnly s).2.elim [] fun i => i.adds.map (Add.realCall req)) ++
      [.commit req testOnly]
  | .settle _ _ => []

/-- The calls that reach libdrm in a run. -/
def realTrace (libs : Libs) : Shim → List Event → List RealCall
  | _, [] => []
  | s, e :: es => realCalls libs s e ++ realTrace libs (s.step libs e).1 es

/-- The composer's own call of `drmModeAtomicAddProperty`. -/
def Event.ownCall : Event → Option RealCall
  | .addProperty req obj prop value => some (.add req obj prop (.own value))
  | _ => none

section Trace

variable {libs : Libs} {s : Shim} {es es' : List Event}

theorem realTrace_append : realTrace libs s (es ++ es')
    = realTrace libs s es ++ realTrace libs (after (Shim.step libs) s es) es' := by
  induction es generalizing s with
  | nil => rfl
  | cons e es ih => rw [List.cons_append, realTrace, ih, realTrace, after, List.append_assoc]

/-- Between commits the composer's calls reach libdrm in order and unaltered. -/
theorem realTrace_of_not_commits (h : ∀ e ∈ es, e.commits = false) :
    realTrace libs s es = es.filterMap Event.ownCall := by
  induction es generalizing s with
  | nil => rfl
  | cons e es ih =>
    rw [realTrace, ih fun e' he' => h e' (List.mem_cons_of_mem _ he')]
    cases e with
    | addProperty => rfl
    | settle => rfl
    | commit => exact absurd (h _ List.mem_cons_self) (by simp [Event.commits])

/-- What reaches libdrm at a commit. -/
theorem realCalls_commit (req : ℕ) (testOnly : Bool) (env : Env) :
    realCalls libs s (.commit req testOnly env) =
      (if Injects libs env testOnly s then (injection libs env s).adds.map (Add.realCall req)
        else []) ++ [.commit req testOnly] := by
  rw [realCalls, drmModeAtomicCommit_snd]
  split_ifs <;> rfl

end Trace

/-! ### A consistent driver -/

/-- The planes of a driver that answers consistently, each with a fixed list of properties that have
distinct names and are not 0. -/
structure Planes where
  props : UInt32 → Option (List PropRes)
  distinct : ∀ obj l, props obj = some l → (l.map PropRes.name).Nodup
  nonzero : ∀ obj l, props obj = some l → ∀ p ∈ l, p.id ≠ 0

/-- What the driver answers. -/
def Planes.driver (planes : Planes) : Driver := fun obj => (planes.props obj).map (·.map some)

/-- The id of a property by its name. -/
def propId (props : List PropRes) (name : String) : Option UInt32 :=
  (props.find? fun p => p.name = name).map PropRes.id

/-- The two calls for a plane that has both EPDC properties, and none for any other object. -/
def Planes.calls (planes : Planes) (req : ℕ) (nRect : ℤ) (obj : UInt32) : List RealCall :=
  match planes.props obj with
  | none => []
  | some props =>
    match propId props "EPDC_UPDATE_PARMS_ADDR", propId props "EPDC_UPDATE_CNT" with
    | some parms, some cnt =>
      [.add req obj parms (.shim .parmsAddr), .add req obj cnt (.shim (.count nRect))]
    | _, _ => []

section Driver

variable {planes : Planes} {obj : UInt32}

theorem propId_cons_of_ne {p : PropRes} {props : List PropRes} {name : String}
    (h : p.name ≠ name) : propId (p :: props) name = propId props name := by
  rw [propId, List.find?_cons_of_neg (by simpa using h), propId]

theorem propId_cons_of_eq {p : PropRes} {props : List PropRes} {name : String}
    (h : p.name = name) : propId (p :: props) name = some p.id := by
  rw [propId, List.find?_cons_of_pos (by simpa using h), Option.map_some]

theorem propId_eq_none {props : List PropRes} {name : String}
    (h : name ∉ props.map PropRes.name) : propId props name = none := by
  rw [propId, Option.map_eq_none_iff, List.find?_eq_none]
  intro p hp hname
  exact h (List.mem_map.mpr ⟨p, hp, by simpa using hname⟩)

/-- **What is scanned of a plane** whose properties have distinct names. -/
theorem scanProps_planes {props : List PropRes} (h : (props.map PropRes.name).Nodup)
    (c : CacheEntry) (fbid : UInt32) : (scanProps (props.map some) (c, fbid)).1 =
      ⟨c.obj, (propId props "EPDC_UPDATE_PARMS_ADDR").getD c.parmsProp,
        (propId props "EPDC_UPDATE_CNT").getD c.cntProp⟩ := by
  induction props generalizing c fbid with
  | nil => rfl
  | cons p props ih =>
    rw [List.map_cons, List.nodup_cons] at h
    rw [List.map_cons, scanProps]
    generalize (if p.name = "FB_ID" then p.id else fbid) = fbid'
    by_cases hparms : p.name = "EPDC_UPDATE_PARMS_ADDR"
    · have hcnt : p.name ≠ "EPDC_UPDATE_CNT" := by
        rw [hparms]
        decide
      rw [if_pos hparms, ih h.2, propId_eq_none (hparms ▸ h.1), propId_cons_of_ne hcnt,
        propId_cons_of_eq hparms]
      rfl
    · rw [if_neg hparms, propId_cons_of_ne hparms]
      by_cases hcnt : p.name = "EPDC_UPDATE_CNT"
      · have hnone : propId props "EPDC_UPDATE_CNT" = none := propId_eq_none (hcnt ▸ h.1)
        rw [if_pos hcnt, ih h.2, hnone, propId_cons_of_eq hcnt]
        rfl
      · rw [if_neg hcnt, ih h.2, propId_cons_of_ne hcnt]

/-- What is added to an object of a consistent driver. -/
theorem addsFor_queried (req : ℕ) (nRect : ℤ) :
    (addsFor nRect obj (some (queried planes.driver obj))).map (Add.realCall req)
      = planes.calls req nRect obj := by
  rw [queried, Planes.driver, Planes.calls]
  cases hprops : planes.props obj with
  | none => rfl
  | some props =>
    have hid : ∀ name id, propId props name = some id → id ≠ 0 := by
      intro name id hname
      obtain ⟨p, hp, rfl⟩ := Option.map_eq_some_iff.mp hname
      exact planes.nonzero obj props hprops p (List.mem_of_find?_eq_some hp)
    dsimp only [Option.map_some]
    rw [scanProps_planes (planes.distinct obj props hprops), addsFor]
    dsimp only
    cases hparms : propId props "EPDC_UPDATE_PARMS_ADDR" with
    | none => rw [if_neg fun h => h.1 rfl]; rfl
    | some parms =>
      cases hcnt : propId props "EPDC_UPDATE_CNT" with
      | none => rw [if_neg fun h => h.2 rfl]; rfl
      | some cnt => rw [if_pos ⟨hid _ _ hparms, hid _ _ hcnt⟩]; rfl

end Driver

/-! ### The property cache -/

/-- The cache has objects of the run, each once, with what the driver answers. -/
structure CacheInv (driver : Driver) (objs : List UInt32) (cache : List CacheEntry) : Prop where
  nodup : (cache.map CacheEntry.obj).Nodup
  faithful : ∀ c ∈ cache, c = queried driver c.obj
  known : ∀ c ∈ cache, c.obj ∈ objs

section Cache

variable {libs : Libs} {driver : Driver} {objs : List UInt32} {s : Shim}

theorem CacheInv.mono {objs' : List UInt32} {cache : List CacheEntry}
    (h : CacheInv driver objs cache) (hsub : objs ⊆ objs') : CacheInv driver objs' cache :=
  ⟨h.nodup, h.faithful, fun c hc => hsub (h.known c hc)⟩

theorem CacheInv.lookup {obj : UInt32} (h : CacheInv driver objs s.cache) (hobj : obj ∈ objs) :
    CacheInv driver objs (lookup libs driver obj s).1.cache := by
  rcases lookup_cases libs driver obj s with
    ⟨c, -, heq⟩ | ⟨-, -, heq⟩ | ⟨hfind, -, -, fbid, heq⟩
  · rw [heq]
    exact h
  · rw [heq]
    exact h
  · have hnew : obj ∉ s.cache.map CacheEntry.obj := fun hmem => mem_map_obj_iff.mp hmem hfind
    rw [heq]
    refine ⟨?_, ?_, ?_⟩
    · rw [List.map_append, List.map_singleton, queried_obj]
      refine List.nodup_append.mpr ⟨h.nodup, List.nodup_singleton obj, ?_⟩
      rintro o ho o' ho' rfl
      rw [List.mem_singleton.mp ho'] at ho
      exact hnew ho
    · intro c hc
      rcases List.mem_append.mp hc with hold | hlast
      · exact h.faithful c hold
      · rw [List.mem_singleton.mp hlast, queried_obj]
    · intro c hc
      rcases List.mem_append.mp hc with hold | hlast
      · exact h.known c hold
      · rw [List.mem_singleton.mp hlast, queried_obj]
        exact hobj

theorem CacheInv.addParms {pend : List (UInt32 × UInt32)} (nRect : ℤ)
    (h : CacheInv driver objs s.cache) (hpend : ∀ p ∈ pend, p.1 ∈ objs) :
    CacheInv driver objs (addParms libs driver nRect pend s).1.cache := by
  induction pend generalizing s with
  | nil => exact h
  | cons p pend ih =>
    rw [addParms_cons]
    exact ih (h.lookup (hpend p List.mem_cons_self)) fun q hq =>
      hpend q (List.mem_cons_of_mem _ hq)

/-- Every step keeps the invariant of the cache. -/
theorem CacheInv.step {e : Event} (h : CacheInv driver objs s.cache)
    (hpend : ∀ p ∈ s.pend, p.1 ∈ objs)
    (hdriver : ∀ req testOnly env, e = .commit req testOnly env → env.driver = driver) :
    CacheInv driver objs (s.step libs e).1.cache := by
  cases e with
  | addProperty => exact h
  | settle clock opens =>
    simp only [Shim.step]
    rcases settleTick_cases libs clock opens s with ⟨b, -, heq⟩ | ⟨-, heq⟩
    · rw [heq]
      exact h
    · rw [heq]
      exact h
  | commit req testOnly env =>
    simp only [Shim.step]
    rcases drmModeAtomicCommit_cases libs env testOnly s with
      ⟨-, heq⟩ | ⟨-, -, heq⟩ | ⟨-, -, -, heq⟩
    · obtain ⟨c, t, href⟩ := refreshTunables_frame s env.props
      rw [heq, href]
      exact h
    · obtain ⟨c, t, tried, fds, maps, att, hprep⟩ := prepare_frame libs env s
      rw [heq, hprep]
      exact h
    · obtain ⟨c, t, tried, fds, maps, att, hprep⟩ := prepare_frame libs env s
      rw [heq, inject, ← hdriver req testOnly env rfl]
      refine CacheInv.addParms _ ?_ ?_
      · rw [startSettleThread_cache, hprep, hdriver req testOnly env rfl]
        exact h
      · rw [hprep]
        exact hpend

/-- **The cache after a run**, when every commit of it has met the same driver. -/
theorem after_cache (libs : Libs) {es : List Event}
    (hdriver : ∀ req testOnly env, .commit req testOnly env ∈ es → env.driver = driver) :
    CacheInv driver (es.filterMap Event.object) (after (Shim.step libs) Shim.init es).cache := by
  induction es using List.reverseRecOn with
  | nil => exact ⟨List.nodup_nil, nofun, nofun⟩
  | append_singleton es e ih =>
    have hsub : es.filterMap Event.object ⊆ (es ++ [e]).filterMap Event.object := by
      rw [List.filterMap_append]
      exact List.subset_append_left _ _
    have hbefore := (ih fun req testOnly env hmem =>
      hdriver req testOnly env (List.mem_append_left _ hmem)).mono hsub
    rw [after_append]
    refine hbefore.step ?_ fun req testOnly env he =>
      hdriver req testOnly env (List.mem_append_right _ (he ▸ List.mem_singleton_self e))
    intro p hp
    have hnamed : p.1 ∈ named (sinceCommit es) := by
      rw [← after_pend_fst libs es]
      exact List.mem_map_of_mem hp
    obtain ⟨e', he', hobj⟩ := List.mem_filterMap.mp (named_subset _ hnamed)
    refine hsub (List.mem_filterMap.mpr ⟨e', ?_, hobj⟩)
    exact (List.rtakeWhile_suffix _ _).subset he'

/-- With few objects in the run the shim finds out about each one what the driver answers. -/
theorem entryFor_eq {cache : List CacheEntry} {recordedObjs : List UInt32} {obj : UInt32}
    (h : CacheInv driver objs cache) (hlibs : libs.getObjProps = true ∧ libs.getProp = true)
    (hfew : objs.eraseDups.length ≤ MAX_OBJ) (hnodup : recordedObjs.Nodup)
    (hsub : recordedObjs ⊆ objs) (hobj : obj ∈ recordedObjs) :
    entryFor libs driver cache recordedObjs obj = some (queried driver obj) := by
  rw [entryFor]
  cases hfind : cache.find? fun c => c.obj = obj with
  | some c =>
    have hcobj : c.obj = obj := by simpa using List.find?_some hfind
    rw [h.faithful c (List.mem_of_find?_eq_some hfind), hcobj]
  | none =>
    -- the cache entries and the objects that come before are distinct objects of the run
    let before := uncached cache (recordedObjs.takeWhile (· ≠ obj))
    have hbefore : ∀ o ∈ before, o ∈ recordedObjs ∧ o ≠ obj ∧ o ∉ cache.map CacheEntry.obj := by
      intro o ho
      obtain ⟨htake, hnew⟩ := List.mem_filter.mp ho
      exact ⟨List.takeWhile_subset _ htake, by simpa using List.mem_takeWhile_imp htake,
        by simpa using hnew⟩
    have hroom : (cache.map CacheEntry.obj ++ before).length < MAX_OBJ := by
      refine length_lt_of_new (x := obj) ?_ ?_ hfew (hsub hobj) ?_
      · refine List.nodup_append.mpr ⟨h.nodup, ?_, ?_⟩
        · exact ((List.takeWhile_sublist _).nodup hnodup).filter _
        · rintro o ho o' ho' rfl
          exact (hbefore o ho').2.2 ho
      · intro o ho
        rcases List.mem_append.mp ho with hold | hnew
        · obtain ⟨c, hc, rfl⟩ := List.mem_map.mp hold
          exact h.known c hc
        · exact hsub (hbefore o hnew).1
      · intro ho
        rcases List.mem_append.mp ho with hold | hnew
        · exact mem_map_obj_iff.mp hold hfind
        · exact (hbefore obj hnew).2.1 rfl
    rw [List.length_append, List.length_map] at hroom
    dsimp only
    rw [if_neg (Nat.not_le_of_lt hroom), hlibs.1, hlibs.2]
    rfl

end Cache

/-! ### From one commit to the next -/

/-- The request that a call commits. -/
def Event.committed : Event → Option ℕ
  | .commit req _ _ => some req
  | _ => none

/-- The object that a call puts into the request. -/
def Event.objectIn (req : ℕ) : Event → Option UInt32
  | .addProperty req' obj _ _ => if req' = req then some obj else none
  | _ => none

/-- The composer assembles one request at a time: each call belongs to the request of the next
commit, and each request is committed once. -/
structure OneAtATime (es : List Event) : Prop where
  owned : ∀ pre req obj prop value mid req' testOnly env post,
    es = pre ++ .addProperty req obj prop value :: (mid ++ .commit req' testOnly env :: post) →
    (∀ e ∈ mid, e.commits = false) → req = req'
  once : (es.filterMap Event.committed).Nodup

section Requests

variable {start mid post : List Event} {req : ℕ} {testOnly : Bool} {env : Env}

/-- The calls of the segment are the request's own. -/
theorem objectIn_of_mid (h : OneAtATime (start ++ (mid ++ .commit req testOnly env :: post)))
    (hmid : ∀ e ∈ mid, e.commits = false) :
    mid.filterMap (Event.objectIn req) = mid.filterMap Event.object := by
  refine List.filterMap_congr fun e he => ?_
  cases e with
  | commit => rfl
  | settle => rfl
  | addProperty req' obj prop value =>
    obtain ⟨before, rest, rfl⟩ := List.append_of_mem he
    have howned := h.owned (start ++ before) req' obj prop value rest req testOnly env post
      (by simp) fun e' he' => hmid e' (by simp [he'])
    rw [Event.objectIn, if_pos howned, Event.object]

/-- No call before the last commit belongs to the request. -/
theorem objectIn_of_start (h : OneAtATime (start ++ (mid ++ .commit req testOnly env :: post)))
    (hstart : ∀ e ∈ start.getLast?, e.commits = true) :
    start.filterMap (Event.objectIn req) = [] := by
  refine List.filterMap_eq_nil_iff.mpr fun e he => ?_
  cases e with
  | commit => rfl
  | settle => rfl
  | addProperty req' obj prop value =>
    rw [Event.objectIn, if_neg]
    rintro rfl
    obtain ⟨before, rest, rfl⟩ := List.append_of_mem he
    -- the call is followed by a commit in `start`, of the same request
    have hrest : rest ≠ [] := by
      rintro rfl
      have hlast := hstart (.addProperty req' obj prop value) (by simp)
      cases hlast
    have hlast : ∀ e ∈ rest.getLast?, e.commits = true := by
      intro e he
      have hrestLast : rest.getLast? = some e := he
      exact hstart e (by simp [List.getLast?_append, List.getLast?_cons, hrestLast])
    obtain ⟨e, he⟩ := Option.isSome_iff_exists.mp
      (List.find?_isSome.mpr ⟨rest.getLast hrest, List.getLast_mem hrest,
        hlast _ (List.getLast?_eq_some_getLast hrest)⟩)
    obtain ⟨hcommits, between, later, rfl, hbetween⟩ := List.find?_eq_some_iff_append.mp he
    cases e with
    | addProperty => cases hcommits
    | settle => cases hcommits
    | commit req'' testOnly' env' =>
      have howned := h.owned before req' obj prop value between req'' testOnly' env'
        (later ++ (mid ++ .commit req' testOnly env :: post)) (by simp)
        fun e' he' => by simpa using hbetween e' he'
      subst howned
      have honce := h.once
      rw [List.filterMap_append, List.nodup_append] at honce
      refine honce.2.2 req' ?_ req' ?_ rfl
      · exact List.mem_filterMap.mpr ⟨.commit req' testOnly' env', by simp, rfl⟩
      · exact List.mem_filterMap.mpr ⟨.commit req' testOnly env, by simp, rfl⟩

theorem sinceCommit_append (hstart : ∀ e ∈ start.getLast?, e.commits = true)
    (hmid : ∀ e ∈ mid, e.commits = false) : sinceCommit (start ++ mid) = mid := by
  induction mid using List.reverseRecOn with
  | nil =>
    rw [List.append_nil, sinceCommit, List.rtakeWhile_eq_nil_iff]
    intro hne
    rw [hstart _ (List.getLast?_eq_some_getLast hne)]
    decide
  | append_singleton mid e ih =>
    have hlast : e.commits = false := hmid e (by simp)
    rw [← List.append_assoc, sinceCommit, List.rtakeWhile_concat_pos _ _ _ (by simp [hlast]),
      ← sinceCommit, ih fun e' he' => hmid e' (List.mem_append_left _ he')]

/-- **Every EPDC plane gets its rectangles, exactly once, and nothing else changes.** The composer
assembles one request at a time and names at most 32 objects in the run, and the driver answers
consistently. Then what reaches libdrm from the end of one commit to the end of the next are the
composer's own calls; at an injecting commit the two calls for each distinct object of the request
that has both EPDC properties, with a count from 1 to 8; and the commit. -/
theorem planes_driven (libs : Libs) (hlibs : libs.getObjProps = true ∧ libs.getProp = true)
    (planes : Planes) {es : List Event} (hone : OneAtATime es)
    (hfew : (es.filterMap Event.object).eraseDups.length ≤ MAX_OBJ)
    (hdriver : ∀ req testOnly env, .commit req testOnly env ∈ es → env.driver = planes.driver)
    (hes : es = start ++ (mid ++ .commit req testOnly env :: post))
    (hstart : ∀ e ∈ start.getLast?, e.commits = true) (hmid : ∀ e ∈ mid, e.commits = false) :
    ∃ n, 1 ≤ n ∧ n ≤ 8 ∧
      realTrace libs (after (Shim.step libs) Shim.init start) (mid ++ [.commit req testOnly env])
        = mid.filterMap Event.ownCall ++
          (if Injects libs env testOnly (after (Shim.step libs) Shim.init (start ++ mid)) then
            ((start ++ mid).filterMap (Event.objectIn req)).eraseDups.flatMap (planes.calls req n)
          else []) ++
          [.commit req testOnly] := by
  subst hes
  have hsince : sinceCommit (start ++ mid) = mid := sinceCommit_append hstart hmid
  have hobjs : (start ++ mid).filterMap (Event.objectIn req) = mid.filterMap Event.object := by
    rw [List.filterMap_append, objectIn_of_start hone hstart, objectIn_of_mid hone hmid,
      List.nil_append]
  have hsub : mid.filterMap Event.object ⊆
      (start ++ (mid ++ .commit req testOnly env :: post)).filterMap Event.object := by
    intro o ho
    rw [List.filterMap_append, List.filterMap_append]
    exact List.mem_append_right _ (List.mem_append_left _ ho)
  have hnamed : named mid = (mid.filterMap Event.object).eraseDups := by
    refine List.take_of_length_le (le_trans ?_ hfew)
    refine (List.subperm_of_subset (nodup_eraseDups _) fun o ho => ?_).length_le
    exact List.mem_eraseDups.mpr (hsub (List.mem_eraseDups.mp ho))
  have hcache : CacheInv planes.driver
      ((start ++ (mid ++ .commit req testOnly env :: post)).filterMap Event.object)
      (after (Shim.step libs) Shim.init (start ++ mid)).cache := by
    have hbefore : CacheInv planes.driver ((start ++ mid).filterMap Event.object)
        (after (Shim.step libs) Shim.init (start ++ mid)).cache := by
      refine after_cache libs fun req' testOnly' env' hmem => hdriver req' testOnly' env' ?_
      rw [← List.append_assoc]
      exact List.mem_append_left _ hmem
    refine hbefore.mono fun o ho => ?_
    rw [← List.append_assoc, List.filterMap_append (l := start ++ mid)]
    exact List.mem_append_left _ ho
  have hpend := after_pend_fst libs (start ++ mid)
  rw [hsince] at hpend
  refine ⟨(injection libs env (after (Shim.step libs) Shim.init (start ++ mid))).n,
    (injection_n libs env _).1, (injection_n libs env _).2, ?_⟩
  rw [realTrace_append, realTrace_of_not_commits hmid, realTrace, realTrace, List.append_nil,
    ← after_append, realCalls_commit, ← List.append_assoc, hobjs, ← hnamed]
  have hadds : (injection libs env (after (Shim.step libs) Shim.init (start ++ mid))).adds.map
      (Add.realCall req) = (named mid).flatMap (planes.calls req
        (injection libs env (after (Shim.step libs) Shim.init (start ++ mid))).n) := by
    rw [injection_adds (by rw [hpend]; exact nodup_named _), hpend, List.map_flatMap]
    refine List.flatMap_congr fun obj hobj => ?_
    rw [hdriver req testOnly env (by simp),
      entryFor_eq hcache hlibs hfew (nodup_named _)
        (fun o ho => hsub (named_subset _ ho)) hobj, addsFor_queried]
  rw [hadds]

end Requests

/-- Object 5 is a plane with both EPDC properties. -/
def onePlane : Planes where
  props := fun obj =>
    if obj = 5 then some [⟨17, "FB_ID"⟩, ⟨20, "EPDC_UPDATE_PARMS_ADDR"⟩, ⟨21, "EPDC_UPDATE_CNT"⟩]
    else none
  distinct := by
    intro obj l hl
    split_ifs at hl with hobj
    · obtain rfl := Option.some.inj hl
      decide
  nonzero := by
    intro obj l hl
    split_ifs at hl with hobj
    · obtain rfl := Option.some.inj hl
      decide

/-- A request with the plane and another object. -/
def planeCalls : List Event := [.addProperty 1 5 17 100, .addProperty 1 9 3 4]

def planeEnv : Env := { Env.bare Tunables.init 1000 with driver := onePlane.driver }

theorem planes_driven_one : ∃ n, 1 ≤ n ∧ n ≤ 8 ∧
    realTrace Libs.all Shim.init (planeCalls ++ [.commit 1 false planeEnv])
      = [.add 1 5 17 (.own 100), .add 1 9 3 (.own 4), .add 1 5 20 (.shim .parmsAddr),
        .add 1 5 21 (.shim (.count n)), .commit 1 false] := by
  have hone : OneAtATime (planeCalls ++ [.commit 1 false planeEnv]) := by
    refine ⟨?_, by decide⟩
    intro pre req obj prop value mid req' testOnly env post hes _
    have hcall : .addProperty req obj prop value ∈ planeCalls ++ [.commit 1 false planeEnv] := by
      rw [hes]
      simp
    have hcommit : .commit req' testOnly env ∈ planeCalls ++ [.commit 1 false planeEnv] := by
      rw [hes]
      simp
    simp only [planeCalls, List.cons_append, List.nil_append, List.mem_cons, reduceCtorEq,
      Event.addProperty.injEq, List.not_mem_nil, or_self, or_false, Event.commit.injEq, false_or]
      at hcall hcommit
    rw [hcommit.1]
    rcases hcall with h | h
    · exact h.1
    · exact h.1
  have hdriver : ∀ req testOnly env, .commit req testOnly env ∈ planeCalls ++
      [.commit 1 false planeEnv] → env.driver = onePlane.driver := by
    intro req testOnly env hcommit
    simp only [planeCalls, List.cons_append, List.nil_append, List.mem_cons, reduceCtorEq,
      Event.commit.injEq, List.not_mem_nil, or_false, false_or] at hcommit
    rw [hcommit.2.2]
    rfl
  have hes : planeCalls ++ [.commit 1 false planeEnv]
      = [] ++ (planeCalls ++ .commit 1 false planeEnv :: []) := rfl
  have hstart : ∀ e ∈ ([] : List Event).getLast?, e.commits = true := by simp
  have hmid : ∀ e ∈ planeCalls, e.commits = false := by decide
  have hinjects : Injects Libs.all planeEnv false
      (after (Shim.step Libs.all) Shim.init ([] ++ planeCalls)) := by decide
  obtain ⟨n, hpos, hle, heq⟩ := planes_driven Libs.all ⟨rfl, rfl⟩ onePlane hone (by decide) hdriver
    hes hstart hmid
  refine ⟨n, hpos, hle, ?_⟩
  rw [if_pos hinjects] at heq
  exact heq

end PalmaEos
