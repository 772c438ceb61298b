import PalmaEos.EpdcPlanes
import PalmaEos.Lib.Text

/-!
# The tunables as system properties

The shim reads its eleven tunables from system properties, as numbers in C's notation, and keeps
them for 30 commits. This is the reading, `parse_num` and `prop_num`, and when it comes to anything:
a `setprop` takes effect at a commit that the count decides, for all properties at once.

## Main results

* `parseNum_spells` — a numeral is read as the number that it spells
* `readTunables_of_gives` — all tunables are read as they were set, or keep their defaults
* `setprops_in_force` — from which commit on they are in force
-/

namespace PalmaEos

/-! ### Reading a number -/

/-- The value of a digit, as `parse_num` looks at it. -/
def digitOf (base : ℕ) (b : UInt8) : Option ℕ :=
  if 48 ≤ b.toNat ∧ b.toNat ≤ 57 then some (b.toNat - 48)
  else if base = 16 ∧ 97 ≤ b.toNat ∧ b.toNat ≤ 102 then some (b.toNat - 97 + 10)
  else if base = 16 ∧ 65 ≤ b.toNat ∧ b.toNat ≤ 70 then some (b.toNat - 65 + 10)
  else none

/-- The loop of `parse_num`: `v` and `any`. -/
def parseDigits (base : ℕ) : Bytes → ℤ → Bool → ℤ × Bool
  | [], v, any => (v, any)
  | b :: s, v, any =>
    match digitOf base b with
    | some d => parseDigits base s (v * base + d) true
    | none => (v, any)

/-- `s[0] == '0' && (s[1] == 'x' || s[1] == 'X')` -/
def hexPrefixed (s : Bytes) : Bool := s[0]? == some 48 && (s[1]? == some 120 || s[1]? == some 88)

/-- `parse_num`, of a string without its NUL. The number is exact, where C computes it in a
`long`. -/
def parseNum (s : Bytes) (dflt : ℤ) : ℤ :=
  if s = [] then dflt
  else
    let neg := s[0]? == some 45
    let s := if neg then s.drop 1 else s
    let base := if hexPrefixed s then 16 else 10
    let s := if hexPrefixed s then s.drop 2 else s
    let (v, any) := parseDigits base s 0 false
    if ! any then dflt else if neg then -v else v

/-- `prop_num`, where there may be no `__system_property_get`. A property that is not set is the
empty string. -/
def propNum (sys : Option (String → Bytes)) (name : String) (dflt : ℤ) : ℤ :=
  match sys with
  | none => dflt
  | some get => parseNum (get name) dflt

/-- What `refresh_tunables` reads. -/
def readTunables (sys : Option (String → Bytes)) : Tunables where
  enable := wrap32 (propNum sys "persist.epdcshim.enable" 1)
  wf := wrap32 (propNum sys "persist.epdcshim.wf" 2)
  upd := wrap32 (propNum sys "persist.epdcshim.upd" 1)
  flag := wrap32 (propNum sys "persist.epdcshim.flag" 0x21000)
  interval := wrap32 (propNum sys "persist.epdcshim.interval" 0)
  fastwf := wrap32 (propNum sys "persist.epdcshim.fastwf" 0)
  fastms := wrap32 (propNum sys "persist.epdcshim.fastms" 250)
  fullevery := wrap32 (propNum sys "persist.epdcshim.fullevery" 0)
  skipsame := wrap32 (propNum sys "persist.epdcshim.skipsame" 1)
  settlems := wrap32 (propNum sys "persist.epdcshim.settlems" 0)
  settlewf := wrap32 (propNum sys "persist.epdcshim.settlewf" 2)

/-! ### Numerals -/

/-- The digits spell the number in this base, the most significant one first. -/
inductive Digits (base : ℕ) : Bytes → ℕ → Prop
  | one {b : UInt8} {d : ℕ} (hd : digitOf base b = some d) : Digits base [b] d
  | more {s : Bytes} {v : ℕ} {b : UInt8} {d : ℕ} (hs : Digits base s v)
      (hd : digitOf base b = some d) : Digits base (s ++ [b]) (v * base + d)

/-- The string spells the natural number: in decimal, or in hexadecimal behind `0x` or `0X`, with
digits of either case. -/
inductive Magnitude : Bytes → ℕ → Prop
  | decimal {s : Bytes} {v : ℕ} (hs : Digits 10 s v) : Magnitude s v
  | hex {s : Bytes} {v : ℕ} {x : UInt8} (hx : x = 120 ∨ x = 88) (hs : Digits 16 s v) :
      Magnitude (48 :: x :: s) v

/-- The string spells the integer. -/
inductive Spells : Bytes → ℤ → Prop
  | pos {s : Bytes} {v : ℕ} (hs : Magnitude s v) : Spells s v
  | neg {s : Bytes} {v : ℕ} (hs : Magnitude s v) : Spells (45 :: s) (-v)

section Numerals

variable {base v : ℕ} {s rest : Bytes} {n dflt : ℤ}

theorem parseDigits_append (hs : Digits base s v) :
    parseDigits base (s ++ rest) 0 false = parseDigits base rest v true := by
  induction hs generalizing rest with
  | one hd =>
    rw [List.singleton_append, parseDigits, hd]
    simp
  | more hs hd ih =>
    rw [List.append_assoc, ih, List.singleton_append, parseDigits, hd]
    simp

theorem parseDigits_digits (hs : Digits base s v) : parseDigits base s 0 false = (↑v, true) := by
  have hrest : parseDigits base (s ++ []) 0 false = parseDigits base [] v true :=
    parseDigits_append hs
  rwa [List.append_nil] at hrest

/-- A numeral begins with a digit and has only digits in it. -/
theorem Digits.isDigit (hs : Digits base s v) :
    s ≠ [] ∧ ∀ b ∈ s, (digitOf base b).isSome = true := by
  induction hs with
  | one hd =>
    refine ⟨List.cons_ne_nil _ _, List.forall_mem_singleton.mpr ?_⟩
    rw [hd]
    rfl
  | more hs hd ih =>
    refine ⟨List.append_ne_nil_of_left_ne_nil ih.1 _, List.forall_mem_append.mpr ⟨ih.2, ?_⟩⟩
    refine List.forall_mem_singleton.mpr ?_
    rw [hd]
    rfl

/-- Only a hexadecimal numeral has the prefix. -/
theorem Digits.not_hexPrefixed (hs : Digits 10 s v) : hexPrefixed s = false := by
  obtain ⟨-, hdigit⟩ := hs.isDigit
  by_contra hprefixed
  rw [Bool.not_eq_false, hexPrefixed, Bool.and_eq_true, Bool.or_eq_true, beq_iff_eq, beq_iff_eq,
    beq_iff_eq] at hprefixed
  obtain ⟨-, hx | hX⟩ := hprefixed
  · exact absurd (hdigit _ (List.mem_of_getElem? hx)) (by decide)
  · exact absurd (hdigit _ (List.mem_of_getElem? hX)) (by decide)

/-- A magnitude: it has no sign, and its digits are read. -/
theorem Magnitude.parse (hs : Magnitude s v) : s ≠ [] ∧ (s[0]? == some 45) = false ∧
    parseDigits (if hexPrefixed s then 16 else 10) (if hexPrefixed s then s.drop 2 else s) 0 false
      = (↑v, true) := by
  cases hs with
  | decimal hs =>
    obtain ⟨hne, hdigit⟩ := hs.isDigit
    rw [hs.not_hexPrefixed]
    refine ⟨hne, ?_, parseDigits_digits hs⟩
    by_contra hminus
    rw [Bool.not_eq_false, beq_iff_eq] at hminus
    exact absurd (hdigit _ (List.mem_of_getElem? hminus)) (by decide)
  | @hex s v x hx hs =>
    have hprefixed : hexPrefixed (48 :: x :: s) = true := by
      rcases hx with rfl | rfl
      · rfl
      · rfl
    rw [hprefixed]
    exact ⟨List.cons_ne_nil _ _, rfl, parseDigits_digits hs⟩

/-- **A numeral is read** as the number that it spells. -/
theorem parseNum_spells (hs : Spells s n) : parseNum s dflt = n := by
  cases hs with
  | pos hs =>
    obtain ⟨hne, hsign, hread⟩ := hs.parse
    rw [parseNum, if_neg hne]
    simp only [hsign, Bool.false_eq_true, if_false, hread]
    rfl
  | @neg s v hs =>
    obtain ⟨-, -, hread⟩ := hs.parse
    have hsign : ((45 :: s)[0]? == some (45 : UInt8)) = true := rfl
    rw [parseNum, if_neg (List.cons_ne_nil _ _)]
    simp only [hsign, if_true, List.drop_one, List.tail_cons, hread]
    rfl

/-- What `setprop` writes for a number in decimal. -/
theorem spells_ofInt (n : ℤ) : Spells (Text.encode (Text.ofInt n)) n := by
  have hdigits : ∀ v : ℕ, Digits 10 (Text.encode (Text.ofNat v)) v := by
    have hchar : ∀ d < 10, digitOf 10 (UInt8.ofNat (48 + d)) = some d ∧
        Text.encode [Nat.digitChar d] = [UInt8.ofNat (48 + d)] := by decide
    intro v
    induction v using Nat.strongRecOn with
    | ind v ih =>
      rcases Nat.lt_or_ge v 10 with hlt | hge
      · rw [Text.ofNat_of_lt hlt, (hchar v hlt).2]
        exact .one (hchar v hlt).1
      · have hmod := hchar (v % 10) (Nat.mod_lt v (by decide))
        rw [Text.ofNat_of_le hge, Text.encode, List.flatMap_append]
        show Digits 10 (Text.encode (Text.ofNat (v / 10)) ++
          Text.encode [Nat.digitChar (v % 10)]) v
        rw [hmod.2]
        have hmore := (ih (v / 10) (by omega)).more hmod.1
        rwa [Nat.div_add_mod'] at hmore
  cases n with
  | ofNat v => exact .pos (.decimal (hdigits v))
  | negSucc v => exact .neg (.decimal (hdigits (v + 1)))

end Numerals

/-! ### Reading the tunables -/

/-- The property is not set and the tunable has its default, or it spells the tunable. -/
def Gives (value : Bytes) (dflt n : ℤ) : Prop :=
  value = [] ∧ n = dflt ∨ Spells value n ∧ -2 ^ 31 ≤ n ∧ n < 2 ^ 31

/-- The properties give the tunables. -/
structure GivesAll (sys : String → Bytes) (t : Tunables) : Prop where
  enable : Gives (sys "persist.epdcshim.enable") Tunables.init.enable t.enable
  wf : Gives (sys "persist.epdcshim.wf") Tunables.init.wf t.wf
  upd : Gives (sys "persist.epdcshim.upd") Tunables.init.upd t.upd
  flag : Gives (sys "persist.epdcshim.flag") Tunables.init.flag t.flag
  interval : Gives (sys "persist.epdcshim.interval") Tunables.init.interval t.interval
  fastwf : Gives (sys "persist.epdcshim.fastwf") Tunables.init.fastwf t.fastwf
  fastms : Gives (sys "persist.epdcshim.fastms") Tunables.init.fastms t.fastms
  fullevery : Gives (sys "persist.epdcshim.fullevery") Tunables.init.fullevery t.fullevery
  skipsame : Gives (sys "persist.epdcshim.skipsame") Tunables.init.skipsame t.skipsame
  settlems : Gives (sys "persist.epdcshim.settlems") Tunables.init.settlems t.settlems
  settlewf : Gives (sys "persist.epdcshim.settlewf") Tunables.init.settlewf t.settlewf

/-- **All tunables** are read as they were set, and those that were not set are what they are before
anything is read. -/
theorem readTunables_of_gives {sys : String → Bytes} {t : Tunables} (hgives : GivesAll sys t) :
    readTunables (some sys) = t := by
  have hread : ∀ {name dflt n}, -2 ^ 31 ≤ dflt ∧ dflt < 2 ^ 31 → Gives (sys name) dflt n →
      wrap32 (propNum (some sys) name dflt) = n := by
    intro name dflt n hdflt hn
    rcases hn with ⟨hempty, rfl⟩ | ⟨hspells, hlo, hhi⟩
    · rw [propNum, hempty, parseNum, if_pos rfl, wrap32, Int.bmod_eq_of_le] <;> omega
    · rw [propNum, parseNum_spells hspells, wrap32, Int.bmod_eq_of_le] <;> omega
  obtain ⟨h₁, h₂, h₃, h₄, h₅, h₆, h₇, h₈, h₉, h₁₀, h₁₁⟩ := hgives
  cases t
  rw [readTunables, Tunables.mk.injEq]
  exact ⟨hread (by decide) h₁, hread (by decide) h₂, hread (by decide) h₃, hread (by decide) h₄,
    hread (by decide) h₅, hread (by decide) h₆, hread (by decide) h₇, hread (by decide) h₈,
    hread (by decide) h₉, hread (by decide) h₁₀, hread (by decide) h₁₁⟩

/-! ### When they are in force -/

section Runs

variable {libs : Libs} {s : Shim} {env : Env}

theorem refreshTunables_counter {props : Tunables} :
    (refreshTunables props s).commitsSinceRecheck =
      if s.commitsSinceRecheck + 1 < RECHECK then s.commitsSinceRecheck + 1 else 0 := by
  rw [refreshTunables]
  split_ifs
  · rfl
  · rfl

/-- Past `refresh_tunables` a commit leaves the counter alone. -/
theorem commit_counter (testOnly : Bool) :
    (drmModeAtomicCommit libs env testOnly s).1.commitsSinceRecheck
      = (refreshTunables env.props s).commitsSinceRecheck := by
  obtain ⟨tried, fds, maps, att, hatt⟩ :=
    attachDamage_frame libs (refreshTunables env.props s) env.file
  have hprep : (prepare libs env s).commitsSinceRecheck
      = (refreshTunables env.props s).commitsSinceRecheck := by
    rw [prepare, hatt]
  rcases drmModeAtomicCommit_cases libs env testOnly s with
    ⟨-, heq⟩ | ⟨-, -, heq⟩ | ⟨-, -, -, heq⟩
  · rw [heq]
    rfl
  · rw [heq]
    exact hprep
  · obtain ⟨cache, fbid, started, running, hframe⟩ :=
      inject_frame libs env (observed env (prepare libs env s))
        (snapshot env (prepare libs env s)) (sinceInject libs env (prepare libs env s))
    rw [heq]
    dsimp only
    rw [hframe]
    exact hprep

/-- Only commits look at the counter and at the properties. -/
theorem step_of_not_commit {e : Event} (he : e.commits = false) :
    (s.step libs e).1.commitsSinceRecheck = s.commitsSinceRecheck ∧
      (s.step libs e).1.tun = s.tun := by
  cases e with
  | commit req testOnly env => exact absurd he.symm Bool.false_ne_true
  | addProperty req obj prop value => exact ⟨rfl, rfl⟩
  | settle clock opens =>
    rcases settleTick_cases libs clock opens s with ⟨b, -, heq⟩ | ⟨-, heq⟩
    · rw [Shim.step, heq]
      exact ⟨rfl, rfl⟩
    · rw [Shim.step, heq]
      exact ⟨rfl, rfl⟩

/-- How many commits there are. -/
def commitCount (es : List Event) : ℕ := es.countP Event.commits

theorem commitCount_append (es es' : List Event) :
    commitCount (es ++ es') = commitCount es + commitCount es' := List.countP_append

theorem commitCount_singleton (e : Event) :
    commitCount [e] = if e.commits = true then 1 else 0 := List.countP_singleton

/-- **The counter** counts the commits, and starts where the first one reads. -/
theorem counter_after (es : List Event) :
    (after (Shim.step libs) Shim.init es).commitsSinceRecheck =
      if commitCount es = 0 then RECHECK else (commitCount es - 1) % RECHECK := by
  induction es using List.reverseRecOn with
  | nil => rfl
  | append_singleton es e ih =>
    rw [after_append, commitCount_append, commitCount_singleton]
    cases he : e.commits with
    | false =>
      rw [if_neg Bool.false_ne_true, Nat.add_zero, ← ih]
      exact (step_of_not_commit he).1
    | true =>
      cases e with
      | commit req testOnly env =>
        show (drmModeAtomicCommit libs env testOnly _).1.commitsSinceRecheck = _
        rw [commit_counter, refreshTunables_counter, ih, if_pos rfl,
          if_neg (Nat.succ_ne_zero (commitCount es)), RECHECK]
        rcases Nat.eq_zero_or_pos (commitCount es) with hzero | hpos
        · rw [hzero]
          rfl
        · rw [if_neg hpos.ne']
          split_ifs <;> omega
      | addProperty req obj prop value => exact absurd he Bool.false_ne_true
      | settle clock opens => exact absurd he Bool.false_ne_true

end Runs

/-- **When `setprop` takes effect.** After any run, let the properties be set so that they give the
tunables `t`, each as a numeral or not at all, and stay so. Then there is a number of further
commits, fewer than 30 and so that the number of all commits is a multiple of 30, for which the
shim still works with what it had; from the next commit on it works with `t`, all of it. Validation
passes count as well. -/
theorem setprops_in_force (libs : Libs) (es es' : List Event) (sys : String → Bytes) (t : Tunables)
    (hgives : GivesAll sys t)
    (hmeets : ∀ req testOnly env, .commit req testOnly env ∈ es' →
      env.props = readTunables (some sys)) :
    ∃ k < RECHECK, RECHECK ∣ commitCount es + k ∧ ∀ es₁ es₂, es' = es₁ ++ es₂ →
      (after (Shim.step libs) Shim.init (es ++ es₁)).tun =
        if commitCount es₁ ≤ k then (after (Shim.step libs) Shim.init es).tun else t := by
  refine ⟨(RECHECK - commitCount es % RECHECK) % RECHECK, Nat.mod_lt _ (by decide), ?_, ?_⟩
  · rw [RECHECK]
    omega
  intro es₁
  induction es₁ using List.reverseRecOn with
  | nil =>
    intro es₂ _
    rw [List.append_nil]
    exact (if_pos (Nat.zero_le _)).symm
  | append_singleton es₁ e ih =>
    intro es₂ hsplit
    rw [List.append_assoc] at hsplit
    have hbefore := ih _ hsplit
    have hcounter : (after (Shim.step libs) Shim.init (es ++ es₁)).commitsSinceRecheck = _ :=
      counter_after (es ++ es₁)
    rw [commitCount_append] at hcounter
    rw [← List.append_assoc, after_append, commitCount_append, commitCount_singleton]
    cases he : e.commits with
    | false =>
      rw [if_neg Bool.false_ne_true, Nat.add_zero, ← hbefore]
      exact (step_of_not_commit he).2
    | true =>
      cases e with
      | commit req testOnly env =>
        have hprops : env.props = t := by
          rw [hmeets req testOnly env (by rw [hsplit]; simp), readTunables_of_gives hgives]
        show (drmModeAtomicCommit libs env testOnly _).1.tun = _
        rw [commit_tun, refreshTunables_tun, hprops, hbefore, hcounter, if_pos rfl, RECHECK]
        split_ifs <;> first | rfl | omega
      | addProperty req obj prop value => exact absurd he Bool.false_ne_true
      | settle clock opens => exact absurd he Bool.false_ne_true

/-- `setprop persist.epdcshim.wf 0x1F` and `setprop persist.epdcshim.settlems 600`. -/
def twoSet (name : String) : Bytes :=
  if name = "persist.epdcshim.wf" then [48, 120, 49, 70]
  else if name = "persist.epdcshim.settlems" then [54, 48, 48]
  else []

def twoSetTunables : Tunables := { Tunables.init with wf := 31, settlems := 600 }

theorem twoSet_gives : GivesAll twoSet twoSetTunables := by
  have hwf : Gives (twoSet "persist.epdcshim.wf") Tunables.init.wf twoSetTunables.wf := by
    have hdigits : Digits 16 ([49] ++ [70]) (1 * 16 + 15) := .more (.one rfl) rfl
    exact Or.inr ⟨.pos (.hex (Or.inl rfl) hdigits), by decide, by decide⟩
  have hsettlems :
      Gives (twoSet "persist.epdcshim.settlems") Tunables.init.settlems twoSetTunables.settlems :=
    Or.inr ⟨spells_ofInt 600, by decide, by decide⟩
  exact ⟨Or.inl ⟨rfl, rfl⟩, hwf, Or.inl ⟨rfl, rfl⟩, Or.inl ⟨rfl, rfl⟩, Or.inl ⟨rfl, rfl⟩,
    Or.inl ⟨rfl, rfl⟩, Or.inl ⟨rfl, rfl⟩, Or.inl ⟨rfl, rfl⟩, Or.inl ⟨rfl, rfl⟩, hsettlems,
    Or.inl ⟨rfl, rfl⟩⟩

/-- A commit before them, and 30 after. -/
theorem setprops_in_force_twice :
    (after (Shim.step Libs.all) Shim.init ([.commit 0 false (.bare Tunables.init 0)] ++
      List.replicate 30 (.commit 0 false (.bare (readTunables (some twoSet)) 1000)))).tun
        = twoSetTunables := by
  obtain ⟨k, hk, -, hforce⟩ := setprops_in_force Libs.all
    [.commit 0 false (.bare Tunables.init 0)]
    (List.replicate 30 (.commit 0 false (.bare (readTunables (some twoSet)) 1000))) twoSet
    twoSetTunables twoSet_gives fun req testOnly env hmem => by
      obtain ⟨-, -, rfl⟩ := Event.commit.inj (List.eq_of_mem_replicate hmem)
      rfl
  have hall := hforce _ [] (List.append_nil _).symm
  rw [if_neg] at hall
  · exact hall
  · have hcount : commitCount (List.replicate 30
        (.commit 0 false (.bare (readTunables (some twoSet)) 1000))) = 30 := rfl
    rw [hcount]
    exact Nat.not_le.mpr hk

end PalmaEos
