import Mathlib.Data.List.Infix
import Mathlib.Data.List.TakeWhile
import PalmaEos.Lib.Checked
import PalmaEos.Lib.Fields
import PalmaEos.Lib.Text

/-!
# `build/ssh/entrypoint.sh`

Phase 1 of the entry point decides whether the build machine may start an SSH server: it checks the
authorised keys, turns `ALLOWED_FROM` into an `AllowUsers` line, and has a look at the account.

The keys are read three times. `grep -c` counts the lines that are neither blank nor comments,
`grep -q` looks for a private key, and a loop of `read` checks the form of each line. The three do
not have one notion of a line: `read` passes over what no newline ends, and drops NUL bytes, which
`grep` may take for ends of lines. And what the loop takes for an indented comment is any line that
begins with a space and has a `#` somewhere.

Everything is a string of bytes. What the shell asks of its surroundings are parameters: which files
a word with wildcards stands for, what `awk` finds in the shadow file, whether `usermod` succeeds.

## Main results

* `failsClosed_iff` — which keys are let in that should not be
* `allowLine_of_accepted` — the shape of the `AllowUsers` line
-/

namespace PalmaEos

namespace Entrypoint

/-- A string of the script. -/
def str (s : String) : Bytes := Text.encode s.toList

/-- `[[:space:]]` at the beginning of a line is up to the locale. Whatever else it is, a space is
one, and `#` is not. -/
structure Locale where
  skipSpace : Bytes → Bytes
  skipSpace_spaces : ∀ l : Bytes, (∀ c ∈ l, c = 32) → skipSpace l = []
  skipSpace_hash : ∀ l : Bytes, skipSpace (35 :: l) = 35 :: l

/-- The programs that the script relies on. -/
structure Tools where
  locale : Locale
  /-- `grep` takes a NUL for the end of a line, as it does in what it calls a binary file. -/
  nulEnds : Bool
  /-- Pathname expansion in the working directory. -/
  glob : Bytes → List Bytes

/-- What phase 1 sees. A variable that is not set is empty. -/
structure Env where
  /-- The file `$KEYS_SRC`, if there is one. -/
  KEYS_SRC : Option Bytes
  AUTHORIZED_KEYS : Bytes
  ALLOWED_FROM : Bytes
  BUILDER_USER : Bytes
  SELFTEST : Bytes
  /-- `$pw_field`, if `$SHADOW_FILE` can be read. -/
  pwField : Option Bytes
  /-- There is a `usermod`, and it succeeds. -/
  usermod : Bool

/-- What the script dies of. -/
inductive Fatal
  /-- `no authorised keys supplied.` -/
  | noKeys
  /-- `$KEYS_SRC has no key lines. Refusing to start.` -/
  | noKeyLines
  /-- `authorised keys input contains a PRIVATE key. Supply the .pub instead.` -/
  | privateKey
  /-- `unrecognised line in authorised keys (not an OpenSSH public key): ${line:0:40}...` -/
  | unrecognised (line : Bytes)
  /-- `ALLOWED_FROM is required` -/
  | noAllowedFrom
  /-- `ALLOWED_FROM parsed to nothing: '$ALLOWED_FROM'` -/
  | parsedToNothing
  /-- `could not unlock '$BUILDER_USER'.` -/
  | locked
  deriving DecidableEq

/-! ### The keys -/

/-- `printf '%s\n' "$AUTHORIZED_KEYS"`, where there is no key file, or the key file. -/
def Env.keysSrc (e : Env) : Option Bytes :=
  if e.AUTHORIZED_KEYS ≠ [] ∧ e.KEYS_SRC = none then some (e.AUTHORIZED_KEYS ++ [10])
  else e.KEYS_SRC

def newline (c : UInt8) : Bool := c == 10

/-- The lines that `grep` sees. -/
def grepLines (t : Tools) (keys : Bytes) : List Bytes :=
  Fields.fields (fun c => newline c || t.nulEnds && c == 0) keys

/-- A line that `^[[:space:]]*(#|$)` does not match. -/
def isKeyLine (locale : Locale) (line : Bytes) : Bool :=
  match locale.skipSpace line with
  | [] => false
  | c :: _ => c != 35

theorem isKeyLine_spaces (locale : Locale) {line : Bytes} (h : ∀ c ∈ line, c = 32) :
    isKeyLine locale line = false := by
  rw [isKeyLine, locale.skipSpace_spaces line h]

theorem isKeyLine_hash (locale : Locale) (line : Bytes) :
    isKeyLine locale (35 :: line) = false := by
  rw [isKeyLine, locale.skipSpace_hash]
  rfl

/-- `grep -cvE '^[[:space:]]*(#|$)'` -/
def keyCount (t : Tools) (keys : Bytes) : ℕ := (grepLines t keys).countP (isKeyLine t.locale)

def PRIVATE_KEY : Bytes := str "PRIVATE KEY"

/-- `grep -q 'PRIVATE KEY'` -/
def hasPrivateKey (t : Tools) (keys : Bytes) : Bool :=
  (grepLines t keys).any fun line => PRIVATE_KEY <:+: line

/-- The lines that `read` gets, without their NUL bytes. -/
def readLines (keys : Bytes) : List Bytes :=
  (Fields.ended newline keys).map (List.filter (· != 0))

/-- `''|\#*|' '*\#*` -/
def skipped : Bytes → Bool
  | [] => true
  | c :: line => c == 35 || c == 32 && line.contains 35

/-- The names that a public key begins with. -/
def keyTypes : List Bytes :=
  ["ssh-ed25519", "ssh-rsa", "ecdsa-sha2-", "sk-ssh-ed25519", "sk-ecdsa-", "ssh-dss"].map str

/-- `*ssh-ed25519*|*ssh-rsa*|*ecdsa-sha2-*|*sk-ssh-ed25519*|*sk-ecdsa-*|*ssh-dss*` -/
def namesType (line : Bytes) : Bool := keyTypes.any fun type => type <:+: line

/-- The loop over the lines. -/
def checkKeys : List Bytes → Except Fatal Unit
  | [] => .ok ()
  | line :: lines =>
    if skipped line then checkKeys lines
    else if line.filter (· != 32) = [] then checkKeys lines
    else if namesType line then checkKeys lines
    else .error (.unrecognised line)

/-! ### The allow-list -/

/-- `${BUILDER_USER:-builder}` -/
def Env.user (e : Env) : Bytes := if e.BUILDER_USER = [] then str "builder" else e.BUILDER_USER

/-- `[:space:]` of `tr`, which goes by bytes. -/
def isSpace (c : UInt8) : Bool := c == 32 || 9 ≤ c && c ≤ 13

theorem forall_of_all {w : Bytes} (h : w.all (! isSpace ·)) : ∀ c ∈ w, isSpace c = false :=
  fun c hc => by simpa using List.all_eq_true.mp h c hc

/-- `tr -d '[:space:]'` -/
def stripSpace (word : Bytes) : Bytes := word.filter (! isSpace ·)

/-- `${BUILDER_USER}@$h` -/
def term (user h : Bytes) : Bytes := user ++ 64 :: h

/-- The loop over the words, with the terms so far. -/
def addTerms (user : Bytes) : Bytes → List Bytes → Bytes
  | terms, [] => terms
  | terms, word :: words =>
    let h := stripSpace word
    if h = [] then addTerms user terms words
    else addTerms user (terms ++ 32 :: term user h) words

/-- `ALLOW_LINE`. -/
def allowLine (t : Tools) (e : Env) : Except Fatal Bytes :=
  if e.ALLOWED_FROM = [] then .error .noAllowedFrom
  else if e.ALLOWED_FROM = str "any" then .ok (str "AllowUsers " ++ e.user)
  else
    let terms := addTerms e.user [] ((Fields.fields (· == 44) e.ALLOWED_FROM).flatMap t.glob)
    if terms = [] then .error .parsedToNothing
    else .ok (str "AllowUsers" ++ terms)

/-! ### Phase 1 -/

/-- The check of the account. In a self-test a locked account is reported and left alone. -/
def unlock (e : Env) : Except Fatal Unit :=
  match e.pwField with
  | some (33 :: _) =>
    if e.SELFTEST = str "1" then .ok ()
    else if e.usermod then .ok ()
    else .error .locked
  | _ => .ok ()

/-- What phase 1 hands on. -/
structure Accepted where
  keyCount : ℕ
  allowLine : Bytes
  deriving DecidableEq

def phase1 (t : Tools) (e : Env) : Except Fatal Accepted :=
  match e.keysSrc with
  | none => .error .noKeys
  | some keys =>
    if keyCount t keys = 0 then .error .noKeyLines
    else if hasPrivateKey t keys then .error .privateKey
    else do
      checkKeys (readLines keys)
      let line ← allowLine t e
      unlock e
      return ⟨keyCount t keys, line⟩

/-- What phase 2 appends to the configuration of `sshd`. -/
def appended (line : Bytes) : Bytes := 10 :: (line ++ [10])

theorem exists_keysSrc {t : Tools} {e : Env} {a : Accepted} (h : phase1 t e = .ok a) :
    ∃ keys, e.keysSrc = some keys := by
  rw [phase1] at h
  cases hsrc : e.keysSrc with
  | none =>
    rw [hsrc] at h
    exact absurd h (by simp)
  | some keys => exact ⟨keys, rfl⟩

/-- **What is accepted** has passed each of the checks. -/
theorem of_phase1 {t : Tools} {e : Env} {keys : Bytes} {a : Accepted} (hsrc : e.keysSrc = some keys)
    (h : phase1 t e = .ok a) :
    keyCount t keys ≠ 0 ∧ hasPrivateKey t keys = false ∧ checkKeys (readLines keys) = .ok () ∧
      allowLine t e = .ok a.allowLine := by
  rw [phase1, hsrc] at h
  obtain ⟨hcount, h⟩ := guard_eq_ok.mp h
  obtain ⟨hprivate, h⟩ := guard_eq_ok.mp h
  obtain ⟨_, hkeys, h⟩ := bind_eq_ok.mp h
  obtain ⟨line, hline, h⟩ := bind_eq_ok.mp h
  obtain ⟨_, -, h⟩ := bind_eq_ok.mp h
  rw [← pure_eq_ok.mp h]
  exact ⟨hcount, Bool.eq_false_iff.mpr hprivate, hkeys, hline⟩

/-! ### The three readers of the keys -/

/-- **The key check fails closed.** -/
structure FailsClosed (locale : Locale) (keys : Bytes) : Prop where
  some_key : ∃ line ∈ Fields.fields newline keys, isKeyLine locale line
  no_private : ∀ line ∈ Fields.fields newline keys, ¬ PRIVATE_KEY <:+: line
  typed : ∀ line ∈ Fields.fields newline keys, isKeyLine locale line → namesType line

/-- A line that the loop does not check as it stands: it is skipped, or loses its NUL bytes. -/
def Unchecked (line : Bytes) : Prop := 0 ∈ line ∨ line.head? = some 32 ∧ 35 ∈ line

instance (line : Bytes) : Decidable (Unchecked line) := inferInstanceAs (Decidable (_ ∨ _ ∧ _))

theorem passed_of_checkKeys : ∀ {lines : List Bytes}, checkKeys lines = .ok () →
    ∀ line ∈ lines, skipped line ∨ line.filter (· != 32) = [] ∨ namesType line
  | line :: lines, h, l, hl => by
    rw [checkKeys] at h
    by_cases hpass : skipped line ∨ line.filter (· != 32) = [] ∨ namesType line
    · have hrest : checkKeys lines = .ok () := by
        split_ifs at h <;> exact h
      rcases List.mem_cons.mp hl with rfl | hl
      · exact hpass
      · exact passed_of_checkKeys hrest l hl
    · rw [not_or, not_or] at hpass
      rw [if_neg hpass.1, if_neg hpass.2.1, if_neg hpass.2.2] at h
      exact absurd h (by simp)

/-- What the loop has let pass is in order, unless it has not checked it. -/
theorem namesType_of_passed {locale : Locale} {line : Bytes} (hun : ¬ Unchecked line)
    (hkey : isKeyLine locale line)
    (hpass : skipped line ∨ line.filter (· != 32) = [] ∨ namesType line) : namesType line := by
  have hspaces : ¬ ∀ c ∈ line, c = 32 := fun h => by
    rw [isKeyLine_spaces locale h] at hkey
    exact absurd hkey Bool.false_ne_true
  rcases hpass with hskip | hblank | htype
  · cases line with
    | nil => exact absurd (List.forall_mem_nil _) hspaces
    | cons c line =>
      rw [skipped, Bool.or_eq_true, Bool.and_eq_true, beq_iff_eq, beq_iff_eq] at hskip
      rcases hskip with rfl | ⟨rfl, hhash⟩
      · rw [isKeyLine_hash] at hkey
        exact absurd hkey Bool.false_ne_true
      · refine absurd (Or.inr ⟨rfl, List.mem_cons_of_mem _ ?_⟩) hun
        exact List.contains_iff_mem.mp hhash
  · exact absurd (fun c hc => by simpa using List.filter_eq_nil_iff.mp hblank c hc) hspaces
  · exact htype

/-- What the loop has checked is in order. -/
theorem namesType_of_ended {locale : Locale} {keys line : Bytes}
    (hkeys : checkKeys (readLines keys) = .ok ()) (hline : line ∈ Fields.ended newline keys)
    (hun : ¬ Unchecked line) (hkey : isKeyLine locale line) : namesType line := by
  have hread : line.filter (· != 0) = line := List.filter_eq_self.mpr fun c hc =>
    bne_iff_ne.mpr (ne_of_mem_of_not_mem hc fun h0 => hun (Or.inl h0))
  have hline' : line ∈ readLines keys := List.mem_map.mpr ⟨line, hline, hread⟩
  exact namesType_of_passed hun hkey (passed_of_checkKeys hkeys line hline')

/-- Where there is no NUL, `grep` sees the lines that there are. -/
theorem grepLines_eq (t : Tools) {keys : Bytes} (h : 0 ∉ keys) :
    grepLines t keys = Fields.fields newline keys := by
  refine Fields.fields_congr fun c hc => ?_
  have hne : (c == 0) = false := beq_eq_false_iff_ne.mpr (ne_of_mem_of_not_mem hc h)
  rw [hne, Bool.and_false, Bool.or_false]

/-- `grep -q` misses no line with `PRIVATE KEY`. -/
theorem not_privateKey {t : Tools} {keys : Bytes} (h : hasPrivateKey t keys = false) :
    ∀ line ∈ Fields.fields newline keys, ¬ PRIVATE_KEY <:+: line := by
  intro line hline hin
  have hplain : PRIVATE_KEY.all fun c => ! newline c && c != 0 := by decide
  have hends : ∀ c ∈ PRIVATE_KEY, (newline c || t.nulEnds && c == 0) = false := fun c hc => by
    have hc := List.all_eq_true.mp hplain c hc
    rw [Bool.and_eq_true, Bool.not_eq_true', bne_iff_ne] at hc
    rw [hc.1, beq_eq_false_iff_ne.mpr hc.2, Bool.and_false, Bool.or_false]
  obtain ⟨f, hf, hinf⟩ := Fields.exists_of_infix hends (by decide)
    (hin.trans (Fields.infix_of_mem_fields line hline))
  exact absurd (decide_eq_true hinf) (List.any_eq_false.mp h f hf)

/-- **When the key check has failed closed**: when the lines that the loop does not check are in
order, and, if there is a NUL in the keys, some line is neither blank nor a comment. -/
theorem failsClosed_iff {t : Tools} {e : Env} {keys : Bytes} {a : Accepted}
    (hsrc : e.keysSrc = some keys) (h : phase1 t e = .ok a) : FailsClosed t.locale keys ↔
      (0 ∈ keys → ∃ line ∈ Fields.fields newline keys, isKeyLine t.locale line) ∧
        (∀ line ∈ Fields.ended newline keys, Unchecked line → isKeyLine t.locale line →
          namesType line) ∧
        (isKeyLine t.locale (Fields.rest newline keys) →
          namesType (Fields.rest newline keys)) := by
  obtain ⟨hcount, hprivate, hkeys, -⟩ := of_phase1 hsrc h
  constructor
  · rintro ⟨hsome, -, htyped⟩
    refine ⟨fun _ => hsome, fun line hline _ => ?_, fun hkey => ?_⟩
    · exact htyped line (Fields.mem_fields_iff.mpr (Or.inl hline))
    refine htyped _ (Fields.mem_fields_iff.mpr (Or.inr ⟨fun hnil => ?_, rfl⟩)) hkey
    rw [hnil, isKeyLine_spaces _ (List.forall_mem_nil _)] at hkey
    exact absurd hkey Bool.false_ne_true
  · rintro ⟨hnul, hended, hrest⟩
    refine ⟨?_, not_privateKey hprivate, fun line hline hkey => ?_⟩
    · by_cases h0 : 0 ∈ keys
      · exact hnul h0
      · rw [keyCount, grepLines_eq t h0] at hcount
        exact List.countP_pos_iff.mp (Nat.pos_of_ne_zero hcount)
    · rcases Fields.mem_fields_iff.mp hline with hmem | ⟨-, rfl⟩
      · by_cases hun : Unchecked line
        · exact hended line hmem hun hkey
        · exact namesType_of_ended hkeys hmem hun hkey
      · exact hrest hkey

/-! ### The `AllowUsers` line -/

/-- The hosts that the words of `ALLOWED_FROM` come down to. -/
def hosts (words : List Bytes) : List Bytes := (words.map stripSpace).filter (! ·.isEmpty)

theorem addTerms_eq (user : Bytes) : ∀ (words : List Bytes) (terms : Bytes),
    addTerms user terms words = terms ++ (hosts words).flatMap fun h => 32 :: term user h
  | [], terms => by rw [addTerms, hosts, List.map_nil, List.filter_nil, List.flatMap_nil,
      List.append_nil]
  | word :: words, terms => by
    rw [addTerms, hosts, List.map_cons]
    split_ifs with hnil
    · rw [hnil, List.filter_cons_of_neg (by simp), ← hosts, addTerms_eq user words]
    · rw [List.filter_cons_of_pos (by simpa using hnil), ← hosts, addTerms_eq user words,
        List.flatMap_cons, List.append_assoc]

/-- A host is a piece of text without whitespace. -/
theorem of_mem_hosts {words : List Bytes} {h : Bytes} (hh : h ∈ hosts words) :
    h ≠ [] ∧ ∀ c ∈ h, isSpace c = false := by
  obtain ⟨hmem, hne⟩ := List.mem_filter.mp hh
  obtain ⟨word, -, rfl⟩ := List.mem_map.mp hmem
  refine ⟨by simpa using hne, fun c hc => ?_⟩
  simpa using (List.mem_filter.mp hc).2

/-- The line that is built, unless `ALLOWED_FROM` is `any`. -/
theorem exists_hosts {t : Tools} {e : Env} {line : Bytes} (h : allowLine t e = .ok line)
    (hany : e.ALLOWED_FROM ≠ str "any") : ∃ words, hosts words ≠ [] ∧
      line = str "AllowUsers" ++ (hosts words).flatMap fun h => 32 :: term e.user h := by
  rw [allowLine] at h
  obtain ⟨-, h⟩ := guard_eq_ok.mp h
  rw [if_neg hany] at h
  obtain ⟨hterms, h⟩ := guard_eq_ok.mp h
  rw [addTerms_eq, List.nil_append] at hterms h
  exact ⟨_, fun hnil => hterms (by rw [hnil, List.flatMap_nil]), (Except.ok.inj h).symm⟩

theorem newline_of_not_isSpace {c : UInt8} (h : isSpace c = false) : newline c = false :=
  beq_eq_false_iff_ne.mpr fun hc => absurd (hc ▸ h) (by decide)

theorem ne_space_of_not_isSpace {c : UInt8} (h : isSpace c = false) : (c == 32) = false :=
  beq_eq_false_iff_ne.mpr fun hc => absurd (hc ▸ h) (by decide)

theorem not_isSpace_allowUsers : ∀ c ∈ str "AllowUsers", isSpace c = false :=
  forall_of_all (by decide)

theorem term_ne_user (user h : Bytes) : term user h ≠ user := fun heq => by
  have := congrArg List.length heq
  rw [term, List.length_append, List.length_cons] at this
  omega

section Line

variable {user : Bytes} {hs : List Bytes}

theorem not_isSpace_term (huser : ∀ c ∈ user, isSpace c = false) {h : Bytes}
    (hh : ∀ c ∈ h, isSpace c = false) : ∀ c ∈ term user h, isSpace c = false :=
  List.forall_mem_append.mpr ⟨huser, List.forall_mem_cons.mpr ⟨by decide, hh⟩⟩

/-- It is one line. -/
theorem newline_line (huser : ∀ c ∈ user, isSpace c = false)
    (hhs : ∀ h ∈ hs, h ≠ [] ∧ ∀ c ∈ h, isSpace c = false) :
    ∀ c ∈ str "AllowUsers" ++ hs.flatMap (fun h => 32 :: term user h), newline c = false := by
  refine List.forall_mem_append.mpr
    ⟨fun c hc => newline_of_not_isSpace (not_isSpace_allowUsers c hc), fun c hc => ?_⟩
  obtain ⟨h, hh, hc⟩ := List.mem_flatMap.mp hc
  rcases List.mem_cons.mp hc with rfl | hc
  · decide
  · exact newline_of_not_isSpace (not_isSpace_term huser (hhs h hh).2 c hc)

/-- Its words are `AllowUsers` and the terms. -/
theorem words_line (huser : ∀ c ∈ user, isSpace c = false)
    (hhs : ∀ h ∈ hs, h ≠ [] ∧ ∀ c ∈ h, isSpace c = false) :
    Fields.fields (· == 32) (str "AllowUsers" ++ hs.flatMap fun h => 32 :: term user h)
      = str "AllowUsers" :: hs.map (term user) := by
  refine Fields.fields_flatMap (by decide)
    (fun c hc => ne_space_of_not_isSpace (not_isSpace_allowUsers c hc)) (by decide) fun h hh => ?_
  refine ⟨List.append_ne_nil_of_right_ne_nil _ (List.cons_ne_nil _ _), fun c hc => ?_⟩
  exact ne_space_of_not_isSpace (not_isSpace_term huser (hhs h hh).2 c hc)

/-- One line is appended, behind the end of the last one. -/
theorem fields_appended {line : Bytes} (h : ∀ c ∈ line, newline c = false) :
    Fields.fields newline (appended line) = [[], line] := by
  rw [appended, ← List.nil_append (10 :: (line ++ [10])),
    Fields.fields_append_cons (List.forall_mem_nil _) (by decide),
    Fields.fields_append_cons h (by decide), Fields.fields_nil]

end Line

/-- **The shape of the `AllowUsers` line**: unless `ALLOWED_FROM` is `any`, it is one line of terms
`user@host`, and adds one line to the configuration of `sshd`. -/
theorem allowLine_of_accepted {t : Tools} {e : Env} {a : Accepted} (h : phase1 t e = .ok a)
    (hany : e.ALLOWED_FROM ≠ str "any") (huser : ∀ c ∈ e.user, isSpace c = false) :
    ∃ hs : List Bytes, hs ≠ [] ∧ (∀ h ∈ hs, h ≠ [] ∧ ∀ c ∈ h, isSpace c = false) ∧
      a.allowLine = str "AllowUsers" ++ hs.flatMap (fun h => 32 :: term e.user h) ∧
      (∀ c ∈ a.allowLine, newline c = false) ∧
      Fields.fields (· == 32) a.allowLine = str "AllowUsers" :: hs.map (term e.user) ∧
      e.user ∉ hs.map (term e.user) ∧
      Fields.fields newline (appended a.allowLine) = [[], a.allowLine] := by
  obtain ⟨keys, hsrc⟩ := exists_keysSrc h
  obtain ⟨-, -, -, hallow⟩ := of_phase1 hsrc h
  obtain ⟨words, hne, hline⟩ := exists_hosts hallow hany
  have hhosts : ∀ h ∈ hosts words, h ≠ [] ∧ ∀ c ∈ h, isSpace c = false := fun h => of_mem_hosts
  have hnewline : ∀ c ∈ a.allowLine, newline c = false := hline ▸ newline_line huser hhosts
  have hwords := words_line huser hhosts
  rw [← hline] at hwords
  refine ⟨hosts words, hne, hhosts, hline, hnewline, hwords, fun hmem => ?_,
    fields_appended hnewline⟩
  obtain ⟨h, -, heq⟩ := List.mem_map.mp hmem
  exact term_ne_user e.user h heq

/-! ### Two runs -/

/-- The locale of which `[[:space:]]` is the ASCII whitespace. -/
def asciiLocale : Locale where
  skipSpace line := line.dropWhile isSpace
  skipSpace_spaces line h := List.dropWhile_eq_nil_iff.mpr fun c hc => by
    rw [h c hc]
    decide
  skipSpace_hash line := List.dropWhile_cons_of_neg (by decide)

/-- In a directory where no pattern matches anything. -/
def asciiTools : Tools := ⟨asciiLocale, true, fun word => [word]⟩

/-- A key file and three hosts. -/
def exampleEnv (keys : String) : Env where
  KEYS_SRC := some (str keys)
  AUTHORIZED_KEYS := []
  ALLOWED_FROM := str "192.168.1.42, 10.0.0.5 ,192.168.1.*"
  BUILDER_USER := []
  SELFTEST := str "1"
  pwField := none
  usermod := false

/-- What is accepted with one key. -/
def exampleAccepted : Accepted :=
  ⟨1, str "AllowUsers builder@192.168.1.42 builder@10.0.0.5 builder@192.168.1.*"⟩

theorem phase1_example :
    phase1 asciiTools (exampleEnv "# me\nssh-ed25519 AAAA me\n") = .ok exampleAccepted := by
  decide +kernel

theorem failsClosed_example : FailsClosed asciiLocale (str "# me\nssh-ed25519 AAAA me\n") :=
  (failsClosed_iff rfl phase1_example).mpr ⟨by decide, by decide, by decide⟩

/-- A second line that no newline ends is not checked. -/
theorem not_failsClosed_unended :
    phase1 asciiTools (exampleEnv "ssh-ed25519 AAAA me\ngarbage") =
        .ok { exampleAccepted with keyCount := 2 } ∧
      ¬ FailsClosed asciiLocale (str "ssh-ed25519 AAAA me\ngarbage") := by
  have hline : str "garbage" ∈ Fields.fields newline (str "ssh-ed25519 AAAA me\ngarbage") := by
    decide +kernel
  have hkey : isKeyLine asciiLocale (str "garbage") := by decide +kernel
  have htype : ¬ namesType (str "garbage") := by decide +kernel
  exact ⟨by decide +kernel, fun h => htype (h.typed _ hline hkey)⟩

theorem allowLine_of_accepted_example :
    let user := (exampleEnv "# me\nssh-ed25519 AAAA me\n").user
    ∃ hs : List Bytes, hs ≠ [] ∧ (∀ h ∈ hs, h ≠ [] ∧ ∀ c ∈ h, isSpace c = false) ∧
      exampleAccepted.allowLine = str "AllowUsers" ++ hs.flatMap (fun h => 32 :: term user h) ∧
      (∀ c ∈ exampleAccepted.allowLine, newline c = false) ∧
      Fields.fields (· == 32) exampleAccepted.allowLine = str "AllowUsers" :: hs.map (term user) ∧
      user ∉ hs.map (term user) ∧
      Fields.fields newline (appended exampleAccepted.allowLine) =
        [[], exampleAccepted.allowLine] :=
  allowLine_of_accepted phase1_example (by decide) (forall_of_all (by decide))

end Entrypoint

end PalmaEos
