import ExtraCodeowners.Lib.Regex
import ExtraCodeowners.Rendering
import ExtraCodeowners.Unicode
import Mathlib.Data.List.MinMax
import Mathlib.Data.Prod.Lex
import Mathlib.Order.Lattice.Nat

/-!
# Release planning

The next release tag, from the tags and the commits `git` reports. A commit
precedes another when it is its ancestor, so the commits are a partial order.
-/

namespace ExtraCodeowners.Release

/-! ## Versions -/

structure Version where
  major : Nat
  minor : Nat
  patch : Nat
  alpha : Option Nat
deriving DecidableEq

/-- SemVer precedence: the alphas of a version come before it. -/
def Version.sort_key (v : Version) : ℕ ×ₗ ℕ ×ₗ ℕ ×ₗ ℕ ×ₗ ℕ :=
  toLex (v.major, toLex (v.minor, toLex (v.patch,
    toLex (if v.alpha = none then 1 else 0, v.alpha.getD 0))))

def Version.base (v : Version) : Str :=
  decimal v.major ++ '.' :: (decimal v.minor ++ '.' :: decimal v.patch)

def Version.semver (v : Version) : Str :=
  match v.alpha with
  | none => v.base
  | some alpha => v.base ++ ("-alpha." : Str) ++ decimal alpha

def Version.tag (v : Version) : Str := 'v' :: v.semver

section
variable [UnicodeTables]

/-- `[1-9]\d*` -/
def isPositiveNumber : Str → Bool
  | [] => false
  | c :: digits => ('1' ≤ c && c ≤ '9') && digits.all isDecimal

/-- `0|[1-9]\d*` -/
def isNumber (s : Str) : Bool := s = ['0'] || isPositiveNumber s

/-- The part of a tag behind the patch number. -/
def alphaGroup (s : Str) : Option (Option Str) :=
  if s = [] then some none
  else if ("-alpha." : Str).isPrefixOf s ∧ isPositiveNumber (s.drop 7) then some (some (s.drop 7))
  else none

/-- `SEMVER_TAG.fullmatch`, with the four groups. A number stops at its first
character that is no digit. -/
def SEMVER_TAG : Str → Option (Str × Str × Str × Option Str)
  | 'v' :: s =>
    let major := s.takeWhile isDecimal
    match s.dropWhile isDecimal with
    | '.' :: s =>
      let minor := s.takeWhile isDecimal
      match s.dropWhile isDecimal with
      | '.' :: s =>
        let patch := s.takeWhile isDecimal
        match alphaGroup (s.dropWhile isDecimal) with
        | some alpha =>
          if isNumber major && isNumber minor && isNumber patch then some (major, minor, patch, alpha)
          else none
        | none => none
      | _ => none
    | _ => none
  | _ => none

/-- `^v\d` -/
def RELEVANT_TAG (s : Str) : Bool := startsWith 'v' s && (s.drop 1).head?.any isDecimal

def Version.from_tag (tag : Str) : Except Str Version :=
  match SEMVER_TAG tag with
  | none => .error (("malformed release tag: " : Str) ++ tag)
  | some (major, minor, patch, alpha) =>
    .ok ⟨intOfDigits major, intOfDigits minor, intOfDigits patch, alpha.map intOfDigits⟩

end

/-! ## What git reports -/

structure ReleaseTag (C : Type) where
  name : Str
  version : Version
  commit : C
deriving DecidableEq

structure Commit where
  subject : Str
  body : Str

structure ReleasePlan where
  version : Version
  previous_tag : Option Str
  superseded : Bool

/-- What stays when a tag is added. `log` lists subjects and bodies, oldest
first, without the commits a tagged one reaches. -/
structure GitHistory (C : Type) where
  log : Option C → C → List (Str × Str)
  interpret_trailers : Str → Str
  /-- The text of a failed command. -/
  stderr : Str

/-- A worktree; a tag of another object than a commit names none. -/
structure GitRepository (C : Type) where
  history : GitHistory C
  head : C
  refs : List (Str × Option C)

variable {C : Type} [DecidableEq C]

/-- `git tag --list`, by lines. -/
def GitRepository.tagNames (r : GitRepository C) : List Str :=
  splitlines (r.refs.flatMap fun ref => ref.1 ++ ['\n'])

/-- `git rev-parse --verify refs/tags/{name}^{commit}` -/
def GitRepository.rev_parse (r : GitRepository C) (name : Str) : Except Str C :=
  match r.refs.find? fun ref => ref.1 = name with
  | some (_, some commit) => .ok commit
  | _ => .error r.history.stderr

section
variable [UnicodeTables]

def readTag (r : GitRepository C) (name : Str) : Except Str (ReleaseTag C) := do
  let commit ← r.rev_parse name
  let version ← Version.from_tag name
  return ⟨name, version, commit⟩

def read_release_tags (r : GitRepository C) : Except Str (List (ReleaseTag C)) :=
  let names := r.tagNames
  let malformed := sorted (names.filter fun name => RELEVANT_TAG name && (SEMVER_TAG name).isNone)
  if malformed ≠ [] then
    .error (("malformed release tag(s): " : Str) ++ join (", " : Str) malformed)
  else (names.filter fun name => (SEMVER_TAG name).isSome).mapM (readTag r)

end

/-! ## The order of the tags -/

section
variable [PartialOrder C] [DecidableLE C]

def byVersion (tags : List (ReleaseTag C)) : List (ReleaseTag C) :=
  tags.insertionSort fun a b => a.version.sort_key ≤ b.version.sort_key

/-- The names at each commit that has more than one. -/
def ambiguousTags (tags : List (ReleaseTag C)) : List (List Str) :=
  ((fromKeys (tags.map ReleaseTag.commit)).map fun commit =>
    (tags.filter fun tag => tag.commit = commit).map ReleaseTag.name).filter (1 < ·.length)

/-- The loop over `pairwise(ordered)`. -/
def checkPairs : List (ReleaseTag C) → Except Str Unit
  | older :: newer :: rest =>
    if older.commit ≤ newer.commit then checkPairs (newer :: rest)
    else if newer.commit ≤ older.commit then
      .error (("release versions are non-monotonic: " : Str) ++ newer.name ++ (" precedes " : Str) ++
        older.name)
    else
      .error (("release tags do not form a linear history: " : Str) ++ older.name ++ (" and " : Str) ++
        newer.name ++ (" are on separate branches" : Str))
  | _ => .ok ()

def validate_linear_history (tags : List (ReleaseTag C)) : Except Str Unit :=
  if ambiguousTags tags ≠ [] then
    .error (("multiple release tags identify the same commit: " : Str) ++
      join ("; " : Str) ((ambiguousTags tags).map fun names => join (", " : Str) (sorted names)))
  else checkPairs (byVersion tags)

/-- `max(tags, key=...)`: the first of the highest version. -/
def latestTag (tags : List (ReleaseTag C)) : Option (ReleaseTag C) :=
  tags.argmax fun tag => tag.version.sort_key

end

/-! ## Release channels -/

/-- `git log --reverse`, in the format that `read_commits` asks for. -/
def GitRepository.rawLog (r : GitRepository C) (since : Option C) : Str :=
  (r.history.log since r.head).flatMap fun (subject, body) =>
    '\x1e' :: (subject ++ '\x1f' :: (body ++ ['\n']))

/-- What `text=True` makes of the output of a command. -/
def universalNewlines : Str → Str
  | [] => []
  | '\r' :: '\n' :: s => '\n' :: universalNewlines s
  | c :: s => (if c = '\r' then '\n' else c) :: universalNewlines s

def readRecord (record : Str) : Option Commit :=
  if '\x1f' ∈ record then
    some ⟨strip (record.takeWhile (· ≠ '\x1f')), strip ((record.dropWhile (· ≠ '\x1f')).drop 1)⟩
  else none

def parseLog (raw : Str) : List Commit := (raw.splitOn '\x1e').filterMap readRecord

def read_commits (r : GitRepository C) (since : Option C) : List Commit :=
  parseLog (universalNewlines (r.rawLog since))

def RELEASE_CHANNEL_TRAILER : Str := ("release-channel" : Str)

def RELEASE_CHANNELS : List Str := [("alpha" : Str), ("stable" : Str)]

section
variable [PyText] [UnicodeTables]

/-- A field of the terminal block that is named like the trailer and is none. -/
def isMalformedTrailer (line : Str) : Bool :=
  let candidate := line.dropWhile isSpace
  let remainder := candidate.drop ("Release-Channel" : Str).length
  RELEASE_CHANNEL_TRAILER.isPrefixOf (casefold candidate) &&
    !(remainder.head?.any fun c => isAlnum c || c == '-' || c == '_') && !startsWith ':' remainder

def reject_malformed_release_channel_trailer (commit : Commit) (message : Str) : Except Str Unit :=
  let block := (splitlines (message.rdropWhile isSpace)).rtakeWhile fun line => strip line ≠ []
  if block.any isMalformedTrailer then
    .error (("malformed Release-Channel trailer in " : Str) ++ commit.subject ++
      ("; use Release-Channel: alpha or Release-Channel: stable" : Str))
  else .ok ()

def trailerChannels (trailers : Str) : List Str :=
  (splitlines trailers).filterMap fun trailer =>
    if ':' ∈ trailer ∧ casefold (trailer.takeWhile (· ≠ ':')) = RELEASE_CHANNEL_TRAILER then
      some (strip ((trailer.dropWhile (· ≠ ':')).drop 1))
    else none

def read_release_channel (r : GitRepository C) (commit : Commit) : Except Str (Option Str) := do
  let message := commit.subject ++ ("\n\n" : Str) ++ commit.body ++ ['\n']
  reject_malformed_release_channel_trailer commit message
  match trailerChannels (r.history.interpret_trailers message) with
  | [] => .ok none
  | [channel] =>
    if channel ∈ RELEASE_CHANNELS then .ok (some channel)
    else
      .error (("invalid Release-Channel trailer " : Str) ++ PyText.repr channel ++ (" in " : Str) ++
        commit.subject ++ ("; expected one of: " : Str) ++ join (", " : Str) (sorted RELEASE_CHANNELS))
  | _ => .error (("a commit may contain at most one Release-Channel trailer: " : Str) ++ commit.subject)

def select_release_channel (r : GitRepository C) (commits : List Commit) (initial_channel : Str) :
    Except Str Str :=
  commits.foldlM (fun channel commit => do
    match ← read_release_channel r commit with
    | none => .ok channel
    | some requested =>
      if requested = channel then
        .error (("Release-Channel: " : Str) ++ requested ++ (" in " : Str) ++ commit.subject ++
          (" does not change the current release channel" : Str))
      else .ok requested) initial_channel

end

/-! ## The plan -/

/-- `[A-Za-z]` -/
def isLetter (c : Char) : Bool := ('A' ≤ c && c ≤ 'Z') || ('a' ≤ c && c ≤ 'z')

/-- `(?:\([^)]+\))?`, the scope of a conventional subject. -/
def scopePattern : Regex Char :=
  .opt (.seq [.sat (· == '('), .sat (· != ')'), .star (.sat (· != ')')), .sat (· == ')')])

def literal (s : Str) : Regex Char := .seq (s.map fun c => .sat (· == c))

/-- `re.match`: some beginning of the text matches. -/
def matchesStart (pattern : Regex Char) (s : Str) : Bool :=
  (Regex.cat pattern (.star (.sat fun _ => true))).fullmatch s

def BREAKING_SUBJECT : Regex Char :=
  .seq [.sat isLetter, .star (.sat isLetter), scopePattern, .sat (· == '!'), .sat (· == ':')]

def FEATURE_SUBJECT : Regex Char := .seq [literal ("feat" : Str), scopePattern, .sat (· == ':')]

def BREAKING_BODY : Regex Char :=
  .seq [literal ("BREAKING" : Str), .alt (literal (" CHANGE" : Str)) (literal ("-CHANGE" : Str)),
    .sat (· == ':')]

/-- `BREAKING_BODY.search`, whose anchor holds behind every line feed. -/
def breakingBody (body : Str) : Bool := (body.splitOn '\n').any (matchesStart BREAKING_BODY)

def bump_stable (version : Version) (commits : List Commit) : Version :=
  if commits.any fun commit =>
      matchesStart BREAKING_SUBJECT commit.subject || breakingBody commit.body then
    ⟨version.major + 1, 0, 0, none⟩
  else if commits.any fun commit => matchesStart FEATURE_SUBJECT commit.subject then
    ⟨version.major, version.minor + 1, 0, none⟩
  else ⟨version.major, version.minor, version.patch + 1, none⟩

/-- The version behind the latest one on the channel that is selected. -/
def nextVersion (latest : Version) (channel : Str) (commits : List Commit) : Version :=
  match latest.alpha with
  | some alpha =>
    if channel = ("stable" : Str) then ⟨latest.major, latest.minor, latest.patch, none⟩
    else ⟨latest.major, latest.minor, latest.patch, some (alpha + 1)⟩
  | none =>
    let stable_version := bump_stable latest commits
    if channel = ("alpha" : Str) then
      ⟨stable_version.major, stable_version.minor, stable_version.patch, some 1⟩
    else stable_version

section
variable [PyText] [UnicodeTables] [PartialOrder C] [DecidableLE C]

/-- The latest tag and the version behind it, from tags that HEAD follows. -/
def planNext (r : GitRepository C) (tags reachable : List (ReleaseTag C)) (latest : ReleaseTag C) :
    Except Str Version :=
  let unreachable := sorted ((tags.filter (· ∉ reachable)).map ReleaseTag.name)
  let commits := read_commits r (some latest.commit)
  let initial_channel := if latest.version.alpha ≠ none then ("alpha" : Str) else ("stable" : Str)
  if latest ∉ reachable then
    .error (("latest release tag " : Str) ++ latest.name ++
      (" is not an ancestor of HEAD; refusing a tag collision" : Str))
  else if unreachable ≠ [] then
    .error (("release tags exist outside the current release history: " : Str) ++
      join (", " : Str) unreachable)
  else if commits.isEmpty then .error (("no commits follow " : Str) ++ latest.name)
  else
    (select_release_channel r commits initial_channel).map fun channel =>
      nextVersion latest.version channel commits

/-- The two checks on a calculated version. -/
def checkNext (tags : List (ReleaseTag C)) (latest : ReleaseTag C) (next_version : Version)
    (shown : C → Str) : Except Str ReleasePlan :=
  match tags.find? fun tag => tag.name = next_version.tag with
  | some collision =>
    .error (("release tag " : Str) ++ next_version.tag ++ (" already identifies " : Str) ++
      shown collision.commit ++ (", not HEAD" : Str))
  | none =>
    if next_version.sort_key ≤ latest.version.sort_key then
      .error (("calculated release " : Str) ++ next_version.tag ++ (" does not follow " : Str) ++
        latest.name)
    else .ok ⟨next_version, some latest.name, false⟩

def calculate_release_plan (r : GitRepository C) (shown : C → Str) : Except Str ReleasePlan := do
  let head := r.head
  let tags ← read_release_tags r
  let tags_at_head := tags.filter fun tag => tag.commit = head
  if 1 < tags_at_head.length then
    throw (("multiple release tags identify HEAD: " : Str) ++
      join (", " : Str) (sorted (tags_at_head.map ReleaseTag.name)))
  let reachable := tags.filter fun tag => tag.commit ≤ head
  validate_linear_history reachable
  match tags_at_head with
  | current :: _ =>
    let predecessors := reachable.filter fun tag => tag.commit ≠ head
    return ⟨current.version, (latestTag predecessors).map ReleaseTag.name, false⟩
  | [] =>
  match latestTag (tags.filter fun tag => head ≤ tag.commit) with
  | some latest_descendant =>
    validate_linear_history tags
    let predecessors := tags.filter fun tag =>
      tag.commit ≠ latest_descendant.commit ∧ tag.commit ≤ latest_descendant.commit
    return ⟨latest_descendant.version, (latestTag predecessors).map ReleaseTag.name, true⟩
  | none =>
  match latestTag tags with
  | none =>
    let channel ← select_release_channel r (read_commits r none) ("alpha" : Str)
    return ⟨⟨0, 1, 0, if channel = ("alpha" : Str) then some 1 else none⟩, none, false⟩
  | some latest =>
    let next_version ← planNext r tags reachable latest
    checkNext tags latest next_version shown

end

/-! ## A planned tag names its version -/

section
variable [UnicodeTables]

theorem decimal_isDecimal {n : Nat} : ∀ c ∈ decimal n, isDecimal c = true :=
  fun _ hc => isDecimal_of_isDigit (decimal_isDigit hc)

theorem isPositiveNumber_decimal {n : Nat} (h : 0 < n) : isPositiveNumber (decimal n) = true := by
  have hhead := decimal_head h
  have hdigit : ∀ c ∈ decimal n, c.isDigit = true := fun c hc => decimal_isDigit hc
  cases hn : decimal n with
  | nil => exact absurd hn (decimal_ne_nil n)
  | cons c digits =>
    rw [hn] at hhead hdigit
    have hc := hdigit c (by simp)
    have hne : c ≠ '0' := by simpa using hhead
    rw [isDigit_iff] at hc
    have hone : '1' ≤ c := by
      have hnat : c.toNat ≠ '0'.toNat := fun e => hne (Char.toNat_inj.mp e)
      have e48 : '0'.toNat = 48 := rfl
      have e49 : '1'.toNat = 49 := rfl
      exact UInt32.le_iff_toNat_le.mpr (show '1'.toNat ≤ c.toNat by omega)
    have hnine : c ≤ '9' := UInt32.le_iff_toNat_le.mpr hc.2
    simp only [isPositiveNumber, hone, hnine, decide_true, Bool.and_true, Bool.true_and,
      List.all_eq_true]
    exact fun d hd => isDecimal_of_isDigit (hdigit d (by simp [hd]))

theorem isNumber_decimal (n : Nat) : isNumber (decimal n) = true := by
  by_cases h : n = 0
  · subst h
    rfl
  · simp [isNumber, isPositiveNumber_decimal (Nat.pos_of_ne_zero h)]

def Version.rendered (v : Version) : Str :=
  match v.alpha with
  | none => []
  | some alpha => ("-alpha." : Str) ++ decimal alpha

omit [UnicodeTables] in
theorem Version.tag_eq (v : Version) : v.tag =
    'v' :: (decimal v.major ++ '.' :: (decimal v.minor ++ '.' :: (decimal v.patch ++ v.rendered))) := by
  unfold Version.tag Version.semver Version.rendered Version.base
  cases v.alpha <;> simp

theorem alphaGroup_rendered {v : Version} (h : v.alpha ≠ some 0) :
    alphaGroup v.rendered = some (v.alpha.map decimal) := by
  cases ha : v.alpha with
  | none => simp [Version.rendered, ha, alphaGroup]
  | some alpha =>
    have hpos : 0 < alpha := by
      rw [ha] at h
      exact Nat.pos_of_ne_zero fun e => h (by rw [e])
    have hp : isPositiveNumber (decimal alpha) = true := isPositiveNumber_decimal hpos
    simp [Version.rendered, ha, alphaGroup, hp]

theorem SEMVER_TAG_tag {v : Version} (h : v.alpha ≠ some 0) : SEMVER_TAG v.tag =
    some (decimal v.major, decimal v.minor, decimal v.patch, v.alpha.map decimal) := by
  have hdot : ∀ s : Str, ('.' :: s).head?.any isDecimal = false := fun _ => rfl
  have hrendered : v.rendered.head?.any isDecimal = false := by
    unfold Version.rendered
    cases v.alpha <;> rfl
  rw [Version.tag_eq, SEMVER_TAG]
  simp only [takeWhile_run decimal_isDecimal (hdot _), dropWhile_run decimal_isDecimal (hdot _),
    takeWhile_run decimal_isDecimal hrendered, dropWhile_run decimal_isDecimal hrendered,
    alphaGroup_rendered h, isNumber_decimal, Bool.and_true, if_true]

theorem from_tag_tag {v : Version} (h : v.alpha ≠ some 0) : Version.from_tag v.tag = .ok v := by
  rw [Version.from_tag, SEMVER_TAG_tag h]
  cases v with
  | mk major minor patch alpha =>
    cases alpha <;> simp [intOfDigits_decimal]

omit [UnicodeTables] in
theorem not_isLineBreak_of_digit {c : Char} (h : c.isDigit = true) : isLineBreak c = false := by
  rw [isDigit_iff] at h
  simp only [isLineBreak, Bool.or_eq_false_iff, Bool.and_eq_false_iff, decide_eq_false_iff_not,
    beq_eq_false_iff_ne, ne_eq]
  omega

omit [UnicodeTables] in
/-- A tag is one line of the listing. -/
theorem Version.tag_oneLine (v : Version) : ∀ c ∈ v.tag, isLineBreak c = false := by
  have hd : ∀ n : Nat, ∀ c ∈ decimal n, isLineBreak c = false :=
    fun n c hc => not_isLineBreak_of_digit (decimal_isDigit hc)
  have hr : ∀ c ∈ v.rendered, isLineBreak c = false := by
    unfold Version.rendered
    cases v.alpha with
    | none => simp
    | some alpha =>
      intro c hc
      rcases List.mem_append.mp hc with hc | hc
      · exact forall_mem_of_all (p := fun c => isLineBreak c = false) (by decide) c hc
      · exact hd _ c hc
  intro c hc
  rw [Version.tag_eq] at hc
  simp only [List.mem_cons, List.mem_append] at hc
  rcases hc with rfl | hc | rfl | hc | rfl | hc | hc
  · rfl
  · exact hd _ c hc
  · rfl
  · exact hd _ c hc
  · rfl
  · exact hd _ c hc
  · exact hr c hc

end

/-! ## The next version follows the latest one -/

theorem Version.sort_key_lt {v w : Version} : v.sort_key < w.sort_key ↔
    v.major < w.major ∨ v.major = w.major ∧ (v.minor < w.minor ∨ v.minor = w.minor ∧
      (v.patch < w.patch ∨ v.patch = w.patch ∧
        ((if v.alpha = none then 1 else 0) < (if w.alpha = none then 1 else 0) ∨
          (if v.alpha = none then 1 else 0) = (if w.alpha = none then 1 else 0) ∧
            v.alpha.getD 0 < w.alpha.getD 0))) := by
  simp only [Version.sort_key, Prod.Lex.toLex_lt_toLex]

theorem bump_stable_alpha (version : Version) (commits : List Commit) :
    (bump_stable version commits).alpha = none := by
  unfold bump_stable
  split
  · rfl
  · split <;> rfl

theorem bump_stable_lt (version : Version) (commits : List Commit) :
    version.major < (bump_stable version commits).major ∨
      version.major = (bump_stable version commits).major ∧
        (version.minor < (bump_stable version commits).minor ∨
          version.minor = (bump_stable version commits).minor ∧
            version.patch < (bump_stable version commits).patch) := by
  unfold bump_stable
  split
  · simp
  · split <;> simp

theorem nextVersion_lt (latest : Version) (channel : Str) (commits : List Commit) :
    latest.sort_key < (nextVersion latest channel commits).sort_key := by
  rw [Version.sort_key_lt]
  unfold nextVersion
  cases ha : latest.alpha with
  | some alpha =>
    by_cases hc : channel = ("stable" : Str)
    · simp only [if_pos hc]
      simp
    · simp only [if_neg hc]
      simp
  | none =>
    have hb := bump_stable_lt latest commits
    by_cases hc : channel = ("alpha" : Str)
    · simp only [hc, if_true]
      omega
    · simp only [hc, if_false]
      omega

theorem nextVersion_alpha (latest : Version) (channel : Str) (commits : List Commit) :
    (nextVersion latest channel commits).alpha ≠ some 0 := by
  unfold nextVersion
  cases latest.alpha with
  | some alpha =>
    by_cases hc : channel = ("stable" : Str)
    · simp only [if_pos hc]
      simp
    · simp only [if_neg hc]
      simp
  | none =>
    by_cases hc : channel = ("alpha" : Str)
    · simp only [if_pos hc]
      simp
    · simp only [if_neg hc, bump_stable_alpha]
      simp

end ExtraCodeowners.Release
