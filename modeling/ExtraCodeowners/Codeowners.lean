import ExtraCodeowners.Models

/-!
# CODEOWNERS parsing and matching

`validatePattern` and the translation of a pattern to a regular expression,
the line parser, and the last-match-wins document.
-/

namespace ExtraCodeowners

def MAX_CODEOWNERS_BYTES : Nat := 3 * 1024 * 1024

structure CodeownersIssue where
  code : Str
  message : Str
  line_number : Option Nat

def CodeownersIssue.render (issue : CodeownersIssue) : Str :=
  let pre : Str := match issue.line_number with
    | some n => ("line " : Str) ++ decimal n ++ (": " : Str)
    | none => []
  pre ++ issue.message

/-! ## Patterns -/

def validatePattern (pattern : Str) : Except Str Str :=
  if strip pattern = [] then .error ("pattern must not be empty" : Str)
  else if startsWith '!' (strip pattern) then
    .error ("negated patterns ('!') are not supported by GitHub CODEOWNERS" : Str)
  else if '[' ∈ strip pattern ∨ ']' ∈ strip pattern then
    .error ("character ranges ('[...]') are not supported by GitHub CODEOWNERS" : Str)
  else if '\\' ∈ strip pattern then
    .error ("backslash escapes are not supported; use a POSIX path pattern" : Str)
  else if startsWith '#' (strip pattern) then
    .error ("a CODEOWNERS pattern cannot begin with '#'" : Str)
  else if removePrefix '/' (strip pattern) = [] then
    .error ("root-only '/' is not a file pattern" : Str)
  else if ((rstripSlash (removePrefix '/' (strip pattern))).splitOn '/').any
      (fun segment => segment = [] ∨ segment = ['.'] ∨ segment = ['.', '.']) then
    .error ("pattern must not contain empty, '.' or '..' path segments" : Str)
  else .ok (strip pattern)

/-- `.*`: a dot does not match a line feed. -/
def dotStar : Regex Char := .star (.sat (· != '\n'))

/-- `(?:.*/)?` -/
def optionalDirectories : Regex Char := .opt (.seq [dotStar, .sat (· == '/')])

/-- `[^/]` -/
def notSlash : Regex Char := .sat (· != '/')

/-- The character loop of `_pattern_regex`; every round consumes a character,
so the length of the value is enough fuel. -/
def translateLoop : Nat → Str → List (Regex Char)
  | 0, _ => []
  | _ + 1, [] => []
  | n + 1, '*' :: '*' :: rest =>
    match rest.dropWhile (· = '*') with
    | '/' :: rest => optionalDirectories :: translateLoop n rest
    | rest => dotStar :: translateLoop n rest
  | n + 1, '*' :: rest => .star notSlash :: translateLoop n rest
  | n + 1, '?' :: rest => notSlash :: translateLoop n rest
  | n + 1, c :: rest => .sat (· == c) :: translateLoop n rest

def translate (value : Str) : List (Regex Char) := translateLoop value.length value

def isAnchored (value : Str) : Bool := startsWith '/' value || (rstripSlash value).contains '/'

/-- The segment after the last slash, trailing slashes aside. -/
def finalSegment (value : Str) : Str :=
  ((rstripSlash value).splitOn '/').getLast?.getD []

def isLiteralDirectoryCandidate (value : Str) : Bool :=
  !(finalSegment value).contains '*' && !(finalSegment value).contains '?'

/-- `_pattern_regex` on an already validated value. The anchors `^` and `$`
constrain nothing further under `fullmatch`. -/
def patternRegex (value : Str) : Regex Char :=
  let body := removePrefix '/' value
  let recursive := if endsWith '/' body then body ++ ['*', '*'] else body
  let pre := if isAnchored value then [] else [optionalDirectories]
  let suffix := if isLiteralDirectoryCandidate body
    then [.opt (.seq [.sat (· == '/'), dotStar])] else []
  .seq (pre ++ translate recursive ++ suffix)

def compilePattern (pattern : Str) : Except Str (Regex Char) :=
  (validatePattern pattern).map patternRegex

/-! ## Rules and documents -/

structure CodeownersRule where
  pattern : Str
  owners : List Str
  line_number : Nat
  pattern_is_valid : validatePattern pattern = .ok pattern

def CodeownersRule.matchesNormalized (rule : CodeownersRule) (path : RepositoryPath) : Bool :=
  (patternRegex rule.pattern).fullmatch path.1

structure CodeownersDocument where
  rules : List CodeownersRule

/-- The last matching rule, as GitHub does. -/
def CodeownersDocument.ruleFor (document : CodeownersDocument) (path : RepositoryPath) :
    Option CodeownersRule :=
  document.rules.foldl (fun matched rule => if rule.matchesNormalized path then some rule else matched)
    none

def CodeownersDocument.ownersFor (document : CodeownersDocument) (path : RepositoryPath) : List Str :=
  match document.ruleFor path with
  | none => []
  | some rule => rule.owners

theorem CodeownersDocument.ruleFor_eq (document : CodeownersDocument) (path : RepositoryPath) :
    document.ruleFor path = (document.rules.filter (·.matchesNormalized path)).getLast? := by
  have key : ∀ (rules : List CodeownersRule) (acc : Option CodeownersRule),
      rules.foldl (fun matched rule => if rule.matchesNormalized path then some rule else matched) acc =
        (rules.filter (·.matchesNormalized path)).getLast?.or acc := by
    intro rules
    induction rules with
    | nil => intro acc; simp
    | cons rule rules ih =>
      intro acc
      rw [List.foldl_cons, ih, List.filter_cons]
      by_cases h : rule.matchesNormalized path = true
      · simp only [h, if_true, List.getLast?_cons]
        cases (rules.filter (·.matchesNormalized path)).getLast? <;> simp
      · simp [h]
  have := key document.rules none
  rwa [Option.or_none] at this

theorem ruleFor_some {document : CodeownersDocument} {path : RepositoryPath} {rule : CodeownersRule}
    (h : document.ruleFor path = some rule) :
    ∃ earlier later, document.rules = earlier ++ rule :: later ∧ rule.matchesNormalized path = true ∧
      ∀ r ∈ later, r.matchesNormalized path = false := by
  rw [CodeownersDocument.ruleFor_eq] at h
  obtain ⟨ys, hys⟩ := List.getLast?_eq_some_iff.mp h
  obtain ⟨l₁, l₂, hl, h₁, h₂⟩ := List.filter_eq_append_iff.mp hys
  obtain ⟨m₁, m₂, hm, h₃, h₄, h₅⟩ := List.filter_eq_cons_iff.mp h₂
  refine ⟨l₁ ++ m₁, m₂, by rw [hl, hm]; simp, h₄, ?_⟩
  intro r hr
  have := List.filter_eq_nil_iff.mp h₅ r hr
  simpa using this

theorem ruleFor_none {document : CodeownersDocument} {path : RepositoryPath} :
    document.ruleFor path = none ↔ ∀ rule ∈ document.rules, rule.matchesNormalized path = false := by
  rw [CodeownersDocument.ruleFor_eq, List.getLast?_eq_none_iff, List.filter_eq_nil_iff]
  simp

/-- The last matching rule is the one applied. -/
theorem ruleFor_last {document : CodeownersDocument} {path : RepositoryPath}
    {earlier later : List CodeownersRule} {rule : CodeownersRule}
    (h : document.rules = earlier ++ rule :: later) (hm : rule.matchesNormalized path = true)
    (hl : ∀ r ∈ later, r.matchesNormalized path = false) : document.ruleFor path = some rule := by
  have hlater : later.filter (·.matchesNormalized path) = [] :=
    List.filter_eq_nil_iff.mpr fun r hr => by simp [hl r hr]
  rw [CodeownersDocument.ruleFor_eq, h, List.filter_append, List.filter_cons, if_pos hm, hlater]
  simp

theorem ownersFor_eq (document : CodeownersDocument) (path : RepositoryPath) :
    document.ownersFor path = ((document.ruleFor path).map (·.owners)).getD [] := by
  unfold CodeownersDocument.ownersFor
  cases document.ruleFor path <;> rfl

/-! ## Parsing -/

/-- `_split_line` from a position, with the characters of the current token. -/
def splitLineFrom : Str → Str → List Str
  | [], current => if current = [] then [] else [current]
  | '\\' :: c :: rest, current =>
    if isSpace c then splitLineFrom rest (current ++ [c])
    else splitLineFrom (c :: rest) (current ++ ['\\'])
  | c :: rest, current =>
    if isSpace c then
      if current = [] then splitLineFrom rest [] else current :: splitLineFrom rest []
    else splitLineFrom rest (current ++ [c])

def splitLine (line : Str) : List Str := splitLineFrom line []

theorem validatePattern_ok {pattern value : Str} (h : validatePattern pattern = .ok value) :
    value = strip pattern ∧ value ≠ [] ∧ startsWith '!' value = false ∧ '[' ∉ value ∧ ']' ∉ value ∧
      '\\' ∉ value ∧ startsWith '#' value = false ∧ removePrefix '/' value ≠ [] ∧
      ∀ segment ∈ (rstripSlash (removePrefix '/' value)).splitOn '/',
        segment ≠ [] ∧ segment ≠ ['.'] ∧ segment ≠ ['.', '.'] := by
  unfold validatePattern at h
  split_ifs at h with h₁ h₂ h₃ h₄ h₅ h₆ h₇
  cases h
  simp only [not_or] at h₃
  simp only [Bool.not_eq_true] at h₂ h₅
  simp only [List.any_eq_true, decide_eq_true_eq, not_exists, not_and, not_or] at h₇
  exact ⟨rfl, h₁, h₂, h₃.1, h₃.2, h₄, h₅, h₆, h₇⟩

theorem validatePattern_eq_ok {value : Str} :
    validatePattern value = .ok value ↔
      strip value = value ∧ value ≠ [] ∧ startsWith '!' value = false ∧ '[' ∉ value ∧ ']' ∉ value ∧
      '\\' ∉ value ∧ startsWith '#' value = false ∧ removePrefix '/' value ≠ [] ∧
      ∀ segment ∈ (rstripSlash (removePrefix '/' value)).splitOn '/',
        segment ≠ [] ∧ segment ≠ ['.'] ∧ segment ≠ ['.', '.'] := by
  constructor
  · intro h
    obtain ⟨h₀, h⟩ := validatePattern_ok h
    exact ⟨h₀.symm, h⟩
  · rintro ⟨h₀, h₁, h₂, h₃, h₃', h₄, h₅, h₆, h₇⟩
    have h₇' : ¬ ((rstripSlash (removePrefix '/' value)).splitOn '/').any
        (fun segment => segment = [] ∨ segment = ['.'] ∨ segment = ['.', '.']) = true := by
      simpa [List.any_eq_true] using h₇
    unfold validatePattern
    rw [h₀, if_neg h₁, if_neg (by simp [h₂]), if_neg (by simp [h₃, h₃']), if_neg h₄,
      if_neg (by simp [h₅]), if_neg h₆, if_neg h₇']

/-- Revalidating a validated pattern changes nothing, so building a rule from
it raises nothing. -/
theorem validatePattern_idem {pattern value : Str} (h : validatePattern pattern = .ok value) :
    validatePattern value = .ok value := by
  obtain ⟨h₀, h₁⟩ := validatePattern_ok h
  exact validatePattern_eq_ok.mpr ⟨by rw [h₀, strip_strip], h₁⟩

section
variable [PyText]

/-- The owners of a line in their canonical spelling, or its owner issues. -/
def parseOwners (line_number : Nat) (raw_owners : List Str) : List CodeownersIssue × List Str :=
  raw_owners.foldr (fun raw_owner acc =>
    match normalizeOwner raw_owner with
    | .ok owner => (acc.1, owner :: acc.2)
    | .error message =>
      let code : Str := if ("email CODEOWNER" : Str) <:+: message
        then ("email_owner_unsupported" : Str) else ("invalid_owner" : Str)
      (⟨code, message, some line_number⟩ :: acc.1, acc.2)) ([], [])

/-- One round of the line loop: the issues of a line and the rule it adds. -/
def parseLine (line_number : Nat) (raw_line : Str) : List CodeownersIssue × Option CodeownersRule :=
  let stripped := strip raw_line
  if stripped = [] ∨ startsWith '#' stripped then ([], none)
  else
    match (splitLine stripped).takeWhile (fun token => !startsWith '#' token) with
    | [] => ([], none)
    | raw_pattern :: raw_owners =>
      match h : validatePattern raw_pattern with
      | .error message => ([⟨("invalid_pattern" : Str), message, some line_number⟩], none)
      | .ok pattern =>
        let owners := parseOwners line_number raw_owners
        if owners.1 ≠ [] then (owners.1, none)
        else ([], some ⟨pattern, fromKeys owners.2, line_number, validatePattern_idem h⟩)

def parseCodeowners (content : Str) : Except (List CodeownersIssue) CodeownersDocument :=
  let size := utf8Length content
  if MAX_CODEOWNERS_BYTES < size then
    .error [⟨("codeowners_too_large" : Str),
      ("CODEOWNERS is " : Str) ++ decimal size ++ (" bytes; GitHub ignores files larger than " : Str) ++
        decimal MAX_CODEOWNERS_BYTES ++ (" bytes" : Str), none⟩]
  else
    let lines := ((splitlines content).zipIdx 1).map fun l => parseLine l.2 l.1
    let issues := lines.flatMap (·.1)
    if issues ≠ [] then .error issues else .ok ⟨lines.filterMap (·.2)⟩

end

end ExtraCodeowners
