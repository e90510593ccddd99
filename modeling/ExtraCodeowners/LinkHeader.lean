import ExtraCodeowners.Unicode

/-!
# The `Link` header of a page

The splitter of the field, with its states for targets, quotes and escapes, and
the reader of one link, whose parameters a pattern takes one by one.
-/

namespace ExtraCodeowners

/-- `outOfFuel` is the model's own: the loop over the parameters counts down
from the length of what it reads. -/
inductive LinkError where
  | GitHubError (message : Str)
  | outOfFuel
deriving DecidableEq

def MALFORMED_LINK : LinkError := .GitHubError ("GitHub pagination Link header is malformed" : Str)

def REPEATED_PARAMETER : LinkError := .GitHubError ("GitHub pagination Link header repeats a parameter" : Str)

def MULTIPLE_NEXT_LINKS : LinkError :=
  .GitHubError ("GitHub pagination Link header has multiple next links" : Str)

/-! ## Splitting -/

/-- The loop over the characters. `part` is what stands between `start` and the
next one. -/
def splitLinks (in_url in_quote escaped : Bool) (part : Str) : Str → Except LinkError (List Str)
  | [] =>
    if in_url || in_quote || escaped then .error MALFORMED_LINK
    else if strip part = [] then .error MALFORMED_LINK
    else .ok [strip part]
  | c :: s =>
    if in_quote then
      if escaped then splitLinks in_url true false (part ++ [c]) s
      else if c = '\\' then splitLinks in_url true true (part ++ [c]) s
      else splitLinks in_url (c ≠ '"') false (part ++ [c]) s
    else if c = '"' then splitLinks in_url true escaped (part ++ [c]) s
    else if c = '<' then
      if in_url then .error MALFORMED_LINK else splitLinks true in_quote escaped (part ++ [c]) s
    else if c = '>' then
      if in_url then splitLinks false in_quote escaped (part ++ [c]) s else .error MALFORMED_LINK
    else if c = ',' ∧ in_url = false then
      if strip part = [] then .error MALFORMED_LINK
      else
        match splitLinks in_url in_quote escaped [] s with
        | .error error => .error error
        | .ok parts => .ok (strip part :: parts)
    else splitLinks in_url in_quote escaped (part ++ [c]) s

def splitLinkHeader (value : Str) : Except LinkError (List Str) := splitLinks false false false [] value

/-! ## One link -/

/-- `[!#$%&'*+\-.^_`|~0-9A-Za-z]` -/
def isTokenChar (c : Char) : Bool := c.isAlphanum || ("!#$%&'*+-.^_`|~" : Str).contains c

/-- `((?:\\.|[^"\\])*)"`, where the dot is no line feed. -/
def quotedValue : Str → Option (Str × Str)
  | [] => none
  | c :: s =>
    if c = '"' then some ([], s)
    else if c = '\\' then
      match s with
      | [] => none
      | d :: s => if d = '\n' then none else (quotedValue s).map fun (value, rest) => (c :: d :: value, rest)
    else (quotedValue s).map fun (value, rest) => (c :: value, rest)

/-- `re.sub(r"\\(.)", r"\1", value)` -/
def unescape : Str → Str
  | [] => []
  | [c] => [c]
  | c :: d :: s => if c = '\\' ∧ d ≠ '\n' then d :: unescape s else c :: unescape (d :: s)

/-- `[^;,\s]` -/
def isPlainChar (c : Char) : Bool := c != ';' && c != ',' && !isSpace c

/-- The two groups for the value and what follows, without the blanks behind it. -/
def parameterValue (s : Str) : Option (Str × Str) :=
  let quoted := if s.head? = some '"' then quotedValue s.tail else none
  match quoted with
  | some (value, rest) => some (unescape value, rest.dropWhile isSpace)
  | none =>
    if s.takeWhile isPlainChar = [] then none
    else some (s.takeWhile isPlainChar, (s.dropWhile isPlainChar).dropWhile isSpace)

/-- `_LINK_PARAMETER_RE`: the name, the value and the rest of the entry. -/
def linkParameter (s : Str) : Option (Str × Str × Str) :=
  match s with
  | [] => none
  | c :: s =>
    let name := (s.dropWhile isSpace).takeWhile isTokenChar
    if c ≠ ';' ∨ name = [] then none
    else
      match ((s.dropWhile isSpace).dropWhile isTokenChar).dropWhile isSpace with
      | [] => none
      | c :: s =>
        if c ≠ '=' then none
        else (parameterValue (s.dropWhile isSpace)).map fun (value, rest) => (name, value, rest)

section
variable [UnicodeTables]

/-- The loop over the parameters, in the order of the entry. -/
def linkParameters : Nat → List (Str × Str) → Str → Except LinkError (List (Str × Str))
  | _, parameters, [] => .ok parameters
  | 0, _, _ :: _ => .error .outOfFuel
  | fuel + 1, parameters, c :: s =>
    match linkParameter (c :: s) with
    | none => .error MALFORMED_LINK
    | some (name, value, rest) =>
      if casefold name ∈ parameters.map Prod.fst then .error REPEATED_PARAMETER
      else linkParameters fuel (parameters ++ [(casefold name, value)]) rest

/-- `^\s*<([^<>]+)>\s*`: the target and the rest of the entry. -/
def linkTarget (entry : Str) : Option (Str × Str) :=
  match entry.dropWhile isSpace with
  | [] => none
  | c :: s =>
    let target := s.takeWhile fun c => c != '<' && c != '>'
    if c ≠ '<' ∨ target = [] then none
    else
      match s.dropWhile fun c => c != '<' && c != '>' with
      | [] => none
      | c :: rest => if c ≠ '>' then none else some (target, rest.dropWhile isSpace)

/-- The target of an entry and its parameters by their names. -/
def linkEntry (entry : Str) : Except LinkError (Str × List (Str × Str)) :=
  match linkTarget entry with
  | none => .error MALFORMED_LINK
  | some (target, rest) =>
    match linkParameters rest.length [] rest with
    | .error error => .error error
    | .ok parameters => .ok (target, parameters)

/-- `str.split` -/
def words (s : Str) : List Str := (s.splitOnP isSpace).filter (· ≠ [])

/-- Whether `next` is among the relations. -/
def namesNext (parameters : List (Str × Str)) : Bool :=
  ("next" : Str) ∈ words (casefold ((parameters.lookup ("rel" : Str)).getD []))

/-! ## The next link -/

inductive NextLink where
  | absent
  | terminal
  | target (value : Str)
deriving DecidableEq

/-- The loop over the entries. -/
def nextTarget : Option Str → List Str → Except LinkError NextLink
  | none, [] => .ok .terminal
  | some target, [] => .ok (.target target)
  | next_target, entry :: entries =>
    match linkEntry entry with
    | .error error => .error error
    | .ok (target, parameters) =>
      if namesNext parameters = false then nextTarget next_target entries
      else if next_target ≠ none then .error MULTIPLE_NEXT_LINKS
      else nextTarget (some target) entries

/-- `_next_link_target` of the `Link` fields of a response. -/
def nextLinkTarget (values : List Str) : Except LinkError NextLink :=
  if values = [] then .ok .absent
  else
    match splitLinkHeader (join [','] values) with
    | .error error => .error error
    | .ok entries => nextTarget none entries

end

end ExtraCodeowners
