import ExtraCodeowners.Unicode

/-!
# Schema expressions

The reader of the predicates that a database reports for its constraints: a
tokenizer, a rewriter for PostgreSQL's form of an `IN` list, and a parser.
-/

namespace ExtraCodeowners

/-- `outOfFuel` is the model's own: its loops count down from the length of
what they read. -/
inductive SchemaError where
  | RuntimeError (message : Str)
  | outOfFuel

/-! ## Tokens -/

def isWordHead (c : Char) : Bool := c.isAlpha || c == '_'

def isWordTail (c : Char) : Bool := c.isAlphanum || c == '_'

/-- `[A-Za-z_][A-Za-z0-9_]*|[0-9]+` -/
def isWord : Str → Bool
  | [] => false
  | c :: s => (isWordHead c && s.all isWordTail) || (c.isDigit && s.all Char.isDigit)

/-- The rest of a quoted token. A doubled quote belongs to the token, unless the
token then had no end. -/
def quotedToken (q : Char) : Str → Option (Str × Str)
  | [] => none
  | c :: s =>
    if c ≠ q then (quotedToken q s).map fun (token, rest) => (c :: token, rest)
    else
      match s with
      | [] => some ([c], [])
      | d :: s' =>
        if d ≠ q then some ([c], d :: s')
        else
          match quotedToken q s' with
          | some (token, rest) => some (c :: d :: token, rest)
          | none => some ([c], d :: s')

/-- `_SCHEMA_EXPRESSION_TOKEN` -/
def schemaToken (s : Str) : Option (Str × Str) :=
  match s.dropWhile isSpace with
  | [] => none
  | c :: s =>
    if c = '>' ∨ c = '<' then
      if s.head? = some '=' then some ([c, '='], s.tail) else some ([c], s)
    else if c = '=' ∨ c = '(' ∨ c = ')' ∨ c = ',' then some ([c], s)
    else if c = '"' ∨ c = '\'' then (quotedToken c s).map fun (token, rest) => (c :: token, rest)
    else if isWordHead c then some (c :: s.takeWhile isWordTail, s.dropWhile isWordTail)
    else if c.isDigit then some (c :: s.takeWhile Char.isDigit, s.dropWhile Char.isDigit)
    else none

def UNSUPPORTED_EXPRESSION : SchemaError :=
  .RuntimeError ("database schema contains an unsupported SQL expression" : Str)

def schemaTokens : Nat → Str → Except SchemaError (List Str)
  | _, [] => .ok []
  | 0, _ => .error .outOfFuel
  | fuel + 1, c :: s =>
    match schemaToken (c :: s) with
    | none => .error UNSUPPORTED_EXPRESSION
    | some (token, rest) =>
      match schemaTokens fuel rest with
      | .error error => .error error
      | .ok tokens => .ok (token :: tokens)

theorem schemaTokens_step {fuel : Nat} {c : Char} {s token rest : Str} {tokens : List Str}
    (ht : schemaToken (c :: s) = some (token, rest)) (hr : schemaTokens fuel rest = .ok tokens) :
    schemaTokens (fuel + 1) (c :: s) = .ok (token :: tokens) := by
  show (match schemaToken (c :: s) with
    | none => .error UNSUPPORTED_EXPRESSION
    | some (token, rest) =>
      match schemaTokens fuel rest with
      | .error error => .error error
      | .ok tokens => .ok (token :: tokens)) = Except.ok (token :: tokens)
  simp only [ht, hr]

/-! ## PostgreSQL's form of an `IN` list -/

/-- `str.partition` with a separator that occurs. -/
def strPartition (sep : Str) : Str → Option (Str × Str)
  | [] => none
  | c :: s =>
    if sep.isPrefixOf (c :: s) then some ([], (c :: s).drop sep.length)
    else (strPartition sep s).map fun (before, after) => (c :: before, after)

def postgresqlTypeNameIsValid (value : Str) : Bool :=
  let parts := (value.splitOnP isSpace).filter (· ≠ [])
  parts ≠ [] && parts.all fun part =>
    part.all isAscii && (part.head?.any Char.isAlpha) && part.all isWordTail

/-- A literal up to its closing quote; doubled quotes stay doubled. -/
def readLiteral : Str → Option (Str × Str)
  | [] => none
  | c :: s =>
    if c ≠ '\'' then (readLiteral s).map fun (literal, rest) => (c :: literal, rest)
    else
      match s with
      | [] => some ([], [])
      | d :: s' =>
        if d ≠ '\'' then some ([], d :: s')
        else (readLiteral s').map fun (literal, rest) => ('\'' :: '\'' :: literal, rest)

/-- The name of a cast's type, up to a comma or the next cast. -/
def splitTypeName : Str → Str × Str
  | [] => ([], [])
  | c :: s =>
    if c = ',' ∨ [':', ':'].isPrefixOf (c :: s) then ([], c :: s)
    else (c :: (splitTypeName s).1, (splitTypeName s).2)

/-- The casts after a literal, counted. -/
def readCasts : Nat → Nat → Str → Option (Nat × Str)
  | 0, _, _ => none
  | fuel + 1, cast_count, s =>
    let s := s.dropWhile isSpace
    if [':', ':'].isPrefixOf s then
      let (name, rest) := splitTypeName (s.drop 2)
      if postgresqlTypeNameIsValid (strip name) then readCasts fuel (cast_count + 1) rest else none
    else some (cast_count, s)

def postgresqlAnyArrayValues : Nat → Str → Option (List Str)
  | 0, _ => none
  | fuel + 1, source =>
    match source.dropWhile isSpace with
    | [] => none
    | c :: s =>
      if c ≠ '\'' then none
      else
        match readLiteral s with
        | none => none
        | some (literal, s) =>
          match readCasts (s.length + 1) 0 s with
          | none => none
          | some (cast_count, s) =>
            if cast_count = 0 then none
            else
              let value := '\'' :: (literal ++ ['\''])
              match s.dropWhile isSpace with
              | [] => some [value]
              | d :: s => if d ≠ ',' then none else (postgresqlAnyArrayValues fuel s).map (value :: ·)

/-- The elements of an array up to its bracket, and what follows. The quote
after a quote that is followed by one closes the string for this scan. -/
def splitArray : Bool → Str → Option (Str × Str)
  | _, [] => none
  | in_string, c :: s =>
    if c ≠ '\'' then
      if c = ']' ∧ in_string = false then some ([], s)
      else (splitArray in_string s).map fun (elements, rest) => (c :: elements, rest)
    else
      let in_string := if in_string = true ∧ s.head? = some '\'' then in_string else !in_string
      (splitArray in_string s).map fun (elements, rest) => (c :: elements, rest)

def normalizePostgresqlAnyArrayCheck [UnicodeTables] (source : Str) : Option Str :=
  match strPartition ['='] source with
  | none => none
  | some (left, right) =>
    match strPartition [':', ':'] (strip left) with
    | none => none
    | some (column, column_type) =>
      let any_expression := strip right
      let array_expression := strip (any_expression.drop 3)
      let inner := strip array_expression.tail.dropLast
      if !postgresqlTypeNameIsValid (strip column_type) then none
      else if casefold (any_expression.take 3) ≠ ("any" : Str) then none
      else if !(startsWith '(' array_expression && endsWith ')' array_expression) then none
      else if casefold (inner.take 6) ≠ ("array[" : Str) then none
      else
        match splitArray false (inner.drop 6) with
        | none => none
        | some (elements, rest) =>
          let array_type := strip rest
          if array_type ≠ [] ∧ !([':', ':'].isPrefixOf array_type && ['[', ']'].isSuffixOf array_type &&
              postgresqlTypeNameIsValid (strip (array_type.drop 2).dropLast.dropLast)) then none
          else
            match postgresqlAnyArrayValues (elements.length + 1) elements with
            | none => none
            | some values =>
              some (column ++ (" IN (" : Str) ++ join (", " : Str) values ++ [(')' : Char)])

/-! ## The parser -/

inductive SchemaOperator where
  | ge
  | le
  | eq
  | lt
  | gt
  deriving DecidableEq

def SchemaOperator.token : SchemaOperator → Str
  | ge => (">=" : Str)
  | le => ("<=" : Str)
  | eq => ['=']
  | lt => ['<']
  | gt => ['>']

def SchemaOperator.ofToken (token : Str) : Option SchemaOperator :=
  [ge, le, eq, lt, gt].find? fun operator => operator.token = token

/-- The nested tuples of a contract, over what an operand is read as. -/
inductive SchemaContract (α : Type) where
  | comparison (left : α) (operator : SchemaOperator) (right : α)
  | isIn (left : α) (values : List α)
  | all (terms : List (SchemaContract α))

/-- `str.replace` of a doubled quote by one. -/
def undouble (q : Char) : Str → Str
  | [] => []
  | [c] => [c]
  | c :: d :: s => if c = q ∧ d = q then q :: undouble q s else c :: undouble q (d :: s)

def isQuotedBy (q : Char) (token : Str) : Bool := startsWith q token && endsWith q token

def unquote (token : Str) : Str :=
  if isQuotedBy '"' token then undouble '"' token.tail.dropLast
  else if isQuotedBy '\'' token then undouble '\'' token.tail.dropLast
  else token

def UNSUPPORTED_OPERAND : SchemaError :=
  .RuntimeError ("database schema contains an unsupported SQL operand" : Str)

def schemaOperand (token : Str) : Except SchemaError Str :=
  if isWord (unquote token) then .ok ((unquote token).map Char.toLower) else .error UNSUPPORTED_OPERAND

def lowered (token : Str) : Str := token.map Char.toLower

def INCOMPLETE : SchemaError :=
  .RuntimeError ("database schema contains an incomplete SQL expression" : Str)

def takeOperand : List Str → Except SchemaError (Str × List Str)
  | [] => .error INCOMPLETE
  | token :: rest =>
    match schemaOperand token with
    | .error error => .error error
    | .ok value => .ok (value, rest)

def INVALID_IN : SchemaError :=
  .RuntimeError ("database schema contains an invalid SQL IN expression" : Str)

/-- The values after the first one of an `IN` list. -/
def moreValues : List Str → Except SchemaError (List Str × List Str)
  | [] => .ok ([], [])
  | [token] => if token = [','] then .error INCOMPLETE else .ok ([], [token])
  | token :: value :: rest =>
    if token = [','] then
      match schemaOperand value with
      | .error error => .error error
      | .ok value =>
        match moreValues rest with
        | .error error => .error error
        | .ok (values, rest) => .ok (value :: values, rest)
    else .ok ([], token :: value :: rest)

def inValues (left : Str) (tokens : List Str) : Except SchemaError (SchemaContract Str × List Str) :=
  match tokens with
  | [] => .error INVALID_IN
  | token :: rest =>
    if token ≠ ['('] then .error INVALID_IN
    else
      match takeOperand rest with
      | .error error => .error error
      | .ok (first, rest) =>
        match moreValues rest with
        | .error error => .error error
        | .ok (_, []) => .error INVALID_IN
        | .ok (values, token :: rest) =>
          if token ≠ [')'] then .error INVALID_IN else .ok (.isIn left (first :: values), rest)

def UNSUPPORTED_COMPARISON : SchemaError :=
  .RuntimeError ("database schema contains an unsupported SQL comparison" : Str)

def schemaComparison (tokens : List Str) : Except SchemaError (SchemaContract Str × List Str) :=
  match takeOperand tokens with
  | .error error => .error error
  | .ok (_, []) => .error UNSUPPORTED_COMPARISON
  | .ok (left, token :: rest) =>
    if lowered token = ("in" : Str) then inValues left rest
    else
      match SchemaOperator.ofToken token with
      | none => .error UNSUPPORTED_COMPARISON
      | some operator =>
        match takeOperand rest with
        | .error error => .error error
        | .ok (right, rest) => .ok (.comparison left operator right, rest)

def UNBALANCED : SchemaError :=
  .RuntimeError ("database schema contains unbalanced SQL parentheses" : Str)

mutual

def schemaExpression : Nat → List Str → Except SchemaError (SchemaContract Str × List Str)
  | 0, _ => .error .outOfFuel
  | fuel + 1, tokens =>
    match schemaTerm fuel tokens with
    | .error error => .error error
    | .ok (first, rest) =>
      match moreTerms fuel rest with
      | .error error => .error error
      | .ok ([], rest) => .ok (first, rest)
      | .ok (second :: terms, rest) => .ok (.all (first :: second :: terms), rest)

def schemaTerm : Nat → List Str → Except SchemaError (SchemaContract Str × List Str)
  | 0, _ => .error .outOfFuel
  | _ + 1, [] => schemaComparison []
  | fuel + 1, token :: rest =>
    if token = ['('] then
      match schemaExpression fuel rest with
      | .error error => .error error
      | .ok (_, []) => .error UNBALANCED
      | .ok (result, token :: rest) => if token ≠ [')'] then .error UNBALANCED else .ok (result, rest)
    else schemaComparison (token :: rest)

def moreTerms : Nat → List Str → Except SchemaError (List (SchemaContract Str) × List Str)
  | 0, _ => .error .outOfFuel
  | _ + 1, [] => .ok ([], [])
  | fuel + 1, token :: rest =>
    if lowered token = ("and" : Str) then
      match schemaTerm fuel rest with
      | .error error => .error error
      | .ok (term, rest) =>
        match moreTerms fuel rest with
        | .error error => .error error
        | .ok (terms, rest) => .ok (term :: terms, rest)
    else .ok ([], token :: rest)

end

def normalizeSchemaExpression [UnicodeTables] :
    Option Str → Except SchemaError (Option (SchemaContract Str))
  | none => .ok none
  | some value =>
    let source := (normalizePostgresqlAnyArrayCheck (strip value)).getD (strip value)
    match schemaTokens source.length source with
    | .error error => .error error
    | .ok tokens =>
      match schemaExpression (2 * tokens.length + 2) tokens with
      | .error error => .error error
      | .ok (contract, []) => .ok (some contract)
      | .ok (_, _ :: _) => .error UNSUPPORTED_EXPRESSION

end ExtraCodeowners
