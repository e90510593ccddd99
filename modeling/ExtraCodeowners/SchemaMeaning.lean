import ExtraCodeowners.SchemaExpression

/-!
# The meaning of schema predicates

A grammar of the accepted texts, with what each operand denotes, and the truth
of a predicate on a row. Neither refers to the reader, which forgets the quotes
and the letter case of an operand.
-/

namespace ExtraCodeowners

/-! ## Predicates -/

inductive SqlAtom where
  | column (name : Str)
  | text (value : Str)
  | integer (digits : Str)
deriving DecidableEq

/-- An operand and the casts around it, without those to a text of any length. -/
structure SqlOperand where
  atom : SqlAtom
  casts : List Str
deriving DecidableEq

abbrev SqlPredicate := SchemaContract SqlOperand

def SqlAtom.bare (atom : SqlAtom) : SqlOperand := ⟨atom, []⟩

/-- What the reader keeps of an operand. -/
def SqlAtom.folded : SqlAtom → Str
  | .column name => lowered name
  | .text value => lowered value
  | .integer digits => lowered digits

def SqlOperand.folded (operand : SqlOperand) : Str := operand.atom.folded

section
variable {α β : Type}

mutual

def SchemaContract.map (f : α → β) : SchemaContract α → SchemaContract β
  | .comparison left operator right => .comparison (f left) operator (f right)
  | .isIn left values => .isIn (f left) (values.map f)
  | .all terms => .all (mapTerms f terms)

def mapTerms (f : α → β) : List (SchemaContract α) → List (SchemaContract β)
  | [] => []
  | term :: terms => term.map f :: mapTerms f terms

end

mutual

def SchemaContract.operands : SchemaContract α → List α
  | .comparison left _ right => [left, right]
  | .isIn left values => left :: values
  | .all terms => termsOperands terms

def termsOperands : List (SchemaContract α) → List α
  | [] => []
  | term :: terms => term.operands ++ termsOperands terms

end

end

/-! ## Truth on a row -/

inductive SqlValue where
  | null
  | integer (n : Int)
  | text (value : Str)
deriving DecidableEq

/-- The values of a row, by the exact names of its columns. -/
abbrev SqlRow := Str → SqlValue

/-- Texts are ordered by code points and come behind the integers. -/
def SqlValue.compare : SqlValue → SqlValue → Option Ordering
  | .null, _ => none
  | _, .null => none
  | .integer m, .integer n => some (if m < n then .lt else if m = n then .eq else .gt)
  | .integer _, .text _ => some .lt
  | .text _, .integer _ => some .gt
  | .text s, .text t => some (if s < t then .lt else if s = t then .eq else .gt)

def SchemaOperator.holds : SchemaOperator → Ordering → Bool
  | .ge, o => o != .lt
  | .le, o => o != .gt
  | .eq, o => o == .eq
  | .lt, o => o == .lt
  | .gt, o => o == .gt

/-- `AND`, where `none` is unknown. -/
def allOf (values : List (Option Bool)) : Option Bool :=
  if some false ∈ values then some false else if none ∈ values then none else some true

/-- `OR`, where `none` is unknown. -/
def anyOf (values : List (Option Bool)) : Option Bool :=
  if some true ∈ values then some true else if none ∈ values then none else some false

section
variable (cast : Str → SqlValue → SqlValue) (row : SqlRow)

def SqlAtom.value : SqlAtom → SqlValue
  | .column name => row name
  | .text value => .text value
  | .integer digits => .integer (Nat.ofDigitChars 10 digits 0)

def SqlOperand.value (operand : SqlOperand) : SqlValue :=
  operand.casts.foldl (fun value type => cast type value) (operand.atom.value row)

def compared (operator : SchemaOperator) (left right : SqlOperand) : Option Bool :=
  ((left.value cast row).compare (right.value cast row)).map operator.holds

mutual

def SchemaContract.truth : SqlPredicate → Option Bool
  | .comparison left operator right => compared cast row operator left right
  | .isIn left values => anyOf (values.map fun value => compared cast row .eq left value)
  | .all terms => allOf (termsTruth terms)

def termsTruth : List SqlPredicate → List (Option Bool)
  | [] => []
  | term :: terms => term.truth :: termsTruth terms

end

end

/-! ## Tokens of a text -/

def isIdentifier : Str → Bool
  | [] => false
  | c :: s => isWordHead c && s.all isWordTail

def isInteger : Str → Bool
  | [] => false
  | c :: s => c.isDigit && s.all Char.isDigit

/-- The token `t` in front of `rest`, no longer and no shorter. -/
inductive Lexeme : Str → Str → Prop
  | symbol {c : Char} {rest : Str} (hc : c ∈ ['=', '(', ')', ',']) : Lexeme [c] rest
  | strict {c : Char} {rest : Str} (hc : c = '<' ∨ c = '>') (hr : rest.head? ≠ some '=') :
    Lexeme [c] rest
  | lax {c : Char} {rest : Str} (hc : c = '<' ∨ c = '>') : Lexeme [c, '='] rest
  | identifier {t rest : Str} (ht : isIdentifier t = true) (hr : rest.head?.any isWordTail = false) :
    Lexeme t rest
  | integer {t rest : Str} (ht : isInteger t = true) (hr : rest.head?.any Char.isDigit = false) :
    Lexeme t rest
  | quoted {q : Char} {t rest : Str} (hq : q = '"' ∨ q = '\'') (ht : isWord t = true)
    (hr : rest.head? ≠ some q) : Lexeme (q :: (t ++ [q])) rest

inductive Lexes : Str → List Str → Prop
  | nil : Lexes [] []
  | cons {w t s : Str} {ts : List Str} (hw : ∀ c ∈ w, isSpace c = true) (ht : Lexeme t s)
    (hs : Lexes s ts) : Lexes (w ++ (t ++ s)) (t :: ts)

/-! ## The grammar -/

/-- An identifier is a column in any letter case, a quoted one in its own. -/
inductive SpellsAtom : Str → SqlAtom → Prop
  | name {t : Str} (h : isIdentifier t = true) : SpellsAtom t (.column (lowered t))
  | quoted {t : Str} (h : isWord t = true) : SpellsAtom ('"' :: (t ++ ['"'])) (.column t)
  | text {t : Str} (h : isWord t = true) : SpellsAtom ('\'' :: (t ++ ['\''])) (.text t)
  | integer {t : Str} (h : isInteger t = true) : SpellsAtom t (.integer t)

def commaBefore (tokens : List Str) : List Str := tokens.flatMap fun token => [[','], token]

inductive IsComparison : List Str → SqlPredicate → Prop
  | comparison {l r : Str} {a b : SqlAtom} (operator : SchemaOperator) (hl : SpellsAtom l a)
    (hr : SpellsAtom r b) : IsComparison [l, operator.token, r] (.comparison a.bare operator b.bare)
  | isIn {l k t : Str} {a b : SqlAtom} {ts : List Str} {bs : List SqlAtom} (hl : SpellsAtom l a)
    (hk : lowered k = ("in" : Str)) (ht : SpellsAtom t b) (hts : List.Forall₂ SpellsAtom ts bs) :
    IsComparison (l :: k :: ['('] :: t :: (commaBefore ts ++ [[')']]))
      (.isIn a.bare (b.bare :: bs.map SqlAtom.bare))

mutual

inductive IsTerm : List Str → SqlPredicate → Prop
  | comparison {ts : List Str} {p : SqlPredicate} (h : IsComparison ts p) : IsTerm ts p
  | parens {ts : List Str} {p : SqlPredicate} (h : IsExpression ts p) : IsTerm (['('] :: (ts ++ [[')']])) p

inductive IsExpression : List Str → SqlPredicate → Prop
  | term {ts : List Str} {p : SqlPredicate} (h : IsTerm ts p) : IsExpression ts p
  | all {ts us : List Str} {p q : SqlPredicate} {qs : List SqlPredicate} (h : IsTerm ts p)
    (hq : IsTerms us (q :: qs)) : IsExpression (ts ++ us) (.all (p :: q :: qs))

inductive IsTerms : List Str → List SqlPredicate → Prop
  | nil : IsTerms [] []
  | cons {k : Str} {ts us : List Str} {p : SqlPredicate} {ps : List SqlPredicate}
    (hk : lowered k = ("and" : Str)) (h : IsTerm ts p) (hs : IsTerms us ps) :
    IsTerms (k :: (ts ++ us)) (p :: ps)

end

/-! ## PostgreSQL's form -/

def IsTypeName (s : Str) : Prop := postgresqlTypeNameIsValid (strip s) = true

/-- The types whose casts leave a text as it is. -/
def TEXT_TYPES : List Str := [("text" : Str), ("character varying" : Str), ("varchar" : Str)]

def castsOf (types : List Str) : List Str := types.filter (· ∉ TEXT_TYPES)

inductive IsCasts : Str → List Str → Prop
  | one {n : Str} (hn : IsTypeName n) : IsCasts (':' :: ':' :: n) [strip n]
  | more {n s : Str} {types : List Str} (hn : IsTypeName n) (hs : IsCasts s types) :
    IsCasts (':' :: ':' :: (n ++ s)) (strip n :: types)

inductive IsArrayItem : Str → Str → List Str → Prop
  | intro {w v w' s : Str} {types : List Str} (hw : ∀ c ∈ w, isSpace c = true) (hv : isWord v = true)
    (hw' : ∀ c ∈ w', isSpace c = true) (hs : IsCasts s types) :
    IsArrayItem (w ++ '\'' :: (v ++ '\'' :: (w' ++ s))) v types

inductive IsArrayItems : Str → List (Str × List Str) → Prop
  | one {s v : Str} {types : List Str} (h : IsArrayItem s v types) : IsArrayItems s [(v, types)]
  | more {s t v : Str} {types : List Str} {items : List (Str × List Str)} (h : IsArrayItem s v types)
    (ht : IsArrayItems t items) : IsArrayItems (s ++ ',' :: t) ((v, types) :: items)

/-- What follows the bracket: nothing, or a cast of the whole array. -/
inductive IsArrayCast : Str → List Str → Prop
  | none {w : Str} (hw : ∀ c ∈ w, isSpace c = true) : IsArrayCast w []
  | cast {w n w' : Str} (hw : ∀ c ∈ w, isSpace c = true) (hn : IsTypeName n)
    (hw' : ∀ c ∈ w', isSpace c = true) :
    IsArrayCast (w ++ ':' :: ':' :: (n ++ '[' :: ']' :: w')) [strip n]

/-- The operands of the items, which a cast of the array reaches too. -/
def arrayOperands (items : List (Str × List Str)) (arrayTypes : List Str) : List SqlOperand :=
  items.map fun item => ⟨.text item.1, castsOf (item.2 ++ arrayTypes)⟩

/-- `column::type = ANY (ARRAY['value'::type, ...]::type[])` -/
inductive IsAnyArray : Str → SqlPredicate → Prop
  | intro {c w₁ n w₂ k w₃ w₄ k' s t : Str} {a : SqlAtom} {items : List (Str × List Str)}
    {arrayTypes : List Str} (hc : SpellsAtom c a) (hw₁ : ∀ c ∈ w₁, isSpace c = true)
    (hn : IsTypeName n) (hw₂ : ∀ c ∈ w₂, isSpace c = true) (hk : lowered k = ("any" : Str))
    (hw₃ : ∀ c ∈ w₃, isSpace c = true) (hw₄ : ∀ c ∈ w₄, isSpace c = true)
    (hk' : lowered k' = ("array" : Str)) (hs : IsArrayItems s items) (ht : IsArrayCast t arrayTypes) :
    IsAnyArray (c ++ w₁ ++ (':' :: ':' :: n) ++ '=' :: w₂ ++ k ++ w₃ ++ '(' :: w₄ ++ k' ++
      '[' :: s ++ ']' :: t ++ [(')' : Char)])
      (.isIn ⟨a, castsOf [strip n]⟩ (arrayOperands items arrayTypes))

/-- The text is a predicate of the accepted grammar. -/
inductive Writes : Str → SqlPredicate → Prop
  | plain {a : Str} {ts : List Str} {p : SqlPredicate} (hl : Lexes (strip a) ts) (h : IsExpression ts p) :
    Writes a p
  | anyArray {a : Str} {p : SqlPredicate} (h : IsAnyArray (strip a) p) : Writes a p

end ExtraCodeowners
