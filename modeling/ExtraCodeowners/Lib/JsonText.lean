import ExtraCodeowners.Lib.Regex

/-!
# The grammar of JSON texts

A derivation relates a text to its syntax tree, which keeps the literals, the
numbers and the strings as they are spelled. `depth` counts the arrays and
objects around the innermost value.
-/

namespace JsonText

inductive Syntax where
  | literal (text : List Char)
  | number (text : List Char)
  | string (body : List Char)
  | array (items : List Syntax)
  | object (members : List (List Char × Syntax))

mutual

def Syntax.depth : Syntax → Nat
  | .array items => depthItems items + 1
  | .object members => depthMembers members + 1
  | _ => 0

def depthItems : List Syntax → Nat
  | [] => 0
  | value :: items => max value.depth (depthItems items)

def depthMembers : List (List Char × Syntax) → Nat
  | [] => 0
  | (_, value) :: members => max value.depth (depthMembers members)

end

def isSpace (c : Char) : Bool := c == ' ' || c == '\t' || c == '\n' || c == '\r'

def Spaces (s : List Char) : Prop := ∀ c ∈ s, isSpace c = true

def isHex (c : Char) : Bool := c.isDigit || ('a' ≤ c && c ≤ 'f') || ('A' ≤ c && c ≤ 'F')

/-- What stands between the quotes of a string. -/
inductive StringBody : List Char → Prop
  | nil : StringBody []
  | plain {c : Char} {s : List Char} (hc : c ≠ '"' ∧ c ≠ '\\' ∧ 0x20 ≤ c.toNat) (hs : StringBody s) :
    StringBody (c :: s)
  | escape {c : Char} {s : List Char} (hc : c ∈ ['"', '\\', '/', 'b', 'f', 'n', 'r', 't'])
    (hs : StringBody s) : StringBody ('\\' :: c :: s)
  | unicode {a b c d : Char} {s : List Char} (h : [a, b, c, d].all isHex = true) (hs : StringBody s) :
    StringBody ('\\' :: 'u' :: a :: b :: c :: d :: s)

/-- `-?(0|[1-9][0-9]*)(\.[0-9]+)?([eE][+-]?[0-9]+)?` -/
def numberRe : Regex Char :=
  let digit : Regex Char := .sat Char.isDigit
  .seq [.opt (.sat (· == '-')),
    .alt (.sat (· == '0')) (.seq [.sat fun c => c.isDigit && c != '0', .star digit]),
    .opt (.seq [.sat (· == '.'), digit, .star digit]),
    .opt (.seq [.sat fun c => c == 'e' || c == 'E', .opt (.sat fun c => c == '+' || c == '-'), digit,
      .star digit])]

def literals : List (List Char) := [['n', 'u', 'l', 'l'], ['t', 'r', 'u', 'e'], ['f', 'a', 'l', 's', 'e']]

mutual

inductive IsValue : List Char → Syntax → Prop
  | literal {s : List Char} (h : s ∈ literals) : IsValue s (.literal s)
  | number {s : List Char} (h : numberRe.fullmatch s = true) : IsValue s (.number s)
  | string {s : List Char} (h : StringBody s) : IsValue ('"' :: (s ++ ['"'])) (.string s)
  | emptyArray {w : List Char} (h : Spaces w) : IsValue ('[' :: (w ++ [']'])) (.array [])
  | array {s : List Char} {items : List Syntax} (h : IsItems s items) :
    IsValue ('[' :: (s ++ [']'])) (.array items)
  | emptyObject {w : List Char} (h : Spaces w) : IsValue ('{' :: (w ++ ['}'])) (.object [])
  | object {s : List Char} {members : List (List Char × Syntax)} (h : IsMembers s members) :
    IsValue ('{' :: (s ++ ['}'])) (.object members)

/-- A value between spaces; the texts are the ones that are all one such value. -/
inductive IsText : List Char → Syntax → Prop
  | intro {before s after : List Char} {value : Syntax} (hb : Spaces before) (h : IsValue s value)
    (ha : Spaces after) : IsText (before ++ (s ++ after)) value

inductive IsItems : List Char → List Syntax → Prop
  | one {s : List Char} {value : Syntax} (h : IsText s value) : IsItems s [value]
  | more {s t : List Char} {value : Syntax} {items : List Syntax} (h : IsText s value)
    (ht : IsItems t items) : IsItems (s ++ ',' :: t) (value :: items)

inductive IsMember : List Char → List Char × Syntax → Prop
  | intro {before name after s : List Char} {value : Syntax} (hb : Spaces before) (hn : StringBody name)
    (ha : Spaces after) (h : IsText s value) :
    IsMember (before ++ ('"' :: (name ++ ['"']) ++ (after ++ ':' :: s))) (name, value)

inductive IsMembers : List Char → List (List Char × Syntax) → Prop
  | one {s : List Char} {member : List Char × Syntax} (h : IsMember s member) : IsMembers s [member]
  | more {s t : List Char} {member : List Char × Syntax} {members : List (List Char × Syntax)}
    (h : IsMember s member) (ht : IsMembers t members) : IsMembers (s ++ ',' :: t) (member :: members)

end

/-! ## Delimiters -/

/-- A character that opens or closes nothing. -/
def Plain (c : Char) : Prop := c ∉ ['"', '[', '{', ']', '}']

instance (c : Char) : Decidable (Plain c) := inferInstanceAs (Decidable (c ∉ _))

theorem plain_of_isDigit {c : Char} (h : c.isDigit = true) : Plain c := by
  intro hc
  simp only [List.mem_cons, List.not_mem_nil, or_false] at hc
  rcases hc with rfl | rfl | rfl | rfl | rfl <;> exact absurd h (by decide)

theorem plain_of_isSpace {c : Char} (h : isSpace c = true) : Plain c := by
  simp only [isSpace, Bool.or_eq_true, beq_iff_eq] at h
  rcases h with ((rfl | rfl) | rfl) | rfl <;> decide

theorem plain_of_number {s : List Char} (h : numberRe.fullmatch s = true) : ∀ c ∈ s, Plain c := by
  refine Regex.forall_mem_of_within ?_ ((Regex.fullmatch_iff _ _).mp h)
  have hdigit : ∀ c : Char, c.isDigit = true → Plain c := fun _ => plain_of_isDigit
  have hone : ∀ d : Char, Plain d → ∀ c, (c == d) = true → Plain c := by
    intro d hd c hc
    rw [beq_iff_eq.mp hc]
    exact hd
  have htwo : ∀ d e : Char, Plain d → Plain e → ∀ c, (c == d || c == e) = true → Plain c := by
    intro d e hd he c hc
    rcases Bool.or_eq_true _ _ ▸ hc with hc | hc
    · exact hone d hd c hc
    · exact hone e he c hc
  have hhead : ∀ c : Char, (c.isDigit && c != '0') = true → Plain c := by
    intro c hc
    exact hdigit c ((Bool.and_eq_true _ _).mp hc).1
  simp only [numberRe, Regex.seq, Regex.opt, List.foldr_cons, List.foldr_nil, Regex.Within, true_and,
    and_true]
  exact ⟨hone _ (by decide), ⟨hone _ (by decide), hhead, hdigit⟩, ⟨hone _ (by decide), hdigit, hdigit⟩,
    htwo _ _ (by decide) (by decide), htwo _ _ (by decide) (by decide), hdigit, hdigit⟩

theorem plain_of_literal {s : List Char} (h : s ∈ literals) : ∀ c ∈ s, Plain c := by
  have hall : literals.all (fun s => s.all fun c => decide (Plain c)) = true := by decide
  simpa using List.all_eq_true.mp hall s h

end JsonText
