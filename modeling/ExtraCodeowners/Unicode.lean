import ExtraCodeowners.Text

/-!
# The Unicode tables of the interpreter

ASCII is spelled out. Beyond it `UnicodeTables` stands for the tables, which
differ between versions of Unicode; the controls and the two separators do not.
-/

namespace ExtraCodeowners

/-- The entries beyond ASCII. -/
class UnicodeTables where
  folding : Char → Str
  alnum : Char → Bool
  digit : Char → Option Nat
  /-- The characters of category `Cf`. -/
  format : Char → Bool

/-- No entries: a text beyond ASCII folds to itself. -/
@[reducible] def asciiTables : UnicodeTables where
  folding c := [c]
  alnum _ := false
  digit _ := none
  format _ := false

def isAscii (c : Char) : Bool := c.toNat < 128

section
variable [UnicodeTables]

def casefoldChar (c : Char) : Str := if isAscii c then [c.toLower] else UnicodeTables.folding c

def casefold (s : Str) : Str := s.flatMap casefoldChar

def isAlnum (c : Char) : Bool := if isAscii c then c.isAlphanum else UnicodeTables.alnum c

/-- The value of a decimal digit, the `\d` of a pattern. -/
def digitValue (c : Char) : Option Nat :=
  if isAscii c then if c.isDigit then some (c.toNat - 48) else none else UnicodeTables.digit c

def isDecimal (c : Char) : Bool := (digitValue c).isSome

/-- `int` of a text of decimal digits. -/
def intOfDigits (s : Str) : Nat := s.foldl (fun n c => 10 * n + (digitValue c).getD 0) 0

/-- The categories `Cc`, `Cf`, `Zl` and `Zp`. -/
def isControl (c : Char) : Bool :=
  let n := c.toNat
  n < 32 || (127 ≤ n && n < 160) || n == 0x2028 || n == 0x2029 ||
    (!isAscii c && UnicodeTables.format c)

end

/-! ## ASCII text -/

section
variable [UnicodeTables]

theorem casefold_append (s t : Str) : casefold (s ++ t) = casefold s ++ casefold t := by
  simp [casefold]

theorem casefold_ascii {s : Str} (h : ∀ c ∈ s, isAscii c = true) :
    casefold s = s.map Char.toLower := by
  induction s with
  | nil => rfl
  | cons c s ih =>
    rw [casefold, List.flatMap_cons, casefoldChar, if_pos (h c (by simp))]
    exact congrArg (c.toLower :: ·) (ih fun d hd => h d (by simp [hd]))

omit [UnicodeTables] in
theorem isAscii_of_isDigit {c : Char} (h : c.isDigit = true) : isAscii c = true := by
  rw [isDigit_iff] at h
  simp only [isAscii, decide_eq_true_eq]
  omega

theorem digitValue_of_isDigit {c : Char} (h : c.isDigit = true) :
    digitValue c = some (c.toNat - 48) := by
  rw [digitValue, if_pos (isAscii_of_isDigit h), if_pos h]

theorem isDecimal_of_isDigit {c : Char} (h : c.isDigit = true) : isDecimal c = true := by
  rw [isDecimal, digitValue_of_isDigit h]
  rfl

theorem intOfDigits_ascii {s : Str} (h : ∀ c ∈ s, c.isDigit = true) :
    intOfDigits s = Nat.ofDigitChars 10 s 0 := by
  have key : ∀ (s : Str) (n : Nat), (∀ c ∈ s, c.isDigit = true) →
      s.foldl (fun n c => 10 * n + (digitValue c).getD 0) n = Nat.ofDigitChars 10 s n := by
    intro s
    induction s with
    | nil => intro n _; rw [Nat.ofDigitChars_nil]; rfl
    | cons c s ih =>
      intro n h
      rw [List.foldl_cons, Nat.ofDigitChars_cons, digitValue_of_isDigit (h c (by simp)),
        ih _ fun d hd => h d (by simp [hd])]
      rfl
  exact key s 0 h

end

/-! ## Decimal numerals -/

theorem decimal_eq (n : Nat) : decimal n = Nat.toDigits 10 n := by
  rw [decimal, Nat.toString_eq_ofList_toDigits, String.toList_ofList]

theorem decimal_isDigit {n : Nat} {c : Char} (h : c ∈ decimal n) : c.isDigit = true := by
  rw [decimal_eq] at h
  exact Nat.isDigit_of_mem_toDigits (by decide) (by decide) h

theorem decimal_ne_nil (n : Nat) : decimal n ≠ [] := by
  rw [decimal_eq]
  exact Nat.toDigits_ne_nil

theorem intOfDigits_decimal [UnicodeTables] (n : Nat) : intOfDigits (decimal n) = n := by
  rw [intOfDigits_ascii fun c hc => decimal_isDigit hc, decimal_eq]
  exact Nat.ofDigitChars_ten_toDigits

/-- A numeral begins with a zero only when it is zero. -/
theorem decimal_head {n : Nat} (h : 0 < n) : (decimal n).head? ≠ some '0' := by
  rw [decimal_eq]
  induction n using Nat.strongRecOn with
  | ind n ih =>
    by_cases hn : n < 10
    · rw [Nat.toDigits_of_lt_base hn]
      have hd : ∀ m : Nat, m < 10 → 0 < m → [m.digitChar].head? ≠ some '0' := by decide
      exact hd n hn h
    · rw [Nat.toDigits_of_base_le (by decide) (by omega), List.head?_append_of_ne_nil]
      · exact ih (n / 10) (by omega) (by omega)
      · exact Nat.toDigits_ne_nil

end ExtraCodeowners
