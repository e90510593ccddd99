import ExtraCodeowners.SchemaMeaning

/-!
# The reader and the grammar of schema predicates

The tokenizer yields the tokens that a text is spelled with, and the parser
reads every expression of the grammar to its end. It returns the predicate
without the quotes and the letter case of the operands.
-/

namespace ExtraCodeowners

/-! ## Words -/

theorem isWord_iff {t : Str} : isWord t = true ↔ isIdentifier t = true ∨ isInteger t = true := by
  cases t with
  | nil => simp [isWord, isIdentifier, isInteger]
  | cons c s => simp [isWord, isIdentifier, isInteger]

theorem isWordTail_iff {c : Char} : isWordTail c = true ↔
    (65 ≤ c.toNat ∧ c.toNat ≤ 90) ∨ (97 ≤ c.toNat ∧ c.toNat ≤ 122) ∨ (48 ≤ c.toNat ∧ c.toNat ≤ 57) ∨
      c = '_' := by
  rw [isWordTail, Bool.or_eq_true, isAlphanum_iff, beq_iff_eq]
  simp only [or_assoc]

theorem isWordTail_of_alpha {c : Char} (h : c.isAlpha = true) : isWordTail c = true := by
  have he : c.isAlphanum = (c.isAlpha || c.isDigit) := rfl
  simp [isWordTail, he, h]

theorem isWordTail_of_head {c : Char} (h : isWordHead c = true) : isWordTail c = true := by
  rw [isWordHead, Bool.or_eq_true] at h
  rcases h with h | h
  · exact isWordTail_of_alpha h
  · simp [isWordTail, h]

theorem isWordTail_of_digit {c : Char} (h : c.isDigit = true) : isWordTail c = true := by
  have he : c.isAlphanum = (c.isAlpha || c.isDigit) := rfl
  simp [isWordTail, he, h]

theorem isWordHead_of_digit {c : Char} (h : c.isDigit = true) : isWordHead c = false := by
  rw [← Bool.not_eq_true, isWordHead, Bool.or_eq_true, isAlpha_iff, beq_iff_eq]
  rw [isDigit_iff] at h
  intro hh
  rcases hh with hh | rfl
  · omega
  · exact absurd h.2 (by decide)

theorem isWordTail_of_identifier {t : Str} (h : isIdentifier t = true) : ∀ c ∈ t, isWordTail c = true := by
  cases t with
  | nil => simp
  | cons c s =>
    rw [isIdentifier, Bool.and_eq_true, List.all_eq_true] at h
    rw [List.forall_mem_cons]
    exact ⟨isWordTail_of_head h.1, h.2⟩

theorem isDigit_of_integer {t : Str} (h : isInteger t = true) : ∀ c ∈ t, c.isDigit = true := by
  cases t with
  | nil => simp
  | cons c s =>
    rw [isInteger, Bool.and_eq_true, List.all_eq_true] at h
    rw [List.forall_mem_cons]
    exact h

theorem isWordTail_of_word {t : Str} (h : isWord t = true) : ∀ c ∈ t, isWordTail c = true := by
  rcases isWord_iff.mp h with h | h
  · exact isWordTail_of_identifier h
  · exact fun c hc => isWordTail_of_digit (isDigit_of_integer h c hc)

theorem word_ne_nil {t : Str} (h : isWord t = true) : t ≠ [] := by
  intro he
  rw [he] at h
  cases h

theorem not_mem_word {t : Str} (ht : isWord t = true) {c : Char} (hc : isWordTail c = false) : c ∉ t := by
  intro hm
  rw [isWordTail_of_word ht c hm] at hc
  cases hc

theorem isSpace_wordTail {c : Char} (h : isWordTail c = true) : isSpace c = false := by
  rw [isWordTail_iff] at h
  have hu : '_'.toNat = 95 := rfl
  have hn : 48 ≤ c.toNat ∧ c.toNat ≤ 122 := by
    rcases h with h | h | h | h
    · omega
    · omega
    · omega
    · rw [h, hu]
      omega
  simp only [isSpace, Bool.or_eq_false_iff, Bool.and_eq_false_iff, decide_eq_false_iff_not, beq_eq_false_iff_ne]
  omega

/-! ## Operands -/

theorem undouble_of_not_mem {q : Char} {t : Str} (h : q ∉ t) : undouble q t = t := by
  induction t with
  | nil => rfl
  | cons c t ih =>
    rw [List.mem_cons, not_or] at h
    cases t with
    | nil => rfl
    | cons d t =>
      rw [undouble, if_neg fun he => h.1 he.1.symm, ih h.2]

theorem isQuotedBy_quoted (q : Char) (t : Str) : isQuotedBy q (q :: (t ++ [q])) = true := by
  have hlast : (q :: (t ++ [q])).getLast? = some q := by
    rw [← List.cons_append]
    exact List.getLast?_concat
  simp [isQuotedBy, startsWith, endsWith, hlast]

theorem isQuotedBy_of_ne {q c : Char} {t : Str} (h : c ≠ q) : isQuotedBy q (c :: t) = false := by
  simp [isQuotedBy, startsWith, h]

theorem unquote_quoted {q : Char} {t : Str} (hq : q = '"' ∨ q = '\'') (ht : isWord t = true) :
    unquote (q :: (t ++ [q])) = t := by
  have hn : ∀ c, c = '"' ∨ c = '\'' → c ∉ t := by
    intro c hc
    rcases hc with rfl | rfl
    · exact not_mem_word ht (by decide)
    · exact not_mem_word ht (by decide)
  have hbody : (q :: (t ++ [q])).tail.dropLast = t := by simp
  rcases hq with rfl | rfl
  · rw [unquote, if_pos (isQuotedBy_quoted _ t), hbody, undouble_of_not_mem (hn _ (.inl rfl))]
  · rw [unquote, if_neg (by rw [isQuotedBy_of_ne (by decide)]; simp), if_pos (isQuotedBy_quoted _ t), hbody,
      undouble_of_not_mem (hn _ (.inr rfl))]

theorem unquote_word {t : Str} (ht : isWord t = true) : unquote t = t := by
  cases t with
  | nil => rfl
  | cons c s =>
    have hc : isWordTail c = true := isWordTail_of_word ht c (by simp)
    have hne : ∀ q, isWordTail q = false → c ≠ q := by
      intro q hq he
      rw [he, hq] at hc
      cases hc
    rw [unquote, isQuotedBy_of_ne (hne '"' (by decide)), isQuotedBy_of_ne (hne '\'' (by decide))]
    rfl

theorem schemaOperand_of_word {t w : Str} (ht : unquote t = w) (hw : isWord w = true) :
    schemaOperand t = .ok (lowered w) := by
  rw [schemaOperand, ht, if_pos hw]
  rfl

theorem lowered_lowered (s : Str) : lowered (lowered s) = lowered s := by
  rw [lowered, lowered, List.map_map]
  exact List.map_congr_left fun c _ => toLower_toLower c

/-- The reader keeps of a spelled operand what it denotes, folded. -/
theorem schemaOperand_spells {t : Str} {a : SqlAtom} (h : SpellsAtom t a) : schemaOperand t = .ok a.folded := by
  cases h with
  | name h =>
    have hw : isWord t = true := isWord_iff.mpr (.inl h)
    rw [schemaOperand_of_word (unquote_word hw) hw, SqlAtom.folded, lowered_lowered]
  | quoted h => exact schemaOperand_of_word (unquote_quoted (.inl rfl) h) h
  | text h => exact schemaOperand_of_word (unquote_quoted (.inr rfl) h) h
  | integer h =>
    have hw : isWord t = true := isWord_iff.mpr (.inr h)
    exact schemaOperand_of_word (unquote_word hw) hw

theorem spells_ne_paren {t : Str} {a : SqlAtom} (h : SpellsAtom t a) : t ≠ ['('] := by
  intro he
  have ho := schemaOperand_spells h
  rw [he] at ho
  cases ho

theorem spells_word {t : Str} {a : SqlAtom} (h : SpellsAtom t a) :
    ∃ w, isWord w = true ∧ lowered w = a.folded := by
  cases h with
  | name h => exact ⟨t, isWord_iff.mpr (.inl h), (lowered_lowered t).symm⟩
  | quoted h => exact ⟨_, h, rfl⟩
  | text h => exact ⟨_, h, rfl⟩
  | integer h => exact ⟨t, isWord_iff.mpr (.inr h), rfl⟩

/-! ## The parser reads the grammar -/

theorem takeOperand_spells {t : Str} {a : SqlAtom} (h : SpellsAtom t a) (rest : List Str) :
    takeOperand (t :: rest) = .ok (a.folded, rest) := by
  rw [takeOperand, schemaOperand_spells h]

theorem moreValues_spells {ts : List Str} {bs : List SqlAtom} (h : List.Forall₂ SpellsAtom ts bs)
    (rest : List Str) :
    moreValues (commaBefore ts ++ [')'] :: rest) = .ok (bs.map SqlAtom.folded, [')'] :: rest) := by
  induction h with
  | nil =>
    cases rest with
    | nil => rfl
    | cons t rest => rfl
  | @cons t b ts bs ht _ ih =>
    show moreValues ([','] :: t :: (commaBefore ts ++ [')'] :: rest)) = _
    rw [moreValues, if_pos rfl, schemaOperand_spells ht, ih]
    rfl

theorem inValues_spells {t : Str} {b : SqlAtom} {ts : List Str} {bs : List SqlAtom} (ht : SpellsAtom t b)
    (hts : List.Forall₂ SpellsAtom ts bs) (left : Str) (rest : List Str) :
    inValues left (['('] :: t :: (commaBefore ts ++ [')'] :: rest)) =
      .ok (.isIn left (b.folded :: bs.map SqlAtom.folded), rest) := by
  simp only [inValues, ne_eq, not_true_eq_false, if_false, takeOperand_spells ht, moreValues_spells hts]

theorem lowered_token (operator : SchemaOperator) : lowered operator.token ≠ ("in" : Str) := by
  cases operator <;> decide

theorem ofToken_token (operator : SchemaOperator) : SchemaOperator.ofToken operator.token = some operator := by
  cases operator <;> rfl

theorem schemaComparison_reads {ts : List Str} {p : SqlPredicate} (h : IsComparison ts p) (rest : List Str) :
    schemaComparison (ts ++ rest) = .ok (p.map SqlOperand.folded, rest) := by
  cases h with
  | @comparison l r a b operator hl hr =>
    show schemaComparison (l :: operator.token :: r :: rest) = _
    simp only [schemaComparison, takeOperand_spells hl, if_neg (lowered_token operator), ofToken_token,
      takeOperand_spells hr]
    rfl
  | @isIn l k t a b ts bs hl hk ht hts =>
    have he : (l :: k :: ['('] :: t :: (commaBefore ts ++ [[')']])) ++ rest =
        l :: k :: ['('] :: t :: (commaBefore ts ++ [')'] :: rest) := by simp
    rw [he]
    simp only [schemaComparison, takeOperand_spells hl, if_pos hk, inValues_spells ht hts]
    simp [SchemaContract.map, SqlAtom.bare, SqlOperand.folded, Function.comp_def]

theorem comparison_head {ts : List Str} {p : SqlPredicate} (h : IsComparison ts p) :
    ∃ t us, ts = t :: us ∧ t ≠ ['('] := by
  cases h with
  | comparison operator hl hr => exact ⟨_, _, rfl, spells_ne_paren hl⟩
  | isIn hl hk ht hts => exact ⟨_, _, rfl, spells_ne_paren hl⟩

/-- No further term follows. -/
def Ends (rest : List Str) : Prop := ∀ k, rest.head? = some k → lowered k ≠ ("and" : Str)

theorem ends_paren (rest : List Str) : Ends ([')'] :: rest) := by
  intro k hk
  cases hk
  decide

theorem moreTerms_ends {rest : List Str} (h : Ends rest) (fuel : Nat) :
    moreTerms (fuel + 1) rest = .ok ([], rest) := by
  cases rest with
  | nil => rfl
  | cons k rest => rw [moreTerms, if_neg (h k rfl)]

mutual

theorem schemaTerm_reads {ts : List Str} {p : SqlPredicate} (h : IsTerm ts p) (fuel : Nat)
    (hf : 2 * ts.length + 1 ≤ fuel) (rest : List Str) :
    schemaTerm fuel (ts ++ rest) = .ok (p.map SqlOperand.folded, rest) := by
  obtain ⟨fuel, rfl⟩ : ∃ n, fuel = n + 1 := ⟨fuel - 1, by omega⟩
  cases h with
  | comparison h =>
    obtain ⟨t, us, rfl, ht⟩ := comparison_head h
    have hread := schemaComparison_reads h rest
    rw [List.cons_append] at hread ⊢
    rw [schemaTerm, if_neg ht, hread]
  | @parens ts p h =>
    have hlen : 2 * ts.length + 2 ≤ fuel := by
      simp at hf
      omega
    have hread := schemaExpression_reads h fuel hlen (ends_paren rest)
    have he : (['('] :: (ts ++ [[')']])) ++ rest = ['('] :: (ts ++ [')'] :: rest) := by simp
    rw [he, schemaTerm, if_pos rfl, hread]
    simp

theorem schemaExpression_reads {ts : List Str} {p : SqlPredicate} (h : IsExpression ts p) (fuel : Nat)
    (hf : 2 * ts.length + 2 ≤ fuel) {rest : List Str} (hr : Ends rest) :
    schemaExpression fuel (ts ++ rest) = .ok (p.map SqlOperand.folded, rest) := by
  obtain ⟨fuel, rfl⟩ : ∃ n, fuel = n + 2 := ⟨fuel - 2, by omega⟩
  cases h with
  | term h =>
    have hterm := schemaTerm_reads h (fuel + 1) (by omega) rest
    simp only [schemaExpression, hterm, moreTerms_ends hr]
  | @all ts us p q qs h hq =>
    rw [List.length_append] at hf
    have hterm := schemaTerm_reads h (fuel + 1) (by omega) (us ++ rest)
    have hmore := moreTerms_reads hq (fuel + 1) (by omega) hr
    rw [List.append_assoc]
    simp only [schemaExpression, hterm, hmore, mapTerms, SchemaContract.map]

theorem moreTerms_reads {us : List Str} {ps : List SqlPredicate} (h : IsTerms us ps) (fuel : Nat)
    (hf : 2 * us.length + 1 ≤ fuel) {rest : List Str} (hr : Ends rest) :
    moreTerms fuel (us ++ rest) = .ok (mapTerms SqlOperand.folded ps, rest) := by
  obtain ⟨fuel, rfl⟩ : ∃ n, fuel = n + 1 := ⟨fuel - 1, by omega⟩
  cases h with
  | nil => exact moreTerms_ends hr fuel
  | @cons k ts us p ps hk h hs =>
    rw [List.length_cons, List.length_append] at hf
    have hterm := schemaTerm_reads h fuel (by omega) (us ++ rest)
    have hmore := moreTerms_reads hs fuel (by omega) hr
    rw [List.cons_append, List.append_assoc, moreTerms, if_pos hk, hterm]
    simp only [hmore, mapTerms]

end

/-- The whole text is read, and nothing is left. -/
theorem schemaExpression_complete {ts : List Str} {p : SqlPredicate} (h : IsExpression ts p) :
    schemaExpression (2 * ts.length + 2) ts = .ok (p.map SqlOperand.folded, []) := by
  have hends : Ends [] := fun k hk => nomatch hk
  have hread := schemaExpression_reads h _ (le_refl _) hends
  rw [List.append_nil] at hread
  exact hread

/-! ## The tokens of a text -/

theorem quotedToken_ne {q c : Char} (h : c ≠ q) (s : Str) :
    quotedToken q (c :: s) = (quotedToken q s).map fun (token, rest) => (c :: token, rest) := by
  cases s with
  | nil => simp [quotedToken, h]
  | cons d s => simp [quotedToken, h]

theorem quotedToken_closes {q : Char} {t rest : Str} (ht : q ∉ t) (hr : rest.head? ≠ some q) :
    quotedToken q (t ++ q :: rest) = some (t ++ [q], rest) := by
  induction t with
  | nil =>
    cases rest with
    | nil => simp [quotedToken]
    | cons d rest =>
      have hd : d ≠ q := fun he => hr (by rw [he]; rfl)
      simp [quotedToken, hd]
  | cons c t ih =>
    rw [List.mem_cons, not_or] at ht
    rw [List.cons_append, quotedToken_ne (Ne.symm ht.1), ih ht.2]
    rfl

/-- A character that begins no symbol and no quoted token. -/
def NoSymbol (c : Char) : Prop := c ∉ ['>', '<', '=', '(', ')', ',', '"', '\'']

theorem plain_of_wordTail {c : Char} (h : isWordTail c = true) : NoSymbol c := by
  intro hm
  have hall : ∀ d ∈ ['>', '<', '=', '(', ')', ',', '"', '\''], isWordTail d = false :=
    forall_mem_of_all (by decide)
  rw [hall c hm] at h
  cases h

theorem schemaToken_plain {c : Char} {s : Str} (hs : isSpace c = false) (hc : NoSymbol c) :
    schemaToken (c :: s) =
      if isWordHead c then some (c :: s.takeWhile isWordTail, s.dropWhile isWordTail)
      else if c.isDigit then some (c :: s.takeWhile Char.isDigit, s.dropWhile Char.isDigit)
      else none := by
  simp only [NoSymbol, List.mem_cons, List.not_mem_nil, or_false, not_or] at hc
  simp [schemaToken, List.dropWhile_cons_of_neg, hs, hc]

theorem lexeme_head {t rest : Str} (h : Lexeme t rest) : ∃ c u, t = c :: u ∧ isSpace c = false := by
  cases h with
  | @symbol c _ hc =>
    have hall : ∀ c ∈ ['=', '(', ')', ','], isSpace c = false := forall_mem_of_all (by decide)
    exact ⟨c, [], rfl, hall c hc⟩
  | @strict c _ hc hr =>
    rcases hc with rfl | rfl
    · exact ⟨_, _, rfl, by decide⟩
    · exact ⟨_, _, rfl, by decide⟩
  | @lax c _ hc =>
    rcases hc with rfl | rfl
    · exact ⟨_, _, rfl, by decide⟩
    · exact ⟨_, _, rfl, by decide⟩
  | identifier ht hr =>
    cases t with
    | nil => cases ht
    | cons c u => exact ⟨c, u, rfl, isSpace_wordTail (isWordTail_of_identifier ht c (by simp))⟩
  | integer ht hr =>
    cases t with
    | nil => cases ht
    | cons c u =>
      exact ⟨c, u, rfl, isSpace_wordTail (isWordTail_of_digit (isDigit_of_integer ht c (by simp)))⟩
  | quoted hq ht hr =>
    rcases hq with rfl | rfl
    · exact ⟨_, _, rfl, by decide⟩
    · exact ⟨_, _, rfl, by decide⟩

theorem schemaToken_lexeme {t rest : Str} (h : Lexeme t rest) : schemaToken (t ++ rest) = some (t, rest) := by
  cases h with
  | @symbol c _ hc =>
    simp only [List.mem_cons, List.not_mem_nil, or_false] at hc
    rcases hc with rfl | rfl | rfl | rfl
    all_goals rfl
  | @strict c _ hc hr =>
    rcases hc with rfl | rfl
    · show (if rest.head? = some '=' then _ else _) = _
      rw [if_neg hr]
      rfl
    · show (if rest.head? = some '=' then _ else _) = _
      rw [if_neg hr]
      rfl
  | @lax c _ hc =>
    rcases hc with rfl | rfl
    all_goals rfl
  | identifier ht hr =>
    cases t with
    | nil => cases ht
    | cons c u =>
      have htail := isWordTail_of_identifier ht c (by simp)
      rw [isIdentifier, Bool.and_eq_true, List.all_eq_true] at ht
      rw [List.cons_append, schemaToken_plain (isSpace_wordTail htail) (plain_of_wordTail htail), if_pos ht.1,
        takeWhile_run ht.2 hr, dropWhile_run ht.2 hr]
  | integer ht hr =>
    cases t with
    | nil => cases ht
    | cons c u =>
      have hdigit := isDigit_of_integer ht
      have htail := isWordTail_of_digit (hdigit c (by simp))
      have hu : ∀ d ∈ u, d.isDigit = true := fun d hd => hdigit d (by simp [hd])
      rw [List.cons_append, schemaToken_plain (isSpace_wordTail htail) (plain_of_wordTail htail),
        if_neg (by simp [isWordHead_of_digit (hdigit c (by simp))]), if_pos (hdigit c (by simp)),
        takeWhile_run hu hr, dropWhile_run hu hr]
  | @quoted q t _ hq ht hr =>
    have hqt : isWordTail q = false := by
      rcases hq with rfl | rfl
      · decide
      · decide
    have hread := quotedToken_closes (not_mem_word ht hqt) hr
    have he : q :: (t ++ [q]) ++ rest = q :: (t ++ q :: rest) := by simp
    have hstep : schemaToken (q :: (t ++ q :: rest)) =
        (quotedToken q (t ++ q :: rest)).map fun (token, rest) => (q :: token, rest) := by
      have hs : isSpace '"' = false ∧ isSpace '\'' = false := by decide
      rcases hq with rfl | rfl
      · simp [schemaToken, hs]
      · simp [schemaToken, hs]
    rw [he, hstep, hread]
    rfl

theorem schemaToken_space {w s : Str} (hw : ∀ c ∈ w, isSpace c = true) : schemaToken (w ++ s) = schemaToken s := by
  rw [schemaToken, schemaToken, List.dropWhile_append_of_pos hw]

theorem schemaTokens_lexes {s : Str} {ts : List Str} (h : Lexes s ts) (fuel : Nat) (hf : s.length ≤ fuel) :
    schemaTokens fuel s = .ok ts := by
  induction h generalizing fuel with
  | nil => cases fuel <;> rfl
  | @cons w t s ts hw ht _ ih =>
    obtain ⟨c, u, rfl, hc⟩ := lexeme_head ht
    have htoken := schemaToken_lexeme ht
    rw [← schemaToken_space hw] at htoken
    simp only [List.length_append, List.length_cons] at hf
    obtain ⟨fuel, rfl⟩ : ∃ n, fuel = n + 1 := ⟨fuel - 1, by omega⟩
    cases hs : w ++ (c :: u ++ s) with
    | nil => simp at hs
    | cons d s' =>
      rw [hs] at htoken
      have hrest : schemaTokens fuel s = .ok ts := ih fuel (by omega)
      exact schemaTokens_step htoken hrest

end ExtraCodeowners
