import ExtraCodeowners.SchemaArray

/-!
# What the normal form of a schema predicate keeps

The reader accepts every text of the grammar, and returns its predicate without
the quotes, the letter case and the casts of the operands. So texts with one
normal form mean the same when their operands do, and no text is told apart
from all that mean something else.
-/

namespace ExtraCodeowners

/-! ## Texts of the plain grammar -/

theorem lexeme_plain {t rest : Str} (h : Lexeme t rest) : ':' ∉ t := by
  have hword : ∀ t : Str, (∀ c ∈ t, isWordTail c = true) → ':' ∉ t := by
    intro t ht hm
    exact absurd (ht ':' hm) (by decide)
  cases h with
  | @symbol c _ hc =>
    have hall : ∀ c ∈ ['=', '(', ')', ','], ':' ∉ [c] := forall_mem_of_all (by decide)
    exact hall c hc
  | strict hc hr =>
    rcases hc with rfl | rfl
    · decide
    · decide
  | lax hc =>
    rcases hc with rfl | rfl
    · decide
    · decide
  | identifier ht hr => exact hword t (isWordTail_of_identifier ht)
  | integer ht hr => exact hword t fun c hc => isWordTail_of_digit (isDigit_of_integer ht c hc)
  | @quoted q t _ hq ht hr =>
    have hm := hword t (isWordTail_of_word ht)
    rcases hq with rfl | rfl
    · simp [hm]
    · simp [hm]

theorem lexes_plain {s : Str} {ts : List Str} (h : Lexes s ts) : ':' ∉ s := by
  induction h with
  | nil => simp
  | cons hw ht _ ih =>
    rw [List.mem_append, List.mem_append, not_or, not_or]
    exact ⟨fun hm => absurd (hw ':' hm) (by decide), lexeme_plain ht, ih⟩

/-! ## The text of an `IN` list -/

theorem lexes_space {w s t : Str} {ts : List Str} (hw : ∀ c ∈ w, isSpace c = true) (h : Lexes s (t :: ts)) :
    Lexes (w ++ s) (t :: ts) := by
  cases h with
  | @cons w' t s ts hw' ht hs =>
    rw [← List.append_assoc]
    exact .cons (List.forall_mem_append.mpr ⟨hw, hw'⟩) ht hs

theorem lexes_lexeme {t s : Str} {ts : List Str} (ht : Lexeme t s) (hs : Lexes s ts) : Lexes (t ++ s) (t :: ts) :=
  .cons (w := []) (fun _ h => nomatch h) ht hs

theorem lexeme_spells {t : Str} {a : SqlAtom} (h : SpellsAtom t a) {c : Char} (hc : isWordTail c = false)
    (hq : c ≠ '"' ∧ c ≠ '\'') (rest : Str) : Lexeme t (c :: rest) := by
  have hdigit : c.isDigit = false := by
    rw [← Bool.not_eq_true]
    intro hd
    rw [isWordTail_of_digit hd] at hc
    cases hc
  cases h with
  | name h => exact .identifier h (by simpa using hc)
  | quoted h => exact .quoted (.inl rfl) h (by simpa using hq.1)
  | text h => exact .quoted (.inr rfl) h (by simpa using hq.2)
  | integer h => exact .integer h (by simpa using hdigit)

theorem lexes_values {v : Str} {vs : List Str} (hv : isWord v = true) (hvs : ∀ v ∈ vs, isWord v = true) :
    Lexes (join (", " : Str) ((v :: vs).map quotedText) ++ [(')' : Char)])
      (quotedText v :: (commaBefore (vs.map quotedText) ++ [[')']])) := by
  have hspace : ∀ c ∈ [(' ' : Char)], isSpace c = true := forall_mem_of_all (by decide)
  induction vs generalizing v with
  | nil =>
    rw [List.map_singleton, join_singleton]
    exact lexes_lexeme (lexeme_spells (.text hv) (by decide) (by decide) _)
      (lexes_lexeme (.symbol (by simp)) .nil)
  | cons u vs ih =>
    rw [List.forall_mem_cons] at hvs
    have hrest := lexes_lexeme (.symbol (c := ',') (by simp)) (lexes_space hspace (ih hvs.1 hvs.2))
    have hvalue := lexes_lexeme (lexeme_spells (.text hv) (c := ',') (by decide) (by decide) _) hrest
    rw [List.map_cons, List.map_cons, join_cons_cons, List.append_assoc, List.append_assoc]
    exact hvalue

/-- A blank ends every spelled operand. -/
theorem lexes_operand {t s : Str} {a : SqlAtom} {ts : List Str} (h : SpellsAtom t a)
    (hb : s.head?.any isSpace = true) (hs : Lexes s ts) : Lexes (t ++ s) (t :: ts) := by
  cases s with
  | nil => cases hb
  | cons c s =>
    have hc : isSpace c = true := by simpa using hb
    have htail : isWordTail c = false := by
      rw [← Bool.not_eq_true]
      intro ht
      rw [isSpace_wordTail ht] at hc
      cases hc
    have hquotes : c ≠ '"' ∧ c ≠ '\'' := by
      constructor
      · rintro rfl
        exact absurd hc (by decide)
      · rintro rfl
        exact absurd hc (by decide)
    exact lexes_lexeme (lexeme_spells h htail hquotes s) hs

theorem lexes_in {c w v : Str} {a : SqlAtom} {vs : List Str} (hc : SpellsAtom c a)
    (hw : ∀ c ∈ w, isSpace c = true) (hv : isWord v = true) (hvs : ∀ v ∈ vs, isWord v = true) :
    Lexes (c ++ w ++ (" IN (" : Str) ++ join (", " : Str) ((v :: vs).map quotedText) ++ [(')' : Char)])
      (c :: ("IN" : Str) :: ['('] :: quotedText v :: (commaBefore (vs.map quotedText) ++ [[')']])) := by
  have hblank : isSpace ' ' = true := by decide
  have hspace : ∀ c ∈ [(' ' : Char)], isSpace c = true := by
    rw [List.forall_mem_singleton]
    exact hblank
  have hin : SpellsAtom ("IN" : Str) (.column (lowered ("IN" : Str))) := .name rfl
  have hparen := lexes_lexeme (.symbol (c := '(') (by simp)) (lexes_values hv hvs)
  have hkeyword := lexes_operand hin (by exact hblank) (lexes_space hspace hparen)
  have hhead : (w ++ ([' '] ++ (("IN" : Str) ++ ([' '] ++ (['('] ++
      (join (", " : Str) ((v :: vs).map quotedText) ++ [(')' : Char)])))))).head?.any isSpace = true := by
    cases w with
    | nil => exact hblank
    | cons d w => exact hw d (by simp)
  have hcolumn := lexes_operand hc hhead (lexes_space hw (lexes_space hspace hkeyword))
  have hkey : (" IN (" : Str) = [' '] ++ (("IN" : Str) ++ ([' '] ++ ['('])) := rfl
  rw [hkey]
  simp only [List.append_assoc] at hcolumn ⊢
  exact hcolumn

/-! ## The normal form of a text -/

theorem arrayItem_word {s v : Str} {types : List Str} (h : IsArrayItem s v types) : isWord v = true := by
  cases h with
  | intro hw hv hw' hs => exact hv

theorem arrayItems_words {s : Str} {items : List (Str × List Str)} (h : IsArrayItems s items) :
    items ≠ [] ∧ ∀ item ∈ items, isWord item.1 = true := by
  induction h with
  | one h =>
    refine ⟨by simp, ?_⟩
    rw [List.forall_mem_singleton]
    exact arrayItem_word h
  | more h _ ih =>
    refine ⟨by simp, ?_⟩
    rw [List.forall_mem_cons]
    exact ⟨arrayItem_word h, ih.2⟩

section
variable [UnicodeTables]

/-- What the parser is given spells a predicate that differs in casts alone. -/
theorem writes_expression {a : Str} {p : SqlPredicate} (h : Writes a p) :
    ∃ ts q, Lexes ((normalizePostgresqlAnyArrayCheck (strip a)).getD (strip a)) ts ∧ IsExpression ts q ∧
      q.map SqlOperand.folded = p.map SqlOperand.folded := by
  cases h with
  | @plain ts _ hl h =>
    refine ⟨ts, _, ?_, h, rfl⟩
    rw [normalizePostgresqlAnyArrayCheck_plain (lexes_plain hl)]
    exact hl
  | anyArray h =>
    generalize strip a = source at h
    cases h with
    | @intro c w₁ n w₂ k w₃ w₄ k' s t atom items arrayTypes hc hw₁ hn hw₂ hk hw₃ hw₄ hk' hitems ht =>
      obtain ⟨hne, hwords⟩ := arrayItems_words hitems
      obtain ⟨item, rest, rfl⟩ := List.exists_cons_of_ne_nil hne
      rw [List.forall_mem_cons] at hwords
      let vs := rest.map Prod.fst
      have hvs : ∀ v ∈ vs, isWord v = true := by
        intro v hv
        obtain ⟨item, hitem, rfl⟩ := List.mem_map.mp hv
        exact hwords.2 item hitem
      have hspells : List.Forall₂ SpellsAtom (vs.map quotedText) (vs.map SqlAtom.text) := by
        rw [List.forall₂_map_left_iff, List.forall₂_map_right_iff, List.forall₂_same]
        exact fun v hv => .text (hvs v hv)
      have hvalues : (item :: rest).map (fun item => quotedText item.1) = (item.1 :: vs).map quotedText := by
        simp [vs]
      refine ⟨_, _, ?_, .term (.comparison (.isIn hc (k := ("IN" : Str)) rfl (.text hwords.1) hspells)), ?_⟩
      · rw [normalizePostgresqlAnyArrayCheck_reads hc hw₁ hn hw₂ hk hw₃ hw₄ hk' hitems ht, hvalues]
        exact lexes_in hc hw₁ hwords.1 hvs
      · simp [SchemaContract.map, SqlAtom.bare, SqlOperand.folded, arrayOperands, SqlAtom.folded, vs]

/-- The reader accepts the grammar, and keeps of a predicate all but the quotes,
the letter case and the casts. -/
theorem normalize_writes {a : Str} {p : SqlPredicate} (h : Writes a p) :
    normalizeSchemaExpression (some a) = .ok (some (p.map SqlOperand.folded)) := by
  obtain ⟨ts, q, hl, hq, hmap⟩ := writes_expression h
  have htokens := schemaTokens_lexes hl _ (le_refl _)
  simp only [normalizeSchemaExpression, htokens, schemaExpression_complete hq, hmap]

end

/-! ## Operands and shape -/

section
variable {α β : Type} (f : α → β)

mutual

theorem operands_map : ∀ p : SchemaContract α, (p.map f).operands = p.operands.map f
  | .comparison _ _ _ => rfl
  | .isIn _ _ => rfl
  | .all terms => termsOperands_map terms

theorem termsOperands_map : ∀ terms : List (SchemaContract α),
    termsOperands (mapTerms f terms) = (termsOperands terms).map f
  | [] => rfl
  | term :: terms => by
    rw [mapTerms, termsOperands, termsOperands, operands_map term, termsOperands_map terms, List.map_append]

end

theorem operands_length {p q : SchemaContract α} (h : p.map f = q.map f) :
    p.operands.length = q.operands.length := by
  have hops := congrArg (fun r => r.operands.length) h
  simpa only [operands_map, List.length_map] using hops

mutual

/-- A predicate is its shape and its operands. -/
theorem eq_of_operands : ∀ {p q : SchemaContract α}, p.map f = q.map f → p.operands = q.operands → p = q
  | .comparison l o r, .comparison l' o' r', hmap, hops => by
    injection hmap with _ ho _
    injection hops with hl hr
    injection hr with hr _
    rw [ho, hl, hr]
  | .isIn l vs, .isIn l' vs', _, hops => by
    injection hops with hl hvs
    rw [hl, hvs]
  | .all terms, .all terms', hmap, hops => by
    injection hmap with hmap
    rw [eq_of_termsOperands hmap hops]
  | .comparison .., .isIn .., hmap, _ => by cases hmap
  | .comparison .., .all _, hmap, _ => by cases hmap
  | .isIn .., .comparison .., hmap, _ => by cases hmap
  | .isIn .., .all _, hmap, _ => by cases hmap
  | .all _, .comparison .., hmap, _ => by cases hmap
  | .all _, .isIn .., hmap, _ => by cases hmap

theorem eq_of_termsOperands : ∀ {ps qs : List (SchemaContract α)}, mapTerms f ps = mapTerms f qs →
    termsOperands ps = termsOperands qs → ps = qs
  | [], [], _, _ => rfl
  | [], _ :: _, hmap, _ => by cases hmap
  | _ :: _, [], hmap, _ => by cases hmap
  | p :: ps, q :: qs, hmap, hops => by
    injection hmap with hp hps
    obtain ⟨hp', hps'⟩ := List.append_inj hops (operands_length f hp)
    rw [eq_of_operands hp hp', eq_of_termsOperands hps hps']

end

end

end ExtraCodeowners
