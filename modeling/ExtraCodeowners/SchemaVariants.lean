import ExtraCodeowners.SchemaSound

/-!
# Texts that the normal form confuses

Every text of the grammar has two variants with its own normal form, one true
and one false on a row of empty texts: an operand may be quoted as a column or
as a text. So no text is told apart from all that mean something else.
-/

namespace ExtraCodeowners

/-! ## Operands of either kind -/

/-- The operand `w` as a quoted column, or as a text. -/
def sideAtom (column : Bool) (w : Str) : SqlAtom := if column then .column w else .text w

def sideToken (column : Bool) (w : Str) : Str := if column then '"' :: (w ++ ['"']) else quotedText w

theorem spells_side (column : Bool) {w : Str} (h : isWord w = true) :
    SpellsAtom (sideToken column w) (sideAtom column w) := by
  cases column with
  | true => exact .quoted h
  | false => exact .text h

theorem folded_side (column : Bool) (w : Str) : (sideAtom column w).folded = lowered w := by
  cases column <;> rfl

/-- A row whose columns all hold the empty text. -/
def blankRow : SqlRow := fun _ => .text []

def sideValue (column : Bool) (w : Str) : SqlValue := .text (if column then [] else w)

theorem value_side (cast : Str → SqlValue → SqlValue) (column : Bool) (w : Str) :
    (sideAtom column w).bare.value cast blankRow = sideValue column w := by
  cases column <;> rfl

theorem text_compare (s t : Str) :
    (SqlValue.text s).compare (.text t) = some (if s < t then .lt else if s = t then .eq else .gt) := rfl

theorem compare_sides {v w : Str} (hv : v ≠ []) (hw : w ≠ []) :
    (sideValue true v).compare (sideValue true w) = some .eq ∧
      (sideValue true v).compare (sideValue false w) = some .lt ∧
      (sideValue false v).compare (sideValue true w) = some .gt := by
  obtain ⟨c, v, rfl⟩ := List.exists_cons_of_ne_nil hv
  obtain ⟨d, w, rfl⟩ := List.exists_cons_of_ne_nil hw
  simp [sideValue, text_compare]

/-- The kinds of the two operands for which a comparison has the given truth. -/
def sides : SchemaOperator → Bool → Bool × Bool
  | .eq, truth => (true, truth)
  | .ge, truth => (true, truth)
  | .le, truth => (truth, true)
  | .lt, truth => (true, !truth)
  | .gt, truth => (!truth, true)

theorem holds_sides (operator : SchemaOperator) (truth : Bool) {v w : Str} (hv : v ≠ []) (hw : w ≠ []) :
    ((sideValue (sides operator truth).1 v).compare (sideValue (sides operator truth).2 w)).map operator.holds =
      some truth := by
  obtain ⟨heq, hlt, hgt⟩ := compare_sides hv hw
  cases operator with
  | eq | ge =>
    cases truth with
    | true => simp [sides, heq, SchemaOperator.holds]
    | false => simp [sides, hlt, SchemaOperator.holds]
  | le =>
    cases truth with
    | true => simp [sides, heq, SchemaOperator.holds]
    | false => simp [sides, hgt, SchemaOperator.holds]
  | lt =>
    cases truth with
    | true => simp [sides, hlt, SchemaOperator.holds]
    | false => simp [sides, heq, SchemaOperator.holds]
  | gt =>
    cases truth with
    | true => simp [sides, hgt, SchemaOperator.holds]
    | false => simp [sides, heq, SchemaOperator.holds]

/-! ## Truth of a whole predicate -/

theorem allOf_const {truth : Bool} {values : List (Option Bool)} (hne : values ≠ [])
    (h : ∀ v ∈ values, v = some truth) : allOf values = some truth := by
  cases truth with
  | true =>
    have hfalse : some false ∉ values := fun hm => absurd (h _ hm) (by decide)
    have hnone : none ∉ values := fun hm => absurd (h _ hm) (by decide)
    rw [allOf, if_neg hfalse, if_neg hnone]
  | false =>
    obtain ⟨v, hv⟩ := List.exists_mem_of_ne_nil _ hne
    rw [h v hv] at hv
    rw [allOf, if_pos hv]

theorem anyOf_const {truth : Bool} {values : List (Option Bool)} (hne : values ≠ [])
    (h : ∀ v ∈ values, v = some truth) : anyOf values = some truth := by
  cases truth with
  | true =>
    obtain ⟨v, hv⟩ := List.exists_mem_of_ne_nil _ hne
    rw [h v hv] at hv
    rw [anyOf, if_pos hv]
  | false =>
    have htrue : some true ∉ values := fun hm => absurd (h _ hm) (by decide)
    have hnone : none ∉ values := fun hm => absurd (h _ hm) (by decide)
    rw [anyOf, if_neg htrue, if_neg hnone]

/-! ## Spaced tokens -/

/-- A token that a blank or the end of the text closes. -/
def Loose (t : Str) : Prop := Lexeme t [] ∧ ∀ rest, Lexeme t (' ' :: rest)

theorem loose_spells {t : Str} {a : SqlAtom} (h : SpellsAtom t a) : Loose t := by
  constructor
  · cases h with
    | name h => exact .identifier h rfl
    | quoted h => exact .quoted (.inl rfl) h (by simp)
    | text h => exact .quoted (.inr rfl) h (by simp)
    | integer h => exact .integer h rfl
  · exact lexeme_spells h (by decide) (by decide)

theorem loose_symbol {c : Char} (hc : c ∈ ['=', '(', ')', ',']) : Loose [c] := ⟨.symbol hc, fun _ => .symbol hc⟩

theorem loose_operator (operator : SchemaOperator) : Loose operator.token := by
  cases operator with
  | ge => exact ⟨.lax (.inr rfl), fun _ => .lax (.inr rfl)⟩
  | le => exact ⟨.lax (.inl rfl), fun _ => .lax (.inl rfl)⟩
  | eq => exact loose_symbol (by simp)
  | lt => exact ⟨.strict (.inl rfl) (by simp), fun _ => .strict (.inl rfl) (by simp)⟩
  | gt => exact ⟨.strict (.inr rfl) (by simp), fun _ => .strict (.inr rfl) (by simp)⟩

/-- The tokens with a blank between two of them. -/
def spaced (ts : List Str) : Str := join [(' ' : Char)] ts

theorem lexes_spaced {ts : List Str} (h : ∀ t ∈ ts, Loose t) : Lexes (spaced ts) ts := by
  have hspace : ∀ c ∈ [(' ' : Char)], isSpace c = true := forall_mem_of_all (by decide)
  induction ts with
  | nil => exact .nil
  | cons t ts ih =>
    rw [List.forall_mem_cons] at h
    cases ts with
    | nil =>
      have hone := lexes_lexeme h.1.1 .nil
      rw [List.append_nil] at hone
      rw [spaced, join_singleton]
      exact hone
    | cons u ts =>
      rw [spaced, join_cons_cons, List.append_assoc]
      exact lexes_lexeme (h.1.2 _) (lexes_space hspace (ih h.2))

theorem lexeme_last {t rest : Str} (h : Lexeme t rest) : ∃ u c, t = u ++ [c] ∧ isSpace c = false := by
  have hword : ∀ t : Str, t ≠ [] → (∀ c ∈ t, isWordTail c = true) → ∃ u c, t = u ++ [c] ∧ isSpace c = false := by
    intro t hne ht
    have hlast := List.dropLast_append_getLast hne
    exact ⟨t.dropLast, t.getLast hne, hlast.symm, isSpace_wordTail (ht _ (List.getLast_mem hne))⟩
  cases h with
  | @symbol c _ hc =>
    have hall : ∀ c ∈ ['=', '(', ')', ','], isSpace c = false := forall_mem_of_all (by decide)
    exact ⟨[], c, rfl, hall c hc⟩
  | strict hc hr =>
    rcases hc with rfl | rfl
    · exact ⟨[], _, rfl, by decide⟩
    · exact ⟨[], _, rfl, by decide⟩
  | @lax c _ hc => exact ⟨[c], '=', rfl, by decide⟩
  | identifier ht hr =>
    exact hword t (word_ne_nil (isWord_iff.mpr (.inl ht))) (isWordTail_of_identifier ht)
  | integer ht hr =>
    exact hword t (word_ne_nil (isWord_iff.mpr (.inr ht))) fun c hc => isWordTail_of_digit (isDigit_of_integer ht c hc)
  | @quoted q t _ hq ht hr =>
    refine ⟨q :: t, q, rfl, ?_⟩
    rcases hq with rfl | rfl
    · decide
    · decide

theorem lexes_last {s : Str} {ts : List Str} (h : Lexes s ts) : ∀ c, s.getLast? = some c → isSpace c = false := by
  induction h with
  | nil => exact fun c hc => nomatch hc
  | @cons w t s ts hw ht hs ih =>
    intro c hc
    cases s with
    | nil =>
      obtain ⟨u, d, rfl, hd⟩ := lexeme_last ht
      rw [List.append_nil, ← List.append_assoc, List.getLast?_concat] at hc
      cases hc
      exact hd
    | cons d s =>
      apply ih
      rw [← List.append_assoc, List.getLast?_append_of_ne_nil _ (by simp)] at hc
      exact hc

theorem strip_spaced {ts : List Str} (h : ∀ t ∈ ts, Loose t) : strip (spaced ts) = spaced ts := by
  refine strip_eq_self.mpr ⟨?_, lexes_last (lexes_spaced h)⟩
  intro c hc
  cases ts with
  | nil => cases hc
  | cons t ts =>
    rw [List.forall_mem_cons] at h
    obtain ⟨d, u, rfl, hd⟩ := lexeme_head h.1.1
    have hhead : (spaced ((d :: u) :: ts)).head? = some d := by
      cases ts with
      | nil => rfl
      | cons v ts =>
        rw [spaced, join_cons_cons]
        rfl
    rw [hhead] at hc
    cases hc
    exact hd

/-! ## Variants -/

/-- The truth of `p` on the blank row, whatever a cast does. -/
def Decided (truth : Bool) (p : SqlPredicate) : Prop := ∀ cast, p.truth cast blankRow = some truth

theorem forall₂_words {ts : List Str} {bs : List SqlAtom} (h : List.Forall₂ SpellsAtom ts bs) :
    ∃ ws : List Str, (∀ w ∈ ws, isWord w = true) ∧ ws.map lowered = bs.map SqlAtom.folded := by
  induction h with
  | nil => exact ⟨[], by simp, rfl⟩
  | cons ht _ ih =>
    obtain ⟨w, hw, he⟩ := spells_word ht
    obtain ⟨ws, hws, hes⟩ := ih
    refine ⟨w :: ws, List.forall_mem_cons.mpr ⟨hw, hws⟩, ?_⟩
    rw [List.map_cons, List.map_cons, he, hes]

theorem loose_commaBefore {ts : List Str} (h : ∀ t ∈ ts, Loose t) : ∀ t ∈ commaBefore ts, Loose t := by
  intro t ht
  obtain ⟨u, hu, hm⟩ := List.mem_flatMap.mp ht
  rw [List.mem_cons, List.mem_singleton] at hm
  rcases hm with rfl | rfl
  · exact loose_symbol (by simp)
  · exact h _ hu

theorem variant_comparison (truth : Bool) {ts : List Str} {p : SqlPredicate} (h : IsComparison ts p) :
    ∃ us q, IsComparison us q ∧ (∀ u ∈ us, Loose u) ∧ q.map SqlOperand.folded = p.map SqlOperand.folded ∧
      Decided truth q := by
  cases h with
  | @comparison l r a b operator hl hr =>
    obtain ⟨v, hv, hva⟩ := spells_word hl
    obtain ⟨w, hw, hwb⟩ := spells_word hr
    have hleft := spells_side (sides operator truth).1 hv
    have hright := spells_side (sides operator truth).2 hw
    refine ⟨_, _, .comparison operator hleft hright, ?_, ?_, ?_⟩
    · simp only [List.forall_mem_cons]
      exact ⟨loose_spells hleft, loose_operator operator, loose_spells hright, List.forall_mem_nil _⟩
    · simp only [SchemaContract.map, SqlAtom.bare, SqlOperand.folded, folded_side, hva, hwb]
    · intro cast
      simp only [SchemaContract.truth, compared, value_side]
      exact holds_sides operator truth (word_ne_nil hv) (word_ne_nil hw)
  | @isIn l k t a b ts bs hl hk ht hts =>
    obtain ⟨v, hv, hva⟩ := spells_word hl
    obtain ⟨w, hw, hwb⟩ := spells_word ht
    obtain ⟨ws, hws, hwsb⟩ := forall₂_words hts
    have hin : SpellsAtom ("in" : Str) (.column ("in" : Str)) := .name rfl
    have hleft := spells_side true hv
    have hvalue := spells_side truth hw
    have hvalues : List.Forall₂ SpellsAtom (ws.map (sideToken truth)) (ws.map (sideAtom truth)) := by
      rw [List.forall₂_map_left_iff, List.forall₂_map_right_iff, List.forall₂_same]
      exact fun w hw => spells_side truth (hws w hw)
    have hloose : ∀ u ∈ ws.map (sideToken truth), Loose u := by
      intro u hu
      obtain ⟨w, hw, rfl⟩ := List.mem_map.mp hu
      exact loose_spells (spells_side truth (hws w hw))
    refine ⟨_, _, .isIn hleft (k := ("in" : Str)) rfl hvalue hvalues, ?_, ?_, ?_⟩
    · simp only [List.forall_mem_cons, List.forall_mem_append]
      exact ⟨loose_spells hleft, loose_spells hin, loose_symbol (by simp), loose_spells hvalue,
        loose_commaBefore hloose, loose_symbol (by simp), List.forall_mem_nil _⟩
    · have hfolded : (ws.map (sideAtom truth)).map SqlAtom.folded = bs.map SqlAtom.folded := by
        rw [← hwsb, List.map_map]
        exact List.map_congr_left fun w _ => folded_side truth w
      simp only [SchemaContract.map, SqlAtom.bare, SqlOperand.folded, folded_side, hva, hwb, List.map_cons,
        List.map_map, Function.comp_def] at hfolded ⊢
      rw [hfolded]
    · intro cast
      rw [SchemaContract.truth]
      refine anyOf_const (by simp) ?_
      intro o ho
      obtain ⟨operand, hm, rfl⟩ := List.mem_map.mp ho
      obtain ⟨u, hu, rfl⟩ : ∃ u, isWord u = true ∧ operand = (sideAtom truth u).bare := by
        rw [List.mem_cons] at hm
        rcases hm with rfl | hm
        · exact ⟨w, hw, rfl⟩
        · rw [List.map_map] at hm
          obtain ⟨u, hu, rfl⟩ := List.mem_map.mp hm
          exact ⟨u, hws u hu, rfl⟩
      rw [compared, value_side, value_side]
      exact holds_sides .eq truth (word_ne_nil hv) (word_ne_nil hu)

mutual

theorem variant_term (truth : Bool) {ts : List Str} {p : SqlPredicate} (h : IsTerm ts p) :
    ∃ us q, IsTerm us q ∧ (∀ u ∈ us, Loose u) ∧ q.map SqlOperand.folded = p.map SqlOperand.folded ∧
      Decided truth q := by
  cases h with
  | comparison h =>
    obtain ⟨us, q, hq, hloose, hmap, htruth⟩ := variant_comparison truth h
    exact ⟨us, q, .comparison hq, hloose, hmap, htruth⟩
  | parens h =>
    obtain ⟨us, q, hq, hloose, hmap, htruth⟩ := variant_expression truth h
    refine ⟨_, q, .parens hq, ?_, hmap, htruth⟩
    rw [List.forall_mem_cons, List.forall_mem_append, List.forall_mem_singleton]
    exact ⟨loose_symbol (by simp), hloose, loose_symbol (by simp)⟩
termination_by 2 * ts.length

theorem variant_expression (truth : Bool) {ts : List Str} {p : SqlPredicate} (h : IsExpression ts p) :
    ∃ us q, IsExpression us q ∧ (∀ u ∈ us, Loose u) ∧ q.map SqlOperand.folded = p.map SqlOperand.folded ∧
      Decided truth q := by
  cases h with
  | term h =>
    obtain ⟨us, q, hq, hloose, hmap, htruth⟩ := variant_term truth h
    exact ⟨us, q, .term hq, hloose, hmap, htruth⟩
  | all h hs =>
    obtain ⟨us, q, hq, hloose, hmap, htruth⟩ := variant_term truth h
    obtain ⟨vs, qs, hqs, hlooses, hmaps, htruths⟩ := variant_terms truth hs
    cases qs with
    | nil => cases hmaps
    | cons r qs =>
      refine ⟨_, _, .all hq hqs, List.forall_mem_append.mpr ⟨hloose, hlooses⟩, ?_, ?_⟩
      · simp only [SchemaContract.map, mapTerms] at hmaps ⊢
        rw [hmap, hmaps]
      · intro cast
        rw [SchemaContract.truth]
        refine allOf_const (by simp [termsTruth]) ?_
        rw [termsTruth, List.forall_mem_cons]
        exact ⟨htruth cast, htruths cast⟩
termination_by 2 * ts.length + 1

theorem variant_terms (truth : Bool) {ts : List Str} {ps : List SqlPredicate} (h : IsTerms ts ps) :
    ∃ us qs, IsTerms us qs ∧ (∀ u ∈ us, Loose u) ∧ mapTerms SqlOperand.folded qs = mapTerms SqlOperand.folded ps ∧
      ∀ cast, ∀ v ∈ termsTruth cast blankRow qs, v = some truth := by
  cases h with
  | nil => exact ⟨[], [], .nil, by simp, rfl, by simp [termsTruth]⟩
  | cons hk h hs =>
    obtain ⟨us, q, hq, hloose, hmap, htruth⟩ := variant_term truth h
    obtain ⟨vs, qs, hqs, hlooses, hmaps, htruths⟩ := variant_terms truth hs
    have hand : SpellsAtom ("and" : Str) (.column ("and" : Str)) := .name rfl
    refine ⟨_, _, .cons (k := ("and" : Str)) rfl hq hqs, ?_, ?_, ?_⟩
    · rw [List.forall_mem_cons, List.forall_mem_append]
      exact ⟨loose_spells hand, hloose, hlooses⟩
    · rw [mapTerms, mapTerms, hmap, hmaps]
    · intro cast
      rw [termsTruth, List.forall_mem_cons]
      exact ⟨htruth cast, htruths cast⟩
termination_by 2 * ts.length
decreasing_by all_goals simp only [List.length_cons, List.length_append]; omega

end

/-! ## The normal form and the meaning -/

section
variable [UnicodeTables]

theorem variant_writes (truth : Bool) {a : Str} {p : SqlPredicate} (h : Writes a p) :
    ∃ b q, Writes b q ∧ normalizeSchemaExpression (some b) = normalizeSchemaExpression (some a) ∧
      Decided truth q := by
  obtain ⟨ts, p', -, hp', hmap'⟩ := writes_expression h
  obtain ⟨us, q, hq, hloose, hmap, htruth⟩ := variant_expression truth hp'
  have hl : Lexes (strip (spaced us)) us := by
    rw [strip_spaced hloose]
    exact lexes_spaced hloose
  have hb : Writes (spaced us) q := .plain hl hq
  refine ⟨_, _, hb, ?_, htruth⟩
  rw [normalize_writes hb, normalize_writes h, hmap, hmap']

/-- Two texts with one normal form mean the same when their operands agree in
kind, letter case and casts. No text means the same as all with its normal form. -/
theorem normal_form_sound :
    (∀ a b p q, Writes a p → Writes b q →
      normalizeSchemaExpression (some a) = normalizeSchemaExpression (some b) → p.operands = q.operands →
      ∀ cast row, p.truth cast row = q.truth cast row) ∧
    ∀ a p, Writes a p → ∀ cast, ∃ b q row, Writes b q ∧
      normalizeSchemaExpression (some a) = normalizeSchemaExpression (some b) ∧
      p.truth cast row ≠ q.truth cast row := by
  constructor
  · intro a b p q ha hb hnormal hops cast row
    rw [normalize_writes ha, normalize_writes hb] at hnormal
    injection hnormal with hnormal
    injection hnormal with hmap
    rw [eq_of_operands SqlOperand.folded hmap hops]
  · intro a p ha cast
    -- The variants differ from each other on the blank row, so one of them differs from `p`.
    obtain ⟨b, q, hb, hnormal, htrue⟩ := variant_writes true ha
    obtain ⟨b', q', hb', hnormal', hfalse⟩ := variant_writes false ha
    by_cases hp : p.truth cast blankRow = some true
    · refine ⟨b', q', blankRow, hb', hnormal'.symm, ?_⟩
      rw [hp, hfalse cast]
      decide
    · refine ⟨b, q, blankRow, hb, hnormal.symm, ?_⟩
      rw [htrue cast]
      exact hp

end

/-- The column, the first value and the further ones of an `IN` list. -/
def inList (column value : Str) (values : List Str) : Str :=
  column ++ [] ++ (" IN (" : Str) ++ join (", " : Str) ((value :: values).map quotedText) ++ [(')' : Char)]

theorem writes_inList (column value : Str) (values : List Str) (hc : isIdentifier column = true)
    (hv : isWord value = true) (hvs : ∀ v ∈ values, isWord v = true)
    (hs : strip (inList column value values) = inList column value values) :
    Writes (inList column value values)
      (.isIn (SqlAtom.column (lowered column)).bare
        ((SqlAtom.text value).bare :: (values.map SqlAtom.text).map SqlAtom.bare)) := by
  have hvalues : List.Forall₂ SpellsAtom (values.map quotedText) (values.map SqlAtom.text) := by
    rw [List.forall₂_map_left_iff, List.forall₂_map_right_iff, List.forall₂_same]
    exact fun v hv => .text (hvs v hv)
  have hl := lexes_in (.name hc) (w := []) (List.forall_mem_nil _) hv hvs
  refine .plain ?_ (.term (.comparison (.isIn (.name hc) (k := ("IN" : Str)) rfl (.text hv) hvalues)))
  rw [hs]
  exact hl

/-- The texts of a constraint on the work class, in lower and in upper case. -/
theorem letter_case_dropped :
    ∃ p q, Writes "work_class IN ('interactive', 'recovery')" p ∧
      Writes "work_class IN ('INTERACTIVE', 'RECOVERY')" q ∧
      @normalizeSchemaExpression asciiTables (some "work_class IN ('interactive', 'recovery')") =
        @normalizeSchemaExpression asciiTables (some "work_class IN ('INTERACTIVE', 'RECOVERY')") ∧
      p.truth (fun _ v => v) (fun _ => .text "interactive") = some true ∧
      q.truth (fun _ v => v) (fun _ => .text "interactive") = some false := by
  have hwords : (∀ v ∈ [("recovery" : Str)], isWord v = true) ∧ ∀ v ∈ [("RECOVERY" : Str)], isWord v = true := by
    rw [List.forall_mem_singleton, List.forall_mem_singleton]
    exact ⟨rfl, rfl⟩
  have hp := writes_inList "work_class" "interactive" ["recovery"] rfl rfl hwords.1 rfl
  have hq := writes_inList "work_class" "INTERACTIVE" ["RECOVERY"] rfl rfl hwords.2 rfl
  have hlower : inList "work_class" "interactive" ["recovery"] = "work_class IN ('interactive', 'recovery')" := rfl
  have hupper : inList "work_class" "INTERACTIVE" ["RECOVERY"] = "work_class IN ('INTERACTIVE', 'RECOVERY')" := rfl
  rw [hlower] at hp
  rw [hupper] at hq
  refine ⟨_, _, hp, hq, ?_, rfl, rfl⟩
  have hinteractive : lowered ("INTERACTIVE" : Str) = lowered ("interactive" : Str) := by decide
  have hrecovery : lowered ("RECOVERY" : Str) = lowered ("recovery" : Str) := by decide
  rw [@normalize_writes asciiTables _ _ hp, @normalize_writes asciiTables _ _ hq]
  simp only [SchemaContract.map, List.map_cons, List.map_nil, SqlAtom.bare, SqlOperand.folded, SqlAtom.folded,
    hinteractive, hrecovery]

end ExtraCodeowners
