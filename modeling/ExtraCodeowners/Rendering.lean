import ExtraCodeowners.GitLines

/-!
# Escaped whitespace in a pattern

The pattern of a rule is the first token of its line without the whitespace at
its ends, so a token that begins or ends with escaped whitespace is rewritten.
A parsed document has no such pattern: rendering it and parsing the text gives
the same patterns and owners.
-/

namespace ExtraCodeowners

/-! ## The first token of a line -/

/-- The characters up to the first whitespace that no backslash escapes. -/
def unescapeFirst : Str → Str
  | [] => []
  | '\\' :: c :: rest => if isSpace c then c :: unescapeFirst rest else '\\' :: unescapeFirst (c :: rest)
  | c :: rest => if isSpace c then [] else c :: unescapeFirst rest

/-- The first token of a line, with each escaped whitespace in place of its
backslash. -/
def firstToken (line : Str) : Str := unescapeFirst (line.dropWhile isSpace)

theorem unescapeFirst_escape {c : Char} (hc : isSpace c = true) (s : Str) :
    unescapeFirst ('\\' :: c :: s) = c :: unescapeFirst s := by
  rw [unescapeFirst.eq_def]
  exact if_pos hc

theorem unescapeFirst_space {c : Char} (hc : isSpace c = true) (s : Str) :
    unescapeFirst (c :: s) = [] := by
  rw [unescapeFirst.eq_def]
  split
  · rename_i he; cases he
  · rename_i he
    cases he
    exact absurd hc (by decide)
  · rename_i he
    cases he
    exact if_pos hc

theorem unescapeFirst_char {c : Char} (hc : isSpace c = false) (he : c ≠ '\\') (s : Str) :
    unescapeFirst (c :: s) = c :: unescapeFirst s := by
  rw [unescapeFirst.eq_def]
  split
  · rename_i h; cases h
  · rename_i h
    cases h
    exact absurd rfl he
  · rename_i h
    cases h
    exact if_neg (by simp [hc])

/-- A token without a backslash is what the line spells, whatever whitespace
was stripped behind it. -/
theorem splitLineFrom_first {u cur t : Str} {ts : List Str} (h : splitLineFrom u cur = t :: ts)
    (hcur : cur ≠ []) (ht : '\\' ∉ t) {trail : Str} (htrail : ∀ c ∈ trail, isSpace c = true) :
    t = cur ++ unescapeFirst (u ++ trail) := by
  induction u using token_induction generalizing cur with
  | nil =>
    rw [splitLineFrom_nil, if_neg hcur] at h
    obtain ⟨rfl, -⟩ := List.cons.inj h
    cases trail with
    | nil => simp [unescapeFirst]
    | cons c trail => rw [List.nil_append, unescapeFirst_space (htrail c (by simp)), List.append_nil]
  | escape c u hc ih =>
    rw [splitLineFrom_escape hc] at h
    rw [List.cons_append, List.cons_append, unescapeFirst_escape hc, ih h (by simp), List.append_assoc]
    rfl
  | space c u hc _ =>
    rw [splitLineFrom_space hc, if_neg hcur] at h
    rw [List.cons_append, unescapeFirst_space hc, List.append_nil]
    exact (List.cons.inj h).1.symm
  | char c u hc he ih =>
    rw [splitLineFrom_char hc he] at h
    have hne : c ≠ '\\' := by
      rintro rfl
      obtain ⟨t', ts', ht'⟩ := splitLineFrom_begun u (show cur ++ ['\\'] ≠ [] by simp)
      rw [ht'] at h
      obtain ⟨rfl, -⟩ := List.cons.inj h
      simp at ht
    rw [List.cons_append, unescapeFirst_char hc hne, ih h (by simp), List.append_assoc]
    rfl

/-- The first token the parser reads is the first token of the line. -/
theorem firstToken_eq {line t : Str} {ts : List Str} (h : lineTokens line = t :: ts)
    (ht : '\\' ∉ t) : firstToken line = t := by
  have hi : ¬ Idle line := by
    intro hi
    rw [lineTokens_eq_nil.mpr hi] at h
    cases h
  rw [lineTokens, if_neg hi] at h
  obtain ⟨c, u, hu⟩ := List.exists_cons_of_ne_nil (not_or.mp hi).1
  have hc : isSpace c = false := strip_head (by rw [hu]; rfl)
  have hfirst : ∃ ts', splitLine (strip line) = t :: ts' := by
    cases hs : splitLine (strip line) with
    | nil => rw [hs] at h; cases h
    | cons t' ts' =>
      rw [hs, beforeComment, List.takeWhile_cons] at h
      split at h
      · exact ⟨ts', by rw [(List.cons.inj h).1]⟩
      · cases h
  obtain ⟨ts', hs⟩ := hfirst
  have htrail : ∀ d ∈ (line.dropWhile isSpace).rtakeWhile isSpace, isSpace d = true :=
    fun d hd => List.mem_rtakeWhile_imp hd
  have hline : line.dropWhile isSpace =
      strip line ++ (line.dropWhile isSpace).rtakeWhile isSpace :=
    List.rdropWhile_append_rtakeWhile.symm
  rw [firstToken, hline]
  rw [splitLine, hu] at hs
  rw [hu, List.cons_append]
  by_cases he : Escapes c u
  · obtain ⟨rfl, d, hd, hsp⟩ := he
    obtain ⟨u, rfl⟩ : ∃ u', u = d :: u' := by
      cases u with
      | nil => cases hd
      | cons e u => exact ⟨u, by simpa using hd⟩
    rw [splitLineFrom_escape hsp] at hs
    rw [List.cons_append, unescapeFirst_escape hsp]
    exact (splitLineFrom_first hs (by simp) ht htrail).symm
  · rw [splitLineFrom_char hc he] at hs
    have hne : c ≠ '\\' := by
      rintro rfl
      obtain ⟨t', ts', ht'⟩ := splitLineFrom_begun u (List.cons_ne_nil '\\' [])
      rw [List.nil_append, ht'] at hs
      obtain ⟨rfl, -⟩ := List.cons.inj hs
      simp at ht
    rw [unescapeFirst_char hc hne]
    exact (splitLineFrom_first hs (by simp) ht htrail).symm

/-! ## Rendering -/

/-- A backslash in front of each whitespace. -/
def escapeToken (token : Str) : Str := token.flatMap fun c => if isSpace c then ['\\', c] else [c]

/-- A line with these tokens, one space between them. -/
def renderTokens (tokens : List Str) : Str := join [' '] (tokens.map escapeToken)

def CodeownersRule.render (rule : CodeownersRule) : Str := renderTokens (rule.pattern :: rule.owners)

/-- One rule a line, with line feeds between them. -/
def CodeownersDocument.render (document : CodeownersDocument) : Str :=
  join ['\n'] (document.rules.map CodeownersRule.render)

@[simp] theorem escapeToken_nil : escapeToken [] = [] := rfl

theorem escapeToken_append (s t : Str) : escapeToken (s ++ t) = escapeToken s ++ escapeToken t :=
  List.flatMap_append

theorem escapeToken_space {c : Char} (hc : isSpace c = true) : escapeToken [c] = ['\\', c] := by
  simp [escapeToken, hc]

theorem escapeToken_char {c : Char} (hc : isSpace c = false) : escapeToken [c] = [c] := by
  simp [escapeToken, hc]

/-- A token that a rendered line spells: whitespace stands inside it only, and
no backslash. -/
structure Renderable (token : Str) : Prop where
  not_nil : token ≠ []
  stripped : strip token = token
  not_escape : '\\' ∉ token

/-- Reading an escaped token adds its characters to the current one. -/
theorem splitLineFrom_escapeToken {token : Str} (h : '\\' ∉ token) (rest cur : Str) :
    splitLineFrom (escapeToken token ++ rest) cur = splitLineFrom rest (cur ++ token) := by
  induction token generalizing cur with
  | nil => rw [escapeToken_nil, List.nil_append, List.append_nil]
  | cons c token ih =>
    rw [List.mem_cons, not_or] at h
    have step : splitLineFrom (escapeToken [c] ++ (escapeToken token ++ rest)) cur =
        splitLineFrom (escapeToken token ++ rest) (cur ++ [c]) := by
      cases hc : isSpace c with
      | true => rw [escapeToken_space hc]; exact splitLineFrom_escape hc _ _
      | false =>
        rw [escapeToken_char hc]
        exact splitLineFrom_char hc (fun he => h.1 he.1.symm) _
    rw [← List.singleton_append, escapeToken_append, List.append_assoc, step, ih h.2, List.append_assoc]

theorem splitLine_renderTokens {tokens : List Str} (h : ∀ token ∈ tokens, Renderable token) :
    splitLine (renderTokens tokens) = tokens := by
  unfold splitLine renderTokens
  induction tokens with
  | nil => rfl
  | cons token tokens ih =>
    rw [List.forall_mem_cons] at h
    cases tokens with
    | nil =>
      have := splitLineFrom_escapeToken h.1.not_escape [] []
      rw [List.append_nil, List.nil_append, splitLineFrom_nil, if_neg h.1.not_nil] at this
      rw [List.map_singleton, join_singleton, this]
    | cons next tokens =>
      rw [List.map_cons, List.map_cons, join_cons_cons, List.append_assoc,
        splitLineFrom_escapeToken h.1.not_escape, List.nil_append, List.singleton_append,
        splitLineFrom_space (by decide), if_neg h.1.not_nil, ← List.map_cons, ih h.2]

theorem escapeToken_head {token : Str} (h : Renderable token) (rest : Str) :
    (escapeToken token ++ rest).head? = token.head? := by
  obtain ⟨c, t, rfl⟩ := List.exists_cons_of_ne_nil h.not_nil
  have hc : isSpace c = false := (strip_eq_self.mp h.stripped).1 c rfl
  rw [← List.singleton_append, escapeToken_append, escapeToken_char hc]
  rfl

theorem escapeToken_last {token : Str} (h : Renderable token) :
    (escapeToken token).getLast? = token.getLast? := by
  obtain ⟨t, c, rfl⟩ := (List.eq_nil_or_concat' token).resolve_left h.not_nil
  have hc : isSpace c = false := (strip_eq_self.mp h.stripped).2 c (by simp)
  rw [escapeToken_append, escapeToken_char hc]
  simp

theorem renderTokens_head {token : Str} (h : Renderable token) (tokens : List Str) :
    (renderTokens (token :: tokens)).head? = token.head? := by
  cases tokens with
  | nil => simpa [renderTokens, join_singleton] using escapeToken_head h []
  | cons next tokens =>
    rw [renderTokens, List.map_cons, List.map_cons, join_cons_cons, List.append_assoc,
      escapeToken_head h]

/-- A rendered line begins and ends with a character of a token, so nothing is
stripped from it. -/
theorem strip_renderTokens {tokens : List Str} (h : ∀ token ∈ tokens, Renderable token) :
    strip (renderTokens tokens) = renderTokens tokens := by
  refine strip_eq_self.mpr ⟨?_, ?_⟩
  · intro c hc
    cases tokens with
    | nil => cases hc
    | cons token tokens =>
      rw [List.forall_mem_cons] at h
      rw [renderTokens_head h.1] at hc
      exact (strip_eq_self.mp h.1.stripped).1 c hc
  · induction tokens with
    | nil => intro c hc; cases hc
    | cons token tokens ih =>
      rw [List.forall_mem_cons] at h
      intro c hc
      cases tokens with
      | nil =>
        rw [renderTokens, List.map_singleton, join_singleton, escapeToken_last h.1] at hc
        exact (strip_eq_self.mp h.1.stripped).2 c hc
      | cons next tokens =>
        have hne : renderTokens (next :: tokens) ≠ [] := by
          intro he
          have := renderTokens_head (h.2 next (by simp)) tokens
          rw [he] at this
          exact (h.2 next (by simp)).not_nil (List.head?_eq_none_iff.mp this.symm)
        rw [renderTokens, List.map_cons, List.map_cons, join_cons_cons, ← List.map_cons] at hc
        refine ih h.2 c ?_
        rw [← hc]
        exact (List.getLast?_append_of_ne_nil _ hne).symm

/-! ## Reading a rendered line -/

theorem renderable_pattern (rule : CodeownersRule) : Renderable rule.pattern := by
  obtain ⟨hs, hne, -, -, -, he, -⟩ := validatePattern_eq_ok.mp rule.pattern_is_valid
  exact ⟨hne, hs, he⟩

theorem pattern_not_comment (rule : CodeownersRule) : startsWith '#' rule.pattern = false :=
  (validatePattern_eq_ok.mp rule.pattern_is_valid).2.2.2.2.2.2.1

theorem renderable_owner {owner : Str} (h : ownerRe.fullmatch owner = true) : Renderable owner := by
  obtain ⟨rest, rfl, hr⟩ := ownerRe_spec h
  refine ⟨List.cons_ne_nil _ _, strip_eq_self.mpr ⟨?_, ?_⟩, ?_⟩
  · intro c hc
    obtain rfl : '@' = c := by simpa using hc
    decide
  · intro c hc
    rcases List.mem_cons.mp (List.mem_of_getLast? hc) with rfl | hc
    · decide
    · exact (hr c hc).not_space
  · intro hc
    rcases List.mem_cons.mp hc with hc | hc
    · exact absurd hc (by decide)
    · exact (hr _ hc).not_escape rfl

section
variable [PyText]

/-- The owners of a rule are canonical and listed once. -/
structure CanonicalOwners (owners : List Str) : Prop where
  canonical : ∀ owner ∈ owners, normalizeOwner owner = .ok owner
  nodup : owners.Nodup

theorem normalizeOwner_self [LawfulPyText] {value owner : Str} (h : normalizeOwner value = .ok owner) :
    normalizeOwner owner = .ok owner := by
  obtain ⟨ho, hm⟩ := normalizeOwner_ok h
  have hl : PyText.lower owner = owner := by rw [ho, LawfulPyText.lower_lower]
  obtain ⟨rest, he, -⟩ := ownerRe_spec hm
  have hat : startsWith '@' owner = true := by rw [he]; rfl
  unfold normalizeOwner
  rw [(renderable_owner hm).stripped, hl, if_neg (by simp [hat]), if_neg (by simp [hm])]

/-- The rule of a line has canonical owners. -/
theorem canonicalOwners [LawfulPyText] {raw_owners owners : List Str}
    (h : List.Forall₂ (fun raw_owner owner => normalizeOwner raw_owner = .ok owner) raw_owners owners) :
    CanonicalOwners (fromKeys owners) := by
  refine ⟨fun owner ho => ?_, nodup_fromKeys owners⟩
  rw [mem_fromKeys] at ho
  induction h with
  | nil => cases ho
  | cons h₁ _ ih =>
    rcases List.mem_cons.mp ho with rfl | ho
    · exact normalizeOwner_self h₁
    · exact ih ho

theorem lineTokens_render {rule : CodeownersRule} (h : CanonicalOwners rule.owners) :
    lineTokens rule.render = rule.pattern :: rule.owners := by
  have owner_spec : ∀ owner ∈ rule.owners, ownerRe.fullmatch owner = true :=
    fun owner ho => (normalizeOwner_ok (h.canonical owner ho)).2
  have hall : ∀ token ∈ rule.pattern :: rule.owners, Renderable token :=
    List.forall_mem_cons.mpr ⟨renderable_pattern rule, fun o ho => renderable_owner (owner_spec o ho)⟩
  have hcomment : ∀ token ∈ rule.pattern :: rule.owners, startsWith '#' token = false := by
    refine List.forall_mem_cons.mpr ⟨pattern_not_comment rule, fun owner ho => ?_⟩
    obtain ⟨rest, rfl, -⟩ := ownerRe_spec (owner_spec owner ho)
    rfl
  have hhead := renderTokens_head (renderable_pattern rule) rule.owners
  have hidle : ¬ Idle rule.render := by
    have hs : strip rule.render = rule.render := strip_renderTokens hall
    unfold Idle
    rw [hs, startsWith]
    change ¬ (_ ∨ decide ((renderTokens (rule.pattern :: rule.owners)).head? = some '#') = true)
    rw [hhead, ← startsWith, pattern_not_comment]
    rintro (he | he)
    · rw [show renderTokens (rule.pattern :: rule.owners) = [] from he] at hhead
      exact (renderable_pattern rule).not_nil (List.head?_eq_none_iff.mp hhead.symm)
    · cases he
  rw [lineTokens, if_neg hidle]
  have hsplit : splitLine (strip rule.render) = rule.pattern :: rule.owners := by
    rw [show strip rule.render = rule.render from strip_renderTokens hall]
    exact splitLine_renderTokens hall
  rw [hsplit]
  exact List.takeWhile_eq_self_iff.mpr fun token ht => by rw [hcomment token ht]; rfl

/-- A rendered rule is read back. -/
theorem parseLine_render {rule : CodeownersRule} (h : CanonicalOwners rule.owners) (n : Nat) :
    parseLine n rule.render = ([], some { rule with line_number := n }) := by
  have ho : parseOwners n rule.owners = ([], rule.owners) :=
    parseOwners_of_ok (List.forall₂_same.mpr h.canonical)
  rw [parseLine_eq, lineTokens_render h, parseTokens_pattern _ rule.pattern_is_valid, ho,
    if_neg (not_not.mpr rfl)]
  simp only [fromKeys_eq_self h.nodup]

theorem parse_rendered {rules : List CodeownersRule} (h : ∀ rule ∈ rules, CanonicalOwners rule.owners)
    (k : Nat) : lineIssues k (rules.map CodeownersRule.render) = [] ∧
      (lineRules k (rules.map CodeownersRule.render)).map (fun rule => (rule.pattern, rule.owners)) =
        rules.map fun rule => (rule.pattern, rule.owners) := by
  induction rules generalizing k with
  | nil => exact ⟨rfl, rfl⟩
  | cons rule rules ih =>
    rw [List.forall_mem_cons] at h
    obtain ⟨h₁, h₂⟩ := ih h.2 (k + 1)
    rw [List.map_cons, lineIssues, lineRules, parseLine_render h.1, h₁]
    refine ⟨rfl, ?_⟩
    rw [List.map_append, h₂]
    rfl

end

/-! ## The lines of a rendered document -/

theorem splitlines_line {l : Str} (hb : ∀ c ∈ l, isLineBreak c = false) (s : Str) :
    splitlines (l ++ '\n' :: s) = l :: splitlines s := by
  rw [splitlines_eq, splitlines_eq]
  induction l with
  | nil =>
    rw [List.nil_append, linesAt_cons _ (by simp [NotPair])]
    rfl
  | cons c l ih =>
    rw [List.forall_mem_cons] at hb
    have hp : NotPair c (l ++ '\n' :: s) := by
      rintro ⟨rfl, -⟩
      exact absurd hb.1 (by decide)
    rw [List.cons_append, linesAt_cons _ hp, ih hb.2, if_neg (by simp [hb.1])]
    rfl

theorem splitlines_last {l : Str} (hb : ∀ c ∈ l, isLineBreak c = false) (hne : l ≠ []) :
    splitlines l = [l] := by
  rw [splitlines_eq]
  induction l with
  | nil => exact absurd rfl hne
  | cons c l ih =>
    rw [List.forall_mem_cons] at hb
    have hp : NotPair c l := by
      rintro ⟨rfl, -⟩
      exact absurd hb.1 (by decide)
    rw [linesAt_cons _ hp, if_neg (by simp [hb.1])]
    cases l with
    | nil => rfl
    | cons d l =>
      rw [ih hb.2 (List.cons_ne_nil _ _)]
      rfl

theorem splitlines_join {ls : List Str} (h : ∀ l ∈ ls, l ≠ [] ∧ ∀ c ∈ l, isLineBreak c = false) :
    splitlines (join ['\n'] ls) = ls := by
  induction ls with
  | nil => rfl
  | cons l ls ih =>
    rw [List.forall_mem_cons] at h
    cases ls with
    | nil => rw [join_singleton, splitlines_last h.1.2 h.1.1]
    | cons m ls =>
      rw [join_cons_cons, List.append_assoc, List.singleton_append, splitlines_line h.1.2, ih h.2]

/-- No line holds a break. -/
theorem not_break_of_mem {s l : Str} (h : l ∈ splitlines s) : ∀ c ∈ l, isLineBreak c = false := by
  rw [splitlines_eq] at h
  induction s using text_induction generalizing l with
  | nil => cases h
  | pair s ih =>
    rcases List.mem_cons.mp h with rfl | h
    · simp
    · exact ih h
  | char c s hp ih =>
    rw [linesAt_cons _ hp] at h
    split at h
    · rcases List.mem_cons.mp h with rfl | h
      · simp
      · exact ih h
    · rename_i hc
      have hc : isLineBreak c = false := by simpa using hc
      revert h ih
      cases linesAt isLineBreak s with
      | nil =>
        intro _ h
        rw [List.mem_singleton.mp h]
        simpa using hc
      | cons m ms =>
        intro ih h
        rcases List.mem_cons.mp h with rfl | h
        · exact List.forall_mem_cons.mpr ⟨hc, ih List.mem_cons_self⟩
        · exact ih (List.mem_cons_of_mem _ h)

theorem mem_of_splitLineFrom {u cur token : Str} (h : token ∈ splitLineFrom u cur) :
    ∀ c ∈ token, c ∈ u ∨ c ∈ cur := by
  induction u using token_induction generalizing cur with
  | nil =>
    rw [splitLineFrom_nil] at h
    split at h
    · cases h
    · rw [List.mem_singleton.mp h]
      exact fun c hc => .inr hc
  | escape d u hd ih =>
    rw [splitLineFrom_escape hd] at h
    intro c hc
    have := ih h c hc
    simp only [List.mem_append, List.mem_cons, List.not_mem_nil, or_false] at this ⊢
    tauto
  | space d u hd ih =>
    rw [splitLineFrom_space hd] at h
    intro c hc
    split at h
    · have := ih h c hc
      simp only [List.not_mem_nil, or_false] at this
      exact .inl (List.mem_cons_of_mem _ this)
    · rcases List.mem_cons.mp h with rfl | h
      · exact .inr hc
      · have := ih h c hc
        simp only [List.not_mem_nil, or_false] at this
        exact .inl (List.mem_cons_of_mem _ this)
  | char d u hd he ih =>
    rw [splitLineFrom_char hd he] at h
    intro c hc
    have := ih h c hc
    simp only [List.mem_append, List.mem_cons, List.not_mem_nil, or_false] at this ⊢
    tauto

theorem mem_of_strip {s : Str} {c : Char} (h : c ∈ strip s) : c ∈ s :=
  (List.dropWhile_sublist _).subset ((List.rdropWhile_prefix _ _).subset h)

theorem mem_of_lineTokens {line token : Str} (h : token ∈ lineTokens line) : ∀ c ∈ token, c ∈ line := by
  unfold lineTokens at h
  split at h
  · cases h
  · have hm := List.takeWhile_subset _ h
    intro c hc
    have := mem_of_splitLineFrom hm c hc
    simp only [List.not_mem_nil, or_false] at this
    exact mem_of_strip this

theorem mem_escapeToken {token : Str} {c : Char} (h : c ∈ escapeToken token) : c = '\\' ∨ c ∈ token := by
  obtain ⟨d, hd, hc⟩ := List.mem_flatMap.mp h
  split at hc
  · simp only [List.mem_cons, List.not_mem_nil, or_false] at hc
    rcases hc with rfl | rfl
    · exact .inl rfl
    · exact .inr hd
  · rw [List.mem_singleton.mp hc]
    exact .inr hd

/-- A rendered rule is one line when its pattern is. -/
theorem not_break_render [PyText] {rule : CodeownersRule} (h : CanonicalOwners rule.owners)
    (hp : ∀ c ∈ rule.pattern, isLineBreak c = false) : ∀ c ∈ rule.render, isLineBreak c = false := by
  intro c hc
  rcases mem_join hc with hc | ⟨l, hl, hc⟩
  · rw [List.mem_singleton.mp hc]
    decide
  · obtain ⟨token, ht, rfl⟩ := List.mem_map.mp hl
    rcases mem_escapeToken hc with rfl | hc
    · decide
    · rcases List.mem_cons.mp ht with rfl | ht
      · exact hp c hc
      · obtain ⟨rest, rfl, hr⟩ := ownerRe_spec (normalizeOwner_ok (h.canonical _ ht)).2
        rcases List.mem_cons.mp hc with rfl | hc
        · decide
        · by_contra hb
          have := isLineBreak_isSpace (by simpa using hb)
          rw [(hr c hc).not_space] at this
          cases this

/-! ## The size of a rendered document -/

@[simp] theorem utf8Length_nil : utf8Length [] = 0 := rfl

@[simp] theorem utf8Length_append (s t : Str) : utf8Length (s ++ t) = utf8Length s + utf8Length t := by
  simp [utf8Length]

@[simp] theorem utf8Length_cons (c : Char) (s : Str) : utf8Length (c :: s) = c.utf8Size + utf8Length s := by
  simp [utf8Length]

theorem utf8Length_sublist {s t : Str} (h : s.Sublist t) : utf8Length s ≤ utf8Length t := by
  induction h with
  | slnil => exact le_refl _
  | cons c _ ih => rw [utf8Length_cons]; omega
  | cons_cons c _ ih => rw [utf8Length_cons, utf8Length_cons]; omega

theorem strip_sublist (s : Str) : (strip s).Sublist s :=
  (List.rdropWhile_prefix _ _).sublist.trans (List.dropWhile_sublist _)

theorem escapeToken_sublist {s t : Str} (h : s.Sublist t) : (escapeToken s).Sublist (escapeToken t) := by
  induction h with
  | slnil => exact List.Sublist.refl _
  | cons c _ ih =>
    rw [← List.singleton_append, escapeToken_append]
    exact ih.trans (List.sublist_append_right _ _)
  | @cons_cons s t c _ ih =>
    rw [← List.singleton_append, ← List.singleton_append (l := t), escapeToken_append, escapeToken_append]
    exact (List.append_sublist_append_left _).mpr ih

theorem sublist_escapeToken (s : Str) : s.Sublist (escapeToken s) := by
  induction s with
  | nil => exact List.Sublist.refl _
  | cons c s ih =>
    rw [← List.singleton_append, escapeToken_append]
    refine List.Sublist.append ?_ ih
    cases hc : isSpace c with
    | true => rw [escapeToken_space hc]; exact List.sublist_cons_self _ _
    | false => rw [escapeToken_char hc]

/-- The bytes of lines with a separator of one byte behind each. -/
def endedLength (ls : List Str) : Nat := (ls.map fun l => utf8Length l + 1).sum

@[simp] theorem endedLength_nil : endedLength [] = 0 := rfl

@[simp] theorem endedLength_cons (l : Str) (ls : List Str) :
    endedLength (l :: ls) = utf8Length l + 1 + endedLength ls := by
  simp [endedLength]

theorem endedLength_sublist {ls ms : List Str} (h : ls.Sublist ms) : endedLength ls ≤ endedLength ms := by
  induction h with
  | slnil => exact le_refl _
  | cons c _ ih => rw [endedLength_cons]; omega
  | cons_cons c _ ih => rw [endedLength_cons, endedLength_cons]; omega

theorem utf8Length_join {c : Char} (hc : c.utf8Size = 1) (ls : List Str) :
    utf8Length (join [c] ls) ≤ endedLength ls - 1 := by
  induction ls with
  | nil => exact le_refl _
  | cons l ls ih =>
    cases ls with
    | nil => rw [join_singleton]; simp
    | cons m ls =>
      rw [join_cons_cons, utf8Length_append, utf8Length_append, endedLength_cons]
      simp only [utf8Length_cons, utf8Length_nil, hc, endedLength_cons] at ih ⊢
      omega

/-- The escaped tokens of a text take no more bytes than the text. -/
theorem endedLength_splitLineFrom (u cur : Str) :
    endedLength ((splitLineFrom u cur).map escapeToken) ≤ utf8Length u + utf8Length (escapeToken cur) + 1 := by
  induction u using token_induction generalizing cur with
  | nil =>
    rw [splitLineFrom_nil]
    split <;> simp
  | escape c u hc ih =>
    have := ih (cur ++ [c])
    rw [escapeToken_append, escapeToken_space hc] at this
    rw [splitLineFrom_escape hc]
    simp only [utf8Length_append, utf8Length_cons, utf8Length_nil] at this ⊢
    omega
  | space c u hc ih =>
    have := ih []
    have hsize := Char.utf8Size_pos c
    rw [splitLineFrom_space hc]
    simp only [escapeToken_nil, utf8Length_nil, utf8Length_cons] at this ⊢
    split
    · omega
    · rw [List.map_cons, endedLength_cons]
      omega
  | char c u hc he ih =>
    have := ih (cur ++ [c])
    rw [escapeToken_append, escapeToken_char hc] at this
    rw [splitLineFrom_char hc he]
    simp only [utf8Length_append, utf8Length_cons, utf8Length_nil] at this ⊢
    omega

theorem endedLength_lineTokens (line : Str) :
    endedLength ((lineTokens line).map escapeToken) ≤ utf8Length line + 1 := by
  unfold lineTokens
  split
  · simp
  · refine le_trans (endedLength_sublist ((List.takeWhile_sublist _).map _)) ?_
    refine le_trans (endedLength_splitLineFrom _ _) ?_
    have := utf8Length_sublist (strip_sublist line)
    simpa using this

theorem endedLength_splitlines (s : Str) : endedLength (splitlines s) ≤ utf8Length s + 1 := by
  have head : ∀ (c : Char) (ls : List Str), endedLength (consLine c ls) ≤
      max (c.utf8Size + 1) (c.utf8Size + endedLength ls) := by
    intro c ls
    cases ls with
    | nil => simp [consLine]
    | cons l ls =>
      rw [consLine, endedLength_cons, endedLength_cons, utf8Length_cons]
      omega
  rw [splitlines_eq]
  induction s using text_induction with
  | nil => simp
  | pair s ih =>
    rw [linesAt_pair, endedLength_cons]
    simp only [utf8Length_cons, utf8Length_nil]
    have h₁ := Char.utf8Size_pos '\r'
    have h₂ := Char.utf8Size_pos '\n'
    omega
  | char c s hp ih =>
    rw [linesAt_cons _ hp, utf8Length_cons]
    split
    · have := Char.utf8Size_pos c
      rw [endedLength_cons, utf8Length_nil]
      omega
    · have := head c (linesAt isLineBreak s)
      omega

section
variable [PyText]

theorem utf8Length_owner [CharwiseLower] {value owner : Str} (h : normalizeOwner value = .ok owner) :
    utf8Length owner ≤ utf8Length value := by
  obtain ⟨ho, hm⟩ := normalizeOwner_ok h
  obtain ⟨images, hl, hi⟩ := CharwiseLower.lower_chars (strip value)
  have hchar : ∀ c ∈ images.flatten, c.toNat < 128 ∨ isIgnoreCaseLetter c = true := by
    rw [← hl, ← ho]
    obtain ⟨rest, rfl, hr⟩ := ownerRe_spec hm
    exact List.forall_mem_cons.mpr ⟨.inl (by decide), fun c hc => (hr c hc).ascii⟩
  refine le_trans ?_ (utf8Length_sublist (strip_sublist value))
  rw [ho, hl]
  clear hl
  generalize strip value = s at hi
  induction hi with
  | nil => exact le_refl _
  | @cons c image s images h₁ _ ih =>
    rw [List.flatten_cons, List.forall_mem_append] at hchar
    rw [List.flatten_cons, utf8Length_append, utf8Length_cons]
    have := h₁.short hchar.1
    have := ih hchar.2
    omega

/-- The rule of a line, rendered, takes no more bytes than the line. -/
theorem utf8Length_render [CharwiseLower] {n : Nat} {line : Str} {rule : CodeownersRule}
    (hi : (parseLine n line).1 = []) (hr : (parseLine n line).2 = some rule) :
    utf8Length rule.render ≤ utf8Length line := by
  have hline := endedLength_lineTokens line
  rw [parseLine_eq] at hi hr
  cases ht : lineTokens line with
  | nil =>
    rw [ht] at hr
    cases hr
  | cons raw_pattern raw_owners =>
    rw [ht] at hi hr hline
    obtain ⟨pattern, owners, hp, ho, hrule⟩ := parseTokens_ok hi
    rw [hrule] at hr
    cases hr
    have hpattern : utf8Length (escapeToken pattern) ≤ utf8Length (escapeToken raw_pattern) := by
      rw [(validatePattern_ok hp).1]
      exact utf8Length_sublist (escapeToken_sublist (strip_sublist raw_pattern))
    have howners : endedLength (owners.map escapeToken) ≤ endedLength (raw_owners.map escapeToken) := by
      clear hrule hi hline ht
      induction ho with
      | nil => exact le_refl _
      | @cons raw_owner owner raw_owners owners h₁ _ ih =>
        have hself : escapeToken owner = owner := by
          obtain ⟨rest, rfl, hrest⟩ := ownerRe_spec (normalizeOwner_ok h₁).2
          have : ∀ s : Str, (∀ c ∈ s, isSpace c = false) → escapeToken s = s := by
            intro s hs
            induction s with
            | nil => rfl
            | cons c s ih =>
              rw [List.forall_mem_cons] at hs
              rw [← List.singleton_append, escapeToken_append, escapeToken_char hs.1, ih hs.2]
          exact this _ (List.forall_mem_cons.mpr ⟨by decide, fun c hc => (hrest c hc).not_space⟩)
        have h₂ := utf8Length_owner h₁
        have h₃ := utf8Length_sublist (sublist_escapeToken raw_owner)
        rw [List.map_cons, List.map_cons, endedLength_cons, endedLength_cons, hself]
        omega
    have hkeys := endedLength_sublist ((fromKeys_sublist owners).map escapeToken)
    have hjoin := utf8Length_join (c := ' ') rfl ((pattern :: fromKeys owners).map escapeToken)
    rw [List.map_cons, endedLength_cons] at hline hjoin
    change utf8Length (join [' '] ((pattern :: fromKeys owners).map escapeToken)) ≤ _
    rw [List.map_cons]
    omega

theorem endedLength_rendered [CharwiseLower] {k : Nat} {lines : List Str} (hi : lineIssues k lines = []) :
    endedLength ((lineRules k lines).map CodeownersRule.render) ≤ endedLength lines := by
  induction lines generalizing k with
  | nil => exact le_refl _
  | cons line lines ih =>
    rw [lineIssues, List.append_eq_nil_iff] at hi
    have := ih hi.2
    rw [lineRules, endedLength_cons]
    cases hr : (parseLine k line).2 with
    | none =>
      simp only [Option.toList_none, List.nil_append]
      omega
    | some rule =>
      have := utf8Length_render hi.1 hr
      simp only [Option.toList_some, List.singleton_append, List.map_cons, endedLength_cons]
      omega

/-! ## Parsed documents -/

/-- Every rule comes from the line with its number. -/
theorem mem_lineRules {k : Nat} {lines : List Str} {rule : CodeownersRule} (h : rule ∈ lineRules k lines) :
    ∃ n line, lines[n]? = some line ∧ (parseLine (k + n) line).2 = some rule := by
  induction lines generalizing k with
  | nil => cases h
  | cons line lines ih =>
    rcases List.mem_append.mp h with h | h
    · exact ⟨0, line, rfl, by simpa using h⟩
    · obtain ⟨n, l, hl, hr⟩ := ih h
      exact ⟨n + 1, l, by simpa using hl, by rw [← hr, show k + (n + 1) = k + 1 + n by omega]⟩

theorem lineIssues_getElem {k n : Nat} {lines : List Str} {line : Str} (h : lineIssues k lines = [])
    (hl : lines[n]? = some line) : (parseLine (k + n) line).1 = [] := by
  have := lineIssues_at k n lines
  rw [h, hl] at this
  simpa using this.symm

/-- What a parsed line makes of its tokens. -/
theorem rule_of_line [CharwiseLower] {n : Nat} {line : Str} {rule : CodeownersRule}
    (hi : (parseLine n line).1 = []) (hr : (parseLine n line).2 = some rule) :
    rule.pattern = strip (firstToken line) ∧ CanonicalOwners rule.owners ∧
      ∀ c ∈ rule.pattern, c ∈ line := by
  rw [parseLine_eq] at hi hr
  cases ht : lineTokens line with
  | nil =>
    rw [ht] at hr
    cases hr
  | cons raw_pattern raw_owners =>
    have hb := not_backslash_of_ok hi raw_pattern (by rw [ht]; simp)
    rw [ht] at hi hr
    obtain ⟨pattern, owners, hp, ho, hrule⟩ := parseTokens_ok hi
    rw [hrule] at hr
    cases hr
    have hpattern : pattern = strip raw_pattern := (validatePattern_ok hp).1
    refine ⟨by rw [firstToken_eq ht hb, ← hpattern], canonicalOwners ho, fun c hc => ?_⟩
    have hc : c ∈ strip raw_pattern := hpattern ▸ hc
    exact mem_of_lineTokens (by rw [ht]; simp) c (mem_of_strip hc)

/-- The first token of the line begins and ends with a character that is no
whitespace. -/
def PlainEnds (token : Str) : Prop :=
  (∀ c, token.head? = some c → isSpace c = false) ∧ ∀ c, token.getLast? = some c → isSpace c = false

/-- An accepted line keeps its first token as the pattern exactly when the token
has no whitespace at its ends; a rendered document parses to itself. -/
theorem codeowners_escapes [CharwiseLower] (content : Str) (document : CodeownersDocument)
    (h : parseCodeowners content = .ok document) :
    (∀ n line, (splitlines content)[n]? = some line → ¬ Idle line →
      ∃ rule ∈ document.rules, rule.line_number = 1 + n ∧
        (rule.pattern = firstToken line ↔ PlainEnds (firstToken line))) ∧
    ∃ again, parseCodeowners document.render = .ok again ∧
      again.rules.map (fun rule => (rule.pattern, rule.owners)) =
        document.rules.map fun rule => (rule.pattern, rule.owners) := by
  obtain ⟨hs, hi, rfl⟩ := parseCodeowners_ok h
  constructor
  · intro n line hline hidle
    have hissues := lineIssues_getElem hi hline
    rcases parseTokens_spec (1 + n) (mt lineTokens_eq_nil.mp hidle) with ⟨-, rule, hr, hn⟩ | ⟨hne, -⟩
    · rw [← parseLine_eq] at hr
      have hmem : rule ∈ (lineRules 1 (splitlines content)).filter
          (fun rule => rule.line_number = 1 + n) := by
        rw [lineRules_at, hline]
        simp [hr]
      refine ⟨rule, (List.mem_filter.mp hmem).1, hn, ?_⟩
      rw [(rule_of_line hissues hr).1]
      exact strip_eq_self
    · exact absurd (by rw [← parseLine_eq]; exact hissues) hne
  · have hrules : ∀ rule ∈ lineRules 1 (splitlines content), CanonicalOwners rule.owners ∧
        ∀ c ∈ rule.pattern, isLineBreak c = false := by
      intro rule hrule
      obtain ⟨n, line, hline, hr⟩ := mem_lineRules hrule
      obtain ⟨-, hc, hp⟩ := rule_of_line (lineIssues_getElem hi hline) hr
      exact ⟨hc, fun c hcp => not_break_of_mem (List.mem_of_getElem? hline) c (hp c hcp)⟩
    have hlines : splitlines (CodeownersDocument.render ⟨lineRules 1 (splitlines content)⟩) =
        (lineRules 1 (splitlines content)).map CodeownersRule.render := by
      refine splitlines_join fun l hl => ?_
      obtain ⟨rule, hrule, rfl⟩ := List.mem_map.mp hl
      obtain ⟨hc, hb⟩ := hrules rule hrule
      constructor
      · intro he
        have := renderTokens_head (renderable_pattern rule) rule.owners
        rw [show renderTokens (rule.pattern :: rule.owners) = [] from he] at this
        exact (renderable_pattern rule).not_nil (List.head?_eq_none_iff.mp this.symm)
      · exact not_break_render hc hb
    have hsize : utf8Length (CodeownersDocument.render ⟨lineRules 1 (splitlines content)⟩) ≤
        MAX_CODEOWNERS_BYTES := by
      have h₁ := utf8Length_join (c := '\n') rfl
        ((lineRules 1 (splitlines content)).map CodeownersRule.render)
      have h₂ := endedLength_rendered hi
      have h₃ := endedLength_splitlines content
      exact h₁.trans (by omega)
    obtain ⟨hissues, hsame⟩ := parse_rendered (fun rule hr => (hrules rule hr).1) 1
    refine ⟨_, ?_, hsame⟩
    rw [parseCodeowners_eq hsize, hlines, parseLines, if_neg (not_not.mpr hissues)]

end

theorem sampleDocument_escapes : let _ := asciiText
    ∃ document, parseCodeowners "a\\ b @O @o\n*" = .ok document ∧
      ∃ again, parseCodeowners document.render = .ok again ∧
        again.rules.map (fun rule => (rule.pattern, rule.owners)) =
          document.rules.map fun rule => (rule.pattern, rule.owners) := by
  let _ := asciiText
  have _ := asciiText_charwise
  have h : parseCodeowners "a\\ b @O @o\n*" = .ok ⟨lineRules 1 (splitlines "a\\ b @O @o\n*")⟩ := by
    rw [parseCodeowners_eq (by decide)]
    rfl
  exact ⟨_, h, (codeowners_escapes _ _ h).2⟩

/-- The line names the file ` a`; the rule owns the files `a`. -/
theorem escaped_space_stripped : let _ := asciiText
    splitlines "\\ a @o" = [("\\ a @o" : Str)] ∧ firstToken "\\ a @o" = " a" ∧
    ∃ document rule, parseCodeowners "\\ a @o" = .ok document ∧ document.rules = [rule] ∧
      rule.line_number = 1 ∧ rule.pattern = "a" ∧ rule.pattern ≠ firstToken "\\ a @o" := by
  let _ := asciiText
  refine ⟨by decide, by decide, ⟨lineRules 1 (splitlines "\\ a @o")⟩, ⟨"a", ["@o"], 1, rfl⟩, ?_, rfl,
    rfl, rfl, by decide⟩
  rw [parseCodeowners_eq (by decide)]
  rfl

end ExtraCodeowners
