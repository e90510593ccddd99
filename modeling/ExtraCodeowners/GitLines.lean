import ExtraCodeowners.LineTokens

/-!
# The parser and the lines of Git

`parseCodeowners` reads the lines of `str.splitlines`. It yields what the lines
of Git state exactly when only blank text and comments stand behind a break
that Git does not know; a form feed in a comment is enough for a hidden rule.
-/

namespace ExtraCodeowners

/-! ## Skipped text behind a line -/

theorem idle_append {c : Char} (hc : isSpace c = true) {l : Str} (hl : Idle l) (q : Str) :
    Idle (q ++ c :: l) ↔ Idle q := by
  induction q with
  | nil => simpa [idle_space hc] using hl
  | cons d q ih =>
    rw [List.cons_append]
    cases hd : isSpace d with
    | true => rw [idle_space hd, idle_space hd, ih]
    | false => rw [idle_cons hd, idle_cons hd]

/-- Behind a line, skipped text is blank or whitespace and a comment. -/
theorem strip_append {q : Str} (hq : ¬ Idle q) {c : Char} (hc : isSpace c = true) {l : Str}
    (hl : Idle l) : strip (q ++ c :: l) = strip q ∨
      ∃ w ws t, strip (q ++ c :: l) = strip q ++ w :: (ws ++ '#' :: t) ∧ isSpace w = true ∧
        ∀ d ∈ ws, isSpace d = true := by
  obtain ⟨lead, trail, he, hlead, htrail⟩ := strip_decompose q
  obtain ⟨d, u, hu⟩ := List.exists_cons_of_ne_nil (not_or.mp hq).1
  have hd : isSpace d = false := strip_head (by rw [hu]; rfl)
  have hs : strip (q ++ c :: l) = strip (strip q ++ (trail ++ c :: l)) := by
    conv_lhs => rw [he, List.append_assoc, List.append_assoc, strip_lead hlead]
  rw [hs]
  obtain ⟨lead', trail', he', hlead', htrail'⟩ := strip_decompose l
  rcases hl with hl | hl
  · left
    refine strip_trail ?_ q
    rw [hl, List.append_nil] at he'
    rw [he']
    simp only [List.forall_mem_append, List.forall_mem_cons]
    exact ⟨htrail, hc, hlead', htrail'⟩
  · right
    obtain ⟨t, ht⟩ : ∃ t, strip l = '#' :: t := by
      cases hsl : strip l with
      | nil => rw [hsl] at hl; cases hl
      | cons e t =>
        rw [hsl] at hl
        exact ⟨t, by simpa [startsWith] using hl⟩
    obtain ⟨w, ws, hw, hws, hall⟩ : ∃ w ws, trail ++ c :: lead' = w :: ws ∧ isSpace w = true ∧
        ∀ e ∈ ws, isSpace e = true := by
      cases trail with
      | nil => exact ⟨c, lead', rfl, hc, hlead'⟩
      | cons e trail =>
        rw [List.forall_mem_cons] at htrail
        refine ⟨e, trail ++ c :: lead', rfl, htrail.1, ?_⟩
        simp only [List.forall_mem_append, List.forall_mem_cons]
        exact ⟨htrail.2, hc, hlead'⟩
    refine ⟨w, ws, (t ++ trail').rdropWhile isSpace, ?_, hws, hall⟩
    rw [he', ht, hu, List.cons_append, strip_cons hd]
    have : u ++ (trail ++ c :: (lead' ++ '#' :: t ++ trail')) =
        (u ++ w :: ws) ++ '#' :: (t ++ trail') := by
      rw [← hw]
      simp
    rw [this, rdropWhile_middle (by decide)]
    simp

/-- Skipped text behind a line whose tokens hold no backslash adds no token. -/
theorem lineTokens_append {q : Str} {c : Char} (hc : isSpace c = true) {l : Str} (hl : Idle l)
    (h : ∀ token ∈ lineTokens q, '\\' ∉ token) : lineTokens (q ++ c :: l) = lineTokens q := by
  by_cases hq : Idle q
  · rw [lineTokens, lineTokens, if_pos hq, if_pos ((idle_append hc hl q).mpr hq)]
  · have hq' := mt (idle_append hc hl q).mp hq
    rw [lineTokens, if_neg hq] at h
    rw [lineTokens, lineTokens, if_neg hq, if_neg hq']
    rcases strip_append hq hc hl with hs | ⟨w, ws, t, hs, hw, hws⟩
    · rw [hs]
    rw [hs]
    by_cases hcomment : ∃ token ∈ splitLineFrom (strip q) [], startsWith '#' token = true
    · exact beforeComment_append _ hcomment
    · have hall : beforeComment (splitLine (strip q)) = splitLine (strip q) := by
        refine List.takeWhile_eq_self_iff.mpr fun token ht => ?_
        have := mt (fun hs => ⟨token, ht, hs⟩) hcomment
        simpa using this
      rw [hall] at h ⊢
      have hend : endsWith '\\' (strip q) = false := by
        by_contra hb
        obtain ⟨ts, token, ht, hlast⟩ := splitLineFrom_backslash (by simpa using hb) []
        refine h token (by rw [splitLine, ht]; simp) ?_
        exact List.mem_of_getLast? (by simpa [endsWith] using hlast)
      obtain ⟨t', ts, ht⟩ := splitLineFrom_begun t (List.cons_ne_nil '#' [])
      rw [splitLine, splitLineFrom_append hend hw, splitLineFrom_blank hws,
        splitLineFrom_char (by decide) (by simp [Escapes]), List.nil_append, ht, beforeComment,
        List.takeWhile_append_of_pos fun token ht => by
          have := mt (fun hs => ⟨token, ht, hs⟩) hcomment
          simpa using this]
      simp [startsWith, splitLine]

/-! ## The line loop -/

section
variable [PyText]

theorem parseLine_idle {n : Nat} {line : Str} (h : Idle line) : parseLine n line = ([], none) := by
  rw [parseLine_eq, lineTokens_eq_nil.mpr h]
  rfl

/-- The issues of lines numbered from `k` on. -/
def lineIssues (k : Nat) : List Str → List CodeownersIssue
  | [] => []
  | line :: lines => (parseLine k line).1 ++ lineIssues (k + 1) lines

/-- The rules of lines numbered from `k` on. -/
def lineRules (k : Nat) : List Str → List CodeownersRule
  | [] => []
  | line :: lines => (parseLine k line).2.toList ++ lineRules (k + 1) lines

/-- The outcome for given lines. -/
def parseLines (lines : List Str) : Except (List CodeownersIssue) CodeownersDocument :=
  if lineIssues 1 lines ≠ [] then .error (lineIssues 1 lines) else .ok ⟨lineRules 1 lines⟩

theorem lineIssues_eq (k : Nat) (lines : List Str) :
    ((lines.zipIdx k).map fun l => parseLine l.2 l.1).flatMap (·.1) = lineIssues k lines := by
  induction lines generalizing k with
  | nil => rfl
  | cons line lines ih =>
    rw [List.zipIdx_cons, List.map_cons, List.flatMap_cons, ih]
    rfl

theorem lineRules_eq (k : Nat) (lines : List Str) :
    ((lines.zipIdx k).map fun l => parseLine l.2 l.1).filterMap (·.2) = lineRules k lines := by
  induction lines generalizing k with
  | nil => rfl
  | cons line lines ih =>
    rw [List.zipIdx_cons, List.map_cons, List.filterMap_cons, ih, lineRules]
    cases (parseLine k line).2 <;> rfl

theorem parseCodeowners_eq {content : Str} (h : utf8Length content ≤ MAX_CODEOWNERS_BYTES) :
    parseCodeowners content = parseLines (splitlines content) := by
  unfold parseCodeowners parseLines
  rw [if_neg (by omega)]
  dsimp only
  rw [lineIssues_eq, lineRules_eq]

theorem parseCodeowners_ok {content : Str} {document : CodeownersDocument}
    (h : parseCodeowners content = .ok document) : utf8Length content ≤ MAX_CODEOWNERS_BYTES ∧
      lineIssues 1 (splitlines content) = [] ∧ document = ⟨lineRules 1 (splitlines content)⟩ := by
  have hs : utf8Length content ≤ MAX_CODEOWNERS_BYTES := by
    by_contra hn
    unfold parseCodeowners at h
    rw [if_pos (by omega)] at h
    cases h
  rw [parseCodeowners_eq hs, parseLines] at h
  split_ifs at h with hi
  cases h
  exact ⟨hs, not_not.mp hi, rfl⟩

theorem lineIssues_append (k : Nat) (xs ys : List Str) :
    lineIssues k (xs ++ ys) = lineIssues k xs ++ lineIssues (k + xs.length) ys := by
  induction xs generalizing k with
  | nil => rfl
  | cons x xs ih =>
    simp only [List.cons_append, lineIssues, ih, List.append_assoc, List.length_cons]
    rw [Nat.add_assoc, Nat.add_comm 1]

theorem lineRules_append (k : Nat) (xs ys : List Str) :
    lineRules k (xs ++ ys) = lineRules k xs ++ lineRules (k + xs.length) ys := by
  induction xs generalizing k with
  | nil => rfl
  | cons x xs ih =>
    simp only [List.cons_append, lineRules, ih, List.append_assoc, List.length_cons]
    rw [Nat.add_assoc, Nat.add_comm 1]

theorem lineIssues_idle {lines : List Str} (h : ∀ line ∈ lines, Idle line) (k : Nat) :
    lineIssues k lines = [] := by
  induction lines generalizing k with
  | nil => rfl
  | cons line lines ih =>
    rw [List.forall_mem_cons] at h
    rw [lineIssues, parseLine_idle h.1, ih h.2]
    rfl

theorem lineRules_idle {lines : List Str} (h : ∀ line ∈ lines, Idle line) (k : Nat) :
    lineRules k lines = [] := by
  induction lines generalizing k with
  | nil => rfl
  | cons line lines ih =>
    rw [List.forall_mem_cons] at h
    rw [lineRules, parseLine_idle h.1, ih h.2]
    rfl

/-- What a line contributes has its number. -/
theorem parseLine_numbered (n : Nat) (line : Str) :
    (∀ issue ∈ (parseLine n line).1, issue.line_number = some n) ∧
      ∀ rule ∈ (parseLine n line).2.toList, rule.line_number = n := by
  by_cases h : Idle line
  · simp [parseLine_idle h]
  · rw [parseLine_eq]
    rcases parseTokens_spec n (mt lineTokens_eq_nil.mp h) with ⟨h₁, rule, h₂, h₃⟩ | ⟨_, h₂, h₃⟩
    · simp [h₁, h₂, h₃]
    · simpa [h₂] using h₃

/-- A line that is not skipped contributes one rule or at least one issue. -/
theorem parseLine_content {n : Nat} {line : Str} (h : ¬ Idle line) :
    ((parseLine n line).1 = [] ∧ (parseLine n line).2.toList.length = 1) ∨
      ((parseLine n line).1 ≠ [] ∧ (parseLine n line).2.toList = []) := by
  rw [parseLine_eq]
  rcases parseTokens_spec n (mt lineTokens_eq_nil.mp h) with ⟨h₁, rule, h₂, -⟩ | ⟨h₁, h₂, -⟩
  · exact .inl ⟨h₁, by rw [h₂]; rfl⟩
  · exact .inr ⟨h₁, by rw [h₂]; rfl⟩

theorem lineIssues_above {k m : Nat} {lines : List Str} :
    ∀ issue ∈ lineIssues k lines, issue.line_number = some m → k ≤ m := by
  induction lines generalizing k with
  | nil => simp [lineIssues]
  | cons line lines ih =>
    intro issue hi hm
    rcases List.mem_append.mp hi with hi | hi
    · cases hm.symm.trans ((parseLine_numbered k line).1 issue hi)
      exact le_refl _
    · have := ih issue hi hm
      omega

theorem lineRules_above {k m : Nat} {lines : List Str} :
    ∀ rule ∈ lineRules k lines, rule.line_number = m → k ≤ m := by
  induction lines generalizing k with
  | nil => simp [lineRules]
  | cons line lines ih =>
    intro rule hr hm
    rcases List.mem_append.mp hr with hr | hr
    · exact (((parseLine_numbered k line).2 rule hr).symm.trans hm).le
    · have := ih rule hr hm
      omega

/-- The issues with one number are those of the line with that number. -/
theorem lineIssues_at (k n : Nat) (lines : List Str) :
    (lineIssues k lines).filter (fun issue => issue.line_number = some (k + n)) =
      (lines[n]?.map fun line => (parseLine (k + n) line).1).getD [] := by
  induction lines generalizing k n with
  | nil => rfl
  | cons line lines ih =>
    rw [lineIssues, List.filter_append]
    cases n with
    | zero =>
      rw [List.filter_eq_self.mpr fun issue hi => by simpa using (parseLine_numbered k line).1 issue hi,
        List.filter_eq_nil_iff.mpr fun issue hi hm => by
          have := lineIssues_above issue hi (by simpa using hm)
          omega]
      simp
    | succ n =>
      rw [List.filter_eq_nil_iff.mpr fun issue hi => by simp [(parseLine_numbered k line).1 issue hi],
        List.nil_append, show k + (n + 1) = k + 1 + n by omega, ih (k + 1) n, List.getElem?_cons_succ]

theorem lineRules_at (k n : Nat) (lines : List Str) :
    (lineRules k lines).filter (fun rule => rule.line_number = k + n) =
      (lines[n]?.map fun line => (parseLine (k + n) line).2.toList).getD [] := by
  induction lines generalizing k n with
  | nil => rfl
  | cons line lines ih =>
    rw [lineRules, List.filter_append]
    cases n with
    | zero =>
      rw [List.filter_eq_self.mpr fun rule hr => by simpa using (parseLine_numbered k line).2 rule hr,
        List.filter_eq_nil_iff.mpr fun rule hr hm => by
          have := lineRules_above rule hr (by simpa using hm)
          omega]
      simp
    | succ n =>
      rw [List.filter_eq_nil_iff.mpr fun rule hr => by simp [(parseLine_numbered k line).2 rule hr],
        List.nil_append, show k + (n + 1) = k + 1 + n by omega, ih (k + 1) n, List.getElem?_cons_succ]

/-! ## The rules of the lines of Git -/

/-- The text states what its lines of Git state: the rules are theirs, a blank
or comment line contributes nothing, and every other line one rule or at least
one issue, under the number it has in Git. -/
structure ReadsGitLines (content : Str) : Prop where
  rules : ∀ document, parseCodeowners content = .ok document →
    parseLines (gitLines content) = .ok document
  skipped : ∀ n, (∀ line, (gitLines content)[n]? = some line → Idle line) →
    (lineIssues 1 (splitlines content)).filter (fun issue => issue.line_number = some (1 + n)) = [] ∧
    (lineRules 1 (splitlines content)).filter (fun rule => rule.line_number = 1 + n) = []
  content : ∀ n line, (gitLines content)[n]? = some line → ¬ Idle line →
    ((lineIssues 1 (splitlines content)).filter (fun issue => issue.line_number = some (1 + n)) = [] ∧
      ((lineRules 1 (splitlines content)).filter (fun rule => rule.line_number = 1 + n)).length = 1) ∨
    ((lineIssues 1 (splitlines content)).filter (fun issue => issue.line_number = some (1 + n)) ≠ [] ∧
      (lineRules 1 (splitlines content)).filter (fun rule => rule.line_number = 1 + n) = [])

/-- A fragment that is not skipped contributes under its number. -/
theorem contributes {lines : List Str} {n : Nat} {line : Str} (h : lines[n]? = some line)
    (hi : ¬ Idle line) :
    (lineIssues 1 lines).filter (fun issue => issue.line_number = some (1 + n)) ≠ [] ∨
      (lineRules 1 lines).filter (fun rule => rule.line_number = 1 + n) ≠ [] := by
  rw [lineIssues_at, lineRules_at, h]
  rcases parseLine_content (n := 1 + n) hi with ⟨-, h₂⟩ | ⟨h₁, -⟩
  · right
    intro he
    rw [show (parseLine (1 + n) line).2.toList = [] from he] at h₂
    cases h₂
  · exact .inl h₁

/-- A line the parser reads behind a stray break contributes under a number
that is not its own. -/
theorem ReadsGitLines.strayIdle {content : Str} (h : ReadsGitLines content) : StrayIdle content := by
  intro before c after he hc
  by_contra hn
  obtain ⟨hlt, -⟩ := lastContent_lt he hc (mt lastContent_eq_zero.mp hn)
  obtain ⟨line, hline, hidle⟩ := lastContent_spec (show lastContent (splitlines content) ≠ 0 by omega)
  obtain ⟨hi, hr⟩ := h.skipped (lastContent (splitlines content) - 1) fun line hl => by
    by_contra hg
    have := le_lastContent hl hg
    omega
  rcases contributes hline hidle with hs | hs
  · exact hs hi
  · exact hs hr

omit [PyText] in
/-- Without such a line the fragments and the lines of Git that are not skipped
have the same numbers. -/
theorem StrayIdle.content_iff {content : Str} (h : StrayIdle content) (n : Nat) :
    (∃ line, (splitlines content)[n]? = some line ∧ ¬ Idle line) ↔
      ∃ line, (gitLines content)[n]? = some line ∧ ¬ Idle line := by
  rcases h.lines with he | ⟨p, q, c, l, rest, ls, h₁, h₂, hc, hl, hrest, hls⟩
  · rw [he]
  · have tail : ∀ {ls : List Str} {m : Nat}, (∀ r ∈ ls, Idle r) →
        ¬ ∃ line, ls[m]? = some line ∧ ¬ Idle line := by
      rintro ls m hls ⟨line, hline, hi⟩
      exact hi (hls line (List.mem_of_getElem? hline))
    rw [h₁, h₂]
    rcases Nat.lt_trichotomy n p.length with hn | rfl | hn
    · rw [List.getElem?_append_left hn, List.getElem?_append_left hn]
    · simp [idle_append hc hl]
    · rw [List.getElem?_append_right hn.le, List.getElem?_append_right hn.le]
      obtain ⟨m, hm⟩ : ∃ m, n - p.length = m + 1 := ⟨n - p.length - 1, by omega⟩
      rw [hm, List.getElem?_cons_succ, List.getElem?_cons_succ]
      exact iff_of_false (tail hrest) (tail hls)

theorem StrayIdle.parseLines_eq [CharwiseLower] {content : Str} (h : StrayIdle content)
    (hi : lineIssues 1 (splitlines content) = []) :
    parseLines (gitLines content) = parseLines (splitlines content) := by
  rcases h.lines with he | ⟨p, q, c, l, rest, ls, h₁, h₂, hc, hl, hrest, hls⟩
  · rw [he]
  · rw [h₁, lineIssues_append, lineIssues] at hi
    obtain ⟨-, hq⟩ := List.append_eq_nil_iff.mp hi
    have hq := (List.append_eq_nil_iff.mp hq).1
    rw [parseLine_eq] at hq
    have hline : parseLine (1 + p.length) (q ++ c :: l) = parseLine (1 + p.length) q := by
      rw [parseLine_eq, parseLine_eq, lineTokens_append hc hl (not_backslash_of_ok hq)]
    unfold parseLines
    rw [h₁, h₂, lineIssues_append, lineIssues_append, lineRules_append, lineRules_append, lineIssues,
      lineIssues, lineRules, lineRules, hline, lineIssues_idle hrest, lineIssues_idle hls,
      lineRules_idle hrest, lineRules_idle hls]

theorem StrayIdle.readsGitLines [CharwiseLower] {content : Str}
    (h : StrayIdle content) : ReadsGitLines content := by
  refine ⟨?_, ?_, ?_⟩
  · intro document hd
    obtain ⟨hs, hi, -⟩ := parseCodeowners_ok hd
    rw [h.parseLines_eq hi, ← parseCodeowners_eq hs, hd]
  · intro n hn
    rw [lineIssues_at, lineRules_at]
    cases hline : (splitlines content)[n]? with
    | none => exact ⟨rfl, rfl⟩
    | some line =>
      have hidle : Idle line := by
        by_contra hi
        obtain ⟨line', hl', hi'⟩ := (h.content_iff n).mp ⟨line, hline, hi⟩
        exact hi' (hn line' hl')
      simp [parseLine_idle hidle]
  · intro n line hline hi
    obtain ⟨line', hl', hi'⟩ := (h.content_iff n).mpr ⟨line, hline, hi⟩
    rw [lineIssues_at, lineRules_at, hl']
    exact parseLine_content hi'

/-! ## Two texts in one -/

/-- Every break of the text is one that Git knows. -/
def NoStray (s : Str) : Prop := ∀ before c after, s = before ++ c :: after → ¬ Stray c after

omit [PyText] in
theorem noStray_cons {c : Char} {s : Str} : NoStray (c :: s) ↔ ¬ Stray c s ∧ NoStray s := by
  constructor
  · intro h
    refine ⟨h [] c s rfl, fun before d after he => ?_⟩
    exact h (c :: before) d after (by rw [he]; rfl)
  · rintro ⟨hc, hs⟩ before d after he
    cases before with
    | nil =>
      obtain ⟨rfl, rfl⟩ := List.cons.inj he
      exact hc
    | cons b before => exact hs before d after (List.cons.inj he).2

omit [PyText] in
/-- In a text whose last line is ended, stray breaks are the lines too many. -/
theorem length_splitlines {s : Str} (h : s = [] ∨ s.getLast? = some '\n') :
    s.count '\n' ≤ (splitlines s).length ∧ ((splitlines s).length = s.count '\n' ↔ NoStray s) := by
  rw [splitlines_eq]
  induction s using text_induction with
  | nil => exact ⟨le_refl _, by simp [NoStray]⟩
  | pair s ih =>
    have hs : s = [] ∨ s.getLast? = some '\n' := by
      cases s with
      | nil => exact .inl rfl
      | cons d s => exact .inr (by simpa using h)
    obtain ⟨ih₁, ih₂⟩ := ih hs
    have hpair : ¬ Stray '\r' ('\n' :: s) := fun hc => hc.2.2 ⟨rfl, rfl⟩
    have hlf : ¬ Stray '\n' s := fun hc => hc.2.1 rfl
    simp only [linesAt_pair, List.length_cons, noStray_cons, hpair, hlf, not_false_iff, true_and, ← ih₂]
    simp only [List.count_cons]
    simp
    omega
  | char c s hp ih =>
    rw [noStray_cons, linesAt_cons _ hp, List.count_cons]
    cases s with
    | nil =>
      obtain rfl : c = '\n' := by simpa using h
      have hlf : ¬ Stray '\n' [] := fun hc => hc.2.1 rfl
      simp [show isLineBreak '\n' = true by decide, hlf, NoStray]
    | cons d s =>
      obtain ⟨ih₁, ih₂⟩ := ih (.inr (by simpa using h))
      by_cases hc : Stray c (d :: s)
      · rw [if_pos hc.1, List.length_cons]
        simp only [hc, beq_iff_eq, hc.2.1, not_true, false_and, iff_false, if_false]
        omega
      · have hb := (not_stray_iff hp).mp hc
        simp only [hc, not_false_iff, true_and, ← ih₂]
        by_cases hlf : c = '\n'
        · subst hlf
          simp only [hb, beq_self_eq_true, if_true, List.length_cons]
          omega
        · have hb' : isLineBreak c = false := hb.trans (by simpa using hlf)
          have hlen : (consLine c (linesAt isLineBreak (d :: s))).length =
              (linesAt isLineBreak (d :: s)).length := by
            obtain ⟨l, ls, hl⟩ := List.exists_cons_of_ne_nil
              (mt (linesAt_eq_nil isLineBreak (s := d :: s)).mp (by simp))
            rw [hl]
            rfl
          simp only [hb', hlf, beq_iff_eq, if_false, Bool.false_eq_true, hlen]
          omega

omit [PyText] in
theorem consLine_append {c : Char} {ls : List Str} (h : ls ≠ []) (ms : List Str) :
    consLine c (ls ++ ms) = consLine c ls ++ ms := by
  cases ls with
  | nil => exact absurd rfl h
  | cons l ls => rfl

omit [PyText] in
theorem splitlines_append (a b : Str) :
    splitlines (a ++ '\n' :: b) = splitlines (a ++ ['\n']) ++ splitlines b := by
  simp only [splitlines_eq]
  induction a using text_induction with
  | nil =>
    rw [List.nil_append, List.nil_append, linesAt_cons _ (by simp [NotPair]),
      linesAt_cons _ (by simp [NotPair])]
    rfl
  | pair a ih => simpa using ih
  | char c a hp ih =>
    rw [List.cons_append, List.cons_append]
    by_cases hpair : NotPair c (a ++ '\n' :: b)
    · have hpair' : NotPair c (a ++ ['\n']) := by
        intro hc
        refine hpair ⟨hc.1, ?_⟩
        cases a with
        | nil => rfl
        | cons d a => exact hc.2
      rw [linesAt_cons _ hpair, linesAt_cons _ hpair', ih]
      split
      · rfl
      · exact consLine_append (mt (linesAt_eq_nil _).mp (by simp)) _
    · obtain ⟨rfl, hh⟩ := not_not.mp hpair
      cases a with
      | nil => rfl
      | cons d a => exact absurd ⟨rfl, hh⟩ hp

omit [PyText] in
/-- Ending the last line of a text adds at most a blank line. -/
theorem splitlines_ended (a : Str) :
    splitlines (a ++ ['\n']) = splitlines a ∨ splitlines (a ++ ['\n']) = splitlines a ++ [[]] := by
  simp only [splitlines_eq]
  induction a using text_induction with
  | nil => exact .inr rfl
  | pair a ih =>
    rcases ih with he | he
    · exact .inl (by simp [he])
    · exact .inr (by simp [he])
  | char c a hp ih =>
    rw [List.cons_append]
    by_cases hpair : NotPair c (a ++ ['\n'])
    · rw [linesAt_cons _ hpair, linesAt_cons _ hp]
      split
      · rcases ih with he | he
        · exact .inl (by rw [he])
        · exact .inr (by rw [he]; rfl)
      · cases a with
        | nil => exact .inl rfl
        | cons d a =>
          rcases ih with he | he
          · exact .inl (by rw [he])
          · right
            rw [he, consLine_append (mt (linesAt_eq_nil _).mp (by simp))]
    · obtain ⟨rfl, hh⟩ := not_not.mp hpair
      cases a with
      | nil => exact .inl rfl
      | cons d a => exact absurd ⟨rfl, hh⟩ hp

/-- The rule with its line `m` lines further down. -/
def CodeownersRule.shift (m : Nat) (rule : CodeownersRule) : CodeownersRule :=
  { rule with line_number := rule.line_number + m }

theorem parseOwners_shift (n m : Nat) (raw_owners : List Str) :
    ((parseOwners (n + m) raw_owners).1 = [] ↔ (parseOwners n raw_owners).1 = []) ∧
      (parseOwners (n + m) raw_owners).2 = (parseOwners n raw_owners).2 := by
  induction raw_owners with
  | nil => exact ⟨Iff.rfl, rfl⟩
  | cons raw_owner raw_owners ih =>
    rw [parseOwners_cons, parseOwners_cons]
    cases normalizeOwner raw_owner with
    | ok owner => exact ⟨ih.1, by rw [ih.2]⟩
    | error message => exact ⟨iff_of_false (List.cons_ne_nil _ _) (List.cons_ne_nil _ _), ih.2⟩

theorem parseLine_shift (n m : Nat) (line : Str) :
    ((parseLine (n + m) line).1 = [] ↔ (parseLine n line).1 = []) ∧
      (parseLine (n + m) line).2 = (parseLine n line).2.map (CodeownersRule.shift m) := by
  rw [parseLine_eq, parseLine_eq]
  cases lineTokens line with
  | nil => exact ⟨Iff.rfl, rfl⟩
  | cons raw_pattern raw_owners =>
    cases hp : validatePattern raw_pattern with
    | error message =>
      rw [parseTokens_error _ hp, parseTokens_error _ hp]
      exact ⟨iff_of_false (List.cons_ne_nil _ _) (List.cons_ne_nil _ _), rfl⟩
    | ok pattern =>
      obtain ⟨h₁, h₂⟩ := parseOwners_shift n m raw_owners
      rw [parseTokens_pattern _ hp, parseTokens_pattern _ hp]
      by_cases ho : (parseOwners n raw_owners).1 = []
      · simp only [ho, h₁.mpr ho, ne_eq, not_true, if_false, h₂]
        exact ⟨trivial, rfl⟩
      · simp [ho, mt h₁.mp ho]

theorem lineIssues_shift (k m : Nat) (lines : List Str) :
    lineIssues (k + m) lines = [] ↔ lineIssues k lines = [] := by
  induction lines generalizing k with
  | nil => exact Iff.rfl
  | cons line lines ih =>
    rw [lineIssues, lineIssues, List.append_eq_nil_iff, List.append_eq_nil_iff,
      (parseLine_shift k m line).1, show k + m + 1 = k + 1 + m by omega, ih]

theorem lineRules_shift (k m : Nat) (lines : List Str) :
    lineRules (k + m) lines = (lineRules k lines).map (CodeownersRule.shift m) := by
  induction lines generalizing k with
  | nil => rfl
  | cons line lines ih =>
    rw [lineRules, lineRules, List.map_append, (parseLine_shift k m line).2,
      show k + m + 1 = k + 1 + m by omega, ih]
    cases (parseLine k line).2 <;> rfl

/-- Without issues, no rule means that every line is skipped. -/
theorem lineRules_eq_nil {k : Nat} {lines : List Str} (hi : lineIssues k lines = []) :
    lineRules k lines = [] ↔ ∀ line ∈ lines, Idle line := by
  refine ⟨fun hr => ?_, fun h => lineRules_idle h k⟩
  induction lines generalizing k with
  | nil => simp
  | cons line lines ih =>
    rw [lineIssues, List.append_eq_nil_iff] at hi
    rw [lineRules, List.append_eq_nil_iff] at hr
    refine List.forall_mem_cons.mpr ⟨?_, ih hi.2 hr.2⟩
    by_contra hl
    rcases parseLine_content (n := k) hl with ⟨-, h⟩ | ⟨h, -⟩
    · rw [hr.1] at h
      cases h
    · exact h hi.1

/-- One text behind another: the rules of both, the latter with the fragments
of the former added to their line numbers. -/
theorem parseCodeowners_append {a b : Str} {d e : CodeownersDocument}
    (ha : parseCodeowners a = .ok d) (hb : parseCodeowners b = .ok e)
    (hs : utf8Length (a ++ '\n' :: b) ≤ MAX_CODEOWNERS_BYTES) :
    parseCodeowners (a ++ '\n' :: b) =
      .ok ⟨d.rules ++ e.rules.map (CodeownersRule.shift (splitlines (a ++ ['\n'])).length)⟩ := by
  obtain ⟨-, hia, rfl⟩ := parseCodeowners_ok ha
  obtain ⟨-, hib, rfl⟩ := parseCodeowners_ok hb
  have hended : lineIssues 1 (splitlines (a ++ ['\n'])) = [] ∧
      lineRules 1 (splitlines (a ++ ['\n'])) = lineRules 1 (splitlines a) := by
    rcases splitlines_ended a with h | h
    · rw [h]
      exact ⟨hia, rfl⟩
    · have blank : ∀ line ∈ [([] : Str)], Idle line := by simp
      rw [h, lineIssues_append, lineRules_append, lineIssues_idle blank, lineRules_idle blank, hia]
      exact ⟨rfl, List.append_nil _⟩
  have hi : lineIssues 1 (splitlines (a ++ '\n' :: b)) = [] := by
    rw [splitlines_append, lineIssues_append, hended.1, List.nil_append, lineIssues_shift, hib]
  rw [parseCodeowners_eq hs, parseLines, if_neg (not_not.mpr hi), splitlines_append,
    lineRules_append, hended.2, lineRules_shift]

/-- The parser reads the lines of Git exactly when only skipped text stands
behind a stray break, and numbers the rules of a second text by the lines of
the first exactly when the first has none or the second states no rule. -/
theorem codeowners_lines [CharwiseLower] (content : Str)
    (h : utf8Length content ≤ MAX_CODEOWNERS_BYTES) :
    (ReadsGitLines content ↔ StrayIdle content) ∧
    ∀ a b d e, content = a ++ '\n' :: b → parseCodeowners a = .ok d → parseCodeowners b = .ok e →
      (parseCodeowners content = .ok ⟨d.rules ++ e.rules.map (CodeownersRule.shift (a.count '\n' + 1))⟩ ↔
        NoStray (a ++ ['\n']) ∨ ∀ line ∈ splitlines b, Idle line) := by
  refine ⟨⟨fun hr => hr.strayIdle, fun hs => hs.readsGitLines⟩, ?_⟩
  rintro a b d e rfl ha hb
  obtain ⟨-, hib, hd⟩ := parseCodeowners_ok hb
  have hlen := (length_splitlines (s := a ++ ['\n']) (.inr (by simp))).2
  rw [show (a ++ ['\n']).count '\n' = a.count '\n' + 1 by simp] at hlen
  have hrules : e.rules = [] ↔ ∀ line ∈ splitlines b, Idle line := by
    rw [hd]
    exact lineRules_eq_nil hib
  rw [parseCodeowners_append ha hb h, ← hlen, ← hrules]
  constructor
  · intro he
    have hmap := List.append_cancel_left (CodeownersDocument.mk.inj (Except.ok.inj he))
    cases hre : e.rules with
    | nil => exact .inr rfl
    | cons rule rules =>
      left
      rw [hre, List.map_cons, List.map_cons] at hmap
      have := congrArg CodeownersRule.line_number (List.cons.inj hmap).1
      simp only [CodeownersRule.shift] at this
      omega
  · rintro (he | he)
    · rw [he]
    · rw [he]
      rfl

end

theorem sampleText_lines : let _ := asciiText
    ReadsGitLines "# a\r\n* @o\x0c# b" ↔ StrayIdle "# a\r\n* @o\x0c# b" := by
  let _ := asciiText
  have _ := asciiText_charwise
  exact (codeowners_lines "# a\r\n* @o\x0c# b" (by decide)).1

/-- Git shows one comment; behind the vertical tab in it the parser reads a rule. -/
theorem hidden_rule : let _ := asciiText
    utf8Length "# c\x0b* @evil" ≤ MAX_CODEOWNERS_BYTES ∧
    gitLines "# c\x0b* @evil" = [("# c\x0b* @evil" : Str)] ∧ Idle "# c\x0b* @evil" ∧
    (∃ document rule, parseCodeowners "# c\x0b* @evil" = .ok document ∧ rule ∈ document.rules ∧
      rule.pattern = "*" ∧ rule.owners = ["@evil"] ∧ rule.line_number = 2) ∧
    ¬ ReadsGitLines "# c\x0b* @evil" := by
  let _ := asciiText
  refine ⟨by decide, by decide, by decide, ?_, fun h => ?_⟩
  · refine ⟨⟨lineRules 1 (splitlines "# c\x0b* @evil")⟩,
      ⟨"*", ["@evil"], 2, rfl⟩, ?_, ?_, rfl, rfl, rfl⟩
    · rw [parseCodeowners_eq (by decide)]
      rfl
    · exact List.mem_singleton.mpr rfl
  · have stray : Stray '\x0b' "* @evil" := ⟨by decide, by decide, fun hc => absurd hc.1 (by decide)⟩
    exact absurd (h.strayIdle "# c" '\x0b' "* @evil" rfl stray "* @evil" (by decide)) (by decide)

end ExtraCodeowners
