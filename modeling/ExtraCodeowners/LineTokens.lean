import ExtraCodeowners.Lines

/-!
# Tokens of a CODEOWNERS line

What `splitLine` makes of a line, character by character, and what a line of
the file contributes: nothing, one rule, or issues.
-/

namespace ExtraCodeowners

/-! ## Splitting -/

/-- `c` is a backslash that escapes the whitespace behind it. -/
def Escapes (c : Char) (rest : Str) : Prop := c = '\\' ∧ ∃ d, rest.head? = some d ∧ isSpace d = true

theorem token_induction {p : Str → Prop} (nil : p [])
    (escape : ∀ c s, isSpace c = true → p s → p ('\\' :: c :: s))
    (space : ∀ c s, isSpace c = true → p s → p (c :: s))
    (char : ∀ c s, isSpace c = false → ¬ Escapes c s → p s → p (c :: s)) : ∀ s, p s
  | [] => nil
  | [c] => by
    cases hc : isSpace c with
    | true => exact space c [] hc nil
    | false => exact char c [] hc (by simp [Escapes]) nil
  | c :: d :: s => by
    by_cases h : c = '\\' ∧ isSpace d = true
    · obtain ⟨rfl, hd⟩ := h
      exact escape d s hd (token_induction nil escape space char s)
    · have ih := token_induction nil escape space char (d :: s)
      cases hc : isSpace c with
      | true => exact space c (d :: s) hc ih
      | false => exact char c (d :: s) hc (by simpa [Escapes] using h) ih

@[simp] theorem splitLineFrom_nil (cur : Str) :
    splitLineFrom [] cur = if cur = [] then [] else [cur] := rfl

theorem splitLineFrom_escape {c : Char} (hc : isSpace c = true) (s cur : Str) :
    splitLineFrom ('\\' :: c :: s) cur = splitLineFrom s (cur ++ [c]) := by
  rw [splitLineFrom.eq_def]
  exact if_pos hc

theorem splitLineFrom_space {c : Char} (hc : isSpace c = true) (s cur : Str) :
    splitLineFrom (c :: s) cur =
      if cur = [] then splitLineFrom s [] else cur :: splitLineFrom s [] := by
  rw [splitLineFrom.eq_def]
  split
  · rename_i he; cases he
  · rename_i he
    cases he
    exact absurd hc (by decide)
  · rename_i he
    cases he
    rw [if_pos hc]

theorem splitLineFrom_char {c : Char} {s : Str} (hc : isSpace c = false) (h : ¬ Escapes c s)
    (cur : Str) : splitLineFrom (c :: s) cur = splitLineFrom s (cur ++ [c]) := by
  rw [splitLineFrom.eq_def]
  split
  · rename_i he; cases he
  · rename_i d rest he
    cases he
    have hd : isSpace d = false := by simpa [Escapes] using h
    rw [if_neg (by simp [hd])]
  · rename_i he
    cases he
    rw [if_neg (by simp [hc])]

/-- A token that was begun is completed. -/
theorem splitLineFrom_begun (s : Str) {cur : Str} (h : cur ≠ []) :
    ∃ t ts, splitLineFrom s cur = (cur ++ t) :: ts := by
  induction s using token_induction generalizing cur with
  | nil => exact ⟨[], [], by simp [h]⟩
  | escape c s hc ih =>
    obtain ⟨t, ts, ht⟩ := ih (show cur ++ [c] ≠ [] by simp)
    exact ⟨c :: t, ts, by rw [splitLineFrom_escape hc, ht, List.append_assoc]; rfl⟩
  | space c s hc _ => exact ⟨[], splitLineFrom s [], by simp [splitLineFrom_space hc, h]⟩
  | char c s hc he ih =>
    obtain ⟨t, ts, ht⟩ := ih (show cur ++ [c] ≠ [] by simp)
    exact ⟨c :: t, ts, by rw [splitLineFrom_char hc he, ht, List.append_assoc]; rfl⟩

theorem splitLineFrom_blank {ws : Str} (h : ∀ c ∈ ws, isSpace c = true) (s : Str) :
    splitLineFrom (ws ++ s) [] = splitLineFrom s [] := by
  induction ws with
  | nil => rfl
  | cons c ws ih =>
    rw [List.forall_mem_cons] at h
    rw [List.cons_append, splitLineFrom_space h.1, if_pos rfl, ih h.2]

theorem escapes_append {c : Char} {u s : Str} (hu : endsWith '\\' (c :: u) = false) :
    Escapes c (u ++ s) ↔ Escapes c u := by
  cases u with
  | cons d u => rfl
  | nil =>
    refine ⟨fun h => ?_, fun h => ?_⟩
    · rw [h.1] at hu
      cases hu
    · obtain ⟨_, d, hd, _⟩ := h
      cases hd

theorem endsWith_tail {c d : Char} {u : Str} (h : endsWith c (d :: u) = false) :
    endsWith c u = false := by
  cases u with
  | nil => rfl
  | cons e u => rwa [endsWith, List.getLast?_cons_cons] at h

/-- Whitespace behind a text that does not end in a backslash ends its last
token. -/
theorem splitLineFrom_append {u : Str} (hu : endsWith '\\' u = false) {w : Char}
    (hw : isSpace w = true) (s cur : Str) :
    splitLineFrom (u ++ w :: s) cur = splitLineFrom u cur ++ splitLineFrom s [] := by
  induction u using token_induction generalizing cur with
  | nil =>
    rw [List.nil_append, splitLineFrom_space hw, splitLineFrom_nil]
    split <;> rfl
  | escape c u hc ih =>
    rw [List.cons_append, List.cons_append, splitLineFrom_escape hc, splitLineFrom_escape hc,
      ih (endsWith_tail (endsWith_tail hu))]
  | space c u hc ih =>
    rw [List.cons_append, splitLineFrom_space hc, splitLineFrom_space hc, ih (endsWith_tail hu)]
    split <;> rfl
  | char c u hc he ih =>
    rw [List.cons_append, splitLineFrom_char hc he, splitLineFrom_char hc
      (by rwa [escapes_append hu]), ih (endsWith_tail hu)]

/-- The last token of a text that ends in a backslash ends in it. -/
theorem splitLineFrom_backslash {u : Str} (hu : endsWith '\\' u = true) (cur : Str) :
    ∃ ts t, splitLineFrom u cur = ts ++ [t] ∧ endsWith '\\' t = true := by
  induction u using token_induction generalizing cur with
  | nil => cases hu
  | escape c u hc ih =>
    cases u with
    | nil =>
      obtain rfl : c = '\\' := by simpa [endsWith] using hu
      exact absurd hc (by decide)
    | cons d u =>
      rw [splitLineFrom_escape hc]
      exact ih (by simpa [endsWith] using hu) _
  | space c u hc ih =>
    cases u with
    | nil =>
      obtain rfl : c = '\\' := by simpa [endsWith] using hu
      exact absurd hc (by decide)
    | cons d u =>
      obtain ⟨ts, t, ht, hl⟩ := ih (by simpa [endsWith] using hu) []
      rw [splitLineFrom_space hc, ht]
      split
      · exact ⟨ts, t, rfl, hl⟩
      · exact ⟨cur :: ts, t, rfl, hl⟩
  | char c u hc he ih =>
    rw [splitLineFrom_char hc he]
    cases u with
    | nil =>
      obtain rfl : c = '\\' := by simpa [endsWith] using hu
      exact ⟨[], cur ++ ['\\'], by simp, by simp [endsWith]⟩
    | cons d u => exact ih (by simpa [endsWith] using hu) _

/-! ## Comments -/

/-- The tokens in front of the first comment. -/
def beforeComment (tokens : List Str) : List Str :=
  tokens.takeWhile fun token => !startsWith '#' token

theorem startsWith_append {c : Char} {s : Str} (h : s ≠ []) (t : Str) :
    startsWith c (s ++ t) = startsWith c s := by
  cases s with
  | nil => exact absurd rfl h
  | cons d s => rfl

/-- Text behind a comment changes no token in front of it. -/
theorem beforeComment_append {u cur : Str} (s : Str)
    (h : ∃ token ∈ splitLineFrom u cur, startsWith '#' token = true) :
    beforeComment (splitLineFrom (u ++ s) cur) = beforeComment (splitLineFrom u cur) := by
  -- a comment that was begun stays one, whatever is read behind it
  have begun : ∀ (v : Str) {cur : Str}, startsWith '#' cur = true →
      beforeComment (splitLineFrom v cur) = [] := by
    intro v cur hcur
    have hne : cur ≠ [] := by rintro rfl; cases hcur
    obtain ⟨t, ts, ht⟩ := splitLineFrom_begun v hne
    simp [beforeComment, ht, startsWith_append hne, hcur]
  by_cases hcur : startsWith '#' cur = true
  · rw [begun _ hcur, begun _ hcur]
  · induction u using token_induction generalizing cur with
    | nil =>
      obtain ⟨token, ht, hs⟩ := h
      rw [splitLineFrom_nil] at ht
      split at ht
      · cases ht
      · rw [List.mem_singleton] at ht
        exact absurd (ht ▸ hs) hcur
    | escape c u hc ih =>
      rw [splitLineFrom_escape hc] at h
      rw [List.cons_append, List.cons_append, splitLineFrom_escape hc, splitLineFrom_escape hc]
      by_cases hn : startsWith '#' (cur ++ [c]) = true
      · rw [begun _ hn, begun _ hn]
      · exact ih h hn
    | space c u hc ih =>
      rw [splitLineFrom_space hc] at h
      rw [List.cons_append, splitLineFrom_space hc, splitLineFrom_space hc]
      split at h <;> rename_i he
      · rw [if_pos he, if_pos he]
        exact ih h (by decide)
      · rw [if_neg he, if_neg he]
        obtain ⟨token, ht, hs⟩ := h
        rcases List.mem_cons.mp ht with rfl | ht
        · exact absurd hs hcur
        · simp only [beforeComment, List.takeWhile_cons, hcur, Bool.not_false, if_true]
          exact congrArg _ (ih ⟨token, ht, hs⟩ (by decide))
    | char c u hc he ih =>
      rw [splitLineFrom_char hc he] at h
      by_cases hn : startsWith '#' (cur ++ [c]) = true
      · obtain ⟨rfl, rfl⟩ : cur = [] ∧ c = '#' := by
          cases cur with
          | nil => simpa [startsWith] using hn
          | cons d cur => exact absurd hn hcur
        rw [List.cons_append, splitLineFrom_char hc (by simp [Escapes]),
          splitLineFrom_char hc he, begun _ hn, begun _ hn]
      · cases u with
        | nil =>
          obtain ⟨token, ht, hs⟩ := h
          rw [splitLineFrom_nil, if_neg (by simp), List.mem_singleton] at ht
          exact absurd (ht ▸ hs) hn
        | cons d u =>
          rw [List.cons_append, splitLineFrom_char hc (by simpa [Escapes] using he),
            splitLineFrom_char hc he]
          exact ih h hn

/-- The tokens the parser reads of a line. -/
def lineTokens (line : Str) : List Str :=
  if Idle line then [] else beforeComment (splitLine (strip line))

theorem lineTokens_eq_nil {line : Str} : lineTokens line = [] ↔ Idle line := by
  unfold lineTokens
  split
  · rename_i h
    simp [h]
  · rename_i h
    simp only [h, iff_false]
    obtain ⟨c, s, hs⟩ := List.exists_cons_of_ne_nil (not_or.mp h).1
    have hc : isSpace c = false := strip_head (by rw [hs]; rfl)
    have hh : c ≠ '#' := by
      intro e
      exact (not_or.mp h).2 (by rw [hs, e]; rfl)
    rw [hs, splitLine]
    by_cases he : Escapes c s
    · -- the token begins with the escaped whitespace
      obtain ⟨rfl, d, hd, hsp⟩ := he
      obtain ⟨s, rfl⟩ : ∃ s', s = d :: s' := by
        cases s with
        | nil => cases hd
        | cons e s => exact ⟨s, by simpa using hd⟩
      obtain ⟨t, ts, ht⟩ := splitLineFrom_begun s (List.cons_ne_nil d [])
      rw [splitLineFrom_escape hsp, List.nil_append, ht]
      have hne : d ≠ '#' := by rintro rfl; exact absurd hsp (by decide)
      simp [beforeComment, startsWith, hne]
    · obtain ⟨t, ts, ht⟩ := splitLineFrom_begun s (List.cons_ne_nil c [])
      rw [splitLineFrom_char hc he, List.nil_append, ht]
      simp [beforeComment, startsWith, hh]

/-! ## What a line contributes -/

section
variable [PyText]

/-- The issues of the tokens of a line and the rule they state. -/
def parseTokens (line_number : Nat) : List Str → List CodeownersIssue × Option CodeownersRule
  | [] => ([], none)
  | raw_pattern :: raw_owners =>
    match h : validatePattern raw_pattern with
    | .error message => ([⟨("invalid_pattern" : Str), message, some line_number⟩], none)
    | .ok pattern =>
      if (parseOwners line_number raw_owners).1 ≠ [] then ((parseOwners line_number raw_owners).1, none)
      else ([], some ⟨pattern, fromKeys (parseOwners line_number raw_owners).2, line_number,
        validatePattern_idem h⟩)

theorem parseLine_eq (line_number : Nat) (raw_line : Str) :
    parseLine line_number raw_line = parseTokens line_number (lineTokens raw_line) := by
  unfold parseLine
  by_cases hi : Idle raw_line
  · rw [lineTokens, if_pos hi]
    exact if_pos hi
  · rw [lineTokens, if_neg hi]
    refine (if_neg hi).trans ?_
    show _ = parseTokens line_number ((splitLine (strip raw_line)).takeWhile _)
    generalize (splitLine (strip raw_line)).takeWhile _ = tokens
    cases tokens <;> rfl

theorem parseTokens_error {n : Nat} {raw_pattern message : Str} (raw_owners : List Str)
    (h : validatePattern raw_pattern = .error message) :
    parseTokens n (raw_pattern :: raw_owners) =
      ([⟨("invalid_pattern" : Str), message, some n⟩], none) := by
  show (match h : validatePattern raw_pattern with | .error _ => _ | .ok _ => _) = _
  split
  · rename_i he
    cases h.symm.trans he
    rfl
  · rename_i he
    cases h.symm.trans he

theorem parseTokens_pattern {n : Nat} {raw_pattern pattern : Str} (raw_owners : List Str)
    (h : validatePattern raw_pattern = .ok pattern) :
    parseTokens n (raw_pattern :: raw_owners) =
      if (parseOwners n raw_owners).1 ≠ [] then ((parseOwners n raw_owners).1, none)
      else ([], some ⟨pattern, fromKeys (parseOwners n raw_owners).2, n, validatePattern_idem h⟩) := by
  show (match h : validatePattern raw_pattern with | .error _ => _ | .ok _ => _) = _
  split
  · rename_i he
    cases h.symm.trans he
  · rename_i he
    cases h.symm.trans he
    rfl

theorem parseOwners_cons (n : Nat) (raw_owner : Str) (raw_owners : List Str) :
    parseOwners n (raw_owner :: raw_owners) =
      match normalizeOwner raw_owner with
      | .ok owner => ((parseOwners n raw_owners).1, owner :: (parseOwners n raw_owners).2)
      | .error message =>
        (⟨if ("email CODEOWNER" : Str) <:+: message
          then ("email_owner_unsupported" : Str) else ("invalid_owner" : Str), message, some n⟩ ::
          (parseOwners n raw_owners).1, (parseOwners n raw_owners).2) := rfl

theorem parseOwners_numbered (n : Nat) (raw_owners : List Str) :
    ∀ issue ∈ (parseOwners n raw_owners).1, issue.line_number = some n := by
  induction raw_owners with
  | nil => exact List.forall_mem_nil _
  | cons raw_owner raw_owners ih =>
    rw [parseOwners_cons]
    cases normalizeOwner raw_owner with
    | ok owner => exact ih
    | error message => exact List.forall_mem_cons.mpr ⟨rfl, ih⟩

/-- Owners without an issue are the canonical spellings, one by one. -/
theorem parseOwners_ok {n : Nat} {raw_owners : List Str} (h : (parseOwners n raw_owners).1 = []) :
    List.Forall₂ (fun raw_owner owner => normalizeOwner raw_owner = .ok owner) raw_owners
      (parseOwners n raw_owners).2 := by
  induction raw_owners with
  | nil => exact .nil
  | cons raw_owner raw_owners ih =>
    rw [parseOwners_cons] at h ⊢
    split
    · rename_i owner ho
      rw [ho] at h
      exact .cons ho (ih h)
    · rename_i message hm
      rw [hm] at h
      cases h

theorem parseOwners_of_ok {n : Nat} {raw_owners owners : List Str}
    (h : List.Forall₂ (fun raw_owner owner => normalizeOwner raw_owner = .ok owner) raw_owners owners) :
    parseOwners n raw_owners = ([], owners) := by
  induction h with
  | nil => rfl
  | cons h₁ _ ih => rw [parseOwners_cons, h₁, ih]

/-- A line with tokens contributes one rule or at least one issue, under its
own number. -/
theorem parseTokens_spec (n : Nat) {tokens : List Str} (h : tokens ≠ []) :
    ((parseTokens n tokens).1 = [] ∧ ∃ rule, (parseTokens n tokens).2 = some rule ∧
      rule.line_number = n) ∨
    ((parseTokens n tokens).1 ≠ [] ∧ (parseTokens n tokens).2 = none ∧
      ∀ issue ∈ (parseTokens n tokens).1, issue.line_number = some n) := by
  cases tokens with
  | nil => exact absurd rfl h
  | cons raw_pattern raw_owners =>
    cases hp : validatePattern raw_pattern with
    | error message =>
      rw [parseTokens_error _ hp]
      exact .inr ⟨List.cons_ne_nil _ _, rfl, List.forall_mem_singleton.mpr rfl⟩
    | ok pattern =>
      rw [parseTokens_pattern _ hp]
      split
      · rename_i ho
        exact .inr ⟨ho, rfl, parseOwners_numbered n raw_owners⟩
      · exact .inl ⟨rfl, _, rfl, rfl⟩

/-- The tokens of a line without issues are a valid pattern and valid owners. -/
theorem parseTokens_ok {n : Nat} {raw_pattern : Str} {raw_owners : List Str}
    (h : (parseTokens n (raw_pattern :: raw_owners)).1 = []) :
    ∃ pattern owners, ∃ hp : validatePattern raw_pattern = .ok pattern,
      List.Forall₂ (fun raw_owner owner => normalizeOwner raw_owner = .ok owner) raw_owners owners ∧
      (parseTokens n (raw_pattern :: raw_owners)).2 =
        some ⟨pattern, fromKeys owners, n, validatePattern_idem hp⟩ := by
  obtain ⟨outcome, hp⟩ : ∃ outcome, validatePattern raw_pattern = outcome := ⟨_, rfl⟩
  cases outcome with
  | error message =>
    rw [parseTokens_error _ hp] at h
    cases h
  | ok pattern =>
    rw [parseTokens_pattern _ hp] at h ⊢
    split at h
    · rename_i ho
      exact absurd h ho
    · rename_i ho
      exact ⟨pattern, _, hp, parseOwners_ok (not_not.mp ho), by rw [if_neg ho]⟩

end

/-! ## Owners -/

/-- What `str.lower` makes of one character: an ASCII letter in lower case, and
never more bytes in the letters of an owner. -/
structure LowerMapping (c : Char) (image : Str) : Prop where
  nonempty : image ≠ []
  ascii : c.toNat < 128 → image = [c.toLower]
  short : (∀ d ∈ image, d.toNat < 128 ∨ isIgnoreCaseLetter d = true) →
    utf8Length image ≤ c.utf8Size

/-- `str.lower` replaces each character by its lower-case mapping. -/
class CharwiseLower [PyText] : Prop extends LawfulPyText where
  lower_chars : ∀ s : Str, ∃ images : List Str,
    PyText.lower s = images.flatten ∧ List.Forall₂ LowerMapping s images

theorem asciiText_charwise : @CharwiseLower asciiText :=
  letI := asciiText
  { asciiText_lawful with
    lower_chars := by
      intro s
      refine ⟨s.map fun c => [c.toLower], ?_, ?_⟩
      · show s.map Char.toLower = _
        induction s with
        | nil => rfl
        | cons c s ih => rw [List.map_cons, ih]; rfl
      · rw [List.forall₂_map_right_iff]
        refine List.forall₂_same.mpr fun c _ => ⟨by simp, fun _ => rfl, fun _ => ?_⟩
        have hle : c.toLower.utf8Size ≤ c.utf8Size := by
          have e : ∀ d : Char, d.utf8Size = if d.toNat ≤ 0x7f then 1 else if d.toNat ≤ 0x7ff then 2
              else if d.toNat ≤ 0xffff then 3 else 4 := by
            intro d
            unfold Char.utf8Size
            simp only [UInt32.le_iff_toNat_le]
            rfl
          rw [e, e, toNat_toLower]
          split_ifs <;> omega
        simpa [utf8Length] using hle }

/-- What the characters of an owner have in common. -/
structure OwnerChar (c : Char) : Prop where
  ascii : c.toNat < 128 ∨ isIgnoreCaseLetter c = true
  not_space : isSpace c = false
  not_escape : c ≠ '\\'

theorem ownerChar_of_tail {c : Char} (h : isOwnerTail c = true) : OwnerChar c := by
  have range : ∀ {a b : Char}, (decide (a ≤ c) && decide (c ≤ b)) = true →
      a.toNat ≤ c.toNat ∧ c.toNat ≤ b.toNat := by
    intro a b h
    rw [Bool.and_eq_true, decide_eq_true_eq, decide_eq_true_eq] at h
    exact ⟨UInt32.le_iff_toNat_le.mp h.1, UInt32.le_iff_toNat_le.mp h.2⟩
  have letters : ∀ n, 45 ≤ n → n ≤ 122 → n ≠ 92 → c.toNat = n → OwnerChar c := by
    intro n h₁ h₂ h₃ hn
    refine ⟨.inl (by omega), ?_, ?_⟩
    · simp only [isSpace, hn, Bool.or_eq_false_iff, Bool.and_eq_false_iff, decide_eq_false_iff_not,
        beq_eq_false_iff_ne]
      omega
    · rintro rfl
      exact h₃ hn.symm
  simp only [isOwnerTail, isOwnerHead, Bool.or_eq_true, beq_iff_eq] at h
  rcases h with (((h | h) | rfl) | rfl) | rfl
  · simp only [isIgnoreCaseLetter, Bool.or_eq_true, beq_iff_eq] at h
    rcases h with ((((h | h) | rfl) | rfl) | rfl) | rfl
    · obtain ⟨h₁, h₂⟩ := range h
      exact letters c.toNat (le_trans (by decide) h₁) h₂ (fun e => by rw [e] at h₁; exact absurd h₁ (by decide)) rfl
    · obtain ⟨h₁, h₂⟩ := range h
      exact letters c.toNat (le_trans (by decide) h₁) (le_trans h₂ (by decide))
        (fun e => by rw [e] at h₂; exact absurd h₂ (by decide)) rfl
    all_goals exact ⟨.inr (by decide), by decide, by decide⟩
  · obtain ⟨h₁, h₂⟩ := isDigit_iff.mp h
    exact letters c.toNat (by omega) (by omega) (by omega) rfl
  all_goals exact ⟨.inl (by decide), by decide, by decide⟩

/-- An owner the expression accepts, character by character. -/
theorem ownerRe_spec {owner : Str} (h : ownerRe.fullmatch owner = true) :
    ∃ rest, owner = '@' :: rest ∧ ∀ c ∈ rest, OwnerChar c := by
  have head : ∀ c, isOwnerHead c = true → OwnerChar c := by
    intro c hc
    exact ownerChar_of_tail (by simp [isOwnerTail, hc])
  have component : ∀ {u : Str} {rs : List (Regex Char)},
      u ∈ (Regex.seq (.sat isOwnerHead :: .star (.sat isOwnerTail) :: rs)).language →
      ∃ v w, u = v ++ w ∧ (∀ c ∈ v, OwnerChar c) ∧ w ∈ (Regex.seq rs).language := by
    intro u rs hu
    obtain ⟨v, w, rfl, ⟨a, ha, rfl⟩, hw⟩ := Regex.mem_seq_cons.mp hu
    obtain ⟨v, w, rfl, hv, hw⟩ := Regex.mem_seq_cons.mp hw
    refine ⟨a :: v, w, rfl, ?_, hw⟩
    rw [List.forall_mem_cons]
    exact ⟨head a ha, fun c hc => ownerChar_of_tail (Regex.mem_star_sat.mp hv c hc)⟩
  rw [Regex.fullmatch_iff] at h
  obtain ⟨u, v, rfl, ⟨a, ha, rfl⟩, hv⟩ := Regex.mem_seq_cons.mp h
  obtain ⟨x, y, rfl, hx, hy⟩ := component hv
  obtain rfl : a = '@' := by simpa using ha
  refine ⟨x ++ y, rfl, ?_⟩
  obtain ⟨team, z, rfl, hteam, hz⟩ := Regex.mem_seq_cons.mp hy
  obtain rfl : z = [] := hz
  rw [List.append_nil]
  rcases Regex.mem_opt.mp hteam with rfl | hteam
  · simpa using hx
  · obtain ⟨s, t, rfl, ⟨b, hb, rfl⟩, ht⟩ := Regex.mem_seq_cons.mp hteam
    obtain ⟨name, w, rfl, hname, hw⟩ := component ht
    obtain rfl : w = [] := hw
    obtain rfl : b = '/' := by simpa using hb
    simp only [List.append_nil, List.forall_mem_append, List.singleton_append, List.forall_mem_cons]
    exact ⟨hx, ⟨.inl (by decide), by decide, by decide⟩, hname⟩

theorem not_backslash_of_pattern {pattern value : Str} (h : validatePattern pattern = .ok value) :
    '\\' ∉ pattern := by
  intro hp
  obtain ⟨rfl, -, -, -, -, hs, -⟩ := validatePattern_ok h
  exact hs (mem_strip (by decide) hp)

section
variable [PyText]

theorem normalizeOwner_ok {value owner : Str} (h : normalizeOwner value = .ok owner) :
    owner = PyText.lower (strip value) ∧ ownerRe.fullmatch owner = true := by
  unfold normalizeOwner at h
  dsimp only at h
  split_ifs at h with h₁ h₂
  cases h
  exact ⟨rfl, by simpa using h₂⟩

/-- `str.lower` keeps a backslash, so no accepted owner was spelled with one. -/
theorem not_backslash_of_owner [CharwiseLower] {value owner : Str}
    (h : normalizeOwner value = .ok owner) : '\\' ∉ value := by
  intro hv
  obtain ⟨ho, hm⟩ := normalizeOwner_ok h
  obtain ⟨images, hl, hi⟩ := CharwiseLower.lower_chars (strip value)
  have hs := mem_strip (by decide) hv
  obtain ⟨n, hn, he⟩ := List.getElem_of_mem hs
  have hn' : n < images.length := hi.length_eq ▸ hn
  have himage := (hi.get hn hn').ascii (by rw [List.get_eq_getElem, he]; decide)
  rw [List.get_eq_getElem, List.get_eq_getElem, he, show '\\'.toLower = '\\' by decide] at himage
  have howner : '\\' ∈ owner := by
    rw [ho, hl]
    exact List.mem_flatten_of_mem (List.getElem_mem hn') (by rw [himage]; simp)
  obtain ⟨rest, rfl, hr⟩ := ownerRe_spec hm
  rcases List.mem_cons.mp howner with h | h
  · exact absurd h (by decide)
  · exact (hr _ h).not_escape rfl

/-- The tokens of a line without issues are free of backslashes. -/
theorem not_backslash_of_ok [CharwiseLower] {n : Nat} {tokens : List Str}
    (h : (parseTokens n tokens).1 = []) : ∀ token ∈ tokens, '\\' ∉ token := by
  cases tokens with
  | nil => simp
  | cons raw_pattern raw_owners =>
    obtain ⟨pattern, owners, hp, ho, -⟩ := parseTokens_ok h
    rw [List.forall_mem_cons]
    refine ⟨not_backslash_of_pattern hp, fun token ht => ?_⟩
    clear h
    induction ho with
    | nil => cases ht
    | cons h₁ _ ih =>
      rcases List.mem_cons.mp ht with rfl | ht
      · exact not_backslash_of_owner h₁
      · exact ih ht

end

end ExtraCodeowners
