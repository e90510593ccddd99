import ExtraCodeowners.Lib.JsonText
import ExtraCodeowners.Text

/-!
# Nesting of JSON responses

The scanner that bounds the nesting of a response before it is parsed. Over a
text of the grammar it counts what the syntax tree nests.
-/

namespace ExtraCodeowners

open JsonText

def MAX_JSON_RESPONSE_DEPTH : Nat := 64

def NESTING_LIMIT : Str := ("JSON response exceeds the nesting-depth limit" : Str)

structure NestingScan where
  depth : Nat
  in_string : Bool
  escaped : Bool

def NestingScan.step (scan : NestingScan) (character : Char) : Except Str NestingScan :=
  if scan.in_string then
    if scan.escaped then .ok { scan with escaped := false }
    else if character = '\\' then .ok { scan with escaped := true }
    else if character = '"' then .ok { scan with in_string := false }
    else .ok scan
  else if character = '"' then .ok { scan with in_string := true }
  else if character = '[' ∨ character = '{' then
    if MAX_JSON_RESPONSE_DEPTH < scan.depth + 1 then .error NESTING_LIMIT
    else .ok { scan with depth := scan.depth + 1 }
  else if character = ']' ∨ character = '}' then .ok { scan with depth := scan.depth - 1 }
  else .ok scan

def validateJsonNesting (value : Str) : Except Str Unit :=
  match value.foldlM NestingScan.step ⟨0, false, false⟩ with
  | .error error => .error error
  | .ok _ => .ok ()

/-! ## Scanned pieces -/

/-- Outside a string the piece closes what it opens, and reaches `n` further down. -/
def Nests (s : Str) (n : Nat) : Prop := ∀ depth ≤ MAX_JSON_RESPONSE_DEPTH,
  s.foldlM NestingScan.step ⟨depth, false, false⟩ =
    if depth + n ≤ MAX_JSON_RESPONSE_DEPTH then .ok ⟨depth, false, false⟩ else .error NESTING_LIMIT

theorem nests_zero {s : Str} (h : ∀ depth, s.foldlM NestingScan.step ⟨depth, false, false⟩ =
    .ok ⟨depth, false, false⟩) : Nests s 0 := by
  intro depth hd
  rw [h, Nat.add_zero, if_pos hd]

theorem nests_nil : Nests [] 0 := nests_zero fun _ => rfl

theorem Nests.append {s t : Str} {m n : Nat} (hs : Nests s m) (ht : Nests t n) :
    Nests (s ++ t) (max m n) := by
  intro depth hd
  rw [List.foldlM_append, hs depth hd]
  by_cases hm : depth + m ≤ MAX_JSON_RESPONSE_DEPTH
  · rw [if_pos hm]
    change t.foldlM NestingScan.step ⟨depth, false, false⟩ = _
    rw [ht depth hd]
    by_cases hn : depth + n ≤ MAX_JSON_RESPONSE_DEPTH
    · rw [if_pos hn, if_pos (by omega)]
    · rw [if_neg hn, if_neg (by omega)]
  · rw [if_neg hm, if_neg (by omega)]
    rfl

theorem nests_plain {c : Char} (hc : Plain c) : Nests [c] 0 := by
  simp only [Plain, List.mem_cons, List.not_mem_nil, or_false, not_or] at hc
  obtain ⟨hquote, hbracket, hbrace, hbracket', hbrace'⟩ := hc
  refine nests_zero fun depth => ?_
  have hstep : NestingScan.step ⟨depth, false, false⟩ c = .ok ⟨depth, false, false⟩ := by
    simp [NestingScan.step, hquote, hbracket, hbrace, hbracket', hbrace']
  rw [List.foldlM_cons, hstep]
  rfl

theorem nests_of_plain {s : Str} (h : ∀ c ∈ s, Plain c) : Nests s 0 := by
  induction s with
  | nil => exact nests_nil
  | cons c s ih =>
    have hs := ih fun d hd => h d (List.mem_cons_of_mem c hd)
    exact (nests_plain (h c (by simp))).append hs

theorem Nests.cons {c : Char} {s : Str} {n : Nat} (hc : Plain c) (hs : Nests s n) : Nests (c :: s) n := by
  have h := (nests_plain hc).append hs
  rwa [Nat.zero_max] at h

/-- One more level, between an opening and a closing character. -/
theorem Nests.wrap {a b : Char} {s : Str} {n : Nat} (ha : a = '[' ∨ a = '{') (hb : b = ']' ∨ b = '}')
    (h : Nests s n) : Nests (a :: (s ++ [b])) (n + 1) := by
  intro depth hd
  have hopen : NestingScan.step ⟨depth, false, false⟩ a =
      if MAX_JSON_RESPONSE_DEPTH < depth + 1 then .error NESTING_LIMIT
      else .ok ⟨depth + 1, false, false⟩ := by
    rcases ha with rfl | rfl <;> rfl
  have hclose : NestingScan.step ⟨depth + 1, false, false⟩ b = .ok ⟨depth, false, false⟩ := by
    rcases hb with rfl | rfl <;> rfl
  rw [List.foldlM_cons, hopen]
  by_cases hone : MAX_JSON_RESPONSE_DEPTH < depth + 1
  · rw [if_pos hone, if_neg (by omega)]
    rfl
  · rw [if_neg hone]
    change (s ++ [b]).foldlM NestingScan.step ⟨depth + 1, false, false⟩ = _
    rw [List.foldlM_append, h (depth + 1) (by omega)]
    by_cases hn : depth + (n + 1) ≤ MAX_JSON_RESPONSE_DEPTH
    · rw [if_pos hn, if_pos (by omega)]
      change [b].foldlM NestingScan.step ⟨depth + 1, false, false⟩ = _
      rw [List.foldlM_cons, hclose]
      rfl
    · rw [if_neg hn, if_neg (by omega)]
      rfl

/-- Inside a string no character of its body changes the scan in the end. -/
theorem scan_body {body : Str} (h : StringBody body) (depth : Nat) :
    body.foldlM NestingScan.step ⟨depth, true, false⟩ = .ok ⟨depth, true, false⟩ := by
  have hback : NestingScan.step ⟨depth, true, false⟩ '\\' = .ok ⟨depth, true, true⟩ := rfl
  have hescaped : ∀ c : Char, NestingScan.step ⟨depth, true, true⟩ c = .ok ⟨depth, true, false⟩ :=
    fun _ => rfl
  have hplain : ∀ c : Char, c ≠ '"' → c ≠ '\\' →
      NestingScan.step ⟨depth, true, false⟩ c = .ok ⟨depth, true, false⟩ := by
    intro c h₁ h₂
    simp [NestingScan.step, h₁, h₂]
  induction h with
  | nil => rfl
  | plain hc hs ih =>
    rw [List.foldlM_cons, hplain _ hc.1 hc.2.1]
    exact ih
  | escape hc hs ih =>
    rw [List.foldlM_cons, hback]
    exact ih
  | @unicode a b c d s hhex hs ih =>
    have hdigits : ∀ e ∈ [a, b, c, d],
        NestingScan.step ⟨depth, true, false⟩ e = .ok ⟨depth, true, false⟩ := by
      intro e he
      have hx := List.all_eq_true.mp hhex e he
      refine hplain e ?_ ?_ <;> rintro rfl <;> exact absurd hx (by decide)
    have hrest : (a :: b :: c :: d :: s).foldlM NestingScan.step ⟨depth, true, false⟩ =
        .ok ⟨depth, true, false⟩ := by
      rw [List.foldlM_cons, hdigits a (by simp)]
      change (b :: c :: d :: s).foldlM NestingScan.step _ = _
      rw [List.foldlM_cons, hdigits b (by simp)]
      change (c :: d :: s).foldlM NestingScan.step _ = _
      rw [List.foldlM_cons, hdigits c (by simp)]
      change (d :: s).foldlM NestingScan.step _ = _
      rw [List.foldlM_cons, hdigits d (by simp)]
      exact ih
    rw [List.foldlM_cons, hback]
    change ('u' :: a :: b :: c :: d :: s).foldlM NestingScan.step ⟨depth, true, true⟩ = _
    rw [List.foldlM_cons, hescaped]
    exact hrest

theorem scan_string {body : Str} (h : StringBody body) (depth : Nat) :
    ('"' :: (body ++ ['"'])).foldlM NestingScan.step ⟨depth, false, false⟩ =
      .ok ⟨depth, false, false⟩ := by
  rw [List.foldlM_cons]
  change (body ++ ['"']).foldlM NestingScan.step ⟨depth, true, false⟩ = _
  rw [List.foldlM_append, scan_body h]
  rfl

theorem nests_spaces {w : Str} (h : Spaces w) : Nests w 0 :=
  nests_of_plain fun c hc => plain_of_isSpace (h c hc)

/-! ## Texts of the grammar -/

mutual

theorem nests_value {s : Str} {value : JsonText.Syntax} : IsValue s value → Nests s value.depth
  | .literal h => nests_of_plain (plain_of_literal h)
  | .number h => nests_of_plain (plain_of_number h)
  | .string h => nests_zero (scan_string h)
  | .emptyArray h => (nests_spaces h).wrap (.inl rfl) (.inl rfl)
  | .array h => (nests_items h).wrap (.inl rfl) (.inl rfl)
  | .emptyObject h => (nests_spaces h).wrap (.inr rfl) (.inr rfl)
  | .object h => (nests_members h).wrap (.inr rfl) (.inr rfl)

theorem nests_text {s : Str} {value : JsonText.Syntax} : IsText s value → Nests s value.depth
  | .intro hb h ha => by
    have h := (nests_spaces hb).append ((nests_value h).append (nests_spaces ha))
    rwa [Nat.zero_max, Nat.max_zero] at h

theorem nests_items {s : Str} {items : List JsonText.Syntax} : IsItems s items → Nests s (depthItems items)
  | .one h => by
    rw [depthItems, depthItems, Nat.max_zero]
    exact nests_text h
  | .more h ht => (nests_text h).append ((nests_items ht).cons (by decide))

theorem nests_member {s : Str} {member : Str × JsonText.Syntax} :
    IsMember s member → Nests s member.2.depth
  | .intro hb hn ha h => by
    have hvalue := (nests_spaces ha).append ((nests_text h).cons (by decide : Plain ':'))
    have h := (nests_spaces hb).append ((nests_zero (scan_string hn)).append hvalue)
    simpa only [Nat.zero_max] using h

theorem nests_members {s : Str} {members : List (Str × JsonText.Syntax)} :
    IsMembers s members → Nests s (depthMembers members)
  | .one h => by
    rw [depthMembers, depthMembers, Nat.max_zero]
    exact nests_member h
  | .more h ht => (nests_member h).append ((nests_members ht).cons (by decide))

end

theorem validateJsonNesting_text {s : Str} {value : JsonText.Syntax} (h : IsText s value) :
    validateJsonNesting s =
      if value.depth ≤ MAX_JSON_RESPONSE_DEPTH then .ok () else .error NESTING_LIMIT := by
  rw [validateJsonNesting, nests_text h 0 (Nat.zero_le _), Nat.zero_add]
  by_cases hd : value.depth ≤ MAX_JSON_RESPONSE_DEPTH
  · rw [if_pos hd, if_pos hd]
  · rw [if_neg hd, if_neg hd]

/-- The scanner refuses a text exactly when its value nests deeper than the
limit, and what stands in a string never counts. -/
theorem nesting_exact {s : Str} {value : JsonText.Syntax} (h : IsText s value) :
    ((∃ error, validateJsonNesting s = .error error) ↔ MAX_JSON_RESPONSE_DEPTH < value.depth) ∧
      ∀ (depth : Nat) (body : Str), StringBody body →
        ('"' :: (body ++ ['"'])).foldlM NestingScan.step ⟨depth, false, false⟩ =
          .ok ⟨depth, false, false⟩ := by
  refine ⟨?_, fun depth body hbody => scan_string hbody depth⟩
  rw [validateJsonNesting_text h]
  by_cases hd : value.depth ≤ MAX_JSON_RESPONSE_DEPTH
  · rw [if_pos hd]
    simp [hd]
  · rw [if_neg hd]
    simpa using hd

/-- `["\"[", {"]": 0}]` -/
def bracketsInStrings : Str :=
  ['[', '"', '\\', '"', '[', '"', ',', ' ', '{', '"', ']', '"', ':', ' ', '0', '}', ']']

theorem spaces_nil : Spaces [] := fun _ h => nomatch h

theorem bracketsInStrings_text : IsText bracketsInStrings
    (.array [.string ['\\', '"', '['], .object [([']'], .number ['0'])]]) := by
  have hspace : Spaces [' '] := by
    intro c hc
    rw [List.mem_singleton.mp hc]
    rfl
  have hstring : IsText ['"', '\\', '"', '[', '"'] (.string ['\\', '"', '[']) :=
    @IsText.intro [] _ [] _ spaces_nil
      (.string (.escape (by decide) (.plain (by decide) .nil))) spaces_nil
  have hzero : IsText [' ', '0'] (.number ['0']) :=
    @IsText.intro [' '] ['0'] [] _ hspace (.number (by decide)) spaces_nil
  have hmember : IsMember ['"', ']', '"', ':', ' ', '0'] ([']'], .number ['0']) :=
    @IsMember.intro [] [']'] [] _ _ spaces_nil (.plain (by decide) .nil) spaces_nil hzero
  have hobject : IsText [' ', '{', '"', ']', '"', ':', ' ', '0', '}']
      (.object [([']'], .number ['0'])]) :=
    @IsText.intro [' '] _ [] _ hspace (.object (.one hmember)) spaces_nil
  exact @IsText.intro [] _ [] _ spaces_nil (.array (.more hstring (.one hobject))) spaces_nil

theorem bracketsInStrings_accepted :
    ((∃ error, validateJsonNesting bracketsInStrings = .error error) ↔ MAX_JSON_RESPONSE_DEPTH < 2) ∧
      ∀ (depth : Nat) (body : Str), StringBody body →
        ('"' :: (body ++ ['"'])).foldlM NestingScan.step ⟨depth, false, false⟩ =
          .ok ⟨depth, false, false⟩ :=
  nesting_exact bracketsInStrings_text

end ExtraCodeowners
