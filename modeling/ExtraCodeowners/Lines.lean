import ExtraCodeowners.Codeowners

/-!
# Lines of a CODEOWNERS text

Git ends a line at a line feed; `str.splitlines` breaks at more characters.
Both are `linesAt`, for two sets of breaks. The parser reads the lines of Git
exactly when nothing but blank text and comments follows a break that Git does
not know.
-/

namespace ExtraCodeowners

/-! ## Breaking a text into lines -/

/-- `c` in front of the first line. -/
def consLine (c : Char) : List Str → List Str
  | [] => [[c]]
  | l :: ls => (c :: l) :: ls

/-- The lines of a text in which `brk` ends a line, and `\r\n` ends one line. -/
def linesAt (brk : Char → Bool) : Str → List Str
  | [] => []
  | '\r' :: '\n' :: s => [] :: linesAt brk s
  | c :: s => if brk c then [] :: linesAt brk s else consLine c (linesAt brk s)

/-- The lines of Git: a line feed ends a line, with a carriage return in front
of it or not. -/
def gitLines (s : Str) : List Str := linesAt (· == '\n') s

/-- The text `c :: s` does not begin with `\r\n`. -/
def NotPair (c : Char) (s : Str) : Prop := ¬ (c = '\r' ∧ s.head? = some '\n')

/-- A character that breaks a line for `str.splitlines` and not for Git. -/
def Stray (c : Char) (after : Str) : Prop := isLineBreak c = true ∧ c ≠ '\n' ∧ NotPair c after

theorem text_induction {p : Str → Prop} (nil : p []) (pair : ∀ s, p s → p ('\r' :: '\n' :: s))
    (char : ∀ c s, NotPair c s → p s → p (c :: s)) : ∀ s, p s
  | [] => nil
  | [c] => char c [] (by simp [NotPair]) nil
  | c :: d :: s => by
    by_cases h : c = '\r' ∧ d = '\n'
    · obtain ⟨rfl, rfl⟩ := h
      exact pair s (text_induction nil pair char s)
    · exact char c (d :: s) (by simpa [NotPair] using h) (text_induction nil pair char (d :: s))

section
variable (brk : Char → Bool)

@[simp] theorem linesAt_nil : linesAt brk [] = [] := rfl

@[simp] theorem linesAt_pair (s : Str) : linesAt brk ('\r' :: '\n' :: s) = [] :: linesAt brk s := rfl

theorem linesAt_cons {c : Char} {s : Str} (h : NotPair c s) :
    linesAt brk (c :: s) = if brk c then [] :: linesAt brk s else consLine c (linesAt brk s) := by
  rw [linesAt.eq_def]
  split
  · rename_i he; cases he
  · rename_i t he
    cases he
    exact absurd ⟨rfl, rfl⟩ h
  · rename_i he
    cases he
    rfl

theorem linesAt_eq_nil {s : Str} : linesAt brk s = [] ↔ s = [] := by
  refine ⟨fun h => ?_, fun h => h ▸ rfl⟩
  cases s using text_induction with
  | nil => rfl
  | pair s _ => cases h
  | char c s hp _ =>
    rw [linesAt_cons brk hp] at h
    split at h
    · cases h
    · revert h
      cases linesAt brk s <;> intro h <;> cases h

end

theorem splitlines_eq (s : Str) : splitlines s = linesAt isLineBreak s := by
  induction s using text_induction with
  | nil => rfl
  | pair s ih =>
    show [] :: splitlines s = [] :: linesAt isLineBreak s
    rw [ih]
  | char c s hp ih =>
    rw [linesAt_cons _ hp, ← ih, splitlines.eq_def]
    split
    · rename_i he; cases he
    · rename_i t he
      cases he
      exact absurd ⟨rfl, rfl⟩ hp
    · rename_i he
      cases he
      split
      · rfl
      · cases splitlines s <;> rfl

theorem isLineBreak_isSpace {c : Char} (h : isLineBreak c = true) : isSpace c = true := by
  simp only [isLineBreak, isSpace, Bool.or_eq_true, Bool.and_eq_true, decide_eq_true_eq, beq_iff_eq] at *
  omega

theorem not_stray_iff {c : Char} {s : Str} (hp : NotPair c s) :
    ¬ Stray c s ↔ isLineBreak c = (c == '\n') := by
  have hlf : isLineBreak '\n' = true := by decide
  by_cases hc : c = '\n'
  · subst hc
    simp [Stray, hlf]
  · cases hb : isLineBreak c <;> simp [Stray, hb, hc, hp]

/-! ## Lines the parser skips -/

/-- A line that is blank or a comment. -/
def Idle (line : Str) : Prop := strip line = [] ∨ startsWith '#' (strip line) = true

instance (line : Str) : Decidable (Idle line) := inferInstanceAs (Decidable (_ ∨ _))

@[simp] theorem idle_nil : Idle [] := .inl rfl

theorem idle_space {c : Char} (hc : isSpace c = true) (s : Str) : Idle (c :: s) ↔ Idle s := by
  unfold Idle
  rw [strip_space hc]

theorem idle_cons {c : Char} (hc : isSpace c = false) (s : Str) : Idle (c :: s) ↔ c = '#' := by
  unfold Idle
  rw [strip_cons hc]
  simp [startsWith]

/-- The number of the last line that is not skipped, or zero. -/
def lastContent : List Str → Nat
  | [] => 0
  | l :: ls => if lastContent ls ≠ 0 then lastContent ls + 1 else if Idle l then 0 else 1

theorem lastContent_cons (l : Str) (ls : List Str) : lastContent (l :: ls) =
    if lastContent ls ≠ 0 then lastContent ls + 1 else if Idle l then 0 else 1 := rfl

theorem lastContent_eq_zero {ls : List Str} : lastContent ls = 0 ↔ ∀ l ∈ ls, Idle l := by
  induction ls with
  | nil => simp [lastContent]
  | cons l ls ih =>
    rw [lastContent_cons, List.forall_mem_cons, ← ih]
    split
    · rename_i h
      simp [h]
    · rename_i h
      split
      · rename_i hl
        simp [hl, not_not.mp h]
      · rename_i hl
        constructor
        · intro h₁
          cases h₁
        · intro h₁
          exact absurd h₁.1 hl

/-- The last line that is not skipped is there. -/
theorem lastContent_spec {ls : List Str} (h : lastContent ls ≠ 0) :
    ∃ l, ls[lastContent ls - 1]? = some l ∧ ¬ Idle l := by
  induction ls with
  | nil => exact absurd rfl h
  | cons l ls ih =>
    rw [lastContent_cons] at h ⊢
    split at h
    · rename_i h₀
      obtain ⟨m, hm, hi⟩ := ih h₀
      refine ⟨m, ?_, hi⟩
      rw [if_pos h₀, ← hm, show lastContent ls + 1 - 1 = lastContent ls - 1 + 1 by omega,
        List.getElem?_cons_succ]
    · rename_i h₀
      split at h
      · exact absurd rfl h
      · rename_i hl
        exact ⟨l, by rw [if_neg h₀, if_neg hl]; rfl, hl⟩

theorem le_lastContent {ls : List Str} {n : Nat} {l : Str} (h : ls[n]? = some l) (hl : ¬ Idle l) :
    n < lastContent ls := by
  induction ls generalizing n with
  | nil => simp at h
  | cons m ls ih =>
    rw [lastContent_cons]
    cases n with
    | zero =>
      obtain rfl : m = l := by simpa using h
      rw [if_neg hl]
      split <;> omega
    | succ n =>
      have := ih (n := n) (by simpa using h)
      rw [if_pos (by omega)]
      omega

theorem lastContent_consLine_space {c : Char} (hc : isSpace c = true) (ls : List Str) :
    lastContent (consLine c ls) = lastContent ls := by
  cases ls with
  | nil => simp [consLine, lastContent, idle_space hc]
  | cons l ls => simp only [consLine, lastContent_cons, idle_space hc]

theorem lastContent_consLine {c : Char} (hc : isSpace c = false) (ls : List Str) :
    lastContent (consLine c ls) =
      if lastContent ls.tail ≠ 0 then lastContent ls.tail + 1 else if c = '#' then 0 else 1 := by
  cases ls with
  | nil => simp [consLine, lastContent, idle_cons hc]
  | cons l ls =>
    simp only [consLine, lastContent_cons, idle_cons hc]
    rfl

theorem lastContent_tail (ls : List Str) :
    lastContent ls ≤ lastContent ls.tail + 1 ∧ (lastContent ls.tail ≠ 0 →
      lastContent ls = lastContent ls.tail + 1) := by
  cases ls with
  | nil => simp [lastContent]
  | cons l ls =>
    rw [lastContent_cons, List.tail_cons]
    split
    · simp
    · split <;> simp_all

/-- A line of Git that is not skipped has a fragment that is not. -/
theorem lastContent_gitLines_le (s : Str) :
    lastContent (gitLines s) ≤ lastContent (splitlines s) := by
  rw [splitlines_eq, gitLines]
  induction s using text_induction with
  | nil => exact le_refl _
  | pair s ih =>
    simp only [linesAt_pair, lastContent_cons, idle_nil, if_true]
    split <;> split <;> omega
  | char c s hp ih =>
    rw [linesAt_cons _ hp, linesAt_cons _ hp]
    by_cases hlf : c = '\n'
    · subst hlf
      simp only [show isLineBreak '\n' = true by decide, beq_self_eq_true, if_true, lastContent_cons,
        idle_nil]
      split <;> split <;> omega
    · rw [if_neg (by simpa using hlf)]
      by_cases hb : isLineBreak c = true
      · rw [if_pos hb, lastContent_consLine_space (isLineBreak_isSpace hb), lastContent_cons]
        simp only [idle_nil, if_true]
        split <;> omega
      · rw [if_neg hb]
        cases hc : isSpace c with
        | true => simpa only [lastContent_consLine_space hc] using ih
        | false =>
          rw [lastContent_consLine hc, lastContent_consLine hc]
          have h₁ := lastContent_tail (linesAt (· == '\n') s)
          have h₂ := lastContent_tail (linesAt isLineBreak s)
          split <;> split <;> (try split) <;> omega

theorem idle_gitLines {s : Str} (h : ∀ l ∈ splitlines s, Idle l) : ∀ l ∈ gitLines s, Idle l := by
  have := lastContent_gitLines_le s
  rw [lastContent_eq_zero.mpr h, Nat.le_zero] at this
  exact lastContent_eq_zero.mp this

/-! ## Breaks that Git does not know -/

/-- Nothing but blank text and comments follows a break that Git does not know. -/
def StrayIdle (content : Str) : Prop :=
  ∀ before c after, content = before ++ c :: after → Stray c after → ∀ l ∈ splitlines after, Idle l

theorem StrayIdle.of_cons {c : Char} {s : Str} (h : StrayIdle (c :: s)) : StrayIdle s := by
  intro before d after he hd
  exact h (c :: before) d after (by rw [he]; rfl) hd

/-- With a line behind a stray break that is not skipped, the last such line
has a larger number than in Git. -/
theorem lastContent_lt {s before after : Str} {c : Char} (he : s = before ++ c :: after)
    (hc : Stray c after) (hl : lastContent (splitlines after) ≠ 0) :
    lastContent (gitLines s) < lastContent (splitlines s) ∧ 2 ≤ lastContent (splitlines s) := by
  have hle := lastContent_gitLines_le after
  rw [splitlines_eq] at hl hle ⊢
  rw [gitLines] at hle ⊢
  induction s using text_induction generalizing before with
  | nil => cases before <;> cases he
  | pair s ih =>
    obtain _ | ⟨b₁, _ | ⟨b₂, before⟩⟩ := before
    · obtain ⟨rfl, rfl⟩ := List.cons.inj he
      exact absurd ⟨rfl, rfl⟩ hc.2.2
    · obtain ⟨-, h₂⟩ := List.cons.inj he
      obtain ⟨h₃, -⟩ := List.cons.inj h₂
      exact absurd h₃.symm hc.2.1
    · obtain ⟨-, h₂⟩ := List.cons.inj he
      obtain ⟨-, h₃⟩ := List.cons.inj h₂
      have := ih h₃
      simp only [linesAt_pair, lastContent_cons, idle_nil, if_true]
      split <;> split <;> omega
  | char d s hp ih =>
    rw [linesAt_cons _ hp, linesAt_cons _ hp]
    cases before with
    | nil =>
      obtain ⟨rfl, rfl⟩ := List.cons.inj he
      rw [if_neg (by simpa using hc.2.1), if_pos hc.1,
        lastContent_consLine_space (isLineBreak_isSpace hc.1), lastContent_cons, if_pos hl]
      omega
    | cons b before =>
      obtain ⟨-, h₂⟩ := List.cons.inj he
      obtain ⟨ih₁, ih₂⟩ := ih h₂
      by_cases hlf : d = '\n'
      · subst hlf
        simp only [show isLineBreak '\n' = true by decide, beq_self_eq_true, if_true,
          lastContent_cons, idle_nil]
        split <;> split <;> omega
      · rw [if_neg (by simpa using hlf)]
        by_cases hb : isLineBreak d = true
        · rw [if_pos hb, lastContent_consLine_space (isLineBreak_isSpace hb), lastContent_cons,
            if_pos (by omega)]
          omega
        · rw [if_neg hb]
          cases hd : isSpace d with
          | true =>
            simp only [lastContent_consLine_space hd]
            exact ⟨ih₁, ih₂⟩
          | false =>
            rw [lastContent_consLine hd, lastContent_consLine hd]
            have h₁ := lastContent_tail (linesAt (· == '\n') s)
            have h₂ := lastContent_tail (linesAt isLineBreak s)
            rw [if_pos (show lastContent (linesAt isLineBreak s).tail ≠ 0 by omega)]
            split <;> (try split) <;> omega

/-- Otherwise the lines differ in one line of Git, which is the fragment in
front of the first stray break with skipped text behind it. -/
theorem StrayIdle.lines {s : Str} (h : StrayIdle s) :
    splitlines s = gitLines s ∨ ∃ p q c l rest ls, splitlines s = p ++ q :: rest ∧
      gitLines s = p ++ (q ++ c :: l) :: ls ∧ isSpace c = true ∧ Idle l ∧
      (∀ r ∈ rest, Idle r) ∧ ∀ r ∈ ls, Idle r := by
  rw [splitlines_eq, gitLines]
  induction s using text_induction with
  | nil => exact .inl rfl
  | pair s ih =>
    rw [linesAt_pair, linesAt_pair]
    rcases ih h.of_cons.of_cons with he | ⟨p, q, c, l, rest, ls, h₁, h₂, h₃⟩
    · exact .inl (by rw [he])
    · exact .inr ⟨[] :: p, q, c, l, rest, ls, by rw [h₁]; rfl, by rw [h₂]; rfl, h₃⟩
  | char d s hp ih =>
    rw [linesAt_cons _ hp, linesAt_cons _ hp]
    by_cases hd : Stray d s
    · right
      have hs := h [] d s rfl hd
      have hg := idle_gitLines hs
      rw [splitlines_eq] at hs
      rw [gitLines] at hg
      rw [if_pos hd.1, if_neg (by simpa using hd.2.1)]
      cases hl : linesAt (· == '\n') s with
      | nil => exact ⟨[], [], d, [], _, [], rfl, rfl, isLineBreak_isSpace hd.1, idle_nil, hs, by simp⟩
      | cons l ls =>
        rw [hl, List.forall_mem_cons] at hg
        exact ⟨[], [], d, l, _, ls, rfl, rfl, isLineBreak_isSpace hd.1, hg.1, hs, hg.2⟩
    · rw [(not_stray_iff hp).mp hd]
      rcases ih h.of_cons with he | ⟨p, q, c, l, rest, ls, h₁, h₂, h₃⟩
      · exact .inl (by rw [he])
      · right
        rw [h₁, h₂]
        split
        · exact ⟨[] :: p, q, c, l, rest, ls, rfl, rfl, h₃⟩
        · cases p with
          | nil => exact ⟨[], d :: q, c, l, rest, ls, rfl, rfl, h₃⟩
          | cons l₀ p => exact ⟨(d :: l₀) :: p, q, c, l, rest, ls, rfl, rfl, h₃⟩

end ExtraCodeowners
