import ExtraCodeowners.Models
import ExtraCodeowners.Unicode

/-!
# Check bodies

The Markdown body of a check, and what untrusted text can do to its layout:
every hole of the body renders on its own line, escaped for the position it
stands in.
-/

namespace ExtraCodeowners

/-! ## Escaping -/

/-- `string.punctuation` -/
def isPunctuation (c : Char) : Bool :=
  let n := c.toNat
  (33 ≤ n && n ≤ 47) || (58 ≤ n && n ≤ 64) || (91 ≤ n && n ≤ 96) || (123 ≤ n && n ≤ 126)

/-- `f"{n:04X}"` -/
def hexPadded (n : Nat) : Str :=
  let digits := (Nat.toDigits 16 n).map Char.toUpper
  List.replicate (4 - digits.length) '0' ++ digits

/-- `html.escape` of one character: the ampersand is replaced first, so no
replacement is escaped again. -/
def htmlChar (c : Char) : Str :=
  if c = '&' then ("&amp;" : Str)
  else if c = '<' then ("&lt;" : Str)
  else if c = '>' then ("&gt;" : Str)
  else if c = '"' then ("&quot;" : Str)
  else if c = '\'' then ("&#x27;" : Str)
  else [c]

def htmlEscape (s : Str) : Str := s.flatMap htmlChar

def markdownChar (c : Char) : Str := if isPunctuation c then ['\\', c] else [c]

section
variable [UnicodeTables]

def visibleChar (c : Char) : Str :=
  if c = '\n' then ['\\', 'n']
  else if c = '\r' then ['\\', 'r']
  else if c = '\t' then ['\\', 't']
  else if isControl c then ("<U+" : Str) ++ hexPadded c.toNat ++ [('>' : Char)]
  else [c]

def visibleText (value : Str) : Str := value.flatMap visibleChar

def markdownText (value : Str) : Str := (visibleText value).flatMap markdownChar

def markdownCode (value : Str) : Str :=
  ("<code>" : Str) ++ htmlEscape (visibleText value) ++ ("</code>" : Str)

end

/-! ## The body -/

/-- A heading with its lines, none of it when there are no lines. -/
def checkSection (heading : Str) (lines : List Str) : List Str :=
  if lines = [] then [] else [] :: heading :: lines

def OwnerSetResult.marker (requirement : OwnerSetResult Str) : Str :=
  if requirement.satisfied then ("✅" : Str) else ("❌" : Str)

section
variable [UnicodeTables]

def messageLine (item : EvaluationMessage) : Str :=
  ("- " : Str) ++ markdownCode item.code ++ (": " : Str) ++ markdownText item.message

def evidenceLine (evidence : PathEvidence Str) : Str :=
  ("  - " : Str) ++ markdownCode evidence.path ++ (": " : Str) ++ markdownText evidence.explanation

def requirementLines (requirement : OwnerSetResult Str) : List Str :=
  (("- " : Str) ++ requirement.marker ++ (" " : Str) ++
      join (", " : Str) (requirement.owners.map markdownCode) ++ (": " : Str) ++
      markdownText requirement.explanation) ::
    requirement.path_evidence.map evidenceLine

def EvaluationResult.checkLines (result : EvaluationResult Str) : List Str :=
  [markdownText result.summary] ++
    checkSection ("### Errors" : Str) (result.errors.map messageLine) ++
    checkSection ("### Warnings" : Str) (result.warnings.map messageLine) ++
    checkSection ("### CODEOWNER requirements" : Str) (result.requirements.flatMap requirementLines) ++
    checkSection ("### Unowned paths" : Str)
      (result.unowned_paths.map fun path => ("- " : Str) ++ markdownCode path)

def EvaluationResult.checkOutput (result : EvaluationResult Str) : Str :=
  join ['\n'] result.checkLines

end

/-! ## What the escapes leave -/

theorem mem_toDigits_sixteen {n : Nat} {c : Char} (h : c ∈ Nat.toDigits 16 n) :
    ∃ d < 16, c = Nat.digitChar d := by
  induction n using Nat.strongRecOn generalizing c with
  | ind n ih =>
    by_cases hn : n < 16
    · rw [Nat.toDigits_of_lt_base hn, List.mem_singleton] at h
      exact ⟨n, hn, h⟩
    · rw [Nat.toDigits_of_base_le (by decide) (by omega), List.mem_append, List.mem_singleton] at h
      rcases h with h | h
      · exact ih (n / 16) (by omega) h
      · exact ⟨n % 16, by omega, h⟩

/-- Every punctuation character has a backslash of its own. -/
inductive IsEscaped : Str → Prop
  | nil : IsEscaped []
  | plain {c : Char} {s : Str} (hc : isPunctuation c = false) (h : IsEscaped s) : IsEscaped (c :: s)
  | punctuation {c : Char} {s : Str} (hc : isPunctuation c = true) (h : IsEscaped s) :
    IsEscaped ('\\' :: c :: s)

theorem isEscaped_markdown (s : Str) : IsEscaped (s.flatMap markdownChar) := by
  induction s with
  | nil => exact .nil
  | cons c s ih =>
    rw [List.flatMap_cons, markdownChar]
    by_cases hc : isPunctuation c = true
    · rw [if_pos hc]
      exact .punctuation hc ih
    · rw [if_neg hc]
      exact .plain (by simpa using hc) ih

def HTML_ENTITIES : List Str :=
  [("&amp;" : Str), ("&lt;" : Str), ("&gt;" : Str), ("&quot;" : Str), ("&#x27;" : Str)]

theorem htmlChar_cases (c : Char) :
    htmlChar c ∈ HTML_ENTITIES ∨ htmlChar c = [c] ∧ c ∉ ['&', '<', '>', '"', '\''] := by
  unfold htmlChar
  by_cases h₁ : c = '&'
  · simp [h₁, HTML_ENTITIES]
  by_cases h₂ : c = '<'
  · simp [h₂, HTML_ENTITIES]
  by_cases h₃ : c = '>'
  · simp [h₃, HTML_ENTITIES]
  by_cases h₄ : c = '"'
  · simp [h₄, HTML_ENTITIES]
  by_cases h₅ : c = '\''
  · simp [h₅, HTML_ENTITIES]
  · simp [h₁, h₂, h₃, h₄, h₅]

/-- Text without raw delimiters: an ampersand only begins an entity. -/
inductive IsHtmlText : Str → Prop
  | nil : IsHtmlText []
  | plain {c : Char} {s : Str} (hc : c ∉ ['&', '<', '>', '"', '\'']) (h : IsHtmlText s) : IsHtmlText (c :: s)
  | entity {e s : Str} (he : e ∈ HTML_ENTITIES) (h : IsHtmlText s) : IsHtmlText (e ++ s)

theorem isHtmlText_htmlEscape (s : Str) : IsHtmlText (htmlEscape s) := by
  induction s with
  | nil => exact .nil
  | cons c s ih =>
    rw [htmlEscape, List.flatMap_cons]
    rcases htmlChar_cases c with he | ⟨hc, hplain⟩
    · exact .entity he ih
    · rw [hc]
      exact .plain hplain ih

section
variable [UnicodeTables]

/-- A printable ASCII character. -/
theorem isControl_printable {c : Char} (h : 32 ≤ c.toNat ∧ c.toNat < 127) : isControl c = false := by
  obtain ⟨h₁, h₂⟩ := h
  have ha : isAscii c = true := by
    simp only [isAscii, decide_eq_true_eq]
    omega
  simp only [isControl, ha, Bool.not_true, Bool.false_and, Bool.or_false, Bool.or_eq_false_iff,
    Bool.and_eq_false_iff, decide_eq_false_iff_not, beq_eq_false_iff_ne]
  omega

theorem isControl_of_printable {s : Str} {c : Char}
    (hs : s.all (fun e => decide (32 ≤ e.toNat ∧ e.toNat < 127)) = true) (h : c ∈ s) :
    isControl c = false :=
  isControl_printable (forall_mem_of_all hs c h)

theorem isControl_hexPadded {n : Nat} {c : Char} (h : c ∈ hexPadded n) : isControl c = false := by
  apply isControl_printable
  have hdigit : ∀ d < 16, 32 ≤ (Nat.digitChar d).toUpper.toNat ∧ (Nat.digitChar d).toUpper.toNat < 127 := by
    decide
  rcases List.mem_append.mp h with h | h
  · rw [List.eq_of_mem_replicate h]
    decide
  · obtain ⟨d, hd, rfl⟩ := List.mem_map.mp h
    obtain ⟨k, hk, rfl⟩ := mem_toDigits_sixteen hd
    exact hdigit k hk

/-- No control is left in visible text. -/
theorem visibleText_visible {value : Str} {c : Char} (h : c ∈ visibleText value) : isControl c = false := by
  obtain ⟨d, -, hd⟩ := List.mem_flatMap.mp h
  unfold visibleChar at hd
  by_cases h₁ : d = '\n'
  · rw [if_pos h₁] at hd
    exact isControl_of_printable (by decide) hd
  rw [if_neg h₁] at hd
  by_cases h₂ : d = '\r'
  · rw [if_pos h₂] at hd
    exact isControl_of_printable (by decide) hd
  rw [if_neg h₂] at hd
  by_cases h₃ : d = '\t'
  · rw [if_pos h₃] at hd
    exact isControl_of_printable (by decide) hd
  rw [if_neg h₃] at hd
  by_cases h₄ : isControl d = true
  · rw [if_pos h₄] at hd
    rcases List.mem_append.mp hd with hd | hd
    · rcases List.mem_append.mp hd with hd | hd
      · exact isControl_of_printable (by decide) hd
      · exact isControl_hexPadded hd
    · exact isControl_of_printable (by decide) hd
  · rw [if_neg h₄] at hd
    rw [List.mem_singleton.mp hd]
    simpa using h₄

theorem isLineBreak_isControl {c : Char} (h : isLineBreak c = true) : isControl c = true := by
  simp only [isLineBreak, isControl, Bool.or_eq_true, Bool.and_eq_true, decide_eq_true_eq, beq_iff_eq] at h ⊢
  omega

theorem markdownText_visible {value : Str} {c : Char} (h : c ∈ markdownText value) : isControl c = false := by
  obtain ⟨d, hd, hc⟩ := List.mem_flatMap.mp h
  unfold markdownChar at hc
  by_cases hp : isPunctuation d = true
  · rw [if_pos hp, List.mem_cons, List.mem_singleton] at hc
    rcases hc with rfl | rfl
    · exact isControl_printable (by decide)
    · exact visibleText_visible hd
  · rw [if_neg hp, List.mem_singleton] at hc
    exact hc ▸ visibleText_visible hd

theorem markdownCode_visible {value : Str} {c : Char} (h : c ∈ markdownCode value) : isControl c = false := by
  rcases List.mem_append.mp h with h | h
  · rcases List.mem_append.mp h with h | h
    · exact isControl_of_printable (by decide) h
    · obtain ⟨d, hd, hc⟩ := List.mem_flatMap.mp h
      rcases htmlChar_cases d with he | ⟨he, -⟩
      · have hentities : HTML_ENTITIES.all (fun entity => entity.all fun e =>
            decide (32 ≤ e.toNat ∧ e.toNat < 127)) = true := by decide
        exact isControl_of_printable (List.all_eq_true.mp hentities _ he) hc
      · rw [he, List.mem_singleton] at hc
        exact hc ▸ visibleText_visible hd
  · exact isControl_of_printable (by decide) h

/-- A punctuation character of the text itself stays, behind its backslash. -/
theorem markdownText_punctuation (before after : Str) {c : Char} (hc : isPunctuation c = true) :
    markdownText (before ++ c :: after) = markdownText before ++ '\\' :: c :: markdownText after := by
  have hrange : 32 ≤ c.toNat ∧ c.toNat < 127 := by
    simp only [isPunctuation, Bool.or_eq_true, Bool.and_eq_true, decide_eq_true_eq] at hc
    omega
  have hvisible : visibleChar c = [c] := by
    have hne : ∀ d : Char, d.toNat < 32 → c ≠ d := by
      intro d hd he
      subst he
      omega
    rw [visibleChar, if_neg (hne _ (by decide)), if_neg (hne _ (by decide)), if_neg (hne _ (by decide)),
      if_neg (by rw [isControl_printable hrange]; decide)]
  simp only [markdownText, visibleText, List.flatMap_append, List.flatMap_cons, hvisible, markdownChar,
    List.cons_append, List.nil_append, if_pos hc]

end

/-! ## Lines -/

/-- The lines of a text, one more than its line boundaries in Unicode; unlike
`splitlines`, the empty text is one empty line. -/
def unicodeLines : Str → List Str
  | [] => [[]]
  | '\r' :: '\n' :: s => [] :: unicodeLines s
  | c :: s =>
    if isLineBreak c then [] :: unicodeLines s
    else
      match unicodeLines s with
      | [] => [[c]]
      | l :: ls => (c :: l) :: ls

theorem unicodeLines_ne_nil (s : Str) : unicodeLines s ≠ [] := by
  unfold unicodeLines
  split
  · simp
  · simp
  · split
    · simp
    · split
      · simp
      · simp

theorem unicodeLines_cons {c : Char} {s : Str} (h : isLineBreak c = false) :
    unicodeLines (c :: s) = match unicodeLines s with
      | [] => [[c]]
      | l :: ls => (c :: l) :: ls := by
  rw [unicodeLines.eq_def]
  split
  · contradiction
  · rename_i heq
    cases heq
    exact absurd h (by decide)
  · rename_i heq
    cases heq
    rw [if_neg (by simp [h])]

theorem unicodeLines_newline (s : Str) : unicodeLines ('\n' :: s) = [] :: unicodeLines s := by
  rw [unicodeLines.eq_def]
  rfl

theorem unicodeLines_append {line : Str} (h : ∀ c ∈ line, isLineBreak c = false) (s : Str) :
    unicodeLines (line ++ s) = match unicodeLines s with
      | [] => [line]
      | l :: ls => (line ++ l) :: ls := by
  induction line with
  | nil =>
    cases hs : unicodeLines s with
    | nil => exact absurd hs (unicodeLines_ne_nil s)
    | cons l ls => simp [hs]
  | cons c line ih =>
    rw [List.cons_append, unicodeLines_cons (h c (by simp)), ih fun d hd => h d (by simp [hd])]
    cases unicodeLines s with
    | nil => rfl
    | cons l ls => rfl

/-- Lines without a boundary are the lines of what they join to. -/
theorem unicodeLines_join {lines : List Str} (hne : lines ≠ [])
    (h : ∀ line ∈ lines, ∀ c ∈ line, isLineBreak c = false) : unicodeLines (join ['\n'] lines) = lines := by
  induction lines with
  | nil => exact absurd rfl hne
  | cons line rest ih =>
    have hline := h line (by simp)
    cases rest with
    | nil =>
      have := unicodeLines_append hline []
      simpa [join, unicodeLines] using this
    | cons next rest =>
      have hrest := ih (by simp) fun l hl => h l (by simp [hl])
      rw [join, List.intercalate_cons_cons, List.append_assoc, unicodeLines_append hline,
        List.singleton_append, unicodeLines_newline]
      simpa [join] using hrest

/-! ## Layout -/

/-- A part of a line: fixed text, or a hole for untrusted text. -/
inductive Piece where
  | fixed (text : Str)
  | prose (value : Str)
  | code (value : Str)

/-- The part without the text of its hole. -/
def Piece.erase : Piece → Piece
  | fixed text => fixed text
  | prose _ => prose []
  | code _ => code []

abbrev Line := List Piece

def Line.erase (line : Line) : Line := line.map Piece.erase

def sectionLayout (heading : Str) (lines : List Line) : List Line :=
  if lines = [] then [] else [] :: [.fixed heading] :: lines

def messageLayout (item : EvaluationMessage) : Line :=
  [.fixed ("- " : Str), .code item.code, .fixed (": " : Str), .prose item.message]

def evidenceLayout (evidence : PathEvidence Str) : Line :=
  [.fixed ("  - " : Str), .code evidence.path, .fixed (": " : Str), .prose evidence.explanation]

def ownersLayout (owners : List Str) : Line :=
  [Piece.fixed (", " : Str)].intercalate (owners.map fun owner => [.code owner])

def requirementLayout (requirement : OwnerSetResult Str) : List Line :=
  ([.fixed ("- " : Str), .fixed requirement.marker, .fixed (" " : Str)] ++
      ownersLayout requirement.owners ++ [.fixed (": " : Str), .prose requirement.explanation]) ::
    requirement.path_evidence.map evidenceLayout

def pathLayout (path : Str) : Line := [.fixed ("- " : Str), .code path]

def EvaluationResult.layout (result : EvaluationResult Str) : List Line :=
  [[.prose result.summary]] ++
    sectionLayout ("### Errors" : Str) (result.errors.map messageLayout) ++
    sectionLayout ("### Warnings" : Str) (result.warnings.map messageLayout) ++
    sectionLayout ("### CODEOWNER requirements" : Str) (result.requirements.flatMap requirementLayout) ++
    sectionLayout ("### Unowned paths" : Str) (result.unowned_paths.map pathLayout)

section
variable [UnicodeTables]

def Piece.render : Piece → Str
  | fixed text => text
  | prose value => markdownText value
  | code value => markdownCode value

def Line.render (line : Line) : Str := line.flatMap Piece.render

@[simp] theorem Line.render_nil : Line.render [] = [] := rfl

@[simp] theorem Line.render_cons (piece : Piece) (line : Line) :
    Line.render (piece :: line) = piece.render ++ Line.render line := rfl

@[simp] theorem Line.render_append (line line' : Line) :
    Line.render (line ++ line') = Line.render line ++ Line.render line' := List.flatMap_append

theorem ownersLayout_render (owners : List Str) :
    Line.render (ownersLayout owners) = join (", " : Str) (owners.map markdownCode) := by
  induction owners with
  | nil => rfl
  | cons owner owners ih =>
    cases owners with
    | nil => simp [ownersLayout, join, Piece.render]
    | cons next owners =>
      simp only [ownersLayout, join, List.map_cons, List.intercalate_cons_cons, Line.render_append] at ih ⊢
      rw [ih]
      simp [Piece.render]

theorem sectionLayout_render (heading : Str) (lines : List Line) :
    (sectionLayout heading lines).map Line.render = checkSection heading (lines.map Line.render) := by
  unfold sectionLayout checkSection
  by_cases h : lines = []
  · simp [h]
  · simp [h, Piece.render]

theorem messageLayout_render (item : EvaluationMessage) :
    Line.render (messageLayout item) = messageLine item := by
  simp [messageLayout, messageLine, Piece.render]

theorem evidenceLayout_render (evidence : PathEvidence Str) :
    Line.render (evidenceLayout evidence) = evidenceLine evidence := by
  simp [evidenceLayout, evidenceLine, Piece.render]

theorem requirementLayout_render (requirement : OwnerSetResult Str) :
    (requirementLayout requirement).map Line.render = requirementLines requirement := by
  simp [requirementLayout, requirementLines, evidenceLayout_render, ownersLayout_render, Piece.render]

/-- The layout with its holes filled in is the body. -/
theorem layout_render (result : EvaluationResult Str) :
    result.layout.map Line.render = result.checkLines := by
  have hrequirements : (result.requirements.flatMap requirementLayout).map Line.render =
      result.requirements.flatMap requirementLines := by
    rw [List.map_flatMap]
    exact List.flatMap_congr fun requirement _ => requirementLayout_render requirement
  have hmessages : ∀ l : List EvaluationMessage, (l.map messageLayout).map Line.render = l.map messageLine := by
    intro l
    rw [List.map_map]
    exact List.map_congr_left fun item _ => messageLayout_render item
  have hpaths : (result.unowned_paths.map pathLayout).map Line.render =
      result.unowned_paths.map fun path => ("- " : Str) ++ markdownCode path := by
    rw [List.map_map]
    apply List.map_congr_left
    intro path _
    simp [pathLayout, Piece.render]
  simp only [EvaluationResult.layout, EvaluationResult.checkLines, List.map_append, sectionLayout_render,
    hrequirements, hmessages, hpaths]
  simp [Piece.render]

end

/-! ## Shape -/

/-- The same owners and evidence in number, and the same marker. -/
structure SameRequirement (requirement requirement' : OwnerSetResult Str) : Prop where
  owners : requirement.owners.length = requirement'.owners.length
  satisfied : requirement.satisfied = requirement'.satisfied
  path_evidence : requirement.path_evidence.length = requirement'.path_evidence.length

structure SameShape (result result' : EvaluationResult Str) : Prop where
  errors : result.errors.length = result'.errors.length
  warnings : result.warnings.length = result'.warnings.length
  requirements : List.Forall₂ SameRequirement result.requirements result'.requirements
  unowned_paths : result.unowned_paths.length = result'.unowned_paths.length

/-- Lines whose erasure is always the same only count. -/
theorem map_erase_replicate {α} {layout : α → Line} {erased : Line} (h : ∀ a, Line.erase (layout a) = erased)
    (l : List α) : (l.map layout).map Line.erase = List.replicate l.length erased := by
  rw [List.map_map, ← List.map_const']
  exact List.map_congr_left fun a _ => h a

theorem sectionLayout_erase {heading : Str} {lines lines' : List Line}
    (h : lines.map Line.erase = lines'.map Line.erase) :
    (sectionLayout heading lines).map Line.erase = (sectionLayout heading lines').map Line.erase := by
  have hempty : lines = [] ↔ lines' = [] := by
    rw [← List.map_eq_nil_iff (f := Line.erase), h, List.map_eq_nil_iff]
  unfold sectionLayout
  by_cases he : lines = []
  · rw [if_pos he, if_pos (hempty.mp he)]
  · rw [if_neg he, if_neg fun he' => he (hempty.mpr he')]
    simp [h]

theorem ownersLayout_erase (owners : List Str) : Line.erase (ownersLayout owners) =
    [Piece.fixed (", " : Str)].intercalate (List.replicate owners.length [.code []]) := by
  induction owners with
  | nil => rfl
  | cons owner owners ih =>
    cases owners with
    | nil => rfl
    | cons next owners =>
      simp only [ownersLayout, List.map_cons, List.intercalate_cons_cons, Line.erase, List.map_append,
        List.length_cons, List.replicate_succ] at ih ⊢
      rw [ih]
      rfl

theorem requirementLayout_erase {requirement requirement' : OwnerSetResult Str}
    (h : SameRequirement requirement requirement') :
    (requirementLayout requirement).map Line.erase = (requirementLayout requirement').map Line.erase := by
  have hevidence : ∀ evidence, Line.erase (evidenceLayout evidence) =
      [.fixed ("  - " : Str), .code [], .fixed (": " : Str), .prose []] := fun _ => rfl
  have howners : Line.erase (ownersLayout requirement.owners) = Line.erase (ownersLayout requirement'.owners) := by
    rw [ownersLayout_erase, ownersLayout_erase, h.owners]
  have hmarker : requirement.marker = requirement'.marker := by
    rw [OwnerSetResult.marker, OwnerSetResult.marker, h.satisfied]
  simp only [requirementLayout, List.map_cons, map_erase_replicate hevidence, h.path_evidence]
  simp only [Line.erase, List.map_append, List.map_cons, List.map_nil, Piece.erase] at howners ⊢
  rw [howners, hmarker]

theorem requirementsLayout_erase {requirements requirements' : List (OwnerSetResult Str)}
    (h : List.Forall₂ SameRequirement requirements requirements') :
    (requirements.flatMap requirementLayout).map Line.erase =
      (requirements'.flatMap requirementLayout).map Line.erase := by
  induction h with
  | nil => rfl
  | cons hr _ ih =>
    rw [List.flatMap_cons, List.flatMap_cons, List.map_append, List.map_append, requirementLayout_erase hr, ih]

/-- Results of one shape share their layout. -/
theorem SameShape.layout_erase {result result' : EvaluationResult Str} (h : SameShape result result') :
    result.layout.map Line.erase = result'.layout.map Line.erase := by
  have hmessage : ∀ item, Line.erase (messageLayout item) =
      [.fixed ("- " : Str), .code [], .fixed (": " : Str), .prose []] := fun _ => rfl
  have hpath : ∀ path, Line.erase (pathLayout path) = [.fixed ("- " : Str), .code []] := fun _ => rfl
  have herrors : (result.errors.map messageLayout).map Line.erase =
      (result'.errors.map messageLayout).map Line.erase := by
    rw [map_erase_replicate hmessage, map_erase_replicate hmessage, h.errors]
  have hwarnings : (result.warnings.map messageLayout).map Line.erase =
      (result'.warnings.map messageLayout).map Line.erase := by
    rw [map_erase_replicate hmessage, map_erase_replicate hmessage, h.warnings]
  have hrequirements := requirementsLayout_erase h.requirements
  have hpaths : (result.unowned_paths.map pathLayout).map Line.erase =
      (result'.unowned_paths.map pathLayout).map Line.erase := by
    rw [map_erase_replicate hpath, map_erase_replicate hpath, h.unowned_paths]
  simp only [EvaluationResult.layout, List.map_append, sectionLayout_erase herrors,
    sectionLayout_erase hwarnings, sectionLayout_erase hrequirements, sectionLayout_erase hpaths]
  rfl

section
variable [UnicodeTables]

/-- What untrusted text leaves of itself in its hole. -/
def Piece.Safe : Piece → Prop
  | fixed _ => True
  | prose value => IsEscaped (markdownText value) ∧
      ∀ before c after, value = before ++ c :: after → isPunctuation c = true →
        IsEscaped (markdownText before) ∧
        markdownText value = markdownText before ++ '\\' :: c :: markdownText after
  | code value => ∃ inner, markdownCode value = ("<code>" : Str) ++ inner ++ ("</code>" : Str) ∧
      IsHtmlText inner

theorem Piece.safe (piece : Piece) : piece.Safe := by
  cases piece with
  | fixed text => trivial
  | prose value =>
    refine ⟨isEscaped_markdown _, ?_⟩
    intro before c after hvalue hc
    subst hvalue
    exact ⟨isEscaped_markdown _, markdownText_punctuation before after hc⟩
  | code value => exact ⟨_, rfl, isHtmlText_htmlEscape _⟩

end

/-! ## Line boundaries -/

/-- The fixed text stays on its line. -/
def Piece.isUnbroken : Piece → Bool
  | fixed text => text.all fun c => !isLineBreak c
  | prose _ => true
  | code _ => true

def Line.isUnbroken (line : Line) : Bool := line.all Piece.isUnbroken

theorem ownersLayout_isUnbroken (owners : List Str) : Line.isUnbroken (ownersLayout owners) = true := by
  induction owners with
  | nil => rfl
  | cons owner owners ih =>
    cases owners with
    | nil => rfl
    | cons next owners =>
      simp only [ownersLayout, Line.isUnbroken, List.map_cons, List.intercalate_cons_cons, List.all_append]
        at ih ⊢
      rw [ih]
      rfl

theorem sectionLayout_isUnbroken {heading : Str} {lines : List Line}
    (hh : (Piece.fixed heading).isUnbroken = true) (hl : lines.all Line.isUnbroken = true) :
    (sectionLayout heading lines).all Line.isUnbroken = true := by
  unfold sectionLayout
  by_cases he : lines = []
  · simp [he]
  · simp [he, hl, hh, Line.isUnbroken]

theorem requirementLayout_isUnbroken (requirement : OwnerSetResult Str) :
    (requirementLayout requirement).all Line.isUnbroken = true := by
  have howners := ownersLayout_isUnbroken requirement.owners
  have hmarker : (Piece.fixed requirement.marker).isUnbroken = true := by
    unfold OwnerSetResult.marker
    cases requirement.satisfied <;> rfl
  have hevidence : (requirement.path_evidence.map evidenceLayout).all Line.isUnbroken = true := by
    rw [List.all_map, List.all_eq_true]
    intro evidence _
    rfl
  simp only [requirementLayout, List.all_cons, hevidence, Line.isUnbroken, List.all_append, hmarker] at howners ⊢
  rw [howners]
  rfl

theorem layout_isUnbroken (result : EvaluationResult Str) : result.layout.all Line.isUnbroken = true := by
  have hmessages : ∀ l : List EvaluationMessage, (l.map messageLayout).all Line.isUnbroken = true := by
    intro l
    rw [List.all_map, List.all_eq_true]
    intro item _
    rfl
  have hrequirements : (result.requirements.flatMap requirementLayout).all Line.isUnbroken = true := by
    rw [List.all_flatMap, List.all_eq_true]
    intro requirement _
    exact requirementLayout_isUnbroken requirement
  have hpaths : (result.unowned_paths.map pathLayout).all Line.isUnbroken = true := by
    rw [List.all_map, List.all_eq_true]
    intro path _
    rfl
  simp only [EvaluationResult.layout, List.all_append, Bool.and_eq_true]
  exact ⟨⟨⟨⟨rfl, sectionLayout_isUnbroken rfl (hmessages _)⟩, sectionLayout_isUnbroken rfl (hmessages _)⟩,
    sectionLayout_isUnbroken rfl hrequirements⟩, sectionLayout_isUnbroken rfl hpaths⟩

section
variable [UnicodeTables]

theorem Piece.render_unbroken {piece : Piece} (h : piece.isUnbroken = true) {c : Char} (hc : c ∈ piece.render) :
    isLineBreak c = false := by
  have hvisible : isControl c = false → isLineBreak c = false := by
    intro hv
    by_contra hb
    rw [isLineBreak_isControl (by simpa using hb)] at hv
    cases hv
  cases piece with
  | fixed text => simpa using List.all_eq_true.mp h c hc
  | prose value => exact hvisible (markdownText_visible hc)
  | code value => exact hvisible (markdownCode_visible hc)

theorem checkLines_lineBreak {result : EvaluationResult Str} {line : Str} (hl : line ∈ result.checkLines)
    {c : Char} (hc : c ∈ line) : isLineBreak c = false := by
  rw [← layout_render] at hl
  obtain ⟨pieces, hp, rfl⟩ := List.mem_map.mp hl
  obtain ⟨piece, hpiece, hc⟩ := List.mem_flatMap.mp hc
  have hpieces := List.all_eq_true.mp (layout_isUnbroken result) pieces hp
  exact Piece.render_unbroken (List.all_eq_true.mp hpieces piece hpiece) hc

theorem checkOutput_lines (result : EvaluationResult Str) :
    unicodeLines result.checkOutput = result.checkLines := by
  apply unicodeLines_join
  · simp [EvaluationResult.checkLines]
  · intro line hl c hc
    exact checkLines_lineBreak hl hc

/-- The only boundaries in a body are those between its lines. -/
theorem checkOutput_lineBreak {result : EvaluationResult Str} {c : Char} (hc : c ∈ result.checkOutput)
    (hb : isLineBreak c = true) : c = '\n' := by
  rcases mem_join hc with hc | ⟨line, hl, hc⟩
  · exact List.mem_singleton.mp hc
  · rw [checkLines_lineBreak hl hc] at hb
    cases hb

/-- Two results of one shape give bodies whose lines agree in all but what
stands in their holes, and no hole shows a raw delimiter. -/
theorem check_body_layout {result result' : EvaluationResult Str} (h : SameShape result result') :
    (unicodeLines result.checkOutput).length = (unicodeLines result'.checkOutput).length ∧
    (∀ c ∈ result.checkOutput, isLineBreak c = true → c = '\n') ∧
    unicodeLines result.checkOutput = result.layout.map Line.render ∧
    unicodeLines result'.checkOutput = result'.layout.map Line.render ∧
    result.layout.map Line.erase = result'.layout.map Line.erase ∧
    ∀ line ∈ result.layout, ∀ piece ∈ line, piece.Safe := by
  have hlines := checkOutput_lines result
  have hlines' := checkOutput_lines result'
  rw [← layout_render] at hlines hlines'
  have herase := h.layout_erase
  refine ⟨?_, ?_, hlines, hlines', herase, ?_⟩
  · have hlength := congrArg List.length herase
    rw [List.length_map, List.length_map] at hlength
    rw [hlines, hlines', List.length_map, List.length_map, hlength]
  · intro c hc hb
    exact checkOutput_lineBreak hc hb
  · intro line _ piece _
    exact piece.safe

end

def plainBody : EvaluationResult Str where
  conclusion := .FAILURE
  summary := ("Approval is missing" : Str)
  requirements := [⟨[("@docs" : Str)], [], false, [], ("no approval" : Str), []⟩]
  errors := [⟨("policy" : Str), ("unreadable" : Str)⟩]
  warnings := []
  unowned_paths := []

/-- Evidence that tries to begin a heading and to end its code element. -/
def forgedBody : EvaluationResult Str where
  conclusion := .FAILURE
  summary := ("real\n### Forged" : Str)
  requirements := [⟨[("@x</code><h1>" : Str)], [], false, [], ("real\x0c- forged" : Str), []⟩]
  errors := [⟨("bad</code>" : Str), ("real\r> forged" : Str)⟩]
  warnings := []
  unowned_paths := []

theorem plainBody_forgedBody : SameShape plainBody forgedBody where
  errors := rfl
  warnings := rfl
  requirements := .cons ⟨rfl, rfl, rfl⟩ .nil
  unowned_paths := rfl

theorem forgedBody_layout : (unicodeLines (@EvaluationResult.checkOutput asciiTables plainBody)).length =
    (unicodeLines (@EvaluationResult.checkOutput asciiTables forgedBody)).length :=
  (@check_body_layout asciiTables plainBody forgedBody plainBody_forgedBody).1

end ExtraCodeowners
