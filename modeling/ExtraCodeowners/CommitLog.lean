import ExtraCodeowners.ReleasePlan

/-!
# The log and its commits

`read_commits` reads the log it asked for, with the record separator in front of
a commit and the unit separator behind its subject. A message may hold both
characters, so not every log reads back as the commits it was made from.
-/

namespace ExtraCodeowners.Release

/-! ## Blank text -/

def Blank (s : Str) : Prop := ∀ c ∈ s, isSpace c = true

theorem blank_nil : Blank [] := fun _ h => nomatch h

theorem strip_blank {lead trail : Str} (hl : Blank lead) (ht : Blank trail) (s : Str) :
    strip (lead ++ (s ++ trail)) = strip s := by
  obtain ⟨before, after, hs, hb, ha⟩ := strip_decompose s
  have he : s ++ trail = before ++ (strip s ++ (after ++ trail)) := by
    conv_lhs => rw [hs]
    simp
  rw [strip_lead hl, he, strip_lead hb, strip_trail]
  rw [List.forall_mem_append]
  exact ⟨ha, ht⟩

theorem strip_eq_nil {s : Str} : strip s = [] ↔ Blank s := by
  constructor
  · intro h c hc
    by_contra hn
    have hm := mem_strip (by simpa using hn) hc
    rw [h] at hm
    cases hm
  · intro h
    have hs := strip_blank h h []
    rw [List.nil_append, strip_lead h] at hs
    have he := strip_lead h []
    rw [List.append_nil] at he
    rw [he]
    rfl

/-- The characters that stripping keeps whatever stands around them. -/
def solid (s : Str) : Str := s.filter fun c => !isSpace c

theorem solid_append (s t : Str) : solid (s ++ t) = solid s ++ solid t := List.filter_append ..

theorem solid_eq_nil {s : Str} : solid s = [] ↔ Blank s := by
  simp [solid, Blank]

theorem solid_strip (s : Str) : solid (strip s) = solid s := by
  obtain ⟨lead, trail, hs, hl, ht⟩ := strip_decompose s
  conv_rhs => rw [hs]
  rw [solid_append, solid_append, solid_eq_nil.mpr hl, solid_eq_nil.mpr ht, List.nil_append,
    List.append_nil]

/-- What surrounds a text is lost in stripping exactly when it is blank. -/
theorem strip_surround {lead s trail : Str} :
    strip (lead ++ (s ++ trail)) = strip s ↔ Blank lead ∧ Blank trail := by
  constructor
  · intro h
    have hsolid := congrArg solid h
    rw [solid_strip, solid_strip, solid_append, solid_append] at hsolid
    have hlength := congrArg List.length hsolid
    simp only [List.length_append] at hlength
    exact ⟨solid_eq_nil.mp (List.length_eq_zero_iff.mp (by omega)),
      solid_eq_nil.mp (List.length_eq_zero_iff.mp (by omega))⟩
  · intro ⟨hl, ht⟩
    exact strip_blank hl ht s

/-! ## Translated line ends -/

theorem universalNewlines_pair (s : Str) :
    universalNewlines ('\r' :: '\n' :: s) = '\n' :: universalNewlines s := rfl

theorem universalNewlines_cons {c : Char} {s : Str} (h : NotPair c s) :
    universalNewlines (c :: s) = (if c = '\r' then '\n' else c) :: universalNewlines s := by
  rw [universalNewlines.eq_def]
  split
  · rename_i he
    cases he
  · rename_i t he
    cases he
    exact absurd ⟨rfl, rfl⟩ h
  · rename_i he
    cases he
    rfl

/-- A character that no line end is made of. -/
def Inline (c : Char) : Prop := c ≠ '\r' ∧ c ≠ '\n'

theorem notPair_of_inline {c : Char} (h : Inline c) (s : Str) : NotPair c s := fun hp => h.1 hp.1

theorem universalNewlines_inline {c : Char} (h : Inline c) (s : Str) :
    universalNewlines (c :: s) = c :: universalNewlines s := by
  rw [universalNewlines_cons (notPair_of_inline h s), if_neg h.1]

/-- The texts can be translated apart when no line end lies across the cut. -/
theorem universalNewlines_append {s t : Str} (h : t.head? ≠ some '\n' ∨ s.getLast? ≠ some '\r') :
    universalNewlines (s ++ t) = universalNewlines s ++ universalNewlines t := by
  induction s using text_induction with
  | nil => rfl
  | pair s ih =>
    rw [List.cons_append, List.cons_append, universalNewlines_pair, universalNewlines_pair, ih,
      List.cons_append]
    rcases h with h | h
    · exact .inl h
    · right
      intro hs
      cases s with
      | nil => cases hs
      | cons c s => exact h (by simpa [List.getLast?_cons_cons] using hs)
  | char c s hp ih =>
    have hp' : NotPair c (s ++ t) := by
      intro ⟨hc, hn⟩
      cases s with
      | nil =>
        rcases h with h | h
        · exact h hn
        · exact h (by simp [hc])
      | cons d s => exact hp ⟨hc, hn⟩
    rw [List.cons_append, universalNewlines_cons hp', universalNewlines_cons hp, ih, List.cons_append]
    rcases h with h | h
    · exact .inl h
    · right
      intro hs
      cases s with
      | nil => cases hs
      | cons d s => exact h (by simpa [List.getLast?_cons_cons] using hs)

theorem not_mem_universalNewlines (s : Str) : '\r' ∉ universalNewlines s := by
  induction s using text_induction with
  | nil => simp [universalNewlines]
  | pair s ih =>
    rw [universalNewlines_pair]
    simpa using ih
  | char c s hp ih =>
    rw [universalNewlines_cons hp]
    by_cases hc : c = '\r'
    · rw [if_pos hc]
      simpa using ih
    · rw [if_neg hc]
      simpa [Ne.symm hc] using ih

theorem universalNewlines_eq_self {s : Str} : universalNewlines s = s ↔ '\r' ∉ s := by
  constructor
  · intro h
    rw [← h]
    exact not_mem_universalNewlines s
  · intro h
    induction s using text_induction with
    | nil => rfl
    | pair s ih => simp at h
    | char c s hp ih =>
      rw [List.mem_cons, not_or] at h
      rw [universalNewlines_cons hp, if_neg (Ne.symm h.1), ih h.2]

theorem mem_universalNewlines {c : Char} (hc : Inline c) {s : Str} :
    c ∈ universalNewlines s ↔ c ∈ s := by
  induction s using text_induction with
  | nil => rfl
  | pair s ih =>
    rw [universalNewlines_pair]
    simp [ih, hc.1, hc.2]
  | char d s hp ih =>
    rw [universalNewlines_cons hp, List.mem_cons, List.mem_cons, ih]
    by_cases hd : d = '\r'
    · rw [if_pos hd, hd]
      simp [hc.1, hc.2]
    · rw [if_neg hd]

theorem blank_universalNewlines {s : Str} : Blank (universalNewlines s) ↔ Blank s := by
  have hr : isSpace '\r' = true := rfl
  have hn : isSpace '\n' = true := rfl
  induction s using text_induction with
  | nil => rfl
  | pair s ih =>
    rw [universalNewlines_pair]
    unfold Blank at ih ⊢
    simp [ih, hr, hn]
  | char d s hp ih =>
    rw [universalNewlines_cons hp]
    unfold Blank at ih ⊢
    by_cases hd : d = '\r'
    · rw [if_pos hd, hd]
      simp [ih, hr, hn]
    · rw [if_neg hd]
      simp [ih]

/-- A cut at an inline character is one before and after the translation. -/
theorem universalNewlines_eq_append {c : Char} (hc : Inline c) {s u v : Str} :
    universalNewlines s = u ++ c :: v ↔
      ∃ before after, s = before ++ c :: after ∧ universalNewlines before = u ∧
        universalNewlines after = v := by
  constructor
  · intro h
    induction s using text_induction generalizing u with
    | nil => simp [universalNewlines] at h
    | pair s ih =>
      rw [universalNewlines_pair] at h
      cases u with
      | nil =>
        rw [List.nil_append, List.cons.injEq] at h
        exact absurd h.1.symm hc.2
      | cons d u =>
        rw [List.cons_append, List.cons.injEq] at h
        obtain ⟨before, after, rfl, hb, ha⟩ := ih h.2
        exact ⟨'\r' :: '\n' :: before, after, rfl, by rw [universalNewlines_pair, hb, h.1], ha⟩
    | char d s hp ih =>
      rw [universalNewlines_cons hp] at h
      cases u with
      | nil =>
        rw [List.nil_append, List.cons.injEq] at h
        have hd : d = c := by
          by_cases hd : d = '\r'
          · rw [if_pos hd] at h
            exact absurd h.1.symm hc.2
          · rw [if_neg hd] at h
            exact h.1
        exact ⟨[], s, by rw [hd]; rfl, rfl, h.2⟩
      | cons e u =>
        rw [List.cons_append, List.cons.injEq] at h
        obtain ⟨before, after, rfl, hb, ha⟩ := ih h.2
        have hp' : NotPair d before := by
          intro ⟨h₁, h₂⟩
          refine hp ⟨h₁, ?_⟩
          cases before with
          | nil => cases h₂
          | cons f before => exact h₂
        exact ⟨d :: before, after, rfl, by rw [universalNewlines_cons hp', hb, h.1], ha⟩
  · intro ⟨before, after, hs, hb, ha⟩
    rw [hs, universalNewlines_append (.inl ?_), universalNewlines_inline hc, hb, ha]
    simpa using hc.2

theorem strip_universalNewlines {s : Str} (h : '\r' ∉ strip s) :
    strip (universalNewlines s) = strip s := by
  obtain ⟨lead, trail, hs, hl, ht⟩ := strip_decompose s
  have hl' : Blank (universalNewlines lead) := blank_universalNewlines.mpr hl
  have ht' : Blank (universalNewlines trail) := blank_universalNewlines.mpr ht
  by_cases hnil : strip s = []
  · rw [hnil, strip_eq_nil, blank_universalNewlines]
    exact strip_eq_nil.mp hnil
  · have hfirst : (strip s ++ trail).head? ≠ some '\n' := by
      rw [List.head?_append_of_ne_nil _ hnil]
      exact fun h => absurd (strip_head h) (by decide)
    have hlast : (strip s).getLast? ≠ some '\r' := fun h => absurd (strip_last h) (by decide)
    conv_lhs => rw [hs]
    rw [List.append_assoc, universalNewlines_append (.inl hfirst),
      universalNewlines_append (.inr hlast), strip_blank hl' ht', universalNewlines_eq_self.mpr h,
      strip_strip]

/-- Between its surroundings a translated text leaves the stripped one exactly
when these are blank and no line end of another kind stands inside. -/
theorem strip_translated {s lead kept trail : Str} (h : universalNewlines s = lead ++ (kept ++ trail)) :
    strip kept = strip s ↔ Blank lead ∧ Blank trail ∧ '\r' ∉ strip s := by
  have hkept : '\r' ∉ kept := by
    intro hk
    refine not_mem_universalNewlines s ?_
    rw [h]
    exact List.mem_append_right _ (List.mem_append_left _ hk)
  constructor
  · intro he
    have hr : '\r' ∉ strip s := by
      rw [← he]
      exact fun hk => hkept (mem_of_strip hk)
    have hsurround : strip (lead ++ (kept ++ trail)) = strip kept := by
      rw [← h, strip_universalNewlines hr, he]
    obtain ⟨hl, ht⟩ := strip_surround.mp hsurround
    exact ⟨hl, ht, hr⟩
  · intro ⟨hl, ht, hr⟩
    rw [← strip_blank hl ht kept, ← h, strip_universalNewlines hr]

/-! ## Records -/

theorem parseLog_append (before after : Str) :
    parseLog (before ++ '\x1e' :: after) = parseLog before ++ parseLog after := by
  rw [parseLog, List.splitOn_append_cons_self, List.filterMap_append]
  rfl

theorem parseLog_record {s : Str} (h : '\x1e' ∉ s) : parseLog s = (readRecord s).toList := by
  rw [parseLog, List.splitOn_eq_singleton h]
  cases hs : readRecord s with
  | none => simp [hs]
  | some commit => simp [hs]

theorem parseLog_separated (s : Str) : parseLog ('\x1e' :: s) = parseLog s := by
  have h := parseLog_append [] s
  rwa [List.nil_append] at h

theorem parseLog_eq_nil {s : Str} : parseLog s = [] ↔ '\x1f' ∉ s := by
  have hrecord : ∀ t : Str, '\x1e' ∉ t → (parseLog t = [] ↔ '\x1f' ∉ t) := by
    intro t ht
    rw [parseLog_record ht, readRecord]
    by_cases hu : '\x1f' ∈ t
    · simp [hu]
    · simp [hu]
  induction hn : s.length using Nat.strongRecOn generalizing s with
  | ind n ih =>
    by_cases hs : '\x1e' ∈ s
    · obtain ⟨before, after, rfl, hb⟩ := List.eq_append_cons_of_mem hs
      have hafter : parseLog after = [] ↔ '\x1f' ∉ after :=
        ih after.length (by simp at hn; omega) rfl
      rw [parseLog_append, List.append_eq_nil_iff, hrecord before hb, hafter, List.mem_append,
        List.mem_cons, not_or, not_or]
      simp
    · exact hrecord s hs

/-- A message as it stands behind its record separator. -/
def framed (message : Str × Str) : Str := message.1 ++ '\x1f' :: (message.2 ++ ['\n'])

theorem inline_record : Inline '\x1e' := ⟨by decide, by decide⟩

theorem inline_unit : Inline '\x1f' := ⟨by decide, by decide⟩

/-- The log is read commit by commit. -/
theorem parseLog_log (log : List (Str × Str)) :
    parseLog (universalNewlines (log.flatMap fun message => '\x1e' :: framed message)) =
      log.flatMap fun message => parseLog (universalNewlines (framed message)) := by
  have hparse : ∀ (s : Str) (log : List (Str × Str)),
      parseLog (s ++ universalNewlines (log.flatMap fun message => '\x1e' :: framed message)) =
        parseLog s ++ parseLog (universalNewlines (log.flatMap fun message => '\x1e' :: framed message)) := by
    intro s log
    cases log with
    | nil =>
      change parseLog (s ++ []) = parseLog s ++ []
      rw [List.append_nil, List.append_nil]
    | cons message log =>
      rw [List.flatMap_cons, List.cons_append, universalNewlines_inline inline_record, parseLog_append,
        parseLog_separated]
  induction log with
  | nil => rfl
  | cons message log ih =>
    have hhead : (log.flatMap fun message => '\x1e' :: framed message).head? ≠ some '\n' := by
      cases log with
      | nil => simp
      | cons message log =>
        rw [List.flatMap_cons, List.cons_append, List.head?_cons]
        decide
    rw [List.flatMap_cons, List.flatMap_cons, universalNewlines_append (.inl hhead), hparse,
      universalNewlines_inline inline_record, parseLog_separated, ih]

/-! ## One message -/

/-- Text that is in no commit and would be trimmed. -/
def Droppable (s : Str) : Prop := '\x1f' ∉ s ∧ Blank s

/-- The separators in a message stay out of the way of the framing: what they
cut off is trimmed anyway. -/
structure Framable (message : Str × Str) : Prop where
  subject_record : ∀ u v, message.1 = u ++ '\x1e' :: v → Droppable u
  subject_unit : ∀ u v, message.1 = u ++ '\x1f' :: v → Blank v
  body_record : ∀ u v, message.2 = u ++ '\x1e' :: v → Droppable v
  line_ends : '\r' ∉ strip message.1 ∧ '\r' ∉ strip message.2

def trimmed (message : Str × Str) : Commit := ⟨strip message.1, strip message.2⟩

theorem blank_append {s t : Str} : Blank (s ++ t) ↔ Blank s ∧ Blank t := List.forall_mem_append

theorem droppable_append {s t : Str} : Droppable (s ++ t) ↔ Droppable s ∧ Droppable t := by
  simp only [Droppable, blank_append, List.mem_append, not_or]
  constructor
  · intro ⟨⟨h₁, h₂⟩, h₃, h₄⟩
    exact ⟨⟨h₁, h₃⟩, h₂, h₄⟩
  · intro ⟨⟨h₁, h₃⟩, h₂, h₄⟩
    exact ⟨⟨h₁, h₂⟩, h₃, h₄⟩

theorem droppable_record : Droppable ['\x1e'] := ⟨by decide, forall_mem_of_all (by decide)⟩

theorem droppable_feed : Droppable ['\n'] := ⟨by decide, forall_mem_of_all (by decide)⟩

theorem droppable_universalNewlines {s : Str} : Droppable (universalNewlines s) ↔ Droppable s := by
  rw [Droppable, Droppable, mem_universalNewlines inline_unit, blank_universalNewlines]

/-- What holds of the cuts of a text holds of the cuts of its translation. -/
theorem forall_cut_universalNewlines {c : Char} (hc : Inline c) {p : Str → Str → Prop}
    (hp : ∀ u v, p (universalNewlines u) (universalNewlines v) ↔ p u v) {s : Str} :
    (∀ u v, universalNewlines s = u ++ c :: v → p u v) ↔ ∀ u v, s = u ++ c :: v → p u v := by
  constructor
  · intro h u v hs
    exact (hp u v).mp (h _ _ ((universalNewlines_eq_append hc).mpr ⟨u, v, hs, rfl, rfl⟩))
  · intro h u v hs
    obtain ⟨before, after, he, rfl, rfl⟩ := (universalNewlines_eq_append hc).mp hs
    exact (hp before after).mpr (h before after he)

/-- The pieces around the last separator of a kind in a text. -/
structure LastCut (c : Char) (s lead rest : Str) : Prop where
  eq : s = lead ++ rest
  not_mem : c ∉ rest
  ends : lead = [] ∨ ∃ u, lead = u ++ [c]

/-- The pieces around the first separator of a kind in a text. -/
structure FirstCut (c : Char) (s kept rest : Str) : Prop where
  eq : s = kept ++ rest
  not_mem : c ∉ kept
  begins : rest = [] ∨ ∃ u, rest = c :: u

theorem exists_lastCut (c : Char) (s : Str) : ∃ lead rest, LastCut c s lead rest := by
  by_cases h : c ∈ s
  · obtain ⟨v, u, hr, hv⟩ := List.eq_append_cons_of_mem (List.mem_reverse.mpr h)
    refine ⟨u.reverse ++ [c], v.reverse, ?_, by simpa using hv, .inr ⟨u.reverse, rfl⟩⟩
    simpa using congrArg List.reverse hr
  · exact ⟨[], s, rfl, h, .inl rfl⟩

theorem exists_firstCut (c : Char) (s : Str) : ∃ kept rest, FirstCut c s kept rest := by
  by_cases h : c ∈ s
  · obtain ⟨kept, u, hs, hk⟩ := List.eq_append_cons_of_mem h
    exact ⟨kept, c :: u, hs, hk, .inr ⟨u, rfl⟩⟩
  · exact ⟨s, [], by simp, h, .inl rfl⟩

theorem LastCut.forall {c : Char} {s lead rest : Str} (h : LastCut c s lead rest) {p : Str → Prop}
    (hp : ∀ u v, p (u ++ v) ↔ p u ∧ p v) (hc : p [c]) (hnil : p []) :
    (∀ u v, s = u ++ c :: v → p u) ↔ p lead := by
  constructor
  · intro hs
    rcases h.ends with hl | ⟨u, hl⟩
    · rw [hl]
      exact hnil
    · rw [hl, hp]
      exact ⟨hs u rest (by rw [h.eq, hl]; simp), hc⟩
  · intro hl u v hs
    rw [h.eq] at hs
    rcases List.append_eq_append_iff.mp hs with ⟨w, hw, hr⟩ | ⟨w, hw, hr⟩
    · exact absurd (hr ▸ List.mem_append_right w List.mem_cons_self) h.not_mem
    · rw [hw, hp] at hl
      exact hl.1

theorem FirstCut.forall {c : Char} {s kept rest : Str} (h : FirstCut c s kept rest) {p : Str → Prop}
    (hp : ∀ u v, p (u ++ v) ↔ p u ∧ p v) (hc : p [c]) (hnil : p []) :
    (∀ u v, s = u ++ c :: v → p v) ↔ p rest := by
  constructor
  · intro hs
    rcases h.begins with hr | ⟨v, hr⟩
    · rw [hr]
      exact hnil
    · rw [hr, ← List.singleton_append, hp]
      exact ⟨hc, hs kept v (by rw [h.eq, hr])⟩
  · intro hr u v hs
    rw [h.eq, ← List.singleton_append, ← List.append_assoc] at hs
    rcases List.append_eq_append_iff.mp hs with ⟨w, hw, hv⟩ | ⟨w, hw, hv⟩
    · rw [hv, hp] at hr
      exact hr.2
    · exact absurd (hw ▸ List.mem_append_left w (List.mem_append_right u List.mem_cons_self)) h.not_mem

theorem LastCut.parse {s lead rest : Str} (h : LastCut '\x1e' s lead rest) (t : Str) :
    parseLog (lead ++ t) = parseLog lead ++ parseLog t := by
  rcases h.ends with hl | ⟨u, hl⟩
  · rw [hl]
    rfl
  · rw [hl, List.append_assoc, List.singleton_append, parseLog_append, parseLog_append]
    change _ = parseLog u ++ [] ++ _
    rw [List.append_nil]

theorem FirstCut.parse {s kept rest : Str} (h : FirstCut '\x1e' s kept rest) (t : Str) :
    parseLog (t ++ rest) = parseLog t ++ parseLog rest := by
  rcases h.begins with hr | ⟨u, hr⟩
  · rw [hr, List.append_nil]
    exact (List.append_nil _).symm
  · rw [hr, parseLog_append, parseLog_separated]

/-- The record that holds the unit separator of the framing. -/
theorem readRecord_framing {kept tail last : Str} (h : FirstCut '\x1f' last kept tail) (first : Str) :
    ∃ body, readRecord (last ++ '\x1f' :: first) = some ⟨strip kept, body⟩ ∧
      (Blank tail → body = strip first) := by
  have hmem : '\x1f' ∈ last ++ '\x1f' :: first := by simp
  have hkept : ∀ c ∈ kept, decide (c ≠ '\x1f') = true := by
    intro c hc
    rw [decide_eq_true_eq]
    exact fun e => h.not_mem (e ▸ hc)
  have hcut : ∃ u, last ++ '\x1f' :: first = kept ++ '\x1f' :: u ∧
      (Blank tail → strip u = strip first) := by
    rcases h.begins with hnil | ⟨u, hu⟩
    · exact ⟨first, by rw [h.eq, hnil, List.append_nil], fun _ => rfl⟩
    · refine ⟨u ++ '\x1f' :: first, by rw [h.eq, hu]; simp, ?_⟩
      intro ht
      rw [hu, ← List.singleton_append, blank_append] at ht
      rw [List.append_cons]
      exact strip_lead (blank_append.mpr ⟨ht.2, ht.1⟩) first
  obtain ⟨u, hu, hs⟩ := hcut
  refine ⟨strip u, ?_, hs⟩
  rw [readRecord, if_pos hmem, hu, List.takeWhile_append_of_pos hkept,
    List.dropWhile_append_of_pos hkept]
  simp

theorem append_cons_eq_singleton {α : Type*} {before after : List α} {a b : α} :
    before ++ a :: after = [b] ↔ before = [] ∧ a = b ∧ after = [] := by
  cases before with
  | nil => simp
  | cons c before => simp

theorem body_cuts {body : Str} : (∀ u v, body ++ ['\n'] = u ++ '\x1e' :: v → Droppable v) ↔
    ∀ u v, body = u ++ '\x1e' :: v → Droppable v := by
  constructor
  · intro h u v hb
    have hv := h u (v ++ ['\n']) (by rw [hb]; simp)
    exact (droppable_append.mp hv).1
  · intro h u v hb
    rcases List.eq_nil_or_concat v with rfl | ⟨w, c, rfl⟩
    · have hc := List.append_inj_right' hb rfl
      exact absurd hc (by decide)
    · rw [List.concat_eq_append, ← List.cons_append, ← List.append_assoc] at hb
      obtain ⟨hw, hc⟩ := List.append_inj' hb rfl
      rw [List.concat_eq_append, ← hc, droppable_append]
      exact ⟨h u w hw, droppable_feed⟩

theorem strip_feed (body : Str) : strip (body ++ ['\n']) = strip body := by
  have h := strip_blank blank_nil droppable_feed.2 body
  rwa [List.nil_append] at h

/-- A message comes back trimmed exactly when its separators are out of the way. -/
theorem parseLog_framed (message : Str × Str) :
    parseLog (universalNewlines (framed message)) = [trimmed message] ↔ Framable message := by
  obtain ⟨subject, body⟩ := message
  obtain ⟨lead, last, hlast⟩ := exists_lastCut '\x1e' (universalNewlines subject)
  obtain ⟨kept, tail, hkept⟩ := exists_firstCut '\x1f' last
  obtain ⟨first, rest, hfirst⟩ := exists_firstCut '\x1e' (universalNewlines (body ++ ['\n']))
  obtain ⟨body', hrecord, hbody'⟩ := readRecord_framing hkept first
  have htext : universalNewlines (framed (subject, body)) =
      lead ++ (last ++ '\x1f' :: first ++ rest) := by
    rw [framed, universalNewlines_append (.inl (by simp)), universalNewlines_inline inline_unit,
      hlast.eq, hfirst.eq]
    simp
  have hone : '\x1e' ∉ last ++ '\x1f' :: first := by
    rw [List.mem_append, List.mem_cons, not_or, not_or]
    exact ⟨hlast.not_mem, by decide, hfirst.not_mem⟩
  rw [htext, hlast.parse, hfirst.parse, parseLog_record hone, hrecord]
  change parseLog lead ++ (⟨strip kept, body'⟩ : Commit) :: parseLog rest = _ ↔ _
  rw [append_cons_eq_singleton, parseLog_eq_nil, parseLog_eq_nil, trimmed, Commit.mk.injEq]
  -- the conditions on the message, cut by cut
  have hsubject_record : (∀ u v, subject = u ++ '\x1e' :: v → Droppable u) ↔ Droppable lead := by
    rw [← forall_cut_universalNewlines inline_record (p := fun u _ => Droppable u)
      (fun _ _ => droppable_universalNewlines)]
    exact hlast.forall (fun _ _ => droppable_append) droppable_record ⟨by simp, blank_nil⟩
  have hbody_record : (∀ u v, body = u ++ '\x1e' :: v → Droppable v) ↔ Droppable rest := by
    rw [← body_cuts, ← forall_cut_universalNewlines inline_record (p := fun _ v => Droppable v)
      (fun _ _ => droppable_universalNewlines)]
    exact hfirst.forall (fun _ _ => droppable_append) droppable_record ⟨by simp, blank_nil⟩
  have hsubject_unit (hlead : '\x1f' ∉ lead) :
      (∀ u v, subject = u ++ '\x1f' :: v → Blank v) ↔ Blank tail := by
    rw [← forall_cut_universalNewlines inline_unit (p := fun _ v => Blank v)
      (fun _ _ => blank_universalNewlines)]
    have hcut : FirstCut '\x1f' (universalNewlines subject) (lead ++ kept) tail :=
      ⟨by rw [hlast.eq, hkept.eq, List.append_assoc],
        by rw [List.mem_append, not_or]; exact ⟨hlead, hkept.not_mem⟩, hkept.begins⟩
    exact hcut.forall (fun _ _ => blank_append) (forall_mem_of_all (by decide)) blank_nil
  have hs : strip kept = strip subject ↔ Blank lead ∧ Blank tail ∧ '\r' ∉ strip subject :=
    strip_translated (by rw [hlast.eq, hkept.eq])
  have hb : strip first = strip body ↔ Blank [] ∧ Blank rest ∧ '\r' ∉ strip body := by
    rw [← strip_feed body]
    exact strip_translated hfirst.eq
  constructor
  · intro ⟨hlead, ⟨hsubject, hbody⟩, hrest⟩
    obtain ⟨hbl, hbt, hr⟩ := hs.mp hsubject
    rw [hbody' hbt] at hbody
    obtain ⟨-, hbr, hr'⟩ := hb.mp hbody
    exact ⟨hsubject_record.mpr ⟨hlead, hbl⟩, (hsubject_unit hlead).mpr hbt,
      hbody_record.mpr ⟨hrest, hbr⟩, hr, hr'⟩
  · intro h
    obtain ⟨hlead, hbl⟩ := hsubject_record.mp h.subject_record
    obtain ⟨hrest, hbr⟩ := hbody_record.mp h.body_record
    have hbt := (hsubject_unit hlead).mp h.subject_unit
    refine ⟨hlead, ⟨hs.mpr ⟨hbl, hbt, h.line_ends.1⟩, ?_⟩, hrest⟩
    rw [hbody' hbt]
    exact hb.mpr ⟨blank_nil, hbr, h.line_ends.2⟩

/-! ## The whole log -/

/-- Every message gives at least one commit, so none can make up for another. -/
theorem flatMap_eq_map {α β : Type*} {f : α → List β} {g : α → β} (h : ∀ a, f a ≠ []) {l : List α} :
    l.flatMap f = l.map g ↔ ∀ a ∈ l, f a = [g a] := by
  have hlength : ∀ l : List α, l.length ≤ (l.flatMap f).length := by
    intro l
    induction l with
    | nil => simp
    | cons a l ih =>
      have ha := List.length_pos_of_ne_nil (h a)
      rw [List.flatMap_cons, List.length_append, List.length_cons]
      omega
  induction l with
  | nil => simp
  | cons a l ih =>
    have hrest : l.flatMap f = l.map g ↔ ∀ a ∈ l, f a = [g a] := ih
    rw [List.forall_mem_cons, ← hrest, List.flatMap_cons, List.map_cons]
    constructor
    · intro he
      have hl := congrArg List.length he
      have ha := List.length_pos_of_ne_nil (h a)
      have hlong := hlength l
      rw [List.length_append, List.length_cons, List.length_map] at hl
      obtain ⟨b, hb⟩ := List.length_eq_one_iff.mp (show (f a).length = 1 by omega)
      rw [hb, List.singleton_append, List.cons.injEq] at he
      exact ⟨by rw [hb, he.1], he.2⟩
    · intro ⟨ha, hl⟩
      rw [ha, hl, List.singleton_append]

variable {C : Type}

/-- The commits are the messages of the log, trimmed, exactly when the
separators of every message are out of the way. -/
theorem read_commits_inverts (r : GitRepository C) (since : Option C) :
    read_commits r since = (r.history.log since r.head).map trimmed ↔
      ∀ message ∈ r.history.log since r.head, Framable message := by
  have hsome : ∀ message : Str × Str, parseLog (universalNewlines (framed message)) ≠ [] := by
    intro message
    rw [Ne, parseLog_eq_nil, not_not, mem_universalNewlines inline_unit]
    simp [framed]
  change parseLog (universalNewlines ((r.history.log since r.head).flatMap
    fun message => '\x1e' :: framed message)) = _ ↔ _
  rw [parseLog_log, flatMap_eq_map hsome]
  exact forall₂_congr fun message _ => parseLog_framed message

/-- A body with a record separator in front of its last paragraph. -/
def cutMessage : Str × Str :=
  (("fix: escape names" : Str), ("Notes\x1e\n\nBREAKING CHANGE: names are quoted\n" : Str))

def cutRepository : GitRepository Unit := ⟨⟨fun _ _ => [cutMessage], fun s => s, []⟩, (), []⟩

/-- The paragraph behind the separator is in no commit, so the breaking change
that it announces only bumps the patch number. -/
theorem breaking_change_dropped :
    read_commits cutRepository none ≠ (cutRepository.history.log none cutRepository.head).map trimmed ∧
      bump_stable ⟨1, 2, 3, none⟩ [trimmed cutMessage] = ⟨2, 0, 0, none⟩ ∧
      bump_stable ⟨1, 2, 3, none⟩ (read_commits cutRepository none) = ⟨1, 2, 4, none⟩ := by
  have hbodies : (read_commits cutRepository none).map Commit.body ≠ [(trimmed cutMessage).body] := by
    decide +kernel
  refine ⟨?_, by decide +kernel, by decide +kernel⟩
  intro h
  exact hbodies (congrArg (List.map Commit.body) h)

end ExtraCodeowners.Release
