import ExtraCodeowners.Guardrails

/-!
# Patterns that match no path

An accepted pattern is dead in two cases: it begins with a slash and
whitespace, or it ends in two slashes and what stands before them cannot end in
a segment of a path. The validator strips the slashes at the end before it
looks for empty segments; the compiler keeps them.
-/

namespace ExtraCodeowners

/-! ## Segments -/

/-- A segment that a repository path may have. -/
def OkSegment (s : Str) : Prop := s ≠ [] ∧ s ≠ ['.'] ∧ s ≠ ['.', '.']

instance (s : Str) : Decidable (OkSegment s) := inferInstanceAs (Decidable (_ ∧ _ ∧ _))

/-- The text after the last slash. -/
def lastSegment (s : Str) : Str := s.rtakeWhile (· ≠ '/')

/-- Every segment that a slash ends is one of a path; `cur` is read already. -/
def ClosedFrom : Str → Str → Prop
  | _, [] => True
  | cur, c :: p => if c = '/' then OkSegment cur ∧ ClosedFrom [] p else ClosedFrom (cur ++ [c]) p

theorem OkSegment.of_suffix {s t : Str} (h : OkSegment s) (hst : s <:+ t) : OkSegment t := by
  obtain ⟨r, rfl⟩ := hst
  cases s with
  | nil => exact absurd rfl h.1
  | cons c s =>
    refine ⟨by simp, fun he => ?_, fun he => ?_⟩
    · rcases List.append_eq_cons_iff.mp he with ⟨rfl, hs⟩ | ⟨r', rfl, hs⟩
      · exact h.2.1 hs
      · simp at hs
    · rcases List.append_eq_cons_iff.mp he with ⟨rfl, hs⟩ | ⟨r', rfl, hs⟩
      · exact h.2.2 hs
      · rcases List.append_eq_cons_iff.mp hs.symm with ⟨rfl, hs⟩ | ⟨r'', rfl, hs⟩
        · exact h.2.1 hs.symm
        · simp at hs

theorem lastSegment_of_not_mem {s : Str} (h : '/' ∉ s) : lastSegment s = s := by
  unfold lastSegment
  rw [List.rtakeWhile_eq_self_iff]
  intro c hc
  have : c ≠ '/' := by rintro rfl; exact h hc
  simpa using this

theorem lastSegment_slash (a b : Str) : lastSegment (a ++ '/' :: b) = lastSegment b := by
  unfold lastSegment
  induction b using List.reverseRecOn with
  | nil => rw [List.rtakeWhile_concat_neg _ _ _ (by simp)]; rfl
  | append_singleton b c ih =>
    rw [← List.cons_append, ← List.append_assoc, List.rtakeWhile_concat, List.rtakeWhile_concat, ih]

theorem lastSegment_append {b : Str} (h : '/' ∈ b) (a : Str) :
    lastSegment (a ++ b) = lastSegment b := by
  obtain ⟨b₁, b₂, rfl⟩ := List.append_of_mem h
  rw [← List.append_assoc, lastSegment_slash, lastSegment_slash]

theorem closedFrom_append {s : Str} (h : '/' ∉ s) (cur p : Str) :
    ClosedFrom cur (s ++ p) ↔ ClosedFrom (cur ++ s) p := by
  induction s generalizing cur with
  | nil => simp
  | cons c s ih =>
    rw [List.mem_cons, not_or] at h
    rw [List.cons_append, ClosedFrom, if_neg (Ne.symm h.1), ih h.2, List.append_assoc]
    rfl

theorem closedFrom_slash (cur a b : Str) : ClosedFrom cur (a ++ '/' :: b) ↔
    ClosedFrom cur (a ++ ['/']) ∧ ClosedFrom [] b := by
  induction a generalizing cur with
  | nil => simp [ClosedFrom]
  | cons c a ih =>
    rw [List.cons_append, List.cons_append, ClosedFrom, ClosedFrom]
    split
    · rw [ih, and_assoc]
    · exact ih _

theorem closedFrom_ended {cur : Str} (hcur : '/' ∉ cur) (a : Str) : ClosedFrom cur (a ++ ['/']) ↔
    ClosedFrom cur a ∧ OkSegment (lastSegment (cur ++ a)) := by
  induction a generalizing cur with
  | nil => simp [ClosedFrom, lastSegment_of_not_mem hcur]
  | cons c a ih =>
    rw [List.cons_append, ClosedFrom, ClosedFrom]
    split
    · rename_i hc
      subst hc
      rw [ih (by simp), and_assoc, lastSegment_slash]
      rfl
    · rename_i hc
      rw [ih (by simpa [hcur] using Ne.symm hc), List.append_assoc]
      rfl

/-- The segments of a text are segments of a path. -/
theorem segments_iff {cur : Str} (hcur : '/' ∉ cur) (p : Str) :
    (∀ part ∈ (cur ++ p).splitOn '/', part ≠ [] ∧ part ≠ ['.'] ∧ part ≠ ['.', '.']) ↔
      ClosedFrom cur p ∧ OkSegment (lastSegment (cur ++ p)) := by
  induction p generalizing cur with
  | nil =>
    rw [List.append_nil, List.splitOn_eq_singleton hcur, lastSegment_of_not_mem hcur]
    simp [ClosedFrom, OkSegment]
  | cons c p ih =>
    rw [ClosedFrom]
    split
    · rename_i hc
      subst hc
      have := ih (show '/' ∉ ([] : Str) by simp)
      rw [List.nil_append] at this
      rw [List.splitOn_append_cons_self, List.splitOn_eq_singleton hcur, lastSegment_slash,
        List.singleton_append, List.forall_mem_cons, this, ← and_assoc]
      rfl
    · rename_i hc
      have := ih (show '/' ∉ cur ++ [c] by simpa [hcur] using Ne.symm hc)
      rwa [List.append_assoc] at this

/-! ## Directories read as nothing -/

def stars (n : Nat) : Str := List.replicate n '*'

theorem stars_succ (n : Nat) : stars (n + 1) = stars n ++ ['*'] := List.replicate_succ'

theorem slash_not_mem_stars (n : Nat) : '/' ∉ stars n := by
  intro h
  exact absurd (List.eq_of_mem_replicate h) (by decide)

/-- The text without its runs of two or more stars that a slash follows, and
without these slashes; `n` stars are read already. -/
def dropDirectoriesFrom : Nat → Str → Str
  | n, [] => stars n
  | n, c :: p =>
    if c = '*' then dropDirectoriesFrom (n + 1) p
    else if c = '/' ∧ 2 ≤ n then dropDirectoriesFrom 0 p
    else stars n ++ c :: dropDirectoriesFrom 0 p

def dropDirectories (p : Str) : Str := dropDirectoriesFrom 0 p

theorem dropDirectoriesFrom_slash {n : Nat} (hn : 2 ≤ n) (p : Str) :
    dropDirectoriesFrom n ('/' :: p) = dropDirectories p := by
  rw [dropDirectoriesFrom, if_neg (by decide), if_pos ⟨rfl, hn⟩]
  rfl

theorem dropDirectoriesFrom_char {n : Nat} {c : Char} (hc : c ≠ '*') (h : c = '/' → n < 2) (p : Str) :
    dropDirectoriesFrom n (c :: p) = stars n ++ c :: dropDirectories p := by
  rw [dropDirectoriesFrom, if_neg hc, if_neg]
  · rfl
  · rintro ⟨he, hn⟩
    have := h he
    omega

theorem dropDirectoriesFrom_stars (k n : Nat) (p : Str) :
    dropDirectoriesFrom k (stars n ++ p) = dropDirectoriesFrom (k + n) p := by
  induction n generalizing p with
  | zero => rfl
  | succ n ih =>
    rw [stars_succ, List.append_assoc, ih]
    rfl

/-- A star run that no slash follows, or a single star, stays. -/
theorem dropDirectories_run {n : Nat} {p : Str} (h₁ : p.head? ≠ some '*')
    (h₂ : 2 ≤ n → p.head? ≠ some '/') :
    dropDirectories (stars n ++ p) = stars n ++ dropDirectories p := by
  rw [dropDirectories, dropDirectoriesFrom_stars, Nat.zero_add]
  cases p with
  | nil => exact (List.append_nil _).symm
  | cons c p =>
    have hc : c ≠ '*' := fun e => h₁ (by simp [e])
    have hs : c = '/' → n < 2 := by
      intro e
      by_contra hn
      exact h₂ (by omega) (by simp [e])
    rw [dropDirectoriesFrom_char hc hs, dropDirectories, dropDirectories,
      dropDirectoriesFrom_char hc (by omega)]
    rfl

theorem dropDirectories_directories {n : Nat} (hn : 2 ≤ n) (p : Str) :
    dropDirectories (stars n ++ '/' :: p) = dropDirectories p := by
  rw [dropDirectories, dropDirectoriesFrom_stars, Nat.zero_add, dropDirectoriesFrom_slash hn]

theorem dropDirectories_char {c : Char} (hc : c ≠ '*') (p : Str) :
    dropDirectories (c :: p) = c :: dropDirectories p :=
  dropDirectoriesFrom_char hc (by omega) p

/-- A slash ends a run, so what follows it is read on its own. -/
theorem dropDirectoriesFrom_append (n : Nat) (a s : Str) :
    dropDirectoriesFrom n (a ++ '/' :: s) = dropDirectoriesFrom n (a ++ ['/']) ++ dropDirectories s := by
  induction a generalizing n with
  | nil =>
    rw [List.nil_append, List.nil_append]
    by_cases hn : 2 ≤ n
    · rw [dropDirectoriesFrom_slash hn, dropDirectoriesFrom_slash hn]
      rfl
    · rw [dropDirectoriesFrom_char (by decide) (by omega), dropDirectoriesFrom_char (by decide) (by omega),
        List.append_assoc]
      rfl
  | cons c a ih =>
    rw [List.cons_append, List.cons_append, dropDirectoriesFrom, dropDirectoriesFrom]
    split
    · exact ih _
    · split
      · exact ih _
      · rw [ih, List.append_assoc]
        rfl

/-! ## What a match ends in -/

section
variable {wide : Char → Prop}

omit wide in
/-- Text without a slash at the head of a pattern stands before its slash. -/
theorem behind_slash {b q x y : Str} (hx : '/' ∉ x) (he : b ++ '/' :: q = x ++ y) :
    ∃ b', b = x ++ b' ∧ b' ++ '/' :: q = y := by
  rcases List.append_eq_append_iff.mp he with ⟨a, ha, hq⟩ | ⟨a, ha, hq⟩
  · cases a with
    | nil => exact ⟨[], by simpa using ha.symm, hq⟩
    | cons d a =>
      obtain ⟨rfl, -⟩ := List.cons.inj hq
      exact absurd (by rw [ha]; simp) hx
  · exact ⟨a, ha, hq.symm⟩

omit wide in
theorem head_of_slash {b q y : Str} {c : Char} (h : b ++ '/' :: q = y) (hy : y.head? ≠ some c) :
    (b ++ ['/']).head? ≠ some c := by
  subst h
  cases b <;> exact hy

/-- The part of a match up to a slash that no star run takes. -/
theorem GlobBody.split {b q s : Str} (h : GlobBody wide (b ++ '/' :: q) s) :
    ∃ s₁ s₂, s = s₁ ++ s₂ ∧ GlobBody wide (b ++ ['/']) s₁ ∧ GlobBody wide q s₂ := by
  generalize hp : b ++ '/' :: q = p at h
  induction h generalizing b with
  | nil => simp at hp
  | @directories n p' u s hn hu hw hb ih =>
    obtain ⟨b', rfl, hq⟩ := behind_slash (slash_not_mem_stars n) hp
    cases b' with
    | nil =>
      obtain ⟨-, rfl⟩ := List.cons.inj hq
      refine ⟨u, s, rfl, ?_, hb⟩
      have := GlobBody.directories hn hu hw GlobBody.nil
      rwa [List.append_nil] at this ⊢
    | cons d b' =>
      obtain ⟨rfl, hq'⟩ := List.cons.inj hq
      obtain ⟨s₁, s₂, rfl, h₁, h₂⟩ := ih hq'
      refine ⟨u ++ s₁, s₂, by simp, ?_, h₂⟩
      rw [List.append_assoc]
      exact .directories hn hu hw h₁
  | @anything n p' u s hn h₁ h₂ hw hb ih =>
    obtain ⟨b', rfl, hq⟩ := behind_slash (slash_not_mem_stars n) hp
    obtain ⟨s₁, s₂, rfl, h₃, h₄⟩ := ih hq
    refine ⟨u ++ s₁, s₂, by simp, ?_, h₄⟩
    rw [List.append_assoc]
    exact .anything hn (head_of_slash hq h₁) (head_of_slash hq h₂) hw h₃
  | @run p' u s h₁ hu hb ih =>
    cases b with
    | nil => simp at hp
    | cons d b =>
      obtain ⟨rfl, hq⟩ := List.cons.inj hp
      obtain ⟨s₁, s₂, rfl, h₃, h₄⟩ := ih hq
      exact ⟨u ++ s₁, s₂, by simp, .run (head_of_slash hq h₁) hu h₃, h₄⟩
  | @one c p' s hc hb ih =>
    cases b with
    | nil => simp at hp
    | cons d b =>
      obtain ⟨rfl, hq⟩ := List.cons.inj hp
      obtain ⟨s₁, s₂, rfl, h₃, h₄⟩ := ih hq
      exact ⟨c :: s₁, s₂, rfl, .one hc h₃, h₄⟩
  | @literal c p' s h₁ h₂ hb ih =>
    cases b with
    | nil =>
      obtain ⟨rfl, rfl⟩ := List.cons.inj hp
      exact ⟨['/'], s, rfl, .literal (by decide) (by decide) .nil, hb⟩
    | cons d b =>
      obtain ⟨rfl, hq⟩ := List.cons.inj hp
      obtain ⟨s₁, s₂, rfl, h₃, h₄⟩ := ih hq
      exact ⟨d :: s₁, s₂, rfl, .literal h₁ h₂ h₃, h₄⟩

/-- Text without wildcards. -/
def Plain (s : Str) : Prop := '*' ∉ s ∧ '?' ∉ s

theorem plain_append {s t : Str} : Plain (s ++ t) ↔ Plain s ∧ Plain t := by
  simp only [Plain, List.mem_append, not_or]
  tauto

/-- A match spells the plain segment that the pattern ends in, or the end of it
behind the last slash of a `**`. -/
structure Spells (p s : Str) : Prop where
  slash : '/' ∈ dropDirectories p → '/' ∈ s
  whole : '/' ∉ dropDirectories p → Plain (dropDirectories p) → '/' ∉ s → s = dropDirectories p
  suffix : Plain (lastSegment (dropDirectories p)) → lastSegment s <:+ lastSegment (dropDirectories p)

/-- A token with a wildcard in front of the pattern. -/
theorem Spells.wild {p s w u p' : Str} (h : Spells p s) (hp : dropDirectories p' = w ++ dropDirectories p)
    (hw : ¬ Plain w) (hs : '/' ∉ w) : Spells p' (u ++ s) := by
  refine ⟨?_, ?_, ?_⟩
  · intro hm
    rw [hp, List.mem_append] at hm
    exact List.mem_append_right _ (h.slash (hm.resolve_left hs))
  · intro _ hpl
    rw [hp, plain_append] at hpl
    exact absurd hpl.1 hw
  · intro hpl
    rw [hp] at hpl ⊢
    by_cases hm : '/' ∈ dropDirectories p
    · rw [lastSegment_append hm] at hpl ⊢
      rw [lastSegment_append (h.slash hm)]
      exact h.suffix hpl
    · rw [lastSegment_of_not_mem (by simp [hs, hm]), plain_append] at hpl
      exact absurd hpl.1 hw

theorem GlobBody.spells {p s : Str} (h : GlobBody wide p s) : Spells p s := by
  induction h with
  | nil => exact ⟨id, fun _ _ _ => rfl, fun _ => List.suffix_refl _⟩
  | @directories n p u s hn hu hw hb ih =>
    have hp : dropDirectories (List.replicate n '*' ++ '/' :: p) = dropDirectories p :=
      dropDirectories_directories hn p
    refine ⟨?_, ?_, ?_⟩
    · intro hm
      rw [hp] at hm
      exact List.mem_append_right _ (ih.slash hm)
    · intro hm hpl hs
      rw [hp] at hm hpl ⊢
      rcases hu with rfl | ⟨v, rfl⟩
      · exact ih.whole hm hpl hs
      · simp at hs
    · intro hpl
      rw [hp] at hpl ⊢
      rcases hu with rfl | ⟨v, rfl⟩
      · exact ih.suffix hpl
      · rw [List.append_assoc, List.singleton_append, lastSegment_slash]
        exact ih.suffix hpl
  | @anything n p u s hn h₁ h₂ hw hb ih =>
    refine ih.wild (dropDirectories_run h₁ fun _ => h₂) (fun hpl => hpl.1 ?_) (slash_not_mem_stars n)
    exact List.mem_replicate.mpr ⟨by omega, rfl⟩
  | @run p u s h₁ hu hb ih =>
    exact ih.wild (dropDirectories_run (n := 1) h₁ (by omega)) (fun hpl => hpl.1 (by simp [stars]))
      (by decide)
  | @one c p s hc hb ih =>
    exact ih.wild (u := [c]) (w := ['?']) (dropDirectories_char (by decide) p)
      (fun hpl => hpl.2 (by simp)) (by decide)
  | @literal c p s h₁ h₂ hb ih =>
    have hp := dropDirectories_char h₁ p
    refine ⟨?_, ?_, ?_⟩
    · intro hm
      rw [hp, List.mem_cons] at hm
      rcases hm with hm | hm
      · rw [← hm]
        exact List.mem_cons_self
      · exact List.mem_cons_of_mem _ (ih.slash hm)
    · intro hm hpl hs
      rw [hp] at hm hpl ⊢
      rw [← List.singleton_append, plain_append] at hpl
      rw [List.mem_cons, not_or] at hm hs
      rw [ih.whole hm.2 hpl.2 hs.2]
    · intro hpl
      rw [hp] at hpl ⊢
      by_cases hm : '/' ∈ dropDirectories p
      · have hl : lastSegment (c :: dropDirectories p) = lastSegment (dropDirectories p) :=
          lastSegment_append hm [c]
        rw [hl] at hpl ⊢
        rw [show lastSegment (c :: s) = lastSegment s from lastSegment_append (ih.slash hm) [c]]
        exact ih.suffix hpl
      · have hsuf := ih.suffix
        rw [lastSegment_of_not_mem hm] at hsuf
        by_cases hc : c = '/'
        · subst hc
          have hl : lastSegment ('/' :: dropDirectories p) = dropDirectories p :=
            (lastSegment_slash [] _).trans (lastSegment_of_not_mem hm)
          rw [hl] at hpl ⊢
          rw [show lastSegment ('/' :: s) = lastSegment s from lastSegment_slash [] s]
          exact hsuf hpl
        · have hcm : '/' ∉ c :: dropDirectories p := by simp [Ne.symm hc, hm]
          rw [lastSegment_of_not_mem hcm] at hpl ⊢
          rw [← List.singleton_append, plain_append] at hpl
          by_cases hs : '/' ∈ s
          · rw [← List.singleton_append, lastSegment_append hs]
            exact (hsuf hpl.2).trans (List.suffix_cons _ _)
          · rw [lastSegment_of_not_mem (by simp [Ne.symm hc, hs]), ih.whole hm hpl.2 hs]

end

/-! ## A path for a pattern -/

/-- An `x` for a wildcard. -/
def fillChar (c : Char) : Char := if c = '*' ∨ c = '?' then 'x' else c

def fill (s : Str) : Str := s.map fillChar

theorem fillChar_eq {c d : Char} (hd : d ≠ 'x') (h : fillChar c = d) : c = d := by
  unfold fillChar at h
  split at h
  · exact absurd h.symm hd
  · exact h

theorem fillChar_slash (c : Char) : fillChar c = '/' ↔ c = '/' :=
  ⟨fillChar_eq (by decide), fun h => by rw [h]; rfl⟩

theorem OkSegment.fill {s : Str} (h : OkSegment s) : OkSegment (fill s) := by
  refine ⟨fun he => h.1 (List.map_eq_nil_iff.mp he), fun he => ?_, fun he => ?_⟩
  · obtain ⟨c, t, rfl, hc, ht⟩ := List.map_eq_cons_iff.mp he
    rw [List.map_eq_nil_iff] at ht
    exact h.2.1 (by rw [fillChar_eq (by decide) hc, ht])
  · obtain ⟨c, t, rfl, hc, ht⟩ := List.map_eq_cons_iff.mp he
    obtain ⟨d, t', rfl, hd, ht'⟩ := List.map_eq_cons_iff.mp ht
    rw [List.map_eq_nil_iff] at ht'
    exact h.2.2 (by rw [fillChar_eq (by decide) hc, fillChar_eq (by decide) hd, ht'])

theorem ClosedFrom.fill {cur p : Str} (h : ClosedFrom cur p) : ClosedFrom (fill cur) (fill p) := by
  induction p generalizing cur with
  | nil => trivial
  | cons c p ih =>
    rw [ClosedFrom] at h
    change ClosedFrom _ (fillChar c :: ExtraCodeowners.fill p)
    rw [ClosedFrom]
    by_cases hc : c = '/'
    · rw [if_pos hc] at h
      rw [if_pos ((fillChar_slash c).mpr hc)]
      exact ⟨h.1.fill, ih h.2⟩
    · rw [if_neg hc] at h
      rw [if_neg (mt (fillChar_slash c).mp hc)]
      have := ih h
      rwa [ExtraCodeowners.fill, List.map_append] at this

theorem lastSegment_fill (s : Str) : lastSegment (fill s) = fill (lastSegment s) := by
  unfold lastSegment fill List.rtakeWhile
  rw [← List.map_reverse, List.takeWhile_map, List.map_reverse]
  congr 3
  funext c
  exact decide_eq_decide.mpr (not_congr (fillChar_slash c))

section
variable {wide : Char → Prop} (hx : wide 'x')
include hx

/-- A star run in front of a pattern, each star read as an `x`. -/
theorem globBody_stars {n : Nat} {p s : Str} (h₁ : p.head? ≠ some '*')
    (h₂ : 2 ≤ n → p.head? ≠ some '/') (hb : GlobBody wide p s) :
    GlobBody wide (stars n ++ p) (fill (stars n) ++ s) := by
  have hfill : fill (stars n) = List.replicate n 'x' := by simp [fill, stars, fillChar]
  rw [hfill]
  match n, h₂ with
  | 0, _ => exact hb
  | 1, _ => exact .run (u := ['x']) h₁ (by decide) hb
  | n + 2, h₂ =>
    refine .anything (by omega) h₁ (h₂ (by omega)) ?_ hb
    intro c hc
    rw [List.eq_of_mem_replicate hc]
    exact hx

/-- A pattern matches its own text with directories read as nothing and the
other wildcards as `x`. -/
theorem globBody_dropDirectories (n : Nat) (p : Str) :
    GlobBody wide (stars n ++ p) (fill (dropDirectoriesFrom n p)) := by
  induction p generalizing n with
  | nil =>
    have := globBody_stars hx (n := n) (p := []) (by simp) (by simp) .nil
    rwa [List.append_nil (fill (stars n))] at this
  | cons c p ih =>
    by_cases hc : c = '*'
    · subst hc
      have := ih (n + 1)
      rwa [stars_succ, List.append_assoc] at this
    · by_cases hs : c = '/' ∧ 2 ≤ n
      · obtain ⟨rfl, hn⟩ := hs
        rw [dropDirectoriesFrom_slash hn]
        exact .directories (u := []) hn (.inl rfl) (by simp) (ih 0)
      · rw [dropDirectoriesFrom_char hc (fun e => by by_contra hn; exact hs ⟨e, by omega⟩), fill,
          List.map_append]
        refine globBody_stars hx (by simpa using hc) (fun hn => by simpa using fun e => hs ⟨e, hn⟩) ?_
        have htail : GlobBody wide p (fill (dropDirectories p)) := ih 0
        by_cases hq : c = '?'
        · subst hq
          exact .one (by decide) htail
        · rw [List.map_cons, show fillChar c = c by simp [fillChar, hc, hq]]
          exact .literal hc hq htail

end

/-- Segments that end stay segments of a path when directories before them are
read as nothing: they only grow to the left. -/
theorem ClosedFrom.dropDirectories {n : Nat} {p cur cur' : Str} (h : ClosedFrom (cur ++ stars n) p)
    (hc : cur <:+ cur') : ClosedFrom cur' (dropDirectoriesFrom n p) := by
  induction p generalizing n cur cur' with
  | nil =>
    have := (closedFrom_append (slash_not_mem_stars n) cur' []).mpr trivial
    rwa [List.append_nil] at this
  | cons c p ih =>
    by_cases hstar : c = '*'
    · subst hstar
      rw [ClosedFrom, if_neg (by decide), List.append_assoc, ← stars_succ] at h
      exact ih h hc
    · by_cases hs : c = '/' ∧ 2 ≤ n
      · obtain ⟨rfl, hn⟩ := hs
        rw [ClosedFrom, if_pos rfl] at h
        rw [dropDirectoriesFrom_slash hn]
        exact @ih 0 [] _ h.2 List.nil_suffix
      · rw [dropDirectoriesFrom_char hstar (fun e => by by_contra hn; exact hs ⟨e, by omega⟩),
          closedFrom_append (slash_not_mem_stars n)]
        rw [ClosedFrom] at h ⊢
        have hsuffix : cur ++ stars n <:+ cur' ++ stars n := by
          obtain ⟨r, rfl⟩ := hc
          exact ⟨r, by simp⟩
        by_cases hslash : c = '/'
        · rw [if_pos hslash] at h ⊢
          exact ⟨h.1.of_suffix hsuffix, @ih 0 [] [] h.2 (List.suffix_refl _)⟩
        · rw [if_neg hslash] at h ⊢
          refine @ih 0 (cur ++ stars n ++ [c]) _ (by simpa [stars] using h) ?_
          obtain ⟨r, hr⟩ := hsuffix
          exact ⟨r, by rw [← hr]; simp⟩

theorem lastSegment_dropDirectories {n : Nat} {p cur cur' : Str} (h₁ : '/' ∉ cur) (h₂ : '/' ∉ cur')
    (hc : cur <:+ cur') :
    lastSegment (cur ++ stars n ++ p) <:+ lastSegment (cur' ++ dropDirectoriesFrom n p) := by
  have hstars := slash_not_mem_stars n
  induction p generalizing n cur cur' with
  | nil =>
    rw [List.append_nil, lastSegment_of_not_mem (by simp [h₁, hstars]), dropDirectoriesFrom,
      lastSegment_of_not_mem (by simp [h₂, hstars])]
    obtain ⟨r, rfl⟩ := hc
    exact ⟨r, by simp⟩
  | cons c p ih =>
    by_cases hstar : c = '*'
    · subst hstar
      have he : cur ++ stars n ++ '*' :: p = cur ++ stars (n + 1) ++ p := by
        rw [stars_succ]
        simp
      rw [he]
      exact ih (n := n + 1) h₁ h₂ hc (slash_not_mem_stars _)
    · by_cases hs : c = '/' ∧ 2 ≤ n
      · obtain ⟨rfl, hn⟩ := hs
        rw [dropDirectoriesFrom_slash hn, lastSegment_slash]
        exact @ih 0 [] _ (by simp) h₂ List.nil_suffix (by simp [stars])
      · rw [dropDirectoriesFrom_char hstar (fun e => by by_contra hn; exact hs ⟨e, by omega⟩)]
        by_cases hslash : c = '/'
        · subst hslash
          rw [← List.append_assoc, lastSegment_slash, lastSegment_slash]
          exact @ih 0 [] [] (by simp) (by simp) (List.suffix_refl _)
            (by simp [stars])
        · have hc' : cur ++ stars n ++ [c] <:+ cur' ++ stars n ++ [c] := by
            obtain ⟨r, rfl⟩ := hc
            exact ⟨r, by simp⟩
          have := @ih 0 (cur ++ stars n ++ [c]) (cur' ++ stars n ++ [c])
            (by simp [h₁, hstars, Ne.symm hslash]) (by simp [h₂, hstars, Ne.symm hslash]) hc'
            (by simp [stars])
          simpa [stars, ExtraCodeowners.dropDirectories] using this

/-- The text begins as the pattern does, unless the pattern begins with
directories. -/
theorem dropDirectoriesFrom_head {n : Nat} (hn : 1 ≤ n) (p : Str) :
    (∃ k p', p = stars k ++ '/' :: p' ∧ 2 ≤ n + k) ∨ (dropDirectoriesFrom n p).head? = some '*' := by
  obtain ⟨m, rfl⟩ : ∃ m, n = m + 1 := ⟨n - 1, by omega⟩
  induction p generalizing m with
  | nil => exact .inr rfl
  | cons c p ih =>
    by_cases hstar : c = '*'
    · subst hstar
      rcases ih (m + 1) (by omega) with ⟨k, p', rfl, hk⟩ | h
      · exact .inl ⟨k + 1, p', rfl, by omega⟩
      · exact .inr h
    · by_cases hs : c = '/' ∧ 2 ≤ m + 1
      · obtain ⟨rfl, hm⟩ := hs
        exact .inl ⟨0, p, rfl, hm⟩
      · rw [dropDirectoriesFrom_char hstar (fun e => by by_contra hn; exact hs ⟨e, by omega⟩)]
        exact .inr rfl

theorem dropDirectoriesFrom_last {c : Char} (hc : c ≠ '/') (n : Nat) (p : Str) :
    ∃ q, dropDirectoriesFrom n (p ++ [c]) = q ++ [c] := by
  induction p generalizing n with
  | nil =>
    by_cases hstar : c = '*'
    · subst hstar
      exact ⟨stars n, stars_succ n⟩
    · exact ⟨stars n, by rw [List.nil_append, dropDirectoriesFrom_char hstar (fun e => absurd e hc)]; rfl⟩
  | cons d p ih =>
    rw [List.cons_append, dropDirectoriesFrom]
    split
    · exact ih _
    · split
      · exact ih _
      · obtain ⟨q, hq⟩ := ih 0
        exact ⟨stars n ++ d :: q, by rw [hq]; simp⟩

theorem mem_dropDirectoriesFrom {n : Nat} {p : Str} {c : Char} (h : c ∈ dropDirectoriesFrom n p) :
    c = '*' ∨ c ∈ p := by
  induction p generalizing n with
  | nil => exact .inl (List.eq_of_mem_replicate h)
  | cons d p ih =>
    rw [dropDirectoriesFrom] at h
    split at h
    · exact (ih h).imp_right (List.mem_cons_of_mem _)
    · split at h
      · exact (ih h).imp_right (List.mem_cons_of_mem _)
      · rcases List.mem_append.mp h with h | h
        · exact .inl (List.eq_of_mem_replicate h)
        · rcases List.mem_cons.mp h with rfl | h
          · exact .inr List.mem_cons_self
          · exact (ih h).imp_right (List.mem_cons_of_mem _)

/-! ## Dead patterns -/

/-- The pattern begins with a slash and whitespace, which no path begins with. -/
def StartsBlank (value : Str) : Prop := ∃ c rest, value = '/' :: c :: rest ∧ isSpace c = true

/-- The pattern ends in two slashes, and with every directories wildcard read
as nothing the text before the last one ends in no segment of a path. -/
def EmptyLast (value : Str) : Prop :=
  ∃ front, removePrefix '/' value = front ++ ['/'] ∧ endsWith '/' front = true ∧
    ¬ OkSegment (lastSegment (dropDirectories front))

theorem endsWith_iff {c : Char} {s : Str} : endsWith c s = true ↔ ∃ front, s = front ++ [c] := by
  unfold endsWith
  rw [decide_eq_true_iff, List.getLast?_eq_some_iff]

/-- The body with what a slash at its end stands for. -/
def recursiveBody (body : Str) : Str := if endsWith '/' body then body ++ ['*', '*'] else body

theorem recursiveBody_slash (front : Str) :
    recursiveBody (front ++ ['/']) = front ++ '/' :: ['*', '*'] := by
  rw [recursiveBody, if_pos (endsWith_iff.mpr ⟨front, rfl⟩), List.append_assoc]
  rfl

theorem recursiveBody_self {body : Str} (h : endsWith '/' body = false) : recursiveBody body = body := by
  rw [recursiveBody, h]
  rfl

theorem not_globMatches_of_startsBlank {value : Str} (h : StartsBlank value) (path : RepositoryPath) :
    ¬ GlobMatches notLineFeed value path.1 := by
  obtain ⟨c, rest, rfl, hc⟩ := h
  have hlit : c ≠ '*' ∧ c ≠ '?' := by
    constructor <;> (rintro rfl; exact absurd hc (by decide))
  rintro ⟨u, s, t, hpath, hu, hs, -⟩
  have hu : u = [] := hu.resolve_right fun hn => hn.1 (.inl rfl)
  obtain ⟨q, hq⟩ : ∃ q, recursiveBody (c :: rest) = c :: q := by
    unfold recursiveBody
    split
    · exact ⟨rest ++ ['*', '*'], rfl⟩
    · exact ⟨rest, rfl⟩
  change GlobBody notLineFeed (recursiveBody (c :: rest)) s at hs
  rw [hq, globBody_literal hlit.1 hlit.2] at hs
  obtain ⟨v, rfl, -⟩ := hs
  have := (strip_eq_self.mp path.facts.2.1).1 c (by rw [hpath, hu]; rfl)
  rw [hc] at this
  cases this

theorem not_globMatches_of_emptyLast {value : Str} (h : EmptyLast value) (path : RepositoryPath) :
    ¬ GlobMatches notLineFeed value path.1 := by
  obtain ⟨front, hbody, hend, hbad⟩ := h
  obtain ⟨b, rfl⟩ := endsWith_iff.mp hend
  rintro ⟨u, s, t, hpath, hu, hs, -⟩
  change GlobBody notLineFeed (recursiveBody (removePrefix '/' value)) s at hs
  rw [hbody, recursiveBody_slash, List.append_assoc] at hs
  obtain ⟨s₁, s₂, rfl, h₁, h₂⟩ := hs.split
  obtain ⟨w, rfl, -⟩ := (globBody_literal (by decide) (by decide)).mp h₂
  -- the segment of the path that ends at the second slash
  have hok : OkSegment (lastSegment (u ++ s₁)) := by
    have := ((segments_iff (show '/' ∉ ([] : Str) by simp) path.1).mp path.facts.2.2.2.2).1
    rw [hpath, show u ++ (s₁ ++ '/' :: w ++ t) = (u ++ s₁) ++ '/' :: (w ++ t) by simp,
      closedFrom_slash] at this
    exact ((closedFrom_ended (by simp) _).mp this.1).2
  have hlast : lastSegment (u ++ s₁) = lastSegment s₁ := by
    rcases hu with rfl | ⟨-, ⟨v, rfl⟩, -⟩
    · rfl
    · rw [List.append_assoc]
      exact lastSegment_slash v s₁
  rw [hlast] at hok
  refine hbad (hok.of_suffix (h₁.spells.suffix ?_))
  -- the segment before the slashes is empty or dots, so it has no wildcard
  unfold OkSegment at hbad
  by_cases e₁ : lastSegment (dropDirectories (b ++ ['/'])) = []
  · rw [e₁]
    exact ⟨by simp, by simp⟩
  · by_cases e₂ : lastSegment (dropDirectories (b ++ ['/'])) = ['.']
    · rw [e₂]
      exact ⟨by decide, by decide⟩
    · by_cases e₃ : lastSegment (dropDirectories (b ++ ['/'])) = ['.', '.']
      · rw [e₃]
        exact ⟨by decide, by decide⟩
      · exact absurd ⟨e₁, e₂, e₃⟩ hbad

/-! ## Live patterns -/

/-- The body of an accepted pattern: the segments before the slashes at its end. -/
theorem accepted_body {value : Str} (hv : validatePattern value = .ok value) :
    ∃ front k, removePrefix '/' value = front ++ List.replicate k '/' ∧ endsWith '/' front = false ∧
      ClosedFrom [] front ∧ OkSegment (lastSegment front) := by
  obtain ⟨-, -, -, -, -, -, -, -, hparts⟩ := validatePattern_eq_ok.mp hv
  obtain ⟨hclosed, hlast⟩ := (segments_iff (show '/' ∉ ([] : Str) by simp) _).mp hparts
  refine ⟨rstripSlash (removePrefix '/' value),
    ((removePrefix '/' value).rtakeWhile (· = '/')).length, ?_, ?_, hclosed, hlast⟩
  · have hrep : (removePrefix '/' value).rtakeWhile (· = '/') =
        List.replicate ((removePrefix '/' value).rtakeWhile (· = '/')).length '/' :=
      List.eq_replicate_of_mem fun c hc => by simpa using List.mem_rtakeWhile_imp hc
    rw [← hrep, rstripSlash, List.rdropWhile_append_rtakeWhile]
  · by_contra he
    obtain ⟨b, hb⟩ := endsWith_iff.mp (Bool.not_eq_false _ ▸ he)
    have hb' : rstripSlash (removePrefix '/' value) = b ++ ['/'] := hb
    have hs : lastSegment (rstripSlash (removePrefix '/' value)) = [] := by
      rw [hb']
      exact lastSegment_slash b []
    exact hlast.1 hs

theorem closedFrom_tail {s : Str} (hs : '/' ∉ s) {cur a : Str} (h : ClosedFrom cur a) :
    ClosedFrom cur (a ++ s) := by
  induction a generalizing cur with
  | nil =>
    rw [List.nil_append, ← List.append_nil s, closedFrom_append hs]
    trivial
  | cons c a ih =>
    rw [List.cons_append, ClosedFrom]
    rw [ClosedFrom] at h
    split
    · rename_i hc
      rw [if_pos hc] at h
      exact ⟨h.1, ih h.2⟩
    · rename_i hc
      rw [if_neg hc] at h
      exact ih h

theorem lastSegment_tail {s : Str} (hs : '/' ∉ s) (a : Str) : s <:+ lastSegment (a ++ s) := by
  unfold lastSegment
  induction s using List.reverseRecOn with
  | nil => exact List.nil_suffix
  | append_singleton s c ih =>
    rw [List.mem_append, not_or] at hs
    have hc : c ≠ '/' := fun e => hs.2 (by simp [e])
    rw [← List.append_assoc, List.rtakeWhile_concat_pos _ _ _ (by simpa using hc)]
    obtain ⟨r, hr⟩ := ih hs.1
    exact ⟨r, by rw [← hr, List.append_assoc]⟩

/-- With directories read as nothing, a body that can end in a segment has the
segments of a path. -/
theorem recursiveBody_segments {front : Str} {k : Nat} (he : endsWith '/' front = false)
    (hc : ClosedFrom [] front) (hl : OkSegment (lastSegment front))
    (hlive : ∀ y, front ++ List.replicate k '/' = y ++ ['/'] → endsWith '/' y = true →
      OkSegment (lastSegment (dropDirectories y))) :
    ClosedFrom [] (dropDirectories (recursiveBody (front ++ List.replicate k '/'))) ∧
      OkSegment (lastSegment (dropDirectories (recursiveBody (front ++ List.replicate k '/')))) := by
  have closed : ∀ {p : Str}, ClosedFrom [] p → ClosedFrom [] (dropDirectories p) :=
    fun hp => @ClosedFrom.dropDirectories 0 _ [] [] hp (List.suffix_refl _)
  have hended : ClosedFrom [] (front ++ ['/']) := (closedFrom_ended (by simp) front).mpr ⟨hc, hl⟩
  have directory : ∀ y, ClosedFrom [] (dropDirectories (y ++ ['/'])) →
      ClosedFrom [] (dropDirectories (recursiveBody (y ++ ['/']))) ∧
        OkSegment (lastSegment (dropDirectories (recursiveBody (y ++ ['/'])))) := by
    intro y hy
    rw [recursiveBody_slash, dropDirectories, dropDirectoriesFrom_append]
    refine ⟨closedFrom_tail (by decide) hy, ?_⟩
    exact OkSegment.of_suffix (by decide) (lastSegment_tail (by decide) _)
  match k with
  | 0 =>
    rw [List.replicate_zero, List.append_nil, recursiveBody_self he]
    have hsuffix := @lastSegment_dropDirectories 0 front [] [] (by simp)
      (by simp) (List.suffix_refl _)
    exact ⟨closed hc, hl.of_suffix hsuffix⟩
  | 1 => exact directory front (closed hended)
  | k + 2 =>
    have hy : front ++ List.replicate (k + 2) '/' = (front ++ List.replicate (k + 1) '/') ++ ['/'] := by
      rw [List.replicate_succ' (n := k + 1), List.append_assoc]
    have hend : front ++ List.replicate (k + 1) '/' = (front ++ List.replicate k '/') ++ ['/'] := by
      rw [List.replicate_succ' (n := k), List.append_assoc]
    have hok := hlive _ hy (endsWith_iff.mpr ⟨_, hend⟩)
    rw [hy]
    refine directory _ ?_
    have hslash : ∀ b : Str, dropDirectories (b ++ ['/'] ++ ['/']) = dropDirectories (b ++ ['/']) ++ ['/'] := by
      intro b
      rw [List.append_assoc]
      exact dropDirectoriesFrom_append 0 b ['/']
    rw [hend, hslash, closedFrom_ended (by simp), ← hend]
    refine ⟨?_, hok⟩
    cases k with
    | zero => exact closed hended
    | succ k =>
      -- three slashes end in an empty segment
      refine absurd rfl (show ([] : Str) ≠ [] from ?_)
      have hthree : front ++ List.replicate (k + 1) '/' = (front ++ List.replicate k '/') ++ ['/'] := by
        rw [List.replicate_succ' (n := k), List.append_assoc]
      rw [hend, hthree, hslash, lastSegment_slash] at hok
      exact hok.1

/-- A text that is a repository path when it begins like one. -/
structure PathEnd (s : Str) : Prop where
  last : ∀ c, s.getLast? = some c → isSpace c = false
  escape : '\\' ∉ s
  closed : ClosedFrom [] s
  segment : OkSegment (lastSegment s)

theorem PathEnd.repositoryPath {s : Str} (h : PathEnd s)
    (hhead : ∀ c, s.head? = some c → isSpace c = false ∧ c ≠ '/') : normalizeRepositoryPath s = .ok s := by
  refine normalizeRepositoryPath_eq_ok.mpr ⟨?_, ?_, ?_, h.escape, ?_⟩
  · rintro rfl
    exact h.segment.1 rfl
  · exact strip_eq_self.mpr ⟨fun c hc => (hhead c hc).1, h.last⟩
  · unfold startsWith
    rw [decide_eq_false_iff_not]
    exact fun hc => (hhead '/' hc).2 rfl
  · exact (segments_iff (show '/' ∉ ([] : Str) by simp) s).mpr ⟨h.closed, h.segment⟩

theorem PathEnd.below {s d : Str} (h : PathEnd s) (hd : OkSegment d) (hs : '/' ∉ d) (hb : '\\' ∉ d) :
    PathEnd (d ++ '/' :: s) := by
  have hne : s ≠ [] := by
    rintro rfl
    exact h.segment.1 rfl
  refine ⟨?_, ?_, ?_, ?_⟩
  · intro c hc
    rw [List.getLast?_append_of_ne_nil _ (List.cons_ne_nil _ _), List.getLast?_cons_of_ne_nil hne] at hc
    exact h.last c hc
  · rw [List.mem_append, List.mem_cons, not_or, not_or]
    exact ⟨hb, by decide, h.escape⟩
  · rw [closedFrom_append hs, List.nil_append, ClosedFrom, if_pos rfl]
    exact ⟨hd, h.closed⟩
  · rw [lastSegment_slash]
    exact h.segment

theorem fillChar_space {c : Char} (hc : isSpace c = false) : isSpace (fillChar c) = false := by
  unfold fillChar
  split
  · decide
  · exact hc

theorem fill_stars (n : Nat) : fill (stars n) = List.replicate n 'x' := by simp [fill, stars, fillChar]

/-- The text of a pattern with directories read as nothing and the other
wildcards as `x`. -/
theorem pathEnd_fill {q : Str} {c : Char} (hne : c ≠ '/') (hsp : isSpace c = false)
    (hb : '\\' ∉ q ++ [c]) (hc : ClosedFrom [] (dropDirectories (q ++ [c])))
    (hl : OkSegment (lastSegment (dropDirectories (q ++ [c])))) :
    PathEnd (fill (dropDirectories (q ++ [c]))) := by
  refine ⟨?_, ?_, hc.fill, ?_⟩
  · obtain ⟨q', hq'⟩ := dropDirectoriesFrom_last hne 0 q
    intro d hd
    rw [dropDirectories, hq', fill, List.map_append] at hd
    obtain rfl : fillChar c = d := by simpa using hd
    exact fillChar_space hsp
  · intro hm
    obtain ⟨d, hd, he⟩ := List.mem_map.mp hm
    rw [fillChar_eq (by decide) he] at hd
    rcases mem_dropDirectoriesFrom hd with h | h
    · exact absurd h (by decide)
    · exact hb h
  · rw [lastSegment_fill]
    exact hl.fill

/-- A pattern whose text can end a path matches a path: that text, or the text
below the directory `xx` when the pattern begins with directories. -/
theorem exists_path {r : Str} (hhead : ∀ c, r.head? = some c → isSpace c = false ∧ c ≠ '/')
    (hend : PathEnd (fill (dropDirectories r))) :
    ∃ path : RepositoryPath, GlobBody notLineFeed r path.1 := by
  have hx : notLineFeed 'x' := by decide
  by_cases hd : ∃ n p', 2 ≤ n ∧ r = stars n ++ '/' :: p'
  · obtain ⟨n, p', hn, rfl⟩ := hd
    obtain ⟨m, rfl⟩ : ∃ m, n = m + 1 := ⟨n - 1, by omega⟩
    rw [dropDirectories_directories hn] at hend
    have hall : ∀ c ∈ fill (stars (m + 1)), c = 'x' := by
      rw [fill_stars]
      exact fun c hc => List.eq_of_mem_replicate hc
    have hsegment : OkSegment (fill (stars (m + 1))) :=
      (OkSegment.of_suffix (s := ['*']) (by decide) ⟨stars m, (stars_succ m).symm⟩).fill
    have hbelow := hend.below hsegment (fun h => absurd (hall _ h) (by decide))
      (fun h => absurd (hall _ h) (by decide))
    refine ⟨⟨_, hbelow.repositoryPath ?_⟩, ?_⟩
    · intro c hc
      rw [fill_stars, List.replicate_succ] at hc
      obtain rfl : 'x' = c := by simpa using hc
      decide
    · have := GlobBody.directories hn (u := fill (stars (m + 1)) ++ ['/']) (.inr ⟨_, rfl⟩)
        (List.forall_mem_append.mpr ⟨fun c hc => hall c hc ▸ hx, by simp [notLineFeed]⟩)
        (globBody_dropDirectories hx 0 p')
      rw [List.append_assoc] at this
      exact this
  · refine ⟨⟨_, hend.repositoryPath ?_⟩, globBody_dropDirectories hx 0 r⟩
    cases r with
    | nil => intro c hc; cases hc
    | cons d r =>
      intro c hc
      obtain ⟨hsp, hne⟩ := hhead d rfl
      by_cases hstar : d = '*'
      · subst hstar
        rcases dropDirectoriesFrom_head (n := 1) (by omega) r with ⟨k, p', rfl, hk⟩ | h
        · exact absurd ⟨k + 1, p', by omega, rfl⟩ hd
        · change (List.map fillChar (dropDirectoriesFrom 1 r)).head? = some c at hc
          rw [List.head?_map, h] at hc
          obtain rfl : 'x' = c := by simpa [fillChar] using hc
          decide
      · rw [dropDirectories_char hstar] at hc
        obtain rfl : fillChar d = c := by simpa [fill] using hc
        exact ⟨fillChar_space hsp, fun e => hne ((fillChar_slash d).mp e)⟩

theorem mem_of_removePrefix {c d : Char} {s : Str} (h : d ∈ removePrefix c s) : d ∈ s := by
  cases s with
  | nil => exact h
  | cons e s =>
    rw [removePrefix] at h
    split at h
    · exact List.mem_cons_of_mem _ h
    · exact h

theorem recursiveBody_last {body : Str} (hne : body ≠ []) : ∃ q c, recursiveBody body = q ++ [c] ∧ c ≠ '/' ∧
    (c = '*' ∨ body.getLast? = some c) := by
  by_cases he : endsWith '/' body = true
  · obtain ⟨y, rfl⟩ := endsWith_iff.mp he
    exact ⟨y ++ ['/', '*'], '*', by rw [recursiveBody_slash]; simp, by decide, .inl rfl⟩
  · obtain ⟨q, c, rfl⟩ := (List.eq_nil_or_concat' body).resolve_left hne
    refine ⟨q, c, recursiveBody_self (by simpa using he), ?_, .inr (by simp)⟩
    rintro rfl
    exact he (endsWith_iff.mpr ⟨q, rfl⟩)

theorem recursiveBody_head {body : Str} (hne : body ≠ []) : (recursiveBody body).head? = body.head? := by
  unfold recursiveBody
  split
  · cases body with
    | nil => exact absurd rfl hne
    | cons c body => rfl
  · rfl

/-- The body of a pattern that does not start blank begins and ends with no
whitespace. -/
theorem body_ends {value : Str} (hv : validatePattern value = .ok value) (hblank : ¬ StartsBlank value) :
    (∀ c, (removePrefix '/' value).head? = some c → isSpace c = false) ∧
      ∀ c, (removePrefix '/' value).getLast? = some c → isSpace c = false := by
  obtain ⟨hstrip, -, -, -, -, -, -, hbody, -⟩ := validatePattern_eq_ok.mp hv
  obtain ⟨hhead, hlast⟩ := strip_eq_self.mp hstrip
  cases value with
  | nil => exact absurd rfl hbody
  | cons d value =>
    rw [removePrefix] at hbody ⊢
    split at hbody
    · rename_i hd
      subst hd
      rw [if_pos rfl]
      refine ⟨?_, fun c hc => hlast c (by rw [List.getLast?_cons_of_ne_nil hbody, hc])⟩
      intro c hc
      cases value with
      | nil => cases hc
      | cons e rest =>
        obtain rfl : e = c := by simpa using hc
        by_contra hs
        exact hblank ⟨e, rest, rfl, by simpa using hs⟩
    · rename_i hd
      rw [if_neg hd]
      exact ⟨hhead, hlast⟩

/-- An accepted pattern matches a repository path exactly when it does not
begin with a slash and whitespace and can end in a segment. -/
theorem pattern_live_iff {pattern value : Str} {regex : Regex Char}
    (hv : validatePattern pattern = .ok value) (hr : compilePattern pattern = .ok regex) :
    (∃ path : RepositoryPath, regex.fullmatch path.1 = true) ↔ ¬ StartsBlank value ∧ ¬ EmptyLast value := by
  rw [compilePattern_ok hv hr]
  simp only [fullmatch_patternRegex]
  constructor
  · rintro ⟨path, h⟩
    exact ⟨fun hs => not_globMatches_of_startsBlank hs path h,
      fun hs => not_globMatches_of_emptyLast hs path h⟩
  · rintro ⟨hblank, hempty⟩
    have hself := validatePattern_idem hv
    obtain ⟨-, -, -, -, -, hback, -, hne, -⟩ := validatePattern_eq_ok.mp hself
    obtain ⟨hhead, hlast⟩ := body_ends hself hblank
    obtain ⟨front, k, hbody, he, hc, hl⟩ := accepted_body hself
    obtain ⟨hclosed, hok⟩ := recursiveBody_segments he hc hl (k := k) fun y hy hend => by
      by_contra hn
      exact hempty ⟨y, hbody.trans hy, hend, hn⟩
    rw [← hbody] at hclosed hok
    obtain ⟨q, c, hq, hslash, hcl⟩ := recursiveBody_last hne
    have hsp : isSpace c = false := hcl.elim (fun e => by rw [e]; decide) (hlast c)
    have hescape : '\\' ∉ recursiveBody (removePrefix '/' value) := by
      intro hm
      unfold recursiveBody at hm
      split at hm
      · rw [List.mem_append] at hm
        exact hback (mem_of_removePrefix (hm.resolve_right (by decide)))
      · exact hback (mem_of_removePrefix hm)
    have hend : PathEnd (fill (dropDirectories (recursiveBody (removePrefix '/' value)))) := by
      rw [hq] at hclosed hok hescape ⊢
      exact pathEnd_fill hslash hsp hescape hclosed hok
    obtain ⟨path, hpath⟩ := exists_path (r := recursiveBody (removePrefix '/' value)) (fun d hd => by
      rw [recursiveBody_head hne] at hd
      refine ⟨hhead d hd, ?_⟩
      rintro rfl
      rw [hbody] at hd
      cases front with
      | nil => exact hl.1 rfl
      | cons e front =>
        obtain rfl : e = '/' := by simpa using hd
        rw [ClosedFrom, if_pos rfl] at hc
        exact hc.1.1 rfl) hend
    exact ⟨path, [], path.1, [], by simp, .inl rfl, hpath, .inl rfl⟩

example : ¬ EmptyLast "a**/.**//" := by
  rintro ⟨front, hf, -, hb⟩
  have he : "a**/.**/".toList ++ ['/'] = front ++ ['/'] := hf
  obtain rfl := List.append_cancel_right he
  exact hb (by decide)

theorem samplePattern_live : (∃ path : RepositoryPath, (patternRegex "docs/**").fullmatch path.1 = true) ↔
    ¬ StartsBlank "docs/**" ∧ ¬ EmptyLast "docs/**" :=
  pattern_live_iff (show validatePattern "docs/**" = .ok "docs/**" by decide) rfl

/-- The validator strips both slashes and sees the segment `a`; the compiled
expression asks for an empty segment. -/
theorem doubleSlash_dead : validatePattern "a//" = .ok "a//" ∧ compilePattern "a//" = .ok (patternRegex "a//") ∧
    ∀ path : RepositoryPath, (patternRegex "a//").fullmatch path.1 = false := by
  refine ⟨by decide, rfl, fun path => ?_⟩
  rw [Bool.eq_false_iff, ne_eq, fullmatch_patternRegex]
  exact not_globMatches_of_emptyLast ⟨"a/", rfl, by decide, by decide⟩ path

end ExtraCodeowners
