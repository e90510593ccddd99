import ExtraCodeowners.Codeowners

/-!
# Reference semantics of CODEOWNERS globs

`GlobMatches wide` reads a pattern directly, without regular expressions.
`wide` says which characters `**`, an unanchored start and a directory suffix
may stand for: every character in the reference, every character but the line
feed in the compiled expression.
-/

namespace ExtraCodeowners

inductive GlobBody (wide : Char → Prop) : Str → Str → Prop
  | nil : GlobBody wide [] []
  | directories {n p u s} : 2 ≤ n → (u = [] ∨ ∃ v, u = v ++ ['/']) → (∀ c ∈ u, wide c) →
      GlobBody wide p s → GlobBody wide (List.replicate n '*' ++ '/' :: p) (u ++ s)
  | anything {n p u s} : 2 ≤ n → p.head? ≠ some '*' → p.head? ≠ some '/' → (∀ c ∈ u, wide c) →
      GlobBody wide p s → GlobBody wide (List.replicate n '*' ++ p) (u ++ s)
  | run {p u s} : p.head? ≠ some '*' → '/' ∉ u → GlobBody wide p s →
      GlobBody wide ('*' :: p) (u ++ s)
  | one {c p s} : c ≠ '/' → GlobBody wide p s → GlobBody wide ('?' :: p) (c :: s)
  | literal {c p s} : c ≠ '*' → c ≠ '?' → GlobBody wide p s → GlobBody wide (c :: p) (c :: s)

/-- A leading slash, or one that is not trailing, anchors the pattern at the
root; otherwise it may start at any segment. A trailing slash appends `**`. A
final segment without wildcards also matches what lies below it. -/
def GlobMatches (wide : Char → Prop) (pattern path : Str) : Prop :=
  let body := removePrefix '/' pattern
  let recursive := if endsWith '/' body then body ++ ['*', '*'] else body
  let anchored := startsWith '/' pattern = true ∨ '/' ∈ rstripSlash pattern
  let literal := '*' ∉ finalSegment body ∧ '?' ∉ finalSegment body
  ∃ u s t, path = u ++ (s ++ t) ∧
    (u = [] ∨ ¬ anchored ∧ (∃ v, u = v ++ ['/']) ∧ ∀ c ∈ u, wide c) ∧
    GlobBody wide recursive s ∧
    (t = [] ∨ literal ∧ ∃ v, t = '/' :: v ∧ ∀ c ∈ v, wide c)

abbrev anyChar : Char → Prop := fun _ => True

abbrev notLineFeed : Char → Prop := fun c => c ≠ '\n'

/-! ## Reading a body from the left -/

section
variable {wide : Char → Prop}

theorem dropWhile_replicate_append {n : Nat} {a : Char} {x : Str} (hx : x.head? ≠ some a) :
    (List.replicate n a ++ x).dropWhile (· = a) = x := by
  induction n with
  | zero =>
    cases x with
    | nil => rfl
    | cons b x =>
      have : b ≠ a := fun h => hx (by simp [h])
      simp [this]
  | succ n ih => simpa [List.replicate_succ] using ih

theorem stars_unique {n k : Nat} {x y : Str} (hx : x.head? ≠ some '*') (hy : y.head? ≠ some '*')
    (h : List.replicate n '*' ++ x = List.replicate k '*' ++ y) : n = k ∧ x = y := by
  have hxy : x = y := by
    rw [← dropWhile_replicate_append (n := n) hx, h, dropWhile_replicate_append hy]
  refine ⟨?_, hxy⟩
  have := congrArg List.length h
  simp only [List.length_append, List.length_replicate, hxy] at this
  omega

theorem stars_head {n : Nat} (hn : 2 ≤ n) (x : Str) :
    ∃ y, List.replicate n '*' ++ x = '*' :: y ∧ y.head? = some '*' := by
  obtain ⟨m, rfl⟩ : ∃ m, n = m + 2 := ⟨n - 2, by omega⟩
  exact ⟨'*' :: (List.replicate m '*' ++ x), by simp [List.replicate_succ], rfl⟩

theorem globBody_nil {s : Str} : GlobBody wide [] s ↔ s = [] := by
  constructor
  · intro h
    generalize hp : ([] : Str) = p at h
    cases h with
    | nil => rfl
    | directories => simp at hp
    | anything hn =>
      obtain ⟨y, hy, -⟩ := stars_head hn _
      rw [hy] at hp; cases hp
    | run => cases hp
    | one => cases hp
    | literal => cases hp
  · rintro rfl; exact .nil

theorem globBody_directories {n : Nat} {p s : Str} (hn : 2 ≤ n) :
    GlobBody wide (List.replicate n '*' ++ '/' :: p) s ↔
      ∃ u v, s = u ++ v ∧ ((u = [] ∨ ∃ w, u = w ++ ['/']) ∧ ∀ c ∈ u, wide c) ∧
        GlobBody wide p v := by
  constructor
  · intro h
    generalize hp : List.replicate n '*' ++ '/' :: p = q at h
    cases h with
    | nil => simp at hp
    | @directories k p' u v hk hu hw hb =>
      obtain ⟨-, h⟩ := stars_unique (by simp) (by simp) hp
      cases h
      exact ⟨u, v, rfl, ⟨hu, hw⟩, hb⟩
    | @anything k p' u v hk h₁ h₂ hw hb =>
      obtain ⟨-, h⟩ := stars_unique (by simp) h₁ hp
      exact absurd (by rw [← h]; rfl) h₂
    | @run p' u v h₁ =>
      obtain ⟨y, hy, hy'⟩ := stars_head hn ('/' :: p)
      rw [hy] at hp; cases hp
      exact absurd hy' h₁
    | one =>
      obtain ⟨y, hy, -⟩ := stars_head hn ('/' :: p)
      rw [hy] at hp; simp at hp
    | literal h₁ =>
      obtain ⟨y, hy, -⟩ := stars_head hn ('/' :: p)
      rw [hy] at hp; cases hp
      exact absurd rfl h₁
  · rintro ⟨u, v, rfl, ⟨hu, hw⟩, hb⟩
    exact .directories hn hu hw hb

theorem globBody_anything {n : Nat} {p s : Str} (hn : 2 ≤ n) (h₁ : p.head? ≠ some '*')
    (h₂ : p.head? ≠ some '/') :
    GlobBody wide (List.replicate n '*' ++ p) s ↔
      ∃ u v, s = u ++ v ∧ (∀ c ∈ u, wide c) ∧ GlobBody wide p v := by
  constructor
  · intro h
    generalize hp : List.replicate n '*' ++ p = q at h
    cases h with
    | nil =>
      obtain ⟨y, hy, -⟩ := stars_head hn p
      rw [hy] at hp; cases hp
    | @directories k p' u v hk hu hw hb =>
      obtain ⟨-, h⟩ := stars_unique h₁ (by simp) hp
      exact absurd (by rw [h]; rfl) h₂
    | @anything k p' u v hk h₁' h₂' hw hb =>
      obtain ⟨-, h⟩ := stars_unique h₁ h₁' hp
      subst h
      exact ⟨u, v, rfl, hw, hb⟩
    | @run p' u v h₁' =>
      obtain ⟨y, hy, hy'⟩ := stars_head hn p
      rw [hy] at hp; cases hp
      exact absurd hy' h₁'
    | one =>
      obtain ⟨y, hy, -⟩ := stars_head hn p
      rw [hy] at hp; simp at hp
    | literal h₁' =>
      obtain ⟨y, hy, -⟩ := stars_head hn p
      rw [hy] at hp; cases hp
      exact absurd rfl h₁'
  · rintro ⟨u, v, rfl, hw, hb⟩
    exact .anything hn h₁ h₂ hw hb

theorem globBody_run {p s : Str} (h₁ : p.head? ≠ some '*') :
    GlobBody wide ('*' :: p) s ↔ ∃ u v, s = u ++ v ∧ '/' ∉ u ∧ GlobBody wide p v := by
  constructor
  · intro h
    generalize hp : '*' :: p = q at h
    cases h with
    | nil => cases hp
    | directories hn =>
      obtain ⟨y, hy, hy'⟩ := stars_head hn _
      rw [hy] at hp; cases hp
      exact absurd hy' h₁
    | anything hn =>
      obtain ⟨y, hy, hy'⟩ := stars_head hn _
      rw [hy] at hp; cases hp
      exact absurd hy' h₁
    | @run p' u v h₁' hu hb =>
      cases hp
      exact ⟨u, v, rfl, hu, hb⟩
    | one => simp at hp
    | literal h₁' =>
      cases hp
      exact absurd rfl h₁'
  · rintro ⟨u, v, rfl, hu, hb⟩
    exact .run h₁ hu hb

theorem globBody_one {p s : Str} :
    GlobBody wide ('?' :: p) s ↔ ∃ c v, s = c :: v ∧ c ≠ '/' ∧ GlobBody wide p v := by
  constructor
  · intro h
    generalize hp : '?' :: p = q at h
    cases h with
    | nil => cases hp
    | directories hn =>
      obtain ⟨y, hy, -⟩ := stars_head hn _
      rw [hy] at hp; simp at hp
    | anything hn =>
      obtain ⟨y, hy, -⟩ := stars_head hn _
      rw [hy] at hp; simp at hp
    | run => simp at hp
    | @one c p' v hc hb =>
      cases hp
      exact ⟨c, v, rfl, hc, hb⟩
    | literal _ h₂ =>
      cases hp
      exact absurd rfl h₂
  · rintro ⟨c, v, rfl, hc, hb⟩
    exact .one hc hb

theorem globBody_literal {c : Char} {p s : Str} (h₁ : c ≠ '*') (h₂ : c ≠ '?') :
    GlobBody wide (c :: p) s ↔ ∃ v, s = c :: v ∧ GlobBody wide p v := by
  constructor
  · intro h
    generalize hp : c :: p = q at h
    cases h with
    | nil => cases hp
    | directories hn =>
      obtain ⟨y, hy, -⟩ := stars_head hn _
      rw [hy] at hp; cases hp
      exact absurd rfl h₁
    | anything hn =>
      obtain ⟨y, hy, -⟩ := stars_head hn _
      rw [hy] at hp; cases hp
      exact absurd rfl h₁
    | run => cases hp; exact absurd rfl h₁
    | one => cases hp; exact absurd rfl h₂
    | @literal c' p' v _ _ hb =>
      cases hp
      exact ⟨v, rfl, hb⟩
  · rintro ⟨v, rfl, hb⟩
    exact .literal h₁ h₂ hb

/-- Only the characters of the matched string matter to `wide`. -/
theorem GlobBody.imp {wide' : Char → Prop} {p s : Str} (h : GlobBody wide p s)
    (hw : ∀ c ∈ s, wide c → wide' c) : GlobBody wide' p s := by
  induction h with
  | nil => exact .nil
  | directories hn hu hc _ ih =>
    exact .directories hn hu (fun c m => hw c (by simp [m]) (hc c m)) (ih fun c m => hw c (by simp [m]))
  | anything hn h₁ h₂ hc _ ih =>
    exact .anything hn h₁ h₂ (fun c m => hw c (by simp [m]) (hc c m)) (ih fun c m => hw c (by simp [m]))
  | run h₁ hu _ ih => exact .run h₁ hu (ih fun c m => hw c (by simp [m]))
  | one hc _ ih => exact .one hc (ih fun c m => hw c (by simp [m]))
  | literal h₁ h₂ _ ih => exact .literal h₁ h₂ (ih fun c m => hw c (by simp [m]))

theorem GlobMatches.imp {wide' : Char → Prop} {p s : Str} (h : GlobMatches wide p s)
    (hw : ∀ c ∈ s, wide c → wide' c) : GlobMatches wide' p s := by
  obtain ⟨u, v, t, rfl, hu, hb, ht⟩ := h
  refine ⟨u, v, t, rfl, ?_, hb.imp fun c m => hw c (by simp [m]), ?_⟩
  · refine hu.imp_right fun ⟨ha, hv, hc⟩ => ⟨ha, hv, fun c m => hw c (by simp [m]) (hc c m)⟩
  · refine ht.imp_right fun ⟨hl, w, hw', hc⟩ => ⟨hl, w, hw', fun c m => ?_⟩
    exact hw c (by simp [hw', m]) (hc c m)

end

/-! ## The compiled expression -/

theorem mem_dotStar {s : Str} : s ∈ dotStar.language ↔ ∀ c ∈ s, notLineFeed c := by
  simp [dotStar, notLineFeed]

theorem mem_optionalDirectories {s : Str} :
    s ∈ optionalDirectories.language ↔
      (s = [] ∨ ∃ v, s = v ++ ['/']) ∧ ∀ c ∈ s, notLineFeed c := by
  unfold optionalDirectories
  rw [Regex.mem_opt, Regex.mem_seq_cons]
  constructor
  · rintro (rfl | ⟨u, v, rfl, hu, hv⟩)
    · exact ⟨Or.inl rfl, by simp⟩
    · obtain ⟨x, y, rfl, ⟨c, hc, rfl⟩, hy⟩ := Regex.mem_seq_cons.mp hv
      rw [Regex.seq_nil, Regex.mem_eps] at hy
      subst hy
      have hc' : c = '/' := by simpa using hc
      subst hc'
      refine ⟨Or.inr ⟨u, by simp⟩, ?_⟩
      intro d hd
      rcases List.mem_append.mp hd with hd | hd
      · exact mem_dotStar.mp hu d hd
      · simp only [List.append_nil, List.mem_singleton] at hd
        subst hd; decide
  · rintro ⟨rfl | ⟨v, rfl⟩, hc⟩
    · exact Or.inl rfl
    · refine Or.inr ⟨v, ['/'], rfl, mem_dotStar.mpr fun c m => hc c (by simp [m]), ?_⟩
      exact Regex.mem_seq_cons.mpr ⟨['/'], [], rfl, ⟨'/', by decide, rfl⟩, rfl⟩

theorem mem_notSlash_star {s : Str} : s ∈ (Regex.star notSlash).language ↔ '/' ∉ s := by
  unfold notSlash
  rw [Regex.mem_star_sat]
  constructor
  · intro h m
    simpa using h '/' m
  · intro h c m
    simp only [bne_iff_ne, ne_eq]
    rintro rfl; exact h m

/-- The star run at the head of a text and what follows it. -/
theorem exists_stars (rest : Str) :
    ∃ n, '*' :: '*' :: rest = List.replicate (n + 2) '*' ++ rest.dropWhile (· = '*') ∧
      (rest.dropWhile (· = '*')).head? ≠ some '*' := by
  refine ⟨(rest.takeWhile (· = '*')).length, ?_, ?_⟩
  · have hstars : rest.takeWhile (· = '*') = List.replicate (rest.takeWhile (· = '*')).length '*' :=
      List.eq_replicate_of_mem fun c m => by simpa using List.mem_takeWhile_imp m
    rw [List.replicate_succ, List.replicate_succ, ← hstars]
    simp [List.takeWhile_append_dropWhile]
  · intro h
    have := List.head?_dropWhile_not (fun c => decide (c = '*')) rest
    rw [h] at this
    simp at this

theorem translateLoop_stars {n : Nat} {rest rest' : Str} {c : Char}
    (h : rest.dropWhile (· = '*') = c :: rest') (hc : c ≠ '/') :
    translateLoop (n + 1) ('*' :: '*' :: rest) = dotStar :: translateLoop n (c :: rest') := by
  rw [translateLoop, h]
  split
  · rename_i heq; cases heq; exact absurd rfl hc
  · rfl

theorem translateLoop_run {n : Nat} {rest : Str} (h : rest.head? ≠ some '*') :
    translateLoop (n + 1) ('*' :: rest) = .star notSlash :: translateLoop n rest := by
  cases rest with
  | nil => rfl
  | cons c rest =>
    have hc : c ≠ '*' := fun e => h (by simp [e])
    rw [translateLoop]
    rintro rest' e
    cases e; exact hc rfl

theorem translateLoop_literal {n : Nat} {c : Char} {rest : Str} (h₁ : c ≠ '*') (h₂ : c ≠ '?') :
    translateLoop (n + 1) (c :: rest) = .sat (· == c) :: translateLoop n rest := by
  rw [translateLoop]
  all_goals simp_all

theorem mem_translateLoop : ∀ (n : Nat) (p s : Str), p.length ≤ n →
    (s ∈ (Regex.seq (translateLoop n p)).language ↔ GlobBody notLineFeed p s)
  | 0, p, s, hp => by
    have : p = [] := List.length_eq_zero_iff.mp (Nat.le_zero.mp hp)
    subst this
    rw [globBody_nil]; rfl
  | n + 1, [], s, _ => by
    rw [globBody_nil]; rfl
  | n + 1, c :: rest, s, hp => by
    simp only [List.length_cons] at hp
    by_cases hstar : c = '*'
    · subst hstar
      by_cases hnext : rest.head? = some '*'
      · -- a run of at least two stars
        obtain ⟨rest, rfl⟩ : ∃ t, rest = '*' :: t := by
          cases rest with
          | nil => cases hnext
          | cons d t => cases hnext; exact ⟨t, rfl⟩
        obtain ⟨k, hk, hhead⟩ := exists_stars rest
        have hlen : (rest.dropWhile (· = '*')).length ≤ rest.length :=
          (List.dropWhile_suffix _).length_le
        simp only [List.length_cons] at hp
        cases hr : rest.dropWhile (· = '*') with
        | nil =>
          have ht : translateLoop (n + 1) ('*' :: '*' :: rest) = dotStar :: translateLoop n [] := by
            rw [translateLoop, hr]
          rw [ht, hk, hr, globBody_anything (by omega) (by simp) (by simp), Regex.mem_seq_cons]
          simp only [mem_dotStar, mem_translateLoop n [] _ (by simp)]
        | cons c rest' =>
          rw [hr] at hlen hhead
          simp only [List.length_cons] at hlen
          by_cases hc : c = '/'
          · subst hc
            have ht : translateLoop (n + 1) ('*' :: '*' :: rest) =
                optionalDirectories :: translateLoop n rest' := by
              rw [translateLoop, hr]; rfl
            rw [ht, hk, hr, globBody_directories (by omega), Regex.mem_seq_cons]
            simp only [mem_optionalDirectories, mem_translateLoop n rest' _ (by omega)]
          · have hslash : (c :: rest').head? ≠ some '/' := by simpa using hc
            rw [translateLoop_stars hr hc, hk, hr, globBody_anything (by omega) hhead hslash,
              Regex.mem_seq_cons]
            simp only [mem_dotStar, mem_translateLoop n (c :: rest') _ (by simp; omega)]
      · rw [translateLoop_run hnext, globBody_run hnext, Regex.mem_seq_cons]
        simp only [mem_notSlash_star, mem_translateLoop n rest _ (by omega)]
    · by_cases hone : c = '?'
      · subst hone
        rw [globBody_one]
        change s ∈ (Regex.seq (notSlash :: translateLoop n rest)).language ↔ _
        rw [Regex.mem_seq_cons]
        simp only [mem_translateLoop n rest _ (by omega)]
        constructor
        · rintro ⟨u, v, rfl, ⟨c, hc, rfl⟩, hv⟩
          exact ⟨c, v, rfl, by simpa using hc, hv⟩
        · rintro ⟨c, v, rfl, hc, hv⟩
          exact ⟨[c], v, rfl, ⟨c, by simpa using hc, rfl⟩, hv⟩
      · rw [translateLoop_literal hstar hone, globBody_literal hstar hone, Regex.mem_seq_cons]
        simp only [mem_translateLoop n rest _ (by omega)]
        constructor
        · rintro ⟨u, v, rfl, ⟨d, hd, rfl⟩, hv⟩
          have : d = c := by simpa using hd
          subst this
          exact ⟨v, rfl, hv⟩
        · rintro ⟨v, rfl, hv⟩
          exact ⟨[c], v, rfl, ⟨c, by simp, rfl⟩, hv⟩

theorem mem_translate {p s : Str} :
    s ∈ (Regex.seq (translate p)).language ↔ GlobBody notLineFeed p s :=
  mem_translateLoop p.length p s le_rfl

theorem isAnchored_iff {pattern : Str} :
    isAnchored pattern = true ↔ startsWith '/' pattern = true ∨ '/' ∈ rstripSlash pattern := by
  simp [isAnchored]

theorem isLiteralDirectoryCandidate_iff {value : Str} :
    isLiteralDirectoryCandidate value = true ↔ '*' ∉ finalSegment value ∧ '?' ∉ finalSegment value := by
  simp [isLiteralDirectoryCandidate]

theorem mem_start {pattern u : Str} :
    u ∈ (Regex.seq (if isAnchored pattern then [] else [optionalDirectories])).language ↔
      u = [] ∨ ¬ (startsWith '/' pattern = true ∨ '/' ∈ rstripSlash pattern) ∧
        (∃ v, u = v ++ ['/']) ∧ ∀ c ∈ u, notLineFeed c := by
  by_cases h : isAnchored pattern = true
  · simp [h, isAnchored_iff.mp h]
  · have h' := fun e => h (isAnchored_iff.mpr e)
    rw [if_neg h, Regex.mem_seq_cons]
    constructor
    · rintro ⟨x, y, rfl, hx, hy⟩
      rw [Regex.seq_nil, Regex.mem_eps] at hy
      subst hy
      rw [List.append_nil]
      obtain ⟨rfl | hv, hc⟩ := mem_optionalDirectories.mp hx
      · exact Or.inl rfl
      · exact Or.inr ⟨h', hv, hc⟩
    · rintro (rfl | ⟨-, hv, hc⟩)
      · exact ⟨[], [], rfl, mem_optionalDirectories.mpr ⟨Or.inl rfl, by simp⟩, rfl⟩
      · exact ⟨u, [], by simp, mem_optionalDirectories.mpr ⟨Or.inr hv, hc⟩, rfl⟩

theorem mem_below {body t : Str} :
    t ∈ (Regex.seq (if isLiteralDirectoryCandidate body
      then [.opt (.seq [.sat (· == '/'), dotStar])] else [])).language ↔
      t = [] ∨ ('*' ∉ finalSegment body ∧ '?' ∉ finalSegment body) ∧
        ∃ v, t = '/' :: v ∧ ∀ c ∈ v, notLineFeed c := by
  by_cases h : isLiteralDirectoryCandidate body = true
  · have hl := isLiteralDirectoryCandidate_iff.mp h
    simp only [h, hl, if_true, not_false_eq_true, and_self, true_and, Regex.mem_seq_cons, Regex.mem_opt]
    constructor
    · rintro ⟨x, y, rfl, hx, hy⟩
      rw [Regex.seq_nil, Regex.mem_eps] at hy
      subst hy
      rw [List.append_nil]
      obtain rfl | ⟨a, b, rfl, ⟨c, hc, rfl⟩, v, w, rfl, hv, hw⟩ := hx
      · exact Or.inl rfl
      · rw [Regex.seq_nil, Regex.mem_eps] at hw
        subst hw
        have : c = '/' := by simpa using hc
        subst this
        exact Or.inr ⟨v, by simp, mem_dotStar.mp hv⟩
    · rintro (rfl | ⟨v, rfl, hv⟩)
      · exact ⟨[], [], rfl, Or.inl rfl, rfl⟩
      · exact ⟨'/' :: v, [], by simp, Or.inr ⟨['/'], v, rfl, ⟨'/', by decide, rfl⟩, v, [], by simp,
          mem_dotStar.mpr hv, rfl⟩, rfl⟩
  · have hl := fun e => h (isLiteralDirectoryCandidate_iff.mpr e)
    rw [if_neg h, Regex.seq_nil, Regex.mem_eps]
    constructor
    · exact Or.inl
    · rintro (ht | ⟨hw, -⟩)
      · exact ht
      · exact absurd hw hl

/-- The compiled expression reads a pattern as the reference does, except that
its dot stops at a line feed. -/
theorem fullmatch_patternRegex {pattern path : Str} :
    (patternRegex pattern).fullmatch path = true ↔ GlobMatches notLineFeed pattern path := by
  rw [Regex.fullmatch_iff]
  unfold patternRegex GlobMatches
  simp only [Regex.mem_seq_append, mem_start, mem_translate, mem_below]
  constructor
  · rintro ⟨x, t, rfl, ⟨u, s, rfl, hu, hs⟩, ht⟩
    exact ⟨u, s, t, by simp, hu, hs, ht⟩
  · rintro ⟨u, s, t, rfl, hu, hs, ht⟩
    exact ⟨u ++ s, t, by simp, ⟨u, s, rfl, hu, hs⟩, ht⟩

theorem globMatches_of_notLineFeed {pattern path : Str} (h : GlobMatches notLineFeed pattern path) :
    GlobMatches anyChar pattern path := h.imp fun _ _ _ => trivial

theorem globMatches_notLineFeed_iff {pattern path : Str} (h : '\n' ∉ path) :
    GlobMatches notLineFeed pattern path ↔ GlobMatches anyChar pattern path :=
  ⟨globMatches_of_notLineFeed, fun hg => hg.imp fun c hc _ => by rintro rfl; exact h hc⟩

/-! ## Last match wins -/

/-- What the reference applies to a path: the last matching rule, if any. -/
def IsLastMatch (document : CodeownersDocument) (path : RepositoryPath) : Option CodeownersRule → Prop
  | none => ∀ rule ∈ document.rules, ¬ GlobMatches anyChar rule.pattern path.1
  | some rule => ∃ earlier later, document.rules = earlier ++ rule :: later ∧
      GlobMatches anyChar rule.pattern path.1 ∧
      ∀ r ∈ later, ¬ GlobMatches anyChar r.pattern path.1

/-- The matcher, the rule lookup and a final catch-all rule behave on this path
as the reference says. -/
structure MeetsReference (path : RepositoryPath) : Prop where
  matcher : ∀ pattern value regex, validatePattern pattern = .ok value →
    compilePattern pattern = .ok regex →
    (regex.fullmatch path.1 = true ↔ GlobMatches anyChar value path.1)
  lookup : ∀ document : CodeownersDocument, IsLastMatch document path (document.ruleFor path) ∧
    document.ownersFor path = ((document.ruleFor path).map (·.owners)).getD []
  catchAll : ∀ (document : CodeownersDocument) rules rule, document.rules = rules ++ [rule] →
    rule.pattern = ("*" : Str) → rule.owners ≠ [] → document.ownersFor path ≠ []

theorem globBody_star {wide : Char → Prop} {s : Str} : GlobBody wide ['*'] s ↔ '/' ∉ s := by
  rw [globBody_run (by simp)]
  simp only [globBody_nil]
  constructor
  · rintro ⟨u, v, rfl, hu, rfl⟩; simpa using hu
  · intro h; exact ⟨s, [], by simp, h, rfl⟩

/-- `*` covers every path of the reference. -/
theorem globMatches_star (path : Str) : GlobMatches anyChar ['*'] path := by
  refine ⟨path.rdropWhile (· ≠ '/'), path.rtakeWhile (· ≠ '/'), [], ?_, ?_, ?_, Or.inl rfl⟩
  · rw [List.append_nil, List.rdropWhile_append_rtakeWhile]
  · rcases List.eq_nil_or_concat (path.rdropWhile (· ≠ '/')) with h | ⟨v, c, h⟩
    · exact Or.inl h
    · refine Or.inr ⟨by simp [startsWith, rstripSlash, List.rdropWhile], ⟨v, ?_⟩, fun _ _ => trivial⟩
      have hlast := List.rdropWhile_last_not (fun c : Char => decide (c ≠ '/')) path (by rw [h]; simp)
      simp only [h] at hlast
      simp at hlast
      rw [h, hlast]; simp
  · change GlobBody anyChar ['*'] _
    rw [globBody_star]
    intro hm
    simpa using List.mem_rtakeWhile_imp hm

/-- `**` covers a path of the compiled matcher only when no line feed is in it. -/
theorem globMatches_stars {path : Str} : GlobMatches notLineFeed ['*', '*'] path ↔ '\n' ∉ path := by
  constructor
  · rintro ⟨u, s, t, rfl, hu, hs, ht⟩ hm
    change GlobBody notLineFeed (List.replicate 2 '*' ++ []) s at hs
    rw [globBody_anything (by omega) (by simp) (by simp)] at hs
    obtain ⟨x, y, rfl, hx, hy⟩ := hs
    rw [globBody_nil] at hy
    subst hy
    simp only [List.append_nil, List.mem_append] at hm
    rcases hm with hm | hm | hm
    · rcases hu with rfl | ⟨-, -, hu⟩
      · cases hm
      · exact hu _ hm rfl
    · exact hx _ hm rfl
    · rcases ht with rfl | ⟨hl, -⟩
      · cases hm
      · exact absurd (by decide) hl.1
  · intro h
    refine ⟨[], path, [], by simp, Or.inl rfl, ?_, Or.inl rfl⟩
    change GlobBody notLineFeed (List.replicate 2 '*' ++ []) path
    rw [globBody_anything (by omega) (by simp) (by simp)]
    exact ⟨path, [], by simp, fun c hc => by rintro rfl; exact h hc, .nil⟩

theorem compilePattern_ok {pattern value : Str} {regex : Regex Char}
    (hv : validatePattern pattern = .ok value) (hc : compilePattern pattern = .ok regex) :
    regex = patternRegex value := by
  unfold compilePattern at hc
  rw [hv] at hc
  cases hc; rfl

/-- A path meets the reference for every pattern and document exactly when no
line feed is in it. -/
theorem meetsReference_iff (path : RepositoryPath) : MeetsReference path ↔ '\n' ∉ path.1 := by
  constructor
  · intro h
    have hv : validatePattern ['*', '*'] = .ok ['*', '*'] := by decide
    have hm := (h.matcher ['*', '*'] ['*', '*'] _ hv rfl).mpr
      ⟨[], path.1, [], by simp, Or.inl rfl, ?_, Or.inl rfl⟩
    · exact globMatches_stars.mp (fullmatch_patternRegex.mp hm)
    · change GlobBody anyChar (List.replicate 2 '*' ++ []) path.1
      rw [globBody_anything (by omega) (by simp) (by simp)]
      exact ⟨path.1, [], by simp, fun _ _ => trivial, .nil⟩
  · intro h
    have hrule : ∀ rule : CodeownersRule,
        rule.matchesNormalized path = true ↔ GlobMatches anyChar rule.pattern path.1 :=
      fun rule => fullmatch_patternRegex.trans (globMatches_notLineFeed_iff h)
    refine ⟨?_, ?_, ?_⟩
    · intro pattern value regex hv hc
      rw [compilePattern_ok hv hc, fullmatch_patternRegex, globMatches_notLineFeed_iff h]
    · intro document
      refine ⟨?_, ownersFor_eq document path⟩
      cases hr : document.ruleFor path with
      | none =>
        intro rule hm hg
        have := ruleFor_none.mp hr rule hm
        rw [(hrule rule).mpr hg] at this; cases this
      | some rule =>
        obtain ⟨earlier, later, he, hm, hl⟩ := ruleFor_some hr
        refine ⟨earlier, later, he, (hrule rule).mp hm, fun r hr hg => ?_⟩
        have := hl r hr
        rw [(hrule r).mpr hg] at this; cases this
    · intro document rules rule he hp ho
      have hm : rule.matchesNormalized path = true := by
        rw [hrule, hp]; exact globMatches_star path.1
      rw [ownersFor_eq, ruleFor_last he hm (by simp)]
      exact ho

/-- `*` does not reach the file `c` in the directory `a⏎b`, which the reference
matches. -/
theorem star_misses_line_feed_directory :
    ∃ h : normalizeRepositoryPath ("a\nb/c" : Str) = .ok ("a\nb/c" : Str),
      ¬ MeetsReference ⟨("a\nb/c" : Str), h⟩ ∧
      validatePattern ("*" : Str) = .ok ("*" : Str) ∧
      (patternRegex ("*" : Str)).fullmatch ("a\nb/c" : Str) = false ∧
      GlobMatches anyChar ("*" : Str) ("a\nb/c" : Str) := by
  refine ⟨by decide, ?_, by decide, by decide, globMatches_star _⟩
  intro h
  have hm := (h.matcher ("*" : Str) ("*" : Str) _ (by decide) rfl).mpr (globMatches_star _)
  exact absurd hm (by decide)

end ExtraCodeowners
