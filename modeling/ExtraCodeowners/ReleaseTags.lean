import ExtraCodeowners.ReleaseHistory

/-!
# Spellings of release tags

The tag of a version reads back as the version, but the pattern of a tag takes
the decimal digits of every script, so a version may have more than one tag.
-/

namespace ExtraCodeowners.Release

/-- What the tables promise: a decimal digit is worth less than ten. -/
class LawfulDigits [UnicodeTables] : Prop where
  digit_lt : ∀ c n, UnicodeTables.digit c = some n → n < 10

section
variable [UnicodeTables]

/-- A digit of any script as the ASCII digit of its value. -/
def asciiDigit (c : Char) : Char :=
  match digitValue c with
  | some n => n.digitChar
  | none => c

def asciiDigits (s : Str) : Str := s.map asciiDigit

omit [UnicodeTables] in
theorem digitChar_rebuild {c : Char} (h : c.isDigit = true) : (c.toNat - 48).digitChar = c := by
  rw [isDigit_iff] at h
  apply Char.toNat_inj.mp
  rw [Nat.toNat_digitChar_of_lt_ten (by omega)]
  omega

theorem asciiDigit_ascii {c : Char} (h : isAscii c = true) : asciiDigit c = c := by
  unfold asciiDigit digitValue
  rw [if_pos h]
  by_cases hd : c.isDigit = true
  · rw [if_pos hd]
    exact digitChar_rebuild hd
  · rw [if_neg hd]

theorem asciiDigits_ascii {s : Str} (h : ∀ c ∈ s, isAscii c = true) : asciiDigits s = s := by
  rw [asciiDigits]
  conv_rhs => rw [← List.map_id s]
  exact List.map_congr_left fun c hc => asciiDigit_ascii (h c hc)

theorem asciiDigits_append (s t : Str) : asciiDigits (s ++ t) = asciiDigits s ++ asciiDigits t :=
  List.map_append

theorem asciiDigits_cons {c : Char} (hc : isAscii c = true) (s : Str) :
    asciiDigits (c :: s) = c :: asciiDigits s := by
  rw [asciiDigits, List.map_cons, asciiDigit_ascii hc]
  rfl

theorem digitValue_lt [LawfulDigits] {c : Char} {n : Nat} (h : digitValue c = some n) : n < 10 := by
  unfold digitValue at h
  by_cases ha : isAscii c = true
  · rw [if_pos ha] at h
    by_cases hd : c.isDigit = true
    · rw [if_pos hd] at h
      rw [isDigit_iff] at hd
      cases h
      omega
    · rw [if_neg hd] at h
      cases h
  · rw [if_neg ha] at h
    exact LawfulDigits.digit_lt c n h

/-! ## Numerals -/

omit [UnicodeTables] in
theorem decimal_snoc {n d : Nat} (hn : 0 < n) (hd : d < 10) :
    decimal n ++ [d.digitChar] = decimal (10 * n + d) := by
  have h := Nat.toDigits_append_toDigits (by decide : 1 < 10) hn hd
  rwa [Nat.toDigits_of_lt_base hd, ← decimal_eq, ← decimal_eq] at h

/-- Digits behind a positive number spell the number that `int` goes on with. -/
theorem decimal_foldl [LawfulDigits] {s : Str} (hs : ∀ c ∈ s, isDecimal c = true) {n : Nat} (hn : 0 < n) :
    decimal n ++ asciiDigits s = decimal (s.foldl (fun n c => 10 * n + (digitValue c).getD 0) n) := by
  induction s generalizing n with
  | nil => exact List.append_nil _
  | cons c s ih =>
    rw [List.forall_mem_cons] at hs
    obtain ⟨d, hd⟩ := Option.isSome_iff_exists.mp hs.1
    have hc : asciiDigit c = d.digitChar := by rw [asciiDigit, hd]
    calc decimal n ++ asciiDigits (c :: s)
        = decimal n ++ [d.digitChar] ++ asciiDigits s := by
          rw [asciiDigits, List.map_cons, hc, ← List.append_cons]
          rfl
      _ = decimal (10 * n + d) ++ asciiDigits s := by rw [decimal_snoc hn (digitValue_lt hd)]
      _ = _ := by
          rw [ih hs.2 (by omega), List.foldl_cons, hd]
          rfl

theorem isDigit_of_positive {c : Char} {s : Str} (h : isPositiveNumber (c :: s) = true) :
    c.isDigit = true ∧ c ≠ '0' := by
  simp only [isPositiveNumber, Bool.and_eq_true, decide_eq_true_eq] at h
  have hone : 49 ≤ c.toNat := UInt32.le_iff_toNat_le.mp h.1.1
  have hnine : c.toNat ≤ 57 := UInt32.le_iff_toNat_le.mp h.1.2
  constructor
  · exact isDigit_iff.mpr ⟨by omega, hnine⟩
  · intro he
    rw [he] at hone
    exact absurd hone (by decide)

theorem decimal_intOfDigits_positive [LawfulDigits] {s : Str} (h : isPositiveNumber s = true) :
    0 < intOfDigits s ∧ decimal (intOfDigits s) = asciiDigits s := by
  cases s with
  | nil => cases h
  | cons c s =>
    obtain ⟨hdigit, hzero⟩ := isDigit_of_positive h
    have hs : ∀ d ∈ s, isDecimal d = true := by
      rw [isPositiveNumber, Bool.and_eq_true, List.all_eq_true] at h
      exact h.2
    have hv := digitValue_of_isDigit hdigit
    have hlt := digitValue_lt hv
    have hpos : 0 < c.toNat - 48 := by
      have hne : c.toNat ≠ '0'.toNat := fun e => hzero (Char.toNat_inj.mp e)
      have e48 : '0'.toNat = 48 := rfl
      have hle : 48 ≤ c.toNat := (isDigit_iff.mp hdigit).1
      omega
    have hfold : intOfDigits (c :: s) =
        s.foldl (fun n c => 10 * n + (digitValue c).getD 0) (c.toNat - 48) := by
      rw [intOfDigits, List.foldl_cons, hv, Option.getD_some, Nat.mul_zero, Nat.zero_add]
    have hgrow : ∀ (s : Str) (n : Nat), 0 < n →
        0 < s.foldl (fun n c => 10 * n + (digitValue c).getD 0) n := by
      intro s
      induction s with
      | nil => exact fun _ hn => hn
      | cons d s ih => exact fun n hn => ih (10 * n + (digitValue d).getD 0) (by omega)
    rw [hfold]
    refine ⟨hgrow s _ hpos, ?_⟩
    rw [← decimal_foldl hs hpos, decimal_eq, Nat.toDigits_of_lt_base hlt, asciiDigits_cons
      (isAscii_of_isDigit hdigit), digitChar_rebuild hdigit]
    rfl

theorem decimal_intOfDigits [LawfulDigits] {s : Str} (h : isNumber s = true) :
    decimal (intOfDigits s) = asciiDigits s := by
  rw [isNumber, Bool.or_eq_true, decide_eq_true_eq] at h
  rcases h with rfl | h
  · have hzero : intOfDigits ['0'] = 0 := rfl
    rw [hzero, asciiDigits_ascii (forall_mem_of_all (by decide))]
    rfl
  · exact (decimal_intOfDigits_positive h).2

/-! ## Accepted tags -/

def alphaSuffix (alpha : Option Str) : Str :=
  match alpha with
  | none => []
  | some digits => ("-alpha." : Str) ++ digits

theorem alphaGroup_some {s : Str} {alpha : Option Str} (h : alphaGroup s = some alpha) :
    s = alphaSuffix alpha ∧ ∀ digits, alpha = some digits → isPositiveNumber digits = true := by
  unfold alphaGroup at h
  by_cases hs : s = []
  · rw [if_pos hs] at h
    cases h
    exact ⟨hs, fun _ he => nomatch he⟩
  · rw [if_neg hs] at h
    by_cases hp : ("-alpha." : Str).isPrefixOf s = true ∧ isPositiveNumber (s.drop 7) = true
    · rw [if_pos hp] at h
      cases h
      refine ⟨?_, fun digits he => Option.some.inj he ▸ hp.2⟩
      obtain ⟨t, rfl⟩ := List.isPrefixOf_iff_prefix.mp hp.1
      rfl
    · rw [if_neg hp] at h
      cases h

theorem SEMVER_TAG_some {tag major minor patch : Str} {alpha : Option Str}
    (h : SEMVER_TAG tag = some (major, minor, patch, alpha)) :
    tag = 'v' :: (major ++ '.' :: (minor ++ '.' :: (patch ++ alphaSuffix alpha))) ∧
      isNumber major = true ∧ isNumber minor = true ∧ isNumber patch = true ∧
        ∀ digits, alpha = some digits → isPositiveNumber digits = true := by
  unfold SEMVER_TAG at h
  split at h
  · rename_i s₁
    dsimp only at h
    split at h
    · rename_i s₂ h₂
      split at h
      · rename_i s₃ h₃
        split at h
        · rename_i alpha' ha
          by_cases hn : (isNumber (s₁.takeWhile isDecimal) && isNumber (s₂.takeWhile isDecimal) &&
              isNumber (s₃.takeWhile isDecimal)) = true
          · rw [if_pos hn] at h
            simp only [Option.some.injEq, Prod.mk.injEq] at h
            obtain ⟨rfl, rfl, rfl, rfl⟩ := h
            simp only [Bool.and_eq_true] at hn
            obtain ⟨hsuffix, hpositive⟩ := alphaGroup_some ha
            refine ⟨?_, hn.1.1, hn.1.2, hn.2, hpositive⟩
            rw [← hsuffix, List.takeWhile_append_dropWhile, ← h₃, List.takeWhile_append_dropWhile, ← h₂,
              List.takeWhile_append_dropWhile]
          · rw [if_neg hn] at h
            cases h
        · cases h
      · cases h
    · cases h
  · cases h

theorem from_tag_ok {tag : Str} {v : Version} (h : Version.from_tag tag = .ok v) :
    ∃ major minor patch alpha, SEMVER_TAG tag = some (major, minor, patch, alpha) ∧
      v = ⟨intOfDigits major, intOfDigits minor, intOfDigits patch, alpha.map intOfDigits⟩ := by
  unfold Version.from_tag at h
  split at h
  · cases h
  · rename_i major minor patch alpha hm
    cases h
    exact ⟨major, minor, patch, alpha, hm, rfl⟩

theorem rendered_ascii [LawfulDigits] {alpha : Option Str}
    (h : ∀ digits, alpha = some digits → isPositiveNumber digits = true) (major minor patch : Nat) :
    Version.rendered ⟨major, minor, patch, alpha.map intOfDigits⟩ = asciiDigits (alphaSuffix alpha) := by
  cases alpha with
  | none =>
    change ([] : Str) = asciiDigits []
    rfl
  | some digits =>
    have hword : asciiDigits ("-alpha." : Str) = ("-alpha." : Str) :=
      asciiDigits_ascii (forall_mem_of_all (by decide))
    change ("-alpha." : Str) ++ decimal (intOfDigits digits) = asciiDigits (("-alpha." : Str) ++ digits)
    rw [asciiDigits_append, hword, (decimal_intOfDigits_positive (h digits rfl)).2]

/-- The tag of the version that a name reads as is the name in ASCII digits. -/
theorem tag_from_tag [LawfulDigits] {tag : Str} {v : Version} (h : Version.from_tag tag = .ok v) :
    v.tag = asciiDigits tag := by
  obtain ⟨major, minor, patch, alpha, hm, hv⟩ := from_tag_ok h
  obtain ⟨ht, hmajor, hminor, hpatch, halpha⟩ := SEMVER_TAG_some hm
  rw [hv, ht, Version.tag_eq, rendered_ascii halpha, decimal_intOfDigits hmajor,
    decimal_intOfDigits hminor, decimal_intOfDigits hpatch, asciiDigits_cons (by decide),
    asciiDigits_append, asciiDigits_cons (by decide), asciiDigits_append, asciiDigits_cons (by decide),
    asciiDigits_append]

theorem from_tag_alpha [LawfulDigits] {tag : Str} {v : Version} (h : Version.from_tag tag = .ok v) :
    v.alpha ≠ some 0 := by
  obtain ⟨major, minor, patch, alpha, hm, rfl⟩ := from_tag_ok h
  obtain ⟨-, -, -, -, halpha⟩ := SEMVER_TAG_some hm
  cases alpha with
  | none => simp
  | some digits =>
    have hd := (decimal_intOfDigits_positive (halpha digits rfl)).1
    simp only [Option.map_some, ne_eq, Option.some.injEq]
    omega

/-! ## One spelling -/

omit [UnicodeTables] in
theorem isAscii_decimal (n : Nat) : ∀ c ∈ decimal n, isAscii c = true :=
  fun _ hc => isAscii_of_isDigit (decimal_isDigit hc)

omit [UnicodeTables] in
theorem Version.tag_isAscii (v : Version) : ∀ c ∈ v.tag, isAscii c = true := by
  have hrendered : ∀ c ∈ v.rendered, isAscii c = true := by
    unfold Version.rendered
    cases v.alpha with
    | none => simp
    | some alpha =>
      rw [List.forall_mem_append]
      exact ⟨forall_mem_of_all (by decide), isAscii_decimal alpha⟩
  rw [Version.tag_eq]
  simp only [List.forall_mem_cons, List.forall_mem_append]
  exact ⟨rfl, isAscii_decimal _, rfl, isAscii_decimal _, rfl, isAscii_decimal _, hrendered⟩

theorem tag_eq_name [LawfulDigits] {name : Str} {v : Version} (h : Version.from_tag name = .ok v) :
    v.tag = name ↔ ∀ c ∈ name, isAscii c = true := by
  constructor
  · intro he
    rw [← he]
    exact v.tag_isAscii
  · intro ha
    rw [tag_from_tag h, asciiDigits_ascii ha]

theorem version_eq_iff [LawfulDigits] {s t : Str} {v w : Version} (hs : Version.from_tag s = .ok v)
    (ht : Version.from_tag t = .ok w) : v = w ↔ asciiDigits s = asciiDigits t := by
  rw [← tag_from_tag hs, ← tag_from_tag ht]
  constructor
  · intro he
    rw [he]
  · intro he
    have hv := from_tag_tag (from_tag_alpha hs)
    rw [he, from_tag_tag (from_tag_alpha ht)] at hv
    exact (Except.ok.inj hv).symm

omit [UnicodeTables] in
theorem Version.sort_key_inj {v w : Version} : v.sort_key = w.sort_key ↔ v = w := by
  obtain ⟨major, minor, patch, alpha⟩ := v
  obtain ⟨major', minor', patch', alpha'⟩ := w
  simp only [Version.sort_key, toLex_inj, Prod.mk.injEq, Version.mk.injEq]
  cases alpha with
  | none => cases alpha' <;> simp
  | some m => cases alpha' <;> simp

omit [UnicodeTables] in
theorem Version.sort_key_alpha (major minor patch m n : Nat) :
    Version.sort_key ⟨major, minor, patch, some m⟩ < Version.sort_key ⟨major, minor, patch, some n⟩ ↔
      m < n := by
  rw [Version.sort_key_lt]
  simp

omit [UnicodeTables] in
theorem Version.sort_key_stable (major minor patch m : Nat) :
    Version.sort_key ⟨major, minor, patch, some m⟩ < Version.sort_key ⟨major, minor, patch, none⟩ := by
  rw [Version.sort_key_lt]
  simp

variable {C : Type}

/-- A tag is the tag of its version exactly when it is spelled in ASCII, and two
tags share a version exactly when they differ in the scripts of their digits. -/
theorem release_tags_canonical [LawfulDigits] {r : GitRepository C} {tags : List (ReleaseTag C)}
    (h : read_release_tags r = .ok tags) :
    (∀ tag ∈ tags, Version.from_tag tag.name = .ok tag.version ∧
      (tag.version.tag = tag.name ↔ ∀ c ∈ tag.name, isAscii c = true)) ∧
    (∀ v : Version, v.alpha ≠ some 0 → Version.from_tag v.tag = .ok v) ∧
    (∀ s ∈ tags, ∀ t ∈ tags, s.name ≠ t.name →
      ((s.version ≠ t.version ∧ s.version.sort_key ≠ t.version.sort_key) ↔
        asciiDigits s.name ≠ asciiDigits t.name)) ∧
    ∀ major minor patch m n : Nat,
      (Version.sort_key ⟨major, minor, patch, some m⟩ < Version.sort_key ⟨major, minor, patch, some n⟩ ↔
        m < n) ∧
      Version.sort_key ⟨major, minor, patch, some m⟩ < Version.sort_key ⟨major, minor, patch, none⟩ := by
  have hread : ∀ tag ∈ tags, Version.from_tag tag.name = .ok tag.version := fun tag ht => read_tag h ht
  refine ⟨?_, fun v hv => from_tag_tag hv, ?_, ?_⟩
  · intro tag ht
    exact ⟨hread tag ht, tag_eq_name (hread tag ht)⟩
  · intro s hs t ht _
    have hv := version_eq_iff (hread s hs) (hread t ht)
    rw [Ne, Ne, Ne, Version.sort_key_inj, hv, and_self]
  · intro major minor patch m n
    exact ⟨Version.sort_key_alpha major minor patch m n, Version.sort_key_stable major minor patch m⟩

end

/-- The Arabic-Indic digits besides the ASCII ones. -/
@[reducible] def arabicTables : UnicodeTables where
  folding c := [c]
  alnum c := 0x660 ≤ c.toNat ∧ c.toNat ≤ 0x669
  digit c := if 0x660 ≤ c.toNat ∧ c.toNat ≤ 0x669 then some (c.toNat - 0x660) else none
  format _ := false

theorem arabicTables_lawful : @LawfulDigits arabicTables := by
  let _ := arabicTables
  refine ⟨fun c n h => ?_⟩
  change (if 0x660 ≤ c.toNat ∧ c.toNat ≤ 0x669 then some (c.toNat - 0x660) else none) = some n at h
  by_cases hc : 0x660 ≤ c.toNat ∧ c.toNat ≤ 0x669
  · rw [if_pos hc, Option.some.injEq] at h
    omega
  · rw [if_neg hc] at h
    exact absurd h (by simp)

def asciiName : Str := ['v', '1', '3', '.', '0', '.', '0']

def arabicName : Str := ['v', '1', '\u0663', '.', '0', '.', '0']

def spelledTwice : GitRepository Nat :=
  ⟨⟨fun _ _ => [], fun s => s, []⟩, 2, [(asciiName, some 1), (arabicName, some 2)]⟩

def spelledTwiceTags : List (ReleaseTag Nat) :=
  [⟨asciiName, ⟨13, 0, 0, none⟩, 1⟩, ⟨arabicName, ⟨13, 0, 0, none⟩, 2⟩]

theorem read_spelledTwice : let _ := arabicTables
    read_release_tags spelledTwice = .ok spelledTwiceTags := rfl

theorem ascii_name_canonical : let _ := arabicTables
    Version.from_tag asciiName = .ok ⟨13, 0, 0, none⟩ ∧
      (Version.tag ⟨13, 0, 0, none⟩ = asciiName ↔ ∀ c ∈ asciiName, isAscii c = true) :=
  let _ := arabicTables
  let _ := arabicTables_lawful
  (release_tags_canonical read_spelledTwice).1 ⟨asciiName, ⟨13, 0, 0, none⟩, 1⟩ List.mem_cons_self

/-- Both names are release tags of version 13.0.0, and only one is its tag. -/
theorem two_names_of_one_version : let _ := arabicTables
    read_release_tags spelledTwice =
      .ok [⟨asciiName, ⟨13, 0, 0, none⟩, 1⟩, ⟨arabicName, ⟨13, 0, 0, none⟩, 2⟩] ∧
      Version.tag ⟨13, 0, 0, none⟩ ≠ arabicName :=
  ⟨read_spelledTwice, by decide⟩

end ExtraCodeowners.Release
