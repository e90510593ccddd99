import ExtraCodeowners.Rendering

/-!
# Names of owners

An owner is spelled in ASCII, but the pattern ignores case and so takes two
letters beyond ASCII, and lower case turns the Kelvin sign into a letter of it.
A text is normalized as its ASCII spelling should be exactly when none of the
three stands for a letter of an owner.
-/

namespace ExtraCodeowners

/-! ## The pattern -/

def Component (head tail : Char → Bool) (s : Str) : Prop :=
  ∃ c rest, s = c :: rest ∧ head c = true ∧ ∀ d ∈ rest, tail d = true

/-- `@user` or `@org/team`, over the characters of a component. -/
def OwnerShape (head tail : Char → Bool) (s : Str) : Prop :=
  ∃ user team, s = '@' :: (user ++ team) ∧ Component head tail user ∧
    (team = [] ∨ ∃ name, team = '/' :: name ∧ Component head tail name)

theorem mem_component {head tail : Char → Bool} {rs : List (Regex Char)} {s : Str} :
    s ∈ (Regex.seq (.sat head :: .star (.sat tail) :: rs)).language ↔
      ∃ u v, s = u ++ v ∧ Component head tail u ∧ v ∈ (Regex.seq rs).language := by
  constructor
  · intro h
    obtain ⟨u, v, rfl, ⟨c, hc, rfl⟩, hv⟩ := Regex.mem_seq_cons.mp h
    obtain ⟨rest, v, rfl, hrest, hv⟩ := Regex.mem_seq_cons.mp hv
    exact ⟨c :: rest, v, rfl, ⟨c, rest, rfl, hc, Regex.mem_star_sat.mp hrest⟩, hv⟩
  · intro ⟨u, v, hs, ⟨c, rest, hu, hc, hrest⟩, hv⟩
    refine Regex.mem_seq_cons.mpr ⟨[c], rest ++ v, by rw [hs, hu]; rfl, ⟨c, hc, rfl⟩, ?_⟩
    exact Regex.mem_seq_cons.mpr ⟨rest, v, rfl, Regex.mem_star_sat.mpr hrest, hv⟩

theorem ownerRe_iff {s : Str} : ownerRe.fullmatch s = true ↔ OwnerShape isOwnerHead isOwnerTail s := by
  rw [Regex.fullmatch_iff]
  constructor
  · intro h
    obtain ⟨u, v, rfl, ⟨a, ha, rfl⟩, hv⟩ := Regex.mem_seq_cons.mp h
    obtain ⟨user, v, rfl, huser, hv⟩ := mem_component.mp hv
    obtain ⟨team, rest, rfl, hteam, rfl⟩ := Regex.mem_seq_cons.mp hv
    obtain rfl : a = '@' := by simpa using ha
    refine ⟨user, team, by simp, huser, ?_⟩
    rcases Regex.mem_opt.mp hteam with hteam | hteam
    · exact .inl hteam
    · obtain ⟨slash, w, rfl, ⟨b, hb, rfl⟩, hw⟩ := Regex.mem_seq_cons.mp hteam
      obtain ⟨name, rest, rfl, hname, rfl⟩ := mem_component.mp hw
      obtain rfl : b = '/' := by simpa using hb
      exact .inr ⟨name, by simp, hname⟩
  · intro ⟨user, team, hs, huser, hteam⟩
    have hopt : team ∈ (Regex.opt (.seq [.sat (· == '/'), .sat isOwnerHead, .star (.sat isOwnerTail)])).language := by
      rw [Regex.mem_opt]
      rcases hteam with hteam | ⟨name, hteam, hname⟩
      · exact .inl hteam
      · refine .inr (Regex.mem_seq_cons.mpr ⟨['/'], name, hteam, ⟨'/', rfl, rfl⟩, ?_⟩)
        exact mem_component.mpr ⟨name, [], by simp, hname, rfl⟩
    refine Regex.mem_seq_cons.mpr ⟨['@'], user ++ team, hs, ⟨'@', rfl, rfl⟩, ?_⟩
    exact mem_component.mpr ⟨user, team, rfl, huser,
      Regex.mem_seq_cons.mpr ⟨team, [], by simp, hopt, rfl⟩⟩

/-- A spelling that keeps the separators and the two classes keeps the shape. -/
theorem ownerShape_map {f g : Char → Char} {head tail head' tail' : Char → Bool} {s : Str}
    (hhead : ∀ c ∈ s, head (f c) = head' (g c)) (htail : ∀ c ∈ s, tail (f c) = tail' (g c))
    (hat : ∀ c ∈ s, f c = '@' ↔ g c = '@') (hslash : ∀ c ∈ s, f c = '/' ↔ g c = '/')
    (h : OwnerShape head tail (s.map f)) : OwnerShape head' tail' (s.map g) := by
  have hcomponent : ∀ u : Str, (∀ c ∈ u, c ∈ s) → Component head tail (u.map f) →
      Component head' tail' (u.map g) := by
    intro u hu ⟨c, rest, he, hc, hrest⟩
    obtain ⟨a, t, rfl, rfl, rfl⟩ := List.map_eq_cons_iff.mp he
    rw [List.forall_mem_cons] at hu
    refine ⟨g a, t.map g, rfl, ?_, ?_⟩
    · rw [← hhead a hu.1]
      exact hc
    · rw [List.forall_mem_map] at hrest ⊢
      intro d hd
      rw [← htail d (hu.2 d hd)]
      exact hrest d hd
  obtain ⟨user, team, he, huser, hteam⟩ := h
  obtain ⟨a, t, rfl, ha, ht⟩ := List.map_eq_cons_iff.mp he
  obtain ⟨u, v, rfl, rfl, rfl⟩ := List.map_eq_append_iff.mp ht
  refine ⟨u.map g, v.map g, ?_, hcomponent u (by simp +contextual) huser, ?_⟩
  · rw [List.map_cons, (hat a (by simp)).mp ha, List.map_append]
  · rcases hteam with hnil | ⟨name, hv, hname⟩
    · left
      rw [List.map_eq_nil_iff.mp hnil]
      rfl
    · obtain ⟨b, w, rfl, hb, rfl⟩ := List.map_eq_cons_iff.mp hv
      right
      refine ⟨w.map g, ?_, hcomponent w (by simp +contextual) hname⟩
      rw [List.map_cons, (hslash b (by simp)).mp hb]

/-! ## Owners in ASCII -/

def isNameHead (c : Char) : Bool := c.isAlphanum

def isNameTail (c : Char) : Bool := c.isAlphanum || c == '_' || c == '.' || c == '-'

/-- What the two messages of the normalizer ask for. -/
def IsOwner (s : Str) : Prop := OwnerShape isNameHead isNameTail s

/-- The code points beyond ASCII that an accepted text may hold, and the letters
that they stand for. -/
def standsFor (c : Char) : Option Char :=
  if c = '\u212a' then some 'k' else if c = 'ſ' then some 's' else if c = 'ı' then some 'i' else none

def unmasked (c : Char) : Char := (standsFor c).getD c

/-- A text that only reads as an owner. -/
def Disguised (s : Str) : Prop := (∃ c ∈ s, (standsFor c).isSome = true) ∧ IsOwner (s.map unmasked)

/-- `str.lower` of a character of an accepted text. -/
def ownerLower (c : Char) : Char := if c = '\u212a' then 'k' else c.toLower

def Nameable (c : Char) : Prop := c.toNat < 128 ∨ (standsFor c).isSome = true

theorem standsFor_cases {c : Char} (h : (standsFor c).isSome = true) :
    c = '\u212a' ∨ c = 'ſ' ∨ c = 'ı' := by
  unfold standsFor at h
  by_cases h₁ : c = '\u212a'
  · exact .inl h₁
  · rw [if_neg h₁] at h
    by_cases h₂ : c = 'ſ'
    · exact .inr (.inl h₂)
    · rw [if_neg h₂] at h
      by_cases h₃ : c = 'ı'
      · exact .inr (.inr h₃)
      · rw [if_neg h₃] at h
        cases h

theorem standsFor_ascii {c : Char} (h : c.toNat < 128) : standsFor c = none := by
  cases hs : standsFor c with
  | none => rfl
  | some d =>
    have hsome : (standsFor c).isSome = true := by rw [hs]; rfl
    rcases standsFor_cases hsome with rfl | rfl | rfl <;> exact absurd h (by decide)

theorem unmasked_ascii {c : Char} (h : c.toNat < 128) : unmasked c = c := by
  rw [unmasked, standsFor_ascii h]
  rfl

theorem ownerLower_ascii {c : Char} (h : c.toNat < 128) : ownerLower c = c.toLower := by
  unfold ownerLower
  rw [if_neg]
  rintro rfl
  exact absurd h (by decide)

/-- A fact about the ASCII characters, checked one by one. -/
theorem forall_ascii {p : Char → Prop} (h : ∀ n < 128, p (Char.ofNat n)) {c : Char}
    (hc : c.toNat < 128) : p c := by
  have hn := h c.toNat hc
  rwa [Char.ofNat_toNat] at hn

theorem lower_classes {c : Char} (h : Nameable c) :
    isOwnerHead (ownerLower c) = isNameHead (unmasked c) ∧
      isOwnerTail (ownerLower c) = isNameTail (unmasked c) ∧
      (ownerLower c = '@' ↔ unmasked c = '@') ∧ (ownerLower c = '/' ↔ unmasked c = '/') := by
  rcases h with h | h
  · rw [ownerLower_ascii h, unmasked_ascii h]
    exact forall_ascii (p := fun c => isOwnerHead c.toLower = isNameHead c ∧
      isOwnerTail c.toLower = isNameTail c ∧ (c.toLower = '@' ↔ c = '@') ∧ (c.toLower = '/' ↔ c = '/'))
      (by decide +kernel) h
  · rcases standsFor_cases h with rfl | rfl | rfl <;> decide

theorem ownerShape_lower {s : Str} (hs : ∀ c ∈ s, Nameable c) :
    OwnerShape isOwnerHead isOwnerTail (s.map ownerLower) ↔ IsOwner (s.map unmasked) := by
  constructor
  · exact ownerShape_map (fun c hc => (lower_classes (hs c hc)).1)
      (fun c hc => (lower_classes (hs c hc)).2.1) (fun c hc => (lower_classes (hs c hc)).2.2.1)
      fun c hc => (lower_classes (hs c hc)).2.2.2
  · exact ownerShape_map (fun c hc => (lower_classes (hs c hc)).1.symm)
      (fun c hc => (lower_classes (hs c hc)).2.1.symm)
      (fun c hc => (lower_classes (hs c hc)).2.2.1.symm)
      fun c hc => (lower_classes (hs c hc)).2.2.2.symm

theorem ascii_of_isNameTail {c : Char} (h : isNameTail c = true) : c.toNat < 128 := by
  by_contra hn
  simp only [isNameTail, Bool.or_eq_true, beq_iff_eq, isAlphanum_iff] at h
  rcases h with ((h | rfl) | rfl) | rfl
  · omega
  all_goals exact hn (by decide)

theorem IsOwner.ascii {s : Str} (h : IsOwner s) : ∀ c ∈ s, c.toNat < 128 := by
  have hcomponent : ∀ u, Component isNameHead isNameTail u → ∀ c ∈ u, c.toNat < 128 := by
    intro u ⟨c, rest, hu, hc, hrest⟩
    rw [hu, List.forall_mem_cons]
    refine ⟨ascii_of_isNameTail ?_, fun d hd => ascii_of_isNameTail (hrest d hd)⟩
    rw [isNameTail, show c.isAlphanum = true from hc]
    rfl
  obtain ⟨user, team, rfl, huser, hteam⟩ := h
  rw [List.forall_mem_cons, List.forall_mem_append]
  refine ⟨by decide, hcomponent user huser, ?_⟩
  rcases hteam with rfl | ⟨name, rfl, hname⟩
  · simp
  · rw [List.forall_mem_cons]
    exact ⟨by decide, hcomponent name hname⟩

theorem nameable_of_unmasked {s : Str} (h : ∀ c ∈ s.map unmasked, c.toNat < 128) :
    ∀ c ∈ s, Nameable c := by
  intro c hc
  cases hs : standsFor c with
  | none =>
    have hu := h _ (List.mem_map_of_mem hc)
    rw [unmasked, hs] at hu
    exact .inl hu
  | some d => exact .inr (by rw [hs]; rfl)

theorem map_unmasked {s : Str} (h : ∀ c ∈ s, c.toNat < 128) : s.map unmasked = s := by
  conv_rhs => rw [← List.map_id s]
  exact List.map_congr_left fun c hc => unmasked_ascii (h c hc)

theorem map_ownerLower {s : Str} (h : ∀ c ∈ s, c.toNat < 128) :
    s.map ownerLower = s.map Char.toLower :=
  List.map_congr_left fun c hc => ownerLower_ascii (h c hc)

theorem ascii_of_unmasked {s : Str} (hs : ¬ ∃ c ∈ s, (standsFor c).isSome = true)
    (h : IsOwner (s.map unmasked)) : ∀ c ∈ s, c.toNat < 128 := by
  intro c hc
  rcases nameable_of_unmasked h.ascii c hc with h | h
  · exact h
  · exact absurd ⟨c, hc, h⟩ hs

theorem same_letter {c d : Char} (h : ownerLower c = ownerLower d) :
    c.toLower = d.toLower ↔ (c == '\u212a') = (d == '\u212a') := by
  unfold ownerLower at h
  by_cases hc : c = '\u212a'
  · by_cases hd : d = '\u212a'
    · rw [hc, hd]
      simp
    · rw [if_pos hc, if_neg hd] at h
      rw [← h, hc]
      simp [hd]
  · by_cases hd : d = '\u212a'
    · rw [if_neg hc, if_pos hd] at h
      rw [h, hd]
      simp [hc]
    · rw [if_neg hc, if_neg hd] at h
      simp [h, hc, hd]

/-- Texts with one result are equal up to case when the Kelvin sign stands at
the same places in both. -/
theorem same_letters {s t : Str} (h : s.map ownerLower = t.map ownerLower) :
    s.map Char.toLower = t.map Char.toLower ↔ s.map (· == '\u212a') = t.map (· == '\u212a') := by
  induction s generalizing t with
  | nil =>
    obtain rfl : t = [] := by simpa using h.symm
    simp
  | cons c s ih =>
    cases t with
    | nil => simp at h
    | cons d t =>
      simp only [List.map_cons, List.cons.injEq] at h ⊢
      exact and_congr (same_letter h.1) (ih h.2)

/-! ## Lower case -/

/-- The lower-case mapping of a character: a letter of ASCII in lower case, the
letter that the Kelvin sign is, the two small letters themselves, and otherwise
something that no owner is spelled with. -/
structure LetterMapping (c : Char) (image : Str) : Prop where
  named : Nameable c → image = [ownerLower c]
  foreign : ¬ Nameable c → ∃ d ∈ image, ¬ (d.toNat < 128 ∨ isIgnoreCaseLetter d = true)

/-- `str.lower` replaces each character by its lower-case mapping. -/
class LetterwiseLower [PyText] : Prop extends LawfulPyText where
  lower_letters : ∀ s : Str, ∃ images : List Str,
    PyText.lower s = images.flatten ∧ List.Forall₂ LetterMapping s images

section
variable [PyText]

theorem lower_named [LetterwiseLower] {s : Str} (h : ∀ c ∈ s, Nameable c) :
    PyText.lower s = s.map ownerLower := by
  obtain ⟨images, hl, hi⟩ := LetterwiseLower.lower_letters s
  rw [hl]
  clear hl
  induction hi with
  | nil => rfl
  | cons hc _ ih =>
    rw [List.forall_mem_cons] at h
    rw [List.flatten_cons, hc.named h.1, ih h.2]
    rfl

theorem nameable_of_accepted [LetterwiseLower] {s : Str}
    (h : ownerRe.fullmatch (PyText.lower s) = true) : ∀ c ∈ s, Nameable c := by
  obtain ⟨images, hl, hi⟩ := LetterwiseLower.lower_letters s
  obtain ⟨rest, he, hrest⟩ := ownerRe_spec h
  have hchars : ∀ d ∈ images.flatten, d.toNat < 128 ∨ isIgnoreCaseLetter d = true := by
    rw [← hl, he, List.forall_mem_cons]
    exact ⟨.inl (by decide), fun d hd => (hrest d hd).ascii⟩
  intro c hc
  by_contra hn
  obtain ⟨image, himage, hmapping⟩ := forall₂_left hi c hc
  obtain ⟨d, hd, hforeign⟩ := hmapping.foreign hn
  exact hforeign (hchars d (List.mem_flatten_of_mem himage hd))

theorem normalizeOwner_eq_ok {value owner : Str} : normalizeOwner value = .ok owner ↔
    owner = PyText.lower (strip value) ∧ ownerRe.fullmatch owner = true := by
  constructor
  · exact normalizeOwner_ok
  · intro ⟨ho, hm⟩
    obtain ⟨rest, he, -⟩ := ownerRe_spec hm
    have hat : startsWith '@' owner = true := by rw [he]; rfl
    unfold normalizeOwner
    rw [← ho, if_neg (by simp [hat]), if_neg (by simp [hm])]

/-- What is accepted, and what becomes of it. -/
theorem normalizeOwner_spec [LetterwiseLower] {value owner : Str} : normalizeOwner value = .ok owner ↔
    owner = (strip value).map ownerLower ∧ IsOwner ((strip value).map unmasked) := by
  rw [normalizeOwner_eq_ok]
  constructor
  · intro ⟨ho, hm⟩
    have hn : ∀ c ∈ strip value, Nameable c := nameable_of_accepted (ho ▸ hm)
    rw [lower_named hn] at ho
    rw [ho, ownerRe_iff, ownerShape_lower hn] at hm
    exact ⟨ho, hm⟩
  · intro ⟨ho, hm⟩
    have hn : ∀ c ∈ strip value, Nameable c := nameable_of_unmasked hm.ascii
    rw [lower_named hn, ← ho]
    refine ⟨rfl, ?_⟩
    rw [ho, ownerRe_iff, ownerShape_lower hn]
    exact hm

/-! ## Faithful texts -/

/-- The normalizer accepts the text exactly when it is trimmed an owner, and
changes nothing but the case of its letters. -/
def Faithful (value : Str) : Prop :=
  ((∃ owner, normalizeOwner value = .ok owner) ↔ IsOwner (strip value)) ∧
    ∀ owner, normalizeOwner value = .ok owner → owner = (strip value).map Char.toLower

theorem faithful_iff [LetterwiseLower] (value : Str) : Faithful value ↔ ¬ Disguised (strip value) := by
  unfold Faithful
  simp only [normalizeOwner_spec]
  constructor
  · intro ⟨hiff, _⟩ ⟨⟨c, hc, hs⟩, howner⟩
    have hascii := (hiff.mp ⟨_, rfl, howner⟩).ascii c hc
    rw [standsFor_ascii hascii] at hs
    cases hs
  · intro hn
    have hplain : IsOwner ((strip value).map unmasked) → ∀ c ∈ strip value, c.toNat < 128 :=
      fun howner => ascii_of_unmasked (fun hs => hn ⟨hs, howner⟩) howner
    refine ⟨⟨?_, ?_⟩, ?_⟩
    · intro ⟨owner, _, howner⟩
      rwa [map_unmasked (hplain howner)] at howner
    · intro howner
      refine ⟨_, rfl, ?_⟩
      rwa [map_unmasked howner.ascii]
    · intro owner ⟨ho, howner⟩
      rw [ho, map_ownerLower (hplain howner)]

/-- The normalizer is faithful to ASCII except for disguised owners. -/
theorem normalizeOwner_faithful [LetterwiseLower] :
    (∀ value, Faithful value ↔ ¬ Disguised (strip value)) ∧
    (∀ value owner, normalizeOwner value = .ok owner → normalizeOwner owner = .ok owner) ∧
    ∀ value value' owner, normalizeOwner value = .ok owner → normalizeOwner value' = .ok owner →
      ((strip value).map Char.toLower = (strip value').map Char.toLower ↔
        (strip value).map (· == '\u212a') = (strip value').map (· == '\u212a')) := by
  refine ⟨faithful_iff, fun _ _ h => normalizeOwner_self h, ?_⟩
  intro value value' owner h h'
  obtain ⟨ho, -⟩ := normalizeOwner_spec.mp h
  obtain ⟨ho', -⟩ := normalizeOwner_spec.mp h'
  exact same_letters (ho ▸ ho')

end

/-! ## The Kelvin sign -/

def lowerLetter (c : Char) : Str :=
  if c = '\u212a' then ['k'] else if c = 'İ' then ['i', '\u0307'] else [c.toLower]

/-- Lower case with the mappings that lead into ASCII. -/
@[reducible] def letterText : PyText where
  lower s := s.flatMap lowerLetter
  repr s := '\'' :: (s ++ ['\''])

theorem lowerLetter_lowerLetter (c : Char) : (lowerLetter c).flatMap lowerLetter = lowerLetter c := by
  unfold lowerLetter
  by_cases h₁ : c = '\u212a'
  · rw [if_pos h₁]
    decide
  · rw [if_neg h₁]
    by_cases h₂ : c = 'İ'
    · rw [if_pos h₂]
      decide
    · rw [if_neg h₂, List.flatMap_singleton]
      have hne : ∀ d : Char, 128 ≤ d.toNat → c ≠ d → c.toLower ≠ d := by
        intro d hd hc he
        have hn := toNat_toLower c
        rw [he] at hn
        split at hn
        · omega
        · exact hc (Char.toNat_inj.mp hn.symm)
      rw [if_neg (hne _ (by decide) h₁), if_neg (hne _ (by decide) h₂), toLower_toLower]

theorem not_ignoreCaseLetter {c : Char} (h : ¬ c.toNat < 128) (hs : ¬ (standsFor c).isSome = true)
    (hc : c ≠ 'İ') : ¬ isIgnoreCaseLetter c = true := by
  intro hl
  simp only [isIgnoreCaseLetter, Bool.or_eq_true, Bool.and_eq_true, decide_eq_true_eq, beq_iff_eq] at hl
  rcases hl with ((((hl | hl) | rfl) | rfl) | rfl) | rfl
  · have hz : c.toNat ≤ 'z'.toNat := UInt32.le_iff_toNat_le.mp hl.2
    have e : 'z'.toNat = 122 := rfl
    omega
  · have hz : c.toNat ≤ 'Z'.toNat := UInt32.le_iff_toNat_le.mp hl.2
    have e : 'Z'.toNat = 90 := rfl
    omega
  · exact hc rfl
  all_goals exact hs (by decide)

theorem letterMapping_lowerLetter (c : Char) : LetterMapping c (lowerLetter c) := by
  refine ⟨?_, ?_⟩
  · intro h
    unfold lowerLetter ownerLower
    by_cases h₁ : c = '\u212a'
    · rw [if_pos h₁, if_pos h₁]
    · rw [if_neg h₁, if_neg h₁, if_neg]
      rintro rfl
      rcases h with h | h <;> exact absurd h (by decide)
  · intro h
    unfold lowerLetter
    by_cases h₁ : c = '\u212a'
    · exact absurd (.inr (by rw [h₁]; decide)) h
    · rw [if_neg h₁]
      by_cases h₂ : c = 'İ'
      · rw [if_pos h₂]
        exact ⟨'\u0307', by simp, by decide⟩
      · rw [if_neg h₂]
        refine ⟨c.toLower, by simp, ?_⟩
        obtain ⟨hascii, hstands⟩ := not_or.mp h
        have hself : c.toLower = c := by
          apply Char.toNat_inj.mp
          rw [toNat_toLower, if_neg (by omega)]
        rw [hself, not_or]
        exact ⟨hascii, not_ignoreCaseLetter hascii hstands h₂⟩

theorem letterText_letterwise : @LetterwiseLower letterText := by
  let _ := letterText
  refine { lower_lower := ?_, lower_ascii := ?_, lower_letters := ?_ }
  · intro s
    change (s.flatMap lowerLetter).flatMap lowerLetter = s.flatMap lowerLetter
    rw [List.flatMap_assoc]
    exact List.flatMap_congr fun c _ => lowerLetter_lowerLetter c
  · intro s hs
    change s.flatMap lowerLetter = s.map Char.toLower
    rw [List.map_eq_flatMap]
    refine List.flatMap_congr fun c hc => ?_
    rw [(letterMapping_lowerLetter c).named (.inl (hs c hc)), ownerLower_ascii (hs c hc)]
  · intro s
    refine ⟨s.map lowerLetter, List.flatMap_def, ?_⟩
    rw [List.forall₂_map_right_iff]
    exact List.forall₂_same.mpr fun c _ => letterMapping_lowerLetter c

/-- The Kelvin sign is accepted for the letter, and gives the owner that the
letter gives. -/
theorem kelvin_is_accepted : let _ := letterText
    normalizeOwner ['@', '\u212a'] = .ok ['@', 'k'] ∧ normalizeOwner ['@', 'k'] = .ok ['@', 'k'] ∧
      ¬ IsOwner ['@', '\u212a'] ∧ ['@', '\u212a'].map Char.toLower ≠ ['@', 'k'].map Char.toLower := by
  refine ⟨rfl, rfl, ?_, by decide⟩
  intro h
  exact absurd (h.ascii '\u212a' (by simp)) (by decide)

theorem faithful_mixed_case : let _ := letterText
    Faithful [' ', '@', 'O', 'r', 'g', '/', 'k', '-', '2'] := by
  let _ := letterText
  let _ := letterText_letterwise
  refine (normalizeOwner_faithful.1 _).mpr ?_
  intro ⟨⟨c, hc, hs⟩, _⟩
  have hnone : ∀ c ∈ strip [' ', '@', 'O', 'r', 'g', '/', 'k', '-', '2'], (standsFor c).isSome = false :=
    forall_mem_of_all (by decide)
  rw [hnone c hc] at hs
  cases hs

end ExtraCodeowners
