import ExtraCodeowners.Glob
import ExtraCodeowners.PathSpec

/-!
# Paths no application may approve

The built-in patterns, the guardrails of the organization and the policy file
against the paths they are meant to protect, for every character of a path.
-/

namespace ExtraCodeowners

/-! ## Patterns with a literal start -/

section
variable {wide : Char → Prop}

def isLiteral (c : Char) : Prop := c ≠ '*' ∧ c ≠ '?'

instance : DecidablePred isLiteral := fun _ => inferInstanceAs (Decidable (_ ∧ _))

theorem globBody_append {l p s : Str} (hl : ∀ c ∈ l, isLiteral c) :
    GlobBody wide (l ++ p) s ↔ ∃ v, s = l ++ v ∧ GlobBody wide p v := by
  induction l generalizing s with
  | nil => simp
  | cons c l ih =>
    obtain ⟨h₁, h₂⟩ := hl c (by simp)
    rw [List.cons_append, globBody_literal h₁ h₂]
    simp only [ih fun c hc => hl c (by simp [hc])]
    constructor
    · rintro ⟨_, rfl, v, rfl, hb⟩; exact ⟨v, rfl, hb⟩
    · rintro ⟨v, rfl, hb⟩; exact ⟨_, rfl, v, rfl, hb⟩

theorem globBody_self {l : Str} (hl : ∀ c ∈ l, isLiteral c) : GlobBody wide l l := by
  have : GlobBody wide (l ++ []) l := (globBody_append hl).mpr ⟨[], by simp, .nil⟩
  rwa [List.append_nil] at this

theorem globBody_twoStars {s : Str} : GlobBody wide ['*', '*'] s ↔ ∀ c ∈ s, wide c := by
  change GlobBody wide (List.replicate 2 '*' ++ []) s ↔ _
  rw [globBody_anything (by omega) (by simp) (by simp)]
  simp only [globBody_nil]
  constructor
  · rintro ⟨u, v, rfl, hu, rfl⟩; simpa using hu
  · intro h; exact ⟨s, [], by simp, h, rfl⟩

theorem endsWith_append {c : Char} {s t : Str} (ht : t ≠ []) : endsWith c (s ++ t) = endsWith c t := by
  unfold endsWith
  rw [List.getLast?_append_of_ne_nil _ ht]

theorem rstripSlash_eq_self {s : Str} (h : endsWith '/' s = false) : rstripSlash s = s := by
  unfold rstripSlash
  rw [List.rdropWhile_eq_self_iff]
  intro hne hl
  unfold endsWith at h
  rw [List.getLast?_eq_some_getLast hne] at h
  simp only [decide_eq_true_eq] at hl
  simp [hl] at h

abbrev belowDirectory (d : Str) : Str := d ++ ['/', '*', '*']

theorem endsWith_belowDirectory (d : Str) : endsWith '/' (belowDirectory d) = false := by
  rw [belowDirectory, endsWith_append (by simp)]; rfl

theorem finalSegment_belowDirectory (d : Str) : '*' ∈ finalSegment (belowDirectory d) := by
  unfold finalSegment
  rw [rstripSlash_eq_self (endsWith_belowDirectory d)]
  unfold belowDirectory
  rw [List.splitOn_append_cons_self]
  have : (['*', '*'] : Str).splitOn '/' = [['*', '*']] := by decide
  rw [this]
  simp

/-- `d/**` is anchored, with or without a leading slash. -/
theorem globMatches_below {pattern d path : Str} (hp : removePrefix '/' pattern = belowDirectory d) :
    GlobMatches wide pattern path ↔ GlobBody wide (belowDirectory d) path := by
  have hanchored : startsWith '/' pattern = true ∨ '/' ∈ rstripSlash pattern := by
    cases pattern with
    | nil =>
      have := congrArg List.length hp
      simp [removePrefix, belowDirectory] at this
    | cons c pattern =>
      by_cases hc : c = '/'
      · left; simp [startsWith, hc]
      · right
        have hp' : c :: pattern = belowDirectory d := by rw [← hp]; simp [removePrefix, hc]
        rw [hp', rstripSlash_eq_self (endsWith_belowDirectory d)]
        simp [belowDirectory]
  unfold GlobMatches
  simp only [hp, endsWith_belowDirectory, Bool.false_eq_true, if_false]
  constructor
  · rintro ⟨u, s, t, rfl, hu, hs, ht⟩
    have hu' : u = [] := hu.resolve_right fun h => h.1 hanchored
    have ht' : t = [] := ht.resolve_right fun h => h.1.1 (finalSegment_belowDirectory d)
    simpa [hu', ht'] using hs
  · intro h
    exact ⟨[], path, [], by simp, Or.inl rfl, h, Or.inl rfl⟩

/-- With a literal `d` it matches what lies below `d`. -/
theorem globBody_belowDirectory {d s : Str} (hd : ∀ c ∈ d, isLiteral c) :
    GlobBody wide (belowDirectory d) s ↔ ∃ rest, s = d ++ '/' :: rest ∧ ∀ c ∈ rest, wide c := by
  have hbelow : ∀ v, GlobBody wide ['/', '*', '*'] v ↔ ∃ rest, v = '/' :: rest ∧ ∀ c ∈ rest, wide c := by
    intro v
    rw [globBody_literal (by decide) (by decide)]
    simp only [globBody_twoStars]
  rw [belowDirectory, globBody_append hd]
  simp only [hbelow]
  constructor
  · rintro ⟨_, rfl, rest, rfl, hr⟩; exact ⟨rest, rfl, hr⟩
  · rintro ⟨rest, rfl, hr⟩; exact ⟨_, rfl, rest, rfl, hr⟩

/-- What a pattern `d` matches is a directory whose content `d/**` matches. -/
theorem globBody_below {d dir rest : Str} (h : GlobBody wide d dir) (hw : wide '/')
    (hr : ∀ c ∈ rest, wide c) : GlobBody wide (belowDirectory d) (dir ++ '/' :: rest) := by
  unfold belowDirectory
  induction h with
  | nil => exact .literal (by decide) (by decide) (globBody_twoStars.mpr hr)
  | @directories n p u s hn hu hc _ ih =>
    simp only [List.append_assoc, List.cons_append] at ih ⊢
    exact .directories hn hu hc ih
  | @anything n p u s hn h₁ h₂ hc hb ih =>
    rw [List.append_assoc, List.append_assoc]
    cases p with
    | nil =>
      -- before the slash the stars stand for whole directories
      obtain rfl := globBody_nil.mp hb
      have hu : ∀ c ∈ u ++ ['/'], wide c := by
        intro c m
        rcases List.mem_append.mp m with m | m
        · exact hc c m
        · rw [List.mem_singleton.mp m]; exact hw
      have hb' := GlobBody.directories hn (Or.inr ⟨u, rfl⟩) hu (globBody_twoStars.mpr hr)
      simpa using hb'
    | cons c p => exact .anything hn (by simpa using h₁) (by simpa using h₂) hc ih
  | @run p u s h₁ hu _ ih =>
    rw [List.append_assoc, List.cons_append]
    refine .run ?_ hu ih
    cases p with
    | nil => simp
    | cons c p => simpa using h₁
  | one hc _ ih => exact .one hc ih
  | literal h₁ h₂ _ ih => exact .literal h₁ h₂ ih

theorem globBody_refl_le (hs : wide '*') (hw : wide '/') : ∀ (n : Nat) (p : Str), p.length ≤ n →
    GlobBody wide p p
  | _, [], _ => .nil
  | n + 1, c :: p, hn => by
    simp only [List.length_cons] at hn
    have ih : ∀ q : Str, q.length ≤ p.length → GlobBody wide q q :=
      fun q hq => globBody_refl_le hs hw n q (by omega)
    by_cases hstar : c = '*'
    · subst hstar
      by_cases hhead : p.head? = some '*'
      · obtain ⟨rest, rfl⟩ : ∃ rest, p = '*' :: rest := by
          cases p with
          | nil => cases hhead
          | cons d p => exact ⟨p, by simpa using hhead⟩
        obtain ⟨k, hstars, hne⟩ := exists_stars rest
        have hlen : (rest.dropWhile (· = '*')).length ≤ rest.length := List.length_dropWhile_le _ _
        have hu : ∀ c ∈ List.replicate (k + 2) '*', wide c := by
          intro c m; rw [List.eq_of_mem_replicate m]; exact hs
        rw [hstars]
        cases hq : rest.dropWhile (· = '*') with
        | nil => exact .anything (by omega) (by simp) (by simp) hu .nil
        | cons d q =>
          rw [hq] at hne hlen
          simp only [List.length_cons] at hlen ih
          by_cases hslash : d = '/'
          · subst hslash
            have hu' : ∀ c ∈ List.replicate (k + 2) '*' ++ ['/'], wide c := by
              intro c m
              rcases List.mem_append.mp m with m | m
              · exact hu c m
              · rw [List.mem_singleton.mp m]; exact hw
            have hb := GlobBody.directories (show 2 ≤ k + 2 by omega) (Or.inr ⟨_, rfl⟩) hu'
              (ih q (by omega))
            simpa using hb
          · exact .anything (by omega) hne (by simpa using hslash) hu (ih _ (by simp; omega))
      · exact .run (u := ['*']) hhead (by decide) (ih p (Nat.le_refl _))
    · by_cases hone : c = '?'
      · subst hone; exact .one (by decide) (ih p (Nat.le_refl _))
      · exact .literal hstar hone (ih p (Nat.le_refl _))

/-- A pattern matches its own text. -/
theorem globBody_refl (hs : wide '*') (hw : wide '/') (p : Str) : GlobBody wide p p :=
  globBody_refl_le hs hw _ p (Nat.le_refl _)

/-- A literal path pattern matches that path and what lies below it. -/
theorem globMatches_literal {l path : Str} (hl : ∀ c ∈ l, isLiteral c) (he : endsWith '/' l = false)
    (h : GlobMatches wide ('/' :: l) path) :
    path = l ∨ ∃ rest, path = l ++ '/' :: rest ∧ ∀ c ∈ rest, wide c := by
  have hbody : ∀ s, GlobBody wide l s ↔ s = l := by
    intro s
    have : GlobBody wide (l ++ []) s ↔ ∃ v, s = l ++ v ∧ GlobBody wide [] v := globBody_append hl
    simpa [globBody_nil] using this
  obtain ⟨u, s, t, rfl, hu, hs, ht⟩ := h
  have hu' : u = [] := hu.resolve_right fun h => h.1 (Or.inl rfl)
  simp only [removePrefix, if_true, he, Bool.false_eq_true, if_false, hbody] at hs
  rcases ht with rfl | ⟨-, v, rfl, hv⟩
  · left; simp [hu', hs]
  · right; exact ⟨v, by simp [hu', hs], hv⟩

theorem globMatches_self {l : Str} (hl : ∀ c ∈ l, isLiteral c) (he : endsWith '/' l = false) :
    GlobMatches wide ('/' :: l) l := by
  refine ⟨[], l, [], by simp, Or.inl rfl, ?_, Or.inl rfl⟩
  simp only [removePrefix, if_true, he, Bool.false_eq_true, if_false]
  exact globBody_self hl

end

/-! ## The pattern that covers one path -/

/-- The path with every character but the slashes replaced by `?`. -/
def coveringPattern (path : Str) : Str := '/' :: path.map fun c => if c = '/' then '/' else '?'

theorem globBody_covering {wide : Char → Prop} : ∀ path : Str,
    GlobBody wide (path.map fun c => if c = '/' then '/' else '?') path
  | [] => .nil
  | c :: path => by
    rw [List.map_cons]
    by_cases hc : c = '/'
    · rw [if_pos hc, hc]
      exact .literal (by decide) (by decide) (globBody_covering path)
    · rw [if_neg hc]
      exact .one hc (globBody_covering path)

/-! ## Accepted patterns -/

theorem patternMatches_iff {path : RepositoryPath} {pattern : Str} (hs : strip pattern = pattern)
    (ha : isAccepted pattern = true) :
    patternMatches path pattern = true ↔ GlobMatches notLineFeed pattern path.1 := by
  unfold isAccepted at ha
  unfold patternMatches compilePattern
  cases hv : validatePattern pattern with
  | error message => rw [hv] at ha; cases ha
  | ok value =>
    have : value = pattern := (validatePattern_ok hv).1.trans hs
    subst this
    exact fullmatch_patternRegex

theorem isAccepted_iff {pattern : Str} (hs : strip pattern = pattern) :
    isAccepted pattern = true ↔ validatePattern pattern = .ok pattern := by
  unfold isAccepted
  cases hv : validatePattern pattern with
  | error message => simp [Except.isOk, Except.toBool]
  | ok value =>
    have : value = pattern := (validatePattern_ok hv).1.trans hs
    simp [Except.isOk, Except.toBool, this]

theorem normalizePattern_strip {pattern : Str} (h : normalizePattern pattern = .ok pattern) :
    strip pattern = pattern := by
  unfold normalizePattern at h
  simp only at h
  split_ifs at h
  simpa using h

theorem normalizePattern_accepted {pattern : Str} (hs : strip pattern = pattern)
    (ha : isAccepted pattern = true) : normalizePattern pattern = .ok pattern := by
  obtain ⟨-, hne, -, -, -, hb, -⟩ := validatePattern_eq_ok.mp ((isAccepted_iff hs).mp ha)
  simp [normalizePattern, hs, hb, hne]

theorem isAccepted_brackets {pattern : Str} (hs : strip pattern = pattern)
    (ha : isAccepted pattern = true) : '[' ∉ pattern ∧ ']' ∉ pattern := by
  obtain ⟨-, -, -, h₁, h₂, -⟩ := validatePattern_eq_ok.mp ((isAccepted_iff hs).mp ha)
  exact ⟨h₁, h₂⟩

theorem splitOn_covering : ∀ path : Str,
    (path.map fun c => if c = '/' then '/' else '?').splitOn '/' =
      (path.splitOn '/').map (List.map fun c => if c = '/' then '/' else '?')
  | [] => rfl
  | c :: path => by
    rw [List.map_cons, List.splitOn_cons_eq_if_modifyHead, List.splitOn_cons_eq_if_modifyHead,
      splitOn_covering path]
    by_cases hc : c = '/'
    · simp [hc]
    · simp only [hc, beq_iff_eq, if_false, Char.reduceEq]
      cases path.splitOn '/' <;> simp [hc]

section
variable (path : RepositoryPath)

theorem RepositoryPath.facts : path.1 ≠ [] ∧ strip path.1 = path.1 ∧ startsWith '/' path.1 = false ∧
    '\\' ∉ path.1 ∧ ∀ part ∈ path.1.splitOn '/', part ≠ [] ∧ part ≠ ['.'] ∧ part ≠ ['.', '.'] :=
  normalizeRepositoryPath_eq_ok.mp path.2

theorem RepositoryPath.endsWith_slash : endsWith '/' path.1 = false := by
  obtain ⟨-, -, -, -, hparts⟩ := path.facts
  by_contra h
  simp only [Bool.not_eq_false, endsWith, decide_eq_true_eq] at h
  obtain ⟨front, hf⟩ := List.getLast?_eq_some_iff.mp h
  refine (hparts [] ?_).1 rfl
  rw [hf, List.splitOn_append_cons_self]
  simp

theorem covering_endsWith : endsWith '/' (path.1.map fun c => if c = '/' then '/' else '?') = false := by
  have := path.endsWith_slash
  unfold endsWith at this ⊢
  rw [List.getLast?_map]
  cases hl : path.1.getLast? with
  | none => rfl
  | some c =>
    rw [hl] at this
    have hc : c ≠ '/' := by rintro rfl; simp at this
    simp [hc]

theorem strip_slash_append {s : Str} {c : Char} (hl : s.getLast? = some c) (hc : isSpace c = false) :
    strip ('/' :: s) = '/' :: s := by
  refine strip_eq_self.mpr ⟨fun d hd => ?_, fun d hd => ?_⟩
  · cases hd; decide
  · have hne : s ≠ [] := by rintro rfl; cases hl
    rw [List.getLast?_cons_of_ne_nil hne, hl] at hd
    cases hd; exact hc

theorem strip_coveringPattern : strip (coveringPattern path.1) = coveringPattern path.1 := by
  have hne := path.facts.1
  refine strip_slash_append (c := '?') ?_ (by decide)
  rw [List.getLast?_map, List.getLast?_eq_some_getLast hne]
  have : path.1.getLast hne ≠ '/' := by
    intro h
    have hs := path.endsWith_slash
    simp [endsWith, List.getLast?_eq_some_getLast hne, h] at hs
  simp [this]

theorem isAccepted_coveringPattern : isAccepted (coveringPattern path.1) = true := by
  obtain ⟨hne, -, -, -, hparts⟩ := path.facts
  have hchars : ∀ c ∈ coveringPattern path.1, c = '/' ∨ c = '?' := by
    intro c hc
    rcases List.mem_cons.mp hc with rfl | hc
    · exact Or.inl rfl
    · obtain ⟨d, -, rfl⟩ := List.mem_map.mp hc
      by_cases h : d = '/' <;> simp [h]
  have hno : ∀ c, c ≠ '/' → c ≠ '?' → c ∉ coveringPattern path.1 :=
    fun c h₁ h₂ hc => (hchars c hc).elim h₁ h₂
  refine (isAccepted_iff (strip_coveringPattern path)).mpr (validatePattern_eq_ok.mpr
    ⟨strip_coveringPattern path, by simp [coveringPattern], rfl, hno _ (by decide) (by decide),
      hno _ (by decide) (by decide), hno _ (by decide) (by decide), rfl, ?_, ?_⟩)
  · simpa [coveringPattern, removePrefix] using hne
  · intro segment hs
    simp only [coveringPattern, removePrefix, if_true] at hs
    rw [rstripSlash_eq_self (covering_endsWith path), splitOn_covering] at hs
    obtain ⟨part, hp, rfl⟩ := List.mem_map.mp hs
    obtain ⟨hpne, -⟩ := hparts part hp
    refine ⟨by simpa using hpne, ?_, ?_⟩ <;>
    · intro h
      have hdot : '.' ∈ part.map fun c => if c = '/' then '/' else '?' := by rw [h]; simp
      obtain ⟨d, -, hd⟩ := List.mem_map.mp hdot
      by_cases h : d = '/' <;> simp [h] at hd

theorem patternMatches_coveringPattern : patternMatches path (coveringPattern path.1) = true := by
  rw [patternMatches_iff (strip_coveringPattern path) (isAccepted_coveringPattern path)]
  refine ⟨[], path.1, [], by simp, Or.inl rfl, ?_, Or.inl rfl⟩
  simp only [coveringPattern, removePrefix, if_true, covering_endsWith, Bool.false_eq_true, if_false]
  exact globBody_covering path.1

end

/-! ## The guardrail of a directory -/

section
variable {path : RepositoryPath} {d rest : Str}

theorem strip_belowDirectory (d : Str) : strip ('/' :: belowDirectory d) = '/' :: belowDirectory d :=
  strip_slash_append (c := '*') (by simp [belowDirectory]) (by decide)

theorem isAccepted_belowDirectory (hp : path.1 = d ++ '/' :: rest) (h₁ : '[' ∉ d) (h₂ : ']' ∉ d) :
    isAccepted ('/' :: belowDirectory d) = true := by
  obtain ⟨-, -, -, hslash, hparts⟩ := path.facts
  have hd : ∀ c ∈ d, c ∈ path.1 := fun c hc => by rw [hp]; simp [hc]
  refine (isAccepted_iff (strip_belowDirectory d)).mpr (validatePattern_eq_ok.mpr
    ⟨strip_belowDirectory d, by simp, rfl, by simp [belowDirectory, h₁], by simp [belowDirectory, h₂],
      ?_, rfl, by simp [removePrefix, belowDirectory], ?_⟩)
  · intro hm
    simp only [belowDirectory, List.mem_cons, List.mem_append, Char.reduceEq, false_or,
      List.not_mem_nil, or_false] at hm
    exact hslash (hd _ hm)
  · intro segment hs
    simp only [removePrefix, if_true] at hs
    rw [rstripSlash_eq_self (endsWith_belowDirectory d), belowDirectory, List.splitOn_append_cons_self,
      List.mem_append] at hs
    rcases hs with hs | hs
    · refine hparts segment ?_
      rw [hp, List.splitOn_append_cons_self]
      exact List.mem_append_left _ hs
    · have : (['*', '*'] : Str).splitOn '/' = [['*', '*']] := by decide
      rw [this, List.mem_singleton] at hs
      subst hs; decide

end

/-! ## Protected paths -/

/-- What the policies promise to keep from applications. `names d dir` says
that the guardrail `d/**` names the directory `dir`. -/
inductive IsProtected (names : Str → Str → Prop) (data : EvaluationInput) (path : RepositoryPath) : Prop
  | workflows (rest : Str) (h : path.1 = (".github/workflows" : Str) ++ '/' :: rest)
  | actions (rest : Str) (h : path.1 = (".github/actions" : Str) ++ '/' :: rest)
  | guardrail (d dir rest pattern : Str) (hn : names d dir)
      (hg : pattern ∈ data.organization_policy.guardrails.non_delegable_paths)
      (hb : removePrefix '/' pattern = belowDirectory d) (h : path.1 = dir ++ '/' :: rest)
  | policyFile (h : path.1 = data.options.repository_policy_path)
      (ha : data.repository_policy.allow_delegation_for_policy_file = false)

section
variable [PyText]

/-- A current human approval or the opted-in author meets the owners. -/
def HumanDecides (data : EvaluationInput) (owners : List Str) : Prop :=
  (∃ a ∈ humanApprovalsByOwner (currentApprovals data).1, meet a.2 owners = true) ∨
    ∃ author, optedInAuthor data = some author ∧ meet (authorIdentities author) owners = true

/-- No application review decides the owner set of a protected path. -/
structure GuardrailSafe (names : Str → Str → Prop) (path : RepositoryPath) : Prop where
  human : ∀ data : EvaluationInput, data.options.allow_insecure_changes = false →
    IsProtected names data path → ∀ r ∈ (evaluate data).requirements, path ∈ r.paths →
      r.satisfied = true → HumanDecides data r.owners
  independent : ∀ (data : EvaluationInput) (reviews : List PullRequestReview),
    data.options.allow_insecure_changes = false → IsProtected names data path →
    reviews.filter (·.actor.kind = .HUMAN) = data.reviews.filter (·.actor.kind = .HUMAN) →
    ∀ r ∈ (evaluate data).requirements, ∀ r' ∈ (evaluate { data with reviews := reviews }).requirements,
      path ∈ r.paths → path ∈ r'.paths → r.owners = r'.owners ∧ r.satisfied = r'.satisfied

/-- Some CODEOWNERS text gives the path an owner. -/
def CanBeOwned (path : RepositoryPath) : Prop :=
  ∃ text document, parseCodeowners text = .ok document ∧ document.ownersFor path ≠ []

end

section
variable {names : Str → Str → Prop} {path : RepositoryPath}

theorem IsProtected.withReviews {data : EvaluationInput} (h : IsProtected names data path)
    (reviews : List PullRequestReview) :
    IsProtected names { data with reviews := reviews } path := by
  cases h with
  | workflows rest h => exact .workflows rest h
  | actions rest h => exact .actions rest h
  | guardrail d dir rest pattern hn hg hb h => exact .guardrail d dir rest pattern hn hg hb h
  | policyFile h ha => exact .policyFile h ha

/-- Every guardrail that names a directory of the path, once compiled, matches
the path. -/
def Reaches (names : Str → Str → Prop) (path : RepositoryPath) : Prop :=
  ∀ d dir rest pattern, names d dir → path.1 = dir ++ '/' :: rest →
    removePrefix '/' pattern = belowDirectory d → normalizePattern pattern = .ok pattern →
    isAccepted pattern = true → patternMatches path pattern = true

theorem isNonDelegable_of_mem {policy : CompiledPolicy} {path : RepositoryPath} {pattern : Str}
    (hp : pattern ∈ policy.non_delegable_patterns) (hm : patternMatches path pattern = true) :
    policy.isNonDelegable path = true := List.any_eq_true.mpr ⟨pattern, hp, hm⟩

/-- Then every protected path is out of the reach of applications. -/
theorem isProtected_isNonDelegable [PyText] {data : EvaluationInput} {policy : CompiledPolicy}
    (hc : compilePolicy data.organization_policy data.repository_policy data.options = .ok policy)
    (hi : data.options.allow_insecure_changes = false) (hself : ∀ d, names d d)
    (hr : Reaches names path) (hp : IsProtected names data path) :
    policy.isNonDelegable path = true := by
  obtain ⟨hpat, -⟩ := compilePolicy_ok hc
  have hbuiltin : ∀ pattern ∈ BUILTIN_NON_DELEGABLE_PATHS, pattern ∈ policy.non_delegable_patterns := by
    intro pattern hm
    rw [hpat]
    unfold nonDelegablePatterns
    cases data.repository_policy.allow_delegation_for_policy_file <;> simp [hi, hm]
  cases hp with
  | workflows rest h =>
    have hm : ("/.github/workflows/**" : Str) ∈ BUILTIN_NON_DELEGABLE_PATHS := by decide
    exact isNonDelegable_of_mem (hbuiltin _ hm)
      (hr (".github/workflows" : Str) _ rest _ (hself _) h rfl (by decide) (by decide))
  | actions rest h =>
    have hm : ("/.github/actions/**" : Str) ∈ BUILTIN_NON_DELEGABLE_PATHS := by decide
    exact isNonDelegable_of_mem (hbuiltin _ hm)
      (hr (".github/actions" : Str) _ rest _ (hself _) h rfl (by decide) (by decide))
  | guardrail d dir rest pattern hn hg hb h =>
    have hm : pattern ∈ policy.non_delegable_patterns := by
      rw [hpat]; exact List.mem_append_right _ hg
    have hnorm := data.organization_policy.guardrails.validate_non_delegable_paths _ hg
    exact isNonDelegable_of_mem hm (hr d dir rest pattern hn h hb hnorm (policy.compiles _ hm))
  | policyFile h ha =>
    obtain ⟨hne, hs, -, -, -, hchars⟩ := data.options.validate_repository_policy_path
    have hmem : '/' :: path.1 ∈ policy.non_delegable_patterns := by
      rw [hpat]; unfold nonDelegablePatterns
      simp [hi, ha, h]
    have hlit : ∀ c ∈ path.1, isLiteral c := by
      intro c hcp
      have := hchars c (h ▸ hcp)
      exact ⟨by rintro rfl; simp at this, by rintro rfl; simp at this⟩
    have hstrip : strip ('/' :: path.1) = '/' :: path.1 := by
      have hne' := path.facts.1
      have hl := List.getLast?_eq_some_getLast hne'
      exact strip_slash_append hl ((strip_eq_self.mp path.facts.2.1).2 _ hl)
    refine isNonDelegable_of_mem hmem ((patternMatches_iff hstrip (policy.compiles _ hmem)).mpr ?_)
    exact globMatches_self hlit path.endsWith_slash

/-! ## Which directories a guardrail names -/

/-- A guardrail matches what its directory matches and no line feed hides. -/
theorem patternMatches_below {pattern d : Str} (hb : removePrefix '/' pattern = belowDirectory d)
    (hs : strip pattern = pattern) (ha : isAccepted pattern = true) :
    patternMatches path pattern = true ↔ GlobBody notLineFeed (belowDirectory d) path.1 :=
  (patternMatches_iff hs ha).trans (globMatches_below hb)

theorem reaches_of_no_line_feed {d dir rest pattern : Str} (hn : GlobBody anyChar d dir)
    (hp : path.1 = dir ++ '/' :: rest) (hb : removePrefix '/' pattern = belowDirectory d)
    (hs : strip pattern = pattern) (ha : isAccepted pattern = true) (hlf : '\n' ∉ path.1) :
    patternMatches path pattern = true := by
  have hbody : GlobBody anyChar (belowDirectory d) path.1 := by
    rw [hp]; exact globBody_below hn trivial fun _ _ => trivial
  exact (patternMatches_below hb hs ha).mpr
    (hbody.imp fun c hc _ => by rintro rfl; exact hlf hc)

/-- Read as a directory's own name, `d/**` has to match what lies in `d`. -/
theorem reaches_named : Reaches Eq path ↔
    ∀ d rest, path.1 = d ++ '/' :: rest → '[' ∉ d → ']' ∉ d →
      patternMatches path ('/' :: belowDirectory d) = true := by
  constructor
  · intro h d rest hp h₁ h₂
    have ha := isAccepted_belowDirectory hp h₁ h₂
    exact h d d rest _ rfl hp rfl (normalizePattern_accepted (strip_belowDirectory d) ha) ha
  · rintro h d _ rest pattern rfl hp hb hnorm ha
    have hs := normalizePattern_strip hnorm
    obtain ⟨h₁, h₂⟩ := isAccepted_brackets hs ha
    have hsub : ∀ c ∈ d, c ∈ pattern := by
      intro c hcd
      have hc : c ∈ removePrefix '/' pattern := by rw [hb]; simp [belowDirectory, hcd]
      cases pattern with
      | nil => exact hc
      | cons e pattern =>
        by_cases he : e = '/'
        · rw [removePrefix, if_pos he] at hc
          exact List.mem_cons_of_mem _ hc
        · rwa [removePrefix, if_neg he] at hc
    have h₁' : '[' ∉ d := fun hm => h₁ (hsub _ hm)
    have h₂' : ']' ∉ d := fun hm => h₂ (hsub _ hm)
    rw [patternMatches_below hb hs ha, ← patternMatches_below rfl (strip_belowDirectory d)
      (isAccepted_belowDirectory hp h₁' h₂')]
    exact h d rest hp h₁' h₂'

/-- A line feed is harmless in the first segment and nowhere else, as far as
the names are literal. -/
theorem reaches_named_of_literal (hl : ∀ d rest, path.1 = d ++ '/' :: rest → ∀ c ∈ d, isLiteral c) :
    Reaches Eq path ↔
      ∀ d rest, path.1 = d ++ '/' :: rest → '[' ∉ d → ']' ∉ d → '\n' ∉ rest := by
  rw [reaches_named]
  refine forall₅_congr fun d rest hp h₁ h₂ => ?_
  rw [patternMatches_below rfl (strip_belowDirectory d) (isAccepted_belowDirectory hp h₁ h₂),
    globBody_belowDirectory (hl d rest hp), hp]
  constructor
  · rintro ⟨rest', he, hr⟩ hm
    obtain rfl : rest = rest' := by simpa using he
    exact hr _ hm rfl
  · intro hn
    exact ⟨rest, rfl, fun c hc => by rintro rfl; exact hn hc⟩

/-- Read as a pattern, `/**/**` names every directory and sees no line feed. -/
theorem reaches_matching : Reaches (GlobBody anyChar) path ↔ '\n' ∉ path.1 ∨ '/' ∉ path.1 := by
  constructor
  · intro h
    by_contra hcon
    simp only [not_or, not_not] at hcon
    obtain ⟨hlf, hslash⟩ := hcon
    obtain ⟨dir, rest, hp⟩ := List.append_of_mem hslash
    have hn : GlobBody anyChar ['*', '*'] dir := globBody_twoStars.mpr fun _ _ => trivial
    have ha : isAccepted ("/**/**" : Str) = true := by decide
    have hm := h ['*', '*'] dir rest ("/**/**" : Str) hn hp rfl (by decide) ha
    have hb := (patternMatches_below (d := ['*', '*']) rfl (by decide) ha).mp hm
    obtain ⟨u, v, he, ⟨-, hu⟩, hv⟩ := (globBody_directories (n := 2) (by omega)).mp hb
    rw [he] at hlf
    rcases List.mem_append.mp hlf with hlf | hlf
    · exact hu _ hlf rfl
    · exact globBody_twoStars.mp hv _ hlf rfl
  · rintro (hlf | hslash) d dir rest pattern hn hp hb hnorm ha
    · exact reaches_of_no_line_feed hn hp hb (normalizePattern_strip hnorm) ha hlf
    · exact absurd (by rw [hp]; simp) hslash

end

/-! ## Human evidence does not depend on application reviews -/

theorem mem_latest_of_human {reviews reviews' : List PullRequestReview}
    (h : reviews.filter (·.actor.kind = .HUMAN) = reviews'.filter (·.actor.kind = .HUMAN))
    {review : PullRequestReview} (hk : review.actor.kind = .HUMAN)
    (hm : review ∈ latestOpinionatedReviews reviews) : review ∈ latestOpinionatedReviews reviews' := by
  unfold latestOpinionatedReviews at hm ⊢
  rw [(List.perm_insertionSort _ _).mem_iff, Dict.mem_values] at hm ⊢
  obtain ⟨k, hg⟩ := hm
  refine ⟨k, ?_⟩
  rw [Dict.get?_group] at hg ⊢
  have hkey : actorKey review = k := by
    obtain ⟨hm, -⟩ := foldl_keepLatest _ _ _ hg
    have hm := hm.resolve_left (by simp)
    simpa using (List.mem_filter.mp hm).2
  have hfilter : ∀ l : List PullRequestReview,
      (l.filter (isOpinionated ·.state)).filter (actorKey · = k) =
        ((l.filter (·.actor.kind = .HUMAN)).filter (isOpinionated ·.state)).filter (actorKey · = k) := by
    intro l
    simp only [List.filter_filter]
    refine List.filter_congr fun r _ => ?_
    by_cases hr : actorKey r = k
    · have : r.actor.kind = .HUMAN := by
        rw [← hkey] at hr
        exact (congrArg Prod.fst hr).trans hk
      simp [hr, this]
    · simp [hr]
  rw [hfilter] at hg ⊢
  rw [← h]; exact hg

section
variable [PyText]

theorem humanDecides_of_human {data : EvaluationInput} {reviews : List PullRequestReview}
    (h : data.reviews.filter (·.actor.kind = .HUMAN) = reviews.filter (·.actor.kind = .HUMAN))
    {owners : List Str} (hd : HumanDecides data owners) :
    HumanDecides { data with reviews := reviews } owners := by
  refine hd.imp ?_ fun ha => ha
  rintro ⟨a, ha, hm⟩
  refine ⟨a, ?_, hm⟩
  simp only [humanApprovalsByOwner, currentApprovals, List.mem_map, List.mem_filter,
    decide_eq_true_eq] at ha ⊢
  obtain ⟨review, ⟨⟨⟨hl, happ⟩, hs⟩, hk⟩, rfl⟩ := ha
  exact ⟨review, ⟨⟨⟨mem_latest_of_human h hk hl, happ⟩, hs⟩, hk⟩, rfl⟩

/-- The requirement that holds a path out of the reach of applications. -/
theorem requirement_of_nonDelegable {data : EvaluationInput} {path : RepositoryPath}
    (hn : ∀ document policy, parseCodeowners data.codeowners_text = .ok document →
      document.ownersFor path ≠ [] →
      compilePolicy data.organization_policy data.repository_policy data.options = .ok policy →
      policy.isNonDelegable path = true)
    {r : OwnerSetResult} (hr : r ∈ (evaluate data).requirements) (hp : path ∈ r.paths) :
    (∃ document, parseCodeowners data.codeowners_text = .ok document ∧
      r.owners = sortedOwners document path) ∧ (r.satisfied = true ↔ HumanDecides data r.owners) := by
  unfold evaluate at hr
  split at hr
  · cases hr
  · cases hd : parseCodeowners data.codeowners_text with
    | error issues => rw [hd] at hr; cases hr
    | ok document =>
      rw [hd] at hr
      cases hc : compilePolicy data.organization_policy data.repository_policy data.options with
      | error issues => rw [hc] at hr; cases hr
      | ok policy =>
        rw [hc] at hr
        have hr' : r ∈ evaluationRequirements data document policy := by
          simp only [evaluateWith] at hr
          split at hr
          · exact hr
          · split at hr <;> exact hr
        obtain ⟨owners, ps, hps, rfl⟩ := mem_evaluationRequirements.mp hr'
        obtain ⟨ho, hpaths⟩ := ownerSetResult_fields (evidenceOf data policy) owners ps
        rw [hpaths] at hp
        obtain ⟨hne, -, hmem⟩ := ownerPaths_entry hps
        obtain ⟨-, hown⟩ := (hmem path).mp hp
        refine ⟨⟨document, rfl, by rw [ho, hown]⟩, ?_⟩
        rw [ho, ownerSetResult_satisfied]
        constructor
        · rintro (hh | happ)
          · exact hh
          · have howned : document.ownersFor path ≠ [] := fun e =>
              hne (hown ▸ sortedOwners_eq_nil.mpr e)
            have := (happ path hp).delegable
            rw [show (evidenceOf data policy).policy = policy from rfl,
              hn document policy hd howned hc] at this
            cases this
        · exact Or.inl

end

/-! ## A line feed below a guarded directory -/

/-- A pattern without single wildcards reaches no line feed. -/
theorem builtin_misses {path : RepositoryPath} (hlf : '\n' ∈ path.1) {pattern : Str}
    (hm : pattern ∈ BUILTIN_NON_DELEGABLE_PATHS) : patternMatches path pattern = false := by
  have hliteral : ∀ l : Str, l.all isLiteral = true → endsWith '/' l = false → '\n' ∉ l →
      ¬ GlobMatches notLineFeed ('/' :: l) path.1 := by
    intro l hl he hn hg
    have hl := List.all_iff_forall_prop.mp hl
    rcases globMatches_literal hl he hg with h | ⟨rest, h, hr⟩
    · exact hn (h ▸ hlf)
    · rw [h] at hlf
      rcases List.mem_append.mp hlf with hlf | hlf
      · exact hn hlf
      · rcases List.mem_cons.mp hlf with hlf | hlf
        · cases hlf
        · exact hr _ hlf rfl
  have hbelow : ∀ d : Str, d.all isLiteral = true → '\n' ∉ d →
      ¬ GlobMatches notLineFeed ('/' :: belowDirectory d) path.1 := by
    intro d hd hn hg
    have hd := List.all_iff_forall_prop.mp hd
    obtain ⟨rest, h, hr⟩ := (globBody_belowDirectory hd).mp ((globMatches_below rfl).mp hg)
    rw [h] at hlf
    rcases List.mem_append.mp hlf with hlf | hlf
    · exact hn hlf
    · rcases List.mem_cons.mp hlf with hlf | hlf
      · cases hlf
      · exact hr _ hlf rfl
  by_contra hne
  have hpm : patternMatches path pattern = true := by simpa using hne
  have hfacts : ∀ pattern ∈ BUILTIN_NON_DELEGABLE_PATHS,
      strip pattern = pattern ∧ isAccepted pattern = true := by decide
  obtain ⟨hs, ha⟩ := hfacts pattern hm
  rw [patternMatches_iff hs ha] at hpm
  simp only [BUILTIN_NON_DELEGABLE_PATHS, List.mem_cons, List.not_mem_nil, or_false] at hm
  rcases hm with rfl | rfl | rfl | rfl | rfl | rfl
  · exact hliteral ("CODEOWNERS" : Str) (by decide) (by decide) (by decide) hpm
  · exact hliteral (".github/CODEOWNERS" : Str) (by decide) (by decide) (by decide) hpm
  · exact hliteral ("docs/CODEOWNERS" : Str) (by decide) (by decide) (by decide) hpm
  · exact hliteral ("stampbot.toml" : Str) (by decide) (by decide) (by decide) hpm
  · exact hbelow (".github/workflows" : Str) (by decide) (by decide) hpm
  · exact hbelow (".github/actions" : Str) (by decide) (by decide) hpm

def botApplication : EnrolledApplication := ⟨("bot" : Str), 1, 1⟩

def botReview : PullRequestReview where
  review_id := 1
  actor := ⟨.APPLICATION, ("bot[bot]" : Str), 1, some 1, some ("bot" : Str), ∅, false, by decide⟩
  state := .APPROVED
  commit_sha := none
  submitted_at := 0

def botOrganization (guardrails : Guardrails) : OrganizationPolicy where
  apps := Dict.empty.set ("bot" : Str) botApplication
  guardrails := guardrails
  at_most := by decide
  identities_are_unique := by
    intro a b x y ha hb _
    rw [Dict.get?_set] at ha hb
    by_cases h₁ : a = ("bot" : Str)
    · by_cases h₂ : b = ("bot" : Str)
      · rw [h₁, h₂]
      · rw [if_neg h₂] at hb; cases hb
    · rw [if_neg h₁] at ha; cases ha

def botDelegation (pattern : Str) (h : normalizePattern pattern = .ok pattern) : Delegation where
  app := ("bot" : Str)
  paths := [pattern]
  for_owners := [['*']]
  required_labels := ∅
  forbidden_labels := ∅
  validate_paths := by simp [h]
  validate_for_owners := by simp
  at_most := by simp
  label_sets_do_not_overlap := by simp

def botPolicy (delegation : Delegation) (h : delegation.paths.length ≤ 1000) : RepositoryPolicy where
  enabled := true
  allow_author_as_codeowner := false
  allow_delegation_for_policy_file := true
  delegations := [delegation]
  at_most := by simp
  delegation_complexity_is_bounded := by simpa using h

def botOptions : EvaluationOptions := { sampleOptions with exact_head_reviews := false }

/-- One changed path, a delegation of everything that matches `pattern`, and
an approval of the application alone. -/
def botInput (path : RepositoryPath) (text : Str) (guardrails : Guardrails) (pattern : Str)
    (h : normalizePattern pattern = .ok pattern) : EvaluationInput where
  head_sha := ("c0ffee" : Str)
  codeowners_text := text
  changed_files := [⟨path, .MODIFIED, none, by simp⟩]
  reviews := [botReview]
  author := none
  labels := ∅
  organization_policy := botOrganization guardrails
  repository_policy := botPolicy (botDelegation pattern h) (by simp [botDelegation])
  options := botOptions

section
variable [PyText]

theorem botInput_satisfied {path : RepositoryPath} {text : Str} {document : CodeownersDocument}
    {guardrails : Guardrails} {pattern : Str} {h : normalizePattern pattern = .ok pattern}
    (hd : parseCodeowners text = .ok document) (ho : document.ownersFor path ≠ [])
    (hg : ∀ g ∈ guardrails.non_delegable_paths, isAccepted g = true ∧ patternMatches path g = false)
    (hlf : '\n' ∈ path.1) (ha : isAccepted pattern = true) (hp : patternMatches path pattern = true) :
    ∃ r ∈ (evaluate (botInput path text guardrails pattern h)).requirements,
      path ∈ r.paths ∧ r.satisfied = true := by
  have hpatterns : ∀ g ∈ nonDelegablePatterns (botOrganization guardrails)
      (botPolicy (botDelegation pattern h) (by simp [botDelegation])) botOptions,
      isAccepted g = true ∧ patternMatches path g = false := by
    intro g hm
    have hm' : g ∈ BUILTIN_NON_DELEGABLE_PATHS ++ guardrails.non_delegable_paths := hm
    rcases List.mem_append.mp hm' with hm | hm
    · exact ⟨(by decide : ∀ g ∈ BUILTIN_NON_DELEGABLE_PATHS, isAccepted g = true) g hm,
        builtin_misses hlf hm⟩
    · exact hg g hm
  have happ : (botOrganization guardrails).apps.get? ("bot" : Str) = some botApplication :=
    Dict.get?_set_self _ _ _
  obtain ⟨policy, hc⟩ := compilePolicy_exists (fun g hm => (hpatterns g hm).1)
    (fun d hm => by rw [List.mem_singleton.mp hm]; exact ⟨botApplication, happ⟩)
    (fun d hm q hq => by
      rw [List.mem_singleton.mp hm] at hq
      rw [List.mem_singleton.mp hq]; exact ha)
  have hmem : path ∈ evaluationPaths (botInput path text guardrails pattern h) :=
    mem_evaluationPaths.mpr ⟨_, List.mem_singleton.mpr rfl, Or.inl rfl⟩
  have howned : sortedOwners document path ≠ [] := fun e => ho (sortedOwners_eq_nil.mp e)
  obtain ⟨ps, hps, hin⟩ := ownerPaths_exists hmem howned
  have heval : evaluate (botInput path text guardrails pattern h) =
      evaluateWith (botInput path text guardrails pattern h) document policy := by
    unfold evaluate
    rw [show (botInput path text guardrails pattern h).codeowners_text = text from rfl, hd]
    simp only
    rw [show compilePolicy (botInput path text guardrails pattern h).organization_policy
      (botInput path text guardrails pattern h).repository_policy
      (botInput path text guardrails pattern h).options = .ok policy from hc]
    rfl
  refine ⟨ownerSetResult (evidenceOf (botInput path text guardrails pattern h) policy)
    (sortedOwners document path) ps, ?_, ?_, ?_⟩
  · rw [heval]
    have hr : ownerSetResult (evidenceOf (botInput path text guardrails pattern h) policy)
        (sortedOwners document path) ps ∈
          evaluationRequirements (botInput path text guardrails pattern h) document policy :=
      mem_evaluationRequirements.mpr ⟨_, ps, hps, rfl⟩
    simp only [evaluateWith]
    split
    · exact hr
    · split <;> exact hr
  · rw [(ownerSetResult_fields _ _ _).2]; exact hin
  · rw [ownerSetResult_satisfied]
    right
    intro q hq
    -- the only changed path is the given one
    obtain ⟨hqp, -⟩ := ((ownerPaths_entry hps).2.2 q).mp hq
    obtain ⟨file, hf, hfile⟩ := mem_evaluationPaths.mp hqp
    rw [List.mem_singleton.mp hf] at hfile
    have hqe : q = path := (hfile.resolve_right (by simp)).symm
    subst hqe
    have hids : ((botInput q text guardrails pattern h).reviews.map (·.review_id)).Nodup := by
      simp [botInput]
    have hcurrent : CurrentApproval (botInput q text guardrails pattern h) botReview := by
      refine ⟨List.mem_singleton.mpr rfl, rfl, fun other hm _ _ => ?_, fun h => by cases h⟩
      rw [List.mem_singleton.mp hm]
    have hcovers : Covers (botDelegation pattern h) q (sortedOwners document q) ∅ :=
      ⟨⟨pattern, List.mem_singleton.mpr rfl, hp⟩, Or.inl (by simp [botDelegation]),
        by simp [botDelegation], by simp [botDelegation]⟩
    exact (appCovers_iff hids hc).mpr ⟨fun g hm => (hpatterns g hm).2, _, List.mem_singleton.mpr rfl,
      hcovers, botApplication, happ, botReview, hcurrent, rfl, rfl, rfl, rfl, rfl⟩

theorem botInput_no_human {path : RepositoryPath} {text : Str} {guardrails : Guardrails} {pattern : Str}
    {h : normalizePattern pattern = .ok pattern} {owners : List Str} :
    ¬ HumanDecides (botInput path text guardrails pattern h) owners := by
  rintro (⟨a, ha, -⟩ | ⟨author, ha, -⟩)
  · simp only [humanApprovalsByOwner, List.mem_map, List.mem_filter, decide_eq_true_eq] at ha
    obtain ⟨review, ⟨hm, hk⟩, -⟩ := ha
    have hids : ((botInput path text guardrails pattern h).reviews.map (·.review_id)).Nodup := by
      simp [botInput]
    have hr : review ∈ [botReview] := ((mem_currentApprovals hids).mp hm).submitted
    rw [List.mem_singleton.mp hr] at hk
    cases hk
  · cases ha

theorem guardrailSafe_iff_reaches {names : Str → Str → Prop} {path : RepositoryPath}
    (hself : ∀ d, names d d) (hglob : ∀ d dir, names d dir → GlobBody anyChar d dir) :
    GuardrailSafe names path ↔ Reaches names path ∨ ¬ CanBeOwned path := by
  constructor
  · intro hsafe
    by_contra hcon
    simp only [not_or, not_not] at hcon
    obtain ⟨hn, text, document, hd, ho⟩ := hcon
    unfold Reaches at hn
    push Not at hn
    obtain ⟨d, dir, rest, pattern, hname, hp, hb, hguard, hacc, hmiss⟩ := hn
    have hcov := normalizePattern_accepted (strip_coveringPattern path) (isAccepted_coveringPattern path)
    have hlf : '\n' ∈ path.1 := by
      by_contra hlf
      exact hmiss (reaches_of_no_line_feed (hglob d dir hname) hp hb (normalizePattern_strip hguard)
        hacc hlf)
    let guardrails : Guardrails := ⟨[pattern], by simp, by simpa using hguard⟩
    have hg : ∀ g ∈ guardrails.non_delegable_paths,
        isAccepted g = true ∧ patternMatches path g = false := by
      intro g hg; rw [List.mem_singleton.mp hg]; exact ⟨hacc, by simpa using hmiss⟩
    have hsatisfied : ∃ r ∈ (evaluate (botInput path text guardrails _ hcov)).requirements,
        path ∈ r.paths ∧ r.satisfied = true :=
      botInput_satisfied hd ho hg hlf (isAccepted_coveringPattern path)
        (patternMatches_coveringPattern path)
    obtain ⟨r, hr, hin, hsat⟩ := hsatisfied
    exact botInput_no_human (hsafe.human _ rfl (.guardrail d dir rest pattern hname
      (List.mem_singleton.mpr rfl) hb hp) r hr hin hsat)
  · intro hcond
    have hn : ∀ data : EvaluationInput, data.options.allow_insecure_changes = false →
        IsProtected names data path → ∀ document policy,
        parseCodeowners data.codeowners_text = .ok document → document.ownersFor path ≠ [] →
        compilePolicy data.organization_policy data.repository_policy data.options = .ok policy →
        policy.isNonDelegable path = true := by
      intro data hi hp document policy hd ho hc
      rcases hcond with hcond | hcond
      · exact isProtected_isNonDelegable hc hi hself hcond hp
      · exact absurd ⟨_, document, hd, ho⟩ hcond
    refine ⟨?_, ?_⟩
    · intro data hi hp r hr hin hs
      exact (requirement_of_nonDelegable (hn data hi hp) hr hin).2.mp hs
    · intro data reviews hi hp hrev r hr r' hr' hin hin'
      have hn' := hn { data with reviews := reviews } hi (hp.withReviews reviews)
      obtain ⟨⟨document, hd, ho⟩, hs⟩ := requirement_of_nonDelegable (hn data hi hp) hr hin
      obtain ⟨⟨document', hd', ho'⟩, hs'⟩ :=
        requirement_of_nonDelegable hn' hr' hin'
      have hdoc : document = document' := by
        rw [show ({ data with reviews := reviews } : EvaluationInput).codeowners_text =
          data.codeowners_text from rfl, hd] at hd'
        exact Except.ok.inj hd'
      subst hdoc
      refine ⟨ho.trans ho'.symm, ?_⟩
      rw [Bool.eq_iff_iff, hs, hs', ho, ho']
      constructor
      · exact humanDecides_of_human hrev.symm
      · intro hh
        have hback : HumanDecides { { data with reviews := reviews } with reviews := data.reviews }
            (sortedOwners document path) := humanDecides_of_human hrev hh
        exact hback

/-- The guardrails hold for a path against every policy, text and set of
reviews exactly when every guardrail named after a directory of it reaches it;
with a guardrail's directory read as a pattern, exactly when the path has no
line feed or lies in no directory. A path that no CODEOWNERS text gives an
owner is safe either way. -/
theorem guardrailSafe_iff (path : RepositoryPath) :
    (GuardrailSafe Eq path ↔
      (∀ d rest, path.1 = d ++ '/' :: rest → '[' ∉ d → ']' ∉ d →
        patternMatches path ('/' :: belowDirectory d) = true) ∨ ¬ CanBeOwned path) ∧
    (GuardrailSafe (GlobBody anyChar) path ↔
      ('\n' ∉ path.1 ∨ '/' ∉ path.1) ∨ ¬ CanBeOwned path) := by
  have hrefl : ∀ d, GlobBody anyChar d d := globBody_refl trivial trivial
  constructor
  · rw [← reaches_named]
    refine guardrailSafe_iff_reaches (fun _ => rfl) ?_
    rintro d _ rfl
    exact hrefl d
  · rw [← reaches_matching]
    exact guardrailSafe_iff_reaches hrefl fun _ _ h => h

end

def lineFeedPath : RepositoryPath := ⟨(".github/workflows/a\nb.yml" : Str), by decide⟩

theorem noPaths_atMost : ([] : List Str).length ≤ 100 := Nat.zero_le _

theorem noPaths_normalized : ∀ p ∈ ([] : List Str), normalizePattern p = .ok p := by simp

theorem star_normalized : normalizePattern ['*'] = .ok ['*'] := by decide

def lineFeedInput : EvaluationInput :=
  botInput lineFeedPath ("* @octo\n" : Str) ⟨[], noPaths_atMost, noPaths_normalized⟩ ['*']
    star_normalized

/-- A workflow file whose name holds a line feed: the delegation `*` reaches it
and `/.github/workflows/**` does not. -/
theorem workflow_with_line_feed : ¬ @GuardrailSafe asciiText Eq lineFeedPath := by
  intro hsafe
  have hsat : ∃ r ∈ (@evaluate asciiText lineFeedInput).requirements,
      lineFeedPath ∈ r.paths ∧ r.satisfied = true := by decide
  obtain ⟨r, hr, hin, hs⟩ := hsat
  exact @botInput_no_human asciiText _ _ _ _ _ _
    (@GuardrailSafe.human asciiText _ _ hsafe lineFeedInput rfl (.workflows ("a\nb.yml" : Str) (by decide))
      r hr hin hs)

end ExtraCodeowners
