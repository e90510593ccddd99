import ExtraCodeowners.ReleasePlan

/-!
# Planned releases in order

A planned version follows every tag there is, and planning again at the tagged
commit gives the same plan. So the versions of releases planned and tagged one
after the other increase.
-/

namespace ExtraCodeowners.Release

/-! ## Successful reads -/

section
variable {C : Type} {r : GitRepository C}

section
variable [UnicodeTables]

theorem readTag_ok {name : Str} {tag : ReleaseTag C} : readTag r name = .ok tag ↔
    tag.name = name ∧ r.rev_parse name = .ok tag.commit ∧ Version.from_tag name = .ok tag.version := by
  unfold readTag
  cases tag with
  | mk n v c =>
    cases hc : r.rev_parse name with
    | error e => simp [Bind.bind, Except.bind]
    | ok commit =>
      cases hv : Version.from_tag name with
      | error e => simp [Bind.bind, Except.bind]
      | ok version =>
        simp only [Bind.bind, Except.bind, pure, Except.pure, Except.ok.injEq, ReleaseTag.mk.injEq]
        constructor
        · intro ⟨h₁, h₂, h₃⟩
          exact ⟨h₁.symm, h₃, h₂⟩
        · intro ⟨h₁, h₂, h₃⟩
          exact ⟨h₁.symm, h₃, h₂⟩

def IsReleaseName (name : Str) : Bool := (SEMVER_TAG name).isSome

theorem read_release_tags_ok {tags : List (ReleaseTag C)} : read_release_tags r = .ok tags ↔
    (∀ name ∈ r.tagNames, RELEVANT_TAG name = true → IsReleaseName name = true) ∧
      List.Forall₂ (fun name tag => readTag r name = .ok tag) (r.tagNames.filter IsReleaseName) tags := by
  have hmalformed : sorted (r.tagNames.filter fun name => RELEVANT_TAG name && (SEMVER_TAG name).isNone) = [] ↔
      ∀ name ∈ r.tagNames, RELEVANT_TAG name = true → IsReleaseName name = true := by
    rw [List.eq_nil_iff_forall_not_mem]
    simp only [mem_sorted, List.mem_filter, Bool.and_eq_true, not_and, IsReleaseName]
    refine forall_congr' fun name => imp_congr_right fun _ => imp_congr_right fun _ => ?_
    cases SEMVER_TAG name <;> simp
  unfold read_release_tags
  by_cases h : sorted (r.tagNames.filter fun name => RELEVANT_TAG name && (SEMVER_TAG name).isNone) = []
  · rw [if_neg (not_not.mpr h), mapM_ok]
    exact (and_iff_right (hmalformed.mp h)).symm
  · rw [if_pos h]
    have := mt hmalformed.mpr h
    simp [this]

theorem read_tag {tags : List (ReleaseTag C)} (h : read_release_tags r = .ok tags) {tag : ReleaseTag C}
    (ht : tag ∈ tags) : Version.from_tag tag.name = .ok tag.version := by
  obtain ⟨name, -, hn⟩ := forall₂_left (read_release_tags_ok.mp h).2.flip _ ht
  obtain ⟨rfl, -, hv⟩ := readTag_ok.mp hn
  exact hv

end

/-! ## A new tag in the listing -/

def listing (refs : List (Str × Option C)) : Str := refs.flatMap fun ref => ref.1 ++ ['\n']

theorem splitlines_listing (refs : List (Str × Option C)) (s : Str) :
    splitlines (listing refs ++ s) = splitlines (listing refs) ++ splitlines s := by
  rcases List.eq_nil_or_concat refs with rfl | ⟨refs, ref, rfl⟩
  · rfl
  · rw [List.concat_eq_append]
    have he : listing (refs ++ [ref]) = listing refs ++ ref.1 ++ ['\n'] := by
      simp [listing]
    rw [he, List.append_assoc (listing refs ++ ref.1), List.singleton_append, splitlines_append]

theorem tagNames_append (before after : List (Str × Option C)) :
    splitlines (listing (before ++ after)) = splitlines (listing before) ++ splitlines (listing after) := by
  rw [← splitlines_listing, listing, listing, listing, List.flatMap_append]

theorem tagNames_cons {name : Str} (hn : ∀ c ∈ name, isLineBreak c = false) (commit : Option C)
    (after : List (Str × Option C)) :
    splitlines (listing ((name, commit) :: after)) = name :: splitlines (listing after) := by
  have he : listing ((name, commit) :: after) = name ++ '\n' :: listing after := by
    simp [listing]
  rw [he, splitlines_line hn]

/-- HEAD gets the tag; where in the listing it stands is up to git. -/
inductive Tagged (r : GitRepository C) (name : Str) : GitRepository C → Prop
  | intro (before after : List (Str × Option C)) (h : r.refs = before ++ after) :
    Tagged r name { r with refs := before ++ (name, some r.head) :: after }

theorem mem_tagNames_of_mem {before after : List (Str × Option C)} {name : Str} {commit : Option C}
    (h : r.refs = before ++ (name, commit) :: after) (hn : ∀ c ∈ name, isLineBreak c = false) :
    name ∈ r.tagNames := by
  change name ∈ splitlines (listing r.refs)
  rw [h, tagNames_append, tagNames_cons hn]
  simp

theorem rev_parse_append {before after : List (Str × Option C)} {name other : Str}
    {commit : Option C} (h : r.refs = before ++ after) (hne : name ≠ other) :
    ({ r with refs := before ++ (other, commit) :: after } : GitRepository C).rev_parse name =
      r.rev_parse name := by
  unfold GitRepository.rev_parse
  simp only [h, List.find?_append]
  rw [List.find?_cons_of_neg (by simpa using hne.symm)]

theorem rev_parse_new {before after : List (Str × Option C)} {name : Str} {commit : C}
    (hfresh : ∀ ref ∈ before, ref.1 ≠ name) :
    ({ r with refs := before ++ (name, some commit) :: after } : GitRepository C).rev_parse name =
      .ok commit := by
  have hb : before.find? (fun ref => ref.1 = name) = none := by
    rw [List.find?_eq_none]
    intro ref href
    simpa using hfresh ref href
  unfold GitRepository.rev_parse
  simp [List.find?_append, hb]

section
variable [UnicodeTables]

/-- A version that no tag has is spelled by no tag of the listing. -/
theorem ne_tag_of_mem {tags : List (ReleaseTag C)} (h : read_release_tags r = .ok tags) {v : Version}
    (hv : v.alpha ≠ some 0) (hne : ∀ t ∈ tags, t.version ≠ v) : ∀ name ∈ r.tagNames, name ≠ v.tag := by
  intro name hn he
  subst he
  have hrel : IsReleaseName v.tag = true := by rw [IsReleaseName, SEMVER_TAG_tag hv]; rfl
  obtain ⟨tag, htag, hread⟩ :=
    forall₂_left (read_release_tags_ok.mp h).2 _ (List.mem_filter.mpr ⟨hn, hrel⟩)
  obtain ⟨-, -, hversion⟩ := readTag_ok.mp hread
  rw [from_tag_tag hv] at hversion
  cases hversion
  exact hne tag htag rfl

/-- Reading after a new tag finds the tags there were and the new one. -/
theorem read_tagged {tags : List (ReleaseTag C)} (h : read_release_tags r = .ok tags) {v : Version}
    (hv : v.alpha ≠ some 0) (hne : ∀ t ∈ tags, t.version ≠ v) {r' : GitRepository C}
    (ht : Tagged r v.tag r') :
    ∃ t₁ t₂, tags = t₁ ++ t₂ ∧ read_release_tags r' = .ok (t₁ ++ ⟨v.tag, v, r.head⟩ :: t₂) := by
  obtain ⟨before, after, hrefs⟩ := ht
  have hfresh := ne_tag_of_mem h hv hne
  have hline := v.tag_oneLine
  have hnames : r.tagNames = splitlines (listing before) ++ splitlines (listing after) := by
    change splitlines (listing r.refs) = _
    rw [hrefs, tagNames_append]
  obtain ⟨hrel, hread⟩ := read_release_tags_ok.mp h
  rw [hnames, List.filter_append] at hread
  obtain ⟨t₁, t₂, h₁, h₂, rfl⟩ : ∃ t₁ t₂,
      List.Forall₂ (fun name tag => readTag r name = .ok tag)
        ((splitlines (listing before)).filter IsReleaseName) t₁ ∧
      List.Forall₂ (fun name tag => readTag r name = .ok tag)
        ((splitlines (listing after)).filter IsReleaseName) t₂ ∧ tags = t₁ ++ t₂ :=
    ⟨_, _, (List.forall₂_take_append _ _ _ hread.flip).flip,
      (List.forall₂_drop_append _ _ _ hread.flip).flip, (List.take_append_drop _ _).symm⟩
  refine ⟨t₁, t₂, rfl, read_release_tags_ok.mpr ⟨?_, ?_⟩⟩
  · intro name hn
    change name ∈ splitlines (listing (before ++ (v.tag, some r.head) :: after)) at hn
    rw [tagNames_append, tagNames_cons hline, List.mem_append, List.mem_cons] at hn
    have hold : name ∈ splitlines (listing before) ++ splitlines (listing after) →
        RELEVANT_TAG name = true → IsReleaseName name = true := by
      intro hn
      exact hrel name (by rw [hnames]; exact hn)
    rcases hn with hn | rfl | hn
    · exact hold (List.mem_append_left _ hn)
    · intro _
      rw [IsReleaseName, SEMVER_TAG_tag hv]
      rfl
    · exact hold (List.mem_append_right _ hn)
  · have hkeep : ∀ name ∈ r.tagNames, ∀ tag, readTag r name = .ok tag →
        readTag { r with refs := before ++ (v.tag, some r.head) :: after } name = .ok tag := by
      intro name hn tag htag
      rw [readTag_ok] at htag ⊢
      rw [rev_parse_append hrefs (hfresh name hn)]
      exact htag
    have hnew : readTag { r with refs := before ++ (v.tag, some r.head) :: after } v.tag =
        .ok ⟨v.tag, v, r.head⟩ := by
      refine readTag_ok.mpr ⟨rfl, rev_parse_new ?_, from_tag_tag hv⟩
      intro ref href he
      obtain ⟨b₁, b₂, rfl⟩ := List.append_of_mem href
      have hsplit : r.refs = b₁ ++ (v.tag, ref.2) :: (b₂ ++ after) := by
        rw [hrefs, ← he]
        simp
      exact hfresh v.tag (mem_tagNames_of_mem hsplit hline) rfl
    have hspelled : IsReleaseName v.tag = true := by
      rw [IsReleaseName, SEMVER_TAG_tag hv]
      rfl
    change List.Forall₂ _ ((splitlines (listing (before ++ (v.tag, some r.head) :: after))).filter _) _
    rw [tagNames_append, tagNames_cons hline, List.filter_append, List.filter_cons_of_pos hspelled]
    have hkept : ∀ (names : List Str) (ts : List (ReleaseTag C)), (∀ name ∈ names, name ∈ r.tagNames) →
        List.Forall₂ (fun name tag => readTag r name = .ok tag) (names.filter IsReleaseName) ts →
        List.Forall₂ (fun name tag => readTag { r with refs := before ++ (v.tag, some r.head) :: after }
          name = .ok tag) (names.filter IsReleaseName) ts := by
      intro names ts hsub hts
      have hboth : List.Forall₂ (fun name tag => name ∈ r.tagNames ∧ readTag r name = .ok tag)
          (names.filter IsReleaseName) ts :=
        (List.forall₂_and_left _ _).mpr ⟨fun name hn => hsub name (List.mem_of_mem_filter hn), hts⟩
      exact hboth.imp fun name tag hb => hkeep name hb.1 tag hb.2
    refine List.rel_append (hkept _ _ ?_ h₁) (.cons hnew (hkept _ _ ?_ h₂))
    · intro name hn
      rw [hnames]
      exact List.mem_append_left _ hn
    · intro name hn
      rw [hnames]
      exact List.mem_append_right _ hn

end

/-! ## Linear histories -/

section
variable [DecidableEq C]

theorem ambiguousTags_eq_nil {tags : List (ReleaseTag C)} :
    ambiguousTags tags = [] ↔ (tags.map ReleaseTag.commit).Nodup := by
  rw [ambiguousTags, List.filter_eq_nil_iff, List.nodup_iff_count_le_one]
  have hcount : ∀ commit : C, (tags.map ReleaseTag.commit).count commit =
      ((tags.filter fun tag => tag.commit = commit).map ReleaseTag.name).length := by
    intro commit
    rw [List.length_map, ← List.countP_eq_length_filter, List.count_eq_countP, List.countP_map]
    refine List.countP_congr fun tag _ => ?_
    simp
  simp only [List.forall_mem_map, mem_fromKeys, decide_eq_true_eq, ← hcount]
  constructor
  · intro h commit
    by_cases hc : commit ∈ tags.map ReleaseTag.commit
    · obtain ⟨tag, htag, rfl⟩ := List.mem_map.mp hc
      have := h tag htag
      omega
    · rw [List.count_eq_zero.mpr hc]
      exact Nat.zero_le _
  · intro h tag _
    have := h tag.commit
    omega

variable [PartialOrder C] [DecidableLE C]

omit [DecidableEq C] in
theorem checkPairs_ok {tags : List (ReleaseTag C)} : checkPairs tags = .ok () ↔
    tags.IsChain fun older newer => older.commit ≤ newer.commit := by
  induction tags with
  | nil => simp [checkPairs]
  | cons older tags ih =>
    cases tags with
    | nil => simp [checkPairs]
    | cons newer tags =>
      rw [checkPairs, List.isChain_cons_cons]
      by_cases h : older.commit ≤ newer.commit
      · rw [if_pos h, ih]
        exact (and_iff_right h).symm
      · rw [if_neg h]
        split <;> simp [h]

theorem validate_linear_history_ok {tags : List (ReleaseTag C)} :
    validate_linear_history tags = .ok () ↔ (tags.map ReleaseTag.commit).Nodup ∧
      (byVersion tags).IsChain fun older newer => older.commit ≤ newer.commit := by
  unfold validate_linear_history
  by_cases h : ambiguousTags tags = []
  · rw [if_neg (not_not.mpr h), checkPairs_ok]
    exact (and_iff_right (ambiguousTags_eq_nil.mp h)).symm
  · rw [if_pos h]
    simp [mt ambiguousTags_eq_nil.mpr h]

omit [DecidableEq C] [PartialOrder C] [DecidableLE C] in
theorem mem_byVersion {tags : List (ReleaseTag C)} {tag : ReleaseTag C} :
    tag ∈ byVersion tags ↔ tag ∈ tags := List.mem_insertionSort _

omit [DecidableEq C] [PartialOrder C] [DecidableLE C] in
/-- The highest version comes last, wherever it stood. -/
theorem byVersion_insert {new : ReleaseTag C} {before after : List (ReleaseTag C)}
    (h : ∀ t ∈ before ++ after, t.version.sort_key < new.version.sort_key) :
    byVersion (before ++ new :: after) = byVersion (before ++ after) ++ [new] := by
  have hlast : ∀ (a : ReleaseTag C) (l : List (ReleaseTag C)),
      a.version.sort_key < new.version.sort_key →
      (l ++ [new]).orderedInsert (fun a b => a.version.sort_key ≤ b.version.sort_key) a =
        l.orderedInsert (fun a b => a.version.sort_key ≤ b.version.sort_key) a ++ [new] := by
    intro a l ha
    induction l with
    | nil => simp [ha.le]
    | cons b l ih =>
      rw [List.cons_append, List.orderedInsert_cons, List.orderedInsert_cons]
      split
      · rfl
      · rw [ih, List.cons_append]
  induction before with
  | nil =>
    have hend : ∀ l : List (ReleaseTag C), (∀ t ∈ l, t.version.sort_key < new.version.sort_key) →
        l.orderedInsert (fun a b => a.version.sort_key ≤ b.version.sort_key) new = l ++ [new] := by
      intro l hl
      induction l with
      | nil => rfl
      | cons b l ih =>
        rw [List.orderedInsert_cons, if_neg (not_le.mpr (hl b (by simp))),
          ih fun t ht => hl t (by simp [ht]), List.cons_append]
    exact hend _ fun t ht => h t (mem_byVersion.mp ht)
  | cons a before ih =>
    have hrest := ih fun t ht => h t (List.mem_cons_of_mem a ht)
    unfold byVersion at hrest ⊢
    rw [List.cons_append, List.insertionSort_cons, hrest, hlast _ _ (h a (by simp)),
      List.cons_append, List.insertionSort_cons]

/-- A higher version at a later commit keeps the history linear. -/
theorem validate_insert {new : ReleaseTag C} {before after : List (ReleaseTag C)}
    (hv : validate_linear_history (before ++ after) = .ok ())
    (hversion : ∀ t ∈ before ++ after, t.version.sort_key < new.version.sort_key)
    (hcommit : ∀ t ∈ before ++ after, t.commit ≤ new.commit ∧ t.commit ≠ new.commit) :
    validate_linear_history (before ++ new :: after) = .ok () := by
  obtain ⟨hnodup, hchain⟩ := validate_linear_history_ok.mp hv
  refine validate_linear_history_ok.mpr ⟨?_, ?_⟩
  · have hperm : ((before ++ new :: after).map ReleaseTag.commit).Perm
        (new.commit :: (before ++ after).map ReleaseTag.commit) :=
      List.perm_middle.map _
    rw [hperm.nodup_iff, List.nodup_cons]
    refine ⟨?_, hnodup⟩
    intro hmem
    obtain ⟨t, ht, he⟩ := List.mem_map.mp hmem
    exact (hcommit t ht).2 he
  · rw [byVersion_insert hversion, List.isChain_append]
    refine ⟨hchain, List.isChain_singleton _, ?_⟩
    intro older hold newer hnew
    obtain rfl : new = newer := by simpa using hnew
    exact (hcommit older (mem_byVersion.mp (List.mem_of_mem_getLast? hold))).1

end

/-! ## Plans -/

section
variable [DecidableEq C] [PyText] [UnicodeTables] [PartialOrder C] [DecidableLE C]

omit [PartialOrder C] [DecidableLE C] in
theorem planNext_ok {tags reachable : List (ReleaseTag C)} {latest : ReleaseTag C} {next : Version}
    (h : planNext r tags reachable latest = .ok next) :
    (∀ t ∈ tags, t ∈ reachable) ∧ latest.version.sort_key < next.sort_key ∧ next.alpha ≠ some 0 := by
  unfold planNext at h
  by_cases hreach : latest ∉ reachable
  · rw [if_pos hreach] at h
    cases h
  · rw [if_neg hreach] at h
    by_cases hunreachable : sorted ((tags.filter (· ∉ reachable)).map ReleaseTag.name) ≠ []
    · rw [if_pos hunreachable] at h
      cases h
    · rw [if_neg hunreachable] at h
      by_cases hempty : (read_commits r (some latest.commit)).isEmpty = true
      · rw [if_pos hempty] at h
        cases h
      · rw [if_neg hempty] at h
        obtain ⟨channel, hc⟩ : ∃ channel, nextVersion latest.version channel
            (read_commits r (some latest.commit)) = next := by
          cases hc : select_release_channel r (read_commits r (some latest.commit))
              (if latest.version.alpha ≠ none then ("alpha" : Str) else ("stable" : Str)) with
          | error e =>
            rw [hc] at h
            cases h
          | ok channel =>
            rw [hc] at h
            exact ⟨channel, Except.ok.inj h⟩
        subst hc
        refine ⟨?_, nextVersion_lt _ _ _, nextVersion_alpha _ _ _⟩
        intro t ht
        by_contra hn
        refine hunreachable fun hnil => ?_
        have hmem : t.name ∈ sorted ((tags.filter (· ∉ reachable)).map ReleaseTag.name) := by
          rw [mem_sorted]
          exact List.mem_map_of_mem (List.mem_filter.mpr ⟨ht, by simpa using hn⟩)
        rw [hnil] at hmem
        cases hmem

omit [DecidableEq C] [PyText] [UnicodeTables] [PartialOrder C] [DecidableLE C] in
theorem le_latestTag {tags : List (ReleaseTag C)} {latest t : ReleaseTag C}
    (h : latestTag tags = some latest) (ht : t ∈ tags) :
    t.version.sort_key ≤ latest.version.sort_key :=
  List.le_of_mem_argmax (f := fun tag : ReleaseTag C => tag.version.sort_key) ht h

omit [DecidableEq C] [PyText] [PartialOrder C] [DecidableLE C] in
/-- The two checks on a calculated version pass. -/
theorem checkNext_ok {tags : List (ReleaseTag C)} (hread : read_release_tags r = .ok tags)
    {latest : ReleaseTag C} (hlatest : latestTag tags = some latest) {next : Version}
    (hlt : latest.version.sort_key < next.sort_key) (hn : next.alpha ≠ some 0) :
    (∀ t ∈ tags, t.name ≠ next.tag) ∧ ¬ next.sort_key ≤ latest.version.sort_key := by
  refine ⟨?_, not_le.mpr hlt⟩
  intro t ht he
  have hv := read_tag hread ht
  rw [he, from_tag_tag hn] at hv
  cases hv
  exact absurd (le_latestTag hlatest ht) (not_le.mpr hlt)

/-- The plan for an untagged HEAD and the tags it is calculated from. -/
structure Follows (r : GitRepository C) (tags : List (ReleaseTag C)) (plan : ReleasePlan) : Prop where
  linear : validate_linear_history tags = .ok ()
  behind : ∀ t ∈ tags, t.commit ≤ r.head
  greater : ∀ t ∈ tags, t.version.sort_key < plan.version.sort_key
  numbered : plan.version.alpha ≠ some 0
  previous : plan.previous_tag = (latestTag tags).map ReleaseTag.name

def Untagged (r : GitRepository C) : Prop :=
  ∀ tags, read_release_tags r = .ok tags → ∀ t ∈ tags, t.commit ≠ r.head

omit [DecidableEq C] [PyText] [UnicodeTables] in
theorem filter_behind {tags : List (ReleaseTag C)} (h : ∀ t ∈ tags, t.commit ≤ r.head) :
    (tags.filter fun tag => tag.commit ≤ r.head) = tags :=
  List.filter_eq_self.mpr fun t ht => by simpa using h t ht

theorem calculate_follows {shown : C → Str} {plan : ReleasePlan} {tags : List (ReleaseTag C)}
    (h : calculate_release_plan r shown = .ok plan) (hread : read_release_tags r = .ok tags)
    (hu : Untagged r) (hs : plan.superseded = false) : Follows r tags plan := by
  have hhead : (tags.filter fun tag => tag.commit = r.head) = [] := by
    rw [List.filter_eq_nil_iff]
    intro t ht
    simpa using hu tags hread t ht
  unfold calculate_release_plan at h
  simp only [hread, hhead, bind, Except.bind] at h
  rw [if_neg (by simp)] at h
  simp only [pure, Except.pure] at h
  cases hvalid : validate_linear_history (tags.filter fun tag => tag.commit ≤ r.head) with
  | error e =>
    rw [hvalid] at h
    cases h
  | ok u =>
    rw [hvalid] at h
    simp only at h
    cases hd : latestTag (tags.filter fun tag => r.head ≤ tag.commit) with
    | some descendant =>
      rw [hd] at h
      simp only at h
      cases hall : validate_linear_history tags with
      | error e =>
        rw [hall] at h
        cases h
      | ok u =>
        rw [hall] at h
        cases h
        cases hs
    | none =>
      rw [hd] at h
      simp only at h
      cases hlatest : latestTag tags with
      | none =>
        rw [hlatest] at h
        simp only at h
        obtain rfl : tags = [] := List.argmax_eq_none.mp hlatest
        cases hc : select_release_channel r (read_commits r none) ("alpha" : Str) with
        | error e =>
          rw [hc] at h
          cases h
        | ok channel =>
          rw [hc] at h
          cases h
          refine ⟨hvalid, by simp, by simp, ?_, by rw [hlatest]; rfl⟩
          simp only
          split <;> simp
      | some latest =>
        rw [hlatest] at h
        simp only at h
        cases hp : planNext r tags (tags.filter fun tag => tag.commit ≤ r.head) latest with
        | error e =>
          rw [hp] at h
          cases h
        | ok next =>
          rw [hp] at h
          simp only at h
          obtain ⟨hall, hlt, hn⟩ := planNext_ok hp
          obtain ⟨hfresh, hfollow⟩ := checkNext_ok hread hlatest hlt hn
          have hnone : tags.find? (fun tag => tag.name = next.tag) = none := by
            rw [List.find?_eq_none]
            intro t ht
            simpa using hfresh t ht
          rw [checkNext, hnone, if_neg hfollow] at h
          cases h
          have hbehind : ∀ t ∈ tags, t.commit ≤ r.head := by
            intro t ht
            simpa using (List.mem_filter.mp (hall t ht)).2
          rw [filter_behind hbehind] at hvalid
          refine ⟨hvalid, hbehind, ?_, hn, by rw [hlatest]; rfl⟩
          intro t ht
          exact lt_of_le_of_lt (le_latestTag hlatest ht) hlt

theorem calculate_reads {shown : C → Str} {plan : ReleasePlan}
    (h : calculate_release_plan r shown = .ok plan) : ∃ tags, read_release_tags r = .ok tags := by
  unfold calculate_release_plan at h
  cases hread : read_release_tags r with
  | error e =>
    rw [hread] at h
    cases h
  | ok tags => exact ⟨tags, rfl⟩

/-- A plan for a HEAD whose tag is the only one there. -/
theorem calculate_tagged {shown : C → Str} {before after : List (ReleaseTag C)} {new : ReleaseTag C}
    (hread : read_release_tags r = .ok (before ++ new :: after))
    (hlinear : validate_linear_history (before ++ new :: after) = .ok ()) (hnew : new.commit = r.head)
    (hbehind : ∀ t ∈ before ++ after, t.commit ≤ r.head ∧ t.commit ≠ r.head) :
    calculate_release_plan r shown =
      .ok ⟨new.version, (latestTag (before ++ after)).map ReleaseTag.name, false⟩ := by
  have hreach : ((before ++ new :: after).filter fun tag => tag.commit ≤ r.head) =
      before ++ new :: after := by
    refine filter_behind fun t ht => ?_
    rcases List.mem_append.mp ht with ht | ht
    · exact (hbehind t (List.mem_append_left _ ht)).1
    · rcases List.mem_cons.mp ht with rfl | ht
      · exact hnew.le
      · exact (hbehind t (List.mem_append_right _ ht)).1
  have hat : ∀ l : List (ReleaseTag C), (∀ t ∈ l, t ∈ before ++ after) →
      l.filter (fun tag => tag.commit = r.head) = [] ∧ l.filter (fun tag => tag.commit ≠ r.head) = l := by
    intro l hl
    rw [List.filter_eq_nil_iff, List.filter_eq_self]
    exact ⟨fun t ht => by simpa using (hbehind t (hl t ht)).2,
      fun t ht => by simpa using (hbehind t (hl t ht)).2⟩
  have hb := hat before fun t ht => List.mem_append_left _ ht
  have ha := hat after fun t ht => List.mem_append_right _ ht
  have hhead : ((before ++ new :: after).filter fun tag => tag.commit = r.head) = [new] := by
    rw [List.filter_append, List.filter_cons_of_pos (by simpa using hnew), hb.1, ha.1, List.nil_append]
  have hpred : ((before ++ new :: after).filter fun tag => tag.commit ≠ r.head) = before ++ after := by
    rw [List.filter_append, List.filter_cons_of_neg (by simpa using hnew), hb.2, ha.2]
  unfold calculate_release_plan
  simp only [hread, hhead, hreach, hlinear, hpred, bind, Except.bind]
  rw [if_neg (by simp)]
  rfl

/-- Planning again behind the planned tag gives the plan. -/
theorem Follows.again {tags : List (ReleaseTag C)} {plan : ReleasePlan}
    (h : Follows r tags plan) (shown : C → Str) (hread : read_release_tags r = .ok tags) (hu : Untagged r)
    {r' : GitRepository C} (ht : Tagged r plan.version.tag r') :
    ∃ tags', read_release_tags r' = .ok tags' ∧ (⟨plan.version.tag, plan.version, r.head⟩ ∈ tags') ∧
      (∀ t ∈ tags, t ∈ tags') ∧ validate_linear_history tags' = .ok () ∧
      calculate_release_plan r' shown = .ok ⟨plan.version, plan.previous_tag, false⟩ := by
  obtain ⟨before, after, rfl, hread'⟩ := read_tagged hread h.numbered
    (fun t htag he => absurd (h.greater t htag) (by rw [he]; exact lt_irrefl _)) ht
  have hcommit : ∀ t ∈ before ++ after, t.commit ≤ r.head ∧ t.commit ≠ r.head :=
    fun t htag => ⟨h.behind t htag, hu _ hread t htag⟩
  have hlinear : validate_linear_history
      (before ++ ⟨plan.version.tag, plan.version, r.head⟩ :: after) = .ok () :=
    validate_insert h.linear h.greater hcommit
  refine ⟨_, hread', by simp, ?_, hlinear, ?_⟩
  · intro t htag
    rcases List.mem_append.mp htag with htag | htag
    · exact List.mem_append_left _ htag
    · exact List.mem_append_right _ (List.mem_cons_of_mem _ htag)
  · obtain ⟨b, a, hrefs⟩ := ht
    rw [h.previous]
    exact calculate_tagged hread' hlinear rfl hcommit

/-! ## Chains of releases -/

/-- Releases planned and tagged one after the other, from the listing `start`. -/
inductive Releases (history : GitHistory C) (shown : C → Str) (start : List (Str × Option C)) :
    List (Str × Option C) → List Version → Prop
  | start : Releases history shown start start []
  | release {refs : List (Str × Option C)} {versions : List Version} {head : C} {plan : ReleasePlan}
      {r' : GitRepository C} (hr : Releases history shown start refs versions)
      (hu : Untagged ⟨history, head, refs⟩)
      (hp : calculate_release_plan ⟨history, head, refs⟩ shown = .ok plan)
      (hs : plan.superseded = false) (ht : Tagged ⟨history, head, refs⟩ plan.version.tag r') :
    Releases history shown start r'.refs (versions ++ [plan.version])

theorem Releases.increase {history : GitHistory C} {shown : C → Str}
    {start refs : List (Str × Option C)} {versions : List Version}
    (h : Releases history shown start refs versions) :
    versions.Pairwise (fun v w => v.sort_key < w.sort_key) ∧
      ∀ head tags, read_release_tags ⟨history, head, refs⟩ = .ok tags →
        ∀ v ∈ versions, ∃ t ∈ tags, t.version = v := by
  induction h with
  | start => exact ⟨.nil, by simp⟩
  | @release refs versions head plan r' hr hu hp hs ht ih =>
    obtain ⟨tags, hread⟩ := calculate_reads hp
    have hf := calculate_follows hp hread hu hs
    obtain ⟨tags', hread', hnew, hkept, -⟩ := hf.again shown hread hu ht
    refine ⟨?_, ?_⟩
    · rw [List.pairwise_append]
      refine ⟨ih.1, List.pairwise_singleton _ _, ?_⟩
      intro v hv w hw
      obtain rfl : w = plan.version := by simpa using hw
      obtain ⟨t, htag, rfl⟩ := ih.2 head tags hread v hv
      exact hf.greater t htag
    · intro other tags₂ hread₂ v hv
      have he : tags₂ = tags' := by
        obtain ⟨before, after, hrefs⟩ := ht
        exact Except.ok.inj (hread₂.symm.trans hread')
      subst he
      rcases List.mem_append.mp hv with hv | hv
      · obtain ⟨t, htag, rfl⟩ := ih.2 head tags hread v hv
        exact ⟨t, hkept t htag, rfl⟩
      · obtain rfl : v = plan.version := by simpa using hv
        exact ⟨_, hnew, rfl⟩

/-- A plan for an untagged HEAD is above every tag and under a new name, it is
the plan once HEAD is tagged, and releases made one after the other increase. -/
theorem plans_advance (shown : C → Str) :
    (∀ (r : GitRepository C) (plan : ReleasePlan), Untagged r →
      calculate_release_plan r shown = .ok plan → plan.superseded = false →
      ∃ tags, read_release_tags r = .ok tags ∧
        (∀ t ∈ tags, t.version.sort_key < plan.version.sort_key ∧ t.name ≠ plan.version.tag) ∧
        ∀ r', Tagged r plan.version.tag r' →
          (∃ tags', read_release_tags r' = .ok tags' ∧
            (⟨plan.version.tag, plan.version, r.head⟩ ∈ tags') ∧
            validate_linear_history tags' = .ok ()) ∧
          calculate_release_plan r' shown = .ok ⟨plan.version, plan.previous_tag, false⟩) ∧
    (∀ (r : GitRepository C) (tags : List (ReleaseTag C)) (latest : ReleaseTag C) (next : Version),
      read_release_tags r = .ok tags → latestTag tags = some latest →
      planNext r tags (tags.filter fun tag => tag.commit ≤ r.head) latest = .ok next →
      checkNext tags latest next shown = .ok ⟨next, some latest.name, false⟩) ∧
    ∀ (history : GitHistory C) (start refs : List (Str × Option C)) (versions : List Version),
      Releases history shown start refs versions →
      versions.Pairwise fun v w => v.sort_key < w.sort_key := by
  refine ⟨?_, ?_, fun history start refs versions h => h.increase.1⟩
  · intro r plan hu hp hs
    obtain ⟨tags, hread⟩ := calculate_reads hp
    have hf := calculate_follows hp hread hu hs
    refine ⟨tags, hread, ?_, ?_⟩
    · intro t ht
      refine ⟨hf.greater t ht, fun he => ?_⟩
      have hv := read_tag hread ht
      rw [he, from_tag_tag hf.numbered] at hv
      have hlt := hf.greater t ht
      rw [Except.ok.inj hv] at hlt
      exact lt_irrefl _ hlt
    · intro r' ht
      obtain ⟨tags', hread', hnew, -, hlinear, hagain⟩ := hf.again shown hread hu ht
      exact ⟨⟨tags', hread', hnew, hlinear⟩, hagain⟩
  · intro r tags latest next hread hlatest hp
    obtain ⟨-, hlt, hn⟩ := planNext_ok hp
    obtain ⟨hfresh, hfollow⟩ := checkNext_ok hread hlatest hlt hn
    have hnone : tags.find? (fun tag => tag.name = next.tag) = none := by
      rw [List.find?_eq_none]
      intro t ht
      simpa using hfresh t ht
    rw [checkNext, hnone, if_neg hfollow]

end

end

/-- A commit behind the ninth alpha. -/
def sampleRepository : GitRepository Nat where
  history :=
    { log := fun _ _ => [(("fix: a" : Str), [])]
      interpret_trailers := fun _ => []
      stderr := [] }
  head := 1
  refs := [(("v0.1.0-alpha.9" : Str), some 0)]

def samplePlan : ReleasePlan := ⟨⟨0, 1, 0, some 10⟩, some ("v0.1.0-alpha.9" : Str), false⟩

theorem sampleRepository_advances :
    ∃ tags, @read_release_tags Nat asciiTables sampleRepository = .ok tags ∧
      (∀ t ∈ tags, t.version.sort_key < samplePlan.version.sort_key ∧ t.name ≠ samplePlan.version.tag) ∧
      ∀ r', Tagged sampleRepository samplePlan.version.tag r' →
        (∃ tags', @read_release_tags Nat asciiTables r' = .ok tags' ∧
          (⟨samplePlan.version.tag, samplePlan.version, 1⟩ ∈ tags') ∧
          validate_linear_history tags' = .ok ()) ∧
        @calculate_release_plan Nat _ asciiText asciiTables _ _ r' decimal =
          .ok ⟨samplePlan.version, samplePlan.previous_tag, false⟩ := by
  refine (@plans_advance Nat _ asciiText asciiTables _ _ decimal).1 sampleRepository samplePlan ?_ rfl rfl
  intro tags hread t ht
  have he : tags = [⟨("v0.1.0-alpha.9" : Str), ⟨0, 1, 0, some 9⟩, 0⟩] := Except.ok.inj (hread.symm.trans rfl)
  rw [he, List.mem_singleton] at ht
  rw [ht]
  decide

end ExtraCodeowners.Release
