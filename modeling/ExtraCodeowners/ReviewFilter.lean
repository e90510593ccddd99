import ExtraCodeowners.Accounting
import ExtraCodeowners.Reviews
import Mathlib.Data.List.ReduceOption

/-!
# The review filter agrees with the evaluator

`_reviews` picks the latest review of each actor from the raw reviews, and the
evaluator picks it again from what was kept. The two dictionaries correspond
entry by entry, so the evaluator finds in the full list what it finds in the
kept one, up to applications no organization enrolled.
-/

namespace ExtraCodeowners

/-! ## Sorting by time -/

def notLater (a b : PullRequestReview) : Prop := isLater a b = false

instance : DecidableRel notLater := fun a b => inferInstanceAs (Decidable (isLater a b = false))

instance : Std.Total notLater where
  total a b := by
    simp only [notLater, not_isLater_iff]
    exact le_total _ _

instance : IsTrans PullRequestReview notLater where
  trans a b c := by
    simp only [notLater, not_isLater_iff]
    exact le_trans

def sortReviews (reviews : List PullRequestReview) : List PullRequestReview :=
  reviews.insertionSort notLater

theorem filter_sortReviews {reviews : List PullRequestReview}
    (hids : (reviews.map (·.review_id)).Nodup) (p : PullRequestReview → Bool) :
    (sortReviews reviews).filter p = sortReviews (reviews.filter p) := by
  have hperm : (sortReviews reviews).Perm reviews := List.perm_insertionSort _ _
  refine @List.Perm.eq_of_pairwise _ notLater _ _ ?_ ?_ ?_ ?_
  · intro a b ha hb hab hba
    have ha' : a ∈ reviews := hperm.mem_iff.mp (List.mem_filter.mp ha).1
    have hb' : b ∈ reviews :=
      (List.mem_filter.mp ((List.perm_insertionSort notLater _).mem_iff.mp hb)).1
    rw [notLater, not_isLater_iff] at hab hba
    exact eq_of_ordering hids ha' hb' (le_antisymm hab hba)
  · exact (List.pairwise_insertionSort notLater reviews).filter p
  · exact List.pairwise_insertionSort notLater _
  · exact (hperm.filter p).trans (List.perm_insertionSort notLater _).symm

/-- The latest opinionated reviews before they are sorted. -/
def latestReviews (reviews : List PullRequestReview) : List PullRequestReview :=
  (Dict.group actorKey keepLatest (reviews.filter (isOpinionated ·.state))).values

theorem latestOpinionatedReviews_eq (reviews : List PullRequestReview) :
    latestOpinionatedReviews reviews = sortReviews (latestReviews reviews) := rfl

theorem nodup_latestReviews (reviews : List PullRequestReview) :
    ((latestReviews reviews).map actorKey).Nodup := by
  unfold latestReviews
  generalize hd : Dict.group actorKey keepLatest (reviews.filter (isOpinionated ·.state)) = d
  have hkeys : d.values.map actorKey = d.keys := by
    unfold Dict.values Dict.keys
    rw [List.map_map]
    refine List.map_congr_left fun e he => ?_
    have hg : d.get? e.1 = some e.2 := Dict.get?_eq_some.mpr he
    rw [← hd] at hg
    exact (Dict.mem_of_get?_group keepLatest_eq hg).2
  rw [hkeys]
  exact d.nodup

theorem latestReviews_subset {reviews : List PullRequestReview} {review : PullRequestReview}
    (h : review ∈ latestReviews reviews) : review ∈ reviews := by
  obtain ⟨k, hk⟩ := Dict.mem_values.mp h
  exact (List.mem_filter.mp (Dict.mem_of_get?_group keepLatest_eq hk).1).1

theorem nodup_latestReviews_ids {reviews : List PullRequestReview}
    (hids : (reviews.map (·.review_id)).Nodup) :
    ((latestReviews reviews).map (·.review_id)).Nodup := by
  have hn : (latestReviews reviews).Nodup := (nodup_latestReviews reviews).of_map
  refine (List.nodup_map_iff_inj_on hn).mpr fun a ha b hb hab => ?_
  exact List.inj_on_of_nodup_map hids (latestReviews_subset ha) (latestReviews_subset hb) hab

/-! ## Evidence of recognized actors -/

/-- A human, or an application that the organization enrolled. -/
def isRecognized (organization : OrganizationPolicy) (review : PullRequestReview) : Bool :=
  review.actor.kind = .HUMAN || (enrolledAlias organization review.actor).isSome

theorem recognizedAppApprovals_recognized (data : EvaluationInput) (approvals : List PullRequestReview) :
    (recognizedAppApprovals data (approvals.filter (isRecognized data.organization_policy))).1 =
      (recognizedAppApprovals data approvals).1 := by
  unfold recognizedAppApprovals
  simp only
  induction approvals with
  | nil => rfl
  | cons review approvals ih =>
    by_cases hr : isRecognized data.organization_policy review = true
    · rw [List.filter_cons_of_pos hr]
      by_cases hk : review.actor.kind = .APPLICATION
      · rw [List.filter_cons_of_pos (by simpa using hk), List.filter_cons_of_pos (by simpa using hk)]
        simp only [List.filterMap_cons, ih]
      · rw [List.filter_cons_of_neg (by simpa using hk), List.filter_cons_of_neg (by simpa using hk), ih]
    · rw [List.filter_cons_of_neg hr, ih]
      simp only [isRecognized, Bool.or_eq_true, decide_eq_true_eq, not_or, Bool.not_eq_true,
        Option.isSome_eq_false_iff, Option.isNone_iff_eq_none] at hr
      by_cases hk : review.actor.kind = .APPLICATION
      · rw [List.filter_cons_of_pos (by simpa using hk)]
        simp only [List.filterMap_cons, hr.2]
      · rw [List.filter_cons_of_neg (by simpa using hk)]

section
variable [PyText]

theorem humanApprovalsByOwner_recognized (organization : OrganizationPolicy)
    (approvals : List PullRequestReview) :
    humanApprovalsByOwner (approvals.filter (isRecognized organization)) =
      humanApprovalsByOwner approvals := by
  unfold humanApprovalsByOwner
  rw [List.filter_filter]
  congr 1
  refine List.filter_congr fun review _ => ?_
  by_cases hk : review.actor.kind = .HUMAN <;> simp [isRecognized, hk]

/-- Two inputs that differ in their reviews, with the same recognized current
approvals, are decided alike. -/
theorem evaluate_congr {data : EvaluationInput} {reviews reviews' : List PullRequestReview}
    (h : (currentApprovals { data with reviews := reviews }).1.filter
        (isRecognized data.organization_policy) =
      (currentApprovals { data with reviews := reviews' }).1.filter
        (isRecognized data.organization_policy)) :
    (evaluate { data with reviews := reviews }).conclusion =
        (evaluate { data with reviews := reviews' }).conclusion ∧
      (evaluate { data with reviews := reviews }).requirements =
        (evaluate { data with reviews := reviews' }).requirements := by
  have hevidence : ∀ policy, evidenceOf { data with reviews := reviews } policy =
      evidenceOf { data with reviews := reviews' } policy := by
    intro policy
    have h₁ := recognizedAppApprovals_recognized { data with reviews := reviews }
      (currentApprovals { data with reviews := reviews }).1
    have h₂ := recognizedAppApprovals_recognized { data with reviews := reviews' }
      (currentApprovals { data with reviews := reviews' }).1
    unfold evidenceOf
    simp only [Evidence.mk.injEq, true_and]
    refine ⟨?_, rfl, ?_, trivial⟩
    · rw [← humanApprovalsByOwner_recognized data.organization_policy, h,
        humanApprovalsByOwner_recognized]
    · rw [← h₁, ← h₂]
      simp only
      rw [h]
      rfl
  have hreq : ∀ document policy, evaluationRequirements { data with reviews := reviews } document policy =
      evaluationRequirements { data with reviews := reviews' } document policy := by
    intro document policy
    unfold evaluationRequirements
    rw [hevidence]
    rfl
  unfold evaluate
  simp only
  split
  · exact ⟨rfl, rfl⟩
  · cases parseCodeowners data.codeowners_text with
    | error issues => exact ⟨rfl, rfl⟩
    | ok document =>
      simp only
      cases compilePolicy data.organization_policy data.repository_policy data.options with
      | error issues => exact ⟨rfl, rfl⟩
      | ok policy =>
        simp only
        refine ⟨?_, by rw [(evaluateWith_fields _ _ _).1, (evaluateWith_fields _ _ _).1, hreq]⟩
        unfold evaluateWith
        simp only [hreq]
        split
        · rfl
        · split <;> rfl

/-! ## The latest raw reviews -/

def laterRaw (a b : RawReview) : Bool :=
  b.submitted.instant < a.submitted.instant ||
    (b.submitted.instant == a.submitted.instant && b.review_id < a.review_id)

/-- `keepLatest` on raw reviews that all state an offset. -/
def keepRaw (previous : Option RawReview) (review : RawReview) : RawReview :=
  match previous with
  | none => review
  | some previous => if laterRaw review previous then review else previous

/-- The opinionated reviews of a list, as the filter reads them. -/
def readReviews (provider : Provider) (values : List JsonObject) : Except ReviewError (List RawReview) := do
  let reviews ← values.mapM (readReview provider)
  return reviews.reduceOption

omit [PyText] in
theorem readReviews_cons {provider : Provider} {value : JsonObject} {values : List JsonObject}
    {raws : List RawReview} (h : readReviews provider (value :: values) = .ok raws) :
    ∃ found rest, readReview provider value = .ok found ∧ readReviews provider values = .ok rest ∧
      raws = found.toList ++ rest := by
  unfold readReviews at h
  rw [List.mapM_cons] at h
  cases hv : readReview provider value with
  | error e => rw [hv] at h; cases h
  | ok found =>
    cases hm : values.mapM (readReview provider) with
    | error e => rw [hv, hm] at h; cases h
    | ok rest =>
      rw [hv, hm] at h
      cases h
      refine ⟨found, rest.reduceOption, rfl, by rw [readReviews, hm]; rfl, ?_⟩
      cases found with
      | none => rfl
      | some review => rfl

omit [PyText] in
theorem readLatest_none {provider : Provider} {value : JsonObject} {latest : LatestReviews}
    (h : readReview provider value = .ok none) : readLatest provider latest value = .ok latest := by
  unfold readLatest
  rw [h]
  rfl

omit [PyText] in
theorem readLatest_some {provider : Provider} {value : JsonObject} {latest : LatestReviews}
    {review : RawReview} (h : readReview provider value = .ok (some review))
    (haware : review.submitted.aware = true)
    (hlatest : ∀ k raw, latest.get? k = some raw → raw.submitted.aware = true) :
    readLatest provider latest value =
      .ok (latest.set review.key (keepRaw (latest.get? review.key) review)) := by
  unfold readLatest
  rw [h]
  show (match latest.get? review.key with
    | none => _
    | some previous => _) = _
  cases hg : latest.get? review.key with
  | none => rfl
  | some previous =>
    have hlater : review.isLater previous = .ok (laterRaw review previous) := by
      simp [RawReview.isLater, laterRaw, haware, hlatest _ _ hg]
    simp only [hlater, keepRaw]
    cases laterRaw review previous with
    | true => rfl
    | false => exact congrArg Except.ok (Dict.set_get? hg).symm

omit [PyText] in
/-- On readable reviews with offsets the loop groups them by actor. -/
theorem foldlM_readLatest {provider : Provider} : ∀ {values : List JsonObject} {raws : List RawReview}
    {latest : LatestReviews}, readReviews provider values = .ok raws →
    (∀ raw ∈ raws, raw.submitted.aware = true) →
    (∀ k raw, latest.get? k = some raw → raw.submitted.aware = true) →
    values.foldlM (readLatest provider) latest =
      .ok (raws.foldl (fun d b => d.set b.key (keepRaw (d.get? b.key) b)) latest)
  | [], raws, latest, hread, _, _ => by
    cases hread
    rfl
  | value :: values, raws, latest, hread, hraws, hlatest => by
    obtain ⟨found, rest, hv, hrest, rfl⟩ := readReviews_cons hread
    rw [List.foldlM_cons]
    cases found with
    | none =>
      rw [readLatest_none hv]
      exact foldlM_readLatest hrest (fun raw hr => hraws raw (by simpa using hr)) hlatest
    | some review =>
      have haware : review.submitted.aware = true := hraws review (by simp)
      rw [readLatest_some hv haware hlatest]
      refine foldlM_readLatest hrest (fun raw hr => hraws raw (List.mem_cons_of_mem _ hr)) ?_
      intro k raw hg
      rw [Dict.get?_set] at hg
      split at hg
      · cases hg
        cases hp : latest.get? review.key with
        | none => exact haware
        | some previous =>
          unfold keepRaw
          simp only
          split
          · exact haware
          · exact hlatest _ _ hp
      · exact hlatest k raw hg

/-! ## Resolved reviews -/

section
variable (provider : Provider) (organization : OrganizationPolicy) (document : CodeownersDocument)
  (repository_owner : Str)

/-- The review a raw one stands for: its actor is the one the filter resolves,
or an application that no organization enrolled when there is none. -/
def Resolves (validated_apps : Dict Int EnrolledApplication) (raw : RawReview)
    (review : PullRequestReview) : Prop :=
  ∃ actor, PullRequestReview.new raw.review_id actor raw.state raw.commit_id raw.submitted = .ok review ∧
    (resolveActor provider document repository_owner validated_apps raw = .ok (some actor) ∨
      resolveActor provider document repository_owner validated_apps raw = .ok none ∧
        actor.kind = .APPLICATION ∧ (actor.user_id : Int) = raw.user_id ∧
        enrolledAlias organization actor = none)

/-- The commit id is lower-case text without blanks at its ends, or missing. -/
def LowercaseCommit (raw : RawReview) : Prop :=
  ∀ s, raw.commit_id = .string s → PyText.lower (strip s) = s

end

theorem new_eq {review_id : Int} {actor : ReviewActor} {state : ReviewState} {commit : Json}
    {submitted : Moment} {review : PullRequestReview}
    (h : PullRequestReview.new review_id actor state commit submitted = .ok review) :
    0 < review_id ∧ submitted.aware = true ∧ (review.review_id : Int) = review_id ∧
      review.actor = actor ∧ review.state = state ∧ review.submitted_at = submitted.instant ∧
      commitSha commit = .ok review.commit_sha := by
  unfold PullRequestReview.new at h
  split at h
  · cases h
  · rename_i hpos
    cases hc : commitSha commit with
    | error e => rw [hc] at h; cases h
    | ok sha =>
      rw [hc] at h
      change (if (!submitted.aware) = true then _ else _) = _ at h
      split at h
      · cases h
      · rename_i ha
        cases h
        exact ⟨by omega, by simpa using ha, by simp; omega, rfl, rfl, rfl, rfl⟩

theorem human_eq {login : Str} {user_id : Int} {aliases : List Str} {direct : Bool} {actor : ReviewActor}
    (h : ReviewActor.human login user_id aliases direct = .ok actor) :
    actor.kind = .HUMAN ∧ (actor.user_id : Int) = user_id := by
  unfold ReviewActor.human at h
  simp only at h
  split at h
  · cases h
  · split at h
    · cases h
    · cases hm : aliases.mapM normalizeOwner with
      | error e => rw [hm] at h; cases h
      | ok names =>
        rw [hm] at h
        cases h
        exact ⟨rfl, by simp; omega⟩

theorem application_eq {login : Str} {user_id : Int} {app_id : Nat} {slug : Str} {actor : ReviewActor}
    (h : ReviewActor.application login user_id app_id slug = .ok actor) :
    actor.kind = .APPLICATION ∧ (actor.user_id : Int) = user_id := by
  unfold ReviewActor.application at h
  simp only at h
  split at h
  · cases h
  · split at h
    · cases h
    · split at h
      · cases h
      · cases h
        exact ⟨rfl, by simp; omega⟩

variable {provider : Provider} {organization : OrganizationPolicy} {document : CodeownersDocument}
  {repository_owner : Str} {validated_apps : Dict Int EnrolledApplication}

theorem resolveActor_key {raw : RawReview} {actor : ReviewActor}
    (h : resolveActor provider document repository_owner validated_apps raw = .ok (some actor)) :
    actor.kind = raw.actor_type.kind ∧ (actor.user_id : Int) = raw.user_id := by
  unfold resolveActor at h
  cases ht : raw.actor_type with
  | Bot =>
    simp only [ht] at h
    split at h
    · cases h
    · split at h
      · cases h
      · rename_i app _ _
        cases ha : ReviewActor.application raw.login raw.user_id app.app_id app.slug with
        | error e => rw [ha] at h; cases h
        | ok found =>
          rw [ha] at h
          cases h
          exact application_eq ha
  | User =>
    simp only [ht] at h
    cases ha : ReviewActor.human raw.login raw.user_id
        (humanTeamAliases provider document repository_owner raw.login)
        (provider.user_can_own_repository raw.login) with
    | error e => rw [ha] at h; cases h
    | ok found =>
      rw [ha] at h
      cases h
      exact human_eq ha

theorem resolveActor_none {raw : RawReview}
    (h : resolveActor provider document repository_owner validated_apps raw = .ok none) :
    raw.actor_type = .Bot := by
  cases ht : raw.actor_type with
  | Bot => rfl
  | User =>
    unfold resolveActor at h
    simp only [ht] at h
    cases ha : ReviewActor.human raw.login raw.user_id
        (humanTeamAliases provider document repository_owner raw.login)
        (provider.user_can_own_repository raw.login) with
    | error e => rw [ha] at h; cases h
    | ok found => rw [ha] at h; cases h

/-- The keys under which the filter and the evaluator keep the latest review. -/
def SameActor (raw : ActorType × Int) (key : ActorKind × Nat) : Prop :=
  raw.1.kind = key.1 ∧ raw.2 = (key.2 : Int)

omit [PyText] in
theorem sameActor_unique {k j : ActorType × Int} {k' j' : ActorKind × Nat} (hk : SameActor k k')
    (hj : SameActor j j') : k = j ↔ k' = j' := by
  obtain ⟨hk₁, hk₂⟩ := hk
  obtain ⟨hj₁, hj₂⟩ := hj
  obtain ⟨t, n⟩ := k
  obtain ⟨u, m⟩ := j
  obtain ⟨a, b⟩ := k'
  obtain ⟨c, d⟩ := j'
  simp only at hk₁ hk₂ hj₁ hj₂
  subst hk₁ hk₂ hj₁ hj₂
  cases t <;> cases u <;>
    simp only [ActorType.kind, Prod.mk.injEq, Int.natCast_inj, reduceCtorEq, true_and, false_and]

theorem Resolves.sameActor {raw : RawReview} {review : PullRequestReview}
    (h : Resolves provider organization document repository_owner validated_apps raw review) :
    SameActor raw.key (actorKey review) := by
  obtain ⟨actor, hnew, hactor⟩ := h
  obtain ⟨-, -, -, ha, -⟩ := new_eq hnew
  unfold SameActor actorKey RawReview.key
  rw [ha]
  rcases hactor with hr | ⟨hr, hkind, huser, -⟩
  · obtain ⟨h₁, h₂⟩ := resolveActor_key hr
    exact ⟨h₁.symm, h₂.symm⟩
  · refine ⟨?_, huser.symm⟩
    rw [resolveActor_none hr, hkind]
    rfl

theorem Resolves.later {raw raw' : RawReview} {review review' : PullRequestReview}
    (h : Resolves provider organization document repository_owner validated_apps raw review)
    (h' : Resolves provider organization document repository_owner validated_apps raw' review') :
    laterRaw raw raw' = isLater review review' := by
  obtain ⟨_, hnew, -⟩ := h
  obtain ⟨_, hnew', -⟩ := h'
  obtain ⟨-, -, hid, -, -, ht, -⟩ := new_eq hnew
  obtain ⟨-, -, hid', -, -, ht', -⟩ := new_eq hnew'
  unfold laterRaw isLater
  rw [← hid, ← hid', ht, ht']
  simp

theorem Resolves.keep {o : Option RawReview} {o' : Option PullRequestReview} {raw : RawReview}
    {review : PullRequestReview}
    (ho : Option.Rel (Resolves provider organization document repository_owner validated_apps) o o')
    (h : Resolves provider organization document repository_owner validated_apps raw review) :
    Resolves provider organization document repository_owner validated_apps (keepRaw o raw)
      (keepLatest o' review) := by
  cases ho with
  | none => exact h
  | some hp =>
    unfold keepRaw keepLatest
    simp only [h.later hp]
    split
    · exact h
    · exact hp

/-- The latest reviews of both sides correspond. -/
theorem latest_related {raws : List RawReview} {full : List PullRequestReview}
    (h : List.Forall₂ (Resolves provider organization document repository_owner validated_apps) raws full) :
    List.Forall₂ (Resolves provider organization document repository_owner validated_apps)
      (Dict.group RawReview.key keepRaw raws).values (Dict.group actorKey keepLatest full).values :=
  (Dict.Related.group (K := SameActor) sameActor_unique (fun hr => hr.sameActor)
    (fun ho hr => hr.keep ho) h).values

omit [PyText] in
theorem readReview_opinionated {value : JsonObject} {raw : RawReview}
    (h : readReview provider value = .ok (some raw)) : isOpinionated raw.state = true := by
  unfold readReview at h
  cases hs : readState (Json.get value "state") with
  | error e => rw [hs] at h; cases h
  | ok state =>
    rw [hs] at h
    cases ho : isOpinionated state with
    | false =>
      change (if (!isOpinionated state) = true then _ else _) = _ at h
      simp only [ho, Bool.not_false, if_true] at h
      cases h
    | true =>
      change (if (!isOpinionated state) = true then _ else _) = _ at h
      simp only [ho, Bool.not_true, Bool.false_eq_true, if_false] at h
      split at h
      · split at h
        · rename_i user_id login review_id submitted_at _ _ _ _
          cases ht : readActorType (Json.get _ "type") with
          | error e => rw [ht] at h; cases h
          | ok actor_type =>
            rw [ht] at h
            cases hp : provider.fromisoformat (replaceZ submitted_at) with
            | none => simp only [hp] at h; cases h
            | some submitted =>
              simp only [hp] at h
              cases h
              exact ho
        · cases h
      · cases h

omit [PyText] in
theorem readReviews_opinionated : ∀ {values : List JsonObject} {raws : List RawReview},
    readReviews provider values = .ok raws → ∀ raw ∈ raws, isOpinionated raw.state = true
  | [], raws, h => by
    cases h
    exact fun _ hr => nomatch hr
  | value :: values, raws, h => by
    obtain ⟨found, rest, hv, hrest, rfl⟩ := readReviews_cons h
    intro raw hr
    rcases List.mem_append.mp hr with hr | hr
    · rw [Option.mem_toList] at hr
      cases hr
      exact readReview_opinionated hv
    · exact readReviews_opinionated hrest raw hr

/-- A bot that is asked for is validated alike, whoever else is asked for. -/
theorem validatedApps_congr {ids ids' : List Int} {id : Int} (h : id ∈ ids) (h' : id ∈ ids') :
    (validatedApps provider organization ids).get? id =
      (validatedApps provider organization ids').get? id := by
  have fold : ∀ (l : List (Str × EnrolledApplication)) (d d' : Dict Int EnrolledApplication),
      d.get? id = d'.get? id →
      (l.foldl (fun validated e =>
        if (e.2.bot_user_id : Int) ∈ ids ∧ confirmsBot provider e.2 = true then
          validated.set (e.2.bot_user_id : Int) e.2 else validated) d).get? id =
      (l.foldl (fun validated e =>
        if (e.2.bot_user_id : Int) ∈ ids' ∧ confirmsBot provider e.2 = true then
          validated.set (e.2.bot_user_id : Int) e.2 else validated) d').get? id := by
    intro l
    induction l with
    | nil => exact fun _ _ hd => hd
    | cons e l ih =>
      intro d d' hd
      refine ih _ _ ?_
      by_cases hb : (e.2.bot_user_id : Int) = id
      · simp only [hb, h, h', true_and]
        split
        · rw [Dict.get?_set_self, Dict.get?_set_self]
        · exact hd
      · have keep : ∀ (d : Dict Int EnrolledApplication) (p : Prop) [Decidable p],
            (if p then d.set (e.2.bot_user_id : Int) e.2 else d).get? id = d.get? id := by
          intro d p _
          split
          · exact Dict.get?_set_ne _ _ (Ne.symm hb)
          · rfl
        rw [keep, keep, hd]
  exact fold _ _ _ rfl

theorem resolveActor_congr {raw : RawReview} {raws raws' : List RawReview} (h : raw ∈ raws)
    (h' : raw ∈ raws') :
    resolveActor provider document repository_owner
        (validatedApps provider organization (botIds raws)) raw =
      resolveActor provider document repository_owner
        (validatedApps provider organization (botIds raws')) raw := by
  unfold resolveActor
  cases ht : raw.actor_type with
  | User => rfl
  | Bot =>
    have mem : ∀ {l : List RawReview}, raw ∈ l → raw.user_id ∈ botIds l := fun hl =>
      List.mem_map_of_mem (List.mem_filter.mpr ⟨hl, by simp [ht]⟩)
    simp only [validatedApps_congr (mem h) (mem h')]

/-- A current approval is kept as the review it stands for, or dropped because
no organization enrolled its application. -/
theorem keepReview_of_resolves {raw : RawReview} {review : PullRequestReview} {head_sha : Str}
    {apps : Dict Int EnrolledApplication}
    (h : Resolves provider organization document repository_owner validated_apps raw review)
    (hc : isCurrent head_sha raw = true)
    (hsame : resolveActor provider document repository_owner apps raw =
      resolveActor provider document repository_owner validated_apps raw) :
    keepReview provider document repository_owner apps head_sha raw = .ok (some review) ∨
      keepReview provider document repository_owner apps head_sha raw = .ok none ∧
        isRecognized organization review = false := by
  obtain ⟨actor, hnew, hactor⟩ := h
  simp only [isCurrent, Bool.and_eq_true, decide_eq_true_eq] at hc
  have hcommit : raw.commit_id = .string head_sha := by
    have := hc.2
    unfold Json.isText at this
    split at this
    · rename_i s hs
      rw [hs, of_decide_eq_true this]
    · cases this
  rw [hc.1, hcommit] at hnew
  unfold keepReview
  rw [hsame]
  rcases hactor with hr | ⟨hr, hkind, -, hnone⟩
  · left
    rw [hr]
    show (do let review ← PullRequestReview.new raw.review_id actor .APPROVED (.string head_sha)
              raw.submitted; Except.ok (some review)) = _
    rw [hnew]
    rfl
  · right
    rw [hr]
    refine ⟨rfl, ?_⟩
    obtain ⟨-, -, -, ha, -⟩ := new_eq hnew
    simp [isRecognized, ha, hkind, hnone]

omit [PyText] in
theorem mapM_keep {keep : RawReview → Except ReviewError (Option PullRequestReview)}
    {recognized : PullRequestReview → Bool} {raws : List RawReview} {reviews : List PullRequestReview}
    (h : List.Forall₂ (fun raw review => keep raw = .ok (some review) ∨
      keep raw = .ok none ∧ recognized review = false) raws reviews) :
    ∃ kept, raws.mapM keep = .ok kept ∧ kept.reduceOption.Sublist reviews ∧
      kept.reduceOption.filter recognized = reviews.filter recognized := by
  induction h with
  | nil => exact ⟨[], rfl, List.Sublist.refl _, rfl⟩
  | @cons raw review raws reviews hk _ ih =>
    obtain ⟨kept, hm, hs, hf⟩ := ih
    rcases hk with hk | ⟨hk, hr⟩
    · refine ⟨some review :: kept, by rw [List.mapM_cons, hk, hm]; rfl, ?_, ?_⟩
      · exact hs.cons_cons review
      · rw [List.reduceOption_cons_of_some, List.filter_cons, List.filter_cons, hf]
    · refine ⟨none :: kept, by rw [List.mapM_cons, hk, hm]; rfl, hs.cons review, ?_⟩
      rw [List.reduceOption_cons_of_none, List.filter_cons_of_neg (by simp [hr]), hf]

/-! ## The filter agrees -/

/-- The approvals of the head among the latest reviews. -/
def isCurrentReview (head_sha : Str) (review : PullRequestReview) : Bool :=
  review.state = .APPROVED && review.commit_sha = some head_sha

theorem Resolves.isCurrent {raw : RawReview} {review : PullRequestReview} {head_sha : Str}
    (h : Resolves provider organization document repository_owner validated_apps raw review)
    (hl : LowercaseCommit raw) : isCurrent head_sha raw = isCurrentReview head_sha review := by
  obtain ⟨actor, hnew, -⟩ := h
  obtain ⟨-, -, -, -, hstate, -, hcommit⟩ := new_eq hnew
  unfold ExtraCodeowners.isCurrent isCurrentReview
  rw [hstate]
  congr 1
  cases hc : raw.commit_id with
  | string s =>
    have hlow := hl s hc
    rw [hc] at hcommit
    unfold commitSha at hcommit
    simp only [hlow] at hcommit
    split at hcommit
    · cases hcommit
    · have := Except.ok.inj hcommit
      rw [← this]
      simp [Json.isText]
  | null =>
    rw [hc] at hcommit
    rw [← Except.ok.inj hcommit]
    simp [Json.isText]
  | _ => rw [hc] at hcommit; cases hcommit

omit [PyText] in
theorem currentApprovals_exact {data : EvaluationInput} (hexact : data.options.exact_head_reviews = true)
    (reviews : List PullRequestReview) (hids : (reviews.map (·.review_id)).Nodup) :
    (currentApprovals { data with reviews := reviews }).1 =
      sortReviews ((latestReviews reviews).filter (isCurrentReview data.head_sha)) := by
  unfold currentApprovals
  simp only [latestOpinionatedReviews_eq]
  rw [List.filter_filter, filter_sortReviews (nodup_latestReviews_ids hids)]
  congr 1
  refine List.filter_congr fun review _ => ?_
  simp only [isStale, isCurrentReview, hexact, Bool.true_and]
  rw [Bool.and_comm]
  by_cases hs : review.commit_sha = some data.head_sha <;> simp [hs]

omit [PyText] in
/-- Reviews that are all current approvals of different actors are all kept. -/
theorem latestReviews_of_current {head_sha : Str} {reviews : List PullRequestReview}
    (hc : ∀ review ∈ reviews, isCurrentReview head_sha review = true)
    (hk : (reviews.map actorKey).Nodup) :
    (latestReviews reviews).filter (isCurrentReview head_sha) = reviews := by
  have happroved : ∀ review ∈ reviews, isOpinionated review.state = true := by
    intro review hr
    have := hc review hr
    simp only [isCurrentReview, Bool.and_eq_true, decide_eq_true_eq] at this
    rw [this.1]
    rfl
  unfold latestReviews
  rw [List.filter_eq_self.mpr happroved, Dict.values_group_of_nodup (fun _ => rfl) hk,
    List.filter_eq_self.mpr hc]

omit [PyText] in
theorem keepRaw_eq (previous : Option RawReview) (review : RawReview) :
    keepRaw previous review = review ∨ previous = some (keepRaw previous review) := by
  cases previous with
  | none => exact Or.inl rfl
  | some p => by_cases h : laterRaw review p = true <;> simp [keepRaw, h]

/-- The team memberships the filter has to look up: one for each team owner
and each human among the current approvals, the additional ones included. -/
def teamLookups (document : CodeownersDocument) (repository : Str) (raws : List RawReview)
    (head_sha : Str) (additional : Nat) : Nat :=
  let latest := (Dict.group RawReview.key keepRaw raws).values
  ((latest.filter (isCurrent head_sha)).countP (fun review => review.actor_type = .User) + additional) *
    (teamOwners document (teamParts repository).1).length

/-- Evaluating the reviews the filter keeps decides every requirement as the
whole list of opinionated reviews does. The filter fails exactly when the
lookups are more than it allows. -/
theorem keptReviews_agree (provider : Provider) (document : CodeownersDocument) (data : EvaluationInput)
    (repository : Str) (values : List JsonObject) (raws : List RawReview)
    (full : List PullRequestReview) (additional : Nat)
    (hread : readReviews provider values = .ok raws)
    (hids : (raws.map (·.review_id)).Nodup) (hlower : ∀ raw ∈ raws, LowercaseCommit raw)
    (hexact : data.options.exact_head_reviews = true)
    (hfull : List.Forall₂ (Resolves provider data.organization_policy document (teamParts repository).1
      (validatedApps provider data.organization_policy (botIds raws))) raws full) :
    (teamLookups document repository raws data.head_sha additional ≤ MAX_TEAM_MEMBERSHIP_LOOKUPS →
      ∃ kept, keptReviews provider data.organization_policy document repository values data.head_sha
          additional = .ok kept ∧
        (evaluate { data with reviews := kept }).conclusion =
          (evaluate { data with reviews := full }).conclusion ∧
        (evaluate { data with reviews := kept }).requirements =
          (evaluate { data with reviews := full }).requirements) ∧
    (MAX_TEAM_MEMBERSHIP_LOOKUPS < teamLookups document repository raws data.head_sha additional →
      keptReviews provider data.organization_policy document repository values data.head_sha
        additional = .error (.EvidenceLimitError EVIDENCE_LIMIT)) := by
  have hfullIds : (full.map (·.review_id)).Nodup := by
    have hmap : full.map (fun review => (review.review_id : Int)) = raws.map (·.review_id) := by
      rw [← List.forall₂_eq_eq_eq, List.forall₂_map_left_iff, List.forall₂_map_right_iff]
      refine List.Forall₂.imp ?_ hfull.flip
      rintro review raw ⟨actor, hnew, -⟩
      exact (new_eq hnew).2.2.1
    rw [← hmap] at hids
    exact (List.Nodup.of_map (fun n : Nat => (n : Int)) (by rwa [List.map_map]))
  have haware : ∀ raw ∈ raws, raw.submitted.aware = true := by
    intro raw hr
    obtain ⟨review, -, actor, hnew, -⟩ := forall₂_left hfull raw hr
    exact (new_eq hnew).2.1
  have hopinionated : full.filter (isOpinionated ·.state) = full := by
    rw [List.filter_eq_self]
    intro review hr
    obtain ⟨raw, hraw, actor, hnew, -⟩ := forall₂_left hfull.flip review hr
    rw [(new_eq hnew).2.2.2.2.1]
    exact readReviews_opinionated hread raw hraw
  -- the latest reviews of both sides, and the current approvals among them
  obtain ⟨latest, hlatest⟩ : ∃ latest, latest = Dict.group RawReview.key keepRaw raws := ⟨_, rfl⟩
  have hloop : values.foldlM (readLatest provider) ∅ = .ok latest := by
    rw [hlatest]
    exact foldlM_readLatest hread haware (fun k raw hg => by simp at hg)
  have hsub : ∀ raw ∈ latest.values, raw ∈ raws := by
    intro raw hr
    obtain ⟨k, hk⟩ := Dict.mem_values.mp hr
    rw [hlatest] at hk
    exact (Dict.mem_of_get?_group keepRaw_eq hk).1
  have hrelated : List.Forall₂ (fun raw review => raw ∈ raws ∧
      Resolves provider data.organization_policy document (teamParts repository).1
        (validatedApps provider data.organization_policy (botIds raws)) raw review)
      latest.values (latestReviews full) := by
    rw [List.forall₂_and_left]
    refine ⟨hsub, ?_⟩
    unfold latestReviews
    rw [hopinionated, hlatest]
    exact latest_related hfull
  have hcurrent := List.rel_filter (p := isCurrent data.head_sha)
    (q := isCurrentReview data.head_sha)
    (fun raw review h => by simp only [h.2.isCurrent (hlower raw h.1)]) hrelated
  obtain ⟨current, hdef⟩ : ∃ current, current = latest.values.filter (isCurrent data.head_sha) :=
    ⟨_, rfl⟩
  rw [← hdef] at hcurrent
  have hlookups : teamLookups document repository raws data.head_sha additional =
      (current.countP (fun review => review.actor_type = .User) + additional) *
        (teamOwners document (teamParts repository).1).length := by rw [hdef, hlatest]; rfl
  rw [hlookups]
  unfold keptReviews
  simp only [hloop]
  refine ⟨fun hbudget => ?_, fun hbudget => ?_⟩
  swap
  · rw [hdef] at hbudget
    simp only [Except.bind, bind, if_pos hbudget]
  -- what is kept of them
  have hkeep : List.Forall₂ (fun raw review =>
      keepReview provider document (teamParts repository).1
          (validatedApps provider data.organization_policy (botIds current)) data.head_sha raw =
        .ok (some review) ∨
      keepReview provider document (teamParts repository).1
          (validatedApps provider data.organization_policy (botIds current)) data.head_sha raw =
        .ok none ∧ isRecognized data.organization_policy review = false)
      current ((latestReviews full).filter (isCurrentReview data.head_sha)) := by
    have hmem := (List.forall₂_and_left (p := fun raw => raw ∈ current) _ _).mpr
      ⟨fun _ h => h, hcurrent⟩
    refine List.Forall₂.imp ?_ hmem
    rintro raw review ⟨hc, hr, hres⟩
    have hiscurrent : isCurrent data.head_sha raw = true := by
      rw [hdef] at hc
      exact (List.mem_filter.mp hc).2
    exact keepReview_of_resolves hres hiscurrent (resolveActor_congr hc hr)
  obtain ⟨kept, hm, hkeptSub, hkeptRec⟩ := mapM_keep hkeep
  refine ⟨kept.reduceOption, ?_, ?_⟩
  · rw [hdef] at hbudget hm
    simp only [Except.bind, bind, if_neg (not_lt.mpr hbudget), hm]
    rfl
  refine evaluate_congr ?_
  have hkeptIds : (kept.reduceOption.map (·.review_id)).Nodup :=
    ((nodup_latestReviews_ids hfullIds).sublist (List.filter_sublist.map _)).sublist
      (hkeptSub.map _)
  have hkeptKeys : (kept.reduceOption.map actorKey).Nodup :=
    ((nodup_latestReviews full).sublist (List.filter_sublist.map _)).sublist (hkeptSub.map _)
  rw [currentApprovals_exact hexact _ hkeptIds, currentApprovals_exact hexact _ hfullIds,
    latestReviews_of_current (fun review hr => (List.mem_filter.mp (hkeptSub.subset hr)).2) hkeptKeys,
    filter_sortReviews hkeptIds, hkeptRec,
    filter_sortReviews ((nodup_latestReviews_ids hfullIds).sublist (List.filter_sublist.map _))]

end

/-! One approval of a human, and one of a bot that stands for no application. -/

def rawJson (id user_id : Int) (login type : String) : JsonObject :=
  [(("id" : Str), .int id), (("state" : Str), .string ("APPROVED" : Str)),
    (("commit_id" : Str), .string ("c0ffee" : Str)),
    (("submitted_at" : Str), .string ("2024-05-01T00:00:00Z" : Str)),
    (("user" : Str), .object [(("id" : Str), .int user_id), (("login" : Str), .string login),
      (("type" : Str), .string type)])]

def sampleProvider : Provider where
  fromisoformat value :=
    if value = ("2024-05-01T00:00:00+00:00" : Str) then some ⟨1714521600000000, true⟩ else none
  user_can_own_repository login := login = ("octo" : Str)
  team_member _ _ := false
  team_can_own_repository _ := false
  get_user _ := []

def sampleValues : List JsonObject := [rawJson 7 1 "octo" "User", rawJson 8 9 "helper[bot]" "Bot"]

def sampleReviews : List PullRequestReview :=
  [⟨7, sampleHuman, .APPROVED, some ("c0ffee" : Str), 1714521600000000⟩,
    ⟨8, ⟨.APPLICATION, ("helper[bot]" : Str), 9, some 1, some ("helper" : Str), ∅, true, by decide⟩,
      .APPROVED, some ("c0ffee" : Str), 1714521600000000⟩]

def sampleDocument : CodeownersDocument := ⟨[]⟩

def sampleRaw (actor_type : ActorType) (user_id : Int) (login : String) (review_id : Int) : RawReview :=
  ⟨.APPROVED, actor_type, user_id, login, review_id, ⟨1714521600000000, true⟩,
    .string ("c0ffee" : Str)⟩

theorem sampleValues_agree :
    ∃ kept, @keptReviews asciiText sampleProvider sampleOrganization sampleDocument
        ("acme/app" : Str) sampleValues sampleInput.head_sha 0 = .ok kept ∧
      (@evaluate asciiText { sampleInput with reviews := kept }).conclusion =
        (@evaluate asciiText { sampleInput with reviews := sampleReviews }).conclusion ∧
      (@evaluate asciiText { sampleInput with reviews := kept }).requirements =
        (@evaluate asciiText { sampleInput with reviews := sampleReviews }).requirements := by
  let _ := asciiText
  refine (keptReviews_agree sampleProvider sampleDocument sampleInput ("acme/app" : Str) sampleValues
    [sampleRaw .User 1 "octo" 7, sampleRaw .Bot 9 "helper[bot]" 8] sampleReviews 0 rfl (by decide) ?_ rfl
    (.cons ⟨_, rfl, Or.inl rfl⟩ (.cons ⟨_, rfl, Or.inr ⟨rfl, rfl, rfl, rfl⟩⟩ .nil))).1 (by decide)
  intro raw hr s hs
  obtain rfl : ("c0ffee" : Str) = s := by
    simp only [List.mem_cons, List.not_mem_nil, or_false] at hr
    rcases hr with rfl | rfl <;> exact Json.string.inj hs
  decide

end ExtraCodeowners
