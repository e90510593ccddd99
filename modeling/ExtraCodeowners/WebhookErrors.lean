import ExtraCodeowners.Webhooks
import Mathlib

/-!
# How a malformed webhook fails

Every reader of the payload raises a `WebhookError`, so a job fails in another
way only at two places: where `pull_request.state` is hashed, and where the
constructor of a request normalizes a name that `webhookRepositoryName` let through.
-/

namespace ExtraCodeowners

/-! ## Errors of a reader -/

def OnlyWebhookErrors {α} (x : Except Raised α) : Prop :=
  ∀ e, x = .error e → ∃ message, e = .WebhookError message

theorem onlyWebhookErrors_ok {α} (a : α) : OnlyWebhookErrors (.ok a) := fun _ h => nomatch h

theorem onlyWebhookErrors_error {α} (message : Str) :
    OnlyWebhookErrors (.error (.WebhookError message) : Except Raised α) := by
  intro e h
  cases h
  exact ⟨message, rfl⟩

theorem positiveInt_raises (value : Json) (field : Str) : OnlyWebhookErrors (positiveInt value field) := by
  unfold positiveInt
  cases value with
  | int n =>
    by_cases hn : 0 < n
    · simp only [hn, if_true]; exact onlyWebhookErrors_ok _
    · simp only [hn, if_false]; exact onlyWebhookErrors_error _
  | _ => exact onlyWebhookErrors_error _

theorem positiveInt_pos {value : Json} {field : Str} {n : Nat} (h : positiveInt value field = .ok n) :
    0 < n := by
  unfold positiveInt at h
  cases value with
  | int m =>
    by_cases hm : 0 < m
    · simp only [hm, if_true] at h
      cases h
      omega
    · simp only [hm, if_false] at h
      cases h
  | _ => cases h

theorem installationId_raises (payload : JsonObject) : OnlyWebhookErrors (installationId payload) := by
  unfold installationId
  cases Json.get payload "installation" with
  | object installation => exact positiveInt_raises _ _
  | _ => exact onlyWebhookErrors_error _

theorem installationId_pos {payload : JsonObject} {n : Nat} (h : installationId payload = .ok n) :
    0 < n := by
  unfold installationId at h
  cases hi : Json.get payload "installation" with
  | object installation => rw [hi] at h; exact positiveInt_pos h
  | _ => rw [hi] at h; cases h

theorem headSha_raises (value : Json) (field : Str) : OnlyWebhookErrors (headSha value field) := by
  unfold headSha
  cases value with
  | string sha =>
    show OnlyWebhookErrors ((validateHeadSha sha).mapError _)
    cases validateHeadSha sha with
    | ok sha => exact onlyWebhookErrors_ok _
    | error message => exact onlyWebhookErrors_error _
  | _ => exact onlyWebhookErrors_error _

theorem validateBaseRefHint_idem {value : Json} {hint : Option Str}
    (h : validateBaseRefHint value = .ok hint) :
    validateBaseRefHint ((hint.map .string).getD .null) = .ok hint := by
  unfold validateBaseRefHint at h
  cases value with
  | null => cases h; rfl
  | string s =>
    by_cases hs : isBaseRefHint s = true
    · simp only [hs, if_true] at h
      cases h
      simp [validateBaseRefHint, hs]
    · simp only [hs] at h
      cases h
  | _ => cases h

theorem baseRefHint_valid (base : Json) :
    validateBaseRefHint (((baseRefHint base).map .string).getD .null) = .ok (baseRefHint base) := by
  unfold baseRefHint
  simp only
  split
  · rename_i h; exact validateBaseRefHint_idem h
  · rfl

/-! ## Names the queue accepts -/

section
variable [PyText]

theorem webhookRepositoryName_raises (payload : JsonObject) : OnlyWebhookErrors (webhookRepositoryName payload) := by
  unfold webhookRepositoryName
  cases Json.get payload "repository" with
  | object repository =>
    cases hn : Json.get repository "full_name" with
    | string full_name =>
      simp only [hn]
      split
      · exact onlyWebhookErrors_error _
      · exact onlyWebhookErrors_ok _
    | _ => simp only [hn]; exact onlyWebhookErrors_error _
  | _ => exact onlyWebhookErrors_error _

/-- The queue's own validation returns the name as it stands. -/
def AcceptedName (repository : Repository) : Prop :=
  normalizeRepositoryFullName repository.full_name = .ok repository

def WorkRequest.WellFormed : WorkRequest → Prop
  | .evaluation request => 0 < request.installation_id ∧ AcceptedName request.repository_full_name
  | .authority request => 0 < request.installation_id ∧
      ∀ repository ∈ request.repository_full_name, AcceptedName repository

/-- The one way to fail: a `WebhookError`. Otherwise there is no work, or a
request that is well formed. -/
def FailsOneWay : Except Raised (Option WorkRequest) → Prop
  | .ok none => True
  | .ok (some request) => request.WellFormed
  | .error (.WebhookError _) => True
  | .error _ => False

/-- The payload names an installation and a repository, under a name that the
queue's own validation rejects. -/
def UnusableName (payload : JsonObject) : Prop :=
  (∃ id, installationId payload = .ok id) ∧
    ∃ name message, webhookRepositoryName payload = .ok name ∧
      normalizeRepositoryFullName name = .error message

theorem failsOneWay_bind {α} {x : Except Raised α} {f : α → Except Raised (Option WorkRequest)}
    (hx : OnlyWebhookErrors x) :
    FailsOneWay (x >>= f) ↔ ∀ a, x = .ok a → FailsOneWay (f a) := by
  cases x with
  | ok a => exact ⟨fun h b hb => by cases hb; exact h, fun h => h a rfl⟩
  | error e =>
    obtain ⟨message, rfl⟩ := hx e rfl
    exact ⟨fun _ _ ha => absurd ha (by simp), fun _ => trivial⟩

theorem ite_failsOneWay {p : Prop} [Decidable p] {x y : Except Raised (Option WorkRequest)}
    (hx : FailsOneWay x) (hy : FailsOneWay y) : FailsOneWay (if p then x else y) := by
  split
  · exact hx
  · exact hy

theorem webhookRepositoryName_lower [LawfulPyText] {payload : JsonObject} {name : Str}
    (h : webhookRepositoryName payload = .ok name) : PyText.lower name = name := by
  unfold webhookRepositoryName at h
  cases hr : Json.get payload "repository" with
  | object repository =>
    simp only [hr] at h
    cases hn : Json.get repository "full_name" with
    | string full_name =>
      simp only [hn] at h
      split at h
      · cases h
      · cases h
        exact LawfulPyText.lower_lower full_name
    | _ => simp only [hn] at h; cases h
  | _ => simp only [hr] at h; cases h

theorem acceptedName_of_lower {name : Str} {repository : Repository} (hl : PyText.lower name = name)
    (h : normalizeRepositoryFullName name = .ok repository) : AcceptedName repository := by
  have hr : repository = ⟨name⟩ := by
    unfold normalizeRepositoryFullName at h
    split at h
    · cases h
    · cases h
      rw [hl]
  unfold AcceptedName
  rw [hr] at h ⊢
  exact h

/-! ## Building a request -/

variable {payload : JsonObject}

theorem newEvaluation_failsOneWay [LawfulPyText] {pull_number : Nat} {reason : Str} {head_sha : HeadSha}
    {hint : Option Str} (hh : validateBaseRefHint ((hint.map .string).getD .null) = .ok hint) :
    FailsOneWay (newEvaluation payload pull_number reason head_sha hint) ↔ ¬ UnusableName payload := by
  unfold newEvaluation
  rw [failsOneWay_bind (installationId_raises _)]
  constructor
  · rintro h ⟨⟨id, hid⟩, name, message, hn, hm⟩
    have hf := (failsOneWay_bind (webhookRepositoryName_raises _)).mp (h id hid) name hn
    unfold JobRequest.new at hf
    rw [hm] at hf
    exact hf
  · intro h id hid
    rw [failsOneWay_bind (webhookRepositoryName_raises _)]
    intro name hn
    cases hm : normalizeRepositoryFullName name with
    | error message => exact absurd ⟨⟨id, hid⟩, name, message, hn, hm⟩ h
    | ok repository =>
      have ha : AcceptedName repository := acceptedName_of_lower (webhookRepositoryName_lower hn) hm
      unfold JobRequest.new
      rw [hm, hh]
      show WorkRequest.WellFormed (.evaluation (JobRequest.postInit _))
      unfold JobRequest.postInit
      split <;> exact ⟨installationId_pos hid, ha⟩

/-- A fan-out fails in another way only where it names a repository the queue
rejects. -/
theorem newAuthority_failsOneWay {target : Except Raised (Option Str)} {base_ref : Option Str}
    {reason : Str} (ht : OnlyWebhookErrors target)
    (hl : ∀ name, target = .ok (some name) → PyText.lower name = name) :
    FailsOneWay (newAuthority payload target base_ref reason) ↔
      ¬ ((∃ id, installationId payload = .ok id) ∧ ∃ name message, target = .ok (some name) ∧
        normalizeRepositoryFullName name = .error message) := by
  unfold newAuthority
  rw [failsOneWay_bind (installationId_raises _)]
  constructor
  · rintro h ⟨⟨id, hid⟩, name, message, hn, hm⟩
    have hf := (failsOneWay_bind ht).mp (h id hid) (some name) hn
    unfold AuthorityRequest.new at hf
    simp only [hm] at hf
    exact hf
  · intro h id hid
    rw [failsOneWay_bind ht]
    intro target hn
    cases target with
    | none => exact ⟨installationId_pos hid, fun _ hr => nomatch hr⟩
    | some name =>
      cases hm : normalizeRepositoryFullName name with
      | error message => exact absurd ⟨⟨id, hid⟩, name, message, hn, hm⟩ h
      | ok repository =>
        have ha : AcceptedName repository := acceptedName_of_lower (hl name hn) hm
        unfold AuthorityRequest.new
        simp only [hm]
        exact ⟨installationId_pos hid, fun r hr => Option.mem_some_iff.mp hr ▸ ha⟩

theorem newAuthority_installation {base_ref : Option Str} {reason : Str} :
    FailsOneWay (newAuthority payload (.ok none) base_ref reason) := by
  rw [newAuthority_failsOneWay (onlyWebhookErrors_ok _) fun name h => by cases h]
  rintro ⟨-, name, message, hn, -⟩
  cases hn

theorem newAuthority_repository [LawfulPyText] {target : Except Raised (Option Str)}
    {base_ref : Option Str} {reason : Str}
    (ht : target = (webhookRepositoryName payload).map some) :
    FailsOneWay (newAuthority payload target base_ref reason) ↔ ¬ UnusableName payload := by
  have hiff : ∀ name, target = .ok (some name) ↔ webhookRepositoryName payload = .ok name := by
    intro name
    rw [ht]
    cases webhookRepositoryName payload with
    | ok found => simp [Except.map]
    | error e => simp [Except.map]
  have hr : OnlyWebhookErrors target := by
    intro e he
    rw [ht] at he
    cases hn : webhookRepositoryName payload with
    | ok found => rw [hn] at he; cases he
    | error e' =>
      rw [hn] at he
      cases he
      exact webhookRepositoryName_raises _ _ hn
  rw [newAuthority_failsOneWay hr fun name hn => webhookRepositoryName_lower ((hiff name).mp hn)]
  unfold UnusableName
  simp only [hiff]

end

/-! ## An added repository -/

theorem isNameChar_iff {c : Char} : isNameChar c = true ↔
    (65 ≤ c.toNat ∧ c.toNat ≤ 90) ∨ (97 ≤ c.toNat ∧ c.toNat ≤ 122) ∨
      (48 ≤ c.toNat ∧ c.toNat ≤ 57) ∨ c.toNat = 95 ∨ c.toNat = 46 ∨ c.toNat = 45 := by
  have i : ∀ {c d : Char}, c = d ↔ c.toNat = d.toNat := Char.toNat_inj.symm
  simp only [isNameChar, isAsciiAlnum, Bool.or_eq_true, beq_iff_eq, isAlpha_iff, isDigit_iff, i, or_assoc]
  rfl

theorem isNameChar_toLower {c : Char} (h : isNameChar c = true) : isNameChar c.toLower = true := by
  rw [isNameChar_iff] at h ⊢
  rw [toNat_toLower]
  split <;> omega

theorem isNameChar_slash {c : Char} (h : isNameChar c = true) : c ≠ '/' := by
  rintro rfl
  exact absurd h (by decide)

theorem isNameChar_space {c : Char} (h : isNameChar c = true) : isSpace c = false := by
  rw [isNameChar_iff] at h
  simp only [isSpace, Bool.or_eq_false_iff, Bool.and_eq_false_iff, decide_eq_false_iff_not,
    beq_eq_false_iff_ne]
  omega

theorem toLower_eq_dot {c : Char} : c.toLower = '.' ↔ c = '.' := by
  rw [← Char.toNat_inj, ← Char.toNat_inj, toNat_toLower]
  have : ('.' : Char).toNat = 46 := rfl
  split <;> omega

theorem map_toLower_dots {s : Str} :
    (s.map Char.toLower = ['.'] ↔ s = ['.']) ∧ (s.map Char.toLower = ['.', '.'] ↔ s = ['.', '.']) := by
  constructor
  · cases s with
    | nil => simp
    | cons c s => simp [toLower_eq_dot]
  · cases s with
    | nil => simp
    | cons c s =>
      cases s with
      | nil => simp
      | cons d s => simp [toLower_eq_dot]

theorem isLogin_chars {login : Str} (h : isLogin login = true) :
    login ≠ [] ∧ login.length ≤ 39 ∧ ∀ c ∈ login, isNameChar c = true ∧ c ≠ '.' := by
  cases login with
  | nil => cases h
  | cons c rest =>
    simp only [isLogin, Bool.and_eq_true, decide_eq_true_eq, List.all_eq_true] at h
    obtain ⟨⟨hc, hl⟩, hr⟩ := h
    have each : ∀ d ∈ c :: rest, isAsciiAlnum d = true ∨ d = '-' := by
      intro d hd
      obtain rfl | hd := List.mem_cons.mp hd
      · exact Or.inl hc
      · simpa using hr d hd
    refine ⟨List.cons_ne_nil _ _, by rw [List.length_cons]; omega, fun d hd => ⟨?_, ?_⟩⟩
    · obtain h | rfl := each d hd
      · simp [isNameChar, h]
      · decide
    · rintro rfl
      exact absurd (each _ hd) (by decide)

theorem isRepositoryName_chars {name : Str} (h : isRepositoryName name = true) :
    name ≠ [] ∧ name.length ≤ 100 ∧ (∀ c ∈ name, isNameChar c = true) ∧ name ≠ ['.'] ∧
      name ≠ ['.', '.'] := by
  simp only [isRepositoryName, Bool.and_eq_true, decide_eq_true_eq, List.all_eq_true] at h
  obtain ⟨⟨⟨⟨h₁, h₂⟩, h₃⟩, h₄⟩, h₅⟩ := h
  refine ⟨?_, h₂, h₃, h₄, h₅⟩
  rintro rfl
  exact absurd h₁ (by decide)

section
variable [PyText]

/-- The name built from a login and a repository name is one the queue accepts. -/
theorem normalize_added [LawfulPyText] {login name : Str} (hl : isLogin login = true)
    (hn : isRepositoryName name = true) :
    ∃ repository, normalizeRepositoryFullName (PyText.lower (login ++ '/' :: name)) = .ok repository := by
  obtain ⟨hl₁, hl₂, hl₃⟩ := isLogin_chars hl
  obtain ⟨hn₁, hn₂, hn₃, hn₄, hn₅⟩ := isRepositoryName_chars hn
  have hascii : ∀ c ∈ login ++ '/' :: name, c.toNat < 128 := by
    intro c hc
    rw [List.mem_append, List.mem_cons] at hc
    have small : ∀ {c : Char}, isNameChar c = true → c.toNat < 128 := by
      intro c h
      rw [isNameChar_iff] at h
      omega
    obtain hc | rfl | hc := hc
    · exact small (hl₃ c hc).1
    · decide
    · exact small (hn₃ c hc)
  rw [LawfulPyText.lower_ascii _ hascii, List.map_append, List.map_cons]
  have hslash : Char.toLower '/' = '/' := by decide
  rw [hslash]
  -- the two parts in lower case
  obtain ⟨a, ha⟩ : ∃ a, a = login.map Char.toLower := ⟨_, rfl⟩
  obtain ⟨b, hb⟩ : ∃ b, b = name.map Char.toLower := ⟨_, rfl⟩
  rw [← ha, ← hb]
  have ca : ∀ c ∈ a, isNameChar c = true := by
    intro c hc
    rw [ha, List.mem_map] at hc
    obtain ⟨d, hd, rfl⟩ := hc
    exact isNameChar_toLower (hl₃ d hd).1
  have cb : ∀ c ∈ b, isNameChar c = true := by
    intro c hc
    rw [hb, List.mem_map] at hc
    obtain ⟨d, hd, rfl⟩ := hc
    exact isNameChar_toLower (hn₃ d hd)
  have sa : '/' ∉ a := fun h => isNameChar_slash (ca _ h) rfl
  have sb : '/' ∉ b := fun h => isNameChar_slash (cb _ h) rfl
  have na : a ≠ [] := by rw [ha]; simpa using hl₁
  have nb : b ≠ [] := by rw [hb]; simpa using hn₁
  have da : a ≠ ['.'] ∧ a ≠ ['.', '.'] := by
    rw [ha]
    refine ⟨fun h => ?_, fun h => ?_⟩
    · rw [map_toLower_dots.1] at h
      exact (hl₃ '.' (by simp [h])).2 rfl
    · rw [map_toLower_dots.2] at h
      exact (hl₃ '.' (by simp [h])).2 rfl
  have db : b ≠ ['.'] ∧ b ≠ ['.', '.'] := by
    rw [hb]
    exact ⟨fun h => hn₄ (map_toLower_dots.1.mp h), fun h => hn₅ (map_toLower_dots.2.mp h)⟩
  have hsplit : (a ++ '/' :: b).splitOn '/' = [a, b] := by
    rw [List.splitOn_append_cons_self, List.splitOn_eq_singleton sa, List.splitOn_eq_singleton sb]
    rfl
  have hstrip : strip (a ++ '/' :: b) = a ++ '/' :: b := by
    rw [strip_eq_self]
    refine ⟨fun c hc => ?_, fun c hc => ?_⟩
    · obtain ⟨d, a', rfl⟩ := List.exists_cons_of_ne_nil na
      simp only [List.cons_append, List.head?_cons, Option.some.injEq] at hc
      exact hc ▸ isNameChar_space (ca d (by simp))
    · rw [List.getLast?_append_cons, List.getLast?_cons_of_ne_nil nb] at hc
      exact isNameChar_space (cb c (List.mem_of_getLast? hc))
  have hlen : (a ++ '/' :: b).length ≤ 512 := by
    rw [ha, hb]
    simp only [List.length_append, List.length_map, List.length_cons]
    omega
  have hcount : (a ++ '/' :: b).count '/' = 1 := by
    rw [List.count_append, List.count_cons_self, List.count_eq_zero_of_not_mem sa,
      List.count_eq_zero_of_not_mem sb]
  unfold normalizeRepositoryFullName
  rw [if_neg]
  · exact ⟨_, rfl⟩
  · rw [hsplit, hstrip, hcount]
    simp [na, nb, da.1, da.2, db.1, db.2]
    simpa using hlen

theorem singleAddedRepository_accepted [LawfulPyText] {payload : JsonObject} {org name : Str}
    (h : singleAddedRepository payload org = some name) :
    PyText.lower name = name ∧ ∃ repository, normalizeRepositoryFullName name = .ok repository := by
  unfold singleAddedRepository at h
  split at h
  · split at h
    · split at h
      · split at h
        · cases h
        · rename_i login full_name name' repository_id _ _ _ _ hc
          cases h
          simp only [Bool.or_eq_true, Bool.not_eq_true', decide_eq_true_eq, not_or,
            Bool.not_eq_false, not_not] at hc
          obtain ⟨⟨⟨⟨hl, hn⟩, hf⟩, -⟩, -⟩ := hc
          refine ⟨LawfulPyText.lower_lower full_name, ?_⟩
          rw [hf]
          exact normalize_added hl hn
      · cases h
    · cases h
  · cases h

end

/-! ## Where a job fails in another way -/

section
variable [PyText] (webhook : VerifiedWebhook)

/-- The delivery describes a pull request that is evaluated. -/
def ReadsPull (allow_closed : Bool) : Prop :=
  ∃ pull, Json.get webhook.payload "pull_request" = .object pull ∧
    ((Json.get pull "state").isString "open" = true ∨
      (Json.get pull "state").isString "closed" = true ∧ allow_closed = true) ∧
    (∃ n, positiveInt ((Json.get pull "number").orElse (Json.get webhook.payload "number"))
      ("pull number" : Str) = .ok n) ∧
    ∃ head sha, Json.get pull "head" = .object head ∧
      headSha (Json.get head "sha") ("pull_request.head.sha" : Str) = .ok sha

def ReadsCheckRun (expected_app_id : Option Int) : Prop :=
  ∃ check_run pull, Json.get webhook.payload "check_run" = .object check_run ∧
    fromOtherApp check_run expected_app_id = false ∧ requestsOtherAction webhook = false ∧
    Json.get check_run "pull_requests" = .array [.object pull] ∧
    (∃ n, positiveInt (Json.get pull "number") ("check_run pull number" : Str) = .ok n) ∧
    ∃ sha, headSha (Json.get check_run "head_sha") ("check_run.head_sha" : Str) = .ok sha

/-- The push moves a branch of a repository other than the policy's. -/
def ReadsBranch (org_config_repository : Str) : Prop :=
  (Json.get webhook.payload "deleted").isTrue = false ∧
    (∃ branch, pushedBranch webhook.payload = some branch) ∧
    ∃ name, webhookRepositoryName webhook.payload = .ok name ∧
      splitRepository name ≠ PyText.lower org_config_repository

variable {webhook}

theorem pullRequestJob_failsOneWay [LawfulPyText] {allow_closed : Bool} :
    FailsOneWay (pullRequestJob webhook allow_closed) ↔
      (∀ pull, Json.get webhook.payload "pull_request" = .object pull →
        (Json.get pull "state").hashable = true) ∧
      ¬ (ReadsPull webhook allow_closed ∧ UnusableName webhook.payload) := by
  unfold pullRequestJob ReadsPull
  cases hp : Json.get webhook.payload "pull_request" with
  | object pull =>
    simp only [Json.object.injEq, forall_eq', exists_eq_left']
    cases hh : (Json.get pull "state").hashable with
    | false =>
      simp only [Bool.not_false, if_true]
      exact ⟨fun h => h.elim, fun h => nomatch h.1⟩
    | true =>
      simp only [Bool.not_true, Bool.false_eq_true, if_false, true_and]
      cases ho : (Json.get pull "state").isString "open" || (Json.get pull "state").isString "closed" with
      | false =>
        obtain ⟨h₁, h₂⟩ := Bool.or_eq_false_iff.mp ho
        simp [h₁, h₂, FailsOneWay]
      | true =>
        cases hc : (Json.get pull "state").isString "closed" && !allow_closed with
        | true =>
          obtain ⟨h₁, h₂⟩ := Bool.and_eq_true_iff.mp hc
          have h₃ : (Json.get pull "state").isString "open" = false := by
            rw [Json.eq_of_isString h₁]; decide
          simp only [Bool.not_eq_true'] at h₂
          simp [h₂, h₃, FailsOneWay]
        | false =>
          have hs : (Json.get pull "state").isString "open" = true ∨
              (Json.get pull "state").isString "closed" = true ∧ allow_closed = true := by
            cases h₁ : (Json.get pull "state").isString "open" with
            | true => exact Or.inl rfl
            | false =>
              rw [h₁, Bool.false_or] at ho
              rw [ho] at hc
              exact Or.inr ⟨ho, by simpa using hc⟩
          simp only [Bool.not_true, Bool.false_eq_true, if_false, hs, true_and]
          rw [failsOneWay_bind (positiveInt_raises _ _)]
          constructor
          · rintro h ⟨⟨⟨n, hn⟩, head, sha, hd, hsha⟩, hu⟩
            have hf := h n hn
            rw [hd] at hf
            exact (newEvaluation_failsOneWay (baseRefHint_valid _)).mp
              ((failsOneWay_bind (headSha_raises _ _)).mp hf sha hsha) hu
          · intro h n hn
            cases hd : Json.get pull "head" with
            | object head =>
              simp only [failsOneWay_bind (headSha_raises _ _)]
              intro sha hsha
              exact (newEvaluation_failsOneWay (baseRefHint_valid _)).mpr fun hu =>
                h ⟨⟨⟨n, hn⟩, head, sha, hd, hsha⟩, hu⟩
            | _ => trivial
  | _ => simp [FailsOneWay]

theorem checkRunJob_failsOneWay [LawfulPyText] {expected_app_id : Option Int} :
    FailsOneWay (checkRunJob webhook expected_app_id) ↔
      ¬ (ReadsCheckRun webhook expected_app_id ∧ UnusableName webhook.payload) := by
  unfold checkRunJob ReadsCheckRun
  cases hp : Json.get webhook.payload "check_run" with
  | object check_run =>
    simp only
    cases hi : fromOtherApp check_run expected_app_id || requestsOtherAction webhook with
    | true =>
      simp only [if_true]
      refine iff_of_true trivial ?_
      rintro ⟨⟨_, _, he, h₁, h₂, -⟩, -⟩
      cases he
      rw [h₁, h₂] at hi
      cases hi
    | false =>
      obtain ⟨h₁, h₂⟩ := Bool.or_eq_false_iff.mp hi
      simp only [Bool.false_eq_true, if_false]
      split
      · rename_i pull hl
        rw [failsOneWay_bind (positiveInt_raises _ _)]
        constructor
        · rintro h ⟨⟨_, _, he, -, -, hl', ⟨n, hn⟩, sha, hsha⟩, hu⟩
          cases he
          rw [hl] at hl'
          cases hl'
          exact (newEvaluation_failsOneWay rfl).mp
            ((failsOneWay_bind (headSha_raises _ _)).mp (h n hn) sha hsha) hu
        · intro h n hn
          rw [failsOneWay_bind (headSha_raises _ _)]
          intro sha hsha
          exact (newEvaluation_failsOneWay rfl).mpr fun hu =>
            h ⟨⟨check_run, pull, rfl, h₁, h₂, hl, ⟨n, hn⟩, sha, hsha⟩, hu⟩
      · rename_i hl
        refine iff_of_true trivial ?_
        rintro ⟨⟨_, pull, he, -, -, hl', -⟩, -⟩
        cases he
        exact hl pull hl'
  | _ => simp [FailsOneWay]

theorem pushAuthorityJob_failsOneWay [LawfulPyText] {policy_path org : Str} :
    FailsOneWay (pushAuthorityJob webhook policy_path org) ↔
      ¬ (ReadsBranch webhook org ∧ UnusableName webhook.payload) := by
  unfold pushAuthorityJob ReadsBranch
  simp only
  cases hd : (Json.get webhook.payload "deleted").isTrue with
  | true => simp [FailsOneWay]
  | false =>
    simp only [Bool.false_eq_true, if_false, true_and]
    cases hb : pushedBranch webhook.payload with
    | none => simp [FailsOneWay]
    | some branch =>
      simp only
      cases hp : Json.get webhook.payload "repository" with
      | object repository =>
        simp only [failsOneWay_bind (webhookRepositoryName_raises _)]
        constructor
        · rintro h ⟨⟨-, name, hn, hne⟩, hu⟩
          have hf := h name hn
          rw [if_pos hne] at hf
          exact (newAuthority_repository (by rw [hn]; rfl)).mp hf hu
        · intro h name hn
          by_cases hne : splitRepository name = PyText.lower org
          · rw [if_neg (not_not.mpr hne)]
            cases Json.get repository "default_branch" with
            | string default_branch =>
              exact ite_failsOneWay trivial (ite_failsOneWay trivial newAuthority_installation)
            | _ => trivial
          · rw [if_pos hne]
            exact (newAuthority_repository (by rw [hn]; rfl)).mpr fun hu =>
              h ⟨⟨⟨branch, rfl⟩, name, hn, hne⟩, hu⟩
      | _ =>
        refine iff_of_true trivial ?_
        rintro ⟨⟨-, name, hn, -⟩, -⟩
        simp [webhookRepositoryName, hp] at hn

theorem repositoryJob_failsOneWay {org : Str} : FailsOneWay (repositoryJob webhook org) := by
  unfold repositoryJob
  cases Json.get webhook.payload "repository" with
  | object repository =>
    simp only [failsOneWay_bind (webhookRepositoryName_raises _)]
    intro name _
    exact ite_failsOneWay newAuthority_installation
      (ite_failsOneWay newAuthority_installation trivial)
  | _ => trivial

theorem repositoriesRemovedJob_failsOneWay {org : Str} :
    FailsOneWay (repositoriesRemovedJob webhook org) := by
  unfold repositoriesRemovedJob
  exact ite_failsOneWay newAuthority_installation trivial

theorem repositoriesAdded_failsOneWay [LawfulPyText] {org reason : Str} :
    FailsOneWay (newAuthority webhook.payload (.ok (singleAddedRepository webhook.payload org)) none
      reason) := by
  rw [newAuthority_failsOneWay (onlyWebhookErrors_ok _)
    fun name hn => (singleAddedRepository_accepted (Except.ok.inj hn)).1]
  rintro ⟨-, name, message, hn, hm⟩
  obtain ⟨-, repository, hr⟩ := singleAddedRepository_accepted (Except.ok.inj hn)
  rw [hr] at hm
  cases hm

/-! ## The router -/

variable (webhook)

def PullDelivery : Prop :=
  webhook.event = ("pull_request" : Str) ∧ webhook.action ∈ PULL_REQUEST_ACTIONS ∨
    webhook.event = ("pull_request_review" : Str) ∧ webhook.action ∈ REVIEW_ACTIONS

/-- `pull_request.state` is an array or an object, which has no hash. -/
def HashesContainer : Prop :=
  PullDelivery webhook ∧ ∃ pull, Json.get webhook.payload "pull_request" = .object pull ∧
    (Json.get pull "state").hashable = false

/-- The delivery gets as far as a request for the repository it names. -/
def NamesRepository (org_config_repository : Str) (expected_app_id : Option Int) : Prop :=
  PullDelivery webhook ∧
      ReadsPull webhook (webhook.event = ("pull_request" : Str) ∧ webhook.action = ("closed" : Str)) ∨
    (webhook.event = ("check_run" : Str) ∧
      webhook.action ∈ [("rerequested" : Str), ("requested_action" : Str)]) ∧
      ReadsCheckRun webhook expected_app_id ∨
    webhook.event = ("push" : Str) ∧ ReadsBranch webhook org_config_repository ∨
    webhook.event ∈ [("label" : Str), ("member" : Str), ("team_add" : Str)]

variable {webhook}

/-- A malformed delivery fails with a `WebhookError`, and only then, unless the
state of its pull request has no hash or it asks for a repository whose name
passes the webhook's own check and not the queue's. -/
theorem evaluationJob_failsOneWay [LawfulPyText] (webhook : VerifiedWebhook)
    (policy_path org_config_repository : Str) (expected_app_id : Option Int) :
    FailsOneWay (evaluationJob webhook policy_path org_config_repository expected_app_id) ↔
      ¬ HashesContainer webhook ∧
      ¬ (NamesRepository webhook org_config_repository expected_app_id ∧
        UnusableName webhook.payload) := by
  unfold evaluationJob HashesContainer NamesRepository PullDelivery
  by_cases h₁ : webhook.event = ("pull_request" : Str)
  · obtain ⟨h₂, h₃, h₄, h₅⟩ : webhook.event ≠ ("pull_request_review" : Str) ∧
        webhook.event ≠ ("check_run" : Str) ∧ webhook.event ≠ ("push" : Str) ∧
        webhook.event ∉ [("label" : Str), ("member" : Str), ("team_add" : Str)] := by
      rw [h₁]; decide
    rw [if_pos h₁]
    simp only [h₂, h₃, h₄, h₅, false_and, or_false]
    simp only [h₁, true_and]
    by_cases ha : webhook.action ∈ PULL_REQUEST_ACTIONS
    · rw [if_pos ha, pullRequestJob_failsOneWay]
      simp only [ha, true_and, not_exists, not_and, Bool.not_eq_false]
    · rw [if_neg ha]
      simp only [ha, false_and, not_false_eq_true, and_self, FailsOneWay]
  rw [if_neg h₁]
  by_cases h₂ : webhook.event = ("pull_request_review" : Str)
  · obtain ⟨h₃, h₄, h₅⟩ : webhook.event ≠ ("check_run" : Str) ∧ webhook.event ≠ ("push" : Str) ∧
        webhook.event ∉ [("label" : Str), ("member" : Str), ("team_add" : Str)] := by
      rw [h₂]; decide
    rw [if_pos h₂]
    simp only [h₁, h₃, h₄, h₅, false_and, or_false, false_or, decide_false]
    simp only [h₂, true_and]
    by_cases ha : webhook.action ∈ REVIEW_ACTIONS
    · rw [if_pos ha, pullRequestJob_failsOneWay]
      simp only [ha, true_and, not_exists, not_and, Bool.not_eq_false]
    · rw [if_neg ha]
      simp only [ha, false_and, not_false_eq_true, and_self, FailsOneWay]
  rw [if_neg h₂]
  simp only [h₁, h₂, false_and, false_or, not_false_eq_true, true_and]
  by_cases h₃ : webhook.event = ("check_run" : Str) ∧
      webhook.action ∈ [("rerequested" : Str), ("requested_action" : Str)]
  · obtain ⟨h₄, h₅⟩ : webhook.event ≠ ("push" : Str) ∧
        webhook.event ∉ [("label" : Str), ("member" : Str), ("team_add" : Str)] := by
      rw [h₃.1]; decide
    rw [if_pos h₃, checkRunJob_failsOneWay]
    simp only [h₄, h₅, false_and, or_false]
    simp only [h₃, and_self, true_and]
  rw [if_neg h₃]
  simp only [h₃, false_and, false_or]
  by_cases h₄ : webhook.event = ("push" : Str)
  · have h₅ : webhook.event ∉ [("label" : Str), ("member" : Str), ("team_add" : Str)] := by
      rw [h₄]; decide
    rw [if_pos h₄, pushAuthorityJob_failsOneWay]
    simp only [h₅, or_false]
    simp only [h₄, true_and]
  rw [if_neg h₄]
  simp only [h₄, false_and, false_or]
  by_cases h₅ : webhook.event ∈ [("label" : Str), ("member" : Str), ("team_add" : Str)]
  · have h₆ : webhook.event ≠ ("repository" : Str) := by
      rintro h
      rw [h] at h₅
      exact absurd h₅ (by decide)
    rw [if_neg h₆, if_pos h₅, newAuthority_repository rfl]
    simp only [h₅, true_and]
  simp only [h₅, if_false, false_and, not_false_eq_true, iff_true]
  -- the other events name no repository the payload spells out
  exact ite_failsOneWay repositoryJob_failsOneWay <|
    ite_failsOneWay newAuthority_installation <|
    ite_failsOneWay newAuthority_installation <|
    ite_failsOneWay repositoriesAdded_failsOneWay <|
    ite_failsOneWay repositoriesRemovedJob_failsOneWay <|
    ite_failsOneWay newAuthority_installation trivial

end

/-! ## Deliveries of either kind -/

def deliveryOf (event action : String) (full_name : String) (fields : JsonObject) : VerifiedWebhook where
  delivery_id := ("d" : Str)
  event := event
  action := action
  payload := fields ++
    [(("installation" : Str), .object [(("id" : Str), .int 10)]),
      (("repository" : Str), .object [(("full_name" : Str), .string full_name)])]

def sampleMember : VerifiedWebhook := deliveryOf "member" "added" "octo/app" []

def samplePadded : VerifiedWebhook := deliveryOf "member" "added" "octo/app " []

def sampleStates : VerifiedWebhook :=
  deliveryOf "pull_request" "opened" "octo/app"
    [(("pull_request" : Str), .object [(("state" : Str), .array [])])]

theorem sampleMember_failsOneWay :
    @FailsOneWay asciiText (@evaluationJob asciiText sampleMember ("p" : Str) (".github" : Str) none) := by
  let _ := asciiText
  have _ := asciiText_lawful
  refine (evaluationJob_failsOneWay sampleMember ("p" : Str) (".github" : Str) none).mpr ⟨?_, ?_⟩
  · rintro ⟨h | h, -⟩
    · exact absurd h.1 (by decide)
    · exact absurd h.1 (by decide)
  · rintro ⟨-, -, name, message, hn, hm⟩
    obtain rfl : ("octo/app" : Str) = name := Except.ok.inj hn
    have ha : (@normalizeRepositoryFullName asciiText ("octo/app" : Str)).isOk = true := by decide
    rw [hm] at ha
    cases ha

/-- An array for a state has no hash, and a trailing space is rejected by the
constructor of the request. -/
theorem malformed_not_failsOneWay :
    ¬ @FailsOneWay asciiText (@evaluationJob asciiText sampleStates ("p" : Str) (".github" : Str) none) ∧
      ¬ @FailsOneWay asciiText
        (@evaluationJob asciiText samplePadded ("p" : Str) (".github" : Str) none) :=
  ⟨id, id⟩

end ExtraCodeowners
