import ExtraCodeowners.Schedules

/-!
# Guards of the service

A process holds a guard exactly when its trace says so, in every run and across
crashes. So a guard has one holder, and every check is written by the holder of
its head's guard.
-/

namespace ExtraCodeowners

open System

/-! ## What a trace tells -/

theorem Acted.seen_trace {p : Pid} {s s₁ : World} {i : Instant} {e : Effect} {a : Except Exn e.Answer}
    (h : Acted p s i e a s₁) (q : Pid) (event : Event) :
    (s₁.seen p event).trace q = if q = p then event :: s.trace p else s.trace q := by
  rw [ExtraCodeowners.seen_trace, h.trace]

/-- Each event is one that the world it found could answer so. -/
def Honest (τ : Trace) : Prop :=
  ∀ l event older, τ = l ++ event :: older →
    told older event.before event.github event.instant event.effect event.answer

theorem Honest.nil : Honest [] := by
  intro l event older hτ
  cases l <;> cases hτ

theorem Honest.cons {τ : Trace} {event : Event} (h : Honest τ)
    (ht : told τ event.before event.github event.instant event.effect event.answer) : Honest (event :: τ) := by
  intro l e older hτ
  cases l with
  | nil =>
    cases hτ
    exact ht
  | cons _ l =>
    cases hτ
    exact h l e older rfl

theorem honest_performs {s s' : World} {p : Pid} {e : Effect} {a : Except Exn e.Answer}
    (h : ∀ q, Honest (s.trace q)) (hperf : performs p s e a s') (q : Pid) : Honest (s'.trace q) := by
  obtain ⟨-, i, s₁, hact, rfl⟩ := hperf
  rw [(acted_of_acts hact).seen_trace]
  split
  · exact (h p).cons (told_of_acts hact)
  · exact h q

theorem honest_cleared {s : World} (h : ∀ q, Honest (s.trace q)) (p q : Pid) : Honest ((s.cleared p).trace q) := by
  rw [cleared_trace]
  split
  · exact .nil
  · exact h q

theorem honest_environment {s s' : World} (h : ∀ q, Honest (s.trace q)) (he : environment s s') (q : Pid) :
    Honest (s'.trace q) := by
  rw [environment_trace he]
  exact h q

theorem WriteFenced.guarded {τ : Trace} {w : CheckWrite} (h : WriteFenced τ w) :
    holdsCheckGuard w.key.installation_id w.key.head_sha τ = true := by
  cases w with
  | upsertCompleted key job conclusion skip =>
    obtain ⟨head, rfl, hfenced, -⟩ := h
    exact hfenced.guarded
  | upsertInterim key | resetCheckRun key id | cancelCheckRun key id => exact h

section
variable [PullDigest] {settings : Settings} {github : GitHub} {c : Config Pid Effect Effect.Answer Exn World}

theorem Reached.guards (h : Reached settings github c) : GuardsKept c.state :=
  h.inv (J := GuardsKept) (.initial github) (fun _ _ _ _ _ hs _ hp => hs.perform hp)
    (fun _ _ hs he => hs.env he) fun p _ hs => hs.clear p

theorem Lawful.permitted {p : Pid} {τ : Trace} {e : Effect} (h : Lawful settings p τ e) : Permitted p τ e := by
  cases e with
  | call c => exact h.1
  | _ => trivial

/-- A run of the service is one of the tokens of its store. -/
theorem Reached.traced (h : Reached settings github c) : Traced c.state :=
  h.inv (J := Traced) (.initial github) (fun _ _ _ _ _ hs hl hp => hs.perform hl.permitted hp)
    (fun _ _ hs he => hs.env he) fun p _ hs => hs.clear p

theorem Reached.honest (h : Reached settings github c) : ∀ p, Honest (c.state.trace p) :=
  h.inv (J := fun s => ∀ p, Honest (s.trace p)) (fun _ => .nil) (fun _ _ _ _ _ hs _ hp => honest_performs hs hp)
    (fun _ _ hs he => honest_environment hs he) fun p _ hs => honest_cleared hs p

/-- Every call was lawful where its process committed it. -/
theorem Reached.committed (h : Reached settings github c) :
    ∀ commit ∈ c.state.commits, Lawful settings commit.pid commit.trace (.call commit.call) := by
  refine h.inv (J := fun s => ∀ commit ∈ s.commits, Lawful settings commit.pid commit.trace (.call commit.call))
    (fun _ hc => by cases hc) ?_ ?_ fun _ _ hs => hs
  · intro p s e a s' hs hl hperf commit hc
    obtain ⟨-, i, s₁, hact, rfl⟩ := hperf
    cases acted_of_acts hact with
    | learned c a db' | unlearned c a db' x =>
      rcases List.mem_cons.mp hc with rfl | hc
      · exact hl
      · exact hs commit hc
    | released installation_id head_sha a =>
      have hsame : (s.released p installation_id head_sha).commits = s.commits := by
        unfold World.released
        split <;> rfl
      exact hs commit (hsame ▸ hc)
    | _ => exact hs commit hc
  · intro s s' hs he
    cases he <;> exact hs

/-- Whoever is about to write the check of a head has the writer guard of the head. -/
theorem write_is_guarded (h : Reached settings github c) {p : Pid} {w : CheckWrite}
    {k : Except Exn Unit → Program PUnit} (hp : c.procs p = some (.op (.write w) k)) :
    c.state.check_guard (w.key.installation_id, w.key.head_sha) = some p := by
  have hfenced : WriteFenced (c.state.trace p) w := h.lawful hp
  exact (h.guards.check _ _ p).mpr hfenced.guarded

/-- The tables and the claims in hand are those of a run of the store in which
every claim is used by the one process that it was handed to, before its release. -/
theorem service_refines_store (h : Reached settings github c) :
    ∃ t : Tokens, t.Reachable Tokens.Permits ∧ t.db = c.state.db ∧ ∀ p, Backs t p (c.state.trace p) := by
  obtain ⟨t, ht⟩ := h.traced
  exact ⟨t, ht.reachable, ht.db, ht.backs⟩

end

theorem samplePublishing_next : samplePublishing.next "e" =
    some (.write (.upsertCompleted (sampleEvaluation.epochKey sampleHead) sampleEvaluation .SUCCESS false)) := by
  rfl

theorem write_is_guarded_sample :
    samplePublishing.state.check_guard (1, sampleHead) = some ("e" : Str) := by
  obtain ⟨k, hk⟩ := Configuration.next_eq_some samplePublishing_next
  exact @write_is_guarded sampleDigest sampleSettings sampleGitHub _ (@samplePublishing_reached sampleDigest) _ _ k hk

theorem service_refines_store_sample :
    ∃ t : Tokens, t.Reachable Tokens.Permits ∧ t.db = samplePublishing.state.db ∧
      ∀ p, Backs t p (samplePublishing.state.trace p) :=
  @service_refines_store sampleDigest sampleSettings sampleGitHub _ (@samplePublishing_reached sampleDigest)

end ExtraCodeowners
