import ExtraCodeowners.Worker
import ExtraCodeowners.Lib.Local

/-!
# Traces

A process decides by its own trace alone. Each trace is a list of events, the
latest first, and every run of the service is a run of the tokens of the store:
the claims in hand of every trace are tokens that the store handed out.
-/

namespace ExtraCodeowners

open System

abbrev Trace := List Event

/-! ## Guards in hand -/

/-- Whether a trace holds the writer guard of a head. -/
def holdsCheckGuard (installation_id : Nat) (head_sha : HeadSha) : Trace → Bool
  | [] => false
  | event :: older =>
    match event.effect, event.answer with
    | .acquireCheckWriteGuard id head, .ok _ =>
      if (id, head) = (installation_id, head_sha) then true else holdsCheckGuard installation_id head_sha older
    | .releaseCheckWriteGuard id head, _ =>
      if (id, head) = (installation_id, head_sha) then false else holdsCheckGuard installation_id head_sha older
    | _, _ => holdsCheckGuard installation_id head_sha older

/-- Whether a trace holds the publication guard of an installation. -/
def holdsAuthorityGuard (installation_id : Nat) : Trace → Bool
  | [] => false
  | event :: older =>
    match event.effect, event.answer with
    | .acquireAuthorityGuard id, .ok _ =>
      if id = installation_id then true else holdsAuthorityGuard installation_id older
    | .releaseAuthorityGuard id, _ =>
      if id = installation_id then false else holdsAuthorityGuard installation_id older
    | _, _ => holdsAuthorityGuard installation_id older

def Effect.releasesCheckGuard : Effect → Bool
  | .releaseCheckWriteGuard .. => true
  | _ => false

def Effect.releasesAuthorityGuard : Effect → Bool
  | .releaseAuthorityGuard _ => true
  | _ => false

theorem holdsCheckGuard_later {id : Nat} {head : HeadSha} {τ : Trace} {event : Event}
    (he : event.effect.releasesCheckGuard = false) (h : holdsCheckGuard id head τ = true) :
    holdsCheckGuard id head (event :: τ) = true := by
  obtain ⟨db, g, i, e, a⟩ := event
  cases e with
  | acquireCheckWriteGuard id' head' =>
    cases a with
    | ok a =>
      simp only [holdsCheckGuard]
      split
      · rfl
      · exact h
    | error x => exact h
  | releaseCheckWriteGuard => cases he
  | _ => exact h

theorem holdsAuthorityGuard_later {id : Nat} {τ : Trace} {event : Event}
    (he : event.effect.releasesAuthorityGuard = false) (h : holdsAuthorityGuard id τ = true) :
    holdsAuthorityGuard id (event :: τ) = true := by
  obtain ⟨db, g, i, e, a⟩ := event
  cases e with
  | acquireAuthorityGuard id' =>
    cases a with
    | ok a =>
      simp only [holdsAuthorityGuard]
      split
      · rfl
      · exact h
    | error x => exact h
  | releaseAuthorityGuard => cases he
  | _ => exact h

def Effect.takesCheckGuard (e : Effect) (a : Except Exn e.Answer) (id : Nat) (head : HeadSha) : Bool :=
  match e, a with
  | .acquireCheckWriteGuard id' head', .ok _ => (id', head') = (id, head)
  | _, _ => false

def Effect.dropsCheckGuard (e : Effect) (id : Nat) (head : HeadSha) : Bool :=
  match e with
  | .releaseCheckWriteGuard id' head' => (id', head') = (id, head)
  | _ => false

def Effect.takesAuthorityGuard (e : Effect) (a : Except Exn e.Answer) (id : Nat) : Bool :=
  match e, a with
  | .acquireAuthorityGuard id', .ok _ => id' = id
  | _, _ => false

def Effect.dropsAuthorityGuard (e : Effect) (id : Nat) : Bool :=
  match e with
  | .releaseAuthorityGuard id' => id' = id
  | _ => false

/-! ## What a process learns -/

/-- What the world tells a process with a trace. -/
def told (τ : Trace) (db : Db) (g : GitHub) (i : Instant) : (e : Effect) → Except Exn e.Answer → Prop
  | .query q, .ok a => a = q.run i db
  | .call c, .ok a => ∃ db', c.run i db = .ok (db', a)
  | .read r, .ok a => g.answers r a
  | .recallPolicy base_ref, .ok a => a = recalledPolicy base_ref τ
  | .recallPolicy _, .error _ | .rememberPolicy .., .error _ | .pick, .error _ => False
  | _, _ => True

/-- An exception comes from outside, and nobody is granted a guard that he has. -/
structure Answers (τ : Trace) (e : Effect) (a : Except Exn e.Answer) : Prop where
  external : ∀ x, a = .error x → x.isExternal = true
  free : ∀ id head, e.takesCheckGuard a id head = true → holdsCheckGuard id head τ = false

/-- One step of a process over its own trace. -/
def observes (τ : Trace) (e : Effect) (a : Except Exn e.Answer) (τ' : Trace) : Prop :=
  Answers τ e a ∧ ∃ db g i, told τ db g i e a ∧ τ' = ⟨db, g, i, e, a⟩ :: τ

theorem told_of_acts {p : Pid} {s s' : World} {i : Instant} {e : Effect} {a : Except Exn e.Answer}
    (h : acts p s i e a s') : told (s.trace p) s.db s.github i e a := by
  cases e with
  | query q =>
    cases a with
    | ok a => exact h.1
    | error x => trivial
  | call c =>
    cases a with
    | ok a =>
      obtain ⟨-, db', hr, -⟩ := h
      exact ⟨db', hr⟩
    | error x => trivial
  | read r =>
    cases a with
    | ok a => exact h.1
    | error x => trivial
  | recallPolicy base_ref =>
    cases a with
    | ok a => exact h.1
    | error x => exact h
  | rememberPolicy base_ref present =>
    cases a with
    | ok a => trivial
    | error x => exact h
  | pick =>
    cases a with
    | ok a => trivial
    | error x => exact h
  | _ => cases a <;> trivial

/-- Whether an effect with this answer may leave the world alone. -/
def mayIdle (s : World) : (e : Effect) → Except Exn e.Answer → Prop
  | .call _, .ok _ | .acquireCheckWriteGuard .., .ok _ | .acquireAuthorityGuard _, .ok _ => False
  | .releaseCheckWriteGuard .., _ | .releaseAuthorityGuard _, _ => False
  | .write w, .ok _ => w.mayskip (s.github.checks w.key)
  | _, _ => True

/-- What became of the world, before the process records its effect. -/
inductive Acted (p : Pid) (s : World) (i : Instant) : (e : Effect) → Except Exn e.Answer → World → Prop where
  | idle (e : Effect) (a : Except Exn e.Answer) : mayIdle s e a → Acted p s i e a s
  | learned (c : Call) (a : c.Answer) (db' : Db) : s.admits c → c.run i s.db = .ok (db', a) →
      Acted p s i (.call c) (.ok a) (s.committed p i c db')
  | unlearned (c : Call) (a : c.Answer) (db' : Db) (x : Exn) : s.admits c → c.run i s.db = .ok (db', a) →
      Acted p s i (.call c) (.error x) (s.committed p i c db')
  | taken (installation_id : Nat) (head_sha : HeadSha) (a : Unit) :
      s.check_guard (installation_id, head_sha) = none →
      Acted p s i (.acquireCheckWriteGuard installation_id head_sha) (.ok a)
        (s.taken p installation_id head_sha)
  | released (installation_id : Nat) (head_sha : HeadSha) (a : Except Exn Unit) :
      Acted p s i (.releaseCheckWriteGuard installation_id head_sha) a (s.released p installation_id head_sha)
  | shared (installation_id : Nat) (a : Unit) :
      Acted p s i (.acquireAuthorityGuard installation_id) (.ok a) (s.shared p installation_id true)
  | unshared (installation_id : Nat) (a : Except Exn Unit) :
      Acted p s i (.releaseAuthorityGuard installation_id) a (s.shared p installation_id false)
  | written (w : CheckWrite) (a : Except Exn Unit) (id : Nat) : w.addresses (s.github.checks w.key) id →
      Acted p s i (.write w) a (s.written w id)

theorem acted_of_acts {p : Pid} {s s' : World} {i : Instant} {e : Effect} {a : Except Exn e.Answer}
    (h : acts p s i e a s') : Acted p s i e a s' := by
  cases e with
  | call c =>
    cases a with
    | ok a =>
      obtain ⟨hadmits, db', hr, rfl⟩ := h
      exact .learned c a db' hadmits hr
    | error x =>
      rcases h with rfl | ⟨hadmits, db', a, hr, rfl⟩
      · exact .idle _ _ trivial
      · exact .unlearned c a db' x hadmits hr
  | acquireCheckWriteGuard installation_id head_sha =>
    cases a with
    | ok a =>
      obtain ⟨hfree, rfl⟩ := h
      exact .taken installation_id head_sha a hfree
    | error x =>
      cases h
      exact .idle _ _ trivial
  | releaseCheckWriteGuard installation_id head_sha =>
    have hs : s' = s.released p installation_id head_sha := by cases a <;> exact h
    subst hs
    exact .released installation_id head_sha a
  | acquireAuthorityGuard installation_id =>
    cases a with
    | ok a =>
      cases h
      exact .shared installation_id a
    | error x =>
      cases h
      exact .idle _ _ trivial
  | releaseAuthorityGuard installation_id =>
    have hs : s' = s.shared p installation_id false := by cases a <;> exact h
    subst hs
    exact .unshared installation_id a
  | write w =>
    cases a with
    | ok a =>
      rcases h with ⟨id, ha, rfl⟩ | ⟨hskip, rfl⟩
      · exact .written w (.ok a) id ha
      · exact .idle _ _ hskip
    | error x =>
      rcases h with rfl | ⟨id, ha, rfl⟩
      · exact .idle _ _ trivial
      · exact .written w (.error x) id ha
  | query q | read r =>
    cases a with
    | ok a =>
      rw [h.2]
      exact .idle _ _ trivial
    | error x =>
      cases h
      exact .idle _ _ trivial
  | recallPolicy base_ref =>
    cases a with
    | ok a =>
      rw [h.2]
      exact .idle _ _ trivial
    | error x => cases h
  | rememberPolicy | pick =>
    cases a with
    | ok a =>
      cases h
      exact .idle _ _ trivial
    | error x => cases h
  | leaseIsLost | recordAudit =>
    cases a <;>
    · cases h
      exact .idle _ _ trivial

/-- Before the process records it, an effect changes no trace. -/
theorem Acted.trace {p : Pid} {s s' : World} {i : Instant} {e : Effect} {a : Except Exn e.Answer}
    (h : Acted p s i e a s') : s'.trace = s.trace := by
  cases h with
  | released installation_id head_sha a =>
    rw [World.released]
    split <;> rfl
  | _ => rfl

theorem environment_trace {s s' : World} (h : environment s s') : s'.trace = s.trace := by
  cases h <;> rfl

theorem cleared_trace (s : World) (p q : Pid) :
    (s.cleared p).trace q = if q = p then [] else s.trace q := by
  show Function.update s.trace p [] q = _
  rw [Function.update_apply]

/-! ## Guards of a world -/

theorem holdsCheckGuard_cons (id : Nat) (head : HeadSha) (db : Db) (g : GitHub) (i : Instant) (e : Effect)
    (a : Except Exn e.Answer) (τ : Trace) : holdsCheckGuard id head (⟨db, g, i, e, a⟩ :: τ) =
      (e.takesCheckGuard a id head || (!e.dropsCheckGuard id head && holdsCheckGuard id head τ)) := by
  cases e with
  | acquireCheckWriteGuard id' head' =>
    cases a with
    | ok u => by_cases h : (id', head') = (id, head) <;>
        simp [holdsCheckGuard, Effect.takesCheckGuard, Effect.dropsCheckGuard, h]
    | error x => simp [holdsCheckGuard, Effect.takesCheckGuard, Effect.dropsCheckGuard]
  | releaseCheckWriteGuard id' head' =>
    by_cases h : (id', head') = (id, head) <;>
      simp [holdsCheckGuard, Effect.takesCheckGuard, Effect.dropsCheckGuard, h]
  | _ => simp [holdsCheckGuard, Effect.takesCheckGuard, Effect.dropsCheckGuard]

theorem holdsAuthorityGuard_cons (id : Nat) (db : Db) (g : GitHub) (i : Instant) (e : Effect)
    (a : Except Exn e.Answer) (τ : Trace) : holdsAuthorityGuard id (⟨db, g, i, e, a⟩ :: τ) =
      (e.takesAuthorityGuard a id || (!e.dropsAuthorityGuard id && holdsAuthorityGuard id τ)) := by
  cases e with
  | acquireAuthorityGuard id' =>
    cases a with
    | ok u => by_cases h : id' = id <;>
        simp [holdsAuthorityGuard, Effect.takesAuthorityGuard, Effect.dropsAuthorityGuard, h]
    | error x => simp [holdsAuthorityGuard, Effect.takesAuthorityGuard, Effect.dropsAuthorityGuard]
  | releaseAuthorityGuard id' =>
    by_cases h : id' = id <;>
      simp [holdsAuthorityGuard, Effect.takesAuthorityGuard, Effect.dropsAuthorityGuard, h]
  | _ => simp [holdsAuthorityGuard, Effect.takesAuthorityGuard, Effect.dropsAuthorityGuard]

section
variable {p : Pid} {s s' : World} {i : Instant} {e : Effect} {a : Except Exn e.Answer}

theorem Acted.check_guard (h : Acted p s i e a s') (id : Nat) (head : HeadSha) (q : Pid) :
    s'.check_guard (id, head) = some q ↔ (q = p ∧ e.takesCheckGuard a id head = true) ∨
      (s.check_guard (id, head) = some q ∧ ¬(q = p ∧ e.dropsCheckGuard id head = true)) := by
  cases h with
  | taken id' head' a hfree =>
    by_cases hk : (id', head') = (id, head)
    · obtain ⟨rfl, rfl⟩ := Prod.mk.inj hk
      simp [World.taken, Effect.takesCheckGuard, Effect.dropsCheckGuard, hfree, eq_comm]
    · have hne : (id, head) ≠ (id', head') := fun he => hk he.symm
      simp [World.taken, Effect.takesCheckGuard, Effect.dropsCheckGuard, Function.update_of_ne hne, hk]
  | released id' head' a =>
    unfold World.released
    by_cases hk : (id', head') = (id, head)
    · obtain ⟨rfl, rfl⟩ := Prod.mk.inj hk
      by_cases hp : s.check_guard (id', head') = some p
      · simp only [if_pos hp, Function.update_self]
        simp [hp, Effect.takesCheckGuard, Effect.dropsCheckGuard, eq_comm]
      · simp only [if_neg hp]
        simp only [Effect.takesCheckGuard, Effect.dropsCheckGuard]
        constructor
        · intro hs
          refine Or.inr ⟨hs, fun hq => hp ?_⟩
          rw [hs, hq.1]
        · intro hs
          rcases hs with hs | hs
          · cases hs.2
          · exact hs.1
    · have hne : (id, head) ≠ (id', head') := fun he => hk he.symm
      by_cases hp : s.check_guard (id', head') = some p
      · simp [if_pos hp, Function.update_of_ne hne, Effect.takesCheckGuard, Effect.dropsCheckGuard, hk]
      · simp [if_neg hp, Effect.takesCheckGuard, Effect.dropsCheckGuard, hk]
  | idle e a hidle =>
    cases e with
    | acquireCheckWriteGuard =>
      cases a with
      | ok u => cases hidle
      | error x => simp [Effect.takesCheckGuard, Effect.dropsCheckGuard]
    | releaseCheckWriteGuard => cases a <;> cases hidle
    | _ => simp [Effect.takesCheckGuard, Effect.dropsCheckGuard]
  | _ => simp [World.committed, World.shared, World.written, Effect.takesCheckGuard, Effect.dropsCheckGuard]

theorem Acted.free (h : Acted p s i e a s') {id : Nat} {head : HeadSha} (ht : e.takesCheckGuard a id head = true) :
    s.check_guard (id, head) = none := by
  cases h with
  | taken id' head' a hfree =>
    have hk : (id', head') = (id, head) := by simpa [Effect.takesCheckGuard] using ht
    exact hk ▸ hfree
  | idle e a hidle =>
    cases e with
    | acquireCheckWriteGuard =>
      cases a with
      | ok u => cases hidle
      | error x => cases ht
    | _ => cases ht
  | _ => cases ht

theorem Acted.authority_guard (h : Acted p s i e a s') (id : Nat) (q : Pid) : s'.authority_guard id q =
    if q = p then e.takesAuthorityGuard a id || (!e.dropsAuthorityGuard id && s.authority_guard id q)
    else s.authority_guard id q := by
  cases h with
  | shared id' a =>
    by_cases hk : id' = id
    · subst hk
      by_cases hq : q = p
      · subst hq
        simp [World.shared, Effect.takesAuthorityGuard]
      · simp [World.shared, hq]
    · have hne : id ≠ id' := fun he => hk he.symm
      simp [World.shared, Effect.takesAuthorityGuard, Effect.dropsAuthorityGuard, Function.update_of_ne hne, hk]
  | unshared id' a =>
    by_cases hk : id' = id
    · subst hk
      by_cases hq : q = p
      · subst hq
        simp [World.shared, Effect.takesAuthorityGuard, Effect.dropsAuthorityGuard]
      · simp [World.shared, hq]
    · have hne : id ≠ id' := fun he => hk he.symm
      simp [World.shared, Effect.takesAuthorityGuard, Effect.dropsAuthorityGuard, Function.update_of_ne hne, hk]
  | released id' head' a =>
    unfold World.released
    split <;> simp [Effect.takesAuthorityGuard, Effect.dropsAuthorityGuard]
  | idle e a hidle =>
    cases e with
    | acquireAuthorityGuard =>
      cases a with
      | ok u => cases hidle
      | error x => simp [Effect.takesAuthorityGuard, Effect.dropsAuthorityGuard]
    | releaseAuthorityGuard => cases a <;> cases hidle
    | _ => simp [Effect.takesAuthorityGuard, Effect.dropsAuthorityGuard]
  | _ => simp [World.committed, World.taken, World.written, Effect.takesAuthorityGuard, Effect.dropsAuthorityGuard]

end

/-- The guards that the replicas share are those of the traces. -/
structure GuardsKept (s : World) : Prop where
  check : ∀ id head p, s.check_guard (id, head) = some p ↔ holdsCheckGuard id head (s.trace p) = true
  authority : ∀ id p, s.authority_guard id p = holdsAuthorityGuard id (s.trace p)

theorem GuardsKept.initial (github : GitHub) : GuardsKept (World.initial github) := by
  refine ⟨fun id head p => ?_, fun id p => rfl⟩
  simp [World.initial, holdsCheckGuard]

section
variable {s s' : World} {p : Pid}

theorem GuardsKept.perform (h : GuardsKept s) {e : Effect} {a : Except Exn e.Answer}
    (hperf : performs p s e a s') : GuardsKept s' := by
  obtain ⟨-, i, s₁, hact, rfl⟩ := hperf
  have hacted := acted_of_acts hact
  have htrace : ∀ q, (s₁.seen p ⟨s.db, s.github, i, e, a⟩).trace q =
      if q = p then ⟨s.db, s.github, i, e, a⟩ :: s.trace p else s.trace q := by
    intro q
    show Function.update s₁.trace p (_ :: s₁.trace p) q = _
    rw [hacted.trace, Function.update_apply]
  refine ⟨fun id head q => ?_, fun id q => ?_⟩
  · show s₁.check_guard (id, head) = some q ↔ _
    rw [hacted.check_guard, htrace]
    by_cases hq : q = p
    · subst hq
      rw [if_pos rfl, holdsCheckGuard_cons, h.check]
      cases e.takesCheckGuard a id head <;> cases e.dropsCheckGuard id head <;> simp
    · rw [if_neg hq, ← h.check]
      simp [hq]
  · show s₁.authority_guard id q = _
    rw [hacted.authority_guard, htrace]
    by_cases hq : q = p
    · subst hq
      rw [if_pos rfl, if_pos rfl, holdsAuthorityGuard_cons, h.authority]
    · rw [if_neg hq, if_neg hq, h.authority]

theorem GuardsKept.env (h : GuardsKept s) (he : environment s s') : GuardsKept s' := by
  cases he <;> exact ⟨h.check, h.authority⟩

/-- A crash gives up the guards with the trace. -/
theorem GuardsKept.clear (h : GuardsKept s) (p : Pid) : GuardsKept (s.cleared p) := by
  refine ⟨fun id head q => ?_, fun id q => ?_⟩
  · rw [cleared_trace]
    show (if s.check_guard (id, head) = some p then none else s.check_guard (id, head)) = some q ↔ _
    by_cases hq : q = p
    · subst hq
      rw [if_pos rfl]
      by_cases hs : s.check_guard (id, head) = some q
      · simp [hs, holdsCheckGuard]
      · simp [hs, holdsCheckGuard]
    · rw [if_neg hq, ← h.check]
      by_cases hs : s.check_guard (id, head) = some p
      · simp [hs, Ne.symm hq]
      · simp [hs]
  · rw [cleared_trace]
    show Function.update (s.authority_guard id) p false q = _
    by_cases hq : q = p
    · subst hq
      rw [if_pos rfl, Function.update_self]
      rfl
    · rw [if_neg hq, Function.update_of_ne hq, h.authority]

end

section
variable [PullDigest] {settings : Settings}

theorem service_guards : Inherent (service settings) GuardsKept :=
  ⟨fun h hp => h.perform hp, fun h he => h.env he, fun h => h.clear _⟩

theorem service_local :
    Local (service settings) GuardsKept (fun p (s : World) => s.trace p) (fun _ => observes) [] := by
  refine ⟨service_guards, ?_, ?_, ?_, ?_, ?_⟩
  · rintro p s e a s' hguards ⟨hx, i, s₁, hact, rfl⟩
    refine ⟨⟨hx, fun id head ht => ?_⟩, s.db, s.github, i, told_of_acts hact, ?_⟩
    · have hfree : s.check_guard (id, head) = none := (acted_of_acts hact).free ht
      rw [← Bool.not_eq_true, ← hguards.check, hfree]
      exact fun hnone => by cases hnone
    · show Function.update s₁.trace p (_ :: s₁.trace p) p = _
      rw [Function.update_self, (acted_of_acts hact).trace]
  · rintro p s e a s' q ⟨hx, i, s₁, hact, rfl⟩ hq
    show Function.update s₁.trace p _ q = _
    rw [Function.update_of_ne hq, (acted_of_acts hact).trace]
  · intro s s' q he
    show s'.trace q = s.trace q
    rw [environment_trace he]
  · intro p s
    show (s.cleared p).trace p = []
    rw [cleared_trace, if_pos rfl]
  · intro p s q hq
    show (s.cleared p).trace q = _
    rw [cleared_trace, if_neg hq]

end

/-! ## Claims in hand -/

/-- The owner that a call claims a row for. -/
def Call.claimant : Call → Option Str
  | .claim owner .. | .claimSharedHeadInvalidation owner .. | .claimAuthority owner .. => some owner
  | _ => none

/-- A process uses the claims it has in hand, and claims for itself; a slot of
invalidations has finished its last one. -/
structure CallPermitted (p : Pid) (τ : Trace) (c : Call) : Prop where
  job : ∀ job owner, c.claimUsed = some (job, owner) → job ∈ heldClaims τ ∧ owner = job.lease_owner
  authority : ∀ job owner, c.authorityUsed = some (job, owner) →
    job ∈ heldAuthorities τ ∧ owner = job.lease_owner
  invalidation : ∀ job, c.invalidationUsed = some job → job ∈ heldInvalidations τ
  claimant : ∀ owner, c.claimant = some owner → owner = p
  sequential : ∀ owner lease_seconds work_class,
    c = .claimSharedHeadInvalidation owner lease_seconds work_class → heldInvalidations τ = []

def Permitted (p : Pid) (τ : Trace) : Effect → Prop
  | .call c => CallPermitted p τ c
  | _ => True

/-- The tokens include what a process has in hand; all of it is its own. -/
structure Backs (t : Tokens) (p : Pid) (τ : Trace) : Prop where
  jobs : ∀ job ∈ heldClaims τ, job ∈ t.jobs ∧ job.lease_owner = p
  authorities : ∀ job ∈ heldAuthorities τ, job ∈ t.authorities ∧ job.lease_owner = p
  invalidations : ∀ job ∈ heldInvalidations τ, job ∈ t.invalidations ∧ job.lease_owner = p

theorem Backs.nil (t : Tokens) (p : Pid) : Backs t p [] := by
  refine ⟨?_, ?_, ?_⟩ <;>
  · intro job hj
    cases hj

/-- Where the tables and the tokens were when an event of a trace happened. -/
def Recalls (t : Tokens) (p : Pid) (τ : Trace) : Prop :=
  ∀ l event older, τ = l ++ event :: older →
    ∃ t₀ : Tokens, t₀.db = event.before ∧ t₀.Reachable Tokens.Permits ∧ Backs t₀ p older ∧
      t₀.Steps Tokens.Permits t

structure Tracked (s : World) (t : Tokens) : Prop where
  db : t.db = s.db
  reachable : t.Reachable Tokens.Permits
  backs : ∀ p, Backs t p (s.trace p)
  owners : ∀ job ∈ t.invalidations, job ∈ heldInvalidations (s.trace job.lease_owner)
  recalls : ∀ p, Recalls t p (s.trace p)

/-- The run behind a state of the service is a run of the store's tokens. -/
def Traced (s : World) : Prop := ∃ t, Tracked s t

theorem Recalls.later {t t' : Tokens} {p : Pid} {τ : Trace} (h : Recalls t p τ)
    (ht : t.Steps Tokens.Permits t') : Recalls t' p τ := by
  intro l event older hτ
  obtain ⟨t₀, hdb, hreach, hbacks, hsteps⟩ := h l event older hτ
  exact ⟨t₀, hdb, hreach, hbacks, hsteps.trans ht⟩

theorem Recalls.cons {t t' : Tokens} {p : Pid} {event : Event} {τ : Trace} (h : Recalls t p τ)
    (hdb : t.db = event.before) (hreach : t.Reachable Tokens.Permits) (hbacks : Backs t p τ)
    (ht : t.Steps Tokens.Permits t') : Recalls t' p (event :: τ) := by
  intro l event' older hτ
  cases l with
  | nil =>
    cases hτ
    exact ⟨t, hdb, hreach, hbacks, ht⟩
  | cons e l =>
    cases hτ
    exact h.later ht l event' older rfl

/-- What nobody has in hand any more is given up. -/
theorem Traced.settle {s : World} {t : Tokens} (hdb : t.db = s.db) (hreach : t.Reachable Tokens.Permits)
    (hbacks : ∀ p, Backs t p (s.trace p)) (hrecalls : ∀ p, Recalls t p (s.trace p)) : Traced s := by
  classical
  let kept := t.invalidations.filter fun job => job ∈ heldInvalidations (s.trace job.lease_owner)
  have hstep : t.Step Tokens.Permits { t with invalidations := kept } := .gaveUp kept (List.filter_subset_self _)
  refine ⟨{ t with invalidations := kept }, hdb, hreach.tail hstep, ?_, ?_, ?_⟩
  · intro p
    refine ⟨(hbacks p).jobs, (hbacks p).authorities, fun job hj => ?_⟩
    obtain ⟨hmem, howner⟩ := (hbacks p).invalidations job hj
    refine ⟨List.mem_filter.mpr ⟨hmem, ?_⟩, howner⟩
    simp only [decide_eq_true_eq, howner]
    exact hj
  · intro job hj
    simpa using (List.mem_filter.mp hj).2
  · exact fun p => (hrecalls p).later (.single hstep)

/-! ### Claims that calls hand out -/

section
variable {i : Instant} {db db' : Db} {c : Call} {a : c.Answer}

theorem claim_owner (hr : c.run i db = .ok (db', a)) {job : ClaimedJob} (hi : c.claimIssued a = some job) :
    (∃ owner, c.claimant = some owner ∧ job.lease_owner = owner) ∨
      ∃ used owner, c.claimUsed = some (used, owner) ∧ job.lease_owner = used.lease_owner := by
  cases c with
  | claim owner lease_seconds work_class ready =>
    left
    refine ⟨owner, rfl, ?_⟩
    have hrun : claim i.now i.job_locked owner lease_seconds work_class ready db = (db', a) :=
      Except.ok.inj hr
    have hsome : (claim i.now i.job_locked owner lease_seconds work_class ready db).2 = some job :=
      (congrArg Prod.snd hrun).trans hi
    unfold claim at hsome
    split at hsome
    · cases hsome
    · cases hsome
      rfl
  | bindClaimToHead used head =>
    right
    refine ⟨used, used.lease_owner, rfl, ?_⟩
    have hrun : bindClaimToHead i.now used head db = (db', a) := Except.ok.inj hr
    have hsome : (bindClaimToHead i.now used head db).2 = some job := (congrArg Prod.snd hrun).trans hi
    unfold bindClaimToHead at hsome
    split at hsome
    · dsimp only at hsome
      split at hsome
      · cases hsome
        rfl
      · cases hsome
    · split at hsome
      · cases hsome
        rfl
      · cases hsome
  | _ => cases hi

theorem authority_claim_owner (hr : c.run i db = .ok (db', a)) {job : ClaimedAuthorityJob}
    (hi : c.authorityIssued a = some job) : ∃ owner, c.claimant = some owner ∧ job.lease_owner = owner := by
  cases c with
  | claimAuthority owner lease_seconds prio =>
    refine ⟨owner, rfl, ?_⟩
    have hrun : claimAuthority i.now i.authority_locked owner lease_seconds prio db = (db', a) :=
      Except.ok.inj hr
    have hsome : (claimAuthority i.now i.authority_locked owner lease_seconds prio db).2 = some job :=
      (congrArg Prod.snd hrun).trans hi
    unfold claimAuthority at hsome
    split at hsome
    · cases hsome
    · cases hsome
      rfl
  | _ => cases hi

theorem invalidation_owner (hr : c.run i db = .ok (db', a)) {job : ClaimedSharedHeadInvalidation}
    (hi : c.invalidationIssued a = some job) : ∃ owner, c.claimant = some owner ∧ job.lease_owner = owner := by
  cases c with
  | claimSharedHeadInvalidation owner lease_seconds work_class =>
    refine ⟨owner, rfl, ?_⟩
    have hrun : claimSharedHeadInvalidation i.now i.epoch_locked owner lease_seconds work_class db =
        (db', a) := Except.ok.inj hr
    have hsome : (claimSharedHeadInvalidation i.now i.epoch_locked owner lease_seconds work_class db).2 =
        some job := (congrArg Prod.snd hrun).trans hi
    unfold claimSharedHeadInvalidation at hsome
    split at hsome
    · cases hsome
    · cases hsome
      rfl
  | _ => cases hi

end

/-! ### Steps -/

section
variable {t : Tokens} {p q : Pid} {τ : Trace} {i : Instant} {c : Call} {a : c.Answer} {db' : Db}

theorem CallPermitted.permits (h : CallPermitted p τ c) (hb : Backs t p τ)
    (ho : ∀ job ∈ t.invalidations, job.lease_owner = p → job ∈ heldInvalidations τ) : t.Permits c := by
  refine ⟨⟨?_, ?_, ?_⟩, ?_⟩
  · intro job owner hu
    obtain ⟨hheld, howner⟩ := h.job job owner hu
    exact ⟨(hb.jobs job hheld).1, howner⟩
  · intro job owner hu
    obtain ⟨hheld, howner⟩ := h.authority job owner hu
    exact ⟨(hb.authorities job hheld).1, howner⟩
  · intro job hu
    exact (hb.invalidations job (h.invalidation job hu)).1
  · intro owner lease_seconds work_class hc job hj howner
    have hp : owner = p := h.claimant owner (by rw [hc]; rfl)
    have hheld := ho job hj (howner.trans hp)
    rw [h.sequential owner lease_seconds work_class hc] at hheld
    cases hheld

/-- A call of its own leaves a process with tokens it has in hand. -/
theorem Backs.call (hb : Backs t p τ) (h : CallPermitted p τ c) (hr : c.run i t.db = .ok (db', a))
    {answer : Option c.Answer} (ha : ∀ x, answer = some x → x = a) {event : Event}
    (he : event.answered = some ⟨c, answer⟩) : Backs (t.after c a db') p (event :: τ) := by
  refine ⟨?_, ?_, ?_⟩
  · intro job hj
    simp only [heldClaims, he, claimsAfter, List.mem_append, Option.mem_toList, Option.bind_eq_some_iff] at hj
    rcases hj with ⟨x, hx, hi⟩ | hold
    · cases ha x hx
      refine ⟨List.mem_append_left _ (Option.mem_toList.mpr hi), ?_⟩
      rcases claim_owner hr hi with ⟨owner, hc, ho⟩ | ⟨used, owner, hu, ho⟩
      · exact ho.trans (h.claimant owner hc)
      · exact ho.trans (hb.jobs used (h.job used owner hu).1).2
    · cases hrel : c.claimReleased with
      | none =>
        rw [hrel] at hold
        refine ⟨List.mem_append_right _ ?_, (hb.jobs job hold).2⟩
        rw [hrel]
        exact (hb.jobs job hold).1
      | some released =>
        rw [hrel] at hold
        obtain ⟨hmem, hne⟩ := List.mem_filter.mp hold
        refine ⟨List.mem_append_right _ ?_, (hb.jobs job hmem).2⟩
        rw [hrel]
        exact List.mem_filter.mpr ⟨(hb.jobs job hmem).1, hne⟩
  · intro job hj
    simp only [heldAuthorities, he, authoritiesAfter, List.mem_append, Option.mem_toList,
      Option.bind_eq_some_iff] at hj
    rcases hj with ⟨x, hx, hi⟩ | hold
    · cases ha x hx
      obtain ⟨owner, hc, ho⟩ := authority_claim_owner hr hi
      exact ⟨List.mem_append_left _ (Option.mem_toList.mpr hi), ho.trans (h.claimant owner hc)⟩
    · cases hrel : c.authorityReleased with
      | none =>
        rw [hrel] at hold
        refine ⟨List.mem_append_right _ ?_, (hb.authorities job hold).2⟩
        rw [hrel]
        exact (hb.authorities job hold).1
      | some released =>
        rw [hrel] at hold
        obtain ⟨hmem, hne⟩ := List.mem_filter.mp hold
        refine ⟨List.mem_append_right _ ?_, (hb.authorities job hmem).2⟩
        rw [hrel]
        exact List.mem_filter.mpr ⟨(hb.authorities job hmem).1, hne⟩
  · intro job hj
    simp only [heldInvalidations, he, invalidationsAfter, List.mem_append, Option.mem_toList,
      Option.bind_eq_some_iff] at hj
    rcases hj with ⟨x, hx, hi⟩ | hold
    · cases ha x hx
      obtain ⟨owner, hc, ho⟩ := invalidation_owner hr hi
      exact ⟨List.mem_append_left _ (Option.mem_toList.mpr hi), ho.trans (h.claimant owner hc)⟩
    · cases hrel : c.invalidationReleased with
      | none =>
        rw [hrel] at hold
        refine ⟨List.mem_append_right _ ?_, (hb.invalidations job hold).2⟩
        rw [hrel]
        exact (hb.invalidations job hold).1
      | some released =>
        rw [hrel] at hold
        obtain ⟨hmem, hne⟩ := List.mem_filter.mp hold
        refine ⟨List.mem_append_right _ ?_, (hb.invalidations job hmem).2⟩
        rw [hrel]
        exact List.mem_filter.mpr ⟨(hb.invalidations job hmem).1, hne⟩

theorem claimReleased_used {job : ClaimedJob} (h : c.claimReleased = some job) :
    ∃ owner, c.claimUsed = some (job, owner) := by
  cases c with
  | complete job' owner | fail job' owner _ _ | defer job' owner _ _ _ => cases h; exact ⟨owner, rfl⟩
  | _ => cases h

theorem authorityReleased_used {job : ClaimedAuthorityJob} (h : c.authorityReleased = some job) :
    ∃ owner, c.authorityUsed = some (job, owner) := by
  cases c with
  | completeAuthority job' owner | failAuthority job' owner | deferAuthority job' owner =>
    cases h; exact ⟨owner, rfl⟩
  | _ => cases h

theorem invalidationReleased_used {job : ClaimedSharedHeadInvalidation}
    (h : c.invalidationReleased = some job) : c.invalidationUsed = some job := by
  cases c with
  | completeSharedHeadInvalidation | failSharedHeadInvalidation | deferSharedHeadInvalidation =>
    cases h; rfl
  | _ => cases h

/-- A call of another process takes none of them: its claims are its own. -/
theorem Backs.other {τ' : Trace} (hb : Backs t q τ') (hq : q ≠ p) (hp : Backs t p τ)
    (h : CallPermitted p τ c) (a : c.Answer) (db' : Db) : Backs (t.after c a db') q τ' := by
  refine ⟨?_, ?_, ?_⟩
  · intro job hj
    obtain ⟨hmem, howner⟩ := hb.jobs job hj
    refine ⟨List.mem_append_right _ ?_, howner⟩
    cases hrel : c.claimReleased with
    | none => exact hmem
    | some released =>
      refine List.mem_filter.mpr ⟨hmem, ?_⟩
      obtain ⟨owner, hu⟩ := claimReleased_used hrel
      have hp' := (hp.jobs released (h.job released owner hu).1).2
      have hne : released.lease_owner ≠ job.lease_owner := by
        rw [hp', howner]
        exact hq.symm
      simp [sameClaim, hne]
  · intro job hj
    obtain ⟨hmem, howner⟩ := hb.authorities job hj
    refine ⟨List.mem_append_right _ ?_, howner⟩
    cases hrel : c.authorityReleased with
    | none => exact hmem
    | some released =>
      refine List.mem_filter.mpr ⟨hmem, ?_⟩
      obtain ⟨owner, hu⟩ := authorityReleased_used hrel
      have hp' := (hp.authorities released (h.authority released owner hu).1).2
      have hne : released.lease_owner ≠ job.lease_owner := by
        rw [hp', howner]
        exact hq.symm
      simp [sameAuthorityClaim, hne]
  · intro job hj
    obtain ⟨hmem, howner⟩ := hb.invalidations job hj
    refine ⟨List.mem_append_right _ ?_, howner⟩
    cases hrel : c.invalidationReleased with
    | none => exact hmem
    | some released =>
      refine List.mem_filter.mpr ⟨hmem, ?_⟩
      have hp' := (hp.invalidations released (h.invalidation released (invalidationReleased_used hrel))).2
      have hne : released.lease_owner ≠ job.lease_owner := by
        rw [hp', howner]
        exact hq.symm
      simp [sameInvalidation, hne]

/-- An event without a committed call, or with one that may not have committed,
adds nothing to what is in hand. -/
theorem Backs.silent (hb : Backs t p τ) {event : Event}
    (h : ∀ c answer, event.answered = some ⟨c, answer⟩ → answer = none) : Backs t p (event :: τ) := by
  cases he : event.answered with
  | none =>
    refine ⟨?_, ?_, ?_⟩
    · simpa only [heldClaims, he] using hb.jobs
    · simpa only [heldAuthorities, he] using hb.authorities
    · simpa only [heldInvalidations, he] using hb.invalidations
  | some called =>
    obtain ⟨c, answer⟩ := called
    cases h c answer he
    refine ⟨?_, ?_, ?_⟩
    · intro job hj
      simp only [heldClaims, he, claimsAfter, Option.bind_none, Option.toList_none, List.nil_append] at hj
      cases hrel : c.claimReleased with
      | none => exact hb.jobs job (by simpa only [hrel] using hj)
      | some released => exact hb.jobs job (List.mem_filter.mp (by simpa only [hrel] using hj)).1
    · intro job hj
      simp only [heldAuthorities, he, authoritiesAfter, Option.bind_none, Option.toList_none,
        List.nil_append] at hj
      cases hrel : c.authorityReleased with
      | none => exact hb.authorities job (by simpa only [hrel] using hj)
      | some released => exact hb.authorities job (List.mem_filter.mp (by simpa only [hrel] using hj)).1
    · intro job hj
      simp only [heldInvalidations, he, invalidationsAfter, Option.bind_none, Option.toList_none,
        List.nil_append] at hj
      cases hrel : c.invalidationReleased with
      | none => exact hb.invalidations job (by simpa only [hrel] using hj)
      | some released => exact hb.invalidations job (List.mem_filter.mp (by simpa only [hrel] using hj)).1

end

section
variable {s s' : World} {p : Pid}

theorem seen_trace (s : World) (p q : Pid) (event : Event) :
    (s.seen p event).trace q = if q = p then event :: s.trace p else s.trace q := by
  show Function.update s.trace p (event :: s.trace p) q = _
  rw [Function.update_apply]

/-- A process did something that left the tables alone. -/
theorem Tracked.silent {t : Tokens} (h : Tracked s t) (hdb : s'.db = s.db) (ht : s'.trace = s.trace)
    {event : Event} (hbefore : event.before = s.db)
    (hnone : ∀ c answer, event.answered = some ⟨c, answer⟩ → answer = none) :
    Traced (s'.seen p event) := by
  refine Traced.settle (t := t) (h.db.trans hdb.symm) h.reachable ?_ ?_
  · intro q
    rw [seen_trace, ht]
    split
    · rename_i hq
      subst hq
      exact (h.backs q).silent hnone
    · exact h.backs q
  · intro q
    rw [seen_trace, ht]
    split
    · rename_i hq
      subst hq
      exact (h.recalls q).cons (h.db.trans hbefore.symm) h.reachable (h.backs q) .refl
    · exact h.recalls q

/-- A process committed a call. -/
theorem Tracked.call {t : Tokens} (h : Tracked s t) {i : Instant} {c : Call} {a : c.Answer}
    (hr : c.run i s.db = .ok (s'.db, a)) (ht : s'.trace = s.trace) (hp : CallPermitted p (s.trace p) c)
    {event : Event} (hbefore : event.before = s.db) {answer : Option c.Answer}
    (ha : ∀ x, answer = some x → x = a) (he : event.answered = some ⟨c, answer⟩) :
    Traced (s'.seen p event) := by
  have howned : ∀ job ∈ t.invalidations, job.lease_owner = p → job ∈ heldInvalidations (s.trace p) := by
    intro job hj howner
    exact howner ▸ h.owners job hj
  rw [← h.db] at hr
  have hstep : t.Step Tokens.Permits (t.after c a s'.db) := .call i c a s'.db (hp.permits (h.backs p) howned) hr
  refine Traced.settle (t := t.after c a s'.db) rfl (h.reachable.tail hstep) ?_ ?_
  · intro q
    rw [seen_trace, ht]
    split
    · rename_i hq
      subst hq
      exact (h.backs q).call hp hr ha he
    · rename_i hq
      exact (h.backs q).other hq (h.backs p) hp a s'.db
  · intro q
    rw [seen_trace, ht]
    split
    · rename_i hq
      subst hq
      exact (h.recalls q).cons (h.db.trans hbefore.symm) h.reachable (h.backs q) (.single hstep)
    · exact (h.recalls q).later (.single hstep)

theorem Traced.perform (h : Traced s) {e : Effect} {a : Except Exn e.Answer}
    (hp : Permitted p (s.trace p) e) (hperf : performs p s e a s') : Traced s' := by
  obtain ⟨t, ht⟩ := h
  obtain ⟨-, i, s₁, hact, rfl⟩ := hperf
  have hacted := acted_of_acts hact
  have htrace := hacted.trace
  cases hacted with
  | learned c a db' _ hr =>
    have hanswer : ∀ x, some a = some x → x = a := fun x hx => (Option.some.inj hx).symm
    exact ht.call hr htrace hp rfl hanswer rfl
  | unlearned c a db' x _ hr =>
    have hanswer : ∀ x, none = some x → x = a := fun x hx => by cases hx
    exact ht.call hr htrace hp rfl hanswer rfl
  | idle e a hidle =>
    refine ht.silent rfl rfl rfl ?_
    intro c answer hc
    cases e with
    | call c' =>
      cases a with
      | ok a => cases hidle
      | error x =>
        cases hc
        rfl
    | _ => cases hc
  | released installation_id head_sha a =>
    refine ht.silent ?_ htrace rfl ?_
    · rw [World.released]
      split <;> rfl
    · intro c answer hc
      cases hc
  | _ =>
    refine ht.silent (by rfl) htrace (by rfl) ?_
    intro c answer hc
    cases hc

theorem Traced.env (h : Traced s) (he : environment s s') : Traced s' := by
  obtain ⟨t, ht⟩ := h
  cases he with
  | github github _ => exact ⟨t, ht.db, ht.reachable, ht.backs, ht.owners, ht.recalls⟩
  | call i c db' a hb hr =>
    have hpermits : t.Permits c := by
      refine ⟨⟨?_, ?_, ?_⟩, ?_⟩
      · intro job owner hu
        cases c with
        | renewClaim job' lease_seconds =>
          cases hu
          obtain ⟨p, hj⟩ := hb
          exact ⟨((ht.backs p).jobs job hj).1, rfl⟩
        | _ => cases hu <;> cases hb
      · intro job owner hu
        cases c with
        | renewAuthorityClaim job' lease_seconds =>
          cases hu
          obtain ⟨p, hj⟩ := hb
          exact ⟨((ht.backs p).authorities job hj).1, rfl⟩
        | _ => cases hu <;> cases hb
      · intro job hu
        cases c with
        | renewSharedHeadInvalidation job' lease_seconds =>
          cases hu
          obtain ⟨p, hj⟩ := hb
          exact ((ht.backs p).invalidations job hj).1
        | _ => cases hu <;> cases hb
      · intro owner lease_seconds work_class hc
        subst hc
        cases hb
    have hsame : (t.after c a db').jobs = t.jobs ∧ (t.after c a db').authorities = t.authorities ∧
        (t.after c a db').invalidations = t.invalidations := by
      cases c <;> first | exact ⟨rfl, rfl, rfl⟩ | cases hb
    have hstep : t.Step Tokens.Permits (t.after c a db') := .call i c a db' hpermits (ht.db ▸ hr)
    refine ⟨t.after c a db', rfl, ht.reachable.tail hstep, ?_, ?_, fun p => (ht.recalls p).later (.single hstep)⟩
    · intro p
      refine ⟨?_, ?_, ?_⟩
      · rw [hsame.1]
        exact (ht.backs p).jobs
      · rw [hsame.2.1]
        exact (ht.backs p).authorities
      · rw [hsame.2.2]
        exact (ht.backs p).invalidations
    · rw [hsame.2.2]
      exact ht.owners

theorem Traced.clear (h : Traced s) (p : Pid) : Traced (s.cleared p) := by
  obtain ⟨t, ht⟩ := h
  refine Traced.settle (s := s.cleared p) (t := t) ht.db ht.reachable ?_ ?_
  · intro q
    rw [cleared_trace]
    split
    · exact Backs.nil t q
    · exact ht.backs q
  · intro q
    rw [cleared_trace]
    split
    · intro l event older hτ
      cases l <;> cases hτ
    · exact ht.recalls q

theorem Traced.initial (github : GitHub) : Traced (World.initial github) := by
  refine ⟨Tokens.initial, rfl, .refl, fun p => Backs.nil _ p, fun job hj => (by cases hj), ?_⟩
  intro p l event older hτ
  cases l <;> cases hτ

end

end ExtraCodeowners
