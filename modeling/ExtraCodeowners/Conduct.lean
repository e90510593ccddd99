import ExtraCodeowners.Discipline

/-!
# Programs that keep to the discipline

The rules by which a program is shown lawful. Each keeps an assertion about the
trace that a process relies on, whatever the program answers or raises.
-/

namespace ExtraCodeowners

open System EvaluationService

/-- A program is lawful and keeps `K`; a normal end brings `Q` besides. -/
abbrev Does [PullDigest] (settings : Settings) (p : Pid) (K : Trace → Prop) {α : Type} (prog : Program α)
    (Q : α → Trace → Prop) : Prop :=
  Spec nobody (fun _ => True) (Lawful settings p) K prog (fun a τ => Q a τ ∧ K τ) fun _ => K

section
variable [PullDigest] {settings : Settings} {p : Pid} {K : Trace → Prop} {α β : Type} {prog : Program α}

theorem Does.weaken {Q Q' : α → Trace → Prop} (h : Does settings p K prog Q)
    (hQ : ∀ a τ, K τ → Q a τ → Q' a τ) : Does settings p K prog Q' :=
  h.conseq (fun _ _ hs => hs) (fun a τ _ hs => ⟨hQ a τ hs.2 hs.1, hs.2⟩) fun _ _ _ hs => hs

/-- From less than what a program relies on, to less than what it keeps. -/
theorem Does.narrow {L K' : Trace → Prop} {Q : α → Trace → Prop} (h : Does settings p L prog Q)
    (hL : ∀ τ, K' τ → L τ) (hK : ∀ τ, L τ → K τ) :
    Spec nobody (fun _ => True) (Lawful settings p) K' prog (fun a τ => Q a τ ∧ K τ) fun _ => K :=
  h.conseq (fun τ _ hs => hL τ hs) (fun _ τ _ hs => ⟨hs.1, hK τ hs.2⟩) fun _ τ _ hs => hK τ hs

theorem Does.pure {a : α} {Q : α → Trace → Prop} (h : ∀ τ, K τ → Q a τ) :
    Does settings p K (Pure.pure a : Program α) Q := fun τ _ hs => ⟨h τ hs, hs⟩

theorem Does.throw {x : Exn} {Q : α → Trace → Prop} : Does settings p K (Prog.throw x : Program α) Q :=
  fun _ _ hs => hs

theorem Does.bind {R : α → Trace → Prop} {Q : β → Trace → Prop} {f : α → Program β}
    (h : Does settings p K prog R) (hf : ∀ a, Does settings p (fun τ => R a τ ∧ K τ) (f a) Q) :
    Does settings p K (prog >>= f) Q := by
  refine Triple.bind h fun a => (hf a).conseq (fun _ _ hs => hs) ?_ ?_
  · exact fun b τ _ hs => ⟨hs.1, hs.2.2⟩
  · exact fun x τ _ hs => hs.2

/-- What the first program brings is not needed. -/
theorem Does.seq {R : α → Trace → Prop} {Q : β → Trace → Prop} {f : α → Program β}
    (h : Does settings p K prog R) (hf : ∀ a, Does settings p K (f a) Q) : Does settings p K (prog >>= f) Q := by
  refine Triple.bind h fun a => (hf a).conseq ?_ (fun _ _ _ hs => hs) fun _ _ _ hs => hs
  exact fun τ _ hs => hs.2

theorem Does.ite {c : Prop} [Decidable c] {prog' : Program α} {Q : α → Trace → Prop}
    (h : c → Does settings p K prog Q) (h' : ¬c → Does settings p K prog' Q) :
    Does settings p K (if c then prog else prog') Q := Triple.ite h h'

theorem Does.handle {Q : α → Trace → Prop} {f : Exn → Program α} (h : Does settings p K prog Q)
    (hf : ∀ x, Does settings p K (f x) Q) : Does settings p K (prog.handle f) Q := Triple.handle h hf

/-- A program that is lawful to its end, where nothing is relied on any more. -/
abbrev Finishes (settings : Settings) (p : Pid) (K : Trace → Prop) {α : Type} (prog : Program α) : Prop :=
  Spec nobody (fun _ => True) (Lawful settings p) K prog (fun _ _ => True) fun _ _ => True

theorem Does.ends {Q : α → Trace → Prop} (h : Does settings p K prog Q) : Finishes settings p K prog :=
  h.conseq (fun _ _ hs => hs) (fun _ _ _ _ => trivial) fun _ _ _ _ => trivial

theorem Finishes.under {L : Trace → Prop} (h : Finishes settings p L prog) (hL : ∀ τ, K τ → L τ) :
    Finishes settings p K prog :=
  h.conseq (fun τ _ hs => hL τ hs) (fun _ _ _ hs => hs) fun _ _ _ hs => hs

theorem Finishes.after {R : α → Trace → Prop} {f : α → Program β} (h : Does settings p K prog R)
    (hf : ∀ a, Finishes settings p (fun τ => R a τ ∧ K τ) (f a)) : Finishes settings p K (prog >>= f) :=
  Triple.bind (h.conseq (fun _ _ hs => hs) (fun _ _ _ hs => hs) fun _ _ _ _ => trivial) hf

theorem Finishes.tryElse {R : α → Trace → Prop} {f : Exn → Program β} {g : α → Program β}
    (h : Does settings p K prog R) (hf : ∀ x, Finishes settings p K (f x))
    (hg : ∀ a, Finishes settings p (fun τ => R a τ ∧ K τ) (g a)) : Finishes settings p K (prog.tryElse f g) := Triple.tryElse h hg hf

theorem Finishes.pure {a : α} : Finishes settings p K (Pure.pure a : Program α) := Triple.pure fun _ _ _ => trivial

theorem Finishes.throw {x : Exn} : Finishes settings p K (Prog.throw x : Program α) := Triple.throw fun _ _ _ => trivial

/-- A last effect, and an answer that is not looked at. -/
theorem Finishes.last {e : Effect} {b : β} (hG : ∀ τ, K τ → Lawful settings p τ e) :
    Finishes settings p K ((Prog.perform e : Program e.Answer) >>= fun _ => Pure.pure b) :=
  Triple.bind (R := fun _ _ => True) (Spec.effect (nobody_keeps K) (fun τ _ hs => hG τ hs)
    (fun _ _ _ _ _ _ _ _ => trivial) fun _ _ _ _ _ _ _ _ => trivial) fun _ => Finishes.pure

/-! ## Effects -/

theorem Finishes.effect {e : Effect} (hG : ∀ τ, K τ → Lawful settings p τ e) :
    Finishes settings p K (Prog.perform e : Program e.Answer) :=
  Spec.effect (nobody_keeps K) (fun τ _ hs => hG τ hs) (fun _ _ _ _ _ _ _ _ => trivial)
    fun _ _ _ _ _ _ _ _ => trivial

theorem Does.effect {keeps : Event → Bool} {e : Effect} (hK : Survives keeps K)
    (he : ∀ db g i a, keeps ⟨db, g, i, e, a⟩ = true) (hG : ∀ τ, K τ → Lawful settings p τ e) :
    Does settings p K (Prog.perform e) fun a τ => Once keeps (fun event past => K past ∧
      ∃ db g i, event = ⟨db, g, i, e, .ok a⟩ ∧ told past db g i e (.ok a)) τ := by
  refine Spec.effect (nobody_keeps K) (fun τ _ hs => hG τ hs) ?_ ?_
  · intro τ db g i a _ hs htold
    exact ⟨Once.here ⟨hs, db, g, i, rfl, htold⟩, hK _ τ (he db g i (.ok a)) hs⟩
  · exact fun τ db g i x _ _ hs => hK _ τ (he db g i (.error x)) hs

theorem Does.query (hK : Survives Event.inSection K) (q : Query) :
    Does settings p K (query q) fun a τ => Once Event.inSection (fun event past => event.Asked q a ∧ K past) τ := by
  refine (Does.effect (e := .query q) hK (fun _ _ _ _ => rfl) fun _ _ => trivial).weaken fun a τ _ ho => ho.imp ?_
  intro event past hs
  obtain ⟨hs, db, g, i, rfl, -⟩ := hs
  exact ⟨⟨db, g, i, rfl⟩, hs⟩

theorem Does.read (hK : Survives Event.inSection K) (r : GitHubRead) :
    Does settings p K (read r) fun a τ => Once Event.inSection (fun event past => event.Read r a ∧ K past) τ := by
  refine (Does.effect (e := .read r) hK (fun _ _ _ _ => rfl) fun _ _ => trivial).weaken fun a τ _ ho => ho.imp ?_
  intro event past hs
  obtain ⟨hs, db, g, i, rfl, -⟩ := hs
  exact ⟨⟨db, g, i, rfl⟩, hs⟩

theorem Does.write (hK : Survives Event.inSection K) (w : CheckWrite) (hG : ∀ τ, K τ → WriteFenced τ w) :
    Does settings p K (write w) fun _ τ => Once Event.inSection (fun event past => event.Wrote w ∧ K past) τ := by
  refine (Does.effect (e := .write w) hK (fun _ _ _ _ => rfl) hG).weaken fun a τ _ ho => ho.imp ?_
  intro event past hs
  obtain ⟨hs, db, g, i, rfl, -⟩ := hs
  exact ⟨⟨db, g, i, rfl⟩, hs⟩

/-- A call that ends no claim. -/
theorem Does.call (hK : Survives Event.inSection K) {c : Call} (hc : c.endsClaim = false)
    (hG : ∀ τ, K τ → Lawful settings p τ (.call c)) :
    Does settings p K (call c) fun a τ => Once Event.inSection (fun event past => K past ∧
      ∃ db g i db', event = ⟨db, g, i, .call c, .ok a⟩ ∧ c.run i db = .ok (db', a)) τ := by
  have he : ∀ db g i a, Event.inSection ⟨db, g, i, .call c, a⟩ = true := by
    intro db g i a
    simp [Event.inSection, Event.inPublication, Event.inClaim, Effect.endsClaim, hc,
      Effect.releasesAuthorityGuard, Effect.releasesCheckGuard]
  refine (Does.effect hK he hG).weaken fun a τ _ ho => ho.imp ?_
  intro event past hs
  obtain ⟨hs, db, g, i, he, db', hr⟩ := hs
  exact ⟨hs, db, g, i, db', he, hr⟩

/-! ## Footprints -/

theorem Does.only {keeps : Event → Bool} {allowed : Effect → Prop} (hK : Survives keeps K)
    (he : ∀ e, allowed e → ∀ db g i a, keeps ⟨db, g, i, e, a⟩ = true)
    (hG : ∀ τ e, K τ → allowed e → Lawful settings p τ e) (h : prog.Only allowed) :
    Does settings p K prog fun _ _ => True := by
  have htriple := Triple.only (S := amid observes nobody) (I := fun _ => True) (G := fun _ => Lawful settings p)
    (p := ⟨⟩) (K := K) (amid_stable (nobody_keeps K)) (fun τ e _ hs ha => hG τ e hs ha) ?_ h
  · exact htriple.conseq (fun _ _ hs => hs) (fun _ _ _ hs => ⟨trivial, hs⟩) fun _ _ _ hs => hs
  · intro τ e a τ' hs ha hp
    obtain ⟨-, db, g, i, -, rfl⟩ := hp
    exact hK _ τ (he e ha db g i a) hs

end

/-- A call that no claim stands behind and that no claim fences. -/
def Call.isPlain : Call → Bool
  | .acceptDelivery .. | .enqueue _ | .enqueueSharedHeadTrigger _ | .enqueueForSharedHeadGeneration ..
  | .markDeliveryInvalidated _ | .recordProviderBackpressure .. => true
  | _ => false

def Effect.isPlain : Effect → Bool
  | .query _ | .read _ | .leaseIsLost | .recallPolicy _ | .rememberPolicy .. | .pick => true
  | .call c => c.isPlain
  | _ => false

/-- An interim write or a cancellation of the check of a head. -/
def CheckWrite.amends (key : EpochKey) : CheckWrite → Prop
  | .upsertInterim key' | .resetCheckRun key' _ | .cancelCheckRun key' _ => key' = key
  | .upsertCompleted .. => False

def Effect.amends (key : EpochKey) (e : Effect) : Prop :=
  e.isPlain = true ∨ ∃ w : CheckWrite, e = .write w ∧ w.amends key

theorem Call.isPlain.lawful [PullDigest] {c : Call} (h : c.isPlain = true) (settings : Settings) (p : Pid) (τ : Trace) :
    Lawful settings p τ (.call c) := by
  have hpermitted : CallPermitted p τ c := by
    refine ⟨?_, ?_, ?_, ?_, ?_⟩
    · intro job owner hu
      cases c <;> first | (cases hu; done) | cases h
    · intro job owner hu
      cases c <;> first | (cases hu; done) | cases h
    · intro job hu
      cases c <;> first | (cases hu; done) | cases h
    · intro owner hu
      cases c <;> first | (cases hu; done) | cases h
    · intro owner lease_seconds work_class hu
      subst hu
      cases h
  cases c <;> first | exact And.intro hpermitted trivial | cases h

theorem Call.isPlain.endsClaim {c : Call} (h : c.isPlain = true) : c.endsClaim = false := by
  cases c <;> first | rfl | cases h

theorem Effect.isPlain.lawful [PullDigest] {e : Effect} (h : e.isPlain = true) (settings : Settings) (p : Pid)
    (τ : Trace) : Lawful settings p τ e := by
  cases e with
  | call c => exact Call.isPlain.lawful h settings p τ
  | query | read | leaseIsLost | recallPolicy | rememberPolicy | pick => trivial
  | _ => cases h

theorem Effect.isPlain.inSection {e : Effect} (h : e.isPlain = true) (db : Db) (g : GitHub) (i : Instant)
    (a : Except Exn e.Answer) : Event.inSection ⟨db, g, i, e, a⟩ = true := by
  cases e with
  | call c =>
    simp [Event.inSection, Event.inPublication, Event.inClaim, Effect.endsClaim, Call.isPlain.endsClaim h,
      Effect.releasesAuthorityGuard, Effect.releasesCheckGuard]
  | query | read | leaseIsLost | recallPolicy | rememberPolicy | pick => rfl
  | _ => cases h

theorem holdsCheckGuard_acquired (id : Nat) (head : HeadSha) (τ : Trace) (db : Db) (g : GitHub) (i : Instant)
    (a : Unit) : holdsCheckGuard id head (⟨db, g, i, .acquireCheckWriteGuard id head, .ok a⟩ :: τ) = true := by
  simp [holdsCheckGuard]

theorem holdsAuthorityGuard_acquired (id : Nat) (τ : Trace) (db : Db) (g : GitHub) (i : Instant)
    (a : Unit) : holdsAuthorityGuard id (⟨db, g, i, .acquireAuthorityGuard id, .ok a⟩ :: τ) = true := by
  simp [holdsAuthorityGuard]

section
variable [PullDigest] {settings : Settings} {p : Pid} {K : Trace → Prop} {α : Type} {prog : Program α}

theorem Does.plain (hK : Survives Event.inSection K) (h : prog.Only fun e => e.isPlain = true) :
    Does settings p K prog fun _ _ => True :=
  Does.only hK (fun _ he => Effect.isPlain.inSection he) (fun τ _ _ he => Effect.isPlain.lawful he settings p τ) h

/-- Under the guard of a head its check may be amended. -/
theorem Does.amend {k : EpochKey} (hK : Survives Event.inSection K)
    (hguard : ∀ τ, K τ → holdsCheckGuard k.installation_id k.head_sha τ = true)
    (h : prog.Only (Effect.amends k)) : Does settings p K prog fun _ _ => True := by
  refine Does.only hK ?_ ?_ h
  · intro e he
    rcases he with he | ⟨w, rfl, -⟩
    · exact Effect.isPlain.inSection he
    · exact fun _ _ _ _ => rfl
  · intro τ e hs he
    rcases he with he | ⟨w, rfl, hw⟩
    · exact Effect.isPlain.lawful he settings p τ
    · cases w with
      | upsertCompleted => cases hw
      | upsertInterim k' | resetCheckRun k' id | cancelCheckRun k' id =>
        cases hw
        exact hguard τ hs

/-! ## Guards -/

/-- What a section brings must outlast the guard. -/
theorem Does.checkWriteGuard {id : Nat} {head : HeadSha} {Q : α → Trace → Prop}
    (hK : Survives Event.inPublication K) (hQ : ∀ a, Survives Event.inPublication (Q a))
    (hbody : Does settings p (fun τ => holdsCheckGuard id head τ = true ∧ K τ) prog Q) :
    Does settings p K (checkWriteGuard id head prog) Q := by
  refine Triple.bind (R := fun _ τ => holdsCheckGuard id head τ = true ∧ K τ) ?_ ?_
  · refine Spec.effect (nobody_keeps K) (fun _ _ _ => trivial) ?_ ?_
    · exact fun τ db g i a _ hs _ => ⟨holdsCheckGuard_acquired id head τ db g i a, hK _ τ rfl hs⟩
    · exact fun τ db g i x _ _ hs => hK _ τ rfl hs
  · intro _
    refine Triple.andFinally hbody (fun a => ?_) fun x => ?_
    · refine Spec.effect (nobody_keeps _) (fun _ _ _ => trivial) ?_ ?_
      · exact fun τ db g i r _ hs _ => ⟨hQ a _ τ rfl hs.1, hK _ τ rfl hs.2.2⟩
      · exact fun τ db g i r _ _ hs => hK _ τ rfl hs.2.2
    · refine Spec.effect (nobody_keeps _) (fun _ _ _ => trivial) ?_ ?_
      · exact fun τ db g i r _ hs _ => hK _ τ rfl hs.2
      · exact fun τ db g i r _ _ hs => hK _ τ rfl hs.2

theorem Does.authorityPublishGuard {id : Nat} {Q : α → Trace → Prop}
    (hK : Survives Event.inClaim K) (hQ : ∀ a, Survives Event.inClaim (Q a))
    (hbody : Does settings p (fun τ => holdsAuthorityGuard id τ = true ∧ K τ) prog Q) :
    Does settings p K (authorityPublishGuard id prog) Q := by
  refine Triple.bind (R := fun _ τ => holdsAuthorityGuard id τ = true ∧ K τ) ?_ ?_
  · refine Spec.effect (nobody_keeps K) (fun _ _ _ => trivial) ?_ ?_
    · exact fun τ db g i a _ hs _ => ⟨holdsAuthorityGuard_acquired id τ db g i a, hK _ τ rfl hs⟩
    · exact fun τ db g i x _ _ hs => hK _ τ rfl hs
  · intro _
    refine Triple.andFinally hbody (fun a => ?_) fun x => ?_
    · refine Spec.effect (nobody_keeps _) (fun _ _ _ => trivial) ?_ ?_
      · exact fun τ db g i r _ hs _ => ⟨hQ a _ τ rfl hs.1, hK _ τ rfl hs.2.2⟩
      · exact fun τ db g i r _ _ hs => hK _ τ rfl hs.2.2
    · refine Spec.effect (nobody_keeps _) (fun _ _ _ => trivial) ?_ ?_
      · exact fun τ db g i r _ hs _ => hK _ τ rfl hs.2
      · exact fun τ db g i r _ _ hs => hK _ τ rfl hs.2

/-- A guarded section that amends the check of its head. -/
theorem Does.guardedAmend {k : EpochKey} (hK : Survives Event.inPublication K)
    (h : prog.Only (Effect.amends k)) :
    Does settings p K (EvaluationService.checkWriteGuard k.installation_id k.head_sha prog) fun _ _ => True := by
  refine Does.checkWriteGuard hK (fun _ => Survives.const True) (Does.amend ?_ (fun _ hs => hs.1) h)
  exact (holdsCheckGuard_kept k.installation_id k.head_sha).and hK.within

end

end ExtraCodeowners
