import ExtraCodeowners.RequestRuns

/-!
# Every request of every replica

Whatever the interleaving, a request is paid by an admission of its own,
carries a token of its installation and holds a permit.
-/

namespace ExtraCodeowners

open System

/-! ## The account -/

section
variable {α : Type}

theorem countP_range (p : α → Bool) (l : List α) :
    l.countP p = (List.range l.length).countP fun n => l[n]?.any p := by
  induction l using List.reverseRecOn with
  | nil => rfl
  | append_singleton l a ih =>
    have hlast : (l ++ [a])[l.length]?.any p = p a := by simp
    have hsame : (List.range l.length).countP (fun n => (l ++ [a])[n]?.any p) =
        (List.range l.length).countP fun n => l[n]?.any p := by
      refine List.countP_congr fun n hn => ?_
      rw [List.getElem?_append_left (List.mem_range.mp hn)]
    rw [List.length_append, List.length_singleton, List.range_succ, List.countP_append, List.countP_append,
      List.countP_singleton, List.countP_singleton, hlast, hsame, ih]

/-- Different places at which a list has what is counted. -/
theorem places_le_countP {p : α → Bool} {l : List α} {places : List Nat} (hnodup : places.Nodup)
    (h : ∀ n ∈ places, ∃ a, l[n]? = some a ∧ p a = true) : places.length ≤ l.countP p := by
  rw [countP_range, List.countP_eq_length_filter]
  refine (hnodup.subperm fun n hn => ?_).length_le
  obtain ⟨a, ha, hp⟩ := h n hn
  refine List.mem_filter.mpr ⟨List.mem_range.mpr (List.getElem?_eq_some_iff.mp ha).1, ?_⟩
  rw [ha]
  exact hp

end

/-- The admission is in the account, at its place. -/
def Granted (entries : List BudgetEntry) (admission : Admission) : Prop :=
  ∃ e, entries[admission.serial]? = some e ∧ e.grantsTo admission.installation_id = true ∧
    e.issued = admission.receipt

theorem Granted.lt {entries : List BudgetEntry} {admission : Admission} (h : Granted entries admission) :
    admission.serial < entries.length := by
  obtain ⟨e, he, -⟩ := h
  exact (List.getElem?_eq_some_iff.mp he).1

theorem Granted.append {entries : List BudgetEntry} {admission : Admission} (h : Granted entries admission)
    (later : List BudgetEntry) : Granted (entries ++ later) admission := by
  obtain ⟨e, he, hgrants⟩ := h
  refine ⟨e, ?_, hgrants⟩
  rw [List.getElem?_append_left (List.getElem?_eq_some_iff.mp he).1]
  exact he

def Sending.serial (x : Sending) : Option Nat := x.admission.map Admission.serial

/-- Admissions are used once, each by the request it was made for. -/
structure ApiState.Accounted (s : ApiState) : Prop where
  ledger : ∃ t, t ≤ s.clock ∧ BudgetRun s.entries s.budgets t
  pending : ∀ p admission, (s.session p).admission = some admission → Granted s.entries admission
  used : ∀ x ∈ s.sent, ∀ admission, x.admission = some admission → Granted s.entries admission
  own : ∀ p, ∀ x ∈ (s.session p).sends, x ∈ s.sent
  unused : ∀ p admission, (s.session p).admission = some admission → ∀ x ∈ s.sent, x.serial ≠ some admission.serial
  distinct : ∀ p q admission admission', p ≠ q → (s.session p).admission = some admission →
    (s.session q).admission = some admission' → admission.serial ≠ admission'.serial
  once : (s.sent.filterMap Sending.serial).Nodup
  charged : ∀ x ∈ s.sent, ∀ id, x.chargedTo id = true →
    ∃ admission, x.admission = some admission ∧ admission.installation_id = id
  earned : ∀ e ∈ s.entries, e.call.Earned s.sent
  abandoned : ∀ call ∈ s.abandoned, call.Earned s.sent

section
variable {s t : ApiState} {p : CallId} {e : BudgetEntry}

/-- More calls to the budget, and sessions that forget. -/
theorem ApiState.Accounted.grow (h : s.Accounted) (hledger : ∃ now, now ≤ t.clock ∧ BudgetRun t.entries t.budgets now)
    (hentries : ∃ later, t.entries = s.entries ++ later ∧ ∀ e ∈ later, e.call.Earned s.sent) (hsent : t.sent = s.sent)
    (habandoned : ∀ call ∈ t.abandoned, call ∈ s.abandoned ∨ call.Earned s.sent)
    (hadmission : ∀ q admission, (t.session q).admission = some admission → (s.session q).admission = some admission)
    (hsends : ∀ q, ∀ x ∈ (t.session q).sends, x ∈ (s.session q).sends) : t.Accounted := by
  obtain ⟨later, hlater, hearned⟩ := hentries
  refine ⟨hledger, ?_, ?_, ?_, ?_, ?_, ?_, ?_, ?_, ?_⟩
  · intro q admission hq
    rw [hlater]
    exact (h.pending q admission (hadmission q admission hq)).append later
  · intro x hx admission hadm
    rw [hlater]
    exact (h.used x (hsent ▸ hx) admission hadm).append later
  · exact fun q x hx => hsent ▸ h.own q x (hsends q x hx)
  · exact fun q admission hq x hx => h.unused q admission (hadmission q admission hq) x (hsent ▸ hx)
  · intro q q' admission admission' hne hq hq'
    exact h.distinct q q' admission admission' hne (hadmission q admission hq) (hadmission q' admission' hq')
  · exact hsent ▸ h.once
  · exact fun x hx => h.charged x (hsent ▸ hx)
  · intro e he
    rw [hlater] at he
    rw [hsent]
    exact (List.mem_append.mp he).elim (h.earned e) (hearned e)
  · intro call hc
    rw [hsent]
    exact (habandoned call hc).elim (h.abandoned call) id

theorem ApiState.Accounted.idle (h : s.Accounted) (hclock : s.clock ≤ t.clock) (hentries : t.entries = s.entries)
    (hbudgets : t.budgets = s.budgets) (hsent : t.sent = s.sent)
    (habandoned : ∀ call ∈ t.abandoned, call ∈ s.abandoned ∨ call.Earned s.sent)
    (hadmission : ∀ q admission, (t.session q).admission = some admission → (s.session q).admission = some admission)
    (hsends : ∀ q, ∀ x ∈ (t.session q).sends, x ∈ (s.session q).sends) : t.Accounted := by
  obtain ⟨now, hnow, hrun⟩ := h.ledger
  refine h.grow ⟨now, hnow.trans hclock, ?_⟩ ⟨[], by rw [hentries, List.append_nil], fun _ he => (by cases he)⟩ hsent
    habandoned hadmission hsends
  rw [hentries, hbudgets]
  exact hrun

/-- A receipt that is presented belongs to a request that was sent. -/
theorem ApiState.Accounted.called {call : BudgetCall} {abandoned : List BudgetCall} (h : s.Accounted)
    (hcall : s.Calls call e) (hearned : call.Earned s.sent) (habandoned : ∀ c ∈ abandoned, c ∈ s.abandoned) :
    ApiState.Accounted { s.called e with abandoned := abandoned } := by
  obtain ⟨now, hnow, hrun⟩ := h.ledger
  have hlast : ∀ e' ∈ [e], e'.call.Earned s.sent := by
    intro e' he'
    rw [List.mem_singleton.mp he', hcall.call]
    exact hearned
  refine h.grow (t := { s.called e with abandoned := abandoned }) ⟨e.now, le_refl _, ?_⟩ ⟨[e], rfl, hlast⟩ rfl
    (fun c hc => Or.inl (habandoned c hc)) (fun _ _ hq => hq) fun _ _ hx => hx
  refine BudgetRun.call e hrun hcall.before (hnow.trans hcall.inserted) hcall.refund hcall.now fun r hr => ?_
  obtain ⟨x, hx, admission, hadmission, hr⟩ := hearned.presented hcall.call hr
  obtain ⟨d, hd, -, hissued⟩ := h.used x hx admission hadmission
  exact ⟨d, List.mem_of_getElem? hd, hissued.trans hr⟩

theorem ApiState.Accounted.admitted (h : (s.called e).Accounted) (hs : s.Accounted) {id : Nat}
    {receipt : Option BudgetReceipt} (hgrants : e.grantsTo id = true) (hissued : e.issued = receipt) {session : Session}
    (hadmission : session.admission = some ⟨s.entries.length, id, receipt⟩)
    (hsends : session.sends = (s.session p).sends) : ((s.called e).recorded p session).Accounted := by
  have hlast : ∀ {q admission}, q ≠ p → (((s.called e).recorded p session).session q).admission = some admission →
      (s.session q).admission = some admission := by
    intro q admission hq hadm
    rw [recorded_other _ _ hq] at hadm
    exact hadm
  have hself := recorded_self (s.called e) p session
  refine ⟨h.ledger, fun q admission hq => ?_, h.used, fun q x hx => ?_, fun q admission hq x hx => ?_, ?_, h.once,
    h.charged, h.earned, h.abandoned⟩
  · by_cases hqp : q = p
    · subst hqp
      rw [hself, hadmission] at hq
      cases hq
      exact ⟨e, List.getElem?_concat_length, hgrants, hissued⟩
    · exact h.pending q admission (hlast hqp hq)
  · by_cases hqp : q = p
    · subst hqp
      rw [hself, hsends] at hx
      exact hs.own q x hx
    · rw [recorded_other _ _ hqp] at hx
      exact hs.own q x hx
  · by_cases hqp : q = p
    · subst hqp
      rw [hself, hadmission] at hq
      cases hq
      intro hserial
      obtain ⟨admission, hadm, hn⟩ := Option.map_eq_some_iff.mp hserial
      exact absurd hn (hs.used x hx admission hadm).lt.ne
    · exact hs.unused q admission (hlast hqp hq) x hx
  · intro q q' admission admission' hne hq hq'
    by_cases hqp : q = p
    · subst hqp
      rw [hself, hadmission] at hq
      cases hq
      exact (hs.pending q' admission' (hlast (Ne.symm hne) hq')).lt.ne'
    · by_cases hqp' : q' = p
      · subst hqp'
        rw [hself, hadmission] at hq'
        cases hq'
        exact (hs.pending q admission (hlast hqp hq)).lt.ne
      · exact hs.distinct q q' admission admission' hne (hlast hqp hq) (hlast hqp' hq')

/-- A request takes the admission of its call with it. -/
theorem ApiState.Accounted.posted (h : s.Accounted) {x : Sending} (hx : x.admission = (s.session p).admission)
    (hcharged : ∀ id, x.chargedTo id = true →
      ∃ admission, x.admission = some admission ∧ admission.installation_id = id)
    {session : Session} (hadmission : session.admission = none) (hsends : session.sends = x :: (s.session p).sends) :
    (ApiState.recorded { s with sent := x :: s.sent } p session).Accounted := by
  have hself := recorded_self { s with sent := x :: s.sent } p session
  have hother : ∀ {q admission}, ((ApiState.recorded { s with sent := x :: s.sent } p session).session q).admission =
      some admission → q ≠ p ∧ (s.session q).admission = some admission := by
    intro q admission hq
    by_cases hqp : q = p
    · subst hqp
      rw [hself, hadmission] at hq
      cases hq
    · rw [recorded_other _ _ hqp] at hq
      exact ⟨hqp, hq⟩
  refine ⟨h.ledger, fun q admission hq => h.pending q admission (hother hq).2, ?_, fun q y hy => ?_, ?_, ?_, ?_, ?_,
    fun e he => (h.earned e he).mono fun _ => List.mem_cons_of_mem x,
    fun call hc => (h.abandoned call hc).mono fun _ => List.mem_cons_of_mem x⟩
  · intro y hy admission hadm
    rcases List.mem_cons.mp hy with rfl | hy
    · exact h.pending p admission (hx ▸ hadm)
    · exact h.used y hy admission hadm
  · by_cases hqp : q = p
    · subst hqp
      rw [hself, hsends] at hy
      exact (List.mem_cons.mp hy).elim (fun hyx => hyx ▸ List.mem_cons_self)
        fun hy => List.mem_cons_of_mem x (h.own q y hy)
    · rw [recorded_other _ _ hqp] at hy
      exact List.mem_cons_of_mem x (h.own q y hy)
  · intro q admission hpending y hy
    obtain ⟨hqp, hq⟩ := hother hpending
    clear hpending
    rcases List.mem_cons.mp hy with rfl | hy
    · intro hserial
      obtain ⟨admission', hadm, hn⟩ := Option.map_eq_some_iff.mp hserial
      exact h.distinct p q admission' admission (Ne.symm hqp) (hx ▸ hadm) hq hn
    · exact h.unused q admission hq y hy
  · intro q q' admission admission' hne hq hq'
    exact h.distinct q q' admission admission' hne (hother hq).2 (hother hq').2
  · show ((x :: s.sent).filterMap Sending.serial).Nodup
    cases hserial : x.serial with
    | none =>
      rw [List.filterMap_cons_none hserial]
      exact h.once
    | some n =>
      rw [List.filterMap_cons_some hserial]
      refine List.nodup_cons.mpr ⟨fun hn => ?_, h.once⟩
      obtain ⟨y, hy, hyn⟩ := List.mem_filterMap.mp hn
      obtain ⟨admission, hadm, hn⟩ := Option.map_eq_some_iff.mp hserial
      exact h.unused p admission (hx ▸ hadm) y hy (hyn.trans (congrArg some hn.symm))
  · intro y hy id hid
    rcases List.mem_cons.mp hy with rfl | hy
    · exact hcharged id hid
    · exact h.charged y hy id hid

/-- An effect that leaves the account alone. -/
theorem ApiState.Accounted.kept (h : s.Accounted) (hclock : t.clock = s.clock) (hentries : t.entries = s.entries)
    (hbudgets : t.budgets = s.budgets) (hsent : t.sent = s.sent)
    (habandoned : ∀ call ∈ t.abandoned, call ∈ s.abandoned ∨ call.Earned s.sent) (hsession : t.session = s.session)
    {session : Session}
    (hadmission : session.admission = (s.session p).admission) (hsends : session.sends = (s.session p).sends) :
    (t.recorded p session).Accounted := by
  have hsame : ∀ q, ((t.recorded p session).session q).admission = (s.session q).admission ∧
      ((t.recorded p session).session q).sends = (s.session q).sends :=
    forall_recorded (M := fun q session => session.admission = (s.session q).admission ∧
      session.sends = (s.session q).sends) ⟨hadmission, hsends⟩ fun q _ => by rw [hsession]; exact ⟨rfl, rfl⟩
  exact h.idle hclock.ge hentries hbudgets hsent habandoned (fun q admission hq => (hsame q).1.symm.trans hq)
    fun q x hx => (hsame q).2 ▸ hx

theorem ApiState.Accounted.perform {client : GitHubClient} (hbudget : client.recovery_budget.isSome = true)
    (h : s.Accounted) {session : Session} (he : Effected client p s t session) : (t.recorded p session).Accounted := by
  cases he with
  | quiet | locked | unlocked | acquired | released | tokens | cached =>
    apply h.kept
    case habandoned => exact fun _ hc => Or.inl hc
    all_goals rfl
  | called call e hcall hearned =>
    apply (h.called hcall (hearned.mono (h.own p)) fun _ hc => hc).kept
    case habandoned => exact fun _ hc => Or.inl hc
    all_goals rfl
  | abandoned call hearned =>
    apply h.kept
    case habandoned =>
      intro c hc
      exact (List.mem_cons.mp hc).elim (fun he => Or.inr (he ▸ hearned.mono (h.own p))) Or.inl
    all_goals rfl
  | admitted budget id recovery e receipt hcall hgrants hissued =>
    exact (h.called hcall trivial fun _ hc => hc).admitted h hgrants hissued rfl rfl
  | sent id request answer hlawful =>
    refine h.posted rfl (fun id' hid' => ?_) rfl rfl
    simp only [Sending.chargedTo, Bool.and_eq_true, decide_eq_true_eq] at hid'
    exact (hlawful.2 id' hid'.1).1 hid'.2 hbudget

end

section
variable [PyText] {clients : Nat → GitHubClient} {clock : Time}
  {c : InFlight}

omit [PyText] in
theorem ApiState.Accounted.initial (clock : Time) : (ApiState.initial clock).Accounted where
  ledger := ⟨clock, le_refl _, .start clock⟩
  pending _ _ h := by cases h
  used _ h := by cases h
  own _ _ h := by cases h
  unused _ _ h := by cases h
  distinct _ _ _ _ _ h := by cases h
  once := List.nodup_nil
  charged _ h := by cases h
  earned _ h := by cases h
  abandoned _ h := by cases h

omit [PyText] in
theorem ApiState.Accounted.passes {s s' : ApiState} (h : s.Accounted) (he : s.Passes s') : s'.Accounted := by
  cases he with
  | tick clock hle => exact h.idle hle rfl rfl rfl (fun _ hc => Or.inl hc) (fun _ _ hq => hq) fun _ _ hx => hx
  | restart replica =>
    exact h.idle (le_refl s.clock) rfl rfl rfl (fun _ hc => Or.inl hc) (fun _ _ hq => hq) fun _ _ hx => hx
  | abandoned before call after e hs hcall =>
    have hin : call ∈ s.abandoned := hs ▸ List.mem_append_right _ List.mem_cons_self
    refine h.called hcall (h.abandoned call hin) fun c hc => ?_
    rw [hs]
    rcases List.mem_append.mp hc with hc | hc
    · exact List.mem_append_left _ hc
    · exact List.mem_append_right _ (List.mem_cons_of_mem _ hc)

omit [PyText] in
theorem ApiState.Accounted.clear {s : ApiState} (h : s.Accounted) (p : CallId) : (s.cancelled p).Accounted := by
  have hsession : ∀ q, (s.cancelled p).session q = if q = p then Session.start else s.session q := by
    intro q
    show Function.update s.session p Session.start q = _
    by_cases hq : q = p
    · subst hq
      simp
    · simp [hq]
  refine h.idle (le_refl s.clock) rfl rfl rfl (fun _ hc => Or.inl hc) (fun q admission hq => ?_) fun q x hx => ?_
  · rw [hsession] at hq
    split at hq
    · cases hq
    · exact hq
  · rw [hsession] at hx
    split at hx
    · cases hx
    · exact hx

theorem Requested.accounted [LawfulPyText] (hbudget : ∀ r, (clients r).recovery_budget.isSome = true)
    (h : Requested clients clock c) : c.state.Accounted := by
  refine h.inv (.initial clock) (fun p s s' session hs he => hs.perform (hbudget p.1) he)
    (fun s s' hs he => hs.passes he) fun p s hs => hs.clear p

/-- However many replicas and calls: no request spends what another one was
admitted for, and the account is one that the table of budgets allows. -/
theorem requests_are_paid [LawfulPyText] (hbudget : ∀ r, (clients r).recovery_budget.isSome = true)
    (h : Requested clients clock c) : (∃ t, t ≤ c.state.clock ∧ BudgetRun c.state.entries c.state.budgets t) ∧
      ∀ id, c.state.sent.countP (·.chargedTo id) ≤ c.state.entries.countP (·.grantsTo id) := by
  have haccount := h.accounted hbudget
  refine ⟨haccount.ledger, fun id => ?_⟩
  have hserial : ∀ x ∈ c.state.sent.filter (·.chargedTo id), ∃ admission, x.admission = some admission ∧
      admission.installation_id = id := by
    intro x hx
    obtain ⟨hx, hid⟩ := List.mem_filter.mp hx
    exact haccount.charged x hx id hid
  have hlength : ((c.state.sent.filter (·.chargedTo id)).filterMap Sending.serial).length =
      (c.state.sent.filter (·.chargedTo id)).length := by
    rw [List.length_filterMap_eq_countP, List.countP_eq_length]
    intro x hx
    obtain ⟨admission, hadm, -⟩ := hserial x hx
    simp [Sending.serial, hadm]
  rw [List.countP_eq_length_filter, ← hlength]
  refine places_le_countP (haccount.once.sublist (List.filter_sublist.filterMap _)) fun n hn => ?_
  obtain ⟨x, hx, hxn⟩ := List.mem_filterMap.mp hn
  obtain ⟨admission, hadm, hid⟩ := hserial x hx
  obtain ⟨e, he, hgrants, -⟩ := haccount.used x (List.mem_of_mem_filter hx) admission hadm
  have hn : admission.serial = n := by simpa [Sending.serial, hadm] using hxn
  exact ⟨e, hn ▸ he, hid ▸ hgrants⟩

/-- A debit is given back only with the receipt of a request of its own, which
GitHub answered with an unchanged page. -/
theorem refunds_are_earned [LawfulPyText] (hbudget : ∀ r, (clients r).recovery_budget.isSome = true)
    (h : Requested clients clock c) {e : BudgetEntry} (he : e ∈ c.state.entries) {id : Nat} {quota : CoreQuota}
    {receipt : BudgetReceipt} (hcall : e.call = .observe id quota (some receipt)) :
    ∃ x ∈ c.state.sent, x.Refundable id receipt := by
  have hearned := (h.accounted hbudget).earned e he
  rw [hcall] at hearned
  exact hearned

end

theorem requests_are_paid_sample : (@sampleAnswered asciiText).state.sent.countP (·.chargedTo 1) = 2 ∧
    (∃ t, t ≤ (@sampleAnswered asciiText).state.clock ∧
      BudgetRun (@sampleAnswered asciiText).state.entries (@sampleAnswered asciiText).state.budgets t) ∧
      ∀ id, (@sampleAnswered asciiText).state.sent.countP (·.chargedTo id) ≤
        (@sampleAnswered asciiText).state.entries.countP (·.grantsTo id) :=
  ⟨by decide, @requests_are_paid asciiText _ _ _ asciiText_lawful (fun _ => rfl) (@sampleAnswered_requested asciiText)⟩

theorem call_of_presented {e : BudgetEntry} (h : e.presented.isSome = true) :
    ∃ id quota receipt, e.call = .observe id quota (some receipt) := by
  unfold BudgetEntry.presented at h
  cases hcall : e.call with
  | admitCall => simp [hcall] at h
  | observe id quota receipt =>
    cases receipt with
    | none => simp [hcall] at h
    | some receipt => exact ⟨id, quota, receipt, rfl⟩

theorem sampleRefunded_presents : (@sampleRefunded asciiText).state.entries.any (·.presented.isSome) = true := by
  decide +kernel

theorem refunds_are_earned_sample : ∃ e ∈ (@sampleRefunded asciiText).state.entries, ∃ id quota receipt,
    e.call = .observe id quota (some receipt) ∧
      ∃ x ∈ (@sampleRefunded asciiText).state.sent, x.Refundable id receipt := by
  obtain ⟨e, he, hpresented⟩ := List.any_eq_true.mp sampleRefunded_presents
  obtain ⟨id, quota, receipt, hcall⟩ := call_of_presented hpresented
  exact ⟨e, he, id, quota, receipt, hcall, @refunds_are_earned asciiText _ _ _ asciiText_lawful (fun _ => rfl)
    (@sampleRefunded_requested asciiText) e he id quota receipt hcall⟩

/-! ## Tokens -/

/-- GitHub answered a request at the path with this token. -/
def TokenIssued (sent : List Sending) (path value : Str) : Prop := ∃ x ∈ sent, x.Issues path value

theorem TokenIssued.cons {sent : List Sending} {path value : Str} (h : TokenIssued sent path value) (x : Sending) :
    TokenIssued (x :: sent) path value := by
  obtain ⟨y, hy, hissues⟩ := h
  exact ⟨y, List.mem_cons_of_mem x hy, hissues⟩

structure ApiState.Tokened (s : ApiState) : Prop where
  cached : ∀ replica id token, (s.tokens replica).get? id = some token → TokenIssued s.sent (tokenPath id) token.value
  known : ∀ p path value, (s.session p).Knows path value → TokenIssued s.sent path value
  sent : ∀ x ∈ s.sent, ∀ id, x.installation_id = some id → ∃ value,
    x.request.headers.get? AUTHORIZATION = some (bearer value) ∧ TokenIssued s.sent (tokenPath id) value

section
variable {s t : ApiState} {p : CallId}

theorem ApiState.Tokened.kept (h : s.Tokened) (hsent : t.sent = s.sent) (hsession : t.session = s.session)
    (htokens : ∀ replica id token, (t.tokens replica).get? id = some token →
      TokenIssued s.sent (tokenPath id) token.value)
    {session : Session} (hknows : ∀ path value, session.Knows path value → TokenIssued s.sent path value) :
    (t.recorded p session).Tokened := by
  refine ⟨fun replica id token ht => ?_, fun q path value hq => ?_, ?_⟩
  · exact hsent.symm ▸ htokens replica id token ht
  · show TokenIssued t.sent path value
    rw [hsent]
    by_cases hqp : q = p
    · subst hqp
      rw [recorded_self] at hq
      exact hknows path value hq
    · rw [recorded_other _ _ hqp, hsession] at hq
      exact h.known q path value hq
  · intro x hx id hid
    show ∃ value, _ ∧ TokenIssued t.sent (tokenPath id) value
    rw [hsent]
    exact h.sent x (hsent ▸ hx) id hid

theorem ApiState.Tokened.posted (h : s.Tokened) {x : Sending} {session : Session}
    (hcached : session.cached = (s.session p).cached) (hsends : session.sends = x :: (s.session p).sends)
    (hx : ∀ id, x.installation_id = some id → ∃ value, (s.session p).Knows (tokenPath id) value ∧
      x.request.headers.get? AUTHORIZATION = some (bearer value)) :
    (ApiState.recorded { s with sent := x :: s.sent } p session).Tokened := by
  refine ⟨fun replica id token ht => (h.cached replica id token ht).cons x, fun q path value hq => ?_, ?_⟩
  · show TokenIssued (x :: s.sent) path value
    by_cases hqp : q = p
    · subst hqp
      rw [recorded_self] at hq
      rcases hq with hcache | ⟨y, hy, hissues⟩
      · exact (h.known q path value (Or.inl (hcached ▸ hcache))).cons x
      · rw [hsends] at hy
        rcases List.mem_cons.mp hy with rfl | hy
        · exact ⟨y, List.mem_cons_self, hissues⟩
        · exact (h.known q path value (Or.inr ⟨y, hy, hissues⟩)).cons x
    · rw [recorded_other _ _ hqp] at hq
      exact (h.known q path value hq).cons x
  · intro y hy id hid
    show ∃ value, _ ∧ TokenIssued (x :: s.sent) (tokenPath id) value
    rcases List.mem_cons.mp hy with rfl | hy
    · obtain ⟨value, hknows, hheader⟩ := hx id hid
      exact ⟨value, hheader, (h.known p _ _ hknows).cons y⟩
    · obtain ⟨value, hheader, hissued⟩ := h.sent y hy id hid
      exact ⟨value, hheader, hissued.cons x⟩

theorem ApiState.Tokened.perform {client : GitHubClient} (h : s.Tokened) {session : Session}
    (he : Effected client p s t session) : (t.recorded p session).Tokened := by
  cases he with
  | quiet | locked | unlocked | acquired | released | called | abandoned | admitted =>
    apply h.kept
    · rfl
    · rfl
    · exact h.cached
    · exact h.known p
  | tokens tokens htokens =>
    refine ApiState.Tokened.kept h (by rfl) (by rfl) (fun replica id token ht => ?_) (h.known p)
    by_cases hr : replica = p.1
    · subst hr
      rw [ApiState.withTokens_self] at ht
      rcases htokens id token ht with hold | hknows
      · exact h.cached p.1 id token hold
      · exact h.known p _ _ hknows
    · rw [ApiState.withTokens_other _ _ hr] at ht
      exact h.cached replica id token ht
  | cached id token htoken =>
    refine ApiState.Tokened.kept h (by rfl) (by rfl) h.cached fun path value hknows => ?_
    rcases hknows with hcache | hsent
    · rcases List.mem_cons.mp hcache with heq | hcache
      · cases heq
        exact h.cached p.1 id token htoken
      · exact h.known p path value (Or.inl hcache)
    · exact h.known p path value (Or.inr hsent)
  | sent id request answer hlawful => exact h.posted rfl rfl fun id' hid' => (hlawful.2 id' hid').2

theorem ApiState.Tokened.passes (h : s.Tokened) (he : s.Passes t) : t.Tokened := by
  cases he with
  | tick | abandoned => exact ⟨h.cached, h.known, h.sent⟩
  | restart restarted =>
    refine ⟨fun replica id token ht => ?_, h.known, h.sent⟩
    by_cases hr : replica = restarted
    · subst hr
      rw [ApiState.withTokens_self] at ht
      cases ht
    · rw [ApiState.withTokens_other _ _ hr] at ht
      exact h.cached replica id token ht

end

/-! ## Permits -/

/-- A permit is counted for the replica of the call that holds it. -/
structure ApiState.Permitted (clients : Nat → GitHubClient) (s : ApiState) : Prop where
  nodup : s.permits.Nodup
  bounded : ∀ replica, s.permits.countP (·.1 = replica) ≤ (clients replica).max_in_flight_requests
  held : ∀ p, (s.session p).permit = true ↔ p ∈ s.permits

section
variable {clients : Nat → GitHubClient} {s t : ApiState} {p : CallId}

theorem ApiState.Permitted.kept (h : s.Permitted clients) (hpermits : t.permits = s.permits)
    (hsession : t.session = s.session) {session : Session} (hpermit : session.permit = (s.session p).permit) :
    (t.recorded p session).Permitted clients := by
  refine ⟨hpermits.symm ▸ h.nodup, hpermits.symm ▸ h.bounded, ?_⟩
  refine forall_recorded (M := fun q session => session.permit = true ↔ q ∈ t.permits) ?_ fun q _ => ?_
  · rw [hpermits, hpermit]
    exact h.held p
  · rw [hpermits, hsession]
    exact h.held q

theorem ApiState.Permitted.released (h : s.Permitted clients) (hpermits : t.permits = s.permits.filter (· ≠ p))
    (hsession : t.session = s.session) {session : Session} (hpermit : session.permit = false) :
    (t.recorded p session).Permitted clients := by
  refine ⟨hpermits.symm ▸ h.nodup.filter _, fun replica => ?_, ?_⟩
  · exact hpermits.symm ▸ (List.filter_sublist.countP_le).trans (h.bounded replica)
  · refine forall_recorded (M := fun q session => session.permit = true ↔ q ∈ t.permits) ?_ fun q hq => ?_
    · rw [hpermits, hpermit]
      simp
    · rw [hpermits, hsession, h.held q]
      simp [hq]

theorem ApiState.Permitted.acquired (h : s.Permitted clients) (hfree : (s.session p).permit = false)
    (hroom : s.permits.countP (·.1 = p.1) < (clients p.1).max_in_flight_requests) {session : Session}
    (hpermit : session.permit = true) :
    (ApiState.recorded { s with permits := p :: s.permits } p session).Permitted clients := by
  refine ⟨?_, fun replica => ?_, ?_⟩
  · refine List.nodup_cons.mpr ⟨fun hp => ?_, h.nodup⟩
    rw [(h.held p).mpr hp] at hfree
    cases hfree
  · show (p :: s.permits).countP (·.1 = replica) ≤ _
    by_cases hr : p.1 = replica
    · subst hr
      rw [List.countP_cons_of_pos (by simp)]
      exact hroom
    · rw [List.countP_cons_of_neg (by simp [hr])]
      exact h.bounded replica
  · refine forall_recorded (M := fun q session => session.permit = true ↔ q ∈ p :: s.permits) ?_ fun q hq => ?_
    · simp [hpermit]
    · simp [hq, h.held q]

theorem ApiState.Permitted.perform (h : s.Permitted clients) {session : Session}
    (he : Effected (clients p.1) p s t session) : (t.recorded p session).Permitted clients := by
  cases he with
  | acquired hfree hroom => exact h.acquired hfree hroom rfl
  | released => apply h.released <;> rfl
  | _ => apply h.kept <;> rfl

theorem ApiState.Permitted.passes (h : s.Permitted clients) (he : s.Passes t) : t.Permitted clients := by
  cases he with
  | tick | restart | abandoned => exact ⟨h.nodup, h.bounded, h.held⟩

end

/-- The effects at which a call may wait for others, or for a second. -/
def RequestEffect.waits : RequestEffect → Bool
  | .acquirePermit | .acquireTokenLock _ | .wait => true
  | _ => false

section
variable [PyText] [LawfulPyText] {clients : Nat → GitHubClient} {clock : Time}
  {c : InFlight}

omit [PyText] [LawfulPyText] in
theorem cancelled_eq (p : CallId) (s : ApiState) : s.cancelled p =
    ApiState.recorded { s with locks := s.locks.filter fun l => l.1 ≠ p, permits := s.permits.filter (· ≠ p) } p
      Session.start := rfl

omit [PyText] [LawfulPyText] in
theorem not_knows {path value : Str} (h : Session.start.Knows path value) : False := by
  rcases h with hcache | ⟨x, hx, -⟩
  · cases hcache
  · cases hx

theorem Requested.tokened (h : Requested clients clock c) : c.state.Tokened := by
  refine h.inv ⟨fun _ _ _ h => (by cases h), fun _ _ _ hknows => (not_knows hknows).elim, fun _ h => (by cases h)⟩
    (fun p s t session hs he => hs.perform he) (fun s s' hs he => hs.passes he) fun p s hs => ?_
  rw [cancelled_eq]
  apply hs.kept
  · rfl
  · rfl
  · exact hs.cached
  · exact fun path value hknows => (not_knows hknows).elim

/-- A request for an installation carries a token that GitHub issued for that
installation, whichever call asked for it. -/
theorem tokens_stay_home (h : Requested clients clock c) {x : Sending} (hx : x ∈ c.state.sent) {id : Nat}
    (hid : x.installation_id = some id) : ∃ value, x.request.headers.get? AUTHORIZATION = some (bearer value) ∧
      ∃ y ∈ c.state.sent, y.Issues (tokenPath id) value := h.tokened.sent x hx id hid

theorem Requested.permitted (h : Requested clients clock c) : c.state.Permitted clients := by
  refine h.inv ⟨List.nodup_nil, fun _ => Nat.zero_le _, fun _ => ⟨fun h => (by cases h), fun h => (by cases h)⟩⟩
    (fun p s t session hs he => hs.perform he) (fun s s' hs he => hs.passes he) fun p s hs => ?_
  rw [cancelled_eq]
  apply hs.released <;> rfl

/-- A call with a permit waits for nothing. -/
theorem Requested.not_waits (h : Requested clients clock c) {p : CallId} {e : RequestEffect}
    {k : Except RequestExn e.Answer → Requesting PUnit} (hp : c.procs p = some (.op e k)) (hmem : p ∈ c.state.permits) :
    ¬e.waits = true := by
  intro hwaits
  have hlawful := h.lawful hp
  have hheld := (h.permitted.held p).mpr hmem
  cases e with
  | acquirePermit =>
    have hfree : (c.state.session p).permit = false := hlawful
    rw [hfree] at hheld
    cases hheld
  | acquireTokenLock | wait =>
    rw [hlawful.1] at hheld
    cases hheld
  | _ => cases hwaits

/-- A replica has no more requests in flight than its semaphore allows, and a
call that waits keeps no other one from its turn. -/
theorem permits_are_respected (h : Requested clients clock c) :
    (∀ replica (calls : List CallId), calls.Nodup → (∀ p ∈ calls, p.1 = replica ∧
      ∃ id request k, c.procs p = some (.op (.send id request) k)) →
        calls.length ≤ (clients replica).max_in_flight_requests) ∧
      ∀ p e k, c.procs p = some (.op e k) → e.waits = true → p ∉ c.state.permits := by
  have hpermitted := h.permitted
  refine ⟨fun replica calls hnodup hcalls => ?_, fun p e k hp hwaits hmem => h.not_waits hp hmem hwaits⟩
  refine le_trans ?_ (hpermitted.bounded replica)
  rw [List.countP_eq_length_filter]
  refine (hnodup.subperm fun p hp => ?_).length_le
  obtain ⟨hreplica, id, request, k, hop⟩ := hcalls p hp
  exact List.mem_filter.mpr ⟨(hpermitted.held p).mp (h.lawful hop).1, by simp [hreplica]⟩

end

/-- The request of the second call, with the token that the first one asked for. -/
def sampleShared : Option Sending := (@sampleAnswered asciiText).state.sent.head?

theorem sampleShared_sent : ∃ x ∈ (@sampleAnswered asciiText).state.sent, sampleShared = some x ∧
    x.installation_id = some 1 := ⟨_, List.mem_cons_self, rfl, rfl⟩

theorem tokens_stay_home_sample : ∃ x, sampleShared = some x ∧ ∃ value,
    x.request.headers.get? AUTHORIZATION = some (bearer value) ∧
      ∃ y ∈ (@sampleAnswered asciiText).state.sent, y.Issues (tokenPath 1) value := by
  obtain ⟨x, hx, hshared, hid⟩ := sampleShared_sent
  exact ⟨x, hshared,
    @tokens_stay_home asciiText asciiText_lawful _ _ _ (@sampleAnswered_requested asciiText) x hx 1 hid⟩

theorem permits_are_respected_sample : (@sampleWaiting asciiText).state.permits = [(0, 0)] ∧
    (∀ replica (calls : List CallId), calls.Nodup → (∀ p ∈ calls, p.1 = replica ∧
      ∃ id request k, (@sampleWaiting asciiText).procs p = some (.op (.send id request) k)) → calls.length ≤ 1) ∧
      ∀ p e k, (@sampleWaiting asciiText).procs p = some (.op e k) → e.waits = true →
        p ∉ (@sampleWaiting asciiText).state.permits :=
  ⟨by rfl, @permits_are_respected asciiText asciiText_lawful _ _ _ (@sampleWaiting_requested asciiText)⟩

/-! ## Progress -/

/-- The lock in the hands of a call is the one it has taken. -/
def ApiState.Locking (s : ApiState) : Prop := ∀ p id, (p, id) ∈ s.locks → (s.session p).lock = some id

section
variable {s t : ApiState} {p : CallId}

theorem ApiState.Locking.kept (h : s.Locking) (hlocks : t.locks = s.locks) (hsession : t.session = s.session)
    {session : Session} (hlock : session.lock = (s.session p).lock) : (t.recorded p session).Locking := by
  refine forall_recorded (M := fun q session => ∀ id, (q, id) ∈ t.locks → session.lock = some id) ?_ fun q _ => ?_
  · rw [hlocks, hlock]
    exact h p
  · rw [hlocks, hsession]
    exact h q

theorem ApiState.Locking.locked (h : s.Locking) {id : Nat} (hfree : (s.session p).lock = none) {session : Session}
    (hlock : session.lock = some id) :
    (ApiState.recorded { s with locks := (p, id) :: s.locks } p session).Locking := by
  refine forall_recorded (M := fun q session => ∀ i, (q, i) ∈ (p, id) :: s.locks → session.lock = some i) ?_ ?_
  · intro i hi
    rcases List.mem_cons.mp hi with heq | hi
    · cases heq
      exact hlock
    · rw [h p i hi] at hfree
      cases hfree
  · intro q hq i hi
    rcases List.mem_cons.mp hi with heq | hi
    · cases heq
      exact absurd rfl hq
    · exact h q i hi

theorem ApiState.Locking.unlocked (h : s.Locking) {id : Nat} (hheld : (s.session p).lock = some id)
    {session : Session} : (ApiState.recorded { s with locks := s.locks.filter (· ≠ (p, id)) } p session).Locking := by
  refine forall_recorded
    (M := fun q session => ∀ i, (q, i) ∈ s.locks.filter (· ≠ (p, id)) → session.lock = some i) ?_ ?_
  · intro i hi
    obtain ⟨hi, hne⟩ := List.mem_filter.mp hi
    have hid := (h p i hi).symm.trans hheld
    cases hid
    simp at hne
  · intro q hq i hi
    exact h q i (List.mem_of_mem_filter hi)

theorem ApiState.Locking.perform {client : GitHubClient} (h : s.Locking) {session : Session}
    (he : Effected client p s t session) : (t.recorded p session).Locking := by
  cases he with
  | locked id hfree => exact h.locked hfree rfl
  | unlocked id hheld => exact h.unlocked hheld
  | _ => apply h.kept <;> rfl

theorem ApiState.Locking.passes (h : s.Locking) (he : s.Passes t) : t.Locking := by
  cases he with
  | tick | restart | abandoned => exact h

theorem ApiState.Locking.cancelled (h : s.Locking) (p : CallId) : (s.cancelled p).Locking := by
  intro q id hq
  obtain ⟨hq, hne⟩ := List.mem_filter.mp hq
  show (Function.update s.session p Session.start q).lock = some id
  rw [Function.update_of_ne (by simpa using hne)]
  exact h q id hq

end

/-- The call has to wait for another one of its replica. -/
def ApiState.blocks (clients : Nat → GitHubClient) (s : ApiState) (p : CallId) : RequestEffect → Prop
  | .acquirePermit => (clients p.1).max_in_flight_requests ≤ s.permits.countP (·.1 = p.1)
  | .acquireTokenLock id => ∃ q, (q, id) ∈ s.locks ∧ q.1 = p.1
  | _ => False

theorem waits_of_blocks {clients : Nat → GitHubClient} {s : ApiState} {p : CallId} {e : RequestEffect}
    (h : s.blocks clients p e) : e.waits = true := by
  cases e with
  | acquirePermit | acquireTokenLock => rfl
  | _ => exact h.elim

section
variable [PyText] [LawfulPyText] {clients : Nat → GitHubClient} {clock : Time} {c : InFlight}

theorem Requested.locking (h : Requested clients clock c) : c.state.Locking := by
  refine h.inv (fun _ _ hp => ?_) (fun p s t session hs he => hs.perform he) (fun s s' hs he => hs.passes he)
    fun p s hs => hs.cancelled p
  cases hp

theorem Requested.permit_proceeds (h : Requested clients clock c) {p : CallId} (hp : p ∈ c.state.permits) :
    ∃ e k, c.procs p = some (.op e k) ∧ ¬c.state.blocks clients p e := by
  have hpermit := (h.permitted.held p).mpr hp
  have hbusy : ¬(c.state.session p).Calm := by
    intro hcalm
    rw [hcalm.1] at hpermit
    cases hpermit
  obtain ⟨e, k, hop⟩ := h.inProgress hbusy
  exact ⟨e, k, hop, fun hblocks => h.not_waits hop hp (waits_of_blocks hblocks)⟩

/-- No deadlock: whatever a call waits for, another call of its replica goes on. -/
theorem some_call_proceeds (h : Requested clients clock c) {p : CallId} {e : RequestEffect}
    {k : Except RequestExn e.Answer → Requesting PUnit} (hp : c.procs p = some (.op e k)) :
    ∃ q e' k', q.1 = p.1 ∧ c.procs q = some (.op e' k') ∧ ¬c.state.blocks clients q e' := by
  have hpermit : ∀ q : CallId, c.state.blocks clients q .acquirePermit →
      ∃ q' e' k', q'.1 = q.1 ∧ c.procs q' = some (.op e' k') ∧ ¬c.state.blocks clients q' e' := by
    intro q hblocks
    have htaken : 0 < c.state.permits.countP (·.1 = q.1) := lt_of_lt_of_le (clients q.1).valid.1 hblocks
    obtain ⟨q', hq', hreplica⟩ := List.countP_pos_iff.mp htaken
    obtain ⟨e', k', hop, hfree⟩ := h.permit_proceeds hq'
    exact ⟨q', e', k', by simpa using hreplica, hop, hfree⟩
  by_cases hblocks : c.state.blocks clients p e
  · cases e with
    | acquirePermit => exact hpermit p hblocks
    | acquireTokenLock id =>
      obtain ⟨q, hq, hreplica⟩ := hblocks
      have hlock := h.locking q id hq
      have hbusy : ¬(c.state.session q).Calm := by
        intro hcalm
        rw [hcalm.2.1] at hlock
        cases hlock
      obtain ⟨e', k', hop⟩ := h.inProgress hbusy
      have hlawful := h.lawful hop
      by_cases hblocks' : c.state.blocks clients q e'
      · -- the holder of a token lock can only wait for a permit
        cases e' with
        | acquirePermit => exact hreplica ▸ hpermit q hblocks'
        | acquireTokenLock id' =>
          rw [hlawful.2] at hlock
          cases hlock
        | _ => exact hblocks'.elim
      · exact ⟨q, e', k', hreplica, hop, hblocks'⟩
    | _ => exact hblocks.elim
  · exact ⟨p, e, k, rfl, hp, hblocks⟩

end

theorem sampleWaiting_blocked : ∃ k, (@sampleWaiting asciiText).procs (0, 1) = some (.op .acquirePermit k) ∧
    (@sampleWaiting asciiText).state.blocks (fun _ => sampleClient) (0, 1) .acquirePermit := ⟨_, rfl, le_refl 1⟩

theorem some_call_proceeds_sample :
    (@sampleWaiting asciiText).state.blocks (fun _ => sampleClient) (0, 1) .acquirePermit ∧
      ∃ q e k, q.1 = 0 ∧ (@sampleWaiting asciiText).procs q = some (.op e k) ∧
        ¬(@sampleWaiting asciiText).state.blocks (fun _ => sampleClient) q e := by
  obtain ⟨k, hop, hblocked⟩ := sampleWaiting_blocked
  exact ⟨hblocked, @some_call_proceeds asciiText asciiText_lawful _ _ _ (@sampleWaiting_requested asciiText) _ _ k hop⟩

end ExtraCodeowners
