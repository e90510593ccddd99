import ExtraCodeowners.Database
import ExtraCodeowners.Lib.Local

/-!
# The election of the reconciler

A named lease in a table elects one process. Each statement of its acquisition
is a step of its own, between which others may move; a clock only goes forward.
The cursors of an installation move for the holder of the lease only.
-/

namespace ExtraCodeowners

open System

/-! ## The table -/

structure ServiceLease where
  owner : Str
  lease_until : Time

def ServiceLease.renewable (lease : ServiceLease) (owner : Str) (now : Time) : Bool :=
  lease.owner = owner || lease.lease_until ≤ now

abbrev Leases := Dict Str ServiceLease

def Leases.isRenewable (leases : Leases) (name owner : Str) (now : Time) : Bool :=
  leases.any fun n lease => n = name && lease.renewable owner now

def Leases.renew (leases : Leases) (name owner : Str) (now lease_until : Time) : Leases :=
  leases.updateWhere (fun n lease => n = name && lease.renewable owner now) fun _ => ⟨owner, lease_until⟩

def Leases.release (leases : Leases) (name owner : Str) : Leases :=
  leases.deleteWhere fun n lease => n = name && lease.owner = owner

def Leases.isHeld (leases : Leases) (name owner : Str) (now : Time) : Bool :=
  leases.any fun n lease => n = name && lease.owner = owner && now < lease.lease_until

/-! ## Acquisition -/

inductive ElectionEffect where
  | utcnow
  | renew (name owner : Str) (now lease_until : Time)
  | existing (name : Str)
  | insert (name owner : Str) (lease_until : Time)
  | release (name owner : Str)
  | stopped
  | done

def ElectionEffect.Answer : ElectionEffect → Type
  | .utcnow => Time
  | .insert .. => Unit
  | _ => Bool

inductive ElectionExn where
  | integrity
  | database

abbrev Electing (α : Type) := Prog ElectionEffect ElectionEffect.Answer ElectionExn α

def statement (e : ElectionEffect) : Electing e.Answer := Prog.perform e

/-- One transaction: an update where the lease is free, or the first insert. -/
def acquisition (name owner : Str) (lease_seconds : Nat) : Electing Bool := do
  let now : Time ← statement .utcnow
  let renewed : Bool ← statement (.renew name owner now (now + seconds lease_seconds))
  if renewed then return true
  else
    let existing : Bool ← statement (.existing name)
    if existing then return false
    else
      let _ : Unit ← statement (.insert name owner (now + seconds lease_seconds))
      return true

/-- Contenders that lose the race for the first insert try again. -/
def acquireFrom (name owner : Str) (lease_seconds : Nat) : Nat → Electing Bool
  | 0 => return false
  | tries + 1 => (acquisition name owner lease_seconds).handle fun
    | .integrity => acquireFrom name owner lease_seconds tries
    | x => Prog.throw x

def acquireServiceLease (name owner : Str) (lease_seconds : Nat) : Electing Bool :=
  acquireFrom name owner lease_seconds 3

def RECONCILER_LEASE : Str := "open-pr-reconciler"

/-- The heartbeat. A renewal that fails or raises is a lost lease. -/
def renewUntilDone (owner : Str) (lease_seconds : Nat) : Nat → Electing PUnit
  | 0 => return ()
  | beats + 1 => do
    let done : Bool ← statement .done
    if done then return ()
    else (acquireServiceLease RECONCILER_LEASE owner lease_seconds).tryElse (fun _ => return ()) fun renewed =>
      if renewed then renewUntilDone owner lease_seconds beats else return ()

/-- What one attempt does to the lease; the scan beside the heartbeat leaves it alone. -/
def electReconciler (owner : Str) (lease_seconds beats : Nat) : Electing PUnit := do
  let stopped : Bool ← statement .stopped
  if stopped then return ()
  else
    let acquired : Bool ← acquireServiceLease RECONCILER_LEASE owner lease_seconds
    if acquired then
      let stopped : Bool ← statement .stopped
      if stopped then
        let _ : Bool ← statement (.release RECONCILER_LEASE owner)
        return ()
      else renewUntilDone owner lease_seconds beats
    else return ()

/-! ## The cursors -/

structure RepositoryCursors where
  repository_cursor : Str
  pull_cursor_repository : Str
  pull_cursor_number : Nat

/-! ## The system -/

/-- `believed` is until when the last acquisition that a process learned of lasts. -/
structure Election where
  clock : Time
  leases : Leases
  cursors : Nat → RepositoryCursors
  believed : Str → Str → Time

def Election.initial (clock : Time) : Election := ⟨clock, ∅, fun _ => ⟨[], [], 0⟩, fun _ _ => 0⟩

def Election.believes (s : Election) (p name : Str) (lease_until : Time) : Election :=
  { s with believed := Function.update s.believed p (Function.update (s.believed p) name lease_until) }

def Election.tabled (s : Election) (leases : Leases) : Election := { s with leases := leases }

/-- Both calls check the lease in the transaction that writes. -/
def Election.advancePull (s : Election) (installation_id : Nat) (full_name : Str) (number : Nat) (owner : Str) :
    Election :=
  if s.leases.isHeld RECONCILER_LEASE owner s.clock then
    { s with cursors := Function.update s.cursors installation_id { s.cursors installation_id with
      pull_cursor_repository := full_name.map Char.toLower
      pull_cursor_number := number } }
  else s

def Election.advanceRepository (s : Election) (installation_id : Nat) (full_name owner : Str) : Election :=
  if s.leases.isHeld RECONCILER_LEASE owner s.clock then
    { s with cursors := Function.update s.cursors installation_id ⟨full_name.map Char.toLower, [], 0⟩ }
  else s

/-- A statement may be committed, and its process never learn of it. -/
def elects (p : Str) (s : Election) : (e : ElectionEffect) → Except ElectionExn e.Answer → Election → Prop
  | .utcnow, .ok now, s' => now = s.clock ∧ s' = s
  | .renew name owner now lease_until, .ok renewed, s' =>
    renewed = s.leases.isRenewable name owner now ∧
      s' = if s.leases.isRenewable name owner now then
        (s.tabled (s.leases.renew name owner now lease_until)).believes p name lease_until
      else s
  | .renew name owner now lease_until, .error .database, s' =>
    s' = s ∨ s' = s.tabled (s.leases.renew name owner now lease_until)
  | .existing name, .ok found, s' => found = (s.leases.get? name).isSome ∧ s' = s
  | .insert name owner lease_until, .ok _, s' => s.leases.get? name = none ∧
      s' = (s.tabled (s.leases.set name ⟨owner, lease_until⟩)).believes p name lease_until
  | .insert name _ _, .error .integrity, s' => (s.leases.get? name).isSome ∧ s' = s
  | .insert name owner lease_until, .error .database, s' =>
    s' = s ∨ (s.leases.get? name = none ∧ s' = s.tabled (s.leases.set name ⟨owner, lease_until⟩))
  | .release name owner, .ok released, s' =>
    released = s.leases.any (fun n lease => n = name && lease.owner = owner) ∧
      s' = (s.tabled (s.leases.release name owner)).believes p name 0
  | .release name owner, .error .database, s' =>
    s' = s.believes p name 0 ∨ s' = (s.tabled (s.leases.release name owner)).believes p name 0
  | .stopped, .ok _, s' | .done, .ok _, s' => s' = s
  | _, .error .database, s' => s' = s
  | _, .error .integrity, _ => False

inductive Meanwhile (s : Election) : Election → Prop where
  | tick (clock : Time) : s.clock ≤ clock → Meanwhile s { s with clock := clock }
  | advancePull (installation_id : Nat) (full_name : Str) (number : Nat) (owner : Str) :
      Meanwhile s (s.advancePull installation_id full_name number owner)
  | advanceRepository (installation_id : Nat) (full_name owner : Str) :
      Meanwhile s (s.advanceRepository installation_id full_name owner)

def election (lease_seconds : Str → Nat) : System Str ElectionEffect ElectionEffect.Answer ElectionExn Election where
  perform := elects
  env := Meanwhile
  clear p s := { s with believed := Function.update s.believed p fun _ => 0 }
  programs p prog := ∃ beats, prog = electReconciler p (lease_seconds p) beats

/-! ## What a statement does -/

inductive Elected (p : Str) (s : Election) : ElectionEffect → Election → Prop where
  | idle (e : ElectionEffect) : Elected p s e s
  | renewed (name owner : Str) (now lease_until : Time) : s.leases.isRenewable name owner now = true →
      Elected p s (.renew name owner now lease_until)
        ((s.tabled (s.leases.renew name owner now lease_until)).believes p name lease_until)
  | renewedUnseen (name owner : Str) (now lease_until : Time) :
      Elected p s (.renew name owner now lease_until) (s.tabled (s.leases.renew name owner now lease_until))
  | inserted (name owner : Str) (lease_until : Time) : s.leases.get? name = none →
      Elected p s (.insert name owner lease_until)
        ((s.tabled (s.leases.set name ⟨owner, lease_until⟩)).believes p name lease_until)
  | insertedUnseen (name owner : Str) (lease_until : Time) : s.leases.get? name = none →
      Elected p s (.insert name owner lease_until) (s.tabled (s.leases.set name ⟨owner, lease_until⟩))
  | released (name owner : Str) :
      Elected p s (.release name owner) ((s.tabled (s.leases.release name owner)).believes p name 0)
  | disowned (name owner : Str) : Elected p s (.release name owner) (s.believes p name 0)

theorem elected_of_elects {p : Str} {s s' : Election} {e : ElectionEffect} {a : Except ElectionExn e.Answer}
    (h : elects p s e a s') : Elected p s e s' := by
  cases a with
  | ok a =>
    cases e with
    | renew name owner now lease_until =>
      obtain ⟨-, rfl⟩ := h
      split
      · exact .renewed _ _ _ _ ‹_›
      · exact .idle _
    | insert name owner lease_until =>
      obtain ⟨hnone, rfl⟩ := h
      exact .inserted _ _ _ hnone
    | release name owner =>
      obtain ⟨-, rfl⟩ := h
      exact .released _ _
    | utcnow | existing name =>
      obtain ⟨-, rfl⟩ := h
      exact .idle _
    | stopped | done =>
      cases h
      exact .idle _
  | error x =>
    cases x with
    | database =>
      cases e with
      | renew name owner now lease_until =>
        rcases h with rfl | rfl
        · exact .idle _
        · exact .renewedUnseen _ _ _ _
      | insert name owner lease_until =>
        rcases h with rfl | ⟨hnone, rfl⟩
        · exact .idle _
        · exact .insertedUnseen _ _ _ hnone
      | release name owner =>
        rcases h with rfl | rfl
        · exact .disowned _ _
        · exact .released _ _
      | _ =>
        cases h
        exact .idle _
    | integrity =>
      cases e with
      | insert name owner lease_until =>
        obtain ⟨-, rfl⟩ := h
        exact .idle _
      | _ => cases h

/-! ## What a belief stands for -/

/-- The table has a lease for every belief that has not run out. -/
def Backed (s : Election) (leases : Leases) : Prop :=
  ∀ p name, s.clock < s.believed p name →
    ∃ lease, leases.get? name = some lease ∧ lease.owner = p ∧ s.believed p name ≤ lease.lease_until

section
variable (lease_seconds : Str → Nat)

structure Election.Inv (s : Election) : Prop where
  backed : Backed s s.leases
  bounded : ∀ p name, s.believed p name ≤ s.clock + seconds (lease_seconds p)

def electionGuarantee (p : Str) (s : Election) : ElectionEffect → Prop
  | .renew name owner now lease_until => owner = p ∧ now ≤ s.clock ∧ s.believed p name ≤ lease_until ∧
      lease_until ≤ s.clock + seconds (lease_seconds p)
  | .insert _ owner lease_until => owner = p ∧ lease_until ≤ s.clock + seconds (lease_seconds p)
  | .release _ owner => owner = p
  | _ => True

end

/-! ## One step -/

section
variable {leases : Leases} {name name' owner : Str} {now until' : Time}

theorem get?_renew : (leases.renew name owner now until').get? name' =
    (leases.get? name').map fun lease =>
      if name' = name ∧ lease.renewable owner now = true then ⟨owner, until'⟩ else lease := by
  rw [Leases.renew, Dict.get?_updateWhere]
  simp only [Bool.and_eq_true, decide_eq_true_eq]

theorem isRenewable_iff : leases.isRenewable name owner now = true ↔
    ∃ lease, leases.get? name = some lease ∧ lease.renewable owner now = true := by
  rw [Leases.isRenewable, Dict.any_eq_true]
  constructor
  · intro ⟨n, lease, hlease, hp⟩
    simp only [Bool.and_eq_true, decide_eq_true_eq] at hp
    obtain ⟨rfl, hp⟩ := hp
    exact ⟨lease, hlease, hp⟩
  · intro ⟨lease, hlease, hp⟩
    exact ⟨name, lease, hlease, by simp [hp]⟩

theorem get?_release : (leases.release name owner).get? name' =
    (leases.get? name').filter fun lease => !(name' = name && lease.owner = owner) := by
  rw [Leases.release, Dict.get?_deleteWhere]

theorem believed_believes (s : Election) (p q : Str) (lease_until : Time) :
    (s.believes p name lease_until).believed q name' =
      if q = p ∧ name' = name then lease_until else s.believed q name' := by
  unfold Election.believes
  by_cases hq : q = p
  · subst hq
    by_cases hn : name' = name
    · subst hn
      simp
    · simp [hn]
  · simp [hq]

end

section
variable {lease_seconds : Str → Nat} {s s' : Election} {p name : Str} {now lease_until : Time}

theorem Backed.renew (h : Backed s s.leases) (hnow : now ≤ s.clock) (hle : s.believed p name ≤ lease_until) :
    Backed s (s.leases.renew name p now lease_until) := by
  intro q name' hb
  obtain ⟨lease, hlease, howner, hbelieved⟩ := h q name' hb
  rw [get?_renew, hlease, Option.map_some]
  by_cases hc : name' = name ∧ lease.renewable p now = true
  · rw [if_pos hc]
    obtain ⟨rfl, hr⟩ := hc
    simp only [ServiceLease.renewable, Bool.or_eq_true, decide_eq_true_eq] at hr
    rcases hr with hmine | hrun
    · have hq : p = q := hmine.symm.trans howner
      subst hq
      exact ⟨_, rfl, rfl, hle⟩
    · exact absurd (hbelieved.trans (hrun.trans hnow)) (not_le.mpr hb)
  · rw [if_neg hc]
    exact ⟨lease, rfl, howner, hbelieved⟩

theorem Backed.insert (h : Backed s s.leases) (hnone : s.leases.get? name = none) :
    Backed s (s.leases.set name ⟨p, lease_until⟩) := by
  intro q name' hb
  obtain ⟨lease, hlease, hrest⟩ := h q name' hb
  by_cases hn : name' = name
  · subst hn
    rw [hnone] at hlease
    cases hlease
  · exact ⟨lease, (Dict.get?_set_ne _ _ hn).trans hlease, hrest⟩

theorem Backed.release (h : Backed s s.leases) {t : Election} (ht : t = s.believes p name 0) :
    Backed t (s.leases.release name p) := by
  subst ht
  intro q name' hb
  rw [believed_believes] at hb ⊢
  by_cases hc : q = p ∧ name' = name
  · rw [if_pos hc] at hb
    exact absurd hb (Nat.not_lt_zero _)
  · rw [if_neg hc] at hb ⊢
    obtain ⟨lease, hlease, howner, hbelieved⟩ := h q name' hb
    refine ⟨lease, ?_, howner, hbelieved⟩
    rw [get?_release, hlease]
    have hkeep : ¬(name' = name ∧ lease.owner = p) := fun hm => hc ⟨howner.symm.trans hm.2, hm.1⟩
    simpa [Option.filter] using hkeep

theorem Backed.believes {leases : Leases} (h : Backed s leases) (hlease : leases.get? name = some ⟨p, lease_until⟩) :
    Backed ((s.tabled leases).believes p name lease_until) leases := by
  intro q name' hb
  rw [believed_believes] at hb ⊢
  by_cases hc : q = p ∧ name' = name
  · obtain ⟨rfl, rfl⟩ := hc
    rw [if_pos ⟨rfl, rfl⟩]
    exact ⟨_, hlease, rfl, le_refl _⟩
  · rw [if_neg hc] at hb ⊢
    exact h q name' hb

theorem Backed.disowns {leases : Leases} (h : Backed s leases) : Backed (s.believes p name 0) leases := by
  intro q name' hb
  rw [believed_believes] at hb ⊢
  by_cases hc : q = p ∧ name' = name
  · rw [if_pos hc] at hb
    exact absurd hb (Nat.not_lt_zero _)
  · rw [if_neg hc] at hb ⊢
    exact h q name' hb

theorem Election.Inv.believes (h : s.Inv lease_seconds) {leases : Leases}
    (hb : Backed (s.believes p name lease_until) leases) (hle : lease_until ≤ s.clock + seconds (lease_seconds p)) :
    ((s.tabled leases).believes p name lease_until).Inv lease_seconds := by
  refine ⟨hb, fun q name' => ?_⟩
  rw [believed_believes]
  by_cases hc : q = p ∧ name' = name
  · rw [if_pos hc, hc.1]
    exact hle
  · rw [if_neg hc]
    exact h.bounded q name'

theorem Election.Inv.tabled (h : s.Inv lease_seconds) {leases : Leases} (hb : Backed s leases) :
    (s.tabled leases).Inv lease_seconds := ⟨hb, h.bounded⟩

theorem Election.Inv.perform (h : s.Inv lease_seconds) {e : ElectionEffect} (hg : electionGuarantee lease_seconds p s e)
    (he : Elected p s e s') : s'.Inv lease_seconds := by
  cases he with
  | idle => exact h
  | renewed name owner now lease_until hr =>
    obtain ⟨rfl, hnow, hle, hbound⟩ := hg
    obtain ⟨lease, hlease, hfree⟩ := isRenewable_iff.mp hr
    refine h.believes ((h.backed.renew hnow hle).believes ?_) hbound
    rw [get?_renew, hlease, Option.map_some, if_pos ⟨rfl, hfree⟩]
  | renewedUnseen name owner now lease_until =>
    obtain ⟨rfl, hnow, hle, -⟩ := hg
    exact h.tabled (h.backed.renew hnow hle)
  | inserted name owner lease_until hnone =>
    obtain ⟨rfl, hbound⟩ := hg
    exact h.believes ((h.backed.insert hnone).believes (Dict.get?_set_self ..)) hbound
  | insertedUnseen name owner lease_until hnone => exact h.tabled (h.backed.insert hnone)
  | released name owner =>
    obtain rfl : owner = p := hg
    exact h.believes (h.backed.release rfl) (Nat.zero_le _)
  | disowned name owner => exact h.believes h.backed.disowns (Nat.zero_le _)

theorem Election.Inv.env (h : s.Inv lease_seconds) (he : Meanwhile s s') : s'.Inv lease_seconds := by
  cases he with
  | tick clock hle =>
    refine ⟨fun q name hb => h.backed q name (lt_of_le_of_lt hle hb), fun q name => ?_⟩
    exact (h.bounded q name).trans (Nat.add_le_add_right hle _)
  | advancePull =>
    unfold Election.advancePull
    split
    · exact ⟨h.backed, h.bounded⟩
    · exact h
  | advanceRepository =>
    unfold Election.advanceRepository
    split
    · exact ⟨h.backed, h.bounded⟩
    · exact h

theorem Election.Inv.clear (h : s.Inv lease_seconds) : ((election lease_seconds).clear p s).Inv lease_seconds := by
  have hbelieved : ∀ q name, ((election lease_seconds).clear p s).believed q name =
      if q = p then 0 else s.believed q name := by
    intro q name
    show Function.update s.believed p (fun _ => 0) q name = _
    by_cases hq : q = p
    · subst hq
      simp
    · simp [hq]
  refine ⟨fun q name hb => ?_, fun q name => ?_⟩
  · rw [hbelieved] at hb ⊢
    by_cases hq : q = p
    · rw [if_pos hq] at hb
      exact absurd hb (Nat.not_lt_zero _)
    · rw [if_neg hq] at hb ⊢
      exact h.backed q name hb
  · rw [hbelieved]
    by_cases hq : q = p
    · rw [if_pos hq]
      exact Nat.zero_le _
    · rw [if_neg hq]
      exact h.bounded q name

end

/-! ## The programs -/

structure Clocked (lease_seconds : Str → Nat) (p : Str) (now : Time) (s : Election) : Prop where
  past : now ≤ s.clock
  bounded : ∀ name, s.believed p name ≤ now + seconds (lease_seconds p)

theorem Elected.clock {s s' : Election} {q : Str} {e : ElectionEffect} (h : Elected q s e s') :
    s'.clock = s.clock := by
  cases h <;> rfl

theorem Elected.believed {s s' : Election} {p q : Str} {e : ElectionEffect} (h : Elected q s e s') (hq : p ≠ q) :
    s'.believed p = s.believed p := by
  cases h with
  | idle | renewedUnseen | insertedUnseen => rfl
  | _ => exact Function.update_of_ne hq _ _

section
variable {lease_seconds : Str → Nat} {p : Str}

abbrev Elects (lease_seconds : Str → Nat) (p : Str) {α : Type} (K : Election → Prop) (prog : Electing α)
    (Q : α → Election → Prop) : Prop :=
  Triple (election lease_seconds) (Election.Inv lease_seconds) (electionGuarantee lease_seconds) p K prog Q
    fun _ _ => True

theorem Clocked.stable (now : Time) : Stable (election lease_seconds) (Election.Inv lease_seconds)
    (electionGuarantee lease_seconds) p (Clocked lease_seconds p now) := by
  intro s s' _ hs hr
  obtain ⟨-, -, ⟨q, e, a, hq, -, hp⟩ | ⟨q, hq, rfl⟩ | he⟩ := hr
  · have helected := elected_of_elects hp
    refine ⟨helected.clock ▸ hs.past, fun name => ?_⟩
    rw [helected.believed (Ne.symm hq)]
    exact hs.bounded name
  · refine ⟨hs.past, fun name => ?_⟩
    show Function.update s.believed q (fun _ => 0) p name ≤ _
    rw [Function.update_of_ne (Ne.symm hq)]
    exact hs.bounded name
  · cases he with
    | tick clock hle => exact ⟨hs.past.trans hle, hs.bounded⟩
    | advancePull =>
      unfold Election.advancePull
      split
      · exact ⟨hs.past, hs.bounded⟩
      · exact hs
    | advanceRepository =>
      unfold Election.advanceRepository
      split
      · exact ⟨hs.past, hs.bounded⟩
      · exact hs

theorem elects_statement {e : ElectionEffect} (hg : ∀ s, electionGuarantee lease_seconds p s e) :
    Elects lease_seconds p (fun _ => True) (statement e) fun _ _ => True :=
  Triple.perform (Stable.const True) (fun s _ _ => hg s) (fun _ _ _ _ _ _ _ => trivial)
    fun _ _ _ _ _ _ _ => trivial

theorem acquisition_elects (name : Str) :
    Elects lease_seconds p (fun _ => True) (acquisition name p (lease_seconds p)) fun _ _ => True := by
  have hread : Elects lease_seconds p (fun _ => True) (statement .utcnow)
      fun (now : Time) s => Clocked lease_seconds p now s := by
    refine Triple.perform (Stable.const True) (fun _ _ _ => trivial) (fun s now s' hI _ hp hI' => ?_)
      fun _ _ _ _ _ _ _ => trivial
    obtain ⟨hnow, rfl⟩ := hp
    subst hnow
    exact ⟨le_refl _, hI.bounded p⟩
  refine hread.bind fun (now : Time) => ?_
  have hrenew : Elects lease_seconds p (Clocked lease_seconds p now)
      (statement (.renew name p now (now + seconds (lease_seconds p))))
      fun (renewed : Bool) s => renewed = false → Clocked lease_seconds p now s := by
    refine Triple.perform (Clocked.stable now) (fun s _ hs => ?_) (fun s renewed s' _ hs hp _ hr => ?_)
      fun _ _ _ _ _ _ _ => trivial
    · exact ⟨rfl, hs.past, hs.bounded name, Nat.add_le_add_right hs.past _⟩
    · obtain ⟨hanswer, rfl⟩ := hp
      rw [if_neg (by rw [← hanswer, hr]; exact Bool.false_ne_true)]
      exact hs
  refine hrenew.bind fun (renewed : Bool) => Triple.ite (fun _ => Triple.pure fun _ _ _ => trivial) fun hr => ?_
  have hfound : Elects lease_seconds p (fun s => renewed = false → Clocked lease_seconds p now s)
      (statement (.existing name)) fun _ s => Clocked lease_seconds p now s := by
    have hr : renewed = false := by simpa using hr
    have hstable : Stable (election lease_seconds) (Election.Inv lease_seconds) (electionGuarantee lease_seconds) p
        fun s => renewed = false → Clocked lease_seconds p now s :=
      fun s s' hI hs hrely _ => Clocked.stable now s s' hI (hs hr) hrely
    refine Triple.perform hstable (fun _ _ _ => trivial) (fun s found s' _ hs hp _ => ?_)
      fun _ _ _ _ _ _ _ => trivial
    obtain ⟨-, rfl⟩ := hp
    exact hs hr
  refine hfound.bind fun (found : Bool) => Triple.ite (fun _ => Triple.pure fun _ _ _ => trivial) fun _ => ?_
  have hinsert : Elects lease_seconds p (Clocked lease_seconds p now)
      (statement (.insert name p (now + seconds (lease_seconds p)))) fun _ _ => True :=
    Triple.perform (Clocked.stable now) (fun s _ hs => ⟨rfl, Nat.add_le_add_right hs.past _⟩)
      (fun _ _ _ _ _ _ _ => trivial) fun _ _ _ _ _ _ _ => trivial
  exact hinsert.bind fun _ => Triple.pure fun _ _ _ => trivial

theorem acquireFrom_elects (name : Str) : ∀ tries,
    Elects lease_seconds p (fun _ => True) (acquireFrom name p (lease_seconds p) tries) fun _ _ => True
  | 0 => Triple.pure fun _ _ _ => trivial
  | tries + 1 => by
    refine (acquisition_elects name).handle fun x => ?_
    cases x with
    | integrity => exact acquireFrom_elects name tries
    | database => exact Triple.throw fun _ _ _ => trivial

theorem renewUntilDone_elects : ∀ beats,
    Elects lease_seconds p (fun _ => True) (renewUntilDone p (lease_seconds p) beats) fun _ _ => True
  | 0 => Triple.pure fun _ _ _ => trivial
  | beats + 1 => by
    refine (elects_statement (e := .done) fun _ => trivial).bind fun (done : Bool) => ?_
    refine Triple.ite (fun _ => Triple.pure fun _ _ _ => trivial) fun _ => ?_
    refine (acquireFrom_elects RECONCILER_LEASE 3).tryElse (fun renewed => ?_)
      fun _ => Triple.pure fun _ _ _ => trivial
    exact Triple.ite (fun _ => renewUntilDone_elects beats) fun _ => Triple.pure fun _ _ _ => trivial

theorem electReconciler_elects (beats : Nat) :
    Elects lease_seconds p (fun _ => True) (electReconciler p (lease_seconds p) beats) fun _ _ => True := by
  refine (elects_statement (e := .stopped) fun _ => trivial).bind fun (stopped : Bool) => ?_
  refine Triple.ite (fun _ => Triple.pure fun _ _ _ => trivial) fun _ => ?_
  refine (acquireFrom_elects RECONCILER_LEASE 3).bind fun acquired => ?_
  refine Triple.ite (fun _ => ?_) fun _ => Triple.pure fun _ _ _ => trivial
  refine (elects_statement (e := .stopped) fun _ => trivial).bind fun (stopped : Bool) => ?_
  refine Triple.ite (fun _ => ?_) fun _ => renewUntilDone_elects beats
  exact (elects_statement (e := .release RECONCILER_LEASE p) fun _ => rfl).bind
    fun _ => Triple.pure fun _ _ _ => trivial

/-! ## Every run -/

theorem election_sound : (election lease_seconds).Sound (Election.Inv lease_seconds)
    (electionGuarantee lease_seconds) where
  perform hI hg hp := hI.perform hg (elected_of_elects hp)
  env hI he := hI.env he
  clear hI := hI.clear
  start hprog hI := by
    obtain ⟨beats, rfl⟩ := hprog
    refine wp_mono (fun _ _ _ _ => trivial) hI.clear (electReconciler_elects beats _ hI.clear trivial)

theorem Election.Inv.initial (clock : Time) : (Election.initial clock).Inv lease_seconds := by
  refine ⟨fun q name hb => ?_, fun _ _ => Nat.zero_le _⟩
  exact absurd hb (Nat.not_lt_zero _)

abbrev ElectionReached (lease_seconds : Str → Nat) (clock : Time)
    (c : Config Str ElectionEffect ElectionEffect.Answer ElectionExn Election) : Prop :=
  (election lease_seconds).Run (idle (Election.initial clock)) c

variable {clock : Time} {c : Config Str ElectionEffect ElectionEffect.Answer ElectionExn Election}

theorem ElectionReached.backed (h : ElectionReached lease_seconds clock c) : Backed c.state c.state.leases :=
  (Run.inv election_sound (.initial clock) h).backed

/-- No two processes may rely on their acquisitions of one lease at one time. -/
theorem election_is_exclusive (h : ElectionReached lease_seconds clock c) {p q name : Str}
    (hp : c.state.clock < c.state.believed p name) (hq : c.state.clock < c.state.believed q name) : p = q := by
  obtain ⟨lease, hlease, howner, -⟩ := h.backed p name hp
  obtain ⟨lease', hlease', howner', -⟩ := h.backed q name hq
  cases hlease.symm.trans hlease'
  exact howner.symm.trans howner'

/-- While a process may rely on its election, no other one moves a cursor. -/
theorem cursors_are_fenced (h : ElectionReached lease_seconds clock c) {p q : Str} (hne : p ≠ q)
    (hq : c.state.clock < c.state.believed q RECONCILER_LEASE) (installation_id : Nat) (full_name : Str)
    (number : Nat) :
    c.state.advancePull installation_id full_name number p = c.state ∧
      c.state.advanceRepository installation_id full_name p = c.state := by
  have hfree : c.state.leases.isHeld RECONCILER_LEASE p c.state.clock = false := by
    refine Dict.any_eq_false.mpr fun name lease hlease => ?_
    obtain ⟨lease', hlease', howner, -⟩ := h.backed q RECONCILER_LEASE hq
    by_cases hn : name = RECONCILER_LEASE
    · subst hn
      cases hlease.symm.trans hlease'
      have hother : lease.owner ≠ p := fun hm => hne (hm.symm.trans howner)
      simp [hother]
    · simp [hn]
  have hnot : ¬c.state.leases.isHeld RECONCILER_LEASE p c.state.clock = true := by
    rw [hfree]
    exact Bool.false_ne_true
  exact ⟨if_neg hnot, if_neg hnot⟩

end

/-! ## An election -/

def Election.answer (p : Str) (s : Election) : (e : ElectionEffect) → Option (Except ElectionExn e.Answer × Election)
  | .utcnow => some (.ok s.clock, s)
  | .renew name owner now lease_until =>
    some (.ok (s.leases.isRenewable name owner now), if s.leases.isRenewable name owner now then
      (s.tabled (s.leases.renew name owner now lease_until)).believes p name lease_until else s)
  | .existing name => some (.ok (s.leases.get? name).isSome, s)
  | .insert name owner lease_until =>
    if (s.leases.get? name).isNone then
      some (.ok (), (s.tabled (s.leases.set name ⟨owner, lease_until⟩)).believes p name lease_until)
    else none
  | .release name owner => some (.ok (s.leases.any fun n lease => n = name && lease.owner = owner),
      (s.tabled (s.leases.release name owner)).believes p name 0)
  | .stopped => some (.ok false, s)
  | .done => some (.ok true, s)

theorem Election.answer_elects {p : Str} {s s' : Election} {e : ElectionEffect} {a : Except ElectionExn e.Answer}
    (h : s.answer p e = some (a, s')) : elects p s e a s' := by
  cases e with
  | insert name owner lease_until =>
    obtain ⟨hnone, ha⟩ := Option.ite_none_right_eq_some.mp h
    cases ha
    exact ⟨Option.isNone_iff_eq_none.mp hnone, rfl⟩
  | stopped | done =>
    cases h
    rfl
  | _ =>
    cases h
    exact ⟨rfl, rfl⟩

def sampleElector : Str := "a"

def sampleElection : Election :=
  (((Election.initial 5).tabled ((∅ : Leases).set RECONCILER_LEASE ⟨sampleElector, 5 + seconds 300⟩)).believes
    sampleElector RECONCILER_LEASE (5 + seconds 300))

theorem sampleElection_reached : ElectionReached (fun _ => 300) 5
    ⟨Function.update (fun _ => none) sampleElector (some (.ret (.ok ⟨⟩))), sampleElection⟩ := by
  have hstart : ElectionReached (fun _ => 300) 5
      ⟨Function.update (fun _ => none) sampleElector (some (electReconciler sampleElector 300 1)),
        Election.initial 5⟩ := by
    have hstep := Step.start (S := election fun _ => 300) sampleElector (fun _ => none) (Election.initial 5)
      (electReconciler sampleElector 300 1) rfl ⟨1, rfl⟩
    have hclear : (election fun _ => 300).clear sampleElector (Election.initial 5) = Election.initial 5 := by
      have hnobody : Function.update (Election.initial 5).believed sampleElector (fun _ => 0) =
          (Election.initial 5).believed := Function.update_eq_self_iff.mpr rfl
      show Election.mk _ _ _ (Function.update (Election.initial 5).believed sampleElector fun _ => 0) = _
      rw [hnobody]
    rw [hclear] at hstep
    exact .single hstep
  have hexec : (electReconciler sampleElector 300 1).exec (Election.answer sampleElector) (Election.initial 5) =
      some (.ok ⟨⟩, sampleElection) := by
    rfl
  have hanswer : ∀ s e a s', Election.answer sampleElector s e = some (a, s') →
      (election fun _ => 300).perform sampleElector s e a s' := fun _ _ _ _ => Election.answer_elects
  have hrun := run_of_eval (Prog.exec_eval hanswer hexec) (Function.update (fun _ => none) sampleElector
    (some (electReconciler sampleElector 300 1))) (Function.update_self ..)
  rw [Function.update_idem] at hrun
  exact hstart.trans hrun

theorem election_is_exclusive_sample :
    sampleElection.clock < sampleElection.believed sampleElector RECONCILER_LEASE ∧ sampleElector = ("a" : Str) :=
  have hbelieves : sampleElection.clock < sampleElection.believed sampleElector RECONCILER_LEASE := by decide
  ⟨hbelieves, election_is_exclusive sampleElection_reached hbelieves hbelieves⟩

theorem cursors_are_fenced_sample :
    sampleElection.advancePull 1 "o/r" 7 ("b" : Str) = sampleElection ∧
      sampleElection.advanceRepository 1 "o/r" ("b" : Str) = sampleElection :=
  cursors_are_fenced sampleElection_reached (q := sampleElector) (by decide) (by decide) 1 "o/r" 7

end ExtraCodeowners
