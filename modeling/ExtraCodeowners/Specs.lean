import ExtraCodeowners.Traces

/-!
# Specifications over traces

A specification of a program relates the trace it starts from to the trace and
the result it ends with. One rule for each effect, and one for each guard.
-/

namespace ExtraCodeowners

open System

/-- A program among tasks whose steps are in `R`. -/
abbrev Spec (R : Trace → Trace → Prop) (I : Trace → Prop) (G : Trace → Effect → Prop) {α : Type}
    (K : Trace → Prop) (prog : Program α) (Q : α → Trace → Prop) (F : Exn → Trace → Prop) : Prop :=
  Triple (amid observes R) I (fun _ => G) ⟨⟩ K prog Q F

/-- No task besides. -/
def nobody (_ _ : Trace) : Prop := False

theorem nobody_keeps (K : Trace → Prop) : ∀ τ τ', nobody τ τ' → K τ → K τ' := fun _ _ h => h.elim

section
variable {R : Trace → Trace → Prop} {I : Trace → Prop} {G : Trace → Effect → Prop} {α : Type}
  {K : Trace → Prop} {F : Exn → Trace → Prop}

/-- An effect, from an assertion that the other tasks keep. -/
theorem Spec.effect {e : Effect} {Q : e.Answer → Trace → Prop} (hK : ∀ τ τ', R τ τ' → K τ → K τ')
    (hG : ∀ τ, I τ → K τ → G τ e)
    (hok : ∀ τ db g i a, I τ → K τ → told τ db g i e (.ok a) → Q a (⟨db, g, i, e, .ok a⟩ :: τ))
    (herr : ∀ τ db g i x, x.isExternal = true → I τ → K τ → F x (⟨db, g, i, e, .error x⟩ :: τ)) :
    Spec R I G K (Prog.perform e) Q F := by
  refine Triple.perform (amid_stable hK) hG ?_ ?_
  · rintro τ a _ hI hs ⟨-, db, g, i, htold, rfl⟩ -
    exact hok τ db g i a hI hs htold
  · rintro τ x _ hI hs ⟨hx, db, g, i, htold, rfl⟩ -
    exact herr τ db g i x (hx.external x rfl) hI hs

end

/-! ## One task -/

section
variable {I : Trace → Prop} {G : Trace → Effect → Prop} {α : Type} {K : Trace → Prop}
  {F : Exn → Trace → Prop}

/-- What a program guarantees of its effects, its assertions may rely on. -/
theorem Spec.frame {L : Trace → Prop} {prog : Program α} {Q : α → Trace → Prop}
    (h : Spec nobody I G K prog Q F)
    (hL : ∀ (event : Event) τ, I τ → G τ event.effect → L τ → L (event :: τ)) :
    Spec nobody I G (fun τ => K τ ∧ L τ) prog (fun a τ => Q a τ ∧ L τ) (fun x τ => F x τ ∧ L τ) := by
  rintro τ hI ⟨hK, hl⟩
  have hwp := h τ hI hK
  clear h hK
  induction prog generalizing τ with
  | ret r =>
    cases r with
    | ok a => exact ⟨hwp, hl⟩
    | error x => exact ⟨hwp, hl⟩
  | op e k ih =>
    intro τ' hr hI'
    obtain ⟨hG, hk⟩ := hwp τ' hr hI'
    have hs : Stable (amid observes nobody) I (fun _ => G) ⟨⟩ L := amid_stable (nobody_keeps L)
    have hl' := hs.trans hl hr
    refine ⟨hG, fun a τ'' hp hI'' => ?_⟩
    have hp' := hp
    obtain ⟨-, db, g, i, -, rfl⟩ := hp'
    exact ih a _ hI'' (hL ⟨db, g, i, e, a⟩ τ' hI' hG hl') (hk a _ hp hI'')

end

/-! ## Events of a trace -/

/-- An event that met a condition on it and on its past, and what came after it. -/
def Once (keeps : Event → Bool) (P : Event → Trace → Prop) (τ : Trace) : Prop :=
  ∃ l event older, τ = l ++ event :: older ∧ (∀ e ∈ l, keeps e = true) ∧ P event older

section
variable {keeps keeps' : Event → Bool} {P P' : Event → Trace → Prop} {τ : Trace} {event : Event}

theorem Once.here (h : P event τ) : Once keeps P (event :: τ) :=
  ⟨[], event, τ, rfl, fun _ he => absurd he List.not_mem_nil, h⟩

theorem Once.later (hk : keeps event = true) (h : Once keeps P τ) : Once keeps P (event :: τ) := by
  obtain ⟨l, e, older, rfl, hl, hP⟩ := h
  refine ⟨event :: l, e, older, rfl, ?_, hP⟩
  intro e' he'
  rcases List.mem_cons.mp he' with rfl | he'
  · exact hk
  · exact hl e' he'

theorem Once.imp (hP : ∀ e past, P e past → P' e past) (h : Once keeps P τ) : Once keeps P' τ := by
  obtain ⟨l, e, older, rfl, hl, hp⟩ := h
  exact ⟨l, e, older, rfl, hl, hP e older hp⟩

theorem Once.keeping (hk : ∀ e, keeps e = true → keeps' e = true) (h : Once keeps P τ) :
    Once keeps' P τ := by
  obtain ⟨l, e, older, rfl, hl, hp⟩ := h
  exact ⟨l, e, older, rfl, fun e he => hk e (hl e he), hp⟩

theorem once_cons (h : Once keeps P (event :: τ)) : P event τ ∨ (keeps event = true ∧ Once keeps P τ) := by
  obtain ⟨l, e, older, hτ, hl, hp⟩ := h
  cases l with
  | nil =>
    cases hτ
    exact Or.inl hp
  | cons e' l =>
    cases hτ
    exact Or.inr ⟨hl _ List.mem_cons_self, l, e, older, rfl, fun x hx => hl x (List.mem_cons_of_mem _ hx), hp⟩

end

/-- It happened, whatever came after it. -/
abbrev Happened (P : Event → Trace → Prop) (τ : Trace) : Prop := Once (fun _ => true) P τ

def Event.Asked (event : Event) (q : Query) (a : q.Answer) : Prop :=
  ∃ db g i, event = ⟨db, g, i, .query q, .ok a⟩

def Event.Called (event : Event) (c : Call) (a : c.Answer) : Prop :=
  ∃ db g i, event = ⟨db, g, i, .call c, .ok a⟩

def Event.Read (event : Event) (r : GitHubRead) (a : r.Answer) : Prop :=
  ∃ db g i, event = ⟨db, g, i, .read r, .ok a⟩

def Event.Wrote (event : Event) (w : CheckWrite) : Prop :=
  ∃ db g i, event = ⟨db, g, i, .write w, .ok ()⟩

end ExtraCodeowners
