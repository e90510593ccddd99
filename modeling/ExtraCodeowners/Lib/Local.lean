import ExtraCodeowners.Lib.Prog
import Mathlib.Data.List.Forall2

/-!
# Local reasoning

What a process may do is often decided by what it did itself. A view of a
process is a part of the state that only its own operations change: its
programs are then verified alone, and their guarantees hold in every run.
Tasks that a process gathers are verified one by one, beside arbitrary others.
-/

universe u v w x y

namespace System

section
variable {P : Type u} {E : Type u} {A : E → Type v} {X : Type w} {σ : Type x} {α β : Type v}

/-- A process among tasks whose steps are in a relation. -/
def amid (act : σ → (e : E) → Except X (A e) → σ → Prop) (R : σ → σ → Prop) : System PUnit E A X σ where
  perform _ := act
  env := R
  clear _ s := s
  programs _ _ := False

variable {act : σ → (e : E) → Except X (A e) → σ → Prop} {R : σ → σ → Prop} {I : σ → Prop} {G : σ → E → Prop}

theorem amid_rely {s s' : σ} (h : Rely (amid act R) I (fun _ => G) ⟨⟩ s s') : R s s' := by
  obtain ⟨-, -, ⟨q, -, -, hq, -⟩ | ⟨q, hq, -⟩ | he⟩ := h
  · exact absurd rfl hq
  · exact absurd rfl hq
  · exact he

theorem amid_stable {K : σ → Prop} (hK : ∀ s s', R s s' → K s → K s') :
    Stable (amid act R) I (fun _ => G) ⟨⟩ K :=
  fun s s' _ h hr => hK s s' (amid_rely hr) h

/-- What holds among tasks holds alone. -/
theorem alone_of_amid {Q : Except X α → σ → Prop} : ∀ {prog : Prog E A X α} {s : σ},
    wp (amid act R) I (fun _ => G) ⟨⟩ prog Q s → wp (alone act) I (fun _ => G) ⟨⟩ prog Q s
  | .ret r, s, h => h
  | .op e k, s, h => by
    intro s' hr hI
    have hs : s = s' := by
      induction hr with
      | refl => rfl
      | @tail t t' _ hstep ih =>
        obtain ⟨-, -, ⟨q, -, -, hq, -⟩ | ⟨q, hq, -⟩ | he⟩ := hstep
        · exact absurd rfl hq
        · exact absurd rfl hq
        · cases he
    subst hs
    obtain ⟨hG, hk⟩ := h s .refl hI
    exact ⟨hG, fun a s'' hp hI'' => alone_of_amid (hk a s'' hp hI'')⟩

/-- A weaker guarantee is guaranteed too. -/
theorem wp_guarantee {H : σ → E → Prop} (hG : ∀ s e, I s → G s e → H s e) {Q : Except X α → σ → Prop} :
    ∀ {prog : Prog E A X α} {s : σ}, wp (alone act) I (fun _ => G) ⟨⟩ prog Q s →
      wp (alone act) I (fun _ => H) ⟨⟩ prog Q s
  | .ret r, s, h => h
  | .op e k, s, h => by
    intro s' hr hI
    have hstable : Stable (alone act) I (fun _ => H) ⟨⟩ fun t => t = s := alone_stable _
    have hs : s' = s := hstable.trans rfl hr
    subst hs
    obtain ⟨hg, hk⟩ := h s' .refl hI
    exact ⟨hG s' e hI hg, fun a s'' hp hI'' => wp_guarantee hG (hk a s'' hp hI'')⟩

/-- What two verifications of a program guarantee, it guarantees together. -/
theorem wp_and {H : σ → E → Prop} {Q Q' : Except X α → σ → Prop} : ∀ {prog : Prog E A X α} {s : σ},
    wp (alone act) I (fun _ => G) ⟨⟩ prog Q s → wp (alone act) I (fun _ => H) ⟨⟩ prog Q' s →
      wp (alone act) I (fun _ s e => G s e ∧ H s e) ⟨⟩ prog (fun r s => Q r s ∧ Q' r s) s
  | .ret r, s, h, h' => ⟨h, h'⟩
  | .op e k, s, h, h' => by
    intro s' hr hI
    have hs : s' = s := (alone_stable fun t => t = s).trans rfl hr
    subst hs
    obtain ⟨hg, hk⟩ := h s' .refl hI
    obtain ⟨hg', hk'⟩ := h' s' .refl hI
    exact ⟨⟨hg, hg'⟩, fun a s'' hp hI' => wp_and (hk a s'' hp hI') (hk' a s'' hp hI')⟩

/-- An invariant that the guaranteed operations keep need not be assumed. -/
theorem wp_invariant {J : σ → Prop} (hact : ∀ s e a s', J s → I s → G s e → act s e a s' → I s')
    {Q : Except X α → σ → Prop} : ∀ {prog : Prog E A X α} {s : σ}, I s →
      wp (alone act) I (fun _ => G) ⟨⟩ prog Q s →
      wp (alone act) J (fun _ => G) ⟨⟩ prog (fun r s => I s ∧ Q r s) s
  | .ret r, s, hI, h => ⟨hI, h⟩
  | .op e k, s, hI, h => by
    intro s' hr hI'
    have hstable : Stable (alone act) J (fun _ => G) ⟨⟩ fun t => t = s := alone_stable _
    have hs : s' = s := hstable.trans rfl hr
    subst hs
    obtain ⟨hg, hk⟩ := h s' .refl hI
    refine ⟨hg, fun a s'' hp _ => ?_⟩
    have hI'' := hact s' e a s'' hI' hI hg hp
    exact wp_invariant hact hI'' (hk a s'' hp hI'')

/-- Tasks keep among themselves what they need of each other, and a process that
runs them needs it only where they start. -/
theorem Triple.enclosed {H : σ → E → Prop} {K : σ → Prop} {Q : α → σ → Prop} {F : X → σ → Prop}
    {prog : Prog E A X α} (hact : ∀ s e a s', I s → G s e → act s e a s' → I s')
    (hG : ∀ s e, I s → G s e → H s e) (h : Triple (amid act R) I (fun _ => G) ⟨⟩ K prog Q F) :
    Triple (alone act) (fun _ => True) (fun _ => H) ⟨⟩ (fun s => K s ∧ I s) prog
      (fun a s => Q a s ∧ I s) fun x s => F x s ∧ I s := by
  intro s _ hs
  have hwp := wp_guarantee (H := fun s e => G s e ∧ H s e) (fun s e hI hg => ⟨hg, hG s e hI hg⟩)
    (alone_of_amid (h s hs.2 hs.1))
  have hinv := wp_invariant (J := fun _ => True) (fun s e a s' _ hI hg => hact s e a s' hI hg.1) hs.2 hwp
  refine wp_mono ?_ trivial (wp_guarantee (fun _ _ _ hg => hg.2) hinv)
  intro r s _ hr
  cases r with
  | ok a => exact ⟨hr.2, hr.1⟩
  | error x => exact ⟨hr.2, hr.1⟩

variable {S : System P E A X σ} {J : σ → Prop} {H : P → σ → E → Prop} {p : P}

/-- The handler and what follows are outside of what is handled. -/
theorem Triple.tryElse {K : σ → Prop} {L : α → σ → Prop} {M : X → σ → Prop} {Q : β → σ → Prop}
    {F : X → σ → Prop} {prog : Prog E A X α} {h : X → Prog E A X β} {f : α → Prog E A X β}
    (hprog : Triple S J H p K prog L M) (hok : ∀ a, Triple S J H p (L a) (f a) Q F)
    (herr : ∀ x, Triple S J H p (M x) (h x) Q F) : Triple S J H p K (prog.tryElse h f) Q F := by
  intro s hI hs
  have hwp := hprog s hI hs
  clear hs hprog
  induction prog generalizing s with
  | ret r =>
    cases r with
    | ok a => exact hok a s hI hwp
    | error x => exact herr x s hI hwp
  | op e k ih =>
    intro s' hr hI'
    obtain ⟨hG, hk⟩ := hwp s' hr hI'
    exact ⟨hG, fun a s'' hp hI'' => ih a s'' hI'' (hk a s'' hp hI'')⟩

end

/-! ## Gathered tasks -/

section
variable {E : Type u} {A : E → Type v} {X : Type v} {σ : Type x} {α β : Type v}
variable {act : σ → (e : E) → Except X (A e) → σ → Prop} {R : σ → σ → Prop} {I : σ → Prop} {G : σ → E → Prop}
variable {pick : E} {first : Except X (A pick) → Bool}

/-- A step of one task is a step of the others' surroundings. -/
structure Surrounds (act : σ → (e : E) → Except X (A e) → σ → Prop) (R : σ → σ → Prop) (I : σ → Prop)
    (G : σ → E → Prop) (pick : E) : Prop where
  act : ∀ s e a s', I s → I s' → act s e a s' → R s s'
  pick : ∀ s, I s → G s pick

theorem wp_among {Q : Except X α → σ → Prop} (hQ : ∀ r s s', R s s' → Q r s → Q r s')
    {prog : Prog E A X α} {s s' : σ} (h : wp (amid act R) I (fun _ => G) ⟨⟩ prog Q s) (hI : I s)
    (hI' : I s') (hr : R s s') : wp (amid act R) I (fun _ => G) ⟨⟩ prog Q s' := by
  cases prog with
  | ret r => exact hQ r s s' hr h
  | op e k => exact fun s'' hr' hI'' => h s'' (.head ⟨hI, hI', Or.inr (Or.inr hr)⟩ hr') hI''

theorem wp_after {Q : Except X α → σ → Prop} {Q' : Except X β → σ → Prop}
    (hs : Surrounds act R I G pick) (hQ : ∀ r s s', R s s' → Q r s → Q r s') (r : Except X α) :
    ∀ {q : Prog E A X β} {s : σ}, I s → Q r s → wp (amid act R) I (fun _ => G) ⟨⟩ q Q' s →
      wp (amid act R) I (fun _ => G) ⟨⟩ (q.after r)
        (Post (fun rs s => Q rs.1 s ∧ Q' rs.2 s) fun _ _ => False) s
  | .ret r', s, _, hr, h => ⟨hr, h⟩
  | .op e k, s, _, hr, h => by
    intro s' hr' hI'
    obtain ⟨hG, hk⟩ := h s' hr' hI'
    refine ⟨hG, fun a s'' hp hI'' => ?_⟩
    have hstable : Stable (amid act R) I (fun _ => G) ⟨⟩ (Q r) := amid_stable (hQ r)
    exact wp_after hs hQ r hI'' (hQ r s' s'' (hs.act s' e a s'' hI' hI'' hp) (hstable.trans hr hr'))
      (hk a s'' hp hI'')

theorem wp_beside {Q : Except X α → σ → Prop} {Q' : Except X β → σ → Prop}
    (hs : Surrounds act R I G pick) (hQ : ∀ r s s', R s s' → Q r s → Q r s')
    (hQ' : ∀ r s s', R s s' → Q' r s → Q' r s') (e : E) (k : Except X (A e) → Prog E A X α)
    {rest : Except X (A e) → Prog E A X β → Prog E A X (Except X α × Except X β)}
    (hrest : ∀ a q s, I s → wp (amid act R) I (fun _ => G) ⟨⟩ (k a) Q s →
      wp (amid act R) I (fun _ => G) ⟨⟩ q Q' s →
      wp (amid act R) I (fun _ => G) ⟨⟩ (rest a q)
        (Post (fun rs s => Q rs.1 s ∧ Q' rs.2 s) fun _ _ => False) s) :
    ∀ {q : Prog E A X β} {s : σ}, I s → wp (amid act R) I (fun _ => G) ⟨⟩ (.op e k) Q s →
      wp (amid act R) I (fun _ => G) ⟨⟩ q Q' s →
      wp (amid act R) I (fun _ => G) ⟨⟩ (q.beside pick first e rest)
        (Post (fun rs s => Q rs.1 s ∧ Q' rs.2 s) fun _ _ => False) s
  | .ret r, s, _, hp, hq => by
    intro s' hr hI'
    obtain ⟨hG, hk⟩ := hp s' hr hI'
    refine ⟨hG, fun a s'' hact hI'' => hrest a (.ret r) s'' hI'' (hk a s'' hact hI'') ?_⟩
    have hstable : Stable (amid act R) I (fun _ => G) ⟨⟩ (Q' r) := amid_stable (hQ' r)
    exact hQ' r s' s'' (hs.act s' e a s'' hI' hI'' hact) (hstable.trans hq hr)
  | .op e' k', s, _, hp, hq => by
    intro s' hr hI'
    refine ⟨hs.pick s' hI', fun choice t hpick hIt => ?_⟩
    have hR := hs.act s' pick choice t hI' hIt hpick
    have hp' : wp (amid act R) I (fun _ => G) ⟨⟩ (.op e k) Q t :=
      wp_among hQ (fun s'' hr' hI'' => hp s'' (hr.trans hr') hI'') hI' hIt hR
    have hq' : wp (amid act R) I (fun _ => G) ⟨⟩ (.op e' k') Q' t :=
      wp_among hQ' (fun s'' hr' hI'' => hq s'' (hr.trans hr') hI'') hI' hIt hR
    show wp (amid act R) I (fun _ => G) ⟨⟩ (if first choice then _ else _) _ t
    by_cases hc : first choice = true
    · rw [if_pos hc]
      intro s₁ hr₁ hI₁
      obtain ⟨hG, hk⟩ := hp' s₁ hr₁ hI₁
      refine ⟨hG, fun a s₂ hact hI₂ => hrest a (.op e' k') s₂ hI₂ (hk a s₂ hact hI₂) ?_⟩
      exact wp_among hQ' (fun s'' hr' hI'' => hq' s'' (hr₁.trans hr') hI'') hI₁ hI₂
        (hs.act s₁ e a s₂ hI₁ hI₂ hact)
    · rw [if_neg hc]
      intro s₁ hr₁ hI₁
      obtain ⟨hG, hk⟩ := hq' s₁ hr₁ hI₁
      refine ⟨hG, fun a s₂ hact hI₂ => wp_beside hs hQ hQ' e k hrest hI₂ ?_ (hk a s₂ hact hI₂)⟩
      exact wp_among hQ (fun s'' hr' hI'' => hp' s'' (hr₁.trans hr') hI'') hI₁ hI₂
        (hs.act s₁ e' a s₂ hI₁ hI₂ hact)

theorem wp_both {Q : Except X α → σ → Prop} {Q' : Except X β → σ → Prop}
    (hs : Surrounds act R I G pick) (hQ : ∀ r s s', R s s' → Q r s → Q r s')
    (hQ' : ∀ r s s', R s s' → Q' r s → Q' r s') : ∀ {p : Prog E A X α} {q : Prog E A X β} {s : σ}, I s →
      wp (amid act R) I (fun _ => G) ⟨⟩ p Q s → wp (amid act R) I (fun _ => G) ⟨⟩ q Q' s →
      wp (amid act R) I (fun _ => G) ⟨⟩ (p.both pick first q)
        (Post (fun rs s => Q rs.1 s ∧ Q' rs.2 s) fun _ _ => False) s
  | .ret r, _, _, hI, hp, hq => wp_after hs hQ r hI hp hq
  | .op e k, _, _, hI, hp, hq =>
    wp_beside hs hQ hQ' e k (fun a _ _ hI' hk hq' => wp_both hs hQ hQ' (p := k a) hI' hk hq') hI hp hq

/-- Every task ends in its own assertion, whatever the others did. -/
theorem Triple.gather {γ : Type y} {K : σ → Prop} {Q : γ → α → σ → Prop} {F : γ → X → σ → Prop}
    {f : γ → Prog E A X α} (hs : Surrounds act R I G pick) (hK : ∀ s s', R s s' → K s → K s')
    (hQ : ∀ c a s s', R s s' → Q c a s → Q c a s') (hF : ∀ c x s s', R s s' → F c x s → F c x s') :
    ∀ l : List γ, (∀ c ∈ l, Triple (amid act R) I (fun _ => G) ⟨⟩ K (f c) (Q c) (F c)) →
      Triple (amid act R) I (fun _ => G) ⟨⟩ K (Prog.gather pick first (l.map f))
        (fun outcomes s => List.Forall₂ (fun c r => Post (Q c) (F c) r s) l outcomes) fun _ _ => False
  | [], _ => Triple.pure fun _ _ _ => .nil
  | c :: l, h => by
    have hpost : ∀ (c : γ) r s s', R s s' → Post (Q c) (F c) r s → Post (Q c) (F c) r s' := by
      intro c r s s' hr
      cases r with
      | ok a => exact hQ c a s s' hr
      | error x => exact hF c x s s' hr
    have hrest := Triple.gather hs hK hQ hF l fun c hc => h c (List.mem_cons_of_mem _ hc)
    refine Triple.bind (R := fun rs s => Post (Q c) (F c) rs.1 s ∧
      Post (fun outcomes s => List.Forall₂ (fun c r => Post (Q c) (F c) r s) l outcomes)
        (fun _ _ => False) rs.2 s) ?_ ?_
    · intro s hI hk
      refine wp_both hs (hpost c) ?_ hI (h c List.mem_cons_self s hI hk) (hrest s hI hk)
      intro r s s' hr hr'
      cases r with
      | ok outcomes => exact hr'.imp fun c r => hpost c r s s' hr
      | error x => exact hr'
    · rintro ⟨r, outcomes⟩ s - ⟨hr, hrest⟩
      cases outcomes with
      | ok outcomes => exact .cons hr hrest
      | error x => cases hrest

end

/-! ## Views -/

section
variable {P : Type u} {E : Type u} {A : E → Type v} {X : Type w} {σ : Type x} {τ : Type y}

/-- What every run keeps, whatever the programs are. -/
structure Inherent (S : System P E A X σ) (K : σ → Prop) : Prop where
  perform : ∀ {p s e a s'}, K s → S.perform p s e a s' → K s'
  env : ∀ {s s'}, K s → S.env s s' → K s'
  clear : ∀ {p s}, K s → K (S.clear p s)

theorem Inherent.const (S : System P E A X σ) : Inherent S fun _ => True :=
  ⟨fun _ _ => trivial, fun _ _ => trivial, fun _ => trivial⟩

theorem Inherent.step [DecidableEq P] {S : System P E A X σ} {K : σ → Prop} (h : Inherent S K)
    {c c' : Config P E A X σ} (hk : K c.state) (hs : S.Step c c') : K c'.state := by
  cases hs with
  | perform p procs s e k a s' hp hperf => exact h.perform hk hperf
  | env procs s s' he => exact h.env hk he
  | stop p procs s => exact h.clear hk
  | start p procs s prog hnone hprog => exact h.clear hk

theorem Inherent.run [DecidableEq P] {S : System P E A X σ} {K : σ → Prop} (h : Inherent S K) {s : σ}
    (hk : K s) {c : Config P E A X σ} (hr : S.Run (idle s) c) : K c.state := by
  induction hr with
  | refl => exact hk
  | tail _ hs ih => exact h.step ih hs

/-- A part of the state for each process that its own operations change, and
that starts anew with it. -/
structure Local (S : System P E A X σ) (K : σ → Prop) (view : P → σ → τ)
    (act : P → τ → (e : E) → Except X (A e) → τ → Prop) (start : τ) : Prop extends Inherent S K where
  acts : ∀ {p s e a s'}, K s → S.perform p s e a s' → act p (view p s) e a (view p s')
  others : ∀ {p s e a s' q}, S.perform p s e a s' → q ≠ p → view q s' = view q s
  unmoved : ∀ {s s' q}, S.env s s' → view q s' = view q s
  cleared : ∀ {p s}, view p (S.clear p s) = start
  clear_others : ∀ {p s q}, q ≠ p → view q (S.clear p s) = view q s

variable [DecidableEq P] {S : System P E A X σ} {K : σ → Prop} {view : P → σ → τ}
  {act : P → τ → (e : E) → Except X (A e) → τ → Prop} {start : τ} {G : P → τ → E → Prop}
  {Q : P → Except X PUnit → τ → Prop}

/-- What every process has left to do, over its view, and how it returns. -/
def Config.Verified (act : P → τ → (e : E) → Except X (A e) → τ → Prop) (G : P → τ → E → Prop)
    (Q : P → Except X PUnit → τ → Prop) (view : P → σ → τ) (c : Config P E A X σ) : Prop :=
  ∀ p prog, c.procs p = some prog →
    wp (alone (act p)) (fun _ => True) (fun _ => G p) ⟨⟩ prog (Q p) (view p c.state)

theorem Config.Verified.step (hv : Local S K view act start)
    (hprog : ∀ p prog, S.programs p prog →
      wp (alone (act p)) (fun _ => True) (fun _ => G p) ⟨⟩ prog (Q p) start)
    {c c' : Config P E A X σ} (hk : K c.state) (h : c.Verified act G Q view) (hs : S.Step c c') :
    c'.Verified act G Q view := by
  cases hs with
  | perform p procs s e k a s' hp hperf =>
    intro q prog hq
    by_cases hqp : q = p
    · subst hqp
      cases (Function.update_self _ _ _).symm.trans hq
      exact ((h q _ hp) _ .refl trivial).2 a _ (hv.acts hk hperf) trivial
    · show wp _ _ _ _ prog _ (view q s')
      rw [hv.others hperf hqp]
      exact h q prog ((Function.update_of_ne hqp _ _).symm.trans hq)
  | env procs s s' he =>
    intro q prog hq
    show wp _ _ _ _ prog _ (view q s')
    rw [hv.unmoved he]
    exact h q prog hq
  | stop p procs s =>
    intro q prog hq
    by_cases hqp : q = p
    · subst hqp
      cases (Function.update_self _ _ _).symm.trans hq
    · show wp _ _ _ _ prog _ (view q (S.clear p s))
      rw [hv.clear_others hqp]
      exact h q prog ((Function.update_of_ne hqp _ _).symm.trans hq)
  | start p procs s prog' hnone hprog' =>
    intro q prog hq
    by_cases hqp : q = p
    · subst hqp
      cases (Function.update_self _ _ _).symm.trans hq
      show wp _ _ _ _ prog' _ (view q (S.clear q s))
      rw [hv.cleared]
      exact hprog q prog' hprog'
    · show wp _ _ _ _ prog _ (view q (S.clear p s))
      rw [hv.clear_others hqp]
      exact h q prog ((Function.update_of_ne hqp _ _).symm.trans hq)

/-- Runs keep an assertion about the state that every step of a verified
process keeps, and whatever happens besides. -/
theorem Run.verified (hv : Local S K view act start)
    (hprog : ∀ p prog, S.programs p prog →
      wp (alone (act p)) (fun _ => True) (fun _ => G p) ⟨⟩ prog (Q p) start)
    {s : σ} (hk : K s) {c : Config P E A X σ} (hr : S.Run (idle s) c) : c.Verified act G Q view := by
  induction hr with
  | refl => exact fun _ _ hp => by cases hp
  | tail hrun hs ih => exact ih.step hv hprog (hv.toInherent.run hk hrun) hs

omit [DecidableEq P] in
theorem Config.Verified.guarantee {c : Config P E A X σ} (h : c.Verified act G Q view) {p : P} {e : E}
    {k : Except X (A e) → Prog E A X PUnit} (hp : c.procs p = some (.op e k)) :
    G p (view p c.state) e := ((h p _ hp) _ .refl trivial).1

omit [DecidableEq P] in
theorem Config.Verified.returned {c : Config P E A X σ} (h : c.Verified act G Q view) {p : P} {r : Except X PUnit}
    (hp : c.procs p = some (.ret r)) : Q p r (view p c.state) := h p _ hp

/-- A process that does not run has a view of its own that is fresh. -/
theorem Run.resting (hv : Local S K view act start) {s : σ} (hstart : ∀ p, view p s = start) {c : Config P E A X σ}
    (hr : S.Run (idle s) c) : ∀ p, c.procs p = none → view p c.state = start := by
  induction hr with
  | refl => exact fun p _ => hstart p
  | tail _ hs ih =>
    cases hs with
    | perform p procs s e k a s' hp hperf =>
      intro q hq
      by_cases hqp : q = p
      · subst hqp
        cases (Function.update_self _ _ _).symm.trans hq
      · exact (hv.others hperf hqp).trans (ih q ((Function.update_of_ne hqp _ _).symm.trans hq))
    | env procs s s' he => exact fun q hq => (hv.unmoved he).trans (ih q hq)
    | stop p procs s =>
      intro q hq
      by_cases hqp : q = p
      · subst hqp
        exact hv.cleared
      · exact (hv.clear_others hqp).trans (ih q ((Function.update_of_ne hqp _ _).symm.trans hq))
    | start p procs s prog hnone hprog =>
      intro q hq
      by_cases hqp : q = p
      · subst hqp
        exact hv.cleared
      · exact (hv.clear_others hqp).trans (ih q ((Function.update_of_ne hqp _ _).symm.trans hq))

/-- An invariant of the guaranteed operations, of the environment and of stops
is an invariant of every run. -/
theorem Run.local_inv (hv : Local S K view act start)
    (hprog : ∀ p prog, S.programs p prog →
      wp (alone (act p)) (fun _ => True) (fun _ => G p) ⟨⟩ prog (Q p) start)
    {J : σ → Prop} (hperform : ∀ p s e a s', J s → G p (view p s) e → S.perform p s e a s' → J s')
    (henv : ∀ s s', J s → S.env s s' → J s') (hclear : ∀ p s, J s → J (S.clear p s))
    {s : σ} (hk : K s) (h : J s) {c : Config P E A X σ} (hr : S.Run (idle s) c) : J c.state := by
  induction hr with
  | refl => exact h
  | tail hrun hs ih =>
    have hok := Run.verified hv hprog hk hrun
    cases hs with
    | perform p procs s e k a s' hp hperf => exact hperform p s e a s' ih (hok.guarantee hp) hperf
    | env procs s s' he => exact henv s s' ih he
    | stop p procs s => exact hclear p s ih
    | start p procs s prog _ _ => exact hclear p s ih

end

end System
