import Mathlib.Logic.Relation
import Mathlib.Logic.Function.Basic

/-!
# Concurrent programs over atomic operations

A program performs operations and continues with their answers or exceptions.
Processes interleave operations on a shared state, and may stop at any point.
A rely–guarantee calculus reduces an invariant of all runs to one triple for
each program: before each operation a process establishes its guarantee, and
its assertions survive what the others may do.
-/

universe u v w x y

/-- Operations `E` with answers `A`, exceptions `X` and a result. -/
inductive Prog (E : Type u) (A : E → Type v) (X : Type w) (α : Type v) : Type (max u v w) where
  | ret (r : Except X α)
  | op (e : E) (k : Except X (A e) → Prog E A X α)

namespace Prog

variable {E : Type u} {A : E → Type v} {X : Type w} {α β : Type v}

def bind : Prog E A X α → (α → Prog E A X β) → Prog E A X β
  | .ret (.ok a), f => f a
  | .ret (.error x), _ => .ret (.error x)
  | .op e k, f => .op e fun a => (k a).bind f

instance : Monad (Prog E A X) where
  pure a := .ret (.ok a)
  bind := bind

def throw (x : X) : Prog E A X α := .ret (.error x)

def perform (e : E) : Prog E A X (A e) := .op e .ret

def handle : Prog E A X α → (X → Prog E A X α) → Prog E A X α
  | .ret (.ok a), _ => .ret (.ok a)
  | .ret (.error x), h => h x
  | .op e k, h => .op e fun a => (k a).handle h

/-- A handler for the exceptions, and what follows a normal end. Exceptions of
either are not handled. -/
def tryElse : Prog E A X α → (X → Prog E A X β) → (α → Prog E A X β) → Prog E A X β
  | .ret (.ok a), _, f => f a
  | .ret (.error x), h, _ => h x
  | .op e k, h, f => .op e fun a => (k a).tryElse h f

/-- The last program runs however the first one ends. -/
def andFinally : Prog E A X α → Prog E A X PUnit → Prog E A X α
  | .ret r, f => f.bind fun _ => .ret r
  | .op e k, f => .op e fun a => (k a).andFinally f

end Prog

/-! ## Tasks of one process -/

section
variable {E : Type u} {A : E → Type v} {X : Type v} {α β : Type v}

namespace Prog

/-- The result of a program with its exceptions as values, beside another one. -/
def after (r : Except X α) : Prog E A X β → Prog E A X (Except X α × Except X β)
  | .ret r' => .ret (.ok (r, r'))
  | .op e k => .op e fun a => (k a).after r

/-- A task that is about to operate beside the others; `rest` goes on after it. -/
def beside (pick : E) (first : Except X (A pick) → Bool) (e : E)
    (rest : Except X (A e) → Prog E A X β → Prog E A X (Except X α × Except X β)) :
    Prog E A X β → Prog E A X (Except X α × Except X β)
  | .ret r => .op e fun a => rest a (.ret r)
  | .op e' k => .op pick fun choice =>
    if first choice then .op e fun a => rest a (.op e' k)
    else .op e' fun a => (k a).beside pick first e rest

/-- Two tasks side by side: whenever both may go on, `pick` decides which does. -/
def both (pick : E) (first : Except X (A pick) → Bool) :
    Prog E A X α → Prog E A X β → Prog E A X (Except X α × Except X β)
  | .ret r, q => q.after r
  | .op e k, q => q.beside pick first e fun a => (k a).both pick first

/-- `asyncio.gather(*tasks, return_exceptions=True)` -/
def gather (pick : E) (first : Except X (A pick) → Bool) :
    List (Prog E A X α) → Prog E A X (List (Except X α))
  | [] => pure []
  | task :: tasks => (task.both pick first (gather pick first tasks)).bind fun outcomes =>
    match outcomes.2 with
    | .ok rest => pure (outcomes.1 :: rest)
    | .error x => throw x

end Prog

end

/-- What processes share: how an operation acts, what the environment does,
what is left of a process that stops, and the programs a process may run. -/
structure System (P : Type u) (E : Type u) (A : E → Type v) (X : Type w) (σ : Type x) where
  perform : P → σ → (e : E) → Except X (A e) → σ → Prop
  env : σ → σ → Prop
  clear : P → σ → σ
  programs : P → Prog E A X PUnit → Prop

namespace System

variable {P : Type u} {E : Type u} {A : E → Type v} {X : Type w} {σ : Type x} {α β : Type v}

structure Config (P : Type u) (E : Type u) (A : E → Type v) (X : Type w) (σ : Type x) where
  procs : P → Option (Prog E A X PUnit)
  state : σ

/-- A process that has returned may stop, and so may any other: it has crashed. -/
inductive Step [DecidableEq P] (S : System P E A X σ) : Config P E A X σ → Config P E A X σ → Prop where
  | perform (p : P) (procs : P → Option (Prog E A X PUnit)) (s : σ) (e : E)
      (k : Except X (A e) → Prog E A X PUnit) (a : Except X (A e)) (s' : σ) :
      procs p = some (.op e k) → S.perform p s e a s' →
      Step S ⟨procs, s⟩ ⟨Function.update procs p (some (k a)), s'⟩
  | env (procs : P → Option (Prog E A X PUnit)) (s s' : σ) : S.env s s' → Step S ⟨procs, s⟩ ⟨procs, s'⟩
  | stop (p : P) (procs : P → Option (Prog E A X PUnit)) (s : σ) :
      Step S ⟨procs, s⟩ ⟨Function.update procs p none, S.clear p s⟩
  | start (p : P) (procs : P → Option (Prog E A X PUnit)) (s : σ) (prog : Prog E A X PUnit) :
      procs p = none → S.programs p prog →
      Step S ⟨procs, s⟩ ⟨Function.update procs p (some prog), S.clear p s⟩

def Run [DecidableEq P] (S : System P E A X σ) (c c' : Config P E A X σ) : Prop :=
  Relation.ReflTransGen S.Step c c'

def idle (s : σ) : Config P E A X σ := ⟨fun _ => none, s⟩

/-! ## Rely and guarantee -/

section
variable (S : System P E A X σ) (I : σ → Prop) (G : P → σ → E → Prop)

/-- One step of anyone else. -/
def Rely (p : P) (s s' : σ) : Prop :=
  I s ∧ I s' ∧ ((∃ q e a, q ≠ p ∧ G q s e ∧ S.perform q s e a s') ∨ (∃ q, q ≠ p ∧ s' = S.clear q s) ∨
    S.env s s')

/-- Every operation meets its guarantee, whatever the others do in between. -/
def wp (p : P) : Prog E A X α → (Except X α → σ → Prop) → σ → Prop
  | .ret r, Q, s => Q r s
  | .op e k, Q, s => ∀ s', Relation.ReflTransGen (Rely S I G p) s s' → I s' →
      G p s' e ∧ ∀ a s'', S.perform p s' e a s'' → I s'' → wp p (k a) Q s''

def Stable (p : P) (K : σ → Prop) : Prop :=
  ∀ s s', I s' → K s → Rely S I G p s s' → K s'

/-- The assertions at a return and at each exception. -/
def Post (Q : α → σ → Prop) (F : X → σ → Prop) : Except X α → σ → Prop
  | .ok a, s => Q a s
  | .error x, s => F x s

def Triple (p : P) (K : σ → Prop) (prog : Prog E A X α) (Q : α → σ → Prop) (F : X → σ → Prop) : Prop :=
  ∀ s, I s → K s → wp S I G p prog (Post Q F) s

structure Sound : Prop where
  perform : ∀ {p s e a s'}, I s → G p s e → S.perform p s e a s' → I s'
  env : ∀ {s s'}, I s → S.env s s' → I s'
  clear : ∀ {p s}, I s → I (S.clear p s)
  start : ∀ {p prog s}, S.programs p prog → I s →
    wp S I G p prog (fun _ _ => True) (S.clear p s)

end

section
variable {S : System P E A X σ} {I : σ → Prop} {G : P → σ → E → Prop} {p : P}

theorem Stable.trans {K : σ → Prop} (hK : Stable S I G p K) {s s' : σ} (h : K s)
    (hr : Relation.ReflTransGen (Rely S I G p) s s') : K s' := by
  induction hr with
  | refl => exact h
  | tail _ hstep ih => exact hK _ _ hstep.2.1 ih hstep

theorem Stable.const (K : Prop) : Stable S I G p fun _ => K := fun _ _ _ h _ => h

theorem wp_mono {Q Q' : Except X α → σ → Prop} (hQ : ∀ r s, I s → Q r s → Q' r s) :
    ∀ {prog : Prog E A X α} {s : σ}, I s → wp S I G p prog Q s → wp S I G p prog Q' s
  | .ret r, s, hI, h => hQ r s hI h
  | .op e k, s, _, h => fun s' hr hI => by
    obtain ⟨hG, hk⟩ := h s' hr hI
    exact ⟨hG, fun a s'' hp hI' => wp_mono hQ hI' (hk a s'' hp hI')⟩

/-- What the others do before a process moves does not matter. -/
theorem wp_rely {prog : Prog E A X α} {s s' : σ} (h : wp S I G p prog (fun _ _ => True) s)
    (hr : Rely S I G p s s') : wp S I G p prog (fun _ _ => True) s' := by
  cases prog with
  | ret r => trivial
  | op e k => exact fun s'' hr' hI => h s'' (.head hr hr') hI

/-! ## Triples -/

theorem Triple.conseq {K K' : σ → Prop} {Q Q' : α → σ → Prop} {F F' : X → σ → Prop}
    {prog : Prog E A X α} (h : Triple S I G p K prog Q F) (hK : ∀ s, I s → K' s → K s)
    (hQ : ∀ a s, I s → Q a s → Q' a s) (hF : ∀ x s, I s → F x s → F' x s) :
    Triple S I G p K' prog Q' F' := by
  intro s hI hs
  refine wp_mono ?_ hI (h s hI (hK s hI hs))
  intro r s hI
  cases r with
  | ok a => exact hQ a s hI
  | error x => exact hF x s hI

theorem Triple.pure {K : σ → Prop} {Q : α → σ → Prop} {F : X → σ → Prop} {a : α}
    (h : ∀ s, I s → K s → Q a s) : Triple S I G p K (Pure.pure a) Q F := h

theorem Triple.throw {K : σ → Prop} {Q : α → σ → Prop} {F : X → σ → Prop} {x : X}
    (h : ∀ s, I s → K s → F x s) : Triple S I G p K (Prog.throw x) Q F := h

/-- An operation, from an assertion the others keep. -/
theorem Triple.perform {K : σ → Prop} {e : E} {Q : A e → σ → Prop} {F : X → σ → Prop}
    (hK : Stable S I G p K) (hG : ∀ s, I s → K s → G p s e)
    (hok : ∀ s a s', I s → K s → S.perform p s e (.ok a) s' → I s' → Q a s')
    (herr : ∀ s x s', I s → K s → S.perform p s e (.error x) s' → I s' → F x s') :
    Triple S I G p K (Prog.perform e) Q F := by
  intro s _ hs s' hr hI'
  have hs' := hK.trans hs hr
  refine ⟨hG s' hI' hs', fun a s'' hp hI'' => ?_⟩
  cases a with
  | ok a => exact hok s' a s'' hI' hs' hp hI''
  | error x => exact herr s' x s'' hI' hs' hp hI''

theorem Triple.bind {K : σ → Prop} {R : α → σ → Prop} {Q : β → σ → Prop} {F : X → σ → Prop}
    {prog : Prog E A X α} {f : α → Prog E A X β} (h : Triple S I G p K prog R F)
    (hf : ∀ a, Triple S I G p (R a) (f a) Q F) : Triple S I G p K (prog >>= f) Q F := by
  intro s hI hs
  have hwp := h s hI hs
  show wp S I G p (prog.bind f) (Post Q F) s
  clear hs h
  induction prog generalizing s with
  | ret r =>
    cases r with
    | ok a => exact hf a s hI hwp
    | error x => exact hwp
  | op e k ih =>
    intro s' hr hI'
    obtain ⟨hG, hk⟩ := hwp s' hr hI'
    exact ⟨hG, fun a s'' hp hI'' => ih a s'' hI'' (hk a s'' hp hI'')⟩

theorem Triple.ite {K : σ → Prop} {Q : α → σ → Prop} {F : X → σ → Prop} {prog prog' : Prog E A X α}
    {c : Prop} [Decidable c] (h : c → Triple S I G p K prog Q F)
    (h' : ¬c → Triple S I G p K prog' Q F) : Triple S I G p K (if c then prog else prog') Q F := by
  split
  · exact h ‹c›
  · exact h' ‹¬c›

/-- A loop, with an assertion for the elements that remain. -/
theorem Triple.forM {γ : Type y} {K : List γ → σ → Prop} {F : X → σ → Prop} {f : γ → Prog E A X PUnit}
    (h : ∀ a l, Triple S I G p (K (a :: l)) (f a) (fun _ => K l) F) :
    ∀ l, Triple S I G p (K l) (l.forM f) (fun _ => K []) F
  | [] => Triple.pure fun _ _ hs => hs
  | a :: l => by
    show Triple S I G p (K (a :: l)) (f a >>= fun _ => l.forM f) (fun _ => K []) F
    exact (h a l).bind fun _ => Triple.forM h l

theorem Triple.foldlM {γ : Type y} {K : List γ → β → σ → Prop} {F : X → σ → Prop}
    {f : β → γ → Prog E A X β} (h : ∀ a l b, Triple S I G p (K (a :: l) b) (f b a) (K l) F) :
    ∀ l b, Triple S I G p (K l b) (l.foldlM f b) (K []) F
  | [], _ => Triple.pure fun _ _ hs => hs
  | a :: l, b => by
    rw [List.foldlM_cons]
    exact (h a l b).bind fun b' => Triple.foldlM h l b'

theorem Triple.handle {K : σ → Prop} {Q : α → σ → Prop} {F F' : X → σ → Prop} {prog : Prog E A X α}
    {h : X → Prog E A X α} (hp : Triple S I G p K prog Q F)
    (hh : ∀ x, Triple S I G p (F x) (h x) Q F') : Triple S I G p K (prog.handle h) Q F' := by
  intro s hI hs
  have hwp := hp s hI hs
  clear hs hp
  induction prog generalizing s with
  | ret r =>
    cases r with
    | ok a => exact hwp
    | error x => exact hh x s hI hwp
  | op e k ih =>
    intro s' hr hI'
    obtain ⟨hG, hk⟩ := hwp s' hr hI'
    exact ⟨hG, fun a s'' hp hI'' => ih a s'' hI'' (hk a s'' hp hI'')⟩

theorem Triple.andFinally {K : σ → Prop} {R Q : α → σ → Prop} {F F' : X → σ → Prop}
    {prog : Prog E A X α} {f : Prog E A X PUnit} (h : Triple S I G p K prog R F)
    (hok : ∀ a, Triple S I G p (R a) f (fun _ => Q a) F')
    (herr : ∀ x, Triple S I G p (F x) f (fun _ => F' x) F') :
    Triple S I G p K (prog.andFinally f) Q F' := by
  intro s hI hs
  have hwp := h s hI hs
  clear hs h
  induction prog generalizing s with
  | ret r =>
    cases r with
    | ok a =>
      have hret : ∀ b : PUnit, Triple S I G p (Q a) (.ret (.ok a)) Q F' := fun _ _ _ hs => hs
      exact (hok a).bind hret s hI hwp
    | error x =>
      have hret : ∀ b : PUnit, Triple S I G p (F' x) (.ret (.error x) : Prog E A X α) Q F' :=
        fun _ _ _ hs => hs
      exact (herr x).bind hret s hI hwp
  | op e k ih =>
    intro s' hr hI'
    obtain ⟨hG, hk⟩ := hwp s' hr hI'
    exact ⟨hG, fun a s'' hp hI'' => ih a s'' hI'' (hk a s'' hp hI'')⟩

end

/-! ## Runs -/

section
variable [DecidableEq P] {S : System P E A X σ} {I : σ → Prop} {G : P → σ → E → Prop}

/-- The invariant, and what every process has left to do. -/
def Config.Ok (S : System P E A X σ) (I : σ → Prop) (G : P → σ → E → Prop) (c : Config P E A X σ) : Prop :=
  I c.state ∧ ∀ p prog, c.procs p = some prog → wp S I G p prog (fun _ _ => True) c.state

theorem Config.Ok.step (hS : Sound S I G) {c c' : Config P E A X σ} (h : c.Ok S I G) (hs : S.Step c c') :
    c'.Ok S I G := by
  obtain ⟨hI, hwp⟩ := h
  cases hs with
  | perform p procs s e k a s' hp hperf =>
    have hk := hwp p _ hp s .refl hI
    have hI' := hS.perform hI hk.1 hperf
    refine ⟨hI', fun q prog hq => ?_⟩
    by_cases hqp : q = p
    · subst hqp
      have hq : Function.update procs q (some (k a)) q = some prog := hq
      rw [Function.update_self] at hq
      cases hq
      exact hk.2 a s' hperf hI'
    · have hq := (Function.update_of_ne hqp _ _).symm.trans hq
      exact wp_rely (hwp q prog hq) ⟨hI, hI', Or.inl ⟨p, e, a, Ne.symm hqp, hk.1, hperf⟩⟩
  | env procs s s' he =>
    have hI' := hS.env hI he
    exact ⟨hI', fun q prog hq => wp_rely (hwp q prog hq) ⟨hI, hI', Or.inr (Or.inr he)⟩⟩
  | stop p procs s =>
    have hI' : I (S.clear p s) := hS.clear hI
    refine ⟨hI', fun q prog hq => ?_⟩
    by_cases hqp : q = p
    · subst hqp
      cases (Function.update_self _ _ _).symm.trans hq
    · have hq := (Function.update_of_ne hqp _ _).symm.trans hq
      exact wp_rely (hwp q prog hq) ⟨hI, hI', Or.inr (Or.inl ⟨p, Ne.symm hqp, rfl⟩)⟩
  | start p procs s prog' hnone hprog =>
    have hI' : I (S.clear p s) := hS.clear hI
    refine ⟨hI', fun q prog hq => ?_⟩
    by_cases hqp : q = p
    · subst hqp
      have hq : Function.update procs q (some prog') q = some prog := hq
      rw [Function.update_self] at hq
      cases hq
      exact hS.start hprog hI
    · have hq := (Function.update_of_ne hqp _ _).symm.trans hq
      exact wp_rely (hwp q prog hq) ⟨hI, hI', Or.inr (Or.inl ⟨p, Ne.symm hqp, rfl⟩)⟩

theorem Run.ok (hS : Sound S I G) {c c' : Config P E A X σ} (h : c.Ok S I G) (hr : S.Run c c') :
    c'.Ok S I G := by
  induction hr with
  | refl => exact h
  | tail _ hs ih => exact ih.step hS hs

theorem Run.inv (hS : Sound S I G) {s : σ} (h : I s) {c : Config P E A X σ} (hr : S.Run (idle s) c) :
    I c.state := (Run.ok hS (c := idle s) ⟨h, fun _ _ hp => by cases hp⟩ hr).1

end

end System

/-! ## One process alone -/

section
variable {P : Type u} {E : Type u} {A : E → Type v} {X : Type w} {σ : Type x} {α : Type v}

/-- The evaluations of a program that nobody interrupts. -/
inductive Prog.Eval (act : σ → (e : E) → Except X (A e) → σ → Prop) :
    Prog E A X α → σ → Except X α → σ → Prop where
  | ret (r : Except X α) (s : σ) : Eval act (.ret r) s r s
  | op (e : E) (k : Except X (A e) → Prog E A X α) (s : σ) (a : Except X (A e)) (s' : σ)
      (r : Except X α) (s'' : σ) : act s e a s' → Eval act (k a) s' r s'' → Eval act (.op e k) s r s''

theorem Prog.Eval.mono {act act' : σ → (e : E) → Except X (A e) → σ → Prop}
    (hact : ∀ s e a s', act s e a s' → act' s e a s') {prog : Prog E A X α} {s s' : σ} {r : Except X α}
    (h : prog.Eval act s r s') : prog.Eval act' s r s' := by
  induction h with
  | ret r s => exact .ret r s
  | op e k s a s' r s'' hs _ ih => exact .op e k s a s' r s'' (hact s e a s' hs) ih

/-- The evaluation in which a function answers, if it answers all that is asked. -/
def Prog.exec (answer : σ → (e : E) → Option (Except X (A e) × σ)) :
    Prog E A X α → σ → Option (Except X α × σ)
  | .ret r, s => some (r, s)
  | .op e k, s =>
    match answer s e with
    | none => none
    | some (a, s') => (k a).exec answer s'

theorem Prog.exec_eval {act : σ → (e : E) → Except X (A e) → σ → Prop}
    {answer : σ → (e : E) → Option (Except X (A e) × σ)}
    (h : ∀ s e a s', answer s e = some (a, s') → act s e a s') :
    ∀ {prog : Prog E A X α} {s : σ} {r : Except X α} {s' : σ}, prog.exec answer s = some (r, s') →
      prog.Eval act s r s'
  | .ret r, s, _, _, hexec => by
    cases hexec
    exact .ret r s
  | .op e k, s, r, s'', hexec => by
    rw [Prog.exec] at hexec
    cases hanswer : answer s e with
    | none =>
      rw [hanswer] at hexec
      cases hexec
    | some as =>
      rw [hanswer] at hexec
      exact .op e k s as.1 as.2 r s'' (h s e as.1 as.2 hanswer) (Prog.exec_eval h hexec)

namespace System

/-- An evaluation is a run in which the others do nothing. -/
theorem run_of_eval [DecidableEq P] {S : System P E A X σ} {p : P} {prog : Prog E A X PUnit}
    {r : Except X PUnit} {s s' : σ} (h : prog.Eval (S.perform p) s r s') :
    ∀ procs : P → Option (Prog E A X PUnit), procs p = some prog →
      S.Run ⟨procs, s⟩ ⟨Function.update procs p (some (.ret r)), s'⟩ := by
  induction h with
  | ret r s =>
    intro procs hp
    rw [← hp, Function.update_eq_self]
    exact .refl
  | op e k s a s' r s'' hact _ ih =>
    intro procs hp
    have hrest := ih (Function.update procs p (some (k a))) (Function.update_self ..)
    rw [Function.update_idem] at hrest
    exact .head (.perform p procs s e k a s' hp hact) hrest

/-- A single process, with no environment. -/
def alone (act : σ → (e : E) → Except X (A e) → σ → Prop) : System PUnit E A X σ where
  perform _ := act
  env _ _ := False
  clear _ s := s
  programs _ _ := False

variable {act : σ → (e : E) → Except X (A e) → σ → Prop} {I : σ → Prop} {G : σ → E → Prop}

theorem alone_stable (K : σ → Prop) : Stable (alone act) I (fun _ => G) ⟨⟩ K := by
  rintro s s' - - ⟨-, -, ⟨q, -, -, hq, -⟩ | ⟨q, hq, -⟩ | he⟩
  · exact absurd rfl hq
  · exact absurd rfl hq
  · cases he

theorem eval_sound (hact : ∀ s e a s', I s → G s e → act s e a s' → I s') {prog : Prog E A X α}
    {s s' : σ} {r : Except X α} (h : prog.Eval act s r s') {Q : Except X α → σ → Prop} (hI : I s)
    (hwp : wp (alone act) I (fun _ => G) ⟨⟩ prog Q s) : I s' ∧ Q r s' := by
  induction h with
  | ret r s => exact ⟨hI, hwp⟩
  | op e k s a s' r s'' hs _ ih =>
    obtain ⟨hG, hk⟩ := hwp s .refl hI
    have hI' := hact s e a s' hI hG hs
    exact ih hI' (hk a s' hs hI')

end System

end
