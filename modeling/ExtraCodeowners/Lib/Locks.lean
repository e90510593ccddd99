import ExtraCodeowners.Lib.Footprint
import Mathlib.Data.Set.Insert

/-!
# Locks of a program

Some operations take a lock, some drop one and some need one. A program is
balanced when it has the locks it drops and needs, and ends with those it was to
end with, however its operations turn out. That is a property of its text, and
gathered tasks share the locks out among themselves: the process has every
lock that one of its tasks has.
-/

universe u v w x y

/-- What an operation does to locks. -/
structure Locking (E : Type u) (A : E → Type v) (X : Type w) (κ : Type x) where
  takes : (e : E) → Except X (A e) → Option κ
  drops : E → Option κ
  needs : E → Option κ

namespace Locking

variable {E : Type u} {A : E → Type v} {X : Type w} {κ : Type x}

/-- The locks after an answer. -/
def after (L : Locking E A X κ) (H : Set κ) (e : E) (a : Except X (A e)) : Set κ :=
  { key | L.takes e a = some key ∨ (key ∈ H ∧ L.drops e ≠ some key) }

theorem mem_after {L : Locking E A X κ} {H : Set κ} {e : E} {a : Except X (A e)} {key : κ} :
    key ∈ L.after H e a ↔ L.takes e a = some key ∨ (key ∈ H ∧ L.drops e ≠ some key) := Iff.rfl

/-- An operation that no lock is involved in. -/
def Plain (L : Locking E A X κ) (e : E) : Prop :=
  (∀ a, L.takes e a = none) ∧ L.drops e = none ∧ L.needs e = none

theorem Plain.after {L : Locking E A X κ} {e : E} (h : L.Plain e) (H : Set κ) (a : Except X (A e)) :
    L.after H e a = H := by
  ext key
  simp [mem_after, h.1 a, h.2.1]

end Locking

namespace Prog

section
variable {E : Type u} {A : E → Type v} {X : Type w} {κ : Type x} {α β : Type v}
variable {L : Locking E A X κ} {H H' H'' : Set κ}

/-- From the locks `H` to the locks `H'`. A lock is granted to nobody who has it. -/
def Balanced (L : Locking E A X κ) (H' : Set κ) : Set κ → Prog E A X α → Prop
  | H, .ret _ => H = H'
  | H, .op e k => (∀ key, L.drops e = some key ∨ L.needs e = some key → key ∈ H) ∧
      ∀ a, (∀ key, L.takes e a = some key → key ∉ H) → Balanced L H' (L.after H e a) (k a)

theorem Balanced.pure (a : α) : Balanced L H H (Pure.pure a : Prog E A X α) := rfl

theorem Balanced.throw (x : X) : Balanced L H H (Prog.throw x : Prog E A X α) := rfl

theorem Balanced.of_only : ∀ {prog : Prog E A X α}, prog.Only L.Plain → Balanced L H H prog
  | .ret _, _ => rfl
  | .op e k, h => by
    refine ⟨fun key hkey => ?_, fun a _ => ?_⟩
    · rw [h.1.2.1, h.1.2.2] at hkey
      simp at hkey
    · rw [h.1.after]
      exact Balanced.of_only (h.2 a)

theorem Balanced.bind {f : α → Prog E A X β} (hf : ∀ a, Balanced L H' H' (f a)) :
    ∀ {prog : Prog E A X α} {H : Set κ}, Balanced L H' H prog → Balanced L H' H (prog >>= f)
  | .ret (.ok a), _, h => by
    obtain rfl : _ = H' := h
    exact hf a
  | .ret (.error _), _, h => h
  | .op _ _, _, h => ⟨h.1, fun a ha => Balanced.bind hf (h.2 a ha)⟩

theorem Balanced.ite {c : Prop} [Decidable c] {prog prog' : Prog E A X α} (h : Balanced L H' H prog)
    (h' : Balanced L H' H prog') : Balanced L H' H (if c then prog else prog') := by
  by_cases hc : c
  · rwa [if_pos hc]
  · rwa [if_neg hc]

theorem Balanced.handle {f : X → Prog E A X α} (hf : ∀ x, Balanced L H' H' (f x)) :
    ∀ {prog : Prog E A X α} {H : Set κ}, Balanced L H' H prog → Balanced L H' H (prog.handle f)
  | .ret (.ok _), _, h => h
  | .ret (.error x), _, h => by
    obtain rfl : _ = H' := h
    exact hf x
  | .op _ _, _, h => ⟨h.1, fun a ha => Balanced.handle hf (h.2 a ha)⟩

theorem Balanced.andFinally {last : Prog E A X PUnit} (hl : Balanced L H'' H' last) :
    ∀ {prog : Prog E A X α} {H : Set κ}, Balanced L H' H prog → Balanced L H'' H (prog.andFinally last)
  | .ret r, _, h => by
    obtain rfl : _ = H' := h
    have hret : ∀ b : PUnit, Balanced L H'' H'' (.ret r : Prog E A X α) := fun _ => rfl
    exact Balanced.bind hret hl
  | .op _ _, _, h => ⟨h.1, fun a ha => Balanced.andFinally hl (h.2 a ha)⟩

/-- An operation under a lock that is kept. -/
theorem Balanced.under {e : E} (ht : ∀ a, L.takes e a = none) (hd : L.drops e = none)
    (hn : ∀ key, L.needs e = some key → key ∈ H) : Balanced L H H (Prog.perform e : Prog E A X (A e)) := by
  refine ⟨fun key hkey => ?_, fun a _ => ?_⟩
  · rcases hkey with hkey | hkey
    · rw [hd] at hkey
      cases hkey
    · exact hn key hkey
  · ext key
    simp [Locking.mem_after, ht a, hd]

/-- A lock around a body: taken if the first operation answers, and dropped in any case. -/
theorem Balanced.locked {e : E} {key : κ} {body : Prog E A X α} {last : Prog E A X PUnit}
    (hd : L.drops e = none) (hn : L.needs e = none)
    (hok : ∀ a, L.takes e (.ok a) = some key) (herr : ∀ x, L.takes e (.error x) = none)
    (hbody : key ∉ H → Balanced L (insert key H) (insert key H) body)
    (hlast : key ∉ H → Balanced L H (insert key H) last) :
    Balanced L H H ((Prog.perform e : Prog E A X (A e)) >>= fun _ => body.andFinally last) := by
  refine ⟨fun key hkey => ?_, fun a ha => ?_⟩
  · rw [hd, hn] at hkey
    simp at hkey
  · cases a with
    | ok a =>
      have hfree : key ∉ H := ha key (hok a)
      have hafter : L.after H e (.ok a) = insert key H := by
        ext key'
        simp [Locking.mem_after, hok a, hd, eq_comm]
      rw [hafter]
      exact Balanced.andFinally (hlast hfree) (hbody hfree)
    | error x =>
      show L.after H e (.error x) = H
      ext key'
      simp [Locking.mem_after, herr x, hd]

theorem Balanced.release {e : E} {key : κ} (ht : ∀ a, L.takes e a = none) (hd : L.drops e = some key)
    (hn : L.needs e = none) (hfree : key ∉ H) :
    Balanced L H (insert key H) (Prog.perform e : Prog E A X (A e)) := by
  refine ⟨fun key' hkey => ?_, fun a _ => ?_⟩
  · rw [hd, hn] at hkey
    have : key = key' := by simpa using hkey
    exact this ▸ Set.mem_insert key H
  · show L.after (insert key H) e a = H
    ext key'
    simp only [Locking.mem_after, ht a, hd, Set.mem_insert_iff]
    constructor
    · rintro (hk | ⟨rfl | hk, hne⟩)
      · cases hk
      · exact absurd rfl hne
      · exact hk
    · intro hk
      refine Or.inr ⟨Or.inr hk, fun he => hfree ?_⟩
      cases he
      exact hk

end

/-! ## Locks shared out among tasks -/

section
variable {E : Type u} {A : E → Type v} {X : Type v} {κ : Type x} {α β : Type v}
variable {L : Locking E A X κ} {H₁ H₂ H' : Set κ} {pick : E} {first : Except X (A pick) → Bool}

/-- An operation of one task leaves the locks of the other alone. -/
theorem Balanced.step {e : E} {k : Except X (A e) → Prog E A X α}
    (h : ∀ key, L.drops e = some key ∨ L.needs e = some key → key ∈ H₁) (hd : ∀ key ∈ H₁, key ∉ H₂)
    (hk : ∀ a, (∀ key, L.takes e a = some key → key ∉ H₁) → (∀ key ∈ L.after H₁ e a, key ∉ H₂) →
      Balanced L H' (L.after H₁ e a ∪ H₂) (k a)) : Balanced L H' (H₁ ∪ H₂) (.op e k) := by
  refine ⟨fun key hkey => Or.inl (h key hkey), fun a ha => ?_⟩
  have hsame : L.after (H₁ ∪ H₂) e a = L.after H₁ e a ∪ H₂ := by
    ext key
    simp only [Locking.mem_after, Set.mem_union]
    constructor
    · rintro (ht | ⟨h₁ | h₂, hne⟩)
      · exact Or.inl (Or.inl ht)
      · exact Or.inl (Or.inr ⟨h₁, hne⟩)
      · exact Or.inr h₂
    · rintro ((ht | ⟨h₁, hne⟩) | h₂)
      · exact Or.inl ht
      · exact Or.inr ⟨Or.inl h₁, hne⟩
      · exact Or.inr ⟨Or.inr h₂, fun he => hd key (h key (Or.inl he)) h₂⟩
  rw [hsame]
  refine hk a (fun key ht hmem => ha key ht (Or.inl hmem)) fun key hmem h₂ => ?_
  rcases hmem with ht | ⟨h₁, -⟩
  · exact ha key ht (Or.inr h₂)
  · exact hd key h₁ h₂

theorem Balanced.after (r : Except X α) : ∀ {q : Prog E A X β} {H : Set κ}, Balanced L H' H q →
    Balanced L H' H (q.after r)
  | .ret _, _, h => h
  | .op _ _, _, h => ⟨h.1, fun a ha => Balanced.after r (h.2 a ha)⟩

theorem Balanced.beside (hpick : L.Plain pick) {e : E}
    {rest : Except X (A e) → Prog E A X β → Prog E A X (Except X α × Except X β)}
    (h : ∀ key, L.drops e = some key ∨ L.needs e = some key → key ∈ H₁)
    (hrest : ∀ a q {H₂ : Set κ}, (∀ key, L.takes e a = some key → key ∉ H₁) →
      (∀ key ∈ L.after H₁ e a, key ∉ H₂) → Balanced L ∅ H₂ q →
        Balanced L ∅ (L.after H₁ e a ∪ H₂) (rest a q)) :
    ∀ {q : Prog E A X β} {H₂ : Set κ}, (∀ key ∈ H₁, key ∉ H₂) → Balanced L ∅ H₂ q →
      Balanced L ∅ (H₁ ∪ H₂) (q.beside pick first e rest)
  | .ret r, _, hd, hq => Balanced.step h hd fun a ha hd' => hrest a (.ret r) ha hd' hq
  | .op e' k', H₂, hd, hq => by
    refine ⟨fun key hkey => ?_, fun choice _ => ?_⟩
    · rw [hpick.2.1, hpick.2.2] at hkey
      simp at hkey
    · rw [hpick.after]
      refine Balanced.ite (Balanced.step h hd fun a ha hd' => hrest a (.op e' k') ha hd' hq) ?_
      rw [Set.union_comm]
      refine Balanced.step hq.1 (fun key h₂ h₁ => hd key h₁ h₂) fun a ha hd' => ?_
      rw [Set.union_comm]
      exact Balanced.beside hpick h hrest (fun key h₁ h₂ => hd' key h₂ h₁) (hq.2 a ha)

theorem Balanced.both (hpick : L.Plain pick) : ∀ {p : Prog E A X α} {q : Prog E A X β} {H₁ H₂ : Set κ},
    (∀ key ∈ H₁, key ∉ H₂) → Balanced L ∅ H₁ p → Balanced L ∅ H₂ q → Balanced L ∅ (H₁ ∪ H₂) (p.both pick first q)
  | .ret r, _, _, _, _, hp, hq => by
    obtain rfl : _ = (∅ : Set κ) := hp
    rw [Set.empty_union]
    exact Balanced.after r hq
  | .op _ _, _, _, _, hd, hp, hq =>
    Balanced.beside hpick hp.1 (fun a _ _ ha hd' hq' => Balanced.both hpick hd' (hp.2 a ha) hq') hd hq

theorem Balanced.gather (hpick : L.Plain pick) : ∀ {tasks : List (Prog E A X α)},
    (∀ task ∈ tasks, Balanced L ∅ ∅ task) → Balanced L ∅ ∅ (Prog.gather pick first tasks)
  | [], _ => Balanced.pure _
  | task :: tasks, h => by
    have hrest := Balanced.gather hpick fun t ht => h t (List.mem_cons_of_mem _ ht)
    have hboth : Balanced L ∅ (∅ ∪ ∅) (task.both pick first (Prog.gather pick first tasks)) :=
      Balanced.both hpick (fun key _ => Set.notMem_empty key) (h task List.mem_cons_self) hrest
    rw [Set.union_empty] at hboth
    refine Balanced.bind (fun outcomes => ?_) hboth
    cases outcomes.2 with
    | ok rest => exact Balanced.pure _
    | error x => exact Balanced.throw _

end

end Prog

namespace System

variable {E : Type u} {A : E → Type v} {X : Type w} {κ : Type x} {σ : Type y} {α : Type v}

/-- The locks that a state shows are those that the operations leave. -/
structure Keeps (L : Locking E A X κ) (act : σ → (e : E) → Except X (A e) → σ → Prop) (held : σ → Set κ) :
    Prop where
  free : ∀ {s e a s' key}, act s e a s' → L.takes e a = some key → key ∉ held s
  after : ∀ {s e a s'}, act s e a s' → L.after (held s) e a ⊆ held s'

/-- A balanced program has every lock that it needs. -/
theorem wp_of_balanced {L : Locking E A X κ} {act : σ → (e : E) → Except X (A e) → σ → Prop}
    {held : σ → Set κ} (hkeeps : Keeps L act held) {H' : Set κ} : ∀ {prog : Prog E A X α} {H : Set κ} {s : σ},
      Prog.Balanced L H' H prog → H ⊆ held s →
      wp (alone act) (fun _ => True) (fun _ s e => ∀ key, L.needs e = some key → key ∈ held s) ⟨⟩ prog
        (fun _ _ => True) s
  | .ret _, _, _, _, _ => trivial
  | .op e k, H, s, h, hsub => by
    intro s' hr _
    obtain rfl : s' = s := (alone_stable fun t => t = s).trans rfl hr
    refine ⟨fun key hkey => hsub (h.1 key (Or.inr hkey)), fun a s'' hact _ => ?_⟩
    refine wp_of_balanced hkeeps (h.2 a fun key ht hmem => hkeeps.free hact ht (hsub hmem)) ?_
    intro key hkey
    exact hkeeps.after hact (hkey.imp id fun hk => ⟨hsub hk.1, hk.2⟩)

end System
