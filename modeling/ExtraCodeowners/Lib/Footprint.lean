import ExtraCodeowners.Lib.Local

/-!
# Footprints

A footprint bounds the operations of a program whatever their answers are. It
is a property of the text of a program, and an assertion that the operations in
it keep holds throughout.
-/

universe u v w x y

namespace Prog

section
variable {E : Type u} {A : E → Type v} {X : Type w} {α β : Type v}

/-- Every operation of a program is allowed. -/
def Only (allowed : E → Prop) : Prog E A X α → Prop
  | .ret _ => True
  | .op e k => allowed e ∧ ∀ a, (k a).Only allowed

variable {allowed wider : E → Prop}

theorem Only.mono (hw : ∀ e, allowed e → wider e) : ∀ {prog : Prog E A X α}, prog.Only allowed →
    prog.Only wider
  | .ret _, _ => trivial
  | .op e _, h => ⟨hw e h.1, fun a => Only.mono hw (h.2 a)⟩

theorem Only.pure (a : α) : (Pure.pure a : Prog E A X α).Only allowed := trivial

theorem Only.throw (x : X) : (Prog.throw x : Prog E A X α).Only allowed := trivial

theorem Only.perform {e : E} (he : allowed e) : (Prog.perform e : Prog E A X (A e)).Only allowed :=
  ⟨he, fun _ => trivial⟩

theorem Only.bind {f : α → Prog E A X β} (hf : ∀ a, (f a).Only allowed) : ∀ {prog : Prog E A X α},
    prog.Only allowed → (prog >>= f).Only allowed
  | .ret (.ok a), _ => hf a
  | .ret (.error _), _ => trivial
  | .op _ _, h => ⟨h.1, fun a => Only.bind hf (h.2 a)⟩

theorem Only.map {f : α → β} {prog : Prog E A X α} (h : prog.Only allowed) : (f <$> prog).Only allowed :=
  Only.bind (fun a => Only.pure (f a)) h

theorem Only.ite {c : Prop} [Decidable c] {prog prog' : Prog E A X α} (h : prog.Only allowed)
    (h' : prog'.Only allowed) : (if c then prog else prog').Only allowed := by
  by_cases hc : c
  · rwa [if_pos hc]
  · rwa [if_neg hc]

theorem Only.handle {f : X → Prog E A X α} (hf : ∀ x, (f x).Only allowed) : ∀ {prog : Prog E A X α},
    prog.Only allowed → (prog.handle f).Only allowed
  | .ret (.ok _), _ => trivial
  | .ret (.error x), _ => hf x
  | .op _ _, h => ⟨h.1, fun a => Only.handle hf (h.2 a)⟩

theorem Only.andFinally {last : Prog E A X PUnit} (hl : last.Only allowed) : ∀ {prog : Prog E A X α},
    prog.Only allowed → (prog.andFinally last).Only allowed
  | .ret r, _ => Only.bind (f := fun _ => .ret r) (fun _ => trivial) hl
  | .op _ _, h => ⟨h.1, fun a => Only.andFinally hl (h.2 a)⟩

theorem Only.foldlM {γ : Type y} {f : β → γ → Prog E A X β} : ∀ {l : List γ} {b : β},
    (∀ b, ∀ c ∈ l, (f b c).Only allowed) → (l.foldlM f b).Only allowed
  | [], _, _ => trivial
  | c :: l, b, h => by
    rw [List.foldlM_cons]
    exact Only.bind (fun _ => Only.foldlM fun b d hd => h b d (List.mem_cons_of_mem _ hd))
      (h b c List.mem_cons_self)

end

end Prog

namespace System

variable {P : Type u} {E : Type u} {A : E → Type v} {X : Type w} {σ : Type x} {α : Type v}
  {S : System P E A X σ} {I : σ → Prop} {G : P → σ → E → Prop} {p : P} {allowed : E → Prop}

/-- An assertion that allowed operations keep, and that guarantees them, holds throughout. -/
theorem Triple.only {K : σ → Prop} (hK : Stable S I G p K)
    (hG : ∀ s e, I s → K s → allowed e → G p s e)
    (hstep : ∀ s e a s', K s → allowed e → S.perform p s e a s' → K s') : ∀ {prog : Prog E A X α},
      prog.Only allowed → Triple S I G p K prog (fun _ => K) (fun _ => K)
  | .ret (.ok _), _ => fun _ _ hs => hs
  | .ret (.error _), _ => fun _ _ hs => hs
  | .op e _, h => by
    intro s _ hs s' hr hI'
    have hs' := hK.trans hs hr
    refine ⟨hG s' e hI' hs' h.1, fun a s'' hp hI'' => ?_⟩
    exact Triple.only hK hG hstep (h.2 a) s'' hI'' (hstep s' e a s'' hs' h.1 hp)

end System
