import Mathlib.Computability.Language

/-!
# Regular expressions over character classes

The leaves are predicates on one symbol, so a class, a complement and a dot
are all `sat`. `fullmatch` runs Brzozowski derivatives and decides membership
in the denoted `Language` (`fullmatch_iff`).
-/

open Computability

universe u

inductive Regex (α : Type u) where
  | empty
  | eps
  | sat (p : α → Bool)
  | cat (r s : Regex α)
  | alt (r s : Regex α)
  | star (r : Regex α)

namespace Regex

variable {α : Type u}

def language : Regex α → Language α
  | empty => 0
  | eps => 1
  | sat p => {w | ∃ a, p a = true ∧ w = [a]}
  | cat r s => r.language * s.language
  | alt r s => r.language + s.language
  | star r => r.language∗

def nullable : Regex α → Bool
  | empty => false
  | eps => true
  | sat _ => false
  | cat r s => r.nullable && s.nullable
  | alt r s => r.nullable || s.nullable
  | star _ => true

def deriv (a : α) : Regex α → Regex α
  | empty => empty
  | eps => empty
  | sat p => if p a then eps else empty
  | cat r s =>
    if r.nullable then alt (cat (r.deriv a) s) (s.deriv a) else cat (r.deriv a) s
  | alt r s => alt (r.deriv a) (s.deriv a)
  | star r => cat (r.deriv a) (star r)

/-- Whether the whole word matches. -/
def fullmatch (r : Regex α) : List α → Bool
  | [] => r.nullable
  | a :: w => (r.deriv a).fullmatch w

def opt (r : Regex α) : Regex α := alt eps r

/-- The concatenation of a list of expressions. -/
def seq (rs : List (Regex α)) : Regex α := rs.foldr cat eps

/-! ## The matcher decides the language -/

theorem nullable_iff (r : Regex α) : r.nullable = true ↔ [] ∈ r.language := by
  induction r with
  | empty => simp [nullable, language, Language.notMem_zero]
  | eps => simp [nullable, language]
  | sat p =>
    simp only [nullable, language, Bool.false_eq_true, false_iff]
    rintro ⟨a, -, h⟩; cases h
  | cat r s ihr ihs =>
    simp only [nullable, language, Bool.and_eq_true, ihr, ihs, Language.mem_mul]
    constructor
    · rintro ⟨h₁, h₂⟩; exact ⟨[], h₁, [], h₂, rfl⟩
    · rintro ⟨u, hu, v, hv, h⟩
      obtain ⟨rfl, rfl⟩ := List.append_eq_nil_iff.mp h
      exact ⟨hu, hv⟩
  | alt r s ihr ihs =>
    simp only [nullable, language, Bool.or_eq_true, ihr, ihs]
    exact (Language.mem_add _ _ _).symm
  | star r => simp [nullable, language, Language.nil_mem_kstar]

theorem cons_mem_mul {L M : Language α} {a : α} {w : List α} :
    a :: w ∈ L * M ↔ (∃ u v, u ++ v = w ∧ a :: u ∈ L ∧ v ∈ M) ∨ ([] ∈ L ∧ a :: w ∈ M) := by
  rw [Language.mem_mul]
  constructor
  · rintro ⟨x, hx, y, hy, h⟩
    cases x with
    | nil => exact Or.inr ⟨hx, by rw [← h]; exact hy⟩
    | cons b u =>
      obtain ⟨rfl, rfl⟩ := List.cons.inj h
      exact Or.inl ⟨u, y, rfl, hx, hy⟩
  · rintro (⟨u, v, rfl, hu, hv⟩ | ⟨h₁, h₂⟩)
    · exact ⟨a :: u, hu, v, hv, rfl⟩
    · exact ⟨[], h₁, a :: w, h₂, rfl⟩

theorem cons_mem_kstar {L : Language α} {a : α} {w : List α} :
    a :: w ∈ L∗ ↔ ∃ u v, u ++ v = w ∧ a :: u ∈ L ∧ v ∈ L∗ := by
  constructor
  · intro h
    obtain ⟨S, hS, hne⟩ := (Language.mem_kstar_iff_exists_nonempty).mp h
    cases S with
    | nil => simp at hS
    | cons x S =>
      obtain ⟨hx, hx'⟩ := hne x (by simp)
      cases x with
      | nil => exact absurd rfl hx'
      | cons b u =>
        obtain ⟨rfl, rfl⟩ := List.cons.inj hS
        exact ⟨u, S.flatten, rfl, hx, Language.join_mem_kstar fun y hy => (hne y (by simp [hy])).1⟩
  · rintro ⟨u, v, rfl, hu, hv⟩
    obtain ⟨S, rfl, hS⟩ := Language.mem_kstar.mp hv
    refine Language.mem_kstar.mpr ⟨(a :: u) :: S, by simp, ?_⟩
    intro y hy
    rcases List.mem_cons.mp hy with rfl | hy
    · exact hu
    · exact hS y hy

theorem mem_deriv (a : α) (r : Regex α) : ∀ w, w ∈ (r.deriv a).language ↔ a :: w ∈ r.language := by
  induction r with
  | empty => intro w; simp [deriv, language, Language.notMem_zero]
  | eps => intro w; simp [deriv, language, Language.notMem_zero, Language.mem_one]
  | sat p =>
    intro w
    have key : a :: w ∈ (sat p).language ↔ p a = true ∧ w = [] := by
      constructor
      · rintro ⟨b, hb, h⟩
        obtain ⟨rfl, rfl⟩ := List.cons.inj h
        exact ⟨hb, rfl⟩
      · rintro ⟨ha, rfl⟩; exact ⟨a, ha, rfl⟩
    rw [key]
    by_cases ha : p a = true
    · simp [deriv, ha, language, Language.mem_one]
    · simp [deriv, ha, language, Language.notMem_zero]
  | cat r s ihr ihs =>
    intro w
    have hcat : w ∈ (cat (r.deriv a) s).language ↔
        ∃ u v, u ++ v = w ∧ a :: u ∈ r.language ∧ v ∈ s.language := by
      simp only [language, Language.mem_mul]
      constructor
      · rintro ⟨u, hu, v, hv, h⟩; exact ⟨u, v, h, (ihr u).mp hu, hv⟩
      · rintro ⟨u, v, h, hu, hv⟩; exact ⟨u, (ihr u).mpr hu, v, hv, h⟩
    change _ ↔ a :: w ∈ r.language * s.language
    rw [cons_mem_mul]
    by_cases hr : r.nullable = true
    · simp only [deriv, hr, if_true]
      change w ∈ (cat (r.deriv a) s).language + (s.deriv a).language ↔ _
      rw [Language.mem_add, hcat, ihs]
      simp [(nullable_iff r).mp hr]
    · simp only [deriv, hr]
      have : [] ∉ r.language := fun h => hr ((nullable_iff r).mpr h)
      simp only [this, false_and, or_false]
      exact hcat
  | alt r s ihr ihs =>
    intro w
    simp only [deriv, language, Language.mem_add, ihr, ihs]
  | star r ih =>
    intro w
    change w ∈ (r.deriv a).language * r.language∗ ↔ a :: w ∈ r.language∗
    rw [cons_mem_kstar, Language.mem_mul]
    constructor
    · rintro ⟨u, hu, v, hv, h⟩; exact ⟨u, v, h, (ih u).mp hu, hv⟩
    · rintro ⟨u, v, h, hu, hv⟩; exact ⟨u, (ih u).mpr hu, v, hv, h⟩

theorem fullmatch_iff (r : Regex α) (w : List α) : r.fullmatch w = true ↔ w ∈ r.language := by
  induction w generalizing r with
  | nil => exact nullable_iff r
  | cons a w ih => rw [fullmatch, ih, mem_deriv]

/-! ## Membership rules -/

@[simp] theorem mem_eps {w : List α} : w ∈ (eps : Regex α).language ↔ w = [] := Iff.rfl

@[simp] theorem mem_sat {p : α → Bool} {w : List α} :
    w ∈ (sat p).language ↔ ∃ a, p a = true ∧ w = [a] := Iff.rfl

theorem mem_cat {r s : Regex α} {w : List α} :
    w ∈ (cat r s).language ↔ ∃ u v, w = u ++ v ∧ u ∈ r.language ∧ v ∈ s.language := by
  change w ∈ r.language * s.language ↔ _
  rw [Language.mem_mul]
  constructor
  · rintro ⟨u, hu, v, hv, h⟩; exact ⟨u, v, h.symm, hu, hv⟩
  · rintro ⟨u, v, h, hu, hv⟩; exact ⟨u, hu, v, hv, h.symm⟩

@[simp] theorem mem_opt {r : Regex α} {w : List α} :
    w ∈ r.opt.language ↔ w = [] ∨ w ∈ r.language := by
  change w ∈ (1 : Language α) + r.language ↔ _
  rw [Language.mem_add, Language.mem_one]

/-- A starred class matches the words whose symbols all lie in it. -/
@[simp] theorem mem_star_sat {p : α → Bool} {w : List α} :
    w ∈ (star (sat p)).language ↔ ∀ a ∈ w, p a = true := by
  induction w with
  | nil =>
    simp only [List.not_mem_nil, false_implies, implies_true, iff_true]
    exact Language.nil_mem_kstar _
  | cons a w ih =>
    change a :: w ∈ (sat p).language∗ ↔ _
    rw [cons_mem_kstar]
    constructor
    · rintro ⟨u, v, rfl, ⟨b, hb, h⟩, hv⟩
      obtain ⟨rfl, rfl⟩ := List.cons.inj h
      intro c hc
      rcases List.mem_cons.mp hc with rfl | hc
      · exact hb
      · exact ih.mp hv c hc
    · intro h
      exact ⟨[], w, rfl, ⟨a, h a (by simp), rfl⟩, ih.mpr fun c hc => h c (by simp [hc])⟩

@[simp] theorem seq_nil : (seq ([] : List (Regex α))) = eps := rfl

theorem mem_seq_cons {r : Regex α} {rs : List (Regex α)} {w : List α} :
    w ∈ (seq (r :: rs)).language ↔ ∃ u v, w = u ++ v ∧ u ∈ r.language ∧ v ∈ (seq rs).language :=
  mem_cat

theorem mem_seq_append {rs ss : List (Regex α)} {w : List α} :
    w ∈ (seq (rs ++ ss)).language ↔
      ∃ u v, w = u ++ v ∧ u ∈ (seq rs).language ∧ v ∈ (seq ss).language := by
  induction rs generalizing w with
  | nil => simp
  | cons r rs ih =>
    rw [List.cons_append, mem_seq_cons]
    constructor
    · rintro ⟨x, y, rfl, hx, hy⟩
      obtain ⟨u, v, rfl, hu, hv⟩ := ih.mp hy
      exact ⟨x ++ u, v, by simp, mem_seq_cons.mpr ⟨x, u, rfl, hx, hu⟩, hv⟩
    · rintro ⟨u, v, rfl, hu, hv⟩
      obtain ⟨x, y, rfl, hx, hy⟩ := mem_seq_cons.mp hu
      exact ⟨x, y ++ v, by simp, hx, ih.mpr ⟨y, v, rfl, hy, hv⟩⟩

/-- Every class of the expression lies in `P`. -/
def Within (P : α → Prop) : Regex α → Prop
  | empty => True
  | eps => True
  | sat p => ∀ a, p a = true → P a
  | cat r s => r.Within P ∧ s.Within P
  | alt r s => r.Within P ∧ s.Within P
  | star r => r.Within P

theorem forall_mem_of_within {P : α → Prop} {r : Regex α} (h : r.Within P) {w : List α}
    (hw : w ∈ r.language) : ∀ a ∈ w, P a := by
  induction r generalizing w with
  | empty => exact absurd hw (Language.notMem_zero w)
  | eps =>
    rw [mem_eps.mp hw]
    simp
  | sat p =>
    obtain ⟨a, ha, rfl⟩ := mem_sat.mp hw
    simpa using h a ha
  | cat r s ihr ihs =>
    obtain ⟨u, v, rfl, hu, hv⟩ := mem_cat.mp hw
    rw [List.forall_mem_append]
    exact ⟨ihr h.1 hu, ihs h.2 hv⟩
  | alt r s ihr ihs =>
    rcases (Language.mem_add _ _ _).mp hw with hw | hw
    · exact ihr h.1 hw
    · exact ihs h.2 hw
  | star r ih =>
    obtain ⟨words, rfl, hwords⟩ := Language.mem_kstar.mp hw
    intro a ha
    obtain ⟨u, hu, hau⟩ := List.mem_flatten.mp ha
    exact ih h (hwords u hu) a hau

end Regex
