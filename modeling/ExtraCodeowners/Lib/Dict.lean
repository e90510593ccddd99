import Mathlib.Data.List.Forall2
import Mathlib.Data.List.Nodup

/-!
# Insertion-ordered dictionaries

A list of entries with distinct keys. Replacing a value keeps its position and
a new key goes last. The bulk operations (`updateWhere`, `deleteWhere`) are
characterized by what they do to the value of one key.
-/

universe u v

structure Dict (κ : Type u) (α : Type v) where
  entries : List (κ × α)
  nodup : (entries.map Prod.fst).Nodup

namespace Dict

variable {κ : Type u} {α : Type v}

def empty : Dict κ α := ⟨[], List.nodup_nil⟩

instance : EmptyCollection (Dict κ α) := ⟨empty⟩

def keys (d : Dict κ α) : List κ := d.entries.map Prod.fst

def values (d : Dict κ α) : List α := d.entries.map Prod.snd

theorem eq_of_mem {d : Dict κ α} {k : κ} {a b : α} (ha : (k, a) ∈ d.entries)
    (hb : (k, b) ∈ d.entries) : a = b := by
  have := List.inj_on_of_nodup_map d.nodup ha hb rfl
  exact (Prod.mk.inj this).2

def any (p : κ → α → Bool) (d : Dict κ α) : Bool := d.entries.any fun e => p e.1 e.2

def countWhere (p : κ → α → Bool) (d : Dict κ α) : Nat := d.entries.countP fun e => p e.1 e.2

def updateWhere (p : κ → α → Bool) (f : α → α) (d : Dict κ α) : Dict κ α where
  entries := d.entries.map fun e => (e.1, if p e.1 e.2 then f e.2 else e.2)
  nodup := by
    rw [List.map_map]
    exact d.nodup

def deleteWhere (p : κ → α → Bool) (d : Dict κ α) : Dict κ α where
  entries := d.entries.filter fun e => !p e.1 e.2
  nodup := d.nodup.sublist (List.filter_sublist.map _)

section
variable [DecidableEq κ]

def get? (d : Dict κ α) (k : κ) : Option α :=
  (d.entries.find? fun e => e.1 = k).map Prod.snd

/-- Appends a fresh key; a key already present keeps its value. -/
def insertNew (k : κ) (a : α) (d : Dict κ α) : Dict κ α :=
  if h : k ∈ d.keys then d
  else
    { entries := d.entries ++ [(k, a)]
      nodup := by
        rw [List.map_append, List.nodup_append]
        refine ⟨d.nodup, by simp, ?_⟩
        intro x hx y hy
        simp only [List.map_cons, List.map_nil, List.mem_singleton] at hy
        subst hy
        exact fun e => h (e ▸ hx) }

def set (k : κ) (a : α) (d : Dict κ α) : Dict κ α :=
  if k ∈ d.keys then d.updateWhere (fun k' _ => k' = k) (fun _ => a) else d.insertNew k a

theorem get?_eq_some {d : Dict κ α} {k : κ} {a : α} :
    d.get? k = some a ↔ (k, a) ∈ d.entries := by
  unfold get?
  constructor
  · intro h
    obtain ⟨e, he, rfl⟩ := Option.map_eq_some_iff.mp h
    have hk : e.1 = k := by simpa using List.find?_some he
    have hm := List.mem_of_find?_eq_some he
    rw [← hk]; exact hm
  · intro h
    cases hf : d.entries.find? fun e => e.1 = k with
    | none =>
      have := List.find?_eq_none.mp hf (k, a) h
      simp at this
    | some e =>
      have hk : e.1 = k := by simpa using List.find?_some hf
      have hm : (k, e.2) ∈ d.entries := by
        rw [← hk]; exact List.mem_of_find?_eq_some hf
      rw [Option.map_some, eq_of_mem hm h]

theorem get?_eq_none {d : Dict κ α} {k : κ} : d.get? k = none ↔ ∀ a, (k, a) ∉ d.entries := by
  constructor
  · intro h a ha
    rw [get?_eq_some.mpr ha] at h; cases h
  · intro h
    cases hg : d.get? k with
    | none => rfl
    | some a => exact absurd (get?_eq_some.mp hg) (h a)

theorem mem_keys {d : Dict κ α} {k : κ} : k ∈ d.keys ↔ ∃ a, d.get? k = some a := by
  simp [keys, get?_eq_some]

theorem mem_values {d : Dict κ α} {a : α} : a ∈ d.values ↔ ∃ k, d.get? k = some a := by
  simp [values, get?_eq_some]

theorem not_mem_keys {d : Dict κ α} {k : κ} : k ∉ d.keys ↔ d.get? k = none := by
  rw [mem_keys]
  cases d.get? k <;> simp

/-! ## The value of one key after an operation -/

@[simp] theorem get?_empty (k : κ) : (∅ : Dict κ α).get? k = none := rfl

@[simp] theorem get?_updateWhere (p : κ → α → Bool) (f : α → α) (d : Dict κ α) (k : κ) :
    (d.updateWhere p f).get? k = (d.get? k).map fun a => if p k a then f a else a := by
  cases h : d.get? k with
  | none =>
    rw [get?_eq_none] at h
    simp only [Option.map_none, get?_eq_none]
    intro a ha
    obtain ⟨e, he, heq⟩ := List.mem_map.mp ha
    obtain ⟨hk, -⟩ := Prod.mk.inj heq
    exact h e.2 (hk ▸ he)
  | some a =>
    simp only [Option.map_some, get?_eq_some]
    exact List.mem_map.mpr ⟨(k, a), get?_eq_some.mp h, rfl⟩

@[simp] theorem get?_deleteWhere (p : κ → α → Bool) (d : Dict κ α) (k : κ) :
    (d.deleteWhere p).get? k = (d.get? k).filter fun a => !p k a := by
  cases h : d.get? k with
  | none =>
    rw [get?_eq_none] at h
    simp only [Option.filter_none, get?_eq_none]
    intro a ha
    exact h a (List.mem_filter.mp ha).1
  | some a =>
    have hm := get?_eq_some.mp h
    cases hp : p k a with
    | true =>
      simp only [Option.filter, hp, Bool.not_true, Bool.false_eq_true, if_false, get?_eq_none]
      intro b hb
      obtain ⟨hb, hpb⟩ := List.mem_filter.mp hb
      rw [eq_of_mem hb hm, hp] at hpb
      cases hpb
    | false =>
      simp only [Option.filter, hp, Bool.not_false, if_true, get?_eq_some]
      exact List.mem_filter.mpr ⟨hm, by simp [hp]⟩

theorem get?_insertNew {d : Dict κ α} {k : κ} (h : d.get? k = none) (a : α) (k' : κ) :
    (d.insertNew k a).get? k' = if k' = k then some a else d.get? k' := by
  have hk : k ∉ d.keys := not_mem_keys.mpr h
  unfold insertNew
  rw [dif_neg hk]
  by_cases e : k' = k
  · subst e
    rw [if_pos rfl, get?_eq_some]
    simp
  · rw [if_neg e]
    cases hg : d.get? k' with
    | none =>
      rw [get?_eq_none] at hg ⊢
      intro b hb
      rcases List.mem_append.mp hb with hb | hb
      · exact hg b hb
      · simp only [List.mem_singleton, Prod.mk.injEq] at hb
        exact e hb.1
    | some b =>
      rw [get?_eq_some] at hg ⊢
      exact List.mem_append_left _ hg

theorem get?_set (d : Dict κ α) (k : κ) (a : α) (k' : κ) :
    (d.set k a).get? k' = if k' = k then some a else d.get? k' := by
  unfold set
  by_cases h : k ∈ d.keys
  · rw [if_pos h, get?_updateWhere]
    obtain ⟨b, hb⟩ := mem_keys.mp h
    by_cases e : k' = k
    · subst e; simp [hb]
    · cases d.get? k' <;> simp [e]
  · rw [if_neg h, get?_insertNew (not_mem_keys.mp h)]

@[simp] theorem get?_set_self (d : Dict κ α) (k : κ) (a : α) : (d.set k a).get? k = some a := by
  rw [get?_set, if_pos rfl]

theorem get?_set_ne (d : Dict κ α) {k k' : κ} (a : α) (h : k' ≠ k) :
    (d.set k a).get? k' = d.get? k' := by
  rw [get?_set, if_neg h]

theorem mem_keys_set {d : Dict κ α} {k k' : κ} {a : α} : k' ∈ (d.set k a).keys ↔ k' = k ∨ k' ∈ d.keys := by
  rw [mem_keys, mem_keys]
  by_cases e : k' = k
  · exact iff_of_true ⟨a, by rw [get?_set, if_pos e]⟩ (Or.inl e)
  · simp [get?_set, e]

/-! ## Grouping a list under keys -/

section
variable {β : Type*}

/-- One dictionary entry for each key of `l`, folded from the values under it. -/
def group (key : β → κ) (step : Option α → β → α) (l : List β) : Dict κ α :=
  l.foldl (fun d b => d.set (key b) (step (d.get? (key b)) b)) ∅

theorem get?_group (key : β → κ) (step : Option α → β → α) (l : List β) (k : κ) :
    (group key step l).get? k =
      (l.filter (key · = k)).foldl (fun o b => some (step o b)) none := by
  have fold : ∀ (l : List β) (d : Dict κ α),
      (l.foldl (fun d b => d.set (key b) (step (d.get? (key b)) b)) d).get? k =
        (l.filter (key · = k)).foldl (fun o b => some (step o b)) (d.get? k) := by
    intro l
    induction l with
    | nil => intro d; rfl
    | cons b l ih =>
      intro d
      rw [List.foldl_cons, ih, List.filter_cons, get?_set]
      by_cases h : key b = k
      · subst h; simp
      · simp [h, Ne.symm h]
  exact fold l ∅

theorem get?_group_isSome (key : β → κ) (step : Option α → β → α) (l : List β) (k : κ) :
    ((group key step l).get? k).isSome = true ↔ ∃ b ∈ l, key b = k := by
  have fold : ∀ (l : List β) (o : Option α),
      (l.foldl (fun o b => some (step o b)) o).isSome = true ↔ o.isSome = true ∨ l ≠ [] := by
    intro l
    induction l with
    | nil => intro o; simp
    | cons b l ih => intro o; rw [List.foldl_cons, ih]; simp
  rw [get?_group, fold]
  simp

/-- Collecting the values under each key, in order. -/
def collect (key : β → κ) (l : List β) : Dict κ (List β) :=
  group key (fun o b => o.getD [] ++ [b]) l

theorem get?_collect (key : β → κ) (l : List β) (k : κ) (bs : List β) :
    (collect key l).get? k = some bs ↔ bs = l.filter (key · = k) ∧ bs ≠ [] := by
  have fold : ∀ (l bs : List β),
      l.foldl (fun o b => some (o.getD [] ++ [b])) (some bs) = some (bs ++ l) := by
    intro l
    induction l with
    | nil => intro bs; simp
    | cons b l ih => intro bs; rw [List.foldl_cons]; simp [ih]
  unfold collect
  rw [get?_group]
  cases h : l.filter (key · = k) with
  | nil => constructor <;> simp_all
  | cons b l' =>
    rw [List.foldl_cons, fold]
    constructor
    · rintro ⟨⟩; simp
    · rintro ⟨rfl, -⟩; simp

end

theorem any_eq_true {p : κ → α → Bool} {d : Dict κ α} :
    d.any p = true ↔ ∃ k a, d.get? k = some a ∧ p k a = true := by
  simp [any, List.any_eq_true, get?_eq_some]

theorem any_eq_false {p : κ → α → Bool} {d : Dict κ α} :
    d.any p = false ↔ ∀ k a, d.get? k = some a → p k a = false := by
  rw [← Bool.not_eq_true, any_eq_true]
  simp

/-- A bulk update that meets no entry does nothing. -/
theorem updateWhere_eq_self {p : κ → α → Bool} {f : α → α} {d : Dict κ α} (h : d.any p = false) :
    d.updateWhere p f = d := by
  have hp : ∀ e ∈ d.entries, p e.1 e.2 = false := by
    intro e he
    exact any_eq_false.mp h e.1 e.2 (get?_eq_some.mpr he)
  obtain ⟨entries, hnodup⟩ := d
  have he : (entries.map fun e => (e.1, if p e.1 e.2 then f e.2 else e.2)) = entries.map id := by
    refine List.map_congr_left fun e he => ?_
    simp [hp e he]
  simp only [updateWhere, he, List.map_id]

/-! ## Selecting a least entry -/

/-- The entry that satisfies `p` and comes first in the order `before`. -/
def select (p : κ → α → Bool) (before : κ × α → κ × α → Bool) (d : Dict κ α) : Option (κ × α) :=
  (d.entries.filter fun e => p e.1 e.2).foldl
    (fun best e => match best with
      | none => some e
      | some b => if before e b then some e else some b) none

theorem select_some {p : κ → α → Bool} {before : κ × α → κ × α → Bool} {d : Dict κ α} {k : κ} {a : α}
    (h : d.select p before = some (k, a)) : d.get? k = some a ∧ p k a = true := by
  have fold : ∀ (l : List (κ × α)) (o : Option (κ × α)) (x : κ × α),
      l.foldl (fun best e => match best with
        | none => some e
        | some b => if before e b then some e else some b) o = some x → x ∈ l ∨ o = some x := by
    intro l
    induction l with
    | nil => intro o x hx; exact Or.inr hx
    | cons e l ih =>
      intro o x hx
      rw [List.foldl_cons] at hx
      rcases ih _ x hx with hm | hm
      · exact Or.inl (List.mem_cons_of_mem _ hm)
      · cases o with
        | none => cases hm; exact Or.inl (by simp)
        | some b =>
          by_cases hb : before e b = true
          · simp only [hb, if_true] at hm
            cases hm; exact Or.inl (by simp)
          · simp only [hb] at hm
            exact Or.inr hm
  have hm := (fold _ _ _ h).resolve_right (by simp)
  obtain ⟨hm, hp⟩ := List.mem_filter.mp hm
  exact ⟨get?_eq_some.mpr hm, hp⟩

/-! ## Related dictionaries -/

omit [DecidableEq κ] in
theorem ext {d d' : Dict κ α} (h : d.entries = d'.entries) : d = d' := by
  cases d
  cases d'
  cases h
  rfl

theorem set_get? {d : Dict κ α} {k : κ} {a : α} (h : d.get? k = some a) : d.set k a = d := by
  apply ext
  unfold set
  rw [if_pos (mem_keys.mpr ⟨a, h⟩)]
  show d.entries.map (fun e => (e.1, if decide (e.1 = k) = true then a else e.2)) = d.entries
  conv_rhs => rw [← List.map_id d.entries]
  refine List.map_congr_left fun e he => ?_
  by_cases hk : e.1 = k
  · have : e.2 = a := eq_of_mem (hk ▸ he) (get?_eq_some.mp h)
    simp [hk, ← this]
    rw [← hk]
  · simp [hk]

section
variable {κ' : Type*} {α' β β' : Type*} [DecidableEq κ'] {K : κ → κ' → Prop} {R : α → α' → Prop}

/-- Entry by entry: corresponding keys with related values. -/
def Related (K : κ → κ' → Prop) (R : α → α' → Prop) (d : Dict κ α) (d' : Dict κ' α') : Prop :=
  List.Forall₂ (fun e e' => K e.1 e'.1 ∧ R e.2 e'.2) d.entries d'.entries

omit [DecidableEq κ] [DecidableEq κ'] in
theorem Related.values {d : Dict κ α} {d' : Dict κ' α'} (h : Related K R d d') :
    List.Forall₂ R d.values d'.values := by
  unfold Dict.values
  rw [List.forall₂_map_left_iff, List.forall₂_map_right_iff]
  exact h.imp fun _ _ he => he.2

variable (unique : ∀ {k k' j j'}, K k k' → K j j' → (k = j ↔ k' = j'))
include unique

theorem Related.get? {d : Dict κ α} {d' : Dict κ' α'} (h : Related K R d d') {k : κ} {k' : κ'}
    (hk : K k k') : Option.Rel R (d.get? k) (d'.get? k') := by
  unfold Dict.get?
  have key : ∀ {l : List (κ × α)} {l' : List (κ' × α')},
      List.Forall₂ (fun e e' => K e.1 e'.1 ∧ R e.2 e'.2) l l' →
      Option.Rel R ((l.find? fun e => e.1 = k).map Prod.snd) ((l'.find? fun e => e.1 = k').map Prod.snd) := by
    intro l l' hl
    induction hl with
    | nil => exact .none
    | cons he _ ih =>
      rw [List.find?_cons, List.find?_cons]
      simp only [unique he.1 hk]
      split
      · exact .some he.2
      · exact ih
  exact key h

theorem Related.set {d : Dict κ α} {d' : Dict κ' α'} (h : Related K R d d') {k : κ} {k' : κ'}
    (hk : K k k') {a : α} {a' : α'} (ha : R a a') : Related K R (d.set k a) (d'.set k' a') := by
  have hkeys : k ∈ d.keys ↔ k' ∈ d'.keys := by
    have := h.get? unique hk
    rw [mem_keys, mem_keys]
    cases hg : d.get? k with
    | none =>
      cases hg' : d'.get? k' with
      | none => simp
      | some b' => rw [hg, hg'] at this; cases this
    | some b =>
      cases hg' : d'.get? k' with
      | none => rw [hg, hg'] at this; cases this
      | some b' => simp
  unfold Dict.set
  by_cases hm : k ∈ d.keys
  · rw [if_pos hm, if_pos (hkeys.mp hm)]
    show List.Forall₂ _ (d.entries.map _) (d'.entries.map _)
    rw [List.forall₂_map_left_iff, List.forall₂_map_right_iff]
    refine List.Forall₂.imp ?_ h
    rintro e e' ⟨hke, hre⟩
    refine ⟨hke, ?_⟩
    simp only [unique hke hk]
    split
    · exact ha
    · exact hre
  · have hm' := fun h' => hm (hkeys.mpr h')
    rw [if_neg hm, if_neg hm']
    unfold Dict.insertNew
    rw [dif_neg hm, dif_neg hm']
    exact List.rel_append h (.cons ⟨hk, ha⟩ .nil)

/-- Grouping related lists under corresponding keys gives related dictionaries. -/
theorem Related.group {Q : β → β' → Prop} {key : β → κ} {key' : β' → κ'} {step : Option α → β → α}
    {step' : Option α' → β' → α'} (hkey : ∀ {b b'}, Q b b' → K (key b) (key' b'))
    (hstep : ∀ {o o' b b'}, Option.Rel R o o' → Q b b' → R (step o b) (step' o' b'))
    {l : List β} {l' : List β'} (h : List.Forall₂ Q l l') :
    Related K R (Dict.group key step l) (Dict.group key' step' l') := by
  have fold : ∀ {l : List β} {l' : List β'}, List.Forall₂ Q l l' →
      ∀ {d : Dict κ α} {d' : Dict κ' α'}, Related K R d d' →
      Related K R (l.foldl (fun d b => d.set (key b) (step (d.get? (key b)) b)) d)
        (l'.foldl (fun d b => d.set (key' b) (step' (d.get? (key' b)) b)) d') := by
    intro l l' hl
    induction hl with
    | nil => intro d d' hd; exact hd
    | cons hb _ ih =>
      intro d d' hd
      exact ih (hd.set unique (hkey hb) (hstep (hd.get? unique (hkey hb)) hb))
  exact fold h .nil

end

/-- A step that keeps one of the two values puts nothing new into a group. -/
theorem mem_of_get?_group {key : α → κ} {step : Option α → α → α} {l : List α}
    (hstep : ∀ o b, step o b = b ∨ o = some (step o b)) {k : κ} {a : α}
    (h : (group key step l).get? k = some a) : a ∈ l ∧ key a = k := by
  have fold : ∀ (l : List α) (o : Option α), l.foldl (fun o b => some (step o b)) o = some a →
      o = some a ∨ a ∈ l := by
    intro l
    induction l with
    | nil => exact fun _ h => Or.inl h
    | cons b l ih =>
      intro o h
      rcases ih _ h with he | hm
      · cases he
        rcases hstep o b with hb | ho
        · exact Or.inr (by rw [hb]; simp)
        · exact Or.inl ho
      · exact Or.inr (List.mem_cons_of_mem _ hm)
  rw [get?_group] at h
  have hm := (fold _ _ h).resolve_left (by simp)
  simpa using hm

/-- Grouping under distinct keys keeps every element. -/
theorem values_group_of_nodup {key : α → κ} {step : Option α → α → α} {l : List α}
    (hstep : ∀ a, step none a = a) (h : (l.map key).Nodup) : (group key step l).values = l := by
  have fold : ∀ (l : List α) (d : Dict κ α), (l.map key).Nodup → (∀ a ∈ l, key a ∉ d.keys) →
      (l.foldl (fun d b => d.set (key b) (step (d.get? (key b)) b)) d).values = d.values ++ l := by
    intro l
    induction l with
    | nil => intro d _ _; simp
    | cons a l ih =>
      intro d hl hd
      rw [List.map_cons, List.nodup_cons] at hl
      have ha : key a ∉ d.keys := hd a (by simp)
      have hset : (d.set (key a) a).values = d.values ++ [a] := by
        unfold Dict.set Dict.insertNew
        rw [if_neg ha, dif_neg ha]
        simp [Dict.values]
      rw [List.foldl_cons, not_mem_keys.mp ha, hstep, ih _ hl.2 ?_, hset, List.append_assoc]
      · rfl
      · intro b hb hm
        rcases mem_keys_set.mp hm with he | hm
        · exact hl.1 (he ▸ List.mem_map_of_mem hb)
        · exact hd b (by simp [hb]) hm
  exact fold l ∅ h (by simp [mem_keys])

end

end Dict
