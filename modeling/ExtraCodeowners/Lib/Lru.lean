import Mathlib.Data.List.Infix
import Mathlib.Data.List.Nodup

/-!
# Least recently used maps

A map kept as a list of slots, the least recently used first. Storing a slot
sheds the oldest ones until the rest fits. The history of a run, newest event
first, explains every slot that is left.
-/

namespace Lru

/-! ## Shedding -/

section
variable {β : Type*}

/-- Drops from the front until the rest fits. -/
def shed (fits : List β → Bool) : List β → List β
  | [] => []
  | b :: l => if fits (b :: l) then b :: l else shed fits l

theorem shed_suffix (fits : List β → Bool) (l : List β) : shed fits l <:+ l := by
  induction l with
  | nil => exact List.suffix_refl _
  | cons b l ih =>
    rw [shed]
    by_cases h : fits (b :: l) = true
    · rw [if_pos h]
    · rw [if_neg h]
      exact ih.trans (List.suffix_cons b l)

theorem fits_shed {fits : List β → Bool} (h : fits [] = true) (l : List β) : fits (shed fits l) = true := by
  induction l with
  | nil => exact h
  | cons b l ih =>
    rw [shed]
    by_cases hf : fits (b :: l) = true
    · rw [if_pos hf]
      exact hf
    · rw [if_neg hf]
      exact ih

/-- A suffix that fits is never shed. -/
theorem suffix_shed {fits : List β → Bool} {t l : List β} (ht : t <:+ l) (hf : fits t = true) :
    t <:+ shed fits l := by
  induction l with
  | nil => exact ht
  | cons b l ih =>
    rw [shed]
    by_cases h : fits (b :: l) = true
    · rw [if_pos h]
      exact ht
    · rw [if_neg h]
      rcases List.suffix_cons_iff.mp ht with rfl | ht
      · exact absurd hf h
      · exact ih ht

end

/-! ## Slots and their history -/

structure Slot (α τ : Type*) where
  value : α
  used : τ
  weight : Nat

variable {κ α τ : Type*}

section
variable [DecidableEq κ]

def without (key : κ) (l : List (κ × Slot α τ)) : List (κ × Slot α τ) := l.filter fun e => e.1 ≠ key

/-- The slot of the key, moved to the end when it is fresh and dropped else. -/
def find (fresh : τ → Bool) (key : κ) (now : τ) (l : List (κ × Slot α τ)) :
    Option α × List (κ × Slot α τ) :=
  match l.find? fun e => e.1 = key with
  | none => (none, l)
  | some e =>
    if fresh e.2.used then (some e.2.value, without key l ++ [(key, ⟨e.2.value, now, e.2.weight⟩)])
    else (none, without key l)

def store (fits : List (κ × Slot α τ) → Bool) (key : κ) (slot : Slot α τ)
    (l : List (κ × Slot α τ)) : List (κ × Slot α τ) :=
  shed fits (without key l ++ [(key, slot)])

end

/-- What a call did, as far as the map can tell. -/
inductive Event (κ α τ : Type*) where
  | store (key : κ) (value : α) (now : τ)
  | hit (key : κ) (now : τ)
  | other

variable [DecidableEq κ]

def Event.uses (key : κ) : Event κ α τ → Bool
  | store k _ _ => k = key
  | hit k _ => k = key
  | other => false

/-- The value that was stored last under the key. -/
def lastStored (key : κ) : List (Event κ α τ) → Option α
  | [] => none
  | .store k value _ :: history => if k = key then some value else lastStored key history
  | .hit _ _ :: history => lastStored key history
  | .other :: history => lastStored key history

/-- When the key was last stored or found. -/
def lastUsed (key : κ) : List (Event κ α τ) → Option τ
  | [] => none
  | .store k _ now :: history => if k = key then some now else lastUsed key history
  | .hit k now :: history => if k = key then some now else lastUsed key history
  | .other :: history => lastUsed key history

/-- The number of calls since then. -/
def age (key : κ) (history : List (Event κ α τ)) : Nat := history.findIdx (Event.uses key)

theorem age_cons (key : κ) (event : Event κ α τ) (history : List (Event κ α τ)) :
    age key (event :: history) = if event.uses key then 0 else age key history + 1 := by
  rw [age, List.findIdx_cons]
  cases event.uses key <;> rfl

/-- Every slot holds what was stored last under its key, at the time of its
last use, and the slots stand in the order of these uses. -/
structure Explained (history : List (Event κ α τ)) (l : List (κ × Slot α τ)) : Prop where
  nodup : (l.map Prod.fst).Nodup
  stored : ∀ e ∈ l, lastStored e.1 history = some e.2.value
  used : ∀ e ∈ l, lastUsed e.1 history = some e.2.used
  recency : l.Pairwise fun older newer => age newer.1 history < age older.1 history

theorem mem_without {key : κ} {l : List (κ × Slot α τ)} {e : κ × Slot α τ} :
    e ∈ without key l ↔ e ∈ l ∧ e.1 ≠ key := by
  simp [without]

theorem without_sublist (key : κ) (l : List (κ × Slot α τ)) : (without key l).Sublist l :=
  List.filter_sublist

theorem not_mem_without (key : κ) (l : List (κ × Slot α τ)) : key ∉ (without key l).map Prod.fst := by
  intro h
  obtain ⟨e, he, hk⟩ := List.mem_map.mp h
  exact (mem_without.mp he).2 hk

theorem without_cons_of_ne {key : κ} {e : κ × Slot α τ} (h : e.1 ≠ key) (l : List (κ × Slot α τ)) :
    without key (e :: l) = e :: without key l := by
  simp [without, h]

theorem without_eq_self {key : κ} {l : List (κ × Slot α τ)} (h : key ∉ l.map Prod.fst) : without key l = l := by
  apply List.filter_eq_self.mpr
  intro e he
  have hk : e.1 ≠ key := fun hk => h (hk ▸ List.mem_map_of_mem he)
  simpa using hk

/-- Taking a slot out and putting it back reorders the slots. -/
theorem perm_without {key : κ} {slot : Slot α τ} {l : List (κ × Slot α τ)} (hnodup : (l.map Prod.fst).Nodup)
    (h : (key, slot) ∈ l) : l.Perm ((key, slot) :: without key l) := by
  induction l with
  | nil => cases h
  | cons e l ih =>
    rw [List.map_cons, List.nodup_cons] at hnodup
    rcases List.mem_cons.mp h with he | he
    · subst he
      have hl : without key ((key, slot) :: l) = l := by
        rw [without, List.filter_cons_of_neg (by simp)]
        exact without_eq_self hnodup.1
      rw [hl]
    · have hne : e.1 ≠ key := fun hk => hnodup.1 (hk ▸ List.mem_map_of_mem he)
      rw [without_cons_of_ne hne]
      exact ((ih hnodup.2 he).cons e).trans (List.Perm.swap _ _ _)

theorem Explained.empty : Explained ([] : List (Event κ α τ)) [] where
  nodup := List.nodup_nil
  stored := by simp
  used := by simp
  recency := List.Pairwise.nil

theorem Explained.sublist {history : List (Event κ α τ)} {l l' : List (κ × Slot α τ)} (h : Explained history l)
    (hs : l'.Sublist l) : Explained history l' where
  nodup := h.nodup.sublist (hs.map _)
  stored := fun e he => h.stored e (hs.subset he)
  used := fun e he => h.used e (hs.subset he)
  recency := h.recency.sublist hs

theorem Explained.other {history : List (Event κ α τ)} {l : List (κ × Slot α τ)} (h : Explained history l) :
    Explained (.other :: history) l where
  nodup := h.nodup
  stored := h.stored
  used := h.used
  recency := by
    refine h.recency.imp fun hab => ?_
    rw [age_cons, age_cons]
    exact Nat.succ_lt_succ hab

/-- The slot in use moves to the end; `event` uses its key alone. -/
theorem Explained.moveToEnd {history : List (Event κ α τ)} {l : List (κ × Slot α τ)} (h : Explained history l)
    {key : κ} {slot : Slot α τ} {event : Event κ α τ} (huses : ∀ k, event.uses k = decide (key = k))
    (hstored : lastStored key (event :: history) = some slot.value)
    (hused : lastUsed key (event :: history) = some slot.used)
    (hframe : ∀ k ≠ key, lastStored k (event :: history) = lastStored k history ∧
      lastUsed k (event :: history) = lastUsed k history) :
    Explained (event :: history) (without key l ++ [(key, slot)]) where
  nodup := by
    rw [List.map_append, List.nodup_append]
    refine ⟨h.nodup.sublist ((without_sublist key l).map _), List.nodup_singleton _, ?_⟩
    intro k hk k' hk' he
    rw [List.map_singleton, List.mem_singleton] at hk'
    exact not_mem_without key l (by rwa [he, hk'] at hk)
  stored := by
    intro e he
    rcases List.mem_append.mp he with he | he
    · obtain ⟨hl, hk⟩ := mem_without.mp he
      rw [(hframe e.1 hk).1]
      exact h.stored e hl
    · rw [List.mem_singleton.mp he]
      exact hstored
  used := by
    intro e he
    rcases List.mem_append.mp he with he | he
    · obtain ⟨hl, hk⟩ := mem_without.mp he
      rw [(hframe e.1 hk).2]
      exact h.used e hl
    · rw [List.mem_singleton.mp he]
      exact hused
  recency := by
    have hother : ∀ e ∈ without key l, age e.1 (event :: history) = age e.1 history + 1 := by
      intro e he
      rw [age_cons, huses, if_neg]
      simpa using (mem_without.mp he).2.symm
    rw [List.pairwise_append]
    refine ⟨?_, List.pairwise_singleton _ _, ?_⟩
    · refine (h.recency.sublist (without_sublist key l)).imp_of_mem fun ha hb hab => ?_
      rw [hother _ ha, hother _ hb]
      exact Nat.succ_lt_succ hab
    · intro e he e' he'
      rw [List.mem_singleton.mp he', hother e he, age_cons, huses, if_pos (by simp)]
      exact Nat.succ_pos _

/-- Storing a slot explains it by its own event; what is shed needs none. -/
theorem Explained.store {history : List (Event κ α τ)} {l : List (κ × Slot α τ)} (h : Explained history l)
    (fits : List (κ × Slot α τ) → Bool) (key : κ) (slot : Slot α τ) :
    Explained (.store key slot.value slot.used :: history) (store fits key slot l) := by
  refine Explained.sublist ?_ (shed_suffix fits _).sublist
  apply h.moveToEnd
  · intro k
    rfl
  · exact if_pos rfl
  · exact if_pos rfl
  · intro k hk
    exact ⟨if_neg fun e => hk e.symm, if_neg fun e => hk e.symm⟩

theorem Explained.hit {history : List (Event κ α τ)} {l : List (κ × Slot α τ)} (h : Explained history l)
    {key : κ} {slot : Slot α τ} (hslot : (key, slot) ∈ l) (now : τ) :
    Explained (.hit key now :: history)
      (without key l ++ [(key, ⟨slot.value, now, slot.weight⟩)]) := by
  apply h.moveToEnd
  · intro k
    rfl
  · exact h.stored _ hslot
  · exact if_pos rfl
  · intro k hk
    exact ⟨rfl, if_neg fun e => hk e.symm⟩

/-- A lookup finds what was stored last, used at a time that is still fresh. -/
theorem Explained.find_some {history : List (Event κ α τ)} {l : List (κ × Slot α τ)} (h : Explained history l)
    {fresh : τ → Bool} {key : κ} {now : τ} {value : α} (hf : (find fresh key now l).1 = some value) :
    lastStored key history = some value ∧
      (∃ used, lastUsed key history = some used ∧ fresh used = true) ∧
      Explained (.hit key now :: history) (find fresh key now l).2 := by
  unfold find at hf ⊢
  cases hl : l.find? fun e => e.1 = key with
  | none =>
    rw [hl] at hf
    cases hf
  | some e =>
    rw [hl] at hf
    obtain ⟨k, slot⟩ := e
    have hk : k = key := by simpa using List.find?_some hl
    have hmem := List.mem_of_find?_eq_some hl
    subst hk
    by_cases hfresh : fresh slot.used = true
    · simp only [if_pos hfresh] at hf ⊢
      cases hf
      exact ⟨h.stored _ hmem, ⟨slot.used, h.used _ hmem, hfresh⟩, h.hit hmem now⟩
    · simp only [if_neg hfresh] at hf
      cases hf

theorem Explained.find_none {history : List (Event κ α τ)} {l : List (κ × Slot α τ)} (h : Explained history l)
    {fresh : τ → Bool} {key : κ} {now : τ} (hf : (find fresh key now l).1 = none) :
    Explained (.other :: history) (find fresh key now l).2 := by
  unfold find at hf ⊢
  cases hl : l.find? fun e => e.1 = key with
  | none => exact h.other
  | some e =>
    rw [hl] at hf
    by_cases hfresh : fresh e.2.used = true
    · simp only [if_pos hfresh] at hf
      cases hf
    · simp only [if_neg hfresh]
      exact h.other.sublist (without_sublist key l)

end Lru
