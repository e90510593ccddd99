import Mathlib.Data.List.Sort
import Mathlib.Data.List.Count

/-!
# Round robin over a sorted list

A round starts behind a cursor and comes back to it. A sequence of visits each
of which is the first of the round behind the last one visits every other
element exactly once before it comes back to the same one.
-/

universe u

section
variable {α : Type u} [LinearOrder α]

/-- The elements behind the cursor, and then those up to it. -/
def roundBehind (c : α) (l : List α) : List α := l.filter (c < ·) ++ l.filter (· ≤ c)

theorem roundBehind_perm (c : α) (l : List α) : (roundBehind c l).Perm l := by
  have hle : ∀ x, decide (x ≤ c) = !decide (c < x) := by
    intro x
    simp only [← not_lt, decide_not]
  unfold roundBehind
  simp only [hle]
  exact List.filter_append_perm _ l

/-- A sorted list falls into the part before an element, the element and the rest. -/
theorem filter_split {l₁ l₂ : List α} {x : α} (h : (l₁ ++ x :: l₂).Pairwise (· < ·)) :
    (l₁ ++ x :: l₂).filter (x < ·) = l₂ ∧ (l₁ ++ x :: l₂).filter (· ≤ x) = l₁ ++ [x] := by
  obtain ⟨-, hx, h₁⟩ := List.pairwise_append.mp h
  obtain ⟨hx₂, -⟩ := List.pairwise_cons.mp hx
  have hlt : ∀ y ∈ l₁, y < x := fun y hy => h₁ y hy x (List.mem_cons_self ..)
  refine ⟨?_, ?_⟩
  · rw [List.filter_append, List.filter_cons_of_neg (by simp)]
    rw [List.filter_eq_nil_iff.mpr fun y hy => by simp [(hlt y hy).le]]
    rw [List.filter_eq_self.mpr fun y hy => by simpa using hx₂ y hy]
    rfl
  · rw [List.filter_append, List.filter_cons_of_pos (by simp)]
    rw [List.filter_eq_self.mpr fun y hy => by simpa using (hlt y hy).le]
    rw [List.filter_eq_nil_iff.mpr fun y hy => by simpa using hx₂ y hy]

/-- The round behind the first element of a round is that round, turned by one. -/
theorem roundBehind_cons {c x : α} {l rest : List α} (hs : l.Pairwise (· < ·))
    (h : roundBehind c l = x :: rest) : roundBehind x l = rest ++ [x] := by
  obtain ⟨l₁, l₂, hl, h₁, h₂⟩ : ∃ l₁ l₂, l = l₁ ++ l₂ ∧ (∀ y ∈ l₁, y ≤ c) ∧ ∀ y ∈ l₂, c < y := by
    refine ⟨l.filter (· ≤ c), l.filter (c < ·), ?_, ?_, ?_⟩
    · clear h
      induction l with
      | nil => rfl
      | cons y l ih =>
        obtain ⟨hy, hl⟩ := List.pairwise_cons.mp hs
        by_cases hc : y ≤ c
        · rw [List.filter_cons_of_pos (by simpa using hc), List.filter_cons_of_neg (by simpa using hc),
            List.cons_append, ← ih hl]
        · have hlt := not_le.mp hc
          have hrest : ∀ z ∈ l, c < z := fun z hz => hlt.trans (hy z hz)
          rw [List.filter_cons_of_neg (by simpa using hlt), List.filter_cons_of_pos (by simpa using hlt),
            List.filter_eq_nil_iff.mpr fun z hz => by simpa using hrest z hz,
            List.filter_eq_self.mpr fun z hz => by simpa using hrest z hz]
          rfl
    · intro y hy
      simpa using (List.mem_filter.mp hy).2
    · intro y hy
      simpa using (List.mem_filter.mp hy).2
  have hrot : roundBehind c l = l₂ ++ l₁ := by
    subst hl
    unfold roundBehind
    rw [List.filter_append, List.filter_append,
      List.filter_eq_nil_iff.mpr fun y hy => by simpa using h₁ y hy,
      List.filter_eq_self.mpr fun y hy => by simpa using h₂ y hy,
      List.filter_eq_self.mpr fun y hy => by simpa using h₁ y hy,
      List.filter_eq_nil_iff.mpr fun y hy => by simpa using h₂ y hy]
    simp
  rw [hrot] at h
  subst hl
  cases l₂ with
  | nil =>
    -- the cursor is behind every element: the round starts over
    rw [List.nil_append] at h
    subst h
    obtain ⟨hgt, hle⟩ := @filter_split α _ [] rest x (by simpa using hs)
    rw [roundBehind, List.append_nil, ← List.nil_append (x :: rest), hgt, hle]
    rfl
  | cons y l₂ =>
    rw [List.cons_append] at h
    obtain ⟨rfl, rfl⟩ := List.cons.inj h
    obtain ⟨hgt, hle⟩ := filter_split hs
    rw [roundBehind, hgt, hle, List.append_assoc]

/-- A round that starts where another has come to. -/
theorem roundBehind_append {l : List α} (hs : l.Pairwise (· < ·)) :
    ∀ {c : α} {xs ys : List α}, roundBehind c l = xs ++ ys → roundBehind (xs.getLast?.getD c) l = ys ++ xs
  | c, [], ys, h => by simpa using h
  | c, x :: xs, ys, h => by
    rw [List.cons_append] at h
    have hnext : roundBehind x l = xs ++ (ys ++ [x]) := by
      rw [roundBehind_cons hs h, List.append_assoc]
    have hlast : (x :: xs).getLast?.getD c = xs.getLast?.getD x := by
      cases xs with
      | nil => rfl
      | cons y xs => simp [List.getLast?_cons]
    rw [hlast, roundBehind_append hs hnext, List.append_assoc]
    rfl

/-- Each visit is the first of the round behind the last one. -/
def Visits (l : List α) : α → List α → Prop
  | _, [] => True
  | c, x :: xs => (roundBehind c l).head? = some x ∧ Visits l x xs

theorem Visits.append {l : List α} : ∀ {c : α} {xs ys : List α}, Visits l c (xs ++ ys) ↔
    Visits l c xs ∧ Visits l (xs.getLast?.getD c) ys
  | _, [], _ => by simp [Visits]
  | c, x :: xs, ys => by
    rw [List.cons_append, Visits, Visits, Visits.append, and_assoc]
    cases xs with
    | nil => simp
    | cons y xs => simp [List.getLast?_cons]

/-- Up to the next visit of `r`, exactly the elements before it in the round are visited. -/
theorem Visits.until {l : List α} (hs : l.Pairwise (· < ·)) {r : α} :
    ∀ {ys zs : List α} {c : α} {mid : List α}, roundBehind c l = ys ++ r :: zs → r ∉ ys → r ∉ mid →
      Visits l c (mid ++ [r]) → mid = ys
  | [], zs, c, [], _, _, _, _ => rfl
  | [], zs, c, m :: mid, hrot, _, hmid, hv => by
    obtain ⟨hhead, -⟩ := hv
    rw [hrot] at hhead
    cases hhead
    exact absurd (List.mem_cons_self ..) hmid
  | y :: ys, zs, c, [], hrot, hys, _, hv => by
    obtain ⟨hhead, -⟩ := hv
    rw [hrot] at hhead
    cases hhead
    exact absurd (List.mem_cons_self ..) hys
  | y :: ys, zs, c, m :: mid, hrot, hys, hmid, hv => by
    obtain ⟨hhead, hv⟩ := hv
    rw [hrot] at hhead
    cases hhead
    have hnext : roundBehind y l = ys ++ r :: (zs ++ [y]) := by
      rw [roundBehind_cons hs hrot]
      simp
    rw [Visits.until hs hnext (fun h => hys (List.mem_cons_of_mem _ h))
      (fun h => hmid (List.mem_cons_of_mem _ h)) hv]

/-- Between two visits of `r` every other element is visited exactly once. -/
theorem Visits.once_between {l : List α} (hs : l.Pairwise (· < ·)) {c r : α} {before mid after : List α}
    (hv : Visits l c (before ++ r :: (mid ++ r :: after))) (hr : r ∉ mid) :
    (r :: mid).Perm l := by
  obtain ⟨-, hfrom⟩ := Visits.append.mp hv
  obtain ⟨hhead, hrest⟩ := hfrom
  obtain ⟨rest, hrot⟩ : ∃ rest, roundBehind (before.getLast?.getD c) l = r :: rest := by
    cases h : roundBehind (before.getLast?.getD c) l with
    | nil => rw [h] at hhead; cases hhead
    | cons x rest =>
      rw [h] at hhead
      cases hhead
      exact ⟨rest, rfl⟩
  have hnext := roundBehind_cons hs hrot
  have hnodup : (r :: rest).Nodup := by
    rw [← hrot]
    exact (roundBehind_perm _ l).nodup_iff.mpr (hs.imp ne_of_lt)
  have hmid : Visits l r (mid ++ [r]) := by
    rw [show mid ++ r :: after = (mid ++ [r]) ++ after by simp] at hrest
    exact (Visits.append.mp hrest).1
  rw [Visits.until hs hnext (List.nodup_cons.mp hnodup).1 hr hmid, ← hrot]
  exact roundBehind_perm _ l

end
