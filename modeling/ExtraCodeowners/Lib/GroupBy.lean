import Mathlib.Data.List.SplitBy
import Mathlib.Order.Lattice

/-!
# Grouping a sorted list

`groupby` cuts a list where the key changes. On a list sorted by the key each
key has one group, and that group holds every element with the key.
-/

universe u v

variable {α : Type u} {κ : Type v} [LinearOrder κ]

def groupby (key : α → κ) (l : List α) : List (List α) := l.splitBy fun a b => key a = key b

section
variable {key : α → κ} {l : List α}

theorem flatten_groupby : (groupby key l).flatten = l := List.flatten_splitBy _ l

theorem ne_nil_of_mem_groupby {g : List α} (hg : g ∈ groupby key l) : g ≠ [] :=
  List.ne_nil_of_mem_splitBy hg

theorem same_key {g : List α} (hg : g ∈ groupby key l) {a b : α} (ha : a ∈ g) (hb : b ∈ g) :
    key a = key b := by
  have hchain : g.IsChain fun a b => key a = key b := by
    simpa using List.isChain_of_mem_splitBy hg
  have hpair : g.Pairwise fun a b => key a = key b := List.isChain_iff_pairwise.mp hchain
  have _ : Std.Symm fun a b : α => key a = key b := ⟨fun _ _ h => h.symm⟩
  exact List.Pairwise.forall_of_forall (R := fun a b => key a = key b) (fun _ _ => rfl) hpair ha hb

/-- Later groups of a sorted list have greater keys. -/
theorem groupby_pairwise (hs : l.Pairwise fun a b => key a ≤ key b) :
    (groupby key l).Pairwise fun g h => ∀ a ∈ g, ∀ b ∈ h, key a < key b := by
  have general : ∀ gs : List (List α), gs.flatten.Pairwise (fun a b => key a ≤ key b) →
      (∀ g ∈ gs, g ≠ [] ∧ ∀ a ∈ g, ∀ b ∈ g, key a = key b) →
      gs.IsChain (fun g h => ∃ ha hb, decide (key (g.getLast ha) = key (h.head hb)) = false) →
      gs.Pairwise fun g h => ∀ a ∈ g, ∀ b ∈ h, key a < key b := by
    intro gs
    induction gs with
    | nil => exact fun _ _ _ => .nil
    | cons g gs ih =>
      intro hs hg hc
      rw [List.flatten_cons, List.pairwise_append] at hs
      rw [List.pairwise_cons]
      refine ⟨?_, ih hs.2.1 (fun g' hg' => hg g' (List.mem_cons_of_mem _ hg')) hc.tail⟩
      cases gs with
      | nil => exact fun h hh => absurd hh (by simp)
      | cons first rest =>
        obtain ⟨⟨hne, hne', hkey⟩, -⟩ := List.isChain_cons_cons.mp hc
        have hhead : ∀ a ∈ g, key a < key (first.head hne') := by
          intro a ha
          refine lt_of_le_of_ne (hs.2.2 a ha _ (List.mem_flatten_of_mem (by simp) (List.head_mem hne'))) ?_
          rw [(hg g (by simp)).2 a ha _ (List.getLast_mem hne)]
          simpa using hkey
        intro h hh a ha b hb
        refine lt_of_lt_of_le (hhead a ha) ?_
        have hsorted := hs.2.1
        rw [List.flatten_cons, List.pairwise_append] at hsorted
        rcases List.mem_cons.mp hh with rfl | hh
        · exact ((hg h (by simp)).2 _ (List.head_mem hne') b hb).le
        · exact hsorted.2.2 _ (List.head_mem hne') b (List.mem_flatten_of_mem hh hb)
  have hends := List.isChain_getLast_head_splitBy (fun a b => decide (key a = key b)) l
  refine general _ (by rw [flatten_groupby]; exact hs) ?_ hends
  intro g hg
  exact ⟨ne_nil_of_mem_groupby hg, fun a ha b hb => same_key hg ha hb⟩

/-- A group of a sorted list holds every element with its key. -/
theorem mem_group (hs : l.Pairwise fun a b => key a ≤ key b) {g : List α} (hg : g ∈ groupby key l)
    {a b : α} (ha : a ∈ g) (hb : b ∈ l) (hkey : key b = key a) : b ∈ g := by
  have hflatten : (groupby key l).flatten = l := flatten_groupby
  rw [← hflatten] at hb
  obtain ⟨h, hh, hbh⟩ := List.mem_flatten.mp hb
  by_cases hgh : g = h
  · rw [hgh]
    exact hbh
  · have hlt : (∀ a ∈ g, ∀ b ∈ h, key a < key b) ∨ ∀ a ∈ h, ∀ b ∈ g, key a < key b := by
      have hpair := (groupby_pairwise hs).imp (S := fun g h => (∀ a ∈ g, ∀ b ∈ h, key a < key b) ∨
        ∀ a ∈ h, ∀ b ∈ g, key a < key b) fun h => Or.inl h
      have _ : Std.Symm fun g h : List α => (∀ a ∈ g, ∀ b ∈ h, key a < key b) ∨
        ∀ a ∈ h, ∀ b ∈ g, key a < key b := ⟨fun _ _ h => h.symm⟩
      exact hpair.forall hg hh hgh
    rcases hlt with hlt | hlt
    · exact absurd hkey (hlt a ha b hbh).ne'
    · exact absurd hkey (hlt b hbh a ha).ne

theorem exists_group {a : α} (ha : a ∈ l) : ∃ g ∈ groupby key l, a ∈ g := by
  have hflatten : (groupby key l).flatten = l := flatten_groupby
  rw [← hflatten] at ha
  exact List.mem_flatten.mp ha

end
