import Mathlib.Data.List.Nodup
import Mathlib.Data.List.Perm.Subperm
import Mathlib.Logic.Relation

/-!
# Worklists

A search that marks a target before it stacks it. Over a finite set closed
under successors it ends, and what it has marked is what the start reaches.
-/

universe u

namespace Worklist

variable {α : Type u} [DecidableEq α]

/-- Marks and stacks the targets not seen before. -/
def push (seen pending : List α) : List α → List α × List α
  | [] => (seen, pending)
  | b :: targets =>
    if b ∈ seen then push seen pending targets else push (b :: seen) (b :: pending) targets

/-- Pops until the stack is empty. -/
def search (succs : α → List α) : Nat → List α → List α → Option (List α)
  | _, seen, [] => some seen
  | 0, _, _ :: _ => none
  | fuel + 1, seen, a :: pending =>
    let (seen, pending) := push seen pending (succs a)
    search succs fuel seen pending

theorem push_eq (seen pending targets : List α) : ∃ new,
    push seen pending targets = (new ++ seen, new ++ pending) ∧
      (seen.Nodup → (new ++ seen).Nodup) ∧ (∀ b ∈ new, b ∈ targets) ∧
      ∀ b ∈ targets, b ∈ new ++ seen := by
  induction targets generalizing seen pending with
  | nil => exact ⟨[], rfl, id, by simp, by simp⟩
  | cons b targets ih =>
    rw [push]
    by_cases hb : b ∈ seen
    · rw [if_pos hb]
      obtain ⟨new, he, hn, hin, hall⟩ := ih seen pending
      refine ⟨new, he, hn, fun c hc => List.mem_cons_of_mem _ (hin c hc), ?_⟩
      intro c hc
      rcases List.mem_cons.mp hc with rfl | hc
      · exact List.mem_append_right _ hb
      · exact hall c hc
    · rw [if_neg hb]
      obtain ⟨new, he, hn, hin, hall⟩ := ih (b :: seen) (b :: pending)
      refine ⟨new ++ [b], by simp [he], ?_, ?_, ?_⟩
      · intro hs
        simpa using hn (List.nodup_cons.mpr ⟨hb, hs⟩)
      · intro c hc
        rcases List.mem_append.mp hc with hc | hc
        · exact List.mem_cons_of_mem _ (hin c hc)
        · simp_all
      · intro c hc
        rcases List.mem_cons.mp hc with rfl | hc
        · simp
        · simpa using hall c hc

/-- What holds between two pops. -/
structure Inv (succs : α → List α) (start : α) (seen pending : List α) : Prop where
  nodup : seen.Nodup
  start_mem : start ∈ seen
  stacked : ∀ a ∈ pending, a ∈ seen
  reached : ∀ a ∈ seen, Relation.ReflTransGen (fun a b => b ∈ succs a) start a
  closed : ∀ a ∈ seen, a ∉ pending → ∀ b ∈ succs a, b ∈ seen

omit [DecidableEq α] in
theorem Inv.start (succs : α → List α) (start : α) : Inv succs start [start] [start] where
  nodup := List.nodup_singleton _
  start_mem := List.mem_singleton_self _
  stacked _ h := h
  reached a h := by
    rw [List.mem_singleton.mp h]
  closed a h hn := absurd h hn

theorem Inv.pop {succs : α → List α} {start a : α} {seen pending : List α}
    (h : Inv succs start seen (a :: pending)) :
    Inv succs start (push seen pending (succs a)).1 (push seen pending (succs a)).2 := by
  obtain ⟨new, he, hn, hin, hall⟩ := push_eq seen pending (succs a)
  have ha : a ∈ seen := h.stacked a List.mem_cons_self
  rw [he]
  refine ⟨hn h.nodup, List.mem_append_right _ h.start_mem, ?_, ?_, ?_⟩
  · intro b hb
    rcases List.mem_append.mp hb with hb | hb
    · exact List.mem_append_left _ hb
    · exact List.mem_append_right _ (h.stacked b (List.mem_cons_of_mem _ hb))
  · intro b hb
    rcases List.mem_append.mp hb with hb | hb
    · exact (h.reached a ha).tail (hin b hb)
    · exact h.reached b hb
  · intro b hb hnb c hc
    by_cases hab : b = a
    · subst hab
      exact hall c hc
    · have hold : b ∈ seen := by
        rcases List.mem_append.mp hb with hb | hb
        · exact absurd (List.mem_append_left _ hb) hnb
        · exact hb
      refine List.mem_append_right _ (h.closed b hold ?_ c hc)
      intro hp
      rcases List.mem_cons.mp hp with hp | hp
      · exact hab hp
      · exact hnb (List.mem_append_right _ hp)

theorem Inv.search {succs : α → List α} {start : α} {fuel : Nat} {seen pending found : List α}
    (h : Inv succs start seen pending) (hs : search succs fuel seen pending = some found) :
    Inv succs start found [] := by
  induction fuel generalizing seen pending with
  | zero =>
    cases pending with
    | nil =>
      cases hs
      exact h
    | cons a pending => cases hs
  | succ fuel ih =>
    cases pending with
    | nil =>
      cases hs
      exact h
    | cons a pending => exact ih h.pop hs

/-- The search finds what the start reaches, each once. -/
theorem mem_search {succs : α → List α} {start : α} {fuel : Nat} {found : List α}
    (h : search succs fuel [start] [start] = some found) {a : α} :
    a ∈ found ↔ Relation.ReflTransGen (fun a b => b ∈ succs a) start a := by
  have hi := (Inv.start succs start).search h
  constructor
  · exact hi.reached a
  · intro hr
    induction hr with
    | refl => exact hi.start_mem
    | tail _ hb ih => exact hi.closed _ ih (by simp) _ hb

/-- Each pop takes one element off the stack, and each marked one is stacked once. -/
theorem search_isSome {succs : α → List α} {start : α} (nodes : List α)
    (hnodes : ∀ a ∈ nodes, ∀ b ∈ succs a, b ∈ nodes) {fuel : Nat} {seen pending : List α}
    (h : Inv succs start seen pending) (hseen : ∀ a ∈ seen, a ∈ nodes)
    (hfuel : pending.length + nodes.length ≤ fuel + seen.length) :
    ∃ found, search succs fuel seen pending = some found := by
  induction fuel generalizing seen pending with
  | zero =>
    have hle : seen.length ≤ nodes.length := (List.subperm_of_subset h.nodup hseen).length_le
    cases pending with
    | nil => exact ⟨seen, rfl⟩
    | cons a pending =>
      simp only [List.length_cons] at hfuel
      omega
  | succ fuel ih =>
    cases pending with
    | nil => exact ⟨seen, rfl⟩
    | cons a pending =>
      obtain ⟨new, he, hn, hin, -⟩ := push_eq seen pending (succs a)
      have hpop := h.pop
      rw [Worklist.search, he]
      rw [he] at hpop
      refine ih hpop ?_ ?_
      · intro b hb
        rcases List.mem_append.mp hb with hb | hb
        · exact hnodes a (hseen a (h.stacked a List.mem_cons_self)) b (hin b hb)
        · exact hseen b hb
      · simp only [List.length_append, List.length_cons] at hfuel ⊢
        omega

end Worklist
