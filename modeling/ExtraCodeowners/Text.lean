import Mathlib.Algebra.Ring.Nat
import Mathlib.Data.Bool.AllAny
import Mathlib.Data.List.DropRight
import Mathlib.Data.List.Forall2
import Mathlib.Data.List.Lex
import Mathlib.Data.List.Sort
import Mathlib.Data.Finset.Sort
import Mathlib.Data.Char

/-!
# Python text

A `str` is its list of code points. `PyText` stands for the operations whose
result depends on the Unicode tables of the interpreter.
-/

namespace ExtraCodeowners

abbrev Str := List Char

instance : Coe String Str := ⟨String.toList⟩

instance : LawfulBEq Str := inferInstanceAs (LawfulBEq (List Char))

/-- `str.lower` and `repr` of the running interpreter. -/
class PyText where
  lower : Str → Str
  repr : Str → Str

/-- The operations on ASCII text without quotes or controls. -/
@[reducible] def asciiText : PyText where
  lower s := s.map Char.toLower
  repr s := '\'' :: (s ++ ['\''])

/-- What `str.lower` promises: text in lower case stays as it is, and ASCII
text changes letter by letter. -/
class LawfulPyText [PyText] : Prop where
  lower_lower : ∀ s : Str, PyText.lower (PyText.lower s) = PyText.lower s
  lower_ascii : ∀ s : Str, (∀ c ∈ s, c.toNat < 128) → PyText.lower s = s.map Char.toLower

/-- The code points that `str.isspace` accepts. -/
def isSpace (c : Char) : Bool :=
  let n := c.toNat
  (9 ≤ n && n ≤ 13) || (28 ≤ n && n ≤ 32) || n == 0x85 || n == 0xa0 || n == 0x1680 ||
    (0x2000 ≤ n && n ≤ 0x200a) || n == 0x2028 || n == 0x2029 || n == 0x202f || n == 0x205f ||
    n == 0x3000

/-- The code points at which `str.splitlines` breaks. -/
def isLineBreak (c : Char) : Bool :=
  let n := c.toNat
  (10 ≤ n && n ≤ 13) || (28 ≤ n && n ≤ 30) || n == 0x85 || n == 0x2028 || n == 0x2029

def strip (s : Str) : Str := (s.dropWhile isSpace).rdropWhile isSpace

def rstripSlash (s : Str) : Str := s.rdropWhile (· = '/')

def removePrefix (c : Char) : Str → Str
  | [] => []
  | d :: s => if d = c then s else d :: s

def startsWith (c : Char) (s : Str) : Bool := s.head? = some c

def endsWith (c : Char) (s : Str) : Bool := s.getLast? = some c

/-- `str.splitlines`: a line feed after a carriage return ends no line of its own. -/
def splitlines : Str → List Str
  | [] => []
  | '\r' :: '\n' :: s => [] :: splitlines s
  | c :: s =>
    if isLineBreak c then [] :: splitlines s
    else
      match splitlines s with
      | [] => [[c]]
      | l :: ls => (c :: l) :: ls

def utf8Length (s : Str) : Nat := (s.map Char.utf8Size).sum

def join (sep : Str) (parts : List Str) : Str := sep.intercalate parts

def sorted (l : List Str) : List Str := l.insertionSort (· ≤ ·)

/-- `tuple(dict.fromkeys(l))`: the first occurrences, in order. -/
def fromKeys {α} [DecidableEq α] (l : List α) : List α :=
  l.foldl (fun acc a => if a ∈ acc then acc else acc ++ [a]) []

def decimal (n : Nat) : Str := (toString n).toList

/-- A fact about the characters of a text, evaluated. -/
theorem forall_mem_of_all {p : Char → Prop} [DecidablePred p] {s : Str}
    (h : s.all (fun c => decide (p c)) = true) : ∀ c ∈ s, p c := by
  simpa using h

/-! ## Joining -/

theorem join_cons_cons (sep l m : Str) (ls : List Str) :
    join sep (l :: m :: ls) = l ++ sep ++ join sep (m :: ls) := by
  rw [join, join, List.intercalate_cons_cons, List.append_assoc]

theorem join_singleton (sep l : Str) : join sep [l] = l := List.intercalate_singleton

theorem mem_join {sep : Str} {ls : List Str} {c : Char} (h : c ∈ join sep ls) :
    c ∈ sep ∨ ∃ l ∈ ls, c ∈ l := by
  induction ls with
  | nil => cases h
  | cons l ls ih =>
    cases ls with
    | nil =>
      rw [join_singleton] at h
      exact .inr ⟨l, by simp, h⟩
    | cons m ls =>
      rw [join_cons_cons, List.mem_append, List.mem_append] at h
      rcases h with (h | h) | h
      · exact .inr ⟨l, by simp, h⟩
      · exact .inl h
      · rcases ih h with h | ⟨k, hk, hc⟩
        · exact .inl h
        · exact .inr ⟨k, List.mem_cons_of_mem _ hk, hc⟩

/-! ## ASCII letters -/

theorem toNat_toLower (c : Char) :
    c.toLower.toNat = if 65 ≤ c.toNat ∧ c.toNat ≤ 90 then c.toNat + 32 else c.toNat := by
  have e : ∀ c : Char, c.toNat = c.val.toNat := fun _ => rfl
  unfold Char.toLower
  simp only [e, ge_iff_le, UInt32.le_iff_toNat_le]
  split <;> rename_i h <;> simp at h ⊢
  · rw [if_pos h]; omega
  · exact h

theorem toLower_toLower (c : Char) : c.toLower.toLower = c.toLower := by
  apply Char.toNat_inj.mp
  rw [toNat_toLower, if_neg]
  rw [toNat_toLower]
  split <;> omega

theorem isDigit_iff {c : Char} : c.isDigit = true ↔ 48 ≤ c.toNat ∧ c.toNat ≤ 57 := by
  have he : c.isDigit = (decide ('0'.val ≤ c.val) && decide (c.val ≤ '9'.val)) := rfl
  rw [he]
  simp only [Bool.and_eq_true, decide_eq_true_eq, UInt32.le_iff_toNat_le]
  rfl

theorem isAlpha_iff {c : Char} : c.isAlpha = true ↔
    (65 ≤ c.toNat ∧ c.toNat ≤ 90) ∨ (97 ≤ c.toNat ∧ c.toNat ≤ 122) := by
  have he : c.isAlpha = (decide ('A'.val ≤ c.val ∧ c.val ≤ 'Z'.val) ||
      (decide ('a'.val ≤ c.val) && decide (c.val ≤ 'z'.val))) := rfl
  rw [he]
  simp only [Bool.or_eq_true, Bool.and_eq_true, decide_eq_true_eq, UInt32.le_iff_toNat_le]
  rfl

theorem isAlphanum_iff {c : Char} : c.isAlphanum = true ↔
    (65 ≤ c.toNat ∧ c.toNat ≤ 90) ∨ (97 ≤ c.toNat ∧ c.toNat ≤ 122) ∨ (48 ≤ c.toNat ∧ c.toNat ≤ 57) := by
  have he : c.isAlphanum = (c.isAlpha || c.isDigit) := rfl
  rw [he, Bool.or_eq_true, isAlpha_iff, isDigit_iff, or_assoc]

theorem asciiText_lawful : @LawfulPyText asciiText :=
  letI := asciiText
  { lower_lower := by
      intro s
      show (s.map Char.toLower).map Char.toLower = s.map Char.toLower
      rw [List.map_map]
      exact List.map_congr_left fun c _ => toLower_toLower c
    lower_ascii := fun _ _ => rfl }

/-! ## Facts about stripping -/

theorem strip_head {s : Str} {c : Char} (h : (strip s).head? = some c) : isSpace c = false := by
  obtain ⟨t, ht⟩ := List.rdropWhile_prefix isSpace (s.dropWhile isSpace)
  have hd : (s.dropWhile isSpace).head? = some c := by
    rw [← ht]
    change (strip s ++ t).head? = some c
    cases hs : strip s with
    | nil => rw [hs] at h; cases h
    | cons a l => rw [hs] at h; simpa using h
  have := List.head?_dropWhile_not isSpace s
  rw [hd] at this
  simpa using this

theorem strip_last {s : Str} {c : Char} (h : (strip s).getLast? = some c) :
    isSpace c = false := by
  have hs : strip s ≠ [] := by intro e; rw [e] at h; cases h
  have hlast := List.rdropWhile_last_not isSpace (s.dropWhile isSpace) hs
  rw [List.getLast?_eq_some_getLast hs] at h
  cases h
  exact Bool.not_eq_true _ ▸ hlast

theorem strip_eq_self {s : Str} :
    strip s = s ↔ (∀ c, s.head? = some c → isSpace c = false) ∧
      (∀ c, s.getLast? = some c → isSpace c = false) := by
  constructor
  · intro h
    exact ⟨fun c hc => strip_head (h.symm ▸ hc), fun c hc => strip_last (h.symm ▸ hc)⟩
  · rintro ⟨hd, hl⟩
    have h₁ : s.dropWhile isSpace = s := by
      cases s with
      | nil => rfl
      | cons a l => rw [List.dropWhile_cons_of_neg]; simp [hd a rfl]
    unfold strip
    rw [h₁, List.rdropWhile_eq_self_iff]
    intro hne
    rw [hl _ (List.getLast?_eq_some_getLast hne)]
    simp

theorem strip_strip (s : Str) : strip (strip s) = strip s :=
  strip_eq_self.mpr ⟨fun _ => strip_head, fun _ => strip_last⟩

theorem strip_space {c : Char} (hc : isSpace c = true) (s : Str) : strip (c :: s) = strip s := by
  unfold strip
  rw [List.dropWhile_cons_of_pos hc]

theorem strip_cons {c : Char} (hc : isSpace c = false) (s : Str) :
    strip (c :: s) = c :: s.rdropWhile isSpace := by
  unfold strip
  rw [List.dropWhile_cons_of_neg (by simp [hc])]
  induction s using List.reverseRecOn with
  | nil => rw [List.rdropWhile_singleton, if_neg (by simp [hc])]; rfl
  | append_singleton s d ih =>
    rw [← List.cons_append, List.rdropWhile_concat, List.rdropWhile_concat]
    split
    · exact ih
    · rfl

theorem strip_decompose (s : Str) : ∃ lead trail, s = lead ++ strip s ++ trail ∧
    (∀ c ∈ lead, isSpace c = true) ∧ ∀ c ∈ trail, isSpace c = true := by
  refine ⟨s.takeWhile isSpace, (s.dropWhile isSpace).rtakeWhile isSpace, ?_, ?_, ?_⟩
  · rw [List.append_assoc, strip, List.rdropWhile_append_rtakeWhile, List.takeWhile_append_dropWhile]
  · exact fun c hc => List.mem_takeWhile_imp hc
  · exact fun c hc => List.mem_rtakeWhile_imp hc

theorem strip_lead {lead : Str} (h : ∀ c ∈ lead, isSpace c = true) (s : Str) :
    strip (lead ++ s) = strip s := by
  induction lead with
  | nil => rfl
  | cons c lead ih =>
    rw [List.forall_mem_cons] at h
    rw [List.cons_append, strip_space h.1, ih h.2]

theorem rdropWhile_trail {trail : Str} (h : ∀ c ∈ trail, isSpace c = true) (s : Str) :
    (s ++ trail).rdropWhile isSpace = s.rdropWhile isSpace := by
  induction trail using List.reverseRecOn with
  | nil => rw [List.append_nil]
  | append_singleton trail c ih =>
    rw [← List.append_assoc, List.rdropWhile_concat_pos _ _ _ (h c (by simp)),
      ih fun d hd => h d (by simp [hd])]

theorem rdropWhile_middle {c : Char} (hc : isSpace c = false) (s t : Str) :
    (s ++ c :: t).rdropWhile isSpace = s ++ c :: t.rdropWhile isSpace := by
  induction t using List.reverseRecOn with
  | nil => rw [List.rdropWhile_concat_neg _ _ _ (by simp [hc])]; rfl
  | append_singleton t d ih =>
    rw [← List.cons_append, ← List.append_assoc, List.rdropWhile_concat, List.rdropWhile_concat]
    split
    · exact ih
    · simp

theorem strip_trail {trail : Str} (h : ∀ c ∈ trail, isSpace c = true) (s : Str) :
    strip (strip s ++ trail) = strip s := by
  cases hs : strip s with
  | nil =>
    rw [List.nil_append, ← List.append_nil trail, strip_lead h]
    rfl
  | cons c t =>
    have hc : isSpace c = false := strip_head (by rw [hs]; rfl)
    have hself := strip_strip s
    rw [hs, strip_cons hc] at hself
    rw [List.cons_append, strip_cons hc, rdropWhile_trail h, hself]

theorem mem_strip {c : Char} (hc : isSpace c = false) {s : Str} (h : c ∈ s) : c ∈ strip s := by
  have front : ∀ {l : Str}, c ∈ l → c ∈ l.dropWhile isSpace := by
    intro l hl
    rw [← List.takeWhile_append_dropWhile (p := isSpace) (l := l), List.mem_append] at hl
    refine hl.resolve_left fun h => ?_
    rw [List.mem_takeWhile_imp h] at hc
    cases hc
  unfold strip List.rdropWhile
  exact List.mem_reverse.mpr (front (List.mem_reverse.mpr (front h)))

/-! ## Reading a run of characters -/

theorem takeWhile_run {p : Char → Bool} {d s : Str} (hd : ∀ c ∈ d, p c = true)
    (hs : s.head?.any p = false) : (d ++ s).takeWhile p = d := by
  rw [List.takeWhile_append_of_pos hd]
  cases s with
  | nil => simp
  | cons c s =>
    have hc : p c = false := by simpa using hs
    simp [hc]

theorem dropWhile_run {p : Char → Bool} {d s : Str} (hd : ∀ c ∈ d, p c = true)
    (hs : s.head?.any p = false) : (d ++ s).dropWhile p = s := by
  rw [List.dropWhile_append_of_pos hd]
  cases s with
  | nil => rfl
  | cons c s =>
    have hc : p c = false := by simpa using hs
    simp [hc]

/-! ## Sorted and unique lists -/

theorem mem_sorted {l : List Str} {s : Str} : s ∈ sorted l ↔ s ∈ l :=
  (List.perm_insertionSort _ l).mem_iff

theorem mem_fromKeys {α} [DecidableEq α] {l : List α} {a : α} : a ∈ fromKeys l ↔ a ∈ l := by
  have key : ∀ (l acc : List α),
      a ∈ l.foldl (fun acc a => if a ∈ acc then acc else acc ++ [a]) acc ↔ a ∈ acc ∨ a ∈ l := by
    intro l
    induction l with
    | nil => intro acc; simp
    | cons b l ih =>
      intro acc
      rw [List.foldl_cons, ih]
      by_cases h : b ∈ acc
      · simp only [h, if_true, List.mem_cons]
        constructor
        · rintro (h' | h') <;> simp [h']
        · rintro (h' | rfl | h') <;> simp [*]
      · simp [h, or_assoc]
  simpa [fromKeys] using key l []

/-- The loop keeps one occurrence of each element, in order. -/
theorem fromKeys_append {α} [DecidableEq α] (l acc : List α) (h : acc.Nodup) :
    ∃ kept, l.foldl (fun acc a => if a ∈ acc then acc else acc ++ [a]) acc = acc ++ kept ∧
      (acc ++ kept).Nodup ∧ kept.Sublist l ∧ ((acc ++ l).Nodup → kept = l) := by
  induction l generalizing acc with
  | nil => exact ⟨[], by simp, by simpa using h, List.nil_sublist _, fun _ => rfl⟩
  | cons a l ih =>
    rw [List.foldl_cons]
    split
    · rename_i ha
      obtain ⟨kept, h₁, h₂, h₃, -⟩ := ih acc h
      refine ⟨kept, h₁, h₂, h₃.cons a, fun hn => ?_⟩
      exact absurd rfl ((List.nodup_append.mp hn).2.2 a ha a List.mem_cons_self)
    · rename_i ha
      have hacc : (acc ++ [a]).Nodup := by
        rw [← List.concat_eq_append]
        exact h.concat ha
      obtain ⟨kept, h₁, h₂, h₃, h₄⟩ := ih (acc ++ [a]) hacc
      rw [List.append_assoc] at h₁ h₂ h₄
      exact ⟨a :: kept, h₁, h₂, h₃.cons_cons a, fun hn => by rw [h₄ hn]⟩

theorem fromKeys_sublist {α} [DecidableEq α] (l : List α) : (fromKeys l).Sublist l := by
  obtain ⟨kept, h₁, -, h₃, -⟩ := fromKeys_append l [] List.nodup_nil
  rw [fromKeys, h₁]
  exact h₃

theorem nodup_fromKeys {α} [DecidableEq α] (l : List α) : (fromKeys l).Nodup := by
  obtain ⟨kept, h₁, h₂, -, -⟩ := fromKeys_append l [] List.nodup_nil
  rw [fromKeys, h₁]
  exact h₂

theorem fromKeys_eq_self {α} [DecidableEq α] {l : List α} (h : l.Nodup) : fromKeys l = l := by
  obtain ⟨kept, h₁, -, -, h₄⟩ := fromKeys_append l [] List.nodup_nil
  rw [fromKeys, h₁]
  exact h₄ h

/-! ## Related lists -/

theorem forall₂_left {α β : Type*} {R : α → β → Prop} {l : List α} {l' : List β}
    (h : List.Forall₂ R l l') : ∀ a ∈ l, ∃ b ∈ l', R a b := by
  induction h with
  | nil => exact fun _ ha => nomatch ha
  | @cons a b l l' hr _ ih =>
    intro x hx
    rcases List.mem_cons.mp hx with rfl | hx
    · exact ⟨b, by simp, hr⟩
    · obtain ⟨y, hy, hxy⟩ := ih x hx
      exact ⟨y, by simp [hy], hxy⟩

theorem mapM_ok {α β ε : Type} {f : α → Except ε β} {l : List α} {ys : List β} :
    l.mapM f = .ok ys ↔ List.Forall₂ (fun x y => f x = .ok y) l ys := by
  induction l generalizing ys with
  | nil =>
    rw [List.mapM_nil]
    constructor
    · intro h
      cases h
      exact .nil
    · intro h
      cases h
      rfl
  | cons x l ih =>
    rw [List.mapM_cons, List.forall₂_cons_left_iff]
    cases hx : f x with
    | error e => simp [Bind.bind, Except.bind]
    | ok y =>
      cases hl : l.mapM f with
      | error e =>
        have hno : ∀ ys, ¬ List.Forall₂ (fun x y => f x = .ok y) l ys := by
          intro ys hys
          rw [ih.mpr hys] at hl
          cases hl
        simp [Bind.bind, Except.bind, hno]
      | ok zs =>
        simp only [Bind.bind, Except.bind, pure, Except.pure, Except.ok.injEq]
        constructor
        · intro h
          exact ⟨y, zs, rfl, ih.mp hl, h.symm⟩
        · intro ⟨b, us, hb, hus, he⟩
          rw [ih.mpr hus] at hl
          cases hb
          cases hl
          exact he.symm

end ExtraCodeowners
