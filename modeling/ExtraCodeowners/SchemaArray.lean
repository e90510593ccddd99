import ExtraCodeowners.SchemaReader

/-!
# PostgreSQL's form of an `IN` list

The rewriter turns the form into the `IN` list it was deparsed from, and leaves
every other text of the grammar as it is.
-/

namespace ExtraCodeowners

/-! ## Type names -/

theorem mem_splitOnP {p : Char → Bool} {s : Str} {c : Char} (h : c ∈ s) :
    p c = true ∨ ∃ part ∈ s.splitOnP p, c ∈ part := by
  induction s with
  | nil => cases h
  | cons d s ih =>
    rw [List.splitOnP_cons_eq_if_modifyHead]
    by_cases hd : p d = true
    · rw [if_pos hd]
      rcases List.mem_cons.mp h with rfl | h
      · exact .inl hd
      · rcases ih h with hc | ⟨part, hp, hc⟩
        · exact .inl hc
        · exact .inr ⟨part, List.mem_cons_of_mem _ hp, hc⟩
    · rw [if_neg hd]
      cases hs : s.splitOnP p with
      | nil => exact absurd hs (List.splitOnP_ne_nil p s)
      | cons l ls =>
        rw [List.modifyHead_cons]
        rcases List.mem_cons.mp h with rfl | h
        · exact .inr ⟨_, List.mem_cons_self, List.mem_cons_self⟩
        · rcases ih h with hc | ⟨part, hp, hc⟩
          · exact .inl hc
          · rw [hs] at hp
            rcases List.mem_cons.mp hp with rfl | hp
            · exact .inr ⟨_, List.mem_cons_self, List.mem_cons_of_mem _ hc⟩
            · exact .inr ⟨part, List.mem_cons_of_mem _ hp, hc⟩

theorem typeName_chars {n : Str} (h : IsTypeName n) : ∀ c ∈ n, isSpace c = true ∨ isWordTail c = true := by
  intro c hc
  by_cases hs : isSpace c = true
  · exact .inl hs
  · have hs' : isSpace c = false := by simpa using hs
    rcases mem_splitOnP (mem_strip hs' hc) with h' | ⟨part, hp, hm⟩
    · exact .inl h'
    · have hne : part ≠ [] := List.ne_nil_of_mem hm
      simp only [IsTypeName, postgresqlTypeNameIsValid, Bool.and_eq_true, List.all_eq_true] at h
      exact .inr ((h.2 part (List.mem_filter.mpr ⟨hp, by simpa using hne⟩)).2 c hm)

/-- The characters that the separators of the form are recognized by. -/
def Marks (c : Char) : Prop := isSpace c = false ∧ isWordTail c = false

instance (c : Char) : Decidable (Marks c) := inferInstanceAs (Decidable (_ ∧ _))

theorem not_mem_typeName {n : Str} (h : IsTypeName n) {c : Char} (hc : Marks c) : c ∉ n := by
  intro hm
  rcases typeName_chars h c hm with hs | hs
  · rw [hc.1] at hs
    cases hs
  · rw [hc.2] at hs
    cases hs

theorem marks : ∀ c ∈ [':', '=', ',', '\'', '(', ')', '[', ']', '"'], Marks c :=
  forall_mem_of_all (by decide)

theorem isPrefixOf_cast (s : Str) : [':', ':'].isPrefixOf (':' :: ':' :: s) = true := by simp

/-! ## Casts -/

/-- What may follow a cast: nothing, a comma or a further cast. -/
def CastEnds (rest : Str) : Prop := rest = [] ∨ (∃ s, rest = ',' :: s) ∨ ∃ s, rest = ':' :: ':' :: s

theorem splitTypeName_ends {rest : Str} (h : CastEnds rest) : splitTypeName rest = ([], rest) := by
  rcases h with rfl | ⟨s, rfl⟩ | ⟨s, rfl⟩
  · rfl
  · rfl
  · rw [splitTypeName, if_pos (.inr (isPrefixOf_cast s))]

theorem splitTypeName_run {n rest : Str} (hc : ':' ∉ n) (hm : ',' ∉ n) (hr : CastEnds rest) :
    splitTypeName (n ++ rest) = (n, rest) := by
  induction n with
  | nil => exact splitTypeName_ends hr
  | cons c n ih =>
    rw [List.mem_cons, not_or] at hc hm
    have hno : ¬ (c = ',' ∨ [':', ':'].isPrefixOf (c :: (n ++ rest)) = true) := by
      intro h
      rcases h with h | h
      · exact hm.1 h.symm
      · simp [hc.1] at h
    rw [List.cons_append, splitTypeName, if_neg hno, ih hc.2 hm.2]

theorem isCasts_head {s : Str} {types : List Str} (h : IsCasts s types) : ∃ u, s = ':' :: ':' :: u := by
  cases h with
  | one hn => exact ⟨_, rfl⟩
  | more hn hs => exact ⟨_, rfl⟩

theorem isCasts_types {s : Str} {types : List Str} (h : IsCasts s types) : types ≠ [] := by
  cases h with
  | one hn => simp
  | more hn hs => simp

/-- The end of the casts of a literal. -/
def ItemEnds (rest : Str) : Prop := rest = [] ∨ ∃ s, rest = ',' :: s

theorem readCasts_ends {rest : Str} (h : ItemEnds rest) (fuel cast_count : Nat) :
    readCasts (fuel + 1) cast_count rest = some (cast_count, rest) := by
  rcases h with rfl | ⟨s, rfl⟩
  · rfl
  · have hs : isSpace ',' = false := by decide
    simp [readCasts, hs]

theorem readCasts_step {n : Str} (hn : IsTypeName n) {rest : Str} (hr : CastEnds rest) (fuel cast_count : Nat) :
    readCasts (fuel + 1) cast_count (':' :: ':' :: (n ++ rest)) = readCasts fuel (cast_count + 1) rest := by
  have hs : isSpace ':' = false := by decide
  have hdrop : (':' :: ':' :: (n ++ rest)).dropWhile isSpace = ':' :: ':' :: (n ++ rest) := by simp [hs]
  have hsplit := splitTypeName_run (not_mem_typeName hn (marks ':' (by simp)))
    (not_mem_typeName hn (marks ',' (by simp))) hr
  simp only [readCasts, hdrop, if_pos (isPrefixOf_cast _), List.drop_succ_cons, List.drop_zero, hsplit]
  exact if_pos hn

theorem readCasts_reads {s : Str} {types : List Str} (h : IsCasts s types) {rest : Str} (hr : ItemEnds rest)
    (fuel cast_count : Nat) (hf : s.length ≤ fuel) :
    readCasts (fuel + 1) cast_count (s ++ rest) = some (cast_count + types.length, rest) := by
  have hends : CastEnds rest := hr.imp_right .inl
  induction h generalizing fuel cast_count with
  | @one n hn =>
    simp only [List.length_cons] at hf
    obtain ⟨fuel, rfl⟩ : ∃ m, fuel = m + 1 := ⟨fuel - 1, by omega⟩
    rw [List.cons_append, List.cons_append, readCasts_step hn hends, readCasts_ends hr]
    rfl
  | @more n s types hn hs ih =>
    simp only [List.length_cons, List.length_append] at hf
    obtain ⟨fuel, rfl⟩ : ∃ m, fuel = m + 1 := ⟨fuel - 1, by omega⟩
    obtain ⟨u, hu⟩ := isCasts_head hs
    have hnext : CastEnds (s ++ rest) := .inr (.inr ⟨u ++ rest, by rw [hu]; rfl⟩)
    rw [List.cons_append, List.cons_append, List.append_assoc, readCasts_step hn hnext,
      ih fuel (cast_count + 1) (by omega), List.length_cons]
    congr 2
    omega

/-! ## The literals of an array -/

theorem readLiteral_closes {v : Str} (hv : '\'' ∉ v) {d : Char} (hd : d ≠ '\'') (rest : Str) :
    readLiteral (v ++ '\'' :: d :: rest) = some (v, d :: rest) := by
  induction v with
  | nil => simp [readLiteral, hd]
  | cons c v ih =>
    rw [List.mem_cons, not_or] at hv
    rw [List.cons_append, readLiteral.eq_def]
    simp only [ne_eq, Ne.symm hv.1, not_false_eq_true, if_true, ih hv.2]
    rfl

theorem dropWhile_space {w : Str} (hw : ∀ c ∈ w, isSpace c = true) {c : Char} (hc : isSpace c = false) (s : Str) :
    (w ++ c :: s).dropWhile isSpace = c :: s := by
  rw [List.dropWhile_append_of_pos hw, List.dropWhile_cons_of_neg (by simp [hc])]

/-- The text behind a closing quote: blanks and at least one cast. -/
theorem behind_quote {w s : Str} {types : List Str} (hw : ∀ c ∈ w, isSpace c = true) (hs : IsCasts s types) :
    ∃ d u, w ++ s = d :: u ∧ d ≠ '\'' := by
  cases w with
  | nil =>
    obtain ⟨u, rfl⟩ := isCasts_head hs
    exact ⟨_, _, rfl, by decide⟩
  | cons d w =>
    refine ⟨d, w ++ s, rfl, ?_⟩
    intro he
    have hd := hw d (by simp)
    rw [he] at hd
    exact absurd hd (by decide)

theorem readCasts_space {w : Str} (hw : ∀ c ∈ w, isSpace c = true) (fuel cast_count : Nat) (s : Str) :
    readCasts fuel cast_count (w ++ s) = readCasts fuel cast_count s := by
  cases fuel with
  | zero => rfl
  | succ fuel => simp only [readCasts, List.dropWhile_append_of_pos hw]

def quotedText (v : Str) : Str := '\'' :: (v ++ ['\''])

/-- What the loop does behind the casts of an item. -/
def itemTail (fuel : Nat) (value rest : Str) : Option (List Str) :=
  match rest with
  | [] => some [value]
  | d :: s => if d ≠ ',' then none else (postgresqlAnyArrayValues fuel s).map (value :: ·)

theorem postgresqlAnyArrayValues_item {s v : Str} {types : List Str} (h : IsArrayItem s v types) {rest : Str}
    (hr : ItemEnds rest) (fuel : Nat) :
    postgresqlAnyArrayValues (fuel + 1) (s ++ rest) = itemTail fuel (quotedText v) rest := by
  cases h with
  | @intro w v w' s types hw hv hw' hs =>
    obtain ⟨d, u, hu, hd⟩ := behind_quote hw' hs
    have hq : isSpace '\'' = false := by decide
    have hskip : (w ++ '\'' :: (v ++ '\'' :: (w' ++ s)) ++ rest).dropWhile isSpace =
        '\'' :: (v ++ '\'' :: (d :: u ++ rest)) := by
      rw [List.append_assoc, List.cons_append, dropWhile_space hw hq, hu]
      simp
    have hread : readLiteral (v ++ '\'' :: (d :: u ++ rest)) = some (v, d :: u ++ rest) :=
      readLiteral_closes (not_mem_word hv (marks '\'' (by simp)).2) hd _
    have hcasts : readCasts ((d :: u ++ rest).length + 1) 0 (d :: u ++ rest) = some (types.length, rest) := by
      have hlen : s.length ≤ (d :: u ++ rest).length := by
        rw [← hu]
        simp only [List.length_append]
        omega
      have := readCasts_reads hs hr _ 0 hlen
      rw [Nat.zero_add] at this
      rw [← this, ← hu, List.append_assoc, readCasts_space hw']
    have hcount : types.length ≠ 0 := fun h0 => isCasts_types hs (List.length_eq_zero_iff.mp h0)
    have hrest : rest.dropWhile isSpace = rest := by
      rcases hr with rfl | ⟨t, rfl⟩
      · rfl
      · have hs : isSpace ',' = false := by decide
        simp [hs]
    simp only [postgresqlAnyArrayValues, hskip, ne_eq, not_true_eq_false, if_false, hread, hcasts, hcount, hrest]
    rfl

theorem postgresqlAnyArrayValues_reads {s : Str} {items : List (Str × List Str)} (h : IsArrayItems s items)
    (fuel : Nat) (hf : s.length ≤ fuel) :
    postgresqlAnyArrayValues (fuel + 1) s = some (items.map fun item => quotedText item.1) := by
  induction h generalizing fuel with
  | @one s v types h =>
    have hitem := postgresqlAnyArrayValues_item h (.inl rfl) fuel
    rw [List.append_nil] at hitem
    rw [hitem]
    rfl
  | @more s t v types items h ht ih =>
    rw [List.length_append, List.length_cons] at hf
    obtain ⟨fuel, rfl⟩ : ∃ m, fuel = m + 1 := ⟨fuel - 1, by omega⟩
    rw [postgresqlAnyArrayValues_item h (.inr ⟨t, rfl⟩)]
    show (postgresqlAnyArrayValues (fuel + 1) t).map (quotedText v :: ·) = _
    rw [ih fuel (by omega)]
    rfl

/-! ## The bracket of an array -/

/-- The scan passes over `u` and stays outside of strings. -/
def Passes (u : Str) : Prop :=
  ∀ s, splitArray false (u ++ s) = (splitArray false s).map fun (elements, rest) => (u ++ elements, rest)

theorem passes_nil : Passes [] := by
  intro s
  cases h : splitArray false s with
  | none => simp [h]
  | some p => simp [h]

theorem Passes.append {u v : Str} (hu : Passes u) (hv : Passes v) : Passes (u ++ v) := by
  intro s
  rw [List.append_assoc, hu, hv, Option.map_map]
  congr 1
  funext p
  simp

theorem passes_char {c : Char} (hq : c ≠ '\'') (hb : c ≠ ']') : Passes [c] := by
  intro s
  simp [splitArray, hq, hb]

theorem passes_chars {u : Str} (h : ∀ c ∈ u, c ≠ '\'' ∧ c ≠ ']') : Passes u := by
  induction u with
  | nil => exact passes_nil
  | cons c u ih =>
    rw [List.forall_mem_cons] at h
    exact (passes_char h.1.1 h.1.2).append (ih h.2)

theorem splitArray_inside {v : Str} (hv : '\'' ∉ v) (s : Str) :
    splitArray true (v ++ s) = (splitArray true s).map fun (elements, rest) => (v ++ elements, rest) := by
  induction v with
  | nil =>
    cases h : splitArray true s with
    | none => simp [h]
    | some p => simp [h]
  | cons c v ih =>
    rw [List.mem_cons, not_or] at hv
    have hc : c ≠ '\'' := Ne.symm hv.1
    rw [List.cons_append, splitArray, if_pos hc, if_neg (by simp), ih hv.2, Option.map_map]
    congr 1

/-- A string is passed over when no quote follows it. -/
theorem passes_string {v : Str} (hv : '\'' ∉ v) {d : Char} {u : Str} (hd : d ≠ '\'') (hu : Passes (d :: u)) :
    Passes ('\'' :: (v ++ '\'' :: d :: u)) := by
  intro s
  have hclose : splitArray true ('\'' :: (d :: u ++ s)) =
      (splitArray false (d :: u ++ s)).map fun (elements, rest) => ('\'' :: elements, rest) := by
    simp [splitArray, hd]
  have hopen : splitArray false ('\'' :: (v ++ '\'' :: (d :: u ++ s))) =
      (splitArray true (v ++ '\'' :: (d :: u ++ s))).map fun (elements, rest) => ('\'' :: elements, rest) := by
    simp [splitArray]
  have he : '\'' :: (v ++ '\'' :: d :: u) ++ s = '\'' :: (v ++ '\'' :: (d :: u ++ s)) := by simp
  rw [he, hopen, splitArray_inside hv, hclose, hu, Option.map_map, Option.map_map, Option.map_map]
  congr 1
  funext p
  simp

theorem ne_of_marks {c d : Char} (hd : Marks d) (hc : isSpace c = true ∨ isWordTail c = true) : c ≠ d := by
  intro he
  rw [he] at hc
  rcases hc with hc | hc
  · rw [hd.1] at hc
    cases hc
  · rw [hd.2] at hc
    cases hc

theorem passes_blank {u : Str} (h : ∀ c ∈ u, isSpace c = true ∨ isWordTail c = true) : Passes u :=
  passes_chars fun c hc =>
    ⟨ne_of_marks (marks '\'' (by simp)) (h c hc), ne_of_marks (marks ']' (by simp)) (h c hc)⟩

theorem passes_casts {s : Str} {types : List Str} (h : IsCasts s types) : Passes s := by
  have hcolon : Passes [':'] := passes_char (by decide) (by decide)
  induction h with
  | one hn => exact hcolon.append (hcolon.append (passes_blank (typeName_chars hn)))
  | more hn _ ih => exact hcolon.append (hcolon.append ((passes_blank (typeName_chars hn)).append ih))

theorem passes_item {s v : Str} {types : List Str} (h : IsArrayItem s v types) : Passes s := by
  cases h with
  | @intro w v w' s types hw hv hw' hs =>
    obtain ⟨d, u, hu, hd⟩ := behind_quote hw' hs
    have hbehind : Passes (d :: u) := by
      rw [← hu]
      exact (passes_blank fun c hc => .inl (hw' c hc)).append (passes_casts hs)
    rw [hu]
    exact (passes_blank fun c hc => .inl (hw c hc)).append
      (passes_string (not_mem_word hv (marks '\'' (by simp)).2) hd hbehind)

theorem passes_items {s : Str} {items : List (Str × List Str)} (h : IsArrayItems s items) : Passes s := by
  induction h with
  | one h => exact passes_item h
  | more h _ ih =>
    exact (passes_item h).append ((passes_char (by decide) (by decide)).append ih)

theorem splitArray_reads {s : Str} {items : List (Str × List Str)} (h : IsArrayItems s items) (t : Str) :
    splitArray false (s ++ ']' :: t) = some (s, t) := by
  rw [passes_items h]
  simp [splitArray]

/-! ## Partitions and keywords -/

theorem strPartition_first {a : Char} {sep l : Str} (h : a ∉ l) (r : Str) :
    strPartition (a :: sep) (l ++ (a :: sep ++ r)) = some (l, r) := by
  induction l with
  | nil =>
    have hp : (a :: sep).isPrefixOf (a :: sep ++ r) = true :=
      List.isPrefixOf_iff_prefix.mpr (List.prefix_append _ _)
    show (if (a :: sep).isPrefixOf (a :: sep ++ r) = true then
      some ([], (a :: sep ++ r).drop (a :: sep).length) else _) = _
    rw [if_pos hp, List.drop_left]
  | cons c l ih =>
    rw [List.mem_cons, not_or] at h
    have hp : ¬ (a :: sep).isPrefixOf (c :: (l ++ (a :: sep ++ r))) = true := by
      simp [h.1]
    rw [List.cons_append, strPartition, if_neg hp, ih h.2]
    rfl

theorem strPartition_before {sep s l r : Str} (h : strPartition sep s = some (l, r)) : l <+: s := by
  induction s generalizing l with
  | nil => cases h
  | cons c s ih =>
    rw [strPartition] at h
    by_cases hp : sep.isPrefixOf (c :: s) = true
    · rw [if_pos hp] at h
      cases h
      exact List.nil_prefix
    · rw [if_neg hp, Option.map_eq_some_iff] at h
      obtain ⟨⟨before, after⟩, hs, he⟩ := h
      cases he
      exact List.cons_prefix_cons.mpr ⟨rfl, ih hs⟩

theorem strPartition_none {a : Char} {sep s : Str} (h : a ∉ s) : strPartition (a :: sep) s = none := by
  induction s with
  | nil => rfl
  | cons c s ih =>
    rw [List.mem_cons, not_or] at h
    have hp : ¬ (a :: sep).isPrefixOf (c :: s) = true := by simp [h.1]
    rw [strPartition, if_neg hp, ih h.2]
    rfl

theorem isWordTail_toLower {c : Char} (h : isWordTail c.toLower = true) : isWordTail c = true := by
  have hu : ∀ d : Char, d = '_' ↔ d.toNat = 95 := fun d => Char.toNat_inj.symm
  rw [isWordTail_iff, hu, toNat_toLower] at h
  rw [isWordTail_iff, hu]
  split at h
  · omega
  · exact h

/-- A keyword in any letter case. -/
theorem keyword_chars {k w : Str} (h : lowered k = w) (hw : w.all isWordTail = true) :
    (∀ c ∈ k, isWordTail c = true) ∧ k.length = w.length := by
  constructor
  · intro c hc
    rw [List.all_eq_true] at hw
    apply isWordTail_toLower
    apply hw
    rw [← h]
    exact List.mem_map_of_mem hc
  · rw [← h]
    exact (List.length_map _).symm

theorem isAscii_wordTail {c : Char} (h : isWordTail c = true) : isAscii c = true := by
  have hu : ∀ d : Char, d = '_' ↔ d.toNat = 95 := fun d => Char.toNat_inj.symm
  rw [isWordTail_iff, hu] at h
  simp only [isAscii, decide_eq_true_eq]
  omega

theorem casefold_keyword [UnicodeTables] {k w : Str} (h : lowered k = w) (hw : w.all isWordTail = true) :
    casefold k = w := by
  rw [casefold_ascii fun c hc => isAscii_wordTail ((keyword_chars h hw).1 c hc)]
  exact h

theorem rdropWhile_blank {w : Str} (hw : ∀ c ∈ w, isSpace c = true) : w.rdropWhile isSpace = [] := by
  have h := rdropWhile_trail hw []
  rw [List.nil_append] at h
  rw [h]
  rfl

theorem strip_blank_nil {w : Str} (hw : ∀ c ∈ w, isSpace c = true) : strip w = [] := by
  have h := strip_lead hw []
  rw [List.append_nil] at h
  rw [h]
  rfl

theorem strip_rdropWhile (s : Str) : strip (s.rdropWhile isSpace) = strip s := by
  obtain ⟨lead, trail, hs, hl, ht⟩ := strip_decompose s
  have hdrop : s.rdropWhile isSpace = (lead ++ strip s).rdropWhile isSpace := by
    conv_lhs => rw [hs]
    exact rdropWhile_trail ht _
  rw [hdrop]
  by_cases hnil : strip s = []
  · rw [hnil, List.append_nil, rdropWhile_blank hl]
    rfl
  · have hself : (lead ++ strip s).rdropWhile isSpace = lead ++ strip s := by
      rw [List.rdropWhile_eq_self_iff]
      intro hne hspace
      have hlast : (strip s).getLast? = some ((lead ++ strip s).getLast hne) := by
        rw [List.getLast?_eq_some_getLast hnil, List.getLast_append_of_ne_nil _ hnil]
      rw [strip_last hlast] at hspace
      cases hspace
    rw [hself, strip_lead hl, strip_strip]

/-! ## The rewriter -/

theorem spells_chars {t : Str} {a : SqlAtom} (h : SpellsAtom t a) :
    ∀ c ∈ t, isWordTail c = true ∨ c = '"' ∨ c = '\'' := by
  have hquoted : ∀ (q : Char) (t : Str), isWord t = true →
      ∀ c ∈ q :: (t ++ [q]), isWordTail c = true ∨ c = q := by
    intro q t ht c hc
    rw [List.mem_cons, List.mem_append, List.mem_singleton] at hc
    rcases hc with hc | hc | hc
    · exact .inr hc
    · exact .inl (isWordTail_of_word ht c hc)
    · exact .inr hc
  cases h with
  | name h => exact fun c hc => .inl (isWordTail_of_identifier h c hc)
  | quoted h => exact fun c hc => (hquoted _ _ h c hc).imp_right .inl
  | text h => exact fun c hc => (hquoted _ _ h c hc).imp_right .inr
  | integer h => exact fun c hc => .inl (isWordTail_of_digit (isDigit_of_integer h c hc))

theorem spells_head {t : Str} {a : SqlAtom} (h : SpellsAtom t a) : ∃ c u, t = c :: u ∧ isSpace c = false := by
  cases t with
  | nil => cases h <;> contradiction
  | cons c u =>
    refine ⟨c, u, rfl, ?_⟩
    rcases spells_chars h c (by simp) with hc | rfl | rfl
    · exact isSpace_wordTail hc
    · decide
    · decide

/-- The bracket's cast, as the rewriter looks at it. -/
def arrayTypeIsValid (array_type : Str) : Prop :=
  ¬ (array_type ≠ [] ∧ !([':', ':'].isPrefixOf array_type && ['[', ']'].isSuffixOf array_type &&
    postgresqlTypeNameIsValid (strip (array_type.drop 2).dropLast.dropLast)))

theorem arrayTypeIsValid_cast {t : Str} {types : List Str} (h : IsArrayCast t types) :
    arrayTypeIsValid (strip (t.rdropWhile isSpace)) := by
  rw [strip_rdropWhile]
  cases h with
  | none hw =>
    rw [strip_blank_nil hw]
    exact fun hne => hne.1 rfl
  | @cast w n w' hw hn hw' =>
    have hcolon : isSpace ':' = false := by decide
    have hbracket : isSpace ']' = false := by decide
    have he : w ++ ':' :: ':' :: (n ++ '[' :: ']' :: w') = w ++ ':' :: ((':' :: (n ++ ['['])) ++ ']' :: w') := by
      simp
    rw [he, strip_lead hw, strip_cons hcolon, rdropWhile_middle hbracket, rdropWhile_blank hw']
    have hfront : [':', ':'].isPrefixOf (':' :: (':' :: (n ++ ['[']) ++ [']'])) = true := by simp
    have hback : ['[', ']'].isSuffixOf (':' :: (':' :: (n ++ ['[']) ++ [']'])) = true :=
      List.isSuffixOf_iff_suffix.mpr ⟨':' :: ':' :: n, by simp⟩
    have hname : ((':' :: (':' :: (n ++ ['[']) ++ [']'])).drop 2).dropLast.dropLast = n := by simp
    intro hne
    rw [hfront, hback, hname, hn] at hne
    exact absurd hne.2 (by decide)

/-- No separator of the form occurs in the column and the blanks behind it. -/
theorem not_mem_column {c w : Str} {a : SqlAtom} (hc : SpellsAtom c a) (hw : ∀ c ∈ w, isSpace c = true) {e : Char}
    (he : Marks e) (hq : e ≠ '"' ∧ e ≠ '\'') : e ∉ c ++ w := by
  intro hm
  rcases List.mem_append.mp hm with hm | hm
  · rcases spells_chars hc e hm with h | h | h
    · rw [he.2] at h
      cases h
    · exact hq.1 h
    · exact hq.2 h
  · have h := hw e hm
    rw [he.1] at h
    cases h

theorem partition_equals {c w n : Str} {a : SqlAtom} (hc : SpellsAtom c a) (hw : ∀ c ∈ w, isSpace c = true)
    (hn : IsTypeName n) (r : Str) :
    strPartition ['='] ((c ++ w ++ ':' :: ':' :: n) ++ (['='] ++ r)) = some (c ++ w ++ ':' :: ':' :: n, r) := by
  refine strPartition_first ?_ r
  have hcolumn := not_mem_column hc hw (marks '=' (by simp)) (by decide)
  have htype := not_mem_typeName hn (marks '=' (by simp))
  rw [List.mem_append, not_or]
  exact ⟨hcolumn, by simp [htype]⟩

theorem partition_cast {c w n : Str} {a : SqlAtom} (hc : SpellsAtom c a) (hw : ∀ c ∈ w, isSpace c = true) :
    strPartition [':', ':'] (strip (c ++ w ++ ':' :: ':' :: n)) = some (c ++ w, n.rdropWhile isSpace) := by
  obtain ⟨d, u, rfl, hd⟩ := spells_head hc
  have he : d :: u ++ w ++ ':' :: ':' :: n = d :: ((u ++ w ++ [':']) ++ ':' :: n) := by simp
  have hstrip : strip (d :: u ++ w ++ ':' :: ':' :: n) = (d :: u ++ w) ++ ([':', ':'] ++ n.rdropWhile isSpace) := by
    rw [he, strip_cons hd, rdropWhile_middle (by decide)]
    simp
  rw [hstrip]
  exact strPartition_first (not_mem_column hc hw (marks ':' (by simp)) (by decide)) _

/-- Stripping keeps a text that begins with a keyword up to its last mark. -/
theorem strip_keyword {k w : Str} (hk : lowered k = w) (hw : w.all isWordTail = true) (hne : w ≠ []) {e : Char}
    (he : isSpace e = false) (s t : Str) :
    strip (k ++ (s ++ e :: t)) = k ++ (s ++ e :: t.rdropWhile isSpace) := by
  cases k with
  | nil => exact absurd hk.symm hne
  | cons d k =>
    have hd : isSpace d = false := isSpace_wordTail ((keyword_chars hk hw).1 d (by simp))
    rw [List.cons_append, strip_cons hd, ← List.append_assoc, rdropWhile_middle he, List.append_assoc]
    rfl

section
variable [UnicodeTables]

/-- What the rewriter makes of the form. -/
theorem normalizePostgresqlAnyArrayCheck_reads {c w₁ n w₂ k w₃ w₄ k' s t : Str} {a : SqlAtom}
    {items : List (Str × List Str)} {arrayTypes : List Str} (hc : SpellsAtom c a)
    (hw₁ : ∀ c ∈ w₁, isSpace c = true) (hn : IsTypeName n) (hw₂ : ∀ c ∈ w₂, isSpace c = true)
    (hk : lowered k = ("any" : Str)) (hw₃ : ∀ c ∈ w₃, isSpace c = true) (hw₄ : ∀ c ∈ w₄, isSpace c = true)
    (hk' : lowered k' = ("array" : Str)) (hs : IsArrayItems s items) (ht : IsArrayCast t arrayTypes) :
    normalizePostgresqlAnyArrayCheck (c ++ w₁ ++ (':' :: ':' :: n) ++ '=' :: w₂ ++ k ++ w₃ ++ '(' :: w₄ ++ k' ++
      '[' :: s ++ ']' :: t ++ [(')' : Char)]) =
      some (c ++ w₁ ++ (" IN (" : Str) ++ join (", " : Str) (items.map fun item => quotedText item.1) ++
        [(')' : Char)]) := by
  let inner := k' ++ '[' :: (s ++ ']' :: t)
  let array := '(' :: ((w₄ ++ inner) ++ [(')' : Char)])
  have hsource : c ++ w₁ ++ (':' :: ':' :: n) ++ '=' :: w₂ ++ k ++ w₃ ++ '(' :: w₄ ++ k' ++
      '[' :: s ++ ']' :: t ++ [(')' : Char)] =
      (c ++ w₁ ++ ':' :: ':' :: n) ++ (['='] ++ (w₂ ++ (k ++ (w₃ ++ array)))) := by
    simp [array, inner]
  have htype : postgresqlTypeNameIsValid (strip (n.rdropWhile isSpace)) = true := by
    rw [strip_rdropWhile]
    exact hn
  -- The keyword and the parentheses.
  have hparen : isSpace ')' = false := by decide
  have hright : strip (w₂ ++ (k ++ (w₃ ++ array))) = k ++ (w₃ ++ array) := by
    have he : w₃ ++ array = (w₃ ++ '(' :: (w₄ ++ inner)) ++ ')' :: [] := by simp [array]
    rw [strip_lead hw₂, he, strip_keyword hk rfl (by decide) hparen]
    rfl
  have hklen : k.length = 3 := (keyword_chars hk rfl).2
  have htake : (k ++ (w₃ ++ array)).take 3 = k := List.take_left' hklen
  have hdrop : (k ++ (w₃ ++ array)).drop 3 = w₃ ++ array := List.drop_left' hklen
  have hany : casefold k = ("any" : Str) := casefold_keyword hk rfl
  have harray : strip (w₃ ++ array) = array := by
    rw [strip_lead hw₃]
    show strip ('(' :: ((w₄ ++ inner) ++ ')' :: [])) = _
    rw [strip_cons (by decide), rdropWhile_middle hparen]
    rfl
  have hbounds : (startsWith '(' array && endsWith ')' array) = true := by
    have hlast : array.getLast? = some ')' := by
      show ('(' :: (w₄ ++ inner) ++ [(')' : Char)]).getLast? = some ')'
      exact List.getLast?_concat
    rw [startsWith, endsWith, hlast]
    rfl
  -- The bracket.
  have hinner : strip array.tail.dropLast = (k' ++ ['[']) ++ (s ++ ']' :: t.rdropWhile isSpace) := by
    have hdropLast : array.tail.dropLast = w₄ ++ inner := by simp [array]
    have he : inner = k' ++ ('[' :: s ++ ']' :: t) := by simp [inner]
    rw [hdropLast, strip_lead hw₄, he, strip_keyword hk' rfl (by decide) (by decide)]
    simp
  have hlen : (k' ++ ['[']).length = 6 := by
    rw [List.length_append, (keyword_chars hk' rfl).2]
    rfl
  have htake' : ((k' ++ ['[']) ++ (s ++ ']' :: t.rdropWhile isSpace)).take 6 = k' ++ ['['] := List.take_left' hlen
  have hdrop' : ((k' ++ ['[']) ++ (s ++ ']' :: t.rdropWhile isSpace)).drop 6 = s ++ ']' :: t.rdropWhile isSpace :=
    List.drop_left' hlen
  have hbracket : casefold (k' ++ ['[']) = ("array[" : Str) := by
    rw [casefold_append, casefold_keyword hk' rfl]
    rfl
  have hvalues := postgresqlAnyArrayValues_reads hs s.length (le_refl _)
  rw [hsource]
  simp only [normalizePostgresqlAnyArrayCheck, partition_equals hc hw₁ hn, partition_cast hc hw₁, htype, hright,
    htake, hdrop, harray, hinner, hbounds, htake', hdrop', hany, hbracket, splitArray_reads hs, hvalues,
    Bool.not_true, ne_eq, not_true_eq_false, if_false, Bool.false_eq_true]
  exact if_neg (arrayTypeIsValid_cast ht)

/-- A text without a colon is no such form. -/
theorem normalizePostgresqlAnyArrayCheck_plain {s : Str} (h : ':' ∉ s) :
    normalizePostgresqlAnyArrayCheck s = none := by
  unfold normalizePostgresqlAnyArrayCheck
  cases hequal : strPartition ['='] s with
  | none => rfl
  | some p =>
    obtain ⟨left, right⟩ := p
    have hleft : ':' ∉ strip left := by
      intro hm
      have hsub : (strip left).Sublist left :=
        (List.rdropWhile_prefix _ _).sublist.trans (List.dropWhile_sublist _)
      exact h ((strPartition_before hequal).subset (hsub.subset hm))
    simp only [strPartition_none hleft]

end

end ExtraCodeowners
