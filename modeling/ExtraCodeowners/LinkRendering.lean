import ExtraCodeowners.LinkHeader

/-!
# Rendered links read back

The splitter and the reader agree on every rendering: what stands in a target
or in a quoted value separates nothing, and the next link is found by the names
and the values that were rendered. An empty target is no link to the reader.
-/

namespace ExtraCodeowners

/-! ## Rendering -/

/-- A link whose parameters have distinct names in any letter case. -/
structure Link where
  target : Str
  params : List (Str × Str)
  target_plain : ∀ c ∈ target, c ≠ '<' ∧ c ≠ '>' ∧ c ≠ '"'
  name_token : ∀ p ∈ params, p.1 ≠ [] ∧ ∀ c ∈ p.1, isTokenChar c = true
  name_distinct : (params.map fun p => p.1.map Char.toLower).Nodup

def escapeValue (value : Str) : Str :=
  value.flatMap fun c => if c = '"' ∨ c = '\\' then ['\\', c] else [c]

/-- The blanks behind a semicolon and a comma. -/
structure LinkBlanks where
  text : Str
  blank : ∀ c ∈ text, isSpace c = true

section
variable (blanks : LinkBlanks)

def renderParam (p : Str × Str) : Str :=
  ';' :: (blanks.text ++ (p.1 ++ '=' :: '"' :: (escapeValue p.2 ++ ['"'])))

def renderLink (link : Link) : Str :=
  '<' :: (link.target ++ '>' :: link.params.flatMap (renderParam blanks))

/-- One field, with a comma between two links. -/
def renderField (links : List Link) : Str := join (',' :: blanks.text) (links.map (renderLink blanks))

end

section
variable [UnicodeTables]

/-- The relation names `next`, in any letter case. -/
def Link.isNext (link : Link) : Bool :=
  link.params.any fun p => p.1.map Char.toLower = ("rel" : Str) && ("next" : Str) ∈ words (casefold p.2)

/-- The only next link, none, or an error where there are several. -/
def nextOf (links : List Link) : Except LinkError NextLink :=
  match links.filter Link.isNext with
  | [] => .ok .terminal
  | [link] => .ok (.target link.target)
  | _ :: _ :: _ => .error MULTIPLE_NEXT_LINKS

end

/-! ## Splitting a rendered link -/

/-- The splitter passes over `u` between two parts. -/
def ScansOver (u : Str) : Prop :=
  ∀ part s, splitLinks false false false part (u ++ s) = splitLinks false false false (part ++ u) s

theorem scansOver_nil : ScansOver [] := by
  intro part s
  rw [List.nil_append, List.append_nil]

theorem ScansOver.append {u v : Str} (hu : ScansOver u) (hv : ScansOver v) : ScansOver (u ++ v) := by
  intro part s
  rw [List.append_assoc, hu, hv, List.append_assoc]

theorem scansOver_char {c : Char} (h : c ≠ '"' ∧ c ≠ '<' ∧ c ≠ '>' ∧ c ≠ ',') : ScansOver [c] := by
  intro part s
  simp [splitLinks, h]

theorem scansOver_chars {u : Str} (h : ∀ c ∈ u, c ≠ '"' ∧ c ≠ '<' ∧ c ≠ '>' ∧ c ≠ ',') : ScansOver u := by
  induction u with
  | nil => exact scansOver_nil
  | cons c u ih =>
    rw [List.forall_mem_cons] at h
    exact (scansOver_char h.1).append (ih h.2)

theorem splitLinks_target {t : Str} (h : ∀ c ∈ t, c ≠ '<' ∧ c ≠ '>' ∧ c ≠ '"') (part s : Str) :
    splitLinks true false false part (t ++ s) = splitLinks true false false (part ++ t) s := by
  induction t generalizing part with
  | nil => rw [List.nil_append, List.append_nil]
  | cons c t ih =>
    rw [List.forall_mem_cons] at h
    have hstep : splitLinks true false false part (c :: (t ++ s)) =
        splitLinks true false false (part ++ [c]) (t ++ s) := by simp [splitLinks, h.1]
    rw [List.cons_append, hstep, ih h.2, List.append_assoc]
    rfl

theorem scansOver_target {t : Str} (h : ∀ c ∈ t, c ≠ '<' ∧ c ≠ '>' ∧ c ≠ '"') : ScansOver ('<' :: (t ++ ['>'])) := by
  intro part s
  have hopen : splitLinks false false false part ('<' :: (t ++ '>' :: s)) =
      splitLinks true false false (part ++ ['<']) (t ++ '>' :: s) := by simp [splitLinks]
  have hclose : splitLinks true false false (part ++ ['<'] ++ t) ('>' :: s) =
      splitLinks false false false (part ++ ['<'] ++ t ++ ['>']) s := by simp [splitLinks]
  have he : '<' :: (t ++ ['>']) ++ s = '<' :: (t ++ '>' :: s) := by simp
  rw [he, hopen, splitLinks_target h, hclose]
  simp

theorem splitLinks_value (v part s : Str) :
    splitLinks false true false part (escapeValue v ++ s) =
      splitLinks false true false (part ++ escapeValue v) s := by
  induction v generalizing part with
  | nil => rw [escapeValue, List.flatMap_nil, List.nil_append, List.append_nil]
  | cons c v ih =>
    have he : escapeValue (c :: v) = (if c = '"' ∨ c = '\\' then ['\\', c] else [c]) ++ escapeValue v := rfl
    rw [he]
    by_cases h : c = '"' ∨ c = '\\'
    · have hstep : splitLinks false true false part ('\\' :: c :: (escapeValue v ++ s)) =
          splitLinks false true false (part ++ ['\\', c]) (escapeValue v ++ s) := by simp [splitLinks]
      rw [if_pos h, List.append_assoc, ← List.append_assoc part, ← ih]
      exact hstep
    · rw [not_or] at h
      have hstep : splitLinks false true false part (c :: (escapeValue v ++ s)) =
          splitLinks false true false (part ++ [c]) (escapeValue v ++ s) := by simp [splitLinks, h]
      rw [if_neg (by simp [h]), List.append_assoc, ← List.append_assoc part, ← ih]
      exact hstep

theorem scansOver_value (v : Str) : ScansOver ('"' :: (escapeValue v ++ ['"'])) := by
  intro part s
  have hopen : splitLinks false false false part ('"' :: (escapeValue v ++ '"' :: s)) =
      splitLinks false true false (part ++ ['"']) (escapeValue v ++ '"' :: s) := by simp [splitLinks]
  have hclose : splitLinks false true false (part ++ ['"'] ++ escapeValue v) ('"' :: s) =
      splitLinks false false false (part ++ ['"'] ++ escapeValue v ++ ['"']) s := by simp [splitLinks]
  have he : '"' :: (escapeValue v ++ ['"']) ++ s = '"' :: (escapeValue v ++ '"' :: s) := by simp
  rw [he, hopen, splitLinks_value, hclose]
  simp

/-! ## The characters of a name -/

theorem isTokenChar_ascii {c : Char} (h : isTokenChar c = true) : isAscii c = true := by
  rw [isTokenChar, Bool.or_eq_true] at h
  rcases h with h | h
  · rw [isAlphanum_iff] at h
    simp only [isAscii, decide_eq_true_eq]
    omega
  · have hall : ∀ c ∈ ("!#$%&'*+-.^_`|~" : Str), isAscii c = true := forall_mem_of_all (by decide)
    exact hall c (List.contains_iff_mem.mp h)

theorem casefold_name [UnicodeTables] {name : Str} (h : ∀ c ∈ name, isTokenChar c = true) :
    casefold name = name.map Char.toLower :=
  casefold_ascii fun c hc => isTokenChar_ascii (h c hc)

/-- A class without the delimiters of a header. -/
theorem plain_of_class {p : Char → Bool} (hp : p '"' = false ∧ p '<' = false ∧ p '>' = false ∧ p ',' = false)
    {c : Char} (h : p c = true) : c ≠ '"' ∧ c ≠ '<' ∧ c ≠ '>' ∧ c ≠ ',' := by
  have hne : ∀ d, p d = false → c ≠ d := by
    intro d hd he
    rw [he, hd] at h
    cases h
  exact ⟨hne _ hp.1, hne _ hp.2.1, hne _ hp.2.2.1, hne _ hp.2.2.2⟩

theorem isSpace_plain {c : Char} (h : isSpace c = true) : c ≠ '"' ∧ c ≠ '<' ∧ c ≠ '>' ∧ c ≠ ',' :=
  plain_of_class (by decide) h

theorem isTokenChar_plain {c : Char} (h : isTokenChar c = true) : c ≠ '"' ∧ c ≠ '<' ∧ c ≠ '>' ∧ c ≠ ',' :=
  plain_of_class (by decide) h

theorem isTokenChar_space {c : Char} (h : isTokenChar c = true) : isSpace c = false := by
  rw [isTokenChar, Bool.or_eq_true] at h
  rcases h with h | h
  · rw [isAlphanum_iff] at h
    simp only [isSpace, Bool.or_eq_false_iff, Bool.and_eq_false_iff, decide_eq_false_iff_not, beq_eq_false_iff_ne]
    omega
  · have hall : ∀ c ∈ ("!#$%&'*+-.^_`|~" : Str), isSpace c = false := forall_mem_of_all (by decide)
    exact hall c (List.contains_iff_mem.mp h)

section
variable (blanks : LinkBlanks)

theorem scansOver_param {p : Str × Str} (hp : ∀ c ∈ p.1, isTokenChar c = true) : ScansOver (renderParam blanks p) := by
  have hsemicolon : ScansOver [';'] := scansOver_char (by decide)
  have hblanks : ScansOver blanks.text := scansOver_chars fun c hc => isSpace_plain (blanks.blank c hc)
  have hname : ScansOver p.1 := scansOver_chars fun c hc => isTokenChar_plain (hp c hc)
  have hequals : ScansOver ['='] := scansOver_char (by decide)
  exact hsemicolon.append (hblanks.append (hname.append (hequals.append (scansOver_value p.2))))

theorem scansOver_params {ps : List (Str × Str)} (h : ∀ p ∈ ps, ∀ c ∈ p.1, isTokenChar c = true) :
    ScansOver (ps.flatMap (renderParam blanks)) := by
  induction ps with
  | nil => exact scansOver_nil
  | cons p ps ih =>
    rw [List.forall_mem_cons] at h
    exact (scansOver_param blanks h.1).append (ih h.2)

theorem scansOver_link (link : Link) : ScansOver (renderLink blanks link) := by
  have he : renderLink blanks link =
      '<' :: (link.target ++ ['>']) ++ link.params.flatMap (renderParam blanks) := by simp [renderLink]
  rw [he]
  exact (scansOver_target link.target_plain).append (scansOver_params blanks fun p hp => (link.name_token p hp).2)

/-! ## Splitting a rendered header -/

theorem param_last (p : Str × Str) : ∃ u, renderParam blanks p = u ++ ['"'] :=
  ⟨';' :: (blanks.text ++ (p.1 ++ '=' :: '"' :: escapeValue p.2)), by simp [renderParam]⟩

theorem params_last {ps : List (Str × Str)} (h : ps ≠ []) :
    ∃ u, ps.flatMap (renderParam blanks) = u ++ ['"'] := by
  obtain ⟨qs, p, rfl⟩ : ∃ qs p, ps = qs ++ [p] := ⟨ps.dropLast, ps.getLast h, (List.dropLast_append_getLast h).symm⟩
  obtain ⟨u, hu⟩ := param_last blanks p
  refine ⟨qs.flatMap (renderParam blanks) ++ u, ?_⟩
  rw [List.flatMap_append, List.flatMap_singleton, hu, List.append_assoc]

theorem strip_link (link : Link) : strip (renderLink blanks link) = renderLink blanks link := by
  refine strip_eq_self.mpr ⟨?_, ?_⟩
  · intro c hc
    cases hc
    decide
  · intro c hc
    by_cases hps : link.params = []
    · have he : renderLink blanks link = ('<' :: link.target) ++ ['>'] := by simp [renderLink, hps]
      rw [he, List.getLast?_concat] at hc
      cases hc
      decide
    · obtain ⟨u, hu⟩ := params_last blanks hps
      have he : renderLink blanks link = ('<' :: (link.target ++ '>' :: u)) ++ ['"'] := by simp [renderLink, hu]
      rw [he, List.getLast?_concat] at hc
      cases hc
      decide

/-- The parts `us` with a comma and blanks between two of them. -/
inductive Separated : Str → List Str → Prop
  | one (u : Str) : Separated u [u]
  | more {u w s : Str} {us : List Str} (hw : ∀ c ∈ w, isSpace c = true) (hs : Separated s us) :
    Separated (u ++ ',' :: (w ++ s)) (u :: us)

theorem Separated.append {s w t : Str} {us vs : List Str} (hs : Separated s us) (hw : ∀ c ∈ w, isSpace c = true)
    (ht : Separated t vs) : Separated (s ++ ',' :: (w ++ t)) (us ++ vs) := by
  induction hs with
  | one u => exact .more hw ht
  | @more u w' s us hw' _ ih =>
    have he : u ++ ',' :: (w' ++ s) ++ ',' :: (w ++ t) = u ++ ',' :: (w' ++ (s ++ ',' :: (w ++ t))) := by simp
    rw [he]
    exact .more hw' ih

theorem separated_join {w : Str} (hw : ∀ c ∈ w, isSpace c = true) (parts : List (Str × List Str))
    (hne : parts ≠ []) (h : ∀ part ∈ parts, Separated part.1 part.2) :
    Separated (join (',' :: w) (parts.map Prod.fst)) (parts.flatMap Prod.snd) := by
  induction parts with
  | nil => exact absurd rfl hne
  | cons part parts ih =>
    rw [List.forall_mem_cons] at h
    cases parts with
    | nil =>
      rw [List.map_singleton, join_singleton, List.flatMap_singleton]
      exact h.1
    | cons next parts =>
      rw [List.map_cons, List.map_cons, join_cons_cons, List.append_assoc, List.flatMap_cons]
      exact h.1.append hw (ih (by simp) h.2)

theorem splitLinks_separated {s : Str} {us : List Str} (h : Separated s us)
    (hus : ∀ u ∈ us, ScansOver u ∧ strip u = u ∧ u ≠ []) {part : Str} (hpart : ∀ c ∈ part, isSpace c = true) :
    splitLinks false false false part s = .ok us := by
  induction h generalizing part with
  | one u =>
    obtain ⟨hscan, hstrip, hne⟩ := hus u (by simp)
    have hend := hscan part []
    rw [List.append_nil] at hend
    rw [hend]
    simp [splitLinks, strip_lead hpart, hstrip, hne]
  | @more u w s us hw _ ih =>
    rw [List.forall_mem_cons] at hus
    obtain ⟨⟨hscan, hstrip, hne⟩, hus⟩ := hus
    have hrest : splitLinks false false false [] (w ++ s) = splitLinks false false false w s := by
      have hblank : ScansOver w := scansOver_chars fun c hc => isSpace_plain (hw c hc)
      exact hblank [] s
    rw [hscan]
    simp [splitLinks, strip_lead hpart, hstrip, hne, hrest, ih hus hw]

theorem renderLink_ne_nil (link : Link) : renderLink blanks link ≠ [] := by simp [renderLink]

theorem separated_field {links : List Link} (h : links ≠ []) :
    Separated (renderField blanks links) (links.map (renderLink blanks)) := by
  let parts := links.map fun link => (renderLink blanks link, [renderLink blanks link])
  have hparts : ∀ part ∈ parts, Separated part.1 part.2 := by
    intro part hp
    obtain ⟨link, -, rfl⟩ := List.mem_map.mp hp
    exact .one _
  have hjoin := separated_join blanks.blank parts (by simpa [parts] using h) hparts
  simpa [parts, renderField, List.flatMap_map, Function.comp_def, ← List.map_eq_flatMap] using hjoin

/-- The fields of one header are read as one list of links. -/
theorem splitLinkHeader_rendered {fields : List (List Link)} (hne : fields ≠ []) (h : ∀ field ∈ fields, field ≠ []) :
    splitLinkHeader (join [','] (fields.map (renderField blanks))) =
      .ok (fields.flatten.map (renderLink blanks)) := by
  have hnil : ∀ c ∈ ([] : Str), isSpace c = true := List.forall_mem_nil _
  let parts := fields.map fun field => (renderField blanks field, field.map (renderLink blanks))
  have hparts : ∀ part ∈ parts, Separated part.1 part.2 := by
    intro part hp
    obtain ⟨field, hf, rfl⟩ := List.mem_map.mp hp
    exact separated_field blanks (h field hf)
  have hjoin := separated_join hnil parts (by simpa [parts] using hne) hparts
  have hflat : parts.flatMap Prod.snd = fields.flatten.map (renderLink blanks) := by
    rw [List.flatMap_map, List.map_flatten, List.flatMap_def]
  rw [hflat, List.map_map] at hjoin
  refine splitLinks_separated hjoin ?_ hnil
  intro u hu
  obtain ⟨link, -, rfl⟩ := List.mem_map.mp hu
  exact ⟨scansOver_link blanks link, strip_link blanks link, renderLink_ne_nil blanks link⟩

end

/-! ## Reading a rendered parameter -/

theorem escapeValue_cons (c : Char) (v : Str) :
    escapeValue (c :: v) = (if c = '"' ∨ c = '\\' then ['\\', c] else [c]) ++ escapeValue v := rfl

theorem quotedValue_quote (rest : Str) : quotedValue ('"' :: rest) = some ([], rest) := by
  cases rest <;> rfl

theorem quotedValue_plain {c : Char} (h : c ≠ '"' ∧ c ≠ '\\') (s : Str) :
    quotedValue (c :: s) = (quotedValue s).map fun (value, rest) => (c :: value, rest) := by
  cases s with
  | nil => simp [quotedValue, h]
  | cons d s => simp [quotedValue, h]

theorem quotedValue_escape (v rest : Str) :
    quotedValue (escapeValue v ++ '"' :: rest) = some (escapeValue v, rest) := by
  induction v with
  | nil => exact quotedValue_quote rest
  | cons c v ih =>
    rw [escapeValue_cons]
    by_cases h : c = '"' ∨ c = '\\'
    · have hfeed : c ≠ '\n' := by
        intro he
        rw [he] at h
        exact absurd h (by decide)
      simp [h, quotedValue, hfeed, ih]
    · rw [if_neg h, List.singleton_append, List.cons_append, quotedValue_plain (not_or.mp h), ih]
      rfl

theorem unescape_plain {c : Char} (h : c ≠ '\\') (s : Str) : unescape (c :: s) = c :: unescape s := by
  cases s with
  | nil => rfl
  | cons d s => rw [unescape, if_neg fun he => h he.1]

theorem unescape_escape (v : Str) : unescape (escapeValue v) = v := by
  induction v with
  | nil => rfl
  | cons c v ih =>
    rw [escapeValue_cons]
    by_cases h : c = '"' ∨ c = '\\'
    · have hfeed : c ≠ '\n' := by
        intro he
        rw [he] at h
        exact absurd h (by decide)
      simp [h, unescape, hfeed, ih]
    · have h' := not_or.mp h
      rw [if_neg h, List.singleton_append, unescape_plain h'.2, ih]

/-- What may follow a parameter: nothing or a further one. -/
def ParamEnds (rest : Str) : Prop := ∀ c, rest.head? = some c → c = ';'

theorem dropWhile_ends {rest : Str} (h : ParamEnds rest) : rest.dropWhile isSpace = rest := by
  cases rest with
  | nil => rfl
  | cons c rest =>
    have hc : c = ';' := h c rfl
    have hspace : isSpace ';' = false := by decide
    rw [hc, List.dropWhile_cons_of_neg (by simp [hspace])]

section
variable (blanks : LinkBlanks)

theorem params_ends (ps : List (Str × Str)) : ParamEnds (ps.flatMap (renderParam blanks)) := by
  intro c hc
  cases ps with
  | nil => cases hc
  | cons p ps =>
    rw [List.flatMap_cons, renderParam, List.cons_append] at hc
    cases hc
    rfl

theorem linkParameter_rendered {p : Str × Str} (hp : p.1 ≠ [] ∧ ∀ c ∈ p.1, isTokenChar c = true) {rest : Str}
    (hr : ParamEnds rest) :
    linkParameter (renderParam blanks p ++ rest) = some (p.1, p.2, rest) := by
  obtain ⟨hne, htoken⟩ := hp
  have hequals : isTokenChar '=' = false ∧ isSpace '=' = false := by decide
  have hquote : isSpace '"' = false := by decide
  let behind := '=' :: '"' :: (escapeValue p.2 ++ '"' :: rest)
  have hrender : renderParam blanks p ++ rest = ';' :: (blanks.text ++ (p.1 ++ behind)) := by
    simp [renderParam, behind]
  have hblanks : (blanks.text ++ (p.1 ++ behind)).dropWhile isSpace = p.1 ++ behind := by
    refine dropWhile_run blanks.blank ?_
    obtain ⟨c, name, hc⟩ := List.exists_cons_of_ne_nil hne
    rw [hc] at htoken ⊢
    simp [isTokenChar_space (htoken c (by simp))]
  have hstop : behind.head?.any isTokenChar = false := by simpa [behind] using hequals.1
  have hvalue : parameterValue ('"' :: (escapeValue p.2 ++ '"' :: rest)) = some (p.2, rest) := by
    simp [parameterValue, quotedValue_escape, unescape_escape, dropWhile_ends hr]
  rw [hrender, linkParameter]
  simp only [hblanks, takeWhile_run htoken hstop, dropWhile_run htoken hstop, hne, ne_eq, not_true_eq_false, or_self,
    if_false]
  simp [behind, hequals.2, hquote, hvalue]

section
variable [UnicodeTables]

/-- A parameter by its name. -/
def foldName (p : Str × Str) : Str × Str := (p.1.map Char.toLower, p.2)

theorem linkParameters_rendered {ps : List (Str × Str)} (hps : ∀ p ∈ ps, p.1 ≠ [] ∧ ∀ c ∈ p.1, isTokenChar c = true)
    {seen : List (Str × Str)} (hseen : ((seen ++ ps.map foldName).map Prod.fst).Nodup) (fuel : Nat)
    (hf : (ps.flatMap (renderParam blanks)).length ≤ fuel) :
    linkParameters fuel seen (ps.flatMap (renderParam blanks)) = .ok (seen ++ ps.map foldName) := by
  induction ps generalizing seen fuel with
  | nil =>
    rw [List.map_nil, List.append_nil]
    cases fuel <;> rfl
  | cons p ps ih =>
    rw [List.forall_mem_cons] at hps
    have hread := linkParameter_rendered blanks hps.1 (params_ends blanks ps)
    have hfold : casefold p.1 = p.1.map Char.toLower := casefold_name hps.1.2
    have hfresh : p.1.map Char.toLower ∉ seen.map Prod.fst := by
      rw [List.map_append, List.nodup_append] at hseen
      intro hm
      exact hseen.2.2 _ hm _ (by simp [foldName]) rfl
    have hnext : seen ++ (p :: ps).map foldName = seen ++ [foldName p] ++ ps.map foldName := by simp
    rw [hnext] at hseen ⊢
    rw [List.flatMap_cons] at hf ⊢
    rw [List.length_append] at hf
    cases hs : renderParam blanks p with
    | nil => cases hs
    | cons c s =>
      rw [hs] at hread hf
      rw [List.length_cons] at hf
      obtain ⟨fuel, rfl⟩ : ∃ n, fuel = n + 1 := ⟨fuel - 1, by omega⟩
      rw [List.cons_append] at hread ⊢
      rw [linkParameters]
      simp only [hread, hfold, hfresh, if_false]
      exact ih hps.2 hseen fuel (by omega)

theorem linkEntry_rendered {link : Link} (h : link.target ≠ []) :
    linkEntry (renderLink blanks link) = .ok (link.target, link.params.map foldName) := by
  let rest := link.params.flatMap (renderParam blanks)
  have hplain : ∀ c ∈ link.target, (c != '<' && c != '>') = true := by
    intro c hc
    have hc' := link.target_plain c hc
    simp [hc'.1, hc'.2.1]
  have hstop : ('>' :: rest).head?.any (fun c => c != '<' && c != '>') = false := rfl
  have hopen : ('<' :: (link.target ++ '>' :: rest)).dropWhile isSpace = '<' :: (link.target ++ '>' :: rest) := by
    have hspace : isSpace '<' = false := by decide
    rw [List.dropWhile_cons_of_neg (by simp [hspace])]
  have htarget : linkTarget ('<' :: (link.target ++ '>' :: rest)) = some (link.target, rest) := by
    have hrest : rest.dropWhile isSpace = rest := dropWhile_ends (params_ends blanks link.params)
    rw [linkTarget, hopen]
    simp only [takeWhile_run hplain hstop, dropWhile_run hplain hstop]
    simp [h, hrest]
  have hdistinct : (([] ++ link.params.map foldName).map Prod.fst).Nodup := by
    have hd := link.name_distinct
    simpa [foldName, Function.comp_def] using hd
  have hparams : linkParameters rest.length [] rest = .ok ([] ++ link.params.map foldName) :=
    linkParameters_rendered blanks link.name_token hdistinct rest.length (le_refl _)
  have hrender : renderLink blanks link = '<' :: (link.target ++ '>' :: rest) := rfl
  rw [hrender, linkEntry]
  simp only [htarget, hparams]
  rfl

end

end

/-! ## The next link of a rendered header -/

/-- The value of the one parameter of a name decides about the whole list. -/
theorem any_lookup {ps : List (Str × Str)} (h : (ps.map Prod.fst).Nodup) (name : Str) (holds : Str → Bool)
    (hnil : holds [] = false) :
    (ps.any fun p => p.1 = name && holds p.2) = holds ((ps.lookup name).getD []) := by
  induction ps with
  | nil => exact hnil.symm
  | cons p ps ih =>
    obtain ⟨n, v⟩ := p
    rw [List.map_cons, List.nodup_cons] at h
    rw [List.any_cons, List.lookup_cons]
    by_cases hn : n = name
    · subst hn
      have hrest : (ps.any fun p => p.1 = n && holds p.2) = false := by
        rw [List.any_eq_false]
        intro q hq hn
        rw [Bool.and_eq_true, decide_eq_true_eq] at hn
        exact h.1 (List.mem_map.mpr ⟨q, hq, hn.1⟩)
      simp [hrest]
    · have hne : (name == n) = false := by simpa using Ne.symm hn
      rw [ih h.2, hne]
      simp [hn]

section
variable [UnicodeTables]

theorem namesNext_params (link : Link) : namesNext (link.params.map foldName) = link.isNext := by
  have hdistinct : ((link.params.map foldName).map Prod.fst).Nodup := by
    have hd := link.name_distinct
    simpa [foldName, Function.comp_def] using hd
  have hnil : (fun v : Str => decide (("next" : Str) ∈ words (casefold v))) [] = false := by
    show decide (("next" : Str) ∈ []) = false
    decide
  have h := any_lookup hdistinct ("rel" : Str) (fun v => decide (("next" : Str) ∈ words (casefold v))) hnil
  rw [namesNext, ← h, List.any_map]
  rfl

section
variable (blanks : LinkBlanks)

theorem nextTarget_later {links : List Link} (h : ∀ link ∈ links, link.target ≠ []) (target : Str) :
    nextTarget (some target) (links.map (renderLink blanks)) =
      if links.filter Link.isNext = [] then .ok (.target target) else .error MULTIPLE_NEXT_LINKS := by
  induction links with
  | nil => rfl
  | cons link links ih =>
    rw [List.forall_mem_cons] at h
    rw [List.map_cons, nextTarget, linkEntry_rendered blanks h.1]
    simp only [namesNext_params]
    by_cases hnext : link.isNext = true
    · simp [hnext]
    · rw [Bool.not_eq_true] at hnext
      simp [hnext, ih h.2]

theorem nextTarget_rendered {links : List Link} (h : ∀ link ∈ links, link.target ≠ []) :
    nextTarget none (links.map (renderLink blanks)) = nextOf links := by
  induction links with
  | nil => rfl
  | cons link links ih =>
    rw [List.forall_mem_cons] at h
    rw [List.map_cons, nextTarget, linkEntry_rendered blanks h.1]
    simp only [namesNext_params]
    by_cases hnext : link.isNext = true
    · have hlater := nextTarget_later blanks h.2 link.target
      cases hf : links.filter Link.isNext with
      | nil =>
        rw [hf] at hlater
        simp [hnext, nextOf, hf, hlater]
      | cons other others =>
        rw [hf] at hlater
        simp [hnext, nextOf, hf, hlater]
    · rw [Bool.not_eq_true] at hnext
      have hsame : nextOf (link :: links) = nextOf links := by
        simp [nextOf, hnext]
      rw [hsame, ← ih h.2]
      simp [hnext]

/-- However the links are split over fields, the target of the only next link is
returned, none where there is none, and several are an error. -/
theorem nextLinkTarget_rendered {fields : List (List Link)} (hne : fields ≠ []) (hfields : ∀ field ∈ fields, field ≠ [])
    (htargets : ∀ link ∈ fields.flatten, link.target ≠ []) :
    nextLinkTarget (fields.map (renderField blanks)) = nextOf fields.flatten := by
  have hvalues : fields.map (renderField blanks) ≠ [] := by simpa using hne
  rw [nextLinkTarget, if_neg hvalues, splitLinkHeader_rendered blanks hne hfields]
  exact nextTarget_rendered blanks htargets

end

end

/-! ## A header with separators inside of links -/

theorem sampleBlank : ∀ c ∈ (" " : Str), isSpace c = true := forall_mem_of_all (by decide)

def sampleBlanks : LinkBlanks := ⟨" ", sampleBlank⟩

def sampleParams : List (Str × Str) := [("title", "a, \"b\"; <c>"), ("REL", "last NEXT")]

theorem sampleParams_token : ∀ p ∈ sampleParams, p.1 ≠ [] ∧ ∀ c ∈ p.1, isTokenChar c = true := by
  have htitle : ∀ c ∈ ("title" : Str), isTokenChar c = true := forall_mem_of_all (by decide)
  have hrel : ∀ c ∈ ("REL" : Str), isTokenChar c = true := forall_mem_of_all (by decide)
  rw [sampleParams, List.forall_mem_cons, List.forall_mem_singleton]
  exact ⟨⟨by decide, htitle⟩, by decide, hrel⟩

theorem sampleParams_distinct : (sampleParams.map fun p => p.1.map Char.toLower).Nodup := by decide

theorem sampleTarget_plain : ∀ c ∈ ("/items?page=2;x,y" : Str), c ≠ '<' ∧ c ≠ '>' ∧ c ≠ '"' :=
  forall_mem_of_all (by decide)

def sampleLink : Link :=
  ⟨"/items?page=2;x,y", sampleParams, sampleTarget_plain, sampleParams_token, sampleParams_distinct⟩

theorem emptyTarget_plain : ∀ c ∈ ([] : Str), c ≠ '<' ∧ c ≠ '>' ∧ c ≠ '"' := List.forall_mem_nil _

def emptyTargetLink : Link := ⟨[], sampleParams, emptyTarget_plain, sampleParams_token, sampleParams_distinct⟩

theorem sampleLink_read :
    @nextLinkTarget asciiTables [renderField sampleBlanks [sampleLink]] = .ok (.target "/items?page=2;x,y") := by
  have htargets : ∀ link ∈ [[sampleLink]].flatten, link.target ≠ [] := by
    rw [List.flatten_singleton, List.forall_mem_singleton]
    decide
  have hfields : ∀ field ∈ [[sampleLink]], field ≠ [] := by simp
  exact @nextLinkTarget_rendered asciiTables sampleBlanks [[sampleLink]] (by simp) hfields htargets

/-- The reader takes a link to the document itself for a malformed one. -/
theorem empty_target_rejected :
    @Link.isNext asciiTables emptyTargetLink = true ∧
      @nextLinkTarget asciiTables [renderField sampleBlanks [emptyTargetLink]] = .error MALFORMED_LINK := by
  constructor
  · decide
  · decide

end ExtraCodeowners
