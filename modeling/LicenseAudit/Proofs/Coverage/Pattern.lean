import LicenseAudit.Coverage.Walk
import LicenseAudit.Proofs.Path.Steps

/-!
# Patterns that read back

A directory **reads back** when escaping leaves nothing in it that a pattern
takes for something else: no backslash before a sign or another backslash, and
no quotes.  Its pattern is then read as the characters of the directory
(`read_escapedInside`, `of_eq`), so what the pattern names are the
directory and all that lies in it: `PathFilter.names_iff`.
-/

namespace LicenseAudit

open Text Coverage

namespace DirectoryPattern

variable {c : Char} {cs rest : List Char} {inRun begun : Bool} {directory : String}

/-- A text without a quotation mark, a null character, or a backslash that
stands before a sign or another backslash. -/
def isReadBack : List Char → Bool
  | [] => true
  | c :: cs =>
    c != '"' && c != '\x00' &&
      !(c == '\\' && cs.head?.any fun d => isEscapable d || d == '\\') && isReadBack cs

/-- A directory **reads back** from its pattern; with braces in it, no kind of
quote and no blank that is lost may stand in it. -/
structure ReadsBack (directory : String) : Prop where
  isReadBack : isReadBack directory.toList = true
  unquoted : hasBraces directory.toList = true →
    ∀ c ∈ directory.toList, isQuote c = false ∧ isLostBlank c = false

theorem readsBack_iff : ReadsBack directory ↔ isReadBack directory.toList = true ∧
    (hasBraces directory.toList = true →
      directory.toList.all (fun c => !isQuote c && !isLostBlank c) = true) := by
  simp only [List.all_eq_true, Bool.and_eq_true, Bool.not_eq_true']
  exact ⟨fun h => ⟨h.isReadBack, h.unquoted⟩, fun h => ⟨h.1, h.2⟩⟩

instance (directory : String) : Decidable (ReadsBack directory) :=
  decidable_of_iff _ readsBack_iff.symm

theorem escapedInside_of_ne (hc : c ≠ '\\') (cs : List Char) :
    escapedInside (c :: cs) =
      if isSign c || (isGroupSign c && cs.head? == some '(') then '\\' :: c :: escapedInside cs
      else c :: escapedInside cs := by
  rw [escapedInside]
  · simp [hc]
  · intro d ds hd
    simp_all

theorem escapedInside_backslash (h : ∀ d ∈ cs.head?, isEscapable d = false ∧ d ≠ '\\') :
    escapedInside ('\\' :: cs) = '\\' :: '\\' :: escapedInside cs := by
  cases cs with
  | nil => rfl
  | cons d cs =>
      obtain ⟨hsign, hd⟩ := h d rfl
      simp [escapedInside, hsign, hd]

/-- Escaping puts at most a backslash before the first character. -/
theorem head?_escapedInside (c : Char) (cs : List Char) :
    (escapedInside (c :: cs)).head? = some c ∨ (escapedInside (c :: cs)).head? = some '\\' := by
  by_cases hc : c = '\\'
  · subst hc
    cases cs with
    | nil => exact .inr rfl
    | cons d cs =>
        rw [escapedInside]
        split
        · exact .inr rfl
        · exact .inr rfl
  · rw [escapedInside_of_ne hc]
    split
    · exact .inr rfl
    · exact .inl rfl

/-- An escaped text starts with another character than a backslash only when the
text itself starts with it. -/
theorem eq_of_head?_escapedInside {d : Char} (hd : d ≠ '\\')
    (h : (escapedInside (c :: cs) ++ ['/']).head? = some d) : c = d := by
  rcases head?_escapedInside c cs with hhead | hhead
  · rw [List.head?_append, hhead] at h
    exact Option.some.inj h
  · rw [List.head?_append, hhead] at h
    exact absurd (Option.some.inj h).symm hd

theorem mem_escapedInside (h : c ∈ escapedInside cs) : c = '\\' ∨ c ∈ cs := by
  fun_induction escapedInside cs with grind

theorem pieceBehind_ne_nil (n : Nat) (c : Char) : pieceBehind n c ≠ [] := by
  unfold pieceBehind
  split <;> simp
  split <;> simp

theorem piecesBehind_of_ne (hc : c ≠ '\\') (n : Nat) (cs : List Char) :
    piecesBehind n (c :: cs) = pieceBehind n c ++ piecesBehind 0 cs := by
  rw [piecesBehind]
  simpa using hc

theorem piecesBehind_ne_nil (n : Nat) (cs : List Char) : piecesBehind n (cs ++ ['/']) ≠ [] := by
  induction cs generalizing n with
  | nil =>
      rw [List.nil_append, piecesBehind_of_ne (by decide)]
      exact List.append_ne_nil_of_left_ne_nil (pieceBehind_ne_nil n '/') _
  | cons c cs ih =>
      by_cases hc : c = '\\'
      · subst hc
        exact ih (n + 1)
      · rw [List.cons_append, piecesBehind_of_ne hc]
        exact List.append_ne_nil_of_left_ne_nil (pieceBehind_ne_nil n c) _

/-- A character behind a backslash is a piece, also a backslash when another
character follows. -/
theorem piecesBehind_backslash (hc : c = '\\' → ∃ d ds, rest = d :: ds ∧ d ≠ '\\') :
    piecesBehind 0 ('\\' :: c :: rest) = .escape c :: piecesBehind 0 rest := by
  rw [piecesBehind]
  by_cases hback : c = '\\'
  · obtain ⟨d, ds, rfl, hd⟩ := hc hback
    subst hback
    rw [piecesBehind, piecesBehind_of_ne hd, piecesBehind_of_ne hd]
    rfl
  · rw [piecesBehind_of_ne hback]
    rfl

/-- What a backslash that reads back stands before is written as it is. -/
theorem exists_escapedInside_append (h : ∀ d ∈ cs.head?, isEscapable d = false ∧ d ≠ '\\') :
    ∃ d ds, escapedInside cs ++ ['/'] = d :: ds ∧ d ≠ '\\' := by
  cases cs with
  | nil => exact ⟨'/', [], rfl, by decide⟩
  | cons d ds =>
      obtain ⟨hsign, hd⟩ := h d rfl
      rw [isEscapable, Bool.or_eq_false_iff] at hsign
      refine ⟨d, escapedInside ds ++ ['/'], ?_, hd⟩
      simp [escapedInside_of_ne hd, hsign]

/-- The pattern of a text that reads back is read as the characters of the
text. -/
theorem read_escapedInside (h : isReadBack cs = true) (hbegun : begun = true ∨ cs ≠ []) :
    read inRun false begun (piecesBehind 0 (escapedInside cs ++ ['/'])) =
      (cs.map .char, .within) := by
  induction cs generalizing inRun begun with
  | nil =>
      obtain rfl := hbegun.resolve_right (absurd rfl)
      cases inRun <;> rfl
  | cons c cs ih =>
      simp only [isReadBack, Bool.and_eq_true, bne_iff_ne, Bool.not_eq_true'] at h
      obtain ⟨⟨⟨hquote, hnull⟩, hback⟩, hcs⟩ := h
      have hrest (run : Bool) : read run false true (piecesBehind 0 (escapedInside cs ++ ['/'])) =
          (cs.map .char, .within) := ih hcs (.inl rfl)
      -- A character is written alone or behind a backslash, and is one piece in both cases.
      have hescape :
          read inRun false begun (.escape c :: piecesBehind 0 (escapedInside cs ++ ['/'])) =
            ((c :: cs).map .char, .within) := by
        rw [read, hrest]
        rfl
      by_cases hc : c = '\\'
      · subst hc
        have hnext : ∀ d ∈ cs.head?, isEscapable d = false ∧ d ≠ '\\' := by
          simpa [Option.any_eq_false] using hback
        rw [escapedInside_backslash hnext, List.cons_append, List.cons_append,
          piecesBehind_backslash fun _ => exists_escapedInside_append hnext]
        exact hescape
      · rw [escapedInside_of_ne hc]
        split
        · rw [List.cons_append, List.cons_append,
            piecesBehind_backslash fun hback => absurd hback hc]
          exact hescape
        · have hplain : piecesBehind 0 (c :: escapedInside cs ++ ['/']) =
              .plain c :: piecesBehind 0 (escapedInside cs ++ ['/']) := piecesBehind_of_ne hc 0 _
          have hmore : (piecesBehind 0 (escapedInside cs ++ ['/'])).isEmpty = false := by
            simpa using piecesBehind_ne_nil 0 (escapedInside cs)
          rw [hplain, read]
          simp [hquote, hnull, hmore, hrest]

theorem eq_of_head?_escaped {d : Char} (hd : d ≠ '\\')
    (h : (escaped (c :: cs) ++ ['/']).head? = some d) : c = d := by
  unfold escaped at h
  split at h
  · exact absurd (Option.some.inj h).symm hd
  · exact eq_of_head?_escapedInside hd h

theorem mem_escaped (h : c ∈ escaped cs) : c = '\\' ∨ c ∈ cs := by
  unfold escaped at h
  split at h
  · next rest =>
      rw [List.mem_cons, List.mem_cons] at h
      rcases h with h | rfl | h
      · exact .inl h
      · exact .inr List.mem_cons_self
      · exact (mem_escapedInside h).imp_right (List.mem_cons_of_mem _)
  · exact mem_escapedInside h

theorem read_escaped (h : isReadBack cs = true) (hcs : cs ≠ []) :
    read false false false (piecesBehind 0 (escaped cs ++ ['/'])) = (cs.map .char, .within) := by
  unfold escaped
  split
  · next rest =>
      simp only [isReadBack, Bool.and_eq_true] at h
      rw [List.cons_append, List.cons_append,
        piecesBehind_backslash fun hback => absurd hback (by decide), read,
        read_escapedInside h.2 (.inl rfl)]
      rfl
  · exact read_escapedInside h (.inr hcs)

theorem withoutQuotes_eq_self (h : ∀ c ∈ cs, isQuote c = false ∧ isLostBlank c = false) :
    withoutQuotes none cs = cs := by
  generalize hquote : (none : Option Char) = quote
  fun_induction withoutQuotes quote cs with
  | case1 quote c cs ih =>
      obtain ⟨-, h⟩ := List.forall_mem_cons.1 h
      rw [ih (List.forall_mem_cons.1 h).2 hquote]
  | case2 => cases hquote
  | case3 => cases hquote
  | case4 c cs _ hc => simp [hc] at h
  | case5 c cs _ _ hc => simp [hc] at h
  | case6 c cs _ _ _ ih => rw [ih (List.forall_mem_cons.1 h).2 rfl]
  | case7 => rfl

/-- The text of the pattern of a directory that reads back keeps all its
characters. -/
theorem text_eq (h : ReadsBack directory) :
    text directory.toList = escaped directory.toList ++ ['/'] := by
  unfold text
  cases hbraces : hasBraces directory.toList with
  | false => rfl
  | true =>
      have hkept : withoutQuotes none (escaped directory.toList ++ ['/']) =
          escaped directory.toList ++ ['/'] := by
        refine withoutQuotes_eq_self fun c hc => ?_
        rcases List.mem_append.1 hc with hc | hc
        · rcases mem_escaped hc with rfl | hc
          · exact ⟨rfl, rfl⟩
          · exact h.unquoted hbraces c hc
        · obtain rfl := List.mem_singleton.1 hc
          exact ⟨rfl, rfl⟩
      simp [hkept]

theorem behindHere_eq_self (h : ∀ rest, cs ≠ '.' :: '/' :: rest) : behindHere cs = cs := by
  unfold behindHere
  split
  · exact absurd rfl (h _)
  · rfl

/-- The text of the pattern of a place does not start with a slash. -/
theorem head?_escaped_ne_slash (hd : Path.IsPlace directory) :
    (escaped directory.toList ++ ['/']).head? ≠ some '/' := by
  obtain ⟨c, cs, hcs, hc⟩ := hd.exists_toList_eq
  rw [hcs]
  exact fun h => hc (eq_of_head?_escaped (by decide) h)

/-- The text of the pattern of a place does not start with a dot and a slash. -/
theorem escaped_ne_here (hd : Path.IsPlace directory) (rest : List Char) :
    escaped directory.toList ++ ['/'] ≠ '.' :: '/' :: rest := by
  obtain ⟨c, cs, hcs, -⟩ := hd.exists_toList_eq
  rw [hcs]
  intro hstart
  obtain rfl : c = '.' := eq_of_head?_escaped (by decide) (congrArg List.head? hstart)
  have htail : escapedInside cs ++ ['/'] = '/' :: rest := by
    simpa [escaped, escapedInside_of_ne, isSign, isGroupSign] using hstart
  cases cs with
  | nil => exact hd.ne_here (String.toList_injective hcs)
  | cons e es =>
      obtain rfl : e = '/' := eq_of_head?_escapedInside (by decide) (congrArg List.head? htail)
      have hdirectory : directory = "." ++ "/" ++ String.ofList es :=
        String.toList_injective (by simpa using hcs)
      have hnames := Path.isPlace_iff.1 hd
      have hfirst : split '/' "." = ["."] := by decide +kernel
      rw [hdirectory, Path.split_append, hfirst] at hnames
      exact (hnames "." List.mem_cons_self).ne_here rfl

/-- **The pattern of a directory that reads back** is read as its characters. -/
theorem of_eq (hd : Path.IsPlace directory) (h : ReadsBack directory) :
    of directory = ⟨false, directory.toList.map .char, .within⟩ := by
  have hrooted := head?_escaped_ne_slash hd
  have hne : directory.toList ≠ [] := by
    simpa using hd.ne_empty
  have hread := read_escaped h.isReadBack hne
  rw [of, text_eq h, behindHere_eq_self (escaped_ne_here hd)]
  cases hescaped : escaped directory.toList ++ ['/'] with
  | nil => simp at hescaped
  | cons c cs =>
      rw [hescaped] at hread hrooted
      simpa [hread] using hrooted

theorem after?_chars (cs path : List Char) :
    after? (cs.map .char) path = dropStart? cs path := by
  induction cs generalizing path with
  | nil => cases path <;> rfl
  | cons c cs ih =>
      cases path with
      | nil => rfl
      | cons d path =>
          rw [List.map_cons, after?, dropStart?, ih]

/-- The pattern of a directory that reads back fits the directory and what lies
in it. -/
theorem fits_iff (hd : Path.IsPlace directory) (h : ReadsBack directory) {path : List Char} :
    (of directory).fits path = true ↔
      path = directory.toList ∨ ∃ rest, path = directory.toList ++ '/' :: rest := by
  rw [of_eq hd h, fits, after?_chars, Option.any_eq_true]
  simp only [dropStart?_eq_some_iff, Ending.admits, Bool.or_eq_true, List.isEmpty_iff, beq_iff_eq]
  constructor
  · rintro ⟨rest, rfl, rfl | hrest⟩
    · exact .inl (List.append_nil _)
    · obtain ⟨more, rfl⟩ := List.head?_eq_some_iff.1 hrest
      exact .inr ⟨more, rfl⟩
  · rintro (rfl | ⟨rest, rfl⟩)
    · exact ⟨[], (List.append_nil _).symm, .inl rfl⟩
    · exact ⟨_, rfl, .inr rfl⟩

end DirectoryPattern

namespace Coverage

theorem mem_ancestorsOf_cons_iff {c : Char} {d cs : List Char} :
    d ∈ ancestorsOf (c :: cs) ↔ c = '/' ∧ d = ['/'] ∨ ∃ e ∈ ancestorsOf cs, d = c :: e := by
  rw [ancestorsOf]
  split
  · next hc => simp [hc, eq_comm]
  · next hc => simp [hc, eq_comm]

/-- The directories on the way are what ends with a slash at the start of a
path. -/
theorem mem_ancestorsOf_iff {d cs : List Char} :
    d ∈ ancestorsOf cs ↔ ∃ before rest, d = before ++ ['/'] ∧ cs = d ++ rest := by
  induction cs generalizing d with
  | nil =>
      constructor
      · intro hd
        cases hd
      · rintro ⟨before, rest, rfl, hnil⟩
        cases before <;> cases hnil
  | cons c cs ih =>
      rw [mem_ancestorsOf_cons_iff]
      constructor
      · rintro (⟨rfl, rfl⟩ | ⟨e, he, rfl⟩)
        · exact ⟨[], cs, rfl, rfl⟩
        · obtain ⟨before, rest, rfl, rfl⟩ := ih.1 he
          exact ⟨c :: before, rest, rfl, rfl⟩
      · rintro ⟨before, rest, rfl, hcs⟩
        cases before with
        | nil => exact .inl ⟨(List.cons.inj hcs).1, rfl⟩
        | cons b before =>
            obtain ⟨rfl, htail⟩ := List.cons.inj hcs
            exact .inr ⟨before ++ ['/'], ih.2 ⟨before, rest, rfl, htail⟩, rfl⟩

end Coverage

namespace PathFilter

variable {root directory path : String}

/-- **What the pattern of a directory names**, when it reads back, are the
directory and all that lies in it. -/
theorem names_iff (hd : Path.IsPlace directory) (h : DirectoryPattern.ReadsBack directory) :
    names root directory path = true ↔
      path = directory ∨ (Path.below? directory path).isSome = true := by
  have hfits : (DirectoryPattern.of directory).fits path.toList = true ↔
      path = directory ∨ ∃ rest, path = directory ++ "/" ++ rest := by
    rw [DirectoryPattern.fits_iff hd h]
    refine or_congr String.toList_inj ⟨?_, ?_⟩
    · rintro ⟨rest, hpath⟩
      exact ⟨String.ofList rest, String.toList_injective (by simpa using hpath)⟩
    · rintro ⟨rest, rfl⟩
      exact ⟨rest.toList, by simp⟩
  have hrooted : (DirectoryPattern.of directory).isRooted = false := by
    rw [DirectoryPattern.of_eq hd h]
  simp only [names, hrooted, Bool.false_eq_true, if_false, Bool.or_eq_true, hfits,
    Path.isSome_below?_iff, or_iff_left_iff_imp, List.any_eq_true, mem_ancestorsOf_iff]
  -- A directory on the way to the path that lies in the directory has the path in it.
  rintro ⟨_, ⟨before, rest, rfl, hpath⟩, hbefore⟩
  rw [List.dropLast_concat, DirectoryPattern.fits_iff hd h] at hbefore
  right
  rcases hbefore with rfl | ⟨more, rfl⟩
  · exact ⟨String.ofList rest, String.toList_injective (by simpa using hpath)⟩
  · refine ⟨String.ofList (more ++ '/' :: rest), String.toList_injective ?_⟩
    simpa using hpath

end PathFilter

end LicenseAudit
